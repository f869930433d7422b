/-
# When a receive returns

The peer decides what `socket::recv` gets: bytes in pieces of any size, and, once it has closed
its end, zeros.  The answers of the system call are an infinite sequence here, of which the loop
of `Lfi.Socket.Transfer` takes as many as it needs.  A zero leaves `l` as it was and the loop
calls again.

`recv_returns_iff` says for which sequences the loop ends as it should.
-/

import Lfi.Socket.Transfer

namespace Lfi
namespace Socket

open Runs

/-- The first `n` answers. -/
def firstAnswers (k : ℕ → Answer) (n : ℕ) : List Answer := (List.range n).map k

/-- The state after `n` calls; none when the loop has returned before. -/
def afterCalls (len : ℕ) (k : ℕ → Answer) (n : ℕ) : Option Transfer :=
  exec transferStep (.start len) (firstAnswers k n)

/-- Every answer fits the call it is given to. -/
def Kernel (len : ℕ) (k : ℕ → Answer) : Prop :=
  ∀ n x, afterCalls len k n = some x → x.outcome = .running → (k n).Fits (callCount x.left)

/-- The bytes that the first `n` answers bring. -/
def brought (k : ℕ → Answer) (n : ℕ) : ℕ := ((firstAnswers k n).map Answer.bytes).sum

/-- None of the first `n` answers is an error. -/
def NoError (k : ℕ → Answer) (n : ℕ) : Prop := ∀ i < n, ∀ errno, k i ≠ .error errno

/-- **What a receive promises**: after finitely many calls it returns, and with `len` only if
`len` bytes were received. -/
def Returns (len : ℕ) (k : ℕ → Answer) : Prop :=
  ∃ n x, afterCalls len k n = some x ∧
    ((∃ errno, x.outcome = .failed errno) ∨ x.outcome = .finished ∧ x.moved = len)

/-- An error comes on the first call or while `l` is positive. -/
def FailsInTime (len : ℕ) (k : ℕ → Answer) : Prop :=
  ∃ n, NoError k n ∧ (∃ errno, k n = .error errno) ∧ (n = 0 ∨ (brought k n : ℤ) < toInt len)

/-- The peer does not close before `len` bytes have come. -/
def BringsAll (len : ℕ) (k : ℕ → Answer) : Prop := ∃ n, 0 < n ∧ NoError k n ∧ len ≤ brought k n

variable {len n : ℕ} {k : ℕ → Answer} {x y : Transfer}

theorem firstAnswers_succ (k : ℕ → Answer) (n : ℕ) :
    firstAnswers k (n + 1) = firstAnswers k n ++ [k n] := by
  rw [firstAnswers, List.range_succ, List.map_append]
  rfl

theorem brought_succ (k : ℕ → Answer) (n : ℕ) :
    brought k (n + 1) = brought k n + (k n).bytes := by
  simp [brought, firstAnswers_succ]

theorem noError_succ : NoError k (n + 1) ↔ NoError k n ∧ ∃ m, k n = .done m := by
  constructor
  · intro h
    refine ⟨fun i hi => h i (by omega), ?_⟩
    cases hk : k n with
    | error errno => exact absurd hk (h n (by omega) errno)
    | done m => exact ⟨m, rfl⟩
  · rintro ⟨h, m, hm⟩ i hi errno herr
    rcases Nat.lt_succ_iff_lt_or_eq.1 hi with hi | rfl
    · exact h i hi errno herr
    · rw [hm] at herr
      cases herr

/-- One more call. -/
theorem afterCalls_succ :
    afterCalls len k (n + 1) = some y ↔
      ∃ x, afterCalls len k n = some x ∧ transferStep x (k n) = some y := by
  unfold afterCalls
  rw [firstAnswers_succ]
  exact exec_snoc

/-- An error brings nothing, so `buffer` has moved by what was brought. -/
theorem moved_eq (h : afterCalls len k n = some x) : x.moved = brought k n := by
  induction n generalizing x with
  | zero =>
      obtain rfl := Option.some.inj h
      rfl
  | succ n ih =>
      obtain ⟨w, hw, hstep⟩ := afterCalls_succ.1 h
      rw [brought_succ, ← ih hw]
      exact transferStep_moved hstep

/-- While the loop goes on no call has failed, and `l` is positive after the first. -/
theorem of_running (h : afterCalls len k n = some x) (hrun : x.outcome = .running) :
    NoError k n ∧ (n = 0 ∨ (brought k n : ℤ) < toInt len) := by
  induction n generalizing x with
  | zero => exact ⟨fun i hi => absurd hi (Nat.not_lt_zero i), .inl rfl⟩
  | succ n ih =>
      have hinv := loopInv_exec h
      obtain ⟨w, hw, hstep⟩ := afterCalls_succ.1 h
      obtain ⟨hwrun, ⟨errno, -, rfl⟩ | ⟨m, ha, -, -, hleft, -, -, hout⟩⟩ := transferStep_cases hstep
      · cases hrun
      · refine ⟨noError_succ.2 ⟨(ih hw hwrun).1, m, ha⟩, .inr ?_⟩
        rw [hout] at hrun
        have hpos : 0 < w.left - m := by
          split at hrun
          case isTrue => cases hrun
          case isFalse =>
            split at hrun
            case isTrue hpos => exact hpos
            case isFalse => cases hrun
        have := hinv.left
        rw [moved_eq h] at this
        omega

/-- And as long as that is so the loop goes on. -/
theorem exists_running (hk : Kernel len k) (hno : NoError k n)
    (hn : n = 0 ∨ (brought k n : ℤ) < toInt len) :
    ∃ x, afterCalls len k n = some x ∧ x.outcome = .running := by
  induction n with
  | zero => exact ⟨.start len, rfl, rfl⟩
  | succ n ih =>
      obtain ⟨hno, m, ha⟩ := noError_succ.1 hno
      have hlt : (brought k (n + 1) : ℤ) < toInt len := hn.resolve_left n.succ_ne_zero
      rw [brought_succ, Nat.cast_add] at hlt
      obtain ⟨w, hw, hrun⟩ := ih hno (.inr (by omega))
      have hstep : transferStep w (k n) = some
          ⟨w.left - m, w.moved + m, w.calls ++ [⟨w.moved, callCount w.left, m⟩], .running⟩ := by
        have hleft := (loopInv_exec hw).left
        rw [moved_eq hw] at hleft
        rw [ha] at hlt
        simp only [Answer.bytes] at hlt
        have hfits := hk n w hw hrun
        rw [ha] at hfits ⊢
        simp only [transferStep, if_pos (And.intro hrun hfits)]
        rw [if_neg (by omega), if_pos (by omega)]
      exact ⟨_, afterCalls_succ.2 ⟨w, hw, hstep⟩, rfl⟩

/-- A loop that has returned `len` has made a call, and none has failed. -/
theorem of_finished (h : afterCalls len k n = some x) (hx : x.outcome = .finished) :
    0 < n ∧ NoError k n := by
  cases n with
  | zero =>
      obtain rfl := Option.some.inj h
      cases hx
  | succ n =>
      obtain ⟨w, hw, hstep⟩ := afterCalls_succ.1 h
      obtain ⟨hrun, ⟨errno, -, rfl⟩ | ⟨m, ha, -⟩⟩ := transferStep_cases hstep
      · cases hx
      · exact ⟨n.succ_pos, noError_succ.2 ⟨(of_running hw hrun).1, m, ha⟩⟩

/-- The call that brings the last of `len` bytes. -/
theorem BringsAll.first (h : BringsAll len k) :
    ∃ n m, NoError k n ∧ k n = .done m ∧ (n = 0 ∨ brought k n < len) ∧
      len ≤ brought k (n + 1) := by
  obtain ⟨n, hpos, hno, hle⟩ := h
  induction n with
  | zero => exact absurd hpos (Nat.lt_irrefl 0)
  | succ n ih =>
      obtain ⟨hno', m, ha⟩ := noError_succ.1 hno
      by_cases hn : n = 0 ∨ brought k n < len
      · exact ⟨n, m, hno', ha, hn, hle⟩
      · exact ih (by omega) hno' (by omega)

/-- **When a receive returns as it should**: an error comes in time, or the length fits an `int`
and the peer does not close before all bytes have come. -/
theorem recv_returns_iff (hk : Kernel len k) :
    Returns len k ↔ FailsInTime len k ∨ len < 2 ^ 31 ∧ BringsAll len k := by
  constructor
  · rintro ⟨n, x, hx, ⟨errno, hfail⟩ | ⟨hfin, hall⟩⟩
    · -- the last call failed
      cases n with
      | zero =>
          obtain rfl := Option.some.inj hx
          cases hfail
      | succ n =>
          obtain ⟨w, hw, hstep⟩ := afterCalls_succ.1 hx
          obtain ⟨hrun, ⟨e, ha, -⟩ | ⟨m, -, -, -, -, -, -, hout⟩⟩ := transferStep_cases hstep
          · obtain ⟨hno, hn⟩ := of_running hw hrun
            exact .inl ⟨n, hno, ⟨e, ha⟩, hn⟩
          · rw [hout] at hfail
            split at hfail
            case isTrue => cases hfail
            case isFalse => split at hfail <;> cases hfail
    · obtain ⟨hpos, hno⟩ := of_finished hx hfin
      exact .inr ⟨(loopInv_exec hx).lt_of_moved_eq hfin hall, n, hpos, hno,
        by rw [← moved_eq hx, hall]⟩
  · rintro (⟨n, hno, ⟨errno, ha⟩, hn⟩ | ⟨hlen, hall⟩)
    · obtain ⟨x, hx, hrun⟩ := exists_running hk hno hn
      have hstep : transferStep x (k n) = some { x with outcome := .failed errno } := by
        simp only [transferStep, ha, if_pos (And.intro hrun trivial), Answer.Fits]
      exact ⟨n + 1, _, afterCalls_succ.2 ⟨x, hx, hstep⟩, .inl ⟨errno, rfl⟩⟩
    · obtain ⟨n, m, hno, ha, hn, hle⟩ := hall.first
      have hint := toInt_of_lt hlen
      obtain ⟨x, hx, hrun⟩ := exists_running hk hno (hn.imp_right fun h => by omega)
      have hfits := hk n x hx hrun
      obtain ⟨y, hstep⟩ : ∃ y, transferStep x (k n) = some y := by
        rw [ha] at hfits ⊢
        exact ⟨_, if_pos ⟨hrun, hfits⟩⟩
      have hy : afterCalls len k (n + 1) = some y := afterCalls_succ.2 ⟨x, hx, hstep⟩
      have hinv := loopInv_exec hy
      have hleft := hinv.left
      have hwithin := hinv.within (by omega)
      rw [moved_eq hy] at hleft
      obtain ⟨-, ⟨errno, herr, -⟩ | ⟨m', -, -, -, hlefty, -, -, hout⟩⟩ := transferStep_cases hstep
      · rw [ha] at herr
        cases herr
      · rw [← hlefty, if_neg (by omega), if_neg (by omega)] at hout
        exact ⟨n + 1, y, hy, .inr ⟨hout, by rw [moved_eq hy]; omega⟩⟩

/-- Eight bytes in two pieces. -/
def twoPieces : ℕ → Answer
  | 0 => .done 3
  | 1 => .done 5
  | _ => .done 0

theorem recv_returns_twoPieces : Kernel 8 twoPieces ∧
    (Returns 8 twoPieces ↔ FailsInTime 8 twoPieces ∨ 8 < 2 ^ 31 ∧ BringsAll 8 twoPieces) := by
  have hk : Kernel 8 twoPieces := fun n x hx hrun => by
    match n with
    | 0 =>
        obtain rfl := Option.some.inj hx
        decide
    | 1 =>
        obtain rfl : (⟨5, 3, [⟨0, 8, 3⟩], .running⟩ : Transfer) = x := Option.some.inj hx
        decide
    | n + 2 => exact ⟨Nat.zero_le _, Nat.zero_le _⟩
  exact ⟨hk, recv_returns_iff hk⟩

/-- The peer has closed its end before the size field arrived: the loop calls for ever. -/
theorem recv_peerClosed : Kernel 8 (fun _ => .done 0) ∧ ¬ Returns 8 fun _ => .done 0 := by
  refine ⟨fun n x hx hrun => ⟨Nat.zero_le _, Nat.zero_le _⟩, ?_⟩
  have hloop : ∀ n, ∃ x, afterCalls 8 (fun _ => .done 0) n = some x ∧ x.outcome = .running := by
    intro n
    have hzero : brought (fun _ => .done 0) n = 0 := by
      simp [brought, firstAnswers, Answer.bytes]
    exact exists_running (fun n x hx hrun => ⟨Nat.zero_le _, Nat.zero_le _⟩)
      (fun i _ errno h => nomatch h) (.inr (by rw [hzero]; decide))
  rintro ⟨n, x, hx, h⟩
  obtain ⟨y, hy, hrun⟩ := hloop n
  obtain rfl := Option.some.inj (hx.symm.trans hy)
  rcases h with ⟨errno, h⟩ | ⟨h, -⟩ <;> rw [hrun] at h <;> cases h

end Socket
end Lfi
