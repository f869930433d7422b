/-
# The transfer loop

`socket::send` and `socket::recv` of `src/src/impl/socket.cpp` are one loop around two
system calls:

    int l = len;
    do {
        r = PROXY(send)(socket, buffer, l, 0);
        if (r < 0) return r;
        l = l - r;
        buffer = buffer + r;
    } while ((l > 0) && (r >= 0));
    return len;

The length `len` has 64 bits and the bytes left, `l`, are an `int`.  A negative `l` goes to
the system call as a count near 2^64, and a subtraction that does not fit an `int` is
undefined.

`exact_iff` says for which lengths the loop transfers what it was asked to.
-/

import Lfi.Runs.Basic
import Mathlib.Data.Int.ModEq
import Mathlib.Data.List.Range

namespace Lfi
namespace Socket

open Runs

/-! ### The loop -/

/-- What a system call answers: -1 with `errno`, or the number of bytes it transferred. -/
inductive Answer where
  | error (errno : ℕ)
  | done (n : ℕ)
  deriving DecidableEq, Repr

/-- The bytes an answer brings. -/
def Answer.bytes : Answer → ℕ
  | .error _ => 0
  | .done n => n

/-- The most bytes Linux transfers in one call. -/
def maxRwCount : ℕ := 0x7FFFF000

/-- What may be answered to a call for `count` bytes. -/
def Answer.Fits (count : ℕ) : Answer → Prop
  | .error _ => True
  | .done n => n ≤ count ∧ n ≤ maxRwCount

instance (count : ℕ) : DecidablePred (Answer.Fits count)
  | .error _ => .isTrue trivial
  | .done _ => inferInstanceAs (Decidable (_ ∧ _))

/-- A system call that transferred: where `buffer` pointed, counted from `data`, the length it
was passed and its result. -/
structure Call where
  offset : ℕ
  count : ℕ
  result : ℕ
  deriving DecidableEq, Repr

/-- Where the loop is: in the loop, returned with `len` or with the error of a call, or past an
overflow of `l`. -/
inductive Outcome where
  | running
  | finished
  | failed (errno : ℕ)
  | undefined
  deriving DecidableEq, Repr

/-- The variables of the loop, `left` for `l` and `moved` for `buffer - data`, and its calls so
far. -/
structure Transfer where
  left : ℤ
  moved : ℕ
  calls : List Call
  outcome : Outcome
  deriving DecidableEq, Repr

/-- `int l = len`. -/
def toInt (len : ℕ) : ℤ := (len : ℤ).bmod (2 ^ 32)

/-- `PTRDIFF_MAX`; no string and no vector is longer, and `resize` throws instead. -/
def maxSize : ℕ := 2 ^ 63 - 1

/-- `l` as the `size_t` a system call takes. -/
def callCount (l : ℤ) : ℕ := (l % 2 ^ 64).toNat

/-- Before the first call. -/
def Transfer.start (len : ℕ) : Transfer := ⟨toInt len, 0, [], .running⟩

/-- One system call with its answer. -/
def transferStep (x : Transfer) (a : Answer) : Option Transfer :=
  if x.outcome = .running ∧ a.Fits (callCount x.left) then
    match a with
    | .error errno => some { x with outcome := .failed errno }
    | .done n =>
        let left := x.left - n
        some
          { left := left
            moved := x.moved + n
            calls := x.calls ++ [⟨x.moved, callCount x.left, n⟩]
            outcome :=
              if left < -2 ^ 31 then .undefined else if 0 < left then .running else .finished }
  else none

/-- The offsets from `data` of the bytes sent or filled, in the order in which they were. -/
def Transfer.offsets (x : Transfer) : List ℕ :=
  x.calls.flatMap fun c => List.range' c.offset c.result

/-- **An exact transfer**: the bytes are the `len` from `data` on, in order and each once, and no
call asks for more than are left. -/
def Transfer.Exact (len : ℕ) (x : Transfer) : Prop :=
  x.offsets = List.range len ∧ ∀ c ∈ x.calls, c.offset + c.count ≤ len

variable {len : ℕ} {x y : Transfer} {a : Answer} {as : List Answer}

/-! ### Lengths as an `int` -/

theorem toInt_of_lt (h : len < 2 ^ 31) : toInt len = len := by
  unfold toInt
  rw [Int.bmod_def]
  omega

theorem toInt_lt (len : ℕ) : toInt len < 2 ^ 31 := by
  unfold toInt
  rw [Int.bmod_def]
  omega

/-- A length that does not fit loses bytes. -/
theorem toInt_lt_of_le (h : 2 ^ 31 ≤ len) : toInt len < len := by
  have := toInt_lt len
  omega

theorem callCount_of_pos {l : ℤ} (h : 0 ≤ l) (hl : l < 2 ^ 31) : (callCount l : ℤ) = l := by
  unfold callCount
  omega

/-! ### What a call does -/

/-- A call fails, or transfers and leaves the loop where `l` says. -/
theorem transferStep_cases (h : transferStep x a = some y) :
    x.outcome = .running ∧
      ((∃ errno, a = .error errno ∧ y = { x with outcome := .failed errno }) ∨
        ∃ n, a = .done n ∧ n ≤ callCount x.left ∧ n ≤ maxRwCount ∧ y.left = x.left - n ∧
          y.moved = x.moved + n ∧ y.calls = x.calls ++ [⟨x.moved, callCount x.left, n⟩] ∧
          y.outcome = if x.left - n < -2 ^ 31 then .undefined
            else if 0 < x.left - n then .running else .finished) := by
  simp only [transferStep, Option.ite_none_right_eq_some] at h
  obtain ⟨⟨hrun, hfits⟩, h⟩ := h
  refine ⟨hrun, ?_⟩
  cases a with
  | error errno => exact .inl ⟨errno, rfl, (Option.some.inj h).symm⟩
  | done n =>
      obtain rfl := Option.some.inj h
      exact .inr ⟨n, rfl, hfits.1, hfits.2, rfl, rfl, rfl, rfl⟩

/-- `buffer` moves by what the answer brings. -/
theorem transferStep_moved (h : transferStep x a = some y) : y.moved = x.moved + a.bytes := by
  obtain ⟨-, ⟨errno, rfl, rfl⟩ | ⟨n, rfl, -, -, -, hmoved, -⟩⟩ := transferStep_cases h
  · rfl
  · exact hmoved

/-- **What holds in the loop.**  The bytes moved are those from `data` on, and `l` has what is
left of its first value.  The loop is entered again only when `l` is positive, and it is left
with `len` when nothing is left, or at once when there was nothing to begin with. -/
structure LoopInv (len : ℕ) (x : Transfer) : Prop where
  offsets : x.offsets = List.range x.moved
  left : x.left = toInt len - x.moved
  running : x.outcome = .running → x.moved = 0 ∨ 0 < x.left
  within : 0 ≤ toInt len → 0 ≤ x.left
  once : toInt len < 0 → x.moved ≤ maxRwCount
  finished : x.outcome = .finished → x.left ≤ 0
  counts : 0 ≤ toInt len → ∀ c ∈ x.calls, (c.offset : ℤ) + c.count ≤ toInt len

theorem loopInv_start (len : ℕ) : LoopInv len (.start len) where
  offsets := rfl
  left := by simp [Transfer.start]
  running _ := .inl rfl
  within h := by simpa [Transfer.start] using h
  once _ := by simp [Transfer.start]
  finished := nofun
  counts _ := nofun

/-- Every call keeps it. -/
theorem LoopInv.step (h : LoopInv len x) (ht : transferStep x a = some y) : LoopInv len y := by
  obtain ⟨hrun, ⟨errno, -, rfl⟩ | ⟨n, -, hcount, hmax, hleft, hmoved, hcalls, hout⟩⟩ :=
    transferStep_cases ht
  · exact ⟨h.offsets, h.left, nofun, h.within, h.once, nofun, h.counts⟩
  · have hx := h.left
    have hlt := toInt_lt len
    have hinside : 0 ≤ x.left → (n : ℤ) ≤ x.left := fun hpos => by
      have := callCount_of_pos hpos (by omega)
      omega
    refine ⟨?_, ?_, fun hy => ?_, fun hpos => ?_, fun hneg => ?_, fun hy => ?_, fun hpos c hc => ?_⟩
    · have hold := h.offsets
      unfold Transfer.offsets at hold ⊢
      rw [hcalls, List.flatMap_append, hold, hmoved]
      rw [List.flatMap_singleton, List.range_eq_range', List.range_eq_range']
      simpa only [Nat.zero_add] using @List.range'_append_1 0 x.moved n
    · rw [hleft, hmoved, hx, Nat.cast_add]
      omega
    · rw [hout] at hy
      rw [hleft]
      split at hy
      case isTrue => cases hy
      case isFalse =>
        split at hy
        case isTrue hpos => exact .inr hpos
        case isFalse => cases hy
    · have := hinside (h.within hpos)
      omega
    · -- the loop is left after the first call
      rcases h.running hrun with h0 | hpos <;> omega
    · rw [hout] at hy
      rw [hleft]
      split at hy
      case isTrue => cases hy
      case isFalse =>
        split at hy
        case isTrue => cases hy
        case isFalse hle => omega
    · rw [hcalls] at hc
      rcases List.mem_append.1 hc with hc | hc
      · exact h.counts hpos c hc
      · rw [List.mem_singleton.1 hc]
        have hleft0 : 0 ≤ x.left := by
          rcases h.running hrun with h0 | h0 <;> omega
        have := callCount_of_pos hleft0 (by omega)
        dsimp only
        omega

/-- It holds in every run. -/
theorem loopInv_exec (h : exec transferStep (.start len) as = some x) : LoopInv len x :=
  exec_invariant (fun _ _ _ hs ht => hs.step ht) (loopInv_start len) h

/-- A loop that is left with `len` has moved the value of `len` as an `int`, or what its only
call brought. -/
theorem LoopInv.moved_of_finished (h : LoopInv len x) (hx : x.outcome = .finished) :
    (x.moved : ℤ) = toInt len ∨ toInt len < 0 ∧ x.moved ≤ maxRwCount := by
  have hleft := h.left
  have hdone := h.finished hx
  by_cases hneg : toInt len < 0
  · exact .inr ⟨hneg, h.once hneg⟩
  · have := h.within (by omega)
    exact .inl (by omega)

/-- The loop never leaves the buffer. -/
theorem LoopInv.moved_le (h : LoopInv len x) : x.moved ≤ len := by
  have hleft := h.left
  have hlt := @toInt_lt_of_le len
  have heq := @toInt_of_lt len
  by_cases hneg : toInt len < 0
  · have := h.once hneg
    unfold maxRwCount at this
    omega
  · have := h.within (by omega)
    omega

/-- A loop for a length that fits has moved all of it when it returns. -/
theorem LoopInv.moved_eq_of_lt (h : LoopInv len x) (hx : x.outcome = .finished)
    (hlen : len < 2 ^ 31) : x.moved = len := by
  have := h.moved_of_finished hx
  have := toInt_of_lt hlen
  omega

/-- A loop that returns `len` and has moved as much was given a length that fits. -/
theorem LoopInv.lt_of_moved_eq (h : LoopInv len x) (hx : x.outcome = .finished)
    (hmoved : x.moved = len) : len < 2 ^ 31 := by
  by_contra hlen
  have hlt := toInt_lt_of_le (Nat.le_of_not_lt hlen)
  have hdone := h.moved_of_finished hx
  unfold maxRwCount at hdone
  omega

/-- **Which lengths are transferred.**  A loop that returns `len` has made an exact transfer if
and only if `len` is below 2^31. -/
theorem exact_iff (h : exec transferStep (.start len) as = some x) (hx : x.outcome = .finished) :
    x.Exact len ↔ len < 2 ^ 31 := by
  have hinv := loopInv_exec h
  constructor
  · intro hexact
    refine hinv.lt_of_moved_eq hx ?_
    simpa [hinv.offsets] using congrArg List.length hexact.1
  · intro hlen
    have htoInt := toInt_of_lt hlen
    refine ⟨by rw [hinv.offsets, hinv.moved_eq_of_lt hx hlen], fun c hc => ?_⟩
    have := hinv.counts (by omega) c hc
    omega

/-- A transfer in two pieces. -/
theorem exact_iff_twoPieces : ∃ x, exec transferStep (.start 5) [.done 2, .done 3] = some x ∧
    x.outcome = .finished ∧ (x.Exact 5 ↔ 5 < 2 ^ 31) := by
  have h : exec transferStep (.start 5) [.done 2, .done 3] =
      some ⟨0, 5, [⟨0, 5, 2⟩, ⟨2, 3, 3⟩], .finished⟩ := by decide
  exact ⟨_, h, rfl, exact_iff h rfl⟩

/-- 2^32 bytes: the loop asks for none and returns 2^32. -/
theorem exact_lengthLost : ∃ x, exec transferStep (.start (2 ^ 32)) [.done 0] = some x ∧
    x.outcome = .finished ∧ ¬ x.Exact (2 ^ 32) := by
  have h : exec transferStep (.start (2 ^ 32)) [.done 0] =
      some ⟨0, 0, [⟨0, 0, 0⟩], .finished⟩ := by decide
  exact ⟨_, h, rfl, fun hexact => absurd (congrArg List.length hexact.1)
    (by simp [Transfer.offsets])⟩

end Socket
end Lfi
