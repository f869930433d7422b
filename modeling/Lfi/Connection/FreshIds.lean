/-
# Fresh identifiers

`reserve_comm` takes the next number and hands it out as an `int`.  Its callers say that
they return a non-negative identifier, and it is to be nobody else's: `FreshId`.  That holds
of the first 2147483648 identifiers of a process and of no further one
(`fresh_ids_iff`): the number after them is negative as an `int`.

Here `close_comm` may be called with any identifier, also with that of an any-comm.
-/

import Lfi.Connection.Registry

namespace Lfi
namespace Connection

open Runs

/-- `close_comm(id)`: it erases the entry of a communicator.  Without one it returns
`-LFI_COMM_NOT_FOUND`. -/
def closeComm (p : Registry) (id : BitVec 32) : Registry :=
  match p.comms id with
  | some .connected | some .anyComm => p.set id none
  | some .reserved | none => p

/-- One action on the table. -/
def tableStep (p : Registry) : RegistryAction → Option Registry
  | .reserveComm => some (reserveComm p)
  | .initComm id =>
      if p.comms id = some .reserved then some (p.set id (some .connected)) else none
  | .closeComm id => some (closeComm p id)

/-- **What `reserve_comm` promises** of the identifier it returns: no communicator and no
any-comm has it, its entry is the new one, and as an `int` it is not negative. -/
structure FreshId (p : Registry) : Prop where
  unused : p.comms p.rankCounter = none
  notAny : Impl.isAnyComm p.rankCounter.toNat = false
  entry : (reserveComm p).comms p.rankCounter = some .reserved
  nonneg : 0 ≤ p.rankCounter.toInt

/-- The promise, at the actions that make it. -/
def Promised (p : Registry) : RegistryAction → Prop
  | .reserveComm => FreshId p
  | _ => True

/-- `n` identifiers were handed out, and the table has no others. -/
structure HandedOut (n : ℕ) (p : Registry) : Prop where
  counter : p.rankCounter.toNat = n
  entries : ∀ id, p.comms id ≠ none → Impl.isAnyComm id.toNat = true ∨ id.toNat < n

variable {p q : Registry} {n : ℕ}

theorem handedOut_start : HandedOut 0 registryStart where
  counter := rfl
  entries id hid := by
    refine .inl ?_
    have hstart : registryStart =
        ((⟨0, fun _ => none⟩ : Registry).set (BitVec.ofNat 32 Impl.anyCommPeer) (some .anyComm)).set
          (BitVec.ofNat 32 Impl.anyCommShm) (some .anyComm) := rfl
    rw [hstart, Registry.set_comms, Registry.set_comms] at hid
    split at hid
    case isTrue heq => rw [heq]; rfl
    case isFalse =>
      split at hid
      case isTrue heq => rw [heq]; rfl
      case isFalse => exact absurd rfl hid

/-- An entry may be replaced, if it is there. -/
theorem HandedOut.set (h : HandedOut n p) {id : BitVec 32} (hid : p.comms id ≠ none)
    (e : Option Entry) : HandedOut n (p.set id e) := by
  refine ⟨h.counter, fun i hi => ?_⟩
  rw [Registry.set_comms] at hi
  split at hi
  case isTrue heq => exact heq ▸ h.entries id hid
  case isFalse => exact h.entries i hi

/-- The next identifier. -/
theorem HandedOut.reserve (h : HandedOut n p) (hn : n < 4294967295) :
    HandedOut (n + 1) (reserveComm p) := by
  have hcounter : (p.rankCounter + 1).toNat = n + 1 := by
    rw [BitVec.toNat_add, h.counter]
    exact Nat.mod_eq_of_lt (by simpa using Nat.succ_lt_succ hn)
  have hgrow : ∀ id, p.comms id ≠ none → Impl.isAnyComm id.toNat = true ∨ id.toNat < n + 1 :=
    fun id hid => (h.entries id hid).imp_right fun hlt => Nat.lt_succ_of_lt hlt
  unfold reserveComm
  dsimp only
  split
  case isFalse => exact ⟨hcounter, hgrow⟩
  case isTrue =>
    refine ⟨hcounter, fun id hid => ?_⟩
    rw [Registry.set_comms] at hid
    split at hid
    case isTrue heq => exact .inr (by rw [heq, h.counter]; exact Nat.lt_succ_self n)
    case isFalse => exact hgrow id hid

/-- **One action.** -/
theorem HandedOut.step (h : HandedOut n p) (hn : n < 4294967295) {a : RegistryAction}
    (ht : tableStep p a = some q) : HandedOut (n + [a].count .reserveComm) q := by
  cases a with
  | reserveComm =>
      obtain rfl := Option.some.inj ht
      exact h.reserve hn
  | initComm id =>
      simp only [tableStep, Option.ite_none_right_eq_some, Option.some.injEq] at ht
      rw [← ht.2]
      exact h.set (by rw [ht.1]; nofun) _
  | closeComm id =>
      obtain rfl := Option.some.inj ht
      unfold closeComm
      split
      case h_1 hid => exact h.set (by rw [hid]; nofun) _
      case h_2 hid => exact h.set (by rw [hid]; nofun) _
      case h_3 => exact h
      case h_4 => exact h

/-- Among the first identifiers it is the sign that counts. -/
theorem HandedOut.freshId_iff (h : HandedOut n p) (hn : n ≤ 2147483648) :
    FreshId p ↔ n < 2147483648 := by
  have hint : p.rankCounter.toInt = if 2 * n < 4294967296 then (n : ℤ) else n - 4294967296 := by
    rw [BitVec.toInt_eq_toNat_cond, h.counter]
    rfl
  constructor
  · intro hfresh
    have hnonneg := hfresh.nonneg
    rw [hint] at hnonneg
    split at hnonneg <;> omega
  · intro hlt
    have hany : Impl.isAnyComm p.rankCounter.toNat = false := by
      rw [h.counter, Impl.isAnyComm, Bool.or_eq_false_iff, beq_eq_false_iff_ne,
        beq_eq_false_iff_ne]
      show n ≠ 4294967294 ∧ n ≠ 4294967293
      omega
    have hunused : p.comms p.rankCounter = none := by
      by_contra hsome
      rcases h.entries _ hsome with hmem | hless
      · rw [hany] at hmem
        cases hmem
      · rw [h.counter] at hless
        exact absurd hless (lt_irrefl n)
    refine ⟨hunused, hany, ?_, ?_⟩
    · unfold reserveComm
      rw [if_pos hunused, Registry.set_comms, if_pos rfl]
    · rw [hint, if_pos (by omega)]
      exact Int.natCast_nonneg n

/-- The runs from a state in which `n` identifiers were handed out. -/
theorem HandedOut.promised_iff (h : HandedOut n p) (hn : n ≤ 2147483648)
    {as : List RegistryAction} (ht : exec tableStep p as = some q) :
    Meets tableStep Promised p as ↔ n + as.count .reserveComm ≤ 2147483648 := by
  induction as generalizing p n with
  | nil => exact iff_of_true trivial hn
  | cons a as ih =>
      obtain ⟨u, hu, ht⟩ := Option.bind_eq_some_iff.1 ht
      have hcount : n + (a :: as).count .reserveComm =
          n + [a].count .reserveComm + as.count .reserveComm := by
        rw [List.count_cons, List.count_cons, List.count_nil]
        omega
      have hnext := h.step (by omega) hu
      rw [hcount]
      simp only [Meets, hu, Option.some.injEq, forall_eq']
      by_cases hfull : a = .reserveComm ∧ n = 2147483648
      · -- the identifier that is negative
        obtain ⟨rfl, rfl⟩ := hfull
        refine iff_of_false (fun hmeets => ?_) ?_
        · exact absurd ((h.freshId_iff hn).1 hmeets.1) (lt_irrefl _)
        · simp only [List.count_singleton_self]
          omega
      · have hpromised : Promised p a := by
          cases a with
          | reserveComm =>
              exact (h.freshId_iff hn).2 (lt_of_le_of_ne hn fun heq => hfull ⟨rfl, heq⟩)
          | initComm id => exact trivial
          | closeComm id => exact trivial
        have hle : n + [a].count .reserveComm ≤ 2147483648 := by
          cases a with
          | reserveComm =>
              have := lt_of_le_of_ne hn fun heq => hfull ⟨rfl, heq⟩
              simp only [List.count_singleton_self]
              omega
          | initComm id => simpa using hn
          | closeComm id => simpa using hn
        rw [and_iff_right hpromised]
        exact ih hnext hle ht

/-- **When the identifiers are fresh.**  In a run of any length from the table of a new
process, every `reserve_comm` keeps its promise if and only if the run makes at most
2147483648 of these calls. -/
theorem fresh_ids_iff (as : List RegistryAction) (p : Registry)
    (h : exec tableStep registryStart as = some p) :
    Meets tableStep Promised registryStart as ↔ as.count .reserveComm ≤ 2147483648 := by
  rw [handedOut_start.promised_iff (by omega) h, Nat.zero_add]

/-- A connection that is closed, and the next one. -/
theorem fresh_ids_reconnected :
    Meets tableStep Promised registryStart
      [.reserveComm, .initComm 0, .closeComm 0, .reserveComm, .initComm 1] :=
  (fresh_ids_iff _ _ (Option.some_get (x := exec tableStep registryStart
    [.reserveComm, .initComm 0, .closeComm 0, .reserveComm, .initComm 1])
      (by decide)).symm).2 (by decide)

/-- Any number of identifiers can be reserved. -/
theorem exec_reserves (n : ℕ) (hn : n ≤ 4294967295) :
    ∃ p, exec tableStep registryStart (List.replicate n .reserveComm) = some p ∧
      HandedOut n p := by
  induction n with
  | zero => exact ⟨_, rfl, handedOut_start⟩
  | succ n ih =>
      obtain ⟨p, hp, hout⟩ := ih (by omega)
      refine ⟨reserveComm p, ?_, hout.reserve (by omega)⟩
      rw [List.replicate_succ', exec_append, hp]
      rfl

/-- **The identifier after 2147483648 others is negative.** -/
theorem fresh_ids_exhausted :
    ¬ ∀ (as : List RegistryAction) (p : Registry), exec tableStep registryStart as = some p →
      Meets tableStep Promised registryStart as := by
  intro hall
  obtain ⟨p, hp, hout⟩ := exec_reserves 2147483648 (by omega)
  obtain ⟨q, hq, -⟩ := exec_reserves (2147483648 + 1) (by omega)
  have hmeets := hall _ q hq
  rw [List.replicate_succ', meets_append] at hmeets
  exact absurd ((hout.freshId_iff le_rfl).1 (hmeets.2 p hp).1) (lt_irrefl _)

end Connection
end Lfi
