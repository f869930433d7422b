/-
# What the collectives post

`lfi_broadcast` and `lfi_allreduce` in `src/lfi_coll.cpp`, next to `lfi_barrier`
(`Lfi.Coll.Barrier`).  Every collective is a sequence of phases; in a phase a process
posts its requests one after the other and then waits for all of them.  A broadcast has
one phase, in which the root sends to everybody else.  An allreduce has two: the root
gathers what the others send it, and then sends them the result.

`count_send_eq_recv` is what they have in common: in each phase a process sends to
another exactly as often as that one receives from it, under every tag.
-/

import Lfi.Coll.Barrier

namespace Lfi
namespace Coll

open Runs

/-- `LFI_TAG_BROADCAST`. -/
def lfiTagBroadcast : ℕ := 0xFFFFFFFF - 6
/-- `LFI_TAG_ALLREDUCE`. -/
def lfiTagAllreduce : ℕ := 0xFFFFFFFF - 7

variable {n : ℕ}

/-- One operation for every rank but `r`, in the order of the ranks. -/
def forOthers (r : Fin n) (o : Fin n → Op (Fin n) ℕ) : List (Op (Fin n) ℕ) :=
  (List.finRange n).flatMap fun i => if i = r then [] else [o i]

/-- What `lfi_broadcast` posts in the process of rank `p`. -/
def broadcastOps (r p : Fin n) : List (Op (Fin n) ℕ) :=
  if p = r then forOthers r (.send · lfiTagBroadcast) else [.recv r lfiTagBroadcast]

/-- What `lfi_allreduce` posts before the result is computed. -/
def gatherOps (p : Fin n) : List (Op (Fin n) ℕ) :=
  if p = root p then forOthers (root p) (.recv · lfiTagAllreduce)
  else [.send (root p) lfiTagAllreduce]

/-- What `lfi_allreduce` posts after that. -/
def scatterOps (p : Fin n) : List (Op (Fin n) ℕ) :=
  if p = root p then forOthers (root p) (.send · lfiTagAllreduce)
  else [.recv (root p) lfiTagAllreduce]

/-- The three collectives. -/
inductive Collective (n : ℕ) where
  | barrier
  | broadcast (root : Fin n)
  | allreduce
  deriving DecidableEq

/-- The phases of a collective in the process of rank `p`. -/
def Collective.phases (p : Fin n) : Collective n → List (List (Op (Fin n) ℕ))
  | .barrier => [barrierOps n p]
  | .broadcast r => [broadcastOps r p]
  | .allreduce => [gatherOps p, scatterOps p]

/-! ### The messages of a phase -/

/-- An operation for every rank but one is there once. -/
theorem count_forOthers (r : Fin n) {o : Fin n → Op (Fin n) ℕ} (ho : Function.Injective o)
    (x : Op (Fin n) ℕ) : (forOthers r o).count x = if ∃ i, i ≠ r ∧ o i = x then 1 else 0 := by
  have hsum : ∀ l : List (Fin n), l.Nodup →
      (l.flatMap fun i => if i = r then [] else [o i]).count x =
        if ∃ i ∈ l, i ≠ r ∧ o i = x then 1 else 0 := by
    intro l hl
    induction l with
    | nil => simp
    | cons j l ih =>
        obtain ⟨hj, hl⟩ := List.nodup_cons.1 hl
        rw [List.flatMap_cons, List.count_append, ih hl]
        by_cases hjr : j = r
        · simp [hjr]
        by_cases hx : o j = x
        · have hrest : ¬ ∃ i ∈ l, i ≠ r ∧ o i = x := by
            rintro ⟨i, hi, -, hix⟩
            exact hj (ho (hix.trans hx.symm) ▸ hi)
          have hmem : ∃ i ∈ j :: l, i ≠ r ∧ o i = x := ⟨j, List.mem_cons_self .., hjr, hx⟩
          simp only [hrest, hmem, hjr, if_true, if_false, hx, List.count_singleton_self]
        · simp [hjr, hx]
  rw [forOthers, hsum _ (List.nodup_finRange n)]
  simp

theorem count_singleton (a x : Op (Fin n) ℕ) : [a].count x = if a = x then 1 else 0 := by
  simp [List.count_singleton]

/-- The sends of a phase that goes out from `r`. -/
theorem count_send_out (r p q : Fin n) (t u : ℕ) :
    (if p = r then forOthers r (.send · t) else [Op.recv r t]).count (.send q u) =
      if p = r ∧ q ≠ r ∧ u = t then 1 else 0 := by
  split
  case isTrue hp =>
    rw [count_forOthers r fun i j h => (Op.send.inj h).1]
    refine if_congr ⟨?_, ?_⟩ rfl rfl
    · rintro ⟨i, hi, h⟩
      obtain ⟨rfl, rfl⟩ := Op.send.inj h
      exact ⟨hp, hi, rfl⟩
    · rintro ⟨-, hq, rfl⟩
      exact ⟨q, hq, rfl⟩
  case isFalse hp => simp [hp]

/-- The receives of a phase that goes out from `r`. -/
theorem count_recv_out (r p q : Fin n) (t u : ℕ) :
    (if p = r then forOthers r (.send · t) else [Op.recv r t]).count (.recv q u) =
      if q = r ∧ p ≠ r ∧ u = t then 1 else 0 := by
  split
  case isTrue hp =>
    rw [count_forOthers r fun i j h => (Op.send.inj h).1]
    simp [hp]
  case isFalse hp =>
    rw [count_singleton]
    refine if_congr ⟨fun h => ?_, fun h => ?_⟩ rfl rfl
    · obtain ⟨rfl, rfl⟩ := Op.recv.inj h
      exact ⟨rfl, hp, rfl⟩
    · rw [h.1, h.2.2]

/-- The sends of a phase that comes in to `r`. -/
theorem count_send_in (r p q : Fin n) (t u : ℕ) :
    (if p = r then forOthers r (.recv · t) else [Op.send r t]).count (.send q u) =
      if q = r ∧ p ≠ r ∧ u = t then 1 else 0 := by
  split
  case isTrue hp =>
    rw [count_forOthers r fun i j h => (Op.recv.inj h).1]
    simp [hp]
  case isFalse hp =>
    rw [count_singleton]
    refine if_congr ⟨fun h => ?_, fun h => ?_⟩ rfl rfl
    · obtain ⟨rfl, rfl⟩ := Op.send.inj h
      exact ⟨rfl, hp, rfl⟩
    · rw [h.1, h.2.2]

/-- The receives of a phase that comes in to `r`. -/
theorem count_recv_in (r p q : Fin n) (t u : ℕ) :
    (if p = r then forOthers r (.recv · t) else [Op.send r t]).count (.recv q u) =
      if p = r ∧ q ≠ r ∧ u = t then 1 else 0 := by
  split
  case isTrue hp =>
    rw [count_forOthers r fun i j h => (Op.recv.inj h).1]
    refine if_congr ⟨?_, ?_⟩ rfl rfl
    · rintro ⟨i, hi, h⟩
      obtain ⟨rfl, rfl⟩ := Op.recv.inj h
      exact ⟨hp, hi, rfl⟩
    · rintro ⟨-, hq, rfl⟩
      exact ⟨q, hq, rfl⟩
  case isFalse hp => simp [hp]

/-- The messages of a barrier: the workers and the root exchange one. -/
theorem count_barrierOps (p q : Fin n) (u : ℕ) (o : Op (Fin n) ℕ)
    (ho : o = .send q u ∨ o = .recv q u) :
    (barrierOps n p).count o =
      if p ≠ q ∧ (p = root p ∨ q = root p) ∧ u = lfiTagBarrier then 1 else 0 := by
  split
  case isTrue h =>
    obtain ⟨hpq, hr, rfl⟩ := h
    by_cases hp : p = root p
    · rw [hp]
      exact count_barrierOps_root (fun hq => hpq (hp.trans hq.symm)) o ho.symm
    · obtain rfl := hr.resolve_left hp
      exact count_barrierOps_worker hp o ho.symm
  case isFalse h =>
    refine List.count_eq_zero.2 fun hmem => h ?_
    unfold barrierOps at hmem
    split at hmem
    case isTrue hp =>
      obtain ⟨i, -, hi⟩ := List.mem_flatMap.1 hmem
      split at hi
      case isTrue => exact absurd hi List.not_mem_nil
      case isFalse hir =>
        have hiq : i = q ∧ lfiTagBarrier = u := by
          rcases ho with rfl | rfl <;> simpa [eq_comm] using hi
        exact ⟨fun hpq => hir (hiq.1.trans (hpq.symm.trans hp)), .inl hp, hiq.2.symm⟩
    case isFalse hp =>
      have hiq : q = root p ∧ u = lfiTagBarrier := by
        rcases ho with rfl | rfl <;> simpa using hmem
      exact ⟨fun hpq => hp (hpq.trans hiq.1), .inr hiq.1, hiq.2⟩

/-- **The two ends of a phase agree.**  A process sends to another exactly as often as
that one receives from it. -/
theorem count_send_eq_recv (call : Collective n) (k : ℕ) (p q : Fin n) (u : ℕ) :
    ((call.phases p)[k]?.getD []).count (.send q u) =
      ((call.phases q)[k]?.getD []).count (.recv p u) := by
  cases call with
  | barrier =>
      cases k with
      | zero =>
          refine (count_barrierOps p q u _ (.inl rfl)).trans
            (Eq.trans (if_congr ?_ rfl rfl) (count_barrierOps q p u _ (.inr rfl)).symm)
          exact and_congr ne_comm (and_congr_left' or_comm)
      | succ k => rfl
  | broadcast r =>
      cases k with
      | zero => exact (count_send_out r p q _ u).trans (count_recv_out r q p _ u).symm
      | succ k => rfl
  | allreduce =>
      match k with
      | 0 => exact (count_send_in (root p) p q _ u).trans (count_recv_in (root q) q p _ u).symm
      | 1 => exact (count_send_out (root p) p q _ u).trans (count_recv_out (root q) q p _ u).symm
      | k + 2 => rfl

end Coll
end Lfi
