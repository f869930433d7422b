/-
# Rings of waiting parties

Who waits for whom is a relation `R` on finitely many parties.  If everyone of a set waits for
someone of it, there is a cycle (`exists_cycle`): a chain of parties that wait for each other
comes back to where it was.

A cycle of arcs, from `src k` to `dst k`, holds a ring (`exists_ring`): a set of arcs of which no
two begin at one place, no two end at one, and one goes on from each of their ends.
-/

import Mathlib.Data.Fintype.Pigeonhole
import Mathlib.Dynamics.PeriodicPts.Lemmas

namespace Lfi
namespace Runs

variable {K P : Type*} [Finite K]

/-- Iterating a function leads to a periodic point. -/
theorem exists_iterate_periodic (f : K → K) (k : K) :
    ∃ m, f^[m] k ∈ Function.periodicPts f := by
  obtain ⟨m, n, hne, heq⟩ := Finite.exists_ne_map_eq_of_infinite fun n => f^[n] k
  wlog hlt : m < n generalizing m n
  · exact this n m hne.symm heq.symm (by omega)
  obtain ⟨d, rfl⟩ := Nat.exists_eq_add_of_lt hlt
  refine ⟨m, Function.mk_mem_periodicPts (Nat.succ_pos d) ?_⟩
  rw [Function.IsPeriodicPt, Function.IsFixedPt, ← Function.iterate_add_apply, Nat.add_comm]
  exact heq.symm

/-- A chain in a finite set comes back. -/
theorem exists_cycle {R : K → K → Prop} {S : Set K} (hne : S.Nonempty)
    (h : ∀ k ∈ S, ∃ k' ∈ S, R k k') : ∃ k, Relation.TransGen R k k := by
  choose! f hf using h
  have hmem : ∀ k ∈ S, ∀ n, f^[n] k ∈ S := fun k hk n => by
    induction n with
    | zero => exact hk
    | succ n ih => rw [Function.iterate_succ_apply']; exact (hf _ ih).1
  have hchain : ∀ k ∈ S, ∀ n, Relation.TransGen R k (f^[n + 1] k) := fun k hk n => by
    induction n with
    | zero => exact .single (hf k hk).2
    | succ n ih =>
        rw [Function.iterate_succ_apply']
        exact ih.tail (hf _ (hmem k hk _)).2
  obtain ⟨k, hk⟩ := hne
  obtain ⟨m, hperiodic⟩ := exists_iterate_periodic f k
  obtain ⟨n, hn, hfix⟩ := hperiodic
  obtain ⟨n, rfl⟩ := Nat.exists_eq_succ_of_ne_zero (Nat.ne_of_gt hn)
  have hcycle := hchain _ (hmem k hk m) n
  rw [hfix.eq] at hcycle
  exact ⟨_, hcycle⟩

/-- A cycle of arcs holds a ring. -/
theorem exists_ring {src dst : K → P} {k : K}
    (h : Relation.TransGen (fun k k' => dst k = src k') k k) :
    ∃ O : Set K, O.Nonempty ∧ Set.InjOn src O ∧ Set.InjOn dst O ∧
      ∀ k ∈ O, ∃ k' ∈ O, dst k = src k' := by
  have : Nonempty K := ⟨k⟩
  -- from the end of an arc on a cycle, the next one depends on this place alone
  let C : Set K := {k | Relation.TransGen (fun k k' => dst k = src k') k k}
  let next : K → K := fun k => Function.invFunOn src C (dst k)
  have hnext : ∀ k ∈ C, next k ∈ C ∧ src (next k) = dst k := fun k hk => by
    refine Function.invFunOn_pos ?_
    obtain ⟨k', hstep, hrest⟩ := Relation.TransGen.head'_iff.1 hk
    exact ⟨k', .tail' hrest hstep, hstep.symm⟩
  have hmem : ∀ n, next^[n] k ∈ C := fun n => by
    induction n with
    | zero => exact h
    | succ n ih => rw [Function.iterate_succ_apply']; exact (hnext _ ih).1
  obtain ⟨m, hperiodic⟩ := exists_iterate_periodic next k
  have hiterate : ∀ n, next^[m + n] k ∈ Function.periodicPts next := fun n => by
    induction n with
    | zero => exact hperiodic
    | succ n ih =>
        rw [← Nat.add_assoc, Function.iterate_succ_apply']
        exact (Function.bijOn_periodicPts (f := next)).mapsTo ih
  have hinj := (Function.bijOn_periodicPts (f := next)).injOn
  refine ⟨{y | ∃ n, y = next^[m + n] k}, ⟨_, 0, rfl⟩, ?_, ?_, ?_⟩
  · have hback : ∀ n, ∃ z ∈ C, next z = next^[m + n] k := fun n => by
      obtain ⟨d, hd, hfix⟩ := hperiodic
      obtain ⟨d, rfl⟩ := Nat.exists_eq_succ_of_ne_zero (Nat.ne_of_gt hd)
      refine ⟨next^[m + (n + d)] k, hmem _, ?_⟩
      rw [← Function.iterate_succ_apply' next, show (m + (n + d)).succ = n + ((d + 1) + m) by omega,
        Function.iterate_add_apply, Function.iterate_add_apply, hfix.eq,
        ← Function.iterate_add_apply, Nat.add_comm n m]
    rintro _ ⟨n, rfl⟩ _ ⟨n', rfl⟩ heq
    obtain ⟨z, hz, hzn⟩ := hback n
    obtain ⟨z', hz', hzn'⟩ := hback n'
    rw [← hzn, ← hzn', (hnext z hz).2, (hnext z' hz').2] at heq
    rw [← hzn, ← hzn']
    exact congrArg (Function.invFunOn src C) heq
  · rintro _ ⟨n, rfl⟩ _ ⟨n', rfl⟩ heq
    exact hinj (hiterate n) (hiterate n') (congrArg (Function.invFunOn src C) heq)
  · rintro _ ⟨n, rfl⟩
    refine ⟨next^[m + (n + 1)] k, ⟨n + 1, rfl⟩, ?_⟩
    rw [← Nat.add_assoc, Function.iterate_succ_apply']
    exact (hnext _ (hmem _)).2.symm

end Runs
end Lfi
