/-
# Measures of runs

How long a run can be is read off a measure of its states.  If every step raises the measure by
one, it counts the steps (`exec_count`).  If the steps of one kind lower it by one at least, and
the others raise it by less than `K`, there are at most `K` steps for each of the others
(`exec_charged`).

If every action has what it adds to the measure and what it takes from it, a run adds and takes
the totals (`exec_balance`).

The measure of a system of many parties is a sum over them; `sum_replace`, `sum_succ` and
`sum_transfer` are the ways in which a step changes it.
-/

import Lfi.Runs.Basic
import Mathlib.Algebra.BigOperators.Group.Finset.Basic
import Mathlib.Algebra.BigOperators.Group.Finset.Piecewise
import Mathlib.Algebra.Order.BigOperators.Group.Finset

namespace Lfi
namespace Runs

variable {σ α : Type*} {step : σ → α → Option σ}

/-- A measure that every step raises by one counts the steps of a run. -/
theorem exec_count {I : σ → Prop} {f : σ → ℕ} (hinv : ∀ s a t, I s → step s a = some t → I t)
    (hf : ∀ s a t, I s → step s a = some t → f t = f s + 1) {s t : σ} {as : List α} (hI : I s)
    (h : exec step s as = some t) : f t = f s + as.length := by
  induction as generalizing s with
  | nil =>
      obtain rfl := Option.some.inj h
      rfl
  | cons a as ih =>
      obtain ⟨u, hu, h⟩ := Option.bind_eq_some_iff.1 h
      rw [ih (hinv s a u hI hu) h, hf s a u hI hu, List.length_cons, Nat.add_right_comm,
        Nat.add_assoc]

/-- Where the measure is bounded, every run can be continued to one that cannot. -/
theorem exec_stuck {I : σ → Prop} {f : σ → ℕ} {B : ℕ}
    (hinv : ∀ s a t, I s → step s a = some t → I t)
    (hf : ∀ s a t, I s → step s a = some t → f t = f s + 1) (hB : ∀ s, I s → f s ≤ B)
    {s : σ} (hI : I s) : ∃ as t, exec step s as = some t ∧ ∀ a, step t a = none := by
  induction hd : B - f s generalizing s with
  | zero =>
      refine ⟨[], s, rfl, fun a => Option.eq_none_iff_forall_not_mem.2 fun t ht => ?_⟩
      have hone := hf s a t hI ht
      have hle := hB t (hinv s a t hI ht)
      omega
  | succ d ih =>
      by_cases hstuck : ∀ a, step s a = none
      · exact ⟨[], s, rfl, hstuck⟩
      · obtain ⟨a, ha⟩ := not_forall.1 hstuck
        obtain ⟨t, ht⟩ := Option.ne_none_iff_exists'.1 ha
        have hone := hf s a t hI ht
        obtain ⟨as, u, has, hu⟩ := ih (hinv s a t hI ht) (by omega)
        exact ⟨a :: as, u, by rw [exec_cons, ht]; exact has, hu⟩

/-- What the members of a list come to. -/
def total (f : α → ℕ) : List α → ℕ
  | [] => 0
  | a :: as => f a + total f as

@[simp] theorem total_nil (f : α → ℕ) : total f [] = 0 := rfl

@[simp] theorem total_cons (f : α → ℕ) (a : α) (as : List α) :
    total f (a :: as) = f a + total f as := rfl

theorem total_append (f : α → ℕ) (as bs : List α) :
    total f (as ++ bs) = total f as + total f bs := by
  induction as with
  | nil => exact (Nat.zero_add _).symm
  | cons a as ih => rw [List.cons_append, total_cons, ih, total_cons, Nat.add_assoc]

theorem total_ite (p : α → Bool) (as : List α) :
    total (fun a => if p a then 1 else 0) as = as.countP p := by
  induction as with
  | nil => rfl
  | cons a as ih => rw [total_cons, ih, List.countP_cons, Nat.add_comm]

theorem total_mul (n : ℕ) (f : α → ℕ) (as : List α) :
    total (fun a => n * f a) as = n * total f as := by
  induction as with
  | nil => rfl
  | cons a as ih => rw [total_cons, ih, total_cons, Nat.mul_add]

/-- **The balance of a run**, of which every step adds what its action says at most, and takes what
it says at least. -/
theorem exec_balance {G : σ → α → Prop} {I : σ → Prop} {f : σ → ℕ} (adds takes : α → ℕ)
    (hinv : ∀ s a t, I s → G s a → step s a = some t → I t)
    (hf : ∀ s a t, I s → G s a → step s a = some t → f t + takes a ≤ f s + adds a) {s t : σ}
    {as : List α} (hI : I s) (hG : Meets step G s as) (h : exec step s as = some t) :
    f t + total takes as ≤ f s + total adds as := by
  induction as generalizing s with
  | nil =>
      obtain rfl := Option.some.inj h
      exact le_rfl
  | cons a as ih =>
      obtain ⟨u, hu, h⟩ := Option.bind_eq_some_iff.1 h
      have hone := hf s a u hI hG.1 hu
      have hrest := ih (hinv s a u hI hG.1 hu) (hG.2 u hu) h
      rw [total_cons, total_cons]
      omega

/-- A sum of which one term is replaced. -/
theorem sum_replace {ι : Type*} [DecidableEq ι] {S : Finset ι} {f g : ι → ℕ} {i : ι} (hi : i ∈ S)
    (hrest : ∀ j, j ≠ i → g j = f j) : ∑ j ∈ S, g j + f i = ∑ j ∈ S, f j + g i := by
  have hsum : ∑ j ∈ S.erase i, g j = ∑ j ∈ S.erase i, f j :=
    Finset.sum_congr rfl fun j hj => hrest j (Finset.ne_of_mem_erase hj)
  rw [← Finset.add_sum_erase S g hi, ← Finset.add_sum_erase S f hi, hsum]
  omega

/-- A sum of which one term is raised by one. -/
theorem sum_succ {ι : Type*} [DecidableEq ι] {S : Finset ι} {f g : ι → ℕ} {i : ι} (hi : i ∈ S)
    (hone : g i = f i + 1) (hrest : ∀ j, j ≠ i → g j = f j) :
    ∑ j ∈ S, g j = ∑ j ∈ S, f j + 1 := by
  have hsum := sum_replace hi hrest
  omega

/-- How many steps of a run are charged to `E`. -/
def charged (step : σ → α → Option σ) (E : σ → α → Prop) [∀ s, DecidablePred (E s)] :
    σ → List α → ℕ
  | _, [] => 0
  | s, a :: as => (if E s a then 1 else 0) + (step s a).elim 0 fun t => charged step E t as

/-- **A run is paid for by the steps it is charged to.** -/
theorem exec_charged {E : σ → α → Prop} [∀ s, DecidablePred (E s)] {I : σ → Prop} {A : α → Prop}
    {f : σ → ℕ} {K : ℕ} (hinv : ∀ s a t, I s → A a → step s a = some t → I t)
    (hown : ∀ s a t, I s → A a → ¬ E s a → step s a = some t → f t + 1 ≤ f s)
    (hout : ∀ s a t, I s → A a → E s a → step s a = some t → f t + 1 ≤ f s + K)
    {s t : σ} {as : List α} (hI : I s) (hA : ∀ a ∈ as, A a) (h : exec step s as = some t) :
    f t + as.length ≤ f s + K * charged step E s as := by
  induction as generalizing s with
  | nil =>
      obtain rfl := Option.some.inj h
      exact le_rfl
  | cons a as ih =>
      obtain ⟨u, hu, h⟩ := Option.bind_eq_some_iff.1 h
      have ha := hA a List.mem_cons_self
      have hrest := ih (hinv s a u hI ha hu) (fun b hb => hA b (List.mem_cons_of_mem a hb)) h
      simp only [charged, hu, Option.elim_some, List.length_cons]
      by_cases hE : E s a
      · have hstep := hout s a u hI ha hE hu
        rw [if_pos hE, Nat.mul_add, Nat.mul_one]
        omega
      · have hstep := hown s a u hI ha hE hu
        rw [if_neg hE, Nat.zero_add]
        omega

/-- A sum of which one term falls by `k` against `m`, and another one rises by `b` at most. -/
theorem sum_transfer {ι : Type*} [DecidableEq ι] {S : Finset ι} {f g : ι → ℕ} {i : ι}
    (hi : i ∈ S) (j : ι) {k m b : ℕ} (hdrop : g i + k ≤ f i + m)
    (hrest : ∀ d, d ≠ i → g d ≤ f d + if d = j then b else 0) :
    ∑ d ∈ S, g d + k ≤ ∑ d ∈ S, f d + m + b := by
  have hsum : ∑ d ∈ S.erase i, g d ≤ ∑ d ∈ S.erase i, f d + b := by
    calc ∑ d ∈ S.erase i, g d
        ≤ ∑ d ∈ S.erase i, (f d + if d = j then b else 0) :=
          Finset.sum_le_sum fun d hd => hrest d (Finset.ne_of_mem_erase hd)
      _ = ∑ d ∈ S.erase i, f d + ∑ d ∈ S.erase i, (if d = j then b else 0) :=
          Finset.sum_add_distrib
      _ ≤ ∑ d ∈ S.erase i, f d + b := by
          rw [Finset.sum_ite_eq']
          split <;> omega
  rw [← Finset.add_sum_erase S g hi, ← Finset.add_sum_erase S f hi]
  omega

end Runs
end Lfi
