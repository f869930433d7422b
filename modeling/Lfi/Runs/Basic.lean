/-
# Runs of a labelled transition function

A system is a partial function `step : σ → α → Option σ`: the action `a` taken
in the state `s` leads to `step s a`, and `none` says that `a` is not enabled
there.  A run is a list of actions (`exec`).

Three things are said about runs.  An invariant holds at the end of every run
(`exec_invariant`).  A system whose steps keep the invariant only where a
condition `G` on the state before the step holds keeps it along every run that
meets `G` (`always_of_meets`), and exactly along those when a step that misses
`G` breaks it (`always_iff_meets`).  What depends on the history is proved by
adding one action at the end (`exec_snoc_induction`).
-/

import Mathlib.Data.List.Induction

namespace Lfi
namespace Runs

variable {σ α : Type*} (step : σ → α → Option σ)

/-- The state after the actions `as` taken in order, `none` when one of them
is not enabled. -/
def exec : σ → List α → Option σ
  | s, [] => some s
  | s, a :: as => (step s a).bind fun t => exec t as

/-- Every step of the run starts in a state where `G` admits it. -/
def Meets (G : σ → α → Prop) : σ → List α → Prop
  | _, [] => True
  | s, a :: as => G s a ∧ ∀ t, step s a = some t → Meets G t as

/-- Every state the run visits satisfies `P`, the first and the last included. -/
def Always (P : σ → Prop) : σ → List α → Prop
  | s, [] => P s
  | s, a :: as => P s ∧ ∀ t, step s a = some t → Always P t as

/-- A state some run leads to from an initial one. -/
def Reachable (init : σ → Prop) (s : σ) : Prop :=
  ∃ s₀ as, init s₀ ∧ exec step s₀ as = some s

variable {step}

@[simp] theorem exec_nil (s : σ) : exec step s [] = some s := rfl

@[simp] theorem exec_cons (s : σ) (a : α) (as : List α) :
    exec step s (a :: as) = (step s a).bind fun t => exec step t as := rfl

/-- A run of `as ++ bs` is a run of `as` and one of `bs` after it. -/
theorem exec_append (s : σ) (as bs : List α) :
    exec step s (as ++ bs) = (exec step s as).bind fun t => exec step t bs := by
  induction as generalizing s with
  | nil => rfl
  | cons a as ih =>
      cases h : step s a with
      | none => simp [h]
      | some t => simp [h, ih]

/-- The last action of a run is taken in a state the run before it led to. -/
theorem exec_snoc {s u : σ} {as : List α} {a : α} :
    exec step s (as ++ [a]) = some u ↔ ∃ t, exec step s as = some t ∧ step t a = some u := by
  rw [exec_append, Option.bind_eq_some_iff]
  simp

/-- **An invariant holds at the end of every run.** -/
theorem exec_invariant {P : σ → Prop} (hstep : ∀ s a t, P s → step s a = some t → P t)
    {s t : σ} {as : List α} (hs : P s) (h : exec step s as = some t) : P t := by
  induction as generalizing s with
  | nil => exact Option.some.inj h ▸ hs
  | cons a as ih =>
      obtain ⟨u, hu, h⟩ := Option.bind_eq_some_iff.1 h
      exact ih (hstep s a u hs hu) h

/-- An invariant of the steps with actions in `A`, along a run of such steps. -/
theorem exec_invariant_mem {P : σ → Prop} {A : α → Prop}
    (hstep : ∀ s a t, P s → A a → step s a = some t → P t) {s t : σ} {as : List α} (hs : P s)
    (hA : ∀ a ∈ as, A a) (h : exec step s as = some t) : P t := by
  induction as generalizing s with
  | nil => exact Option.some.inj h ▸ hs
  | cons a as ih =>
    obtain ⟨u, hu, h⟩ := Option.bind_eq_some_iff.1 h
    exact ih (hstep s a u hs (hA a List.mem_cons_self) hu)
      (fun b hb => hA b (List.mem_cons_of_mem a hb)) h

/-- An invariant of the steps and of the initial states holds in every
reachable state. -/
theorem Reachable.invariant {init P : σ → Prop} {s : σ} (h : Reachable step init s)
    (hinit : ∀ s, init s → P s) (hstep : ∀ s a t, P s → step s a = some t → P t) : P s := by
  obtain ⟨s₀, as, h₀, has⟩ := h
  exact exec_invariant hstep (hinit s₀ h₀) has

/-- **History induction.**  A relation between the actions taken and the state
reached holds of every run when it holds of the empty one and survives one more
action. -/
theorem exec_snoc_induction {s₀ : σ} {M : List α → σ → Prop} (nil : M [] s₀)
    (snoc : ∀ as a s t, exec step s₀ as = some s → M as s → step s a = some t →
      M (as ++ [a]) t) :
    ∀ as s, exec step s₀ as = some s → M as s := by
  intro as
  induction as using List.reverseRecOn with
  | nil => exact fun s h => Option.some.inj h ▸ nil
  | append_singleton as a ih =>
      intro t h
      obtain ⟨s, hs, ht⟩ := exec_snoc.1 h
      exact snoc as a s t hs (ih s hs) ht

/-- A run meets a guard that can be decided, or it does not. -/
instance decidableMeets {G : σ → α → Prop} [∀ s, DecidablePred (G s)] :
    ∀ (s : σ) (as : List α), Decidable (Meets step G s as)
  | _, [] => .isTrue trivial
  | s, a :: as =>
      match h : step s a with
      | none => decidable_of_iff (G s a) (by simp [Meets, h])
      | some t =>
          have : Decidable (Meets step G t as) := decidableMeets t as
          decidable_of_iff (G s a ∧ Meets step G t as) (by simp [Meets, h])

/-- A guard that admits every step admits every run. -/
theorem meets_of_forall {G : σ → α → Prop} (hG : ∀ s a, G s a) (s : σ) (as : List α) :
    Meets step G s as := by
  induction as generalizing s with
  | nil => exact trivial
  | cons a as ih => exact ⟨hG s a, fun t _ => ih t⟩

/-- A run of `as ++ bs` meets a guard when both parts do. -/
theorem meets_append {G : σ → α → Prop} (s : σ) (as bs : List α) :
    Meets step G s (as ++ bs) ↔
      Meets step G s as ∧ ∀ t, exec step s as = some t → Meets step G t bs := by
  induction as generalizing s with
  | nil => simp [Meets]
  | cons a as ih =>
      cases h : step s a with
      | none => simp [Meets, h]
      | some t => simp [Meets, h, ih, and_assoc]

/-- Two guards that agree on the steps of a run agree on the run.  The steps may rely
on an invariant and on a guard that the run meets. -/
theorem meets_congr {I : σ → Prop} {H P Q : σ → α → Prop}
    (hinv : ∀ s a t, I s → step s a = some t → I t)
    (hPQ : ∀ s a t, I s → H s a → step s a = some t → (P s a ↔ Q s a)) {s t : σ} {as : List α}
    (hI : I s) (h : exec step s as = some t) (hH : Meets step H s as) :
    Meets step P s as ↔ Meets step Q s as := by
  induction as generalizing s with
  | nil => exact Iff.rfl
  | cons a as ih =>
      obtain ⟨u, hu, h⟩ := Option.bind_eq_some_iff.1 h
      have hrest := ih (hinv s a u hI hu) h (hH.2 u hu)
      simp only [Meets, hu, Option.some.injEq, forall_eq', hrest, hPQ s a u hI hH.1 hu]

/-- The last state of a run is one of those it visits. -/
theorem Always.last {P : σ → Prop} {s t : σ} {as : List α} (h : Always step P s as)
    (ht : exec step s as = some t) : P t := by
  induction as generalizing s with
  | nil => exact Option.some.inj ht ▸ h
  | cons a as ih =>
      obtain ⟨u, hu, ht⟩ := Option.bind_eq_some_iff.1 ht
      exact ih (h.2 u hu) ht

/-- The first state of a run is one of those it visits. -/
theorem Always.first {P : σ → Prop} {s : σ} {as : List α} (h : Always step P s as) : P s := by
  cases as with
  | nil => exact h
  | cons a as => exact h.1

/-- A run visits the states of its beginning. -/
theorem Always.take {P : σ → Prop} {s : σ} {as bs : List α} (h : Always step P s as)
    (hbs : bs <+: as) : Always step P s bs := by
  induction bs generalizing s as with
  | nil => exact h.first
  | cons b bs ih =>
      obtain ⟨as', rfl, hrest⟩ := List.cons_prefix_iff.1 hbs
      exact ⟨h.1, fun t ht => ih (h.2 t ht) hrest⟩

/-- What holds in every visited state holds weakened in every visited state. -/
theorem Always.mono {P Q : σ → Prop} (hPQ : ∀ s, P s → Q s) {s : σ} {as : List α}
    (h : Always step P s as) : Always step Q s as := by
  induction as generalizing s with
  | nil => exact hPQ s h
  | cons a as ih => exact ⟨hPQ s h.1, fun t ht => ih (h.2 t ht)⟩

/-- **A guarded invariant.**  Steps that meet `G` keep `P`, so a run all of
whose steps meet `G` satisfies `P` in every state it visits. -/
theorem always_of_meets {P : σ → Prop} {G : σ → α → Prop}
    (hstep : ∀ s a t, P s → G s a → step s a = some t → P t) {s : σ} {as : List α}
    (hs : P s) (h : Meets step G s as) : Always step P s as := by
  induction as generalizing s with
  | nil => exact hs
  | cons a as ih => exact ⟨hs, fun t ht => ih (hstep s a t hs h.1 ht) (h.2 t ht)⟩

/-- **An exact guard.**  When a step from a state with `P` ends in one with `P`
exactly if it meets `G`, the runs that satisfy `P` throughout are exactly those
whose steps all meet `G`.  The steps may rely on `I`, which holds as long as `P`
does, and on a guard that the run meets. -/
theorem always_iff_meets_of {I P : σ → Prop} {H G : σ → α → Prop}
    (hinv : ∀ s a t, I s → H s a → P s → step s a = some t → P t → I t)
    (hstep : ∀ s a t, I s → H s a → P s → step s a = some t → (P t ↔ G s a)) {s t : σ}
    {as : List α} (hI : I s) (hP : P s) (h : exec step s as = some t) (hH : Meets step H s as) :
    Always step P s as ↔ Meets step G s as := by
  induction as generalizing s with
  | nil => exact iff_of_true hP trivial
  | cons a as ih =>
      obtain ⟨u, hu, h⟩ := Option.bind_eq_some_iff.1 h
      have hone := hstep s a u hI hH.1 hP hu
      simp only [Always, Meets, hu, Option.some.injEq, forall_eq', hP, true_and]
      constructor
      · intro hall
        have hPu := hall.first
        exact ⟨hone.1 hPu, (ih (hinv s a u hI hH.1 hP hu hPu) hPu h (hH.2 u hu)).1 hall⟩
      · rintro ⟨hG, hrest⟩
        have hPu := hone.2 hG
        exact (ih (hinv s a u hI hH.1 hP hu hPu) hPu h (hH.2 u hu)).2 hrest

/-- An exact guard of all runs. -/
theorem always_iff_meets {I P : σ → Prop} {G : σ → α → Prop}
    (hinv : ∀ s a t, I s → P s → step s a = some t → P t → I t)
    (hstep : ∀ s a t, I s → P s → step s a = some t → (P t ↔ G s a)) {s t : σ} {as : List α}
    (hI : I s) (hP : P s) (h : exec step s as = some t) :
    Always step P s as ↔ Meets step G s as :=
  always_iff_meets_of (H := fun _ _ => True) (fun s a t hs _ => hinv s a t hs)
    (fun s a t hs _ => hstep s a t hs) hI hP h (meets_of_forall (fun _ _ => trivial) s as)

/-- **A guard that cannot be made up for.**  When a step that misses `G` leads to a
failure `B` that stays, the runs that meet `G` are exactly those that do not end in a
failure. -/
theorem meets_iff_not {I B : σ → Prop} {G : σ → α → Prop}
    (hkeep : ∀ s a t, I s → G s a → step s a = some t → I t)
    (hbreak : ∀ s a t, I s → ¬ G s a → step s a = some t → B t)
    (hstay : ∀ s a t, B s → step s a = some t → B t) (hexcl : ∀ s, I s → ¬ B s) {s t : σ}
    {as : List α} (hI : I s) (h : exec step s as = some t) : Meets step G s as ↔ ¬ B t := by
  constructor
  · exact fun hG => hexcl t ((always_of_meets hkeep hI hG).last h)
  · intro hB
    induction as generalizing s with
    | nil => exact trivial
    | cons a as ih =>
        obtain ⟨u, hu, h⟩ := Option.bind_eq_some_iff.1 h
        by_cases hG : G s a
        · refine ⟨hG, fun v hv => ?_⟩
          obtain rfl : u = v := Option.some.inj (hu.symm.trans hv)
          exact ih (hkeep s a u hI hG hu) h
        · exact absurd (exec_invariant hstay (hbreak s a u hI hG hu) h) hB

end Runs
end Lfi
