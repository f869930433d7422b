/-
# Runs with the same events

Two systems of which one can follow the other, step by step, in as many steps as it takes.  Some
of the actions show an event; the runs then show the same events.

The other system may be a function of the actions alone, what they are for; a guarded run then
computes it (`exec_foldl`).
-/

import Lfi.Runs.Basic

namespace Lfi
namespace Runs

variable {σ τ α β ε : Type*} {step : σ → α → Option σ} {step' : τ → β → Option τ}

/-- `step'` follows a step of `step` in some steps that show the same events. -/
def Follows (step : σ → α → Option σ) (step' : τ → β → Option τ) (event : α → Option ε)
    (event' : β → Option ε) (R : σ → τ → Prop) : Prop :=
  ∀ s t a s', R s t → step s a = some s' →
    ∃ bs t', exec step' t bs = some t' ∧ bs.filterMap event' = [a].filterMap event ∧ R s' t'

/-- Some steps from `t` show what the action `a` shows, and lead to a state that has `P`. -/
def CanShow (step' : τ → β → Option τ) (event : α → Option ε) (event' : β → Option ε) (t : τ)
    (a : α) (P : τ → Prop) : Prop :=
  ∃ bs t', exec step' t bs = some t' ∧ bs.filterMap event' = [a].filterMap event ∧ P t'

section CanShow

variable {event : α → Option ε} {event' : β → Option ε} {t t' : τ} {a : α} {P : τ → Prop}

/-- What shows nothing can be followed by no step. -/
theorem CanShow.stay (ha : event a = none) (h : P t) : CanShow step' event event' t a P :=
  ⟨[], t, rfl, by rw [List.filterMap_cons, ha]; rfl, h⟩

/-- One step that shows the same. -/
theorem CanShow.one {b : β} (ht : step' t b = some t') (hb : event' b = event a) (h : P t') :
    CanShow step' event event' t a P :=
  ⟨[b], t', by rw [exec_cons, ht]; rfl,
    by rw [List.filterMap_cons, List.filterMap_cons, hb]; rfl, h⟩

end CanShow

/-- **A run is followed by a run.** -/
theorem Follows.exec {event : α → Option ε} {event' : β → Option ε} {R : σ → τ → Prop}
    (h : Follows step step' event event' R) {s s' : σ} {t : τ} {as : List α} (hR : R s t)
    (hs : exec step s as = some s') :
    ∃ bs t', exec step' t bs = some t' ∧ bs.filterMap event' = as.filterMap event ∧ R s' t' := by
  induction as generalizing s t with
  | nil =>
    obtain rfl := Option.some.inj hs
    exact ⟨[], t, rfl, rfl, hR⟩
  | cons a as ih =>
    rw [exec_cons, Option.bind_eq_some_iff] at hs
    obtain ⟨u, hu, hs⟩ := hs
    obtain ⟨bs, t', ht', hevents, hR'⟩ := h s t a u hR hu
    obtain ⟨cs, t'', ht'', hevents', hR''⟩ := ih hR' hs
    refine ⟨bs ++ cs, t'', ?_, ?_, hR''⟩
    · rw [exec_append, ht', Option.bind_some, ht'']
    · rw [List.filterMap_append, hevents, hevents', ← List.filterMap_append, List.singleton_append]

/-- **A guarded simulation.**  Every step is followed by some steps that meet their guard exactly
when it meets its own; then the same is true of runs. -/
theorem exec_followed {G : σ → α → Prop} {G' : τ → β → Prop} {R : σ → τ → Prop}
    (h : ∀ s t a s', R s t → step s a = some s' → ∃ bs t', exec step' t bs = some t' ∧ R s' t' ∧
      (G s a ↔ Meets step' G' t bs)) {s s' : σ} {t : τ} {as : List α} (hR : R s t)
    (hs : exec step s as = some s') :
    ∃ bs t', exec step' t bs = some t' ∧ R s' t' ∧
      (Meets step G s as ↔ Meets step' G' t bs) := by
  induction as generalizing s t with
  | nil =>
    obtain rfl := Option.some.inj hs
    exact ⟨[], t, rfl, hR, Iff.rfl⟩
  | cons a as ih =>
    rw [exec_cons, Option.bind_eq_some_iff] at hs
    obtain ⟨u, hu, hs⟩ := hs
    obtain ⟨bs, t', ht', hR', hone⟩ := h s t a u hR hu
    obtain ⟨cs, t'', ht'', hR'', hrest⟩ := ih hR' hs
    refine ⟨bs ++ cs, t'', by rw [exec_append, ht', Option.bind_some, ht''], hR'', ?_⟩
    rw [meets_append, ← hone]
    simp only [Meets, hu, ht', Option.some.injEq, forall_eq', hrest]

/-- **A guarded run computes** what its actions are for. -/
theorem exec_foldl {G : σ → α → Prop} {R : σ → τ → Prop} {apply : τ → α → τ}
    (h : ∀ s t a s', R s t → G s a → step s a = some s' → R s' (apply t a)) {s s' : σ} {t : τ}
    {as : List α} (hR : R s t) (hG : Meets step G s as) (hs : exec step s as = some s') :
    R s' (as.foldl apply t) := by
  induction as generalizing s t with
  | nil =>
    obtain rfl := Option.some.inj hs
    exact hR
  | cons a as ih =>
    rw [exec_cons, Option.bind_eq_some_iff] at hs
    obtain ⟨u, hu, hs⟩ := hs
    exact ih (h s t a u hR hG.1 hu) (hG.2 u hu) hs

/-- **A flag that actions set**, and none takes back. -/
theorem exec_flag {I : σ → Prop} {P : σ → Bool} {F : α → Bool}
    (hinv : ∀ s a t, I s → step s a = some t → I t)
    (hflag : ∀ s a t, I s → step s a = some t → P t = (P s || F a)) {s t : σ} {as : List α}
    (hI : I s) (h : Runs.exec step s as = some t) : P t = (P s || as.any F) := by
  induction as generalizing s with
  | nil =>
    obtain rfl := Option.some.inj h
    simp
  | cons a as ih =>
    rw [exec_cons, Option.bind_eq_some_iff] at h
    obtain ⟨u, hu, h⟩ := h
    rw [ih (hinv s a u hI hu) h, hflag s a u hI hu, List.any_cons, Bool.or_assoc]

end Runs
end Lfi
