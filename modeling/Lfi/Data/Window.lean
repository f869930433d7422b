/-
# Tickets in hand

Tickets are numbered in the order they are handed out, and a ticket that is done with is
given back.  `Window held lo hi` says that the tickets from `lo` on and before `hi` are in
hand, each at one place, and no other is: `hi` is the next one to be handed out
(`Window.handOut`), a ticket may go from one place to another (`Window.move`), and when
the first one is given back the window begins behind it (`Window.giveBack`).
-/

import Mathlib.Logic.Basic
import Mathlib.Order.Basic

namespace Lfi
namespace Data

variable {ι : Type*} {held held' : ι → Option ℕ} {lo hi : ℕ}

/-- The tickets `lo, …, hi - 1` are in hand, each at one place. -/
structure Window (held : ι → Option ℕ) (lo hi : ℕ) : Prop where
  le : lo ≤ hi
  mem_iff : ∀ k, (∃ p, held p = some k) ↔ lo ≤ k ∧ k < hi
  inj : ∀ p q k, held p = some k → held q = some k → p = q

namespace Window

theorem empty (n : ℕ) (h : ∀ p, held p = none) : Window held n n where
  le := Nat.le_refl n
  mem_iff k := by
    constructor
    · rintro ⟨p, hp⟩
      rw [h p] at hp
      cases hp
    · intro hk
      omega
  inj p q k hp := by
    rw [h p] at hp
    cases hp

theorem bounds (w : Window held lo hi) {p : ι} {k : ℕ} (h : held p = some k) :
    lo ≤ k ∧ k < hi :=
  (w.mem_iff k).1 ⟨p, h⟩

/-- The next ticket goes to a free place. -/
theorem handOut (w : Window held lo hi) {p : ι} (hp : held p = none) (hp' : held' p = some hi)
    (hq : ∀ q, q ≠ p → held' q = held q) : Window held' lo (hi + 1) where
  le := Nat.le_succ_of_le w.le
  mem_iff k := by
    constructor
    · rintro ⟨q, h⟩
      by_cases hqp : q = p
      · rw [hqp, hp'] at h
        have hk := Option.some.inj h
        have := w.le
        omega
      · rw [hq q hqp] at h
        have := w.bounds h
        omega
    · intro hk
      by_cases hkhi : k = hi
      · exact ⟨p, hkhi ▸ hp'⟩
      · obtain ⟨q, h⟩ := (w.mem_iff k).2 ⟨hk.1, by omega⟩
        have hqp : q ≠ p := fun e => by
          rw [e, hp] at h
          cases h
        exact ⟨q, (hq q hqp).trans h⟩
  inj q r k h₁ h₂ := by
    by_cases hqp : q = p <;> by_cases hrp : r = p
    · rw [hqp, hrp]
    · rw [hqp, hp'] at h₁
      rw [hq r hrp] at h₂
      have := w.bounds h₂
      have := Option.some.inj h₁
      omega
    · rw [hrp, hp'] at h₂
      rw [hq q hqp] at h₁
      have := w.bounds h₁
      have := Option.some.inj h₂
      omega
    · rw [hq q hqp] at h₁
      rw [hq r hrp] at h₂
      exact w.inj q r k h₁ h₂

/-- A ticket goes from the place `p` to the free place `q`. -/
theorem move (w : Window held lo hi) {p q : ι} {k : ℕ} (hp : held p = some k)
    (hq : held q = none) (hp' : held' p = none) (hq' : held' q = some k)
    (hr : ∀ r, r ≠ p → r ≠ q → held' r = held r) : Window held' lo hi where
  le := w.le
  mem_iff j := by
    constructor
    · rintro ⟨r, h⟩
      by_cases hrp : r = p
      · rw [hrp, hp'] at h
        cases h
      · by_cases hrq : r = q
        · rw [hrq, hq'] at h
          exact Option.some.inj h ▸ w.bounds hp
        · exact w.bounds ((hr r hrp hrq).symm.trans h)
    · intro hj
      obtain ⟨r, h⟩ := (w.mem_iff j).2 hj
      by_cases hrp : r = p
      · rw [hrp, hp] at h
        exact ⟨q, Option.some.inj h ▸ hq'⟩
      · have hrq : r ≠ q := fun e => by
          rw [e, hq] at h
          cases h
        exact ⟨r, (hr r hrp hrq).trans h⟩
  inj r u j h₁ h₂ := by
    have key : ∀ r, held' r = some j → (r = q ∧ j = k) ∨ (r ≠ q ∧ r ≠ p ∧ held r = some j) := by
      intro r h
      by_cases hrp : r = p
      · rw [hrp, hp'] at h
        cases h
      · by_cases hrq : r = q
        · rw [hrq, hq'] at h
          exact .inl ⟨hrq, (Option.some.inj h).symm⟩
        · exact .inr ⟨hrq, hrp, (hr r hrp hrq).symm.trans h⟩
    rcases key r h₁ with ⟨hrq, hj⟩ | ⟨_, hrp, hr'⟩ <;>
      rcases key u h₂ with ⟨huq, hj'⟩ | ⟨_, hup, hu'⟩
    · rw [hrq, huq]
    · exact absurd (w.inj u p k (hj ▸ hu') hp) hup
    · exact absurd (w.inj r p k (hj' ▸ hr') hp) hrp
    · exact w.inj r u j hr' hu'

/-- The first ticket in hand is given back. -/
theorem giveBack (w : Window held lo hi) {p : ι} (hp : held p = some lo) (hp' : held' p = none)
    (hq : ∀ q, q ≠ p → held' q = held q) : Window held' (lo + 1) hi where
  le := (w.bounds hp).2
  mem_iff k := by
    constructor
    · rintro ⟨q, h⟩
      have hqp : q ≠ p := fun e => by
        rw [e, hp'] at h
        cases h
      rw [hq q hqp] at h
      have hb := w.bounds h
      have hne : k ≠ lo := fun e => hqp (w.inj q p k h (e ▸ hp))
      omega
    · intro hk
      obtain ⟨q, h⟩ := (w.mem_iff k).2 ⟨by omega, hk.2⟩
      have hqp : q ≠ p := fun e => by
        rw [e, hp] at h
        have := Option.some.inj h
        omega
      exact ⟨q, (hq q hqp).trans h⟩
  inj q r k h₁ h₂ := by
    have hne : ∀ q, held' q = some k → q ≠ p := fun q h e => by
      rw [e, hp'] at h
      cases h
    rw [hq q (hne q h₁)] at h₁
    rw [hq r (hne r h₂)] at h₂
    exact w.inj q r k h₁ h₂

/-- Nobody is before the one whose ticket no other in hand precedes. -/
theorem first (w : Window held lo hi) {p : ι} {k : ℕ} (hp : held p = some k)
    (h : ∀ q j, held q = some j → k ≤ j) : k = lo := by
  have hb := w.bounds hp
  obtain ⟨q, hq⟩ := (w.mem_iff lo).2 ⟨Nat.le_refl lo, by omega⟩
  have := h q lo hq
  omega

end Window

end Data
end Lfi
