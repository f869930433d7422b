/-
# What is acquired and released

Handles are numbered in the order in which they are given out, and each number is given out
once.  A ledger keeps how many were acquired and which were released, call by call, so a
second release of the same handle shows.

`Holding s t ds` says of a stretch of a program, from the ledger `s` to `t`, that of what it
acquired it still has exactly `ds`; the rest was released once, and nothing older was.  Each
operation has its rule for it, and nothing is leaked when nothing is held (`noLeak_iff`).
-/

import Mathlib.Data.List.Range
import Mathlib.Data.List.Nodup
import Mathlib.Data.List.Perm.Basic

namespace Lfi
namespace Data

/-- How many handles were acquired, and the releases. -/
structure Ledger where
  acquired : ℕ
  released : List ℕ
  released_lt : ∀ d ∈ released, d < acquired

namespace Ledger

/-- Nothing has happened. -/
def empty : Ledger := ⟨0, [], nofun⟩

/-- A new handle. -/
def acquire (s : Ledger) : ℕ × Ledger :=
  (s.acquired, ⟨s.acquired + 1, s.released, fun d hd => Nat.lt_succ_of_lt (s.released_lt d hd)⟩)

/-- A handle is given back.  One that was never given out is refused. -/
def release (s : Ledger) (d : ℕ) : Ledger :=
  if hd : d < s.acquired then
    ⟨s.acquired, s.released ++ [d], fun e he => by
      rcases List.mem_append.1 he with he | he
      · exact s.released_lt e he
      · exact List.mem_singleton.1 he ▸ hd⟩
  else s

/-- Several are given back. -/
def releaseAll (s : Ledger) (ds : List ℕ) : Ledger := ds.foldl release s

/-- **Nothing is leaked**: what was acquired from `s` to `t` was released exactly once. -/
def NoLeak (s t : Ledger) : Prop :=
  ∀ d, d < t.acquired → s.acquired ≤ d → t.released.count d = 1

instance (s t : Ledger) : Decidable (NoLeak s t) := inferInstanceAs (Decidable (∀ _, _ → _))

/-- **Exactly `ds` is still held** of what was acquired from `s` to `t`. -/
structure Holding (s t : Ledger) (ds : List ℕ) : Prop where
  le : s.acquired ≤ t.acquired
  split : ∃ done, t.released = s.released ++ done ∧
    (done ++ ds).Perm (List.range' s.acquired (t.acquired - s.acquired))

variable {s t : Ledger} {d : ℕ} {ds es : List ℕ}

namespace Holding

theorem refl (s : Ledger) : Holding s s [] := ⟨le_rfl, [], by simp, by simp⟩

/-- What is held was given out. -/
theorem lt (h : Holding s t ds) (hd : d ∈ ds) : d < t.acquired := by
  obtain ⟨done, -, hperm⟩ := h.split
  have hrange := hperm.mem_iff.1 (List.mem_append_right done hd)
  have hle := h.le
  rw [List.mem_range'_1] at hrange
  omega

/-- The order does not matter. -/
theorem perm (h : Holding s t ds) (hperm : ds.Perm es) : Holding s t es := by
  obtain ⟨done, hreleased, hsplit⟩ := h.split
  exact ⟨h.le, done, hreleased, (hperm.append_left done).symm.trans hsplit⟩

/-- A new handle is held. -/
theorem acquire (h : Holding s t ds) : Holding s t.acquire.2 (t.acquire.1 :: ds) := by
  obtain ⟨done, hreleased, hsplit⟩ := h.split
  have hle := h.le
  refine ⟨Nat.le_succ_of_le hle, done, hreleased, ?_⟩
  have hnew : t.acquired + 1 - s.acquired = t.acquired - s.acquired + 1 := by omega
  have hlast : s.acquired + (t.acquired - s.acquired) = t.acquired := by omega
  show (done ++ t.acquired :: ds).Perm (List.range' s.acquired (t.acquired + 1 - s.acquired))
  rw [hnew, List.range'_1_concat, hlast]
  exact List.perm_middle.trans ((hsplit.cons _).trans (List.perm_append_singleton _ _).symm)

/-- A handle that is given back is no longer held. -/
theorem release (h : Holding s t (d :: ds)) : Holding s (t.release d) ds := by
  obtain ⟨done, hreleased, hsplit⟩ := h.split
  have hd : d < t.acquired := h.lt List.mem_cons_self
  rw [Ledger.release, dif_pos hd]
  refine ⟨h.le, done ++ [d], ?_, ?_⟩
  · show t.released ++ [d] = s.released ++ (done ++ [d])
    rw [hreleased, List.append_assoc]
  · rwa [List.append_assoc, List.singleton_append]

/-- So it is with several. -/
theorem releaseAll (h : Holding s t (ds ++ es)) : Holding s (t.releaseAll ds) es := by
  induction ds generalizing t with
  | nil => exact h
  | cons d ds ih => exact ih h.release

/-- **Nothing is leaked exactly when nothing is held.** -/
theorem noLeak_iff (h : Holding s t ds) : NoLeak s t ↔ ds = [] := by
  obtain ⟨done, hreleased, hsplit⟩ := h.split
  have hcount : ∀ e, e < t.acquired → s.acquired ≤ e →
      t.released.count e + ds.count e = 1 := by
    intro e hlt hle
    have hold : s.released.count e = 0 :=
      List.count_eq_zero.2 fun he => absurd (s.released_lt e he) (Nat.not_lt.2 hle)
    have hrange : e ∈ List.range' s.acquired (t.acquired - s.acquired) :=
      List.mem_range'_1.2 ⟨hle, by omega⟩
    have hone := List.count_eq_one_of_mem (List.nodup_range' ..) hrange
    rw [← hsplit.count_eq, List.count_append] at hone
    rw [hreleased, List.count_append, hold]
    omega
  constructor
  · intro hno
    refine List.eq_nil_iff_forall_not_mem.2 fun e he => ?_
    have hlt := h.lt he
    have hle : s.acquired ≤ e :=
      (List.mem_range'_1.1 (hsplit.mem_iff.1 (List.mem_append_right done he))).1
    have hpos := List.count_pos_iff.2 he
    have hone := hcount e hlt hle
    have hrel := hno e hlt hle
    omega
  · rintro rfl e hlt hle
    simpa using hcount e hlt hle

end Holding

end Ledger

end Data
end Lfi
