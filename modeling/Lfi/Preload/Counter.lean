/-
# The tags of the data messages

`internal_sendmsg` numbers the data messages of the process with `static_counter`, an
`int` that `fetch_add` wraps around, and takes the tag

    uint32_t tag = LFI_TAG_BUFFERED_LD_PRELOAD + (current_count % 1000001);

The remainder has the sign of the count.  For the first `2^31` messages the tags go
round in `[100000, 1100000]`; then they lie below it, and among the reserved ones
(`dataTag_iff`).
-/

import Lfi.Preload.Message

namespace Lfi
namespace Preload

/-- What `static_counter.fetch_add(1)` gives for the message number `n` of the process,
counted from 0. -/
def countOf (n : ℕ) : ℤ := (n : ℤ).bmod (2 ^ 32)

/-- The tag of the message number `n`. -/
def dataTag (n : ℕ) : ℕ := tagOf (countOf n)

/-- `LFI_TAG_RECV_LD_PRELOAD`, and the tags of the groups, the barrier, the broadcast, the
reduction, the dummy and the two first messages of a connection. -/
def reservedTags : List ℕ :=
  [tagRecv, 0xFFFFFFFF - 4, 0xFFFFFFFF - 5, 0xFFFFFFFF - 6, 0xFFFFFFFF - 7, 0xFFFFFFFF - 8,
    0xFFFFFFFF - 9, 0xFFFFFFFF - 10]

/-- Where the remainders are. -/
theorem tmod_bounds (count : ℤ) :
    -1000001 < count.tmod 1000001 ∧ count.tmod 1000001 < 1000001 := by
  have hneg := Int.tmod_lt_of_pos (-count) (b := 1000001) (by decide)
  rw [Int.neg_tmod] at hneg
  exact ⟨by omega, Int.tmod_lt_of_pos count (by decide)⟩

/-- The remainder is not negative. -/
theorem tagOf_mem_iff (count : ℤ) :
    (100000 ≤ tagOf count ∧ tagOf count ≤ 1100000) ↔ 0 ≤ count.tmod 1000001 := by
  have hbounds := tmod_bounds count
  rw [tagOf, tagBuffered]
  omega

/-- The tag tells the remainder. -/
theorem tagOf_inj (a b : ℤ) : tagOf a = tagOf b ↔ a.tmod 1000001 = b.tmod 1000001 := by
  have ha := tmod_bounds a
  have hb := tmod_bounds b
  rw [tagOf, tagOf, tagBuffered]
  omega

theorem not_reserved {tag : ℕ} (h : tag ≤ 1100000) : tag ∉ reservedTags := by
  intro hmem
  simp only [reservedTags, tagRecv, List.mem_cons, List.not_mem_nil, or_false] at hmem
  omega

theorem countOf_of_lt {n : ℕ} (h : n % 2 ^ 32 < 2 ^ 31) : countOf n = (n % 2 ^ 32 : ℕ) := by
  have hmod := Int.bmod_def (n : ℤ) (2 ^ 32)
  unfold countOf
  split at hmod <;> omega

theorem countOf_of_le {n : ℕ} (h : 2 ^ 31 ≤ n % 2 ^ 32) :
    countOf n = -((2 ^ 32 - n % 2 ^ 32 : ℕ) : ℤ) := by
  have hmod := Int.bmod_def (n : ℤ) (2 ^ 32)
  unfold countOf
  split at hmod <;> omega

theorem tmod_countOf_of_lt {n : ℕ} (h : n % 2 ^ 32 < 2 ^ 31) :
    (countOf n).tmod 1000001 = (n % 2 ^ 32 % 1000001 : ℕ) := by
  rw [countOf_of_lt h, Int.tmod_eq_emod_of_nonneg (Int.natCast_nonneg _)]
  omega

theorem tmod_countOf_of_le {n : ℕ} (h : 2 ^ 31 ≤ n % 2 ^ 32) :
    (countOf n).tmod 1000001 = -((2 ^ 32 - n % 2 ^ 32) % 1000001 : ℕ) := by
  rw [countOf_of_le h, Int.neg_tmod, Int.tmod_eq_emod_of_nonneg (Int.natCast_nonneg _)]
  omega

/-- The tag of a message is in the range unless its count is negative, or when the negative
count leaves no remainder. -/
theorem dataTag_mem_iff (n : ℕ) :
    (100000 ≤ dataTag n ∧ dataTag n ≤ 1100000) ↔
      n % 2 ^ 32 < 2 ^ 31 ∨ 1000001 ∣ 2 ^ 32 - n % 2 ^ 32 := by
  rw [dataTag, tagOf_mem_iff]
  rcases Nat.lt_or_ge (n % 2 ^ 32) (2 ^ 31) with h | h
  · exact iff_of_true (by rw [tmod_countOf_of_lt h]; omega) (.inl h)
  · rw [tmod_countOf_of_le h]
    omega

/-- Two messages that are less than a round apart have different tags, unless they are the
last of remainder 0 before the wrap-around and the first one behind it. -/
theorem dataTag_eq_iff {n i j : ℕ} (hij : i < j) (hj : j < i + 1000001) :
    dataTag (n + i) = dataTag (n + j) ↔
      (n + i) % 2 ^ 32 = 2147002147 ∧ (n + j) % 2 ^ 32 = 2147965149 := by
  obtain ⟨d, rfl⟩ := Nat.exists_eq_add_of_lt hij
  have hnext : (n + (i + d + 1)) % 2 ^ 32 = (n + i) % 2 ^ 32 + (d + 1) ∨
      (n + (i + d + 1)) % 2 ^ 32 + 2 ^ 32 = (n + i) % 2 ^ 32 + (d + 1) := by omega
  have hlt := Nat.mod_lt (n + i) (by decide : 0 < 2 ^ 32)
  rw [dataTag, dataTag, tagOf_inj]
  rcases Nat.lt_or_ge ((n + i) % 2 ^ 32) (2 ^ 31) with hi' | hi' <;>
    rcases Nat.lt_or_ge ((n + (i + d + 1)) % 2 ^ 32) (2 ^ 31) with hj' | hj'
  · rw [tmod_countOf_of_lt hi', tmod_countOf_of_lt hj']
    generalize (n + i) % 2 ^ 32 = a at *
    generalize (n + (i + d + 1)) % 2 ^ 32 = b at *
    omega
  · rw [tmod_countOf_of_lt hi', tmod_countOf_of_le hj']
    generalize (n + i) % 2 ^ 32 = a at *
    generalize (n + (i + d + 1)) % 2 ^ 32 = b at *
    omega
  · rw [tmod_countOf_of_le hi', tmod_countOf_of_lt hj']
    generalize (n + i) % 2 ^ 32 = a at *
    generalize (n + (i + d + 1)) % 2 ^ 32 = b at *
    omega
  · rw [tmod_countOf_of_le hi', tmod_countOf_of_le hj']
    generalize (n + i) % 2 ^ 32 = a at *
    generalize (n + (i + d + 1)) % 2 ^ 32 = b at *
    omega

/-- **The tags of the data messages.**  The tag of the message number `n` is in
`[100000, 1100000]`, hence not reserved, and the 1000001 messages from it on have different
tags, exactly when its count is not negative or leaves no remainder, and when the messages are
not those around the first negative count, where the remainder 0 comes twice. -/
theorem dataTag_iff (n : ℕ) :
    ((100000 ≤ dataTag n ∧ dataTag n ≤ 1100000) ∧ dataTag n ∉ reservedTags ∧
      ∀ i j, i < 1000001 → j < 1000001 → dataTag (n + i) = dataTag (n + j) → i = j) ↔
    (n % 2 ^ 32 < 2 ^ 31 ∨ 1000001 ∣ 2 ^ 32 - n % 2 ^ 32) ∧
      ¬ (2146965149 ≤ n % 2 ^ 32 ∧ n % 2 ^ 32 ≤ 2147002147) := by
  rw [dataTag_mem_iff]
  constructor
  · rintro ⟨hrange, -, hdistinct⟩
    refine ⟨hrange, fun ⟨hlo, hhi⟩ => ?_⟩
    have hlt : 2147002147 - n % 2 ^ 32 < 2147965149 - n % 2 ^ 32 := by omega
    have hsame : dataTag (n + (2147002147 - n % 2 ^ 32)) =
        dataTag (n + (2147965149 - n % 2 ^ 32)) :=
      (dataTag_eq_iff hlt (by omega)).2 (by omega)
    exact absurd (hdistinct _ _ (by omega) (by omega) hsame) hlt.ne
  · rintro ⟨hrange, hwindow⟩
    have hmem := (dataTag_mem_iff n).2 hrange
    have hdiffer : ∀ i j, i < j → j < 1000001 → dataTag (n + i) ≠ dataTag (n + j) := by
      intro i j hij hj hsame
      obtain ⟨hi, hj'⟩ := (dataTag_eq_iff hij (by omega)).1 hsame
      exact hwindow (by omega)
    refine ⟨hrange, not_reserved hmem.2, fun i j hi hj hsame => ?_⟩
    rcases Nat.lt_trichotomy i j with hlt | heq | hlt
    · exact absurd hsame (hdiffer i j hlt hj)
    · exact heq
    · exact absurd hsame.symm (hdiffer j i hlt hi)

/-- Message number `2^31` has a tag beyond the range, and message number 2147865145 has the
tag of the notifications. -/
theorem dataTag_out_of_range :
    (¬ ∀ n, 100000 ≤ dataTag n ∧ dataTag n ≤ 1100000) ∧ dataTag 2147865145 = tagRecv := by
  refine ⟨fun h => ?_, by decide +kernel⟩
  exact absurd (h (2 ^ 31)) (by decide +kernel)

end Preload
end Lfi
