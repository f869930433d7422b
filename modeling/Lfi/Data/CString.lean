/-
# C strings

A string that ends at the first NUL.  `strlen` reads memory up to there, so it reads one
byte more than it returns; on memory without a NUL it has no answer.  `strncpy` writes
exactly as many bytes as it is told: a short string is filled up with NULs, and one that
fills the count gets no NUL at all (`strncpy_eq_append`).
-/

import Lfi.Data.Bytes

namespace Lfi
namespace Data

/-- `strlen`, on memory that begins at the string. -/
def strlen (mem : Bytes) : Option ℕ := mem.findIdx? (· = 0)

/-- The string that begins here. -/
def cString (mem : Bytes) : Option Bytes := (strlen mem).map mem.take

/-- Memory after `strncpy(dst, src, n)` of the string `src`. -/
def strncpy (dst src : Bytes) (n : ℕ) : Bytes :=
  src.take n ++ List.replicate (n - src.length) 0 ++ dst.drop n

variable {mem s dst : Bytes} {n : ℕ} {b : Byte}

/-- `strlen` is the number of bytes before the first NUL. -/
theorem strlen_eq_some_iff : strlen mem = some n ↔
    ∃ s rest, mem = s ++ 0 :: rest ∧ s.length = n ∧ 0 ∉ s := by
  induction mem generalizing n with
  | nil => simp [strlen]
  | cons b mem ih =>
      rw [strlen, List.findIdx?_cons]
      by_cases hb : b = 0
      · subst hb
        constructor
        · intro h
          exact ⟨[], mem, rfl, by simpa using h, List.not_mem_nil⟩
        · rintro ⟨s, rest, hmem, rfl, hs⟩
          cases s with
          | nil => simp
          | cons c s =>
              rw [List.cons_append, List.cons.injEq] at hmem
              exact absurd (hmem.1 ▸ List.mem_cons_self) hs
      · simp only [hb, decide_false, Bool.false_eq_true, if_false, Option.map_eq_some_iff]
        constructor
        · rintro ⟨m, hm, rfl⟩
          obtain ⟨s, rest, rfl, rfl, hs⟩ := ih.1 hm
          refine ⟨b :: s, rest, rfl, rfl, ?_⟩
          rw [List.mem_cons, not_or]
          exact ⟨Ne.symm hb, hs⟩
        · rintro ⟨s, rest, hmem, rfl, hs⟩
          cases s with
          | nil =>
              rw [List.nil_append, List.cons.injEq] at hmem
              exact absurd hmem.1 hb
          | cons c s =>
              rw [List.cons_append, List.cons.injEq] at hmem
              have hs' : 0 ∉ s := fun h => hs (List.mem_cons_of_mem c h)
              exact ⟨s.length, ih.2 ⟨s, rest, hmem.2, rfl, hs'⟩, rfl⟩

/-- A string and the NUL after it. -/
theorem cString_eq_some_iff : cString mem = some s ↔ 0 ∉ s ∧ ∃ rest, mem = s ++ 0 :: rest := by
  rw [cString, Option.map_eq_some_iff]
  constructor
  · rintro ⟨n, hn, rfl⟩
    obtain ⟨s, rest, rfl, rfl, hs⟩ := strlen_eq_some_iff.1 hn
    rw [List.take_left']
    exacts [⟨hs, rest, rfl⟩, rfl]
  · rintro ⟨hs, rest, rfl⟩
    exact ⟨s.length, strlen_eq_some_iff.2 ⟨s, rest, rfl, rfl, hs⟩, List.take_left' rfl⟩

/-- The bytes of a string are read back as this string exactly when a NUL is next. -/
theorem cString_append_cons (hs : 0 ∉ s) (rest : Bytes) :
    cString (s ++ b :: rest) = some s ↔ b = 0 := by
  rw [cString_eq_some_iff]
  constructor
  · rintro ⟨-, rest', h⟩
    exact (List.cons.inj (List.append_cancel_left h)).1
  · rintro rfl
    exact ⟨hs, rest, rfl⟩

/-- `strlen` reads the string and its NUL. -/
theorem strlen_of_cString (h : cString mem = some s) : strlen mem = some s.length := by
  obtain ⟨hs, rest, rfl⟩ := cString_eq_some_iff.1 h
  exact strlen_eq_some_iff.2 ⟨s, rest, rfl, rfl, hs⟩

/-- Memory with a NUL has a string. -/
theorem exists_cString (h : 0 ∈ mem) : ∃ s, cString mem = some s := by
  obtain ⟨n, hn⟩ : ∃ n, strlen mem = some n := by
    rw [← Option.isSome_iff_exists, strlen, List.findIdx?_isSome, List.any_eq_true]
    exact ⟨0, h, by simp⟩
  exact ⟨mem.take n, by rw [cString, hn, Option.map_some]⟩

/-- `strncpy` writes the first `n` bytes. -/
theorem length_strncpy (h : n ≤ dst.length) : (strncpy dst s n).length = dst.length := by
  simp only [strncpy, List.length_append, List.length_take, List.length_replicate,
    List.length_drop]
  omega

/-- **The byte after the copied string** is a NUL when the string is shorter than the count,
and otherwise what was there before. -/
theorem strncpy_eq_append (hs : s.length ≤ n) (hn : n < dst.length) :
    ∃ b rest, strncpy dst s n = s ++ b :: rest ∧ (b = 0 ↔ s.length < n ∨ dst[n]? = some 0) := by
  rw [strncpy, List.take_of_length_le hs, List.getElem?_eq_getElem hn, Option.some.injEq]
  rcases Nat.lt_or_eq_of_le hs with hlt | heq
  · have hfill : n - s.length = n - s.length - 1 + 1 := by omega
    rw [hfill, List.replicate_succ, List.append_assoc, List.cons_append]
    exact ⟨_, _, rfl, by simp [hlt]⟩
  · have hfill : n - s.length = 0 := by omega
    rw [hfill, List.replicate_zero, List.append_nil, List.drop_eq_getElem_cons hn]
    exact ⟨_, _, rfl, by simp [heq]⟩

end Data
end Lfi
