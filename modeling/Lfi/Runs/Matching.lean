/-
# Which batch a message belongs to

On a channel that is first in, first out the `k`-th message completes the `k`-th receive
(`Lfi.Runs.Batches`).  The messages sent on it belong, in order, to the batches that
`occurrences` lists: each batch as often as it sends on the channel.  The same holds of the
receives posted.  When the two ends send and receive equally often in each batch, both
lists begin the same list (`occurrences_begins`), so a message and the receive it completes
belong to the same batch (`matched_batch`), however far one end is ahead of the other.
-/

import Lfi.Runs.Batches

namespace Lfi
namespace Runs

section Occurrences

variable {P T : Type*} [DecidableEq P] [DecidableEq T] (batch : P → ℕ → List (Op P T))

/-- The batches of the operations `o` that `p` has posted, in order. -/
def occurrences (p : P) (o : Op P T) (x : Party) : List ℕ :=
  ((List.range x.finished).flatMap fun k => List.replicate ((batch p k).count o) k) ++
    List.replicate (((batch p x.finished).take x.posted).count o) x.finished

/-- The batches of all operations that happen `cnt k` times in the batch `k`. -/
def timetable (cnt : ℕ → ℕ) (n : ℕ) : List ℕ :=
  (List.range n).flatMap fun k => List.replicate (cnt k) k

variable {batch} {p q : P} {o o' : Op P T} {x y : Party}

theorem timetable_succ (cnt : ℕ → ℕ) (n : ℕ) :
    timetable cnt (n + 1) = timetable cnt n ++ List.replicate (cnt n) n := by
  rw [timetable, List.range_succ, List.flatMap_append, List.flatMap_singleton, timetable]

theorem timetable_begins (cnt : ℕ → ℕ) {m n : ℕ} (h : m ≤ n) :
    timetable cnt m <+: timetable cnt n := by
  induction h with
  | refl => exact List.prefix_refl _
  | step _ ih =>
      rw [timetable_succ]
      exact ih.trans (List.prefix_append _ _)

theorem length_timetable (p : P) (o : Op P T) (n : ℕ) :
    (timetable (fun k => (batch p k).count o) n).length = (batches batch p n).count o := by
  induction n with
  | zero => rfl
  | succ n ih =>
      rw [timetable_succ, List.length_append, List.length_replicate, ih, batches_succ,
        List.count_append]

/-- What was posted begins what is to be posted. -/
theorem occurrences_begins {n : ℕ} (h : x.finished < n) :
    occurrences batch p o x <+: timetable (fun k => (batch p k).count o) n := by
  refine List.IsPrefix.trans ?_ (timetable_begins _ (Nat.succ_le_of_lt h))
  rw [timetable_succ]
  have hle := (List.take_sublist x.posted (batch p x.finished)).count_le o
  refine (List.prefix_append_right_inj _).2 ⟨List.replicate ((batch p x.finished).count o -
    ((batch p x.finished).take x.posted).count o) x.finished, ?_⟩
  rw [List.replicate_append_replicate, Nat.add_sub_cancel' hle]

theorem getElem?_of_begins {α : Type*} {l l' : List α} (h : l <+: l') {j : ℕ} {a : α}
    (ha : l[j]? = some a) : l'[j]? = some a := by
  obtain ⟨hj, -⟩ := List.getElem?_eq_some_iff.1 ha
  obtain ⟨t, rfl⟩ := h
  rw [List.getElem?_append_left hj, ha]

/-- **A message and the receive it completes belong to the same batch**, when the two ends
of the channel send and receive equally often in each. -/
theorem matched_batch (h : ∀ k, (batch p k).count o = (batch q k).count o') {j a b : ℕ}
    (ha : (occurrences batch p o x)[j]? = some a) (hb : (occurrences batch q o' y)[j]? = some b) :
    a = b := by
  have hx : x.finished < max x.finished y.finished + 1 :=
    Nat.lt_succ_of_le (Nat.le_max_left ..)
  have hy : y.finished < max x.finished y.finished + 1 :=
    Nat.lt_succ_of_le (Nat.le_max_right ..)
  have hcnt : (fun k => (batch p k).count o) = fun k => (batch q k).count o' := funext h
  have ha' := getElem?_of_begins (occurrences_begins hx) ha
  have hb' := getElem?_of_begins (occurrences_begins hy) hb
  rw [hcnt, hb'] at ha'
  exact (Option.some.inj ha').symm

/-! ### How the list grows -/

theorem length_occurrences (s : Net P T) (p : P) (o : Op P T) :
    (occurrences batch p o (s.party p)).length = (posted batch s p).count o := by
  rw [occurrences, List.length_append, List.length_replicate, posted, List.count_append]
  exact congrArg (· + _) (length_timetable p o _)

/-- Entering a batch posts nothing. -/
theorem occurrences_start (h : x.posted = 0) (m : ℕ) :
    occurrences batch p o ⟨m, x.finished, 0⟩ = occurrences batch p o x := by
  rw [occurrences, occurrences, h]

/-- Posting adds the actual batch, if it is the operation in question. -/
theorem occurrences_post (ho : (batch p x.finished)[x.posted]? = some o') :
    occurrences batch p o { x with posted := x.posted + 1 } =
      occurrences batch p o x ++ if o' = o then [x.finished] else [] := by
  rw [occurrences, occurrences, List.take_add_one, ho, List.count_append, List.append_assoc,
    ← List.replicate_append_replicate]
  congr 2
  by_cases h : o' = o
  · simp [h]
  · simp [h]

/-- Leaving a batch all of which was posted posts nothing. -/
theorem occurrences_finish (h : x.posted = (batch p x.finished).length) (m : ℕ) :
    occurrences batch p o ⟨m, x.finished + 1, 0⟩ = occurrences batch p o x := by
  rw [occurrences, occurrences, h, List.take_length, List.take_zero, List.count_nil,
    List.replicate_zero, List.append_nil]
  exact timetable_succ _ _

/-- A process changes and posts nothing. -/
theorem occurrences_update {f : P → Party}
    (h : occurrences batch p o y = occurrences batch p o (f p)) (q : P) :
    occurrences batch q o (Function.update f p y q) = occurrences batch q o (f q) :=
  (Function.forall_update_iff f fun q x => occurrences batch q o x = occurrences batch q o (f q)).2
    ⟨h, fun _ _ => rfl⟩ q

/-- The operations after those of the finished batches belong to the actual one. -/
theorem occurrences_current {j k : ℕ} (h : (occurrences batch p o x)[j]? = some k)
    (hj : (batches batch p x.finished).count o ≤ j) : k = x.finished := by
  rw [← length_timetable] at hj
  rw [occurrences] at h
  change (timetable (fun k => (batch p k).count o) x.finished ++ _)[j]? = some k at h
  rw [List.getElem?_append_right hj] at h
  exact List.eq_of_mem_replicate (List.mem_of_getElem? h)

end Occurrences

end Runs
end Lfi
