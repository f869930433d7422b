/-
# A queue in a ring buffer

`VectorQueue<T>` of `src/include/impl/vector_queue.hpp`: the elements lie in a vector
from `head` on, at its end they go on at its start, and a `push` into a full vector
doubles it first.

`toList` is what a queue holds, the front first.  On well-formed queues, and all of them
are (`Wf`), the operations are those of a list: `push` adds at the end, `pop` takes the
first and `eraseIf` filters.
-/

import Mathlib.Data.List.Range
import Mathlib.Logic.Function.Basic

namespace Lfi
namespace Data

/-- `VectorQueue<T>`.  `cap` is `m_buffer.size()`; the memory behind it belongs to nobody,
and what it holds does not matter. -/
structure VectorQueue (α : Type*) where
  buffer : ℕ → α
  cap : ℕ
  head : ℕ
  tail : ℕ
  count : ℕ

/-- `memcpy(b + dst, b + src, n)`. -/
def memcpy {α : Type*} (b : ℕ → α) (dst src n : ℕ) : ℕ → α := fun i =>
  if dst ≤ i ∧ i < dst + n then b (src + (i - dst)) else b i

namespace VectorQueue

section Operations

variable {α : Type*} (q : VectorQueue α)

/-- `VectorQueue(cap)`. -/
def new [Inhabited α] (cap : ℕ) : VectorQueue α := ⟨fun _ => default, cap, 0, 0, 0⟩

/-- Where the element `i` lies: `m_head + i`, or that from the start on. -/
def pos (i : ℕ) : ℕ := if q.cap ≤ q.head + i then q.head + i - q.cap else q.head + i

/-- The first half of `push`: a full vector is doubled, and when the elements wrap
around, those at the start are moved behind the others. -/
def grow : VectorQueue α :=
  if q.count = q.cap then
    let oldSize := q.cap
    let q := { q with cap := oldSize * 2 }
    if q.tail ≤ q.head then
      { q with buffer := memcpy q.buffer oldSize 0 q.tail, tail := oldSize + q.tail }
    else q
  else q

/-- `push(v)`.  The callers push a value of their own: a reference to an element of the queue would
be read after `resize` has moved the elements. -/
def push (v : α) : VectorQueue α :=
  let q := q.grow
  { q with
    buffer := Function.update q.buffer q.tail v
    tail := if q.tail + 1 = q.cap then 0 else q.tail + 1
    count := q.count + 1 }

/-- `pop()`. -/
def pop : VectorQueue α :=
  if 0 < q.count then
    { q with
      head := if q.head + 1 = q.cap then 0 else q.head + 1
      count := q.count - 1 }
  else q

/-- `front()`. -/
def front : α := q.buffer q.head

/-- `empty()`. -/
def empty : Bool := q.count == 0

/-- One round of the loop of `erase_if`: the vector and `write_idx` after the element
`readIdx`. -/
def eraseRound (predicate : α → Bool) (p : (ℕ → α) × ℕ) (readIdx : ℕ) : (ℕ → α) × ℕ :=
  if predicate (p.1 (q.pos readIdx)) then p
  else
    (if p.2 ≠ readIdx then Function.update p.1 (q.pos p.2) (p.1 (q.pos readIdx)) else p.1, p.2 + 1)

/-- `erase_if(predicate)`. -/
def eraseIf (predicate : α → Bool) : VectorQueue α :=
  if q.count = 0 then q
  else
    let p := (List.range q.count).foldl (q.eraseRound predicate) (q.buffer, 0)
    { q with buffer := p.1, count := p.2, tail := q.pos p.2 }

/-- What the queue holds, the front first. -/
def toList : List α := (List.range q.count).map fun i => q.buffer (q.pos i)

end Operations

/-- **Well-formed queue.**  The elements fit into the vector and end at `tail`. -/
structure Wf {α : Type*} (q : VectorQueue α) : Prop where
  head_lt : q.head < q.cap
  count_le : q.count ≤ q.cap
  tail_eq : q.tail = q.pos q.count

variable {α : Type*} {q : VectorQueue α}

@[simp] theorem length_toList (q : VectorQueue α) : q.toList.length = q.count := by simp [toList]

theorem toList_eq_nil : q.toList = [] ↔ q.empty = true := by
  rw [← List.length_eq_zero_iff, length_toList, empty, beq_iff_eq]

/-- Two elements lie in different places. -/
theorem Wf.pos_inj (h : q.Wf) {i j : ℕ} (hi : i < q.cap) (hj : j < q.cap)
    (hij : q.pos i = q.pos j) : i = j := by
  have := h.head_lt
  unfold pos at hij
  split at hij <;> split at hij <;> omega

theorem wf_new [Inhabited α] {cap : ℕ} (h : 0 < cap) : (new cap : VectorQueue α).Wf where
  head_lt := h
  count_le := Nat.zero_le _
  tail_eq := by simp [new, pos, h.ne']

@[simp] theorem toList_new [Inhabited α] (cap : ℕ) : (new cap : VectorQueue α).toList = [] := rfl

/-! ### `push` -/

/-- There is room after `grow`, and nothing else has changed. -/
theorem Wf.grow (h : q.Wf) :
    q.grow.Wf ∧ q.grow.count = q.count ∧ q.grow.toList = q.toList ∧ q.grow.count < q.grow.cap := by
  have hlt := h.head_lt
  by_cases hfull : q.count = q.cap
  case neg =>
    have hgrow : q.grow = q := if_neg hfull
    rw [hgrow]
    exact ⟨h, rfl, rfl, lt_of_le_of_ne h.count_le hfull⟩
  case pos =>
    -- a full queue ends where it begins
    have htail : q.tail = q.head := by
      rw [h.tail_eq, hfull, pos, if_pos (Nat.le_add_left ..)]
      omega
    have hgrow : q.grow = ⟨memcpy q.buffer q.cap 0 q.tail, q.cap * 2, q.head, q.cap + q.tail,
        q.count⟩ := by
      simp only [VectorQueue.grow, hfull, htail, le_refl, if_true]
    rw [hgrow]
    refine ⟨⟨?_, ?_, ?_⟩, rfl, ?_, ?_⟩
    · show q.head < q.cap * 2
      omega
    · show q.count ≤ q.cap * 2
      omega
    · show q.cap + q.tail = pos _ q.count
      unfold pos
      dsimp only
      rw [hfull, htail]
      split <;> omega
    · refine List.map_congr_left fun i hi => ?_
      have hi' : i < q.cap := hfull ▸ List.mem_range.1 hi
      unfold pos memcpy
      dsimp only
      rw [if_neg (by omega : ¬ q.cap * 2 ≤ q.head + i), htail, Nat.zero_add]
      by_cases hwrap : q.cap ≤ q.head + i
      · rw [if_pos ⟨hwrap, by omega⟩, if_pos hwrap]
      · rw [if_neg (fun hin => hwrap hin.1), if_neg hwrap]
    · show q.count < q.cap * 2
      omega

/-- **`push` adds at the end.** -/
theorem Wf.push (h : q.Wf) (v : α) : (q.push v).Wf ∧ (q.push v).toList = q.toList ++ [v] := by
  obtain ⟨hgrow, hcount, hlist, hroom⟩ := h.grow
  unfold VectorQueue.push
  rw [← hlist]
  generalize q.grow = p at hgrow hroom
  have hlt := hgrow.head_lt
  have htail := hgrow.tail_eq
  refine ⟨⟨hlt, hroom, ?_⟩, ?_⟩
  · show (if p.tail + 1 = p.cap then 0 else p.tail + 1) = pos _ (p.count + 1)
    rw [htail]
    unfold pos
    dsimp only
    split <;> split <;> split <;> omega
  · show (List.range (p.count + 1)).map _ = _
    rw [List.range_succ, List.map_append]
    refine congrArg₂ _ (List.map_congr_left fun i hi => ?_) ?_
    · have hi' := List.mem_range.1 hi
      have hne : p.pos i ≠ p.tail := fun heq =>
        absurd (hgrow.pos_inj (by omega) hroom (heq.trans htail)) (by omega)
      exact Function.update_of_ne hne ..
    · show [Function.update p.buffer p.tail v (p.pos p.count)] = [v]
      rw [htail, Function.update_self]

/-! ### `pop` and `front` -/

/-- **`pop` takes the front.** -/
theorem Wf.pop (h : q.Wf) : q.pop.Wf ∧ q.pop.toList = q.toList.tail := by
  have hlt := h.head_lt
  have hle := h.count_le
  unfold VectorQueue.pop
  split
  case isFalse hzero =>
    have hnil : q.toList = [] := toList_eq_nil.2 (by simp only [empty, beq_iff_eq]; omega)
    exact ⟨h, by rw [hnil]; rfl⟩
  case isTrue hpos =>
    have hnext : ∀ i, i + 1 ≤ q.cap → pos ⟨q.buffer, q.cap,
        if q.head + 1 = q.cap then 0 else q.head + 1, q.tail, q.count - 1⟩ i = q.pos (i + 1) := by
      intro i hi
      unfold pos
      dsimp only
      split <;> split <;> split <;> omega
    refine ⟨⟨?_, ?_, ?_⟩, ?_⟩
    · show (if q.head + 1 = q.cap then 0 else q.head + 1) < q.cap
      split <;> omega
    · show q.count - 1 ≤ q.cap
      omega
    · show q.tail = pos _ (q.count - 1)
      rw [hnext _ (by omega), Nat.sub_add_cancel hpos]
      exact h.tail_eq
    · obtain ⟨n, hn⟩ : ∃ n, q.count = n + 1 := ⟨q.count - 1, by omega⟩
      unfold toList
      simp only [hn, Nat.add_sub_cancel, List.range_succ_eq_map, List.map_cons, List.tail_cons,
        List.map_map]
      refine List.map_congr_left fun i hi => congrArg q.buffer ?_
      have hi' := List.mem_range.1 hi
      exact hnext i (by omega)

/-- `front` is the first element. -/
theorem Wf.front (h : q.Wf) (hne : q.toList ≠ []) : q.toList.head? = some q.front := by
  have hpos : q.count ≠ 0 := fun hz => hne (toList_eq_nil.2 (by simp [empty, hz]))
  obtain ⟨n, hn⟩ := Nat.exists_eq_succ_of_ne_zero hpos
  have hlt := h.head_lt
  unfold toList
  rw [hn, List.range_succ_eq_map, List.map_cons, List.head?_cons]
  simp [VectorQueue.front, pos, Nat.not_le.2 hlt]

/-! ### `erase_if` -/

/-- The loop of `erase_if` after `n` rounds: the elements that stay lie at the front, and
those from `n` on are where they were. -/
theorem Wf.eraseRounds (h : q.Wf) (predicate : α → Bool) {n : ℕ} (hn : n ≤ q.count) :
    let p := (List.range n).foldl (q.eraseRound predicate) (q.buffer, 0)
    p.2 ≤ n ∧
      (List.range p.2).map (fun i => p.1 (q.pos i)) =
        ((List.range n).map fun i => q.buffer (q.pos i)).filter (fun v => !predicate v) ∧
      ∀ i, n ≤ i → i < q.count → p.1 (q.pos i) = q.buffer (q.pos i) := by
  have hle := h.count_le
  induction n with
  | zero => exact ⟨Nat.le_refl 0, rfl, fun _ _ _ => rfl⟩
  | succ n ih =>
      obtain ⟨hwrite, hkept, hrest⟩ := ih (by omega)
      dsimp only
      rw [List.range_succ, List.foldl_append, List.map_append, List.filter_append]
      generalize (List.range n).foldl (q.eraseRound predicate) (q.buffer, 0) = p at *
      simp only [List.foldl_cons, List.foldl_nil, List.map_cons, List.map_nil]
      have hread := hrest n (Nat.le_refl n) (by omega)
      unfold eraseRound
      rw [hread]
      cases hp : predicate (q.buffer (q.pos n)) with
      | true =>
          simp only [if_true, List.filter_cons, hp, Bool.not_true, Bool.false_eq_true, if_false,
            List.filter_nil, List.append_nil]
          exact ⟨by omega, hkept, fun i hi hi' => hrest i (by omega) hi'⟩
      | false =>
          simp only [Bool.false_eq_true, if_false, List.filter_cons, hp, Bool.not_false, if_true,
            List.filter_nil]
          -- the element goes to the first place that is not of a kept one
          have hslot : ∀ i < q.count, (if p.2 ≠ n
              then Function.update p.1 (q.pos p.2) (q.buffer (q.pos n)) else p.1) (q.pos i) =
                if i = p.2 then q.buffer (q.pos n) else p.1 (q.pos i) := by
            intro i hi
            by_cases hsame : p.2 = n
            · rw [if_neg (not_not.2 hsame), hsame]
              split
              case isTrue hin => rw [hin, hread]
              case isFalse => rfl
            · rw [if_pos hsame]
              split
              case isTrue hip => rw [hip, Function.update_self]
              case isFalse hip =>
                exact Function.update_of_ne
                  (fun heq => hip (h.pos_inj (by omega) (by omega) heq)) ..
          refine ⟨by omega, ?_, fun i hi hi' => ?_⟩
          · rw [List.range_succ, List.map_append, ← hkept]
            refine congrArg₂ _ (List.map_congr_left fun i hi => ?_) ?_
            · have hi' := List.mem_range.1 hi
              rw [hslot i (by omega), if_neg (by omega)]
            · rw [List.map_singleton, hslot p.2 (by omega), if_pos rfl]
          · rw [hslot i hi', if_neg (by omega)]
            exact hrest i (by omega) hi'

/-- **`erase_if` filters.** -/
theorem Wf.eraseIf (h : q.Wf) (predicate : α → Bool) :
    (q.eraseIf predicate).Wf ∧
      (q.eraseIf predicate).toList = q.toList.filter fun v => !predicate v := by
  have hle := h.count_le
  unfold VectorQueue.eraseIf
  split
  case isTrue hzero =>
    have hnil : q.toList = [] := toList_eq_nil.2 (by simp [empty, hzero])
    exact ⟨h, by rw [hnil]; rfl⟩
  case isFalse =>
    obtain ⟨hwrite, hkept, -⟩ := h.eraseRounds predicate (Nat.le_refl q.count)
    dsimp only
    exact ⟨⟨h.head_lt, Nat.le_trans hwrite hle, rfl⟩, hkept⟩

end VectorQueue

end Data
end Lfi
