/-
# Intrusive doubly linked lists

`src/include/impl/DoubleLinkedList.hpp` links nodes through their own fields
`prev`, `next` and `inserted`; a list is the two ends and a counter.  The nodes
live in a heap `Nodes`, here a function from node names, and the operations take
the heap and the list to the new ones as the source does, assignment by
assignment.  `size` is a `size_t` there; it is an integer here, so that one
`erase` too many shows as `-1` and not as `2^64 - 1`.

`Rep h l xs` says that `l` is a well-formed list of exactly the nodes `xs`.
`push_back` of a node in no list appends (`Rep.pushBack`), `push_front` puts it in
front (`Rep.pushFront`), and `erase` of a member removes it (`Rep.erase`).  `erase` never
looks at `inserted`: on a node in no list it empties the list it is called on
(`erase_free`).
-/

import Mathlib.Data.Int.Notation
import Mathlib.Data.List.Nodup
import Mathlib.Logic.Function.Basic

namespace Lfi
namespace Impl

/-- The fields of a node. -/
structure Node (α : Type*) where
  prev : Option α
  next : Option α
  inserted : Bool
  deriving DecidableEq

/-- A node in no list. -/
def Node.free {α : Type*} : Node α := ⟨none, none, false⟩

/-- All nodes, in lists and in none. -/
abbrev Nodes (α : Type*) := α → Node α

/-- `DoubleLinkedList<T>`. -/
structure DoubleLinkedList (α : Type*) where
  head : Option α
  tail : Option α
  size : ℤ
  deriving DecidableEq

/-- The list without nodes. -/
def DoubleLinkedList.empty {α : Type*} : DoubleLinkedList α := ⟨none, none, 0⟩

section Operations

variable {α : Type*} [DecidableEq α]

/-- The heap after `x->next = y`. -/
def setNext (h : Nodes α) (x : α) (y : Option α) : Nodes α :=
  Function.update h x { h x with next := y }

/-- The heap after `x->prev = y`. -/
def setPrev (h : Nodes α) (x : α) (y : Option α) : Nodes α :=
  Function.update h x { h x with prev := y }

/-- The heap after `x->inserted = b`. -/
def setInserted (h : Nodes α) (x : α) (b : Bool) : Nodes α :=
  Function.update h x { h x with inserted := b }

/-- `push_back(node)`. -/
def pushBack (h : Nodes α) (l : DoubleLinkedList α) (node : α) : Nodes α × DoubleLinkedList α :=
  match l.tail with
  | none => (setInserted h node true, ⟨some node, some node, l.size + 1⟩)
  | some tail =>
      let h := setNext h tail (some node)
      let h := setPrev h node (some tail)
      (setInserted h node true, ⟨l.head, some node, l.size + 1⟩)

/-- `push_front(node)`. -/
def pushFront (h : Nodes α) (l : DoubleLinkedList α) (node : α) : Nodes α × DoubleLinkedList α :=
  match l.head with
  | none => (setInserted h node true, ⟨some node, some node, l.size + 1⟩)
  | some head =>
      let h := setPrev h head (some node)
      let h := setNext h node (some head)
      (setInserted h node true, ⟨some node, l.tail, l.size + 1⟩)

/-- `erase(node)`. -/
def erase (h : Nodes α) (l : DoubleLinkedList α) (node : α) : Nodes α × DoubleLinkedList α :=
  let (h, head) := match (h node).prev with
    | some p => (setNext h p (h node).next, l.head)
    | none => (h, (h node).next)
  let (h, tail) := match (h node).next with
    | some n => (setPrev h n (h node).prev, l.tail)
    | none => (h, (h node).prev)
  (Function.update h node Node.free, ⟨head, tail, l.size - 1⟩)

end Operations

variable {α : Type*}

/-- The nodes `xs` are linked in this order, between `p` and `n`. -/
def Seg (h : Nodes α) : Option α → List α → Option α → Prop
  | _, [], _ => True
  | p, x :: xs, n => h x = ⟨p, xs.head?.or n, true⟩ ∧ Seg h (some x) xs n

/-- **Well-formed list.**  The list `l` has exactly the nodes `xs`, in this order. -/
structure Rep (h : Nodes α) (l : DoubleLinkedList α) (xs : List α) : Prop where
  nodup : xs.Nodup
  head_eq : l.head = xs.head?
  tail_eq : l.tail = xs.getLast?
  size_eq : l.size = xs.length
  seg : Seg h none xs none

variable {h h' : Nodes α} {l : DoubleLinkedList α} {xs ys : List α} {x : α}

theorem seg_append {p n : Option α} :
    Seg h p (xs ++ ys) n ↔ Seg h p xs (ys.head?.or n) ∧ Seg h (xs.getLast?.or p) ys n := by
  induction xs generalizing p with
  | nil => simp [Seg]
  | cons x xs ih =>
      rw [List.cons_append, Seg, Seg, ih, and_assoc]
      cases xs with
      | nil => simp
      | cons z zs => simp [List.getLast?_cons]

theorem Seg.congr {p n : Option α} (hs : Seg h p xs n) (heq : ∀ x ∈ xs, h' x = h x) :
    Seg h' p xs n := by
  induction xs generalizing p with
  | nil => trivial
  | cons x xs ih =>
      exact ⟨(heq x List.mem_cons_self).trans hs.1,
        ih hs.2 fun y hy => heq y (List.mem_cons_of_mem x hy)⟩

/-- The last node of a segment is linked on to another one. -/
theorem Seg.linkOn [DecidableEq α] {p n m : Option α} (hs : Seg h p xs n) (hnd : xs.Nodup)
    (heap : ∀ y ∈ xs, h' y = if xs.getLast? = some y then { h y with next := m } else h y) :
    Seg h' p xs m := by
  induction xs generalizing p with
  | nil => trivial
  | cons x xs ih =>
      obtain ⟨hx, hrest⟩ := hs
      obtain ⟨hmem, hnd⟩ := List.nodup_cons.1 hnd
      cases xs with
      | nil =>
          refine ⟨?_, trivial⟩
          rw [heap x List.mem_cons_self, List.getLast?_singleton, if_pos rfl, hx]
          rfl
      | cons z zs =>
          rw [List.getLast?_cons_cons] at heap
          refine ⟨?_, ih hrest hnd fun y hy => heap y (List.mem_cons_of_mem x hy)⟩
          rw [heap x List.mem_cons_self, if_neg fun hlast => hmem (List.mem_of_getLast? hlast), hx]
          rfl

/-- The first node of a segment is linked back to another one. -/
theorem Seg.linkBack [DecidableEq α] {p q n : Option α} (hs : Seg h p xs n) (hnd : xs.Nodup)
    (heap : ∀ y ∈ xs, h' y = if xs.head? = some y then { h y with prev := q } else h y) :
    Seg h' q xs n := by
  cases xs with
  | nil => trivial
  | cons x xs =>
      obtain ⟨hx, hrest⟩ := hs
      rw [List.head?_cons] at heap
      refine ⟨by rw [heap x List.mem_cons_self, if_pos rfl, hx], hrest.congr fun y hy => ?_⟩
      rw [heap y (List.mem_cons_of_mem x hy), if_neg]
      intro hhead
      obtain rfl : x = y := Option.some.inj hhead
      exact (List.nodup_cons.1 hnd).1 hy

/-- The nodes of a segment say so. -/
theorem Seg.inserted {p n : Option α} (hs : Seg h p xs n) (hx : x ∈ xs) :
    (h x).inserted = true := by
  induction xs generalizing p with
  | nil => cases hx
  | cons y ys ih =>
      rcases List.mem_cons.1 hx with rfl | hx
      · rw [hs.1]
      · exact ih hs.2 hx

/-- A list does not change with the nodes that are not in it. -/
theorem Rep.congr (hl : Rep h l xs) (heq : ∀ x ∈ xs, h' x = h x) : Rep h' l xs :=
  ⟨hl.nodup, hl.head_eq, hl.tail_eq, hl.size_eq, hl.seg.congr heq⟩

theorem rep_empty : Rep h DoubleLinkedList.empty ([] : List α) :=
  ⟨List.nodup_nil, rfl, rfl, rfl, trivial⟩

/-- A free node is in no list. -/
theorem Rep.not_mem_of_free (hl : Rep h l xs) (hx : h x = Node.free) : x ∉ xs := fun hmem => by
  have := hl.seg.inserted hmem
  rw [hx] at this
  cases this

/-- A free node is not an end of the list. -/
theorem Rep.ends_ne (hl : Rep h l xs) (hx : h x = Node.free) :
    l.head ≠ some x ∧ l.tail ≠ some x := by
  rw [hl.head_eq, hl.tail_eq]
  exact ⟨fun hh => hl.not_mem_of_free hx (List.mem_of_mem_head? hh),
    fun ht => hl.not_mem_of_free hx (List.mem_of_getLast? ht)⟩

/-- A list has one sequence of nodes. -/
theorem Rep.unique (hx : Rep h l xs) (hy : Rep h l ys) : xs = ys := by
  have key : ∀ (xs ys : List α) (p : Option α), Seg h p xs none → Seg h p ys none →
      xs.head? = ys.head? → xs = ys := by
    intro xs
    induction xs with
    | nil =>
        intro ys p _ _ hh
        cases ys with
        | nil => rfl
        | cons y ys => cases hh
    | cons x xs ih =>
        intro ys p hxs hys hh
        cases ys with
        | nil => cases hh
        | cons y ys =>
            obtain rfl : x = y := Option.some.inj hh
            have hnode := hxs.1.symm.trans hys.1
            simp only [Option.or_none, Node.mk.injEq, true_and, and_true] at hnode
            rw [ih ys (some x) hxs.2 hys.2 hnode]
  exact key xs ys none hx.seg hy.seg (hx.head_eq.symm.trans hy.head_eq)

theorem Rep.size_eq_zero (hl : Rep h l xs) : l.size = 0 ↔ xs = [] := by
  rw [hl.size_eq]
  simp

theorem Rep.head_eq_none (hl : Rep h l xs) : l.head = none ↔ xs = [] := by
  rw [hl.head_eq, List.head?_eq_none_iff]

/-- The neighbours of a member. -/
theorem Rep.neighbours {l₁ l₂ : List α} (hl : Rep h l (l₁ ++ x :: l₂)) :
    h x = ⟨l₁.getLast?, l₂.head?, true⟩ ∧ x ∉ l₁ ∧ x ∉ l₂ ∧ ∀ z ∈ l₁, z ∉ l₂ := by
  have hnode := (seg_append.1 hl.seg).2.1
  obtain ⟨-, hnd, hne⟩ := List.nodup_append.1 hl.nodup
  refine ⟨by simpa using hnode, fun h => hne x h x (by simp) rfl, (List.nodup_cons.1 hnd).1,
    fun z h₁ h₂ => hne z h₁ z (by simp [h₂]) rfl⟩

variable [DecidableEq α]

/-- What `push_back` of a free node does: the node and the last one are linked. -/
theorem pushBack_eq (hx : h x = Node.free) (htail : l.tail ≠ some x) :
    (∀ y, (pushBack h l x).1 y = if y = x then ⟨l.tail, none, true⟩
      else if l.tail = some y then { h y with next := some x } else h y) ∧
    (pushBack h l x).2 = ⟨if l.tail = none then some x else l.head, some x, l.size + 1⟩ := by
  unfold pushBack
  cases ht : l.tail with
  | none =>
      refine ⟨fun y => ?_, rfl⟩
      by_cases hy : y = x <;> simp [setInserted, hy, hx, Node.free]
  | some t =>
      have hxt : x ≠ t := by rintro rfl; exact htail ht
      refine ⟨fun y => ?_, rfl⟩
      by_cases hy : y = x
      · simp [setInserted, setPrev, setNext, hy, hx, Node.free, hxt]
      · by_cases hyt : y = t
        · simp [setInserted, setPrev, setNext, hyt, Ne.symm hxt]
        · simp [setInserted, setPrev, setNext, hy, hyt, Ne.symm hyt]

/-- What `push_front` of a free node does. -/
theorem pushFront_eq (hx : h x = Node.free) (hhead : l.head ≠ some x) :
    (∀ y, (pushFront h l x).1 y = if y = x then ⟨none, l.head, true⟩
      else if l.head = some y then { h y with prev := some x } else h y) ∧
    (pushFront h l x).2 = ⟨some x, if l.head = none then some x else l.tail, l.size + 1⟩ := by
  unfold pushFront
  cases ht : l.head with
  | none =>
      refine ⟨fun y => ?_, rfl⟩
      by_cases hy : y = x <;> simp [setInserted, hy, hx, Node.free]
  | some t =>
      have hxt : x ≠ t := by rintro rfl; exact hhead ht
      refine ⟨fun y => ?_, rfl⟩
      by_cases hy : y = x
      · simp [setInserted, setPrev, setNext, hy, hx, Node.free, hxt]
      · by_cases hyt : y = t
        · simp [setInserted, setPrev, setNext, hyt, Ne.symm hxt]
        · simp [setInserted, setPrev, setNext, hy, hyt, Ne.symm hyt]

/-- `push_back` touches the node and the last node of the list. -/
theorem pushBack_frame (hl : Rep h l xs) {y : α} (hy : y ≠ x) (hmem : y ∉ xs) :
    (pushBack h l x).1 y = h y := by
  unfold pushBack
  cases ht : l.tail with
  | none => simp [setInserted, hy]
  | some t =>
      have hyt : y ≠ t := by
        rintro rfl
        exact hmem (List.mem_of_getLast? (hl.tail_eq ▸ ht))
      simp [setInserted, setPrev, setNext, hy, hyt]

/-- **`push_back` appends** a node that is in no list. -/
theorem Rep.pushBack (hl : Rep h l xs) (hx : h x = Node.free) :
    Rep (Impl.pushBack h l x).1 (Impl.pushBack h l x).2 (xs ++ [x]) := by
  have hmem : x ∉ xs := hl.not_mem_of_free hx
  obtain ⟨heap, hlist⟩ := pushBack_eq hx (hl.ends_ne hx).2
  refine ⟨List.nodup_append.2 ⟨hl.nodup, List.nodup_singleton x, ?_⟩, ?_, ?_, ?_, ?_⟩
  · rintro a ha b hb rfl
    exact hmem (List.mem_singleton.1 hb ▸ ha)
  · rw [hlist, hl.head_eq, hl.tail_eq]
    cases xs <;> simp
  · rw [hlist, List.getLast?_concat]
  · rw [hlist, hl.size_eq]
    simp
  · rw [seg_append]
    refine ⟨hl.seg.linkOn hl.nodup fun y hy => ?_, ?_, trivial⟩
    · have hyx : y ≠ x := by rintro rfl; exact hmem hy
      rw [heap, if_neg hyx, hl.tail_eq]
      rfl
    · rw [heap, if_pos rfl, hl.tail_eq, Option.or_none]
      rfl

/-- `push_front` touches the node and the first node of the list. -/
theorem pushFront_frame (hl : Rep h l xs) {y : α} (hy : y ≠ x) (hmem : y ∉ xs) :
    (pushFront h l x).1 y = h y := by
  unfold pushFront
  cases hh : l.head with
  | none => simp [setInserted, hy]
  | some t =>
      have hyt : y ≠ t := by
        rintro rfl
        exact hmem (List.mem_of_mem_head? (hl.head_eq ▸ hh))
      simp [setInserted, setPrev, setNext, hy, hyt]

/-- **`push_front` puts in front** a node that is in no list. -/
theorem Rep.pushFront (hl : Rep h l xs) (hx : h x = Node.free) :
    Rep (Impl.pushFront h l x).1 (Impl.pushFront h l x).2 (x :: xs) := by
  have hmem : x ∉ xs := hl.not_mem_of_free hx
  obtain ⟨heap, hlist⟩ := pushFront_eq hx (hl.ends_ne hx).1
  refine ⟨List.nodup_cons.2 ⟨hmem, hl.nodup⟩, ?_, ?_, ?_, ?_, ?_⟩
  · rw [hlist, List.head?_cons]
  · rw [hlist, hl.head_eq, hl.tail_eq]
    cases xs <;> simp
  · rw [hlist, hl.size_eq]
    simp
  · rw [heap, if_pos rfl, hl.head_eq, Option.or_none]
  · refine hl.seg.linkBack hl.nodup fun y hy => ?_
    have hyx : y ≠ x := by rintro rfl; exact hmem hy
    rw [heap, if_neg hyx, hl.head_eq]

/-- Linking and unlinking others does not change whether a node is inserted. -/
@[simp] theorem setNext_inserted (h : Nodes α) (x y : α) (z : Option α) :
    (setNext h x z y).inserted = (h y).inserted := by
  by_cases hy : y = x <;> simp [setNext, hy]

@[simp] theorem setPrev_inserted (h : Nodes α) (x y : α) (z : Option α) :
    (setPrev h x z y).inserted = (h y).inserted := by
  by_cases hy : y = x <;> simp [setPrev, hy]

theorem pushBack_inserted (h : Nodes α) (l : DoubleLinkedList α) (x y : α) :
    ((pushBack h l x).1 y).inserted = true ↔ y = x ∨ (h y).inserted = true := by
  unfold pushBack
  cases l.tail <;> by_cases hy : y = x <;> simp [setInserted, hy]

theorem erase_inserted (h : Nodes α) (l : DoubleLinkedList α) (x y : α) :
    ((erase h l x).1 y).inserted = true ↔ y ≠ x ∧ (h y).inserted = true := by
  by_cases hy : y = x
  · simp [erase, hy, Node.free]
  · cases hp : (h x).prev with
    | none => cases hn : (h x).next <;> simp [erase, hp, hn, hy]
    | some p => cases hn : (setNext h p (h x).next x).next <;> simp [erase, hp, hn, hy]

/-- An erased node is in no list. -/
@[simp] theorem erase_self : (erase h l x).1 x = Node.free := by
  simp [erase]

/-- What `erase` does when the node is not its own predecessor: the neighbours are
linked to each other, and an end that was the node moves on. -/
theorem erase_eq {p n : Option α} {b : Bool} (hx : h x = ⟨p, n, b⟩) (hp : p ≠ some x)
    (hpn : ∀ z, p = some z → n ≠ some z) :
    (∀ y, y ≠ x → (erase h l x).1 y = if p = some y then { h y with next := n }
      else if n = some y then { h y with prev := p } else h y) ∧
    (erase h l x).2 = ⟨if p = none then n else l.head, if n = none then p else l.tail,
      l.size - 1⟩ := by
  have hread : ∀ z, p = some z → Function.update h z { h z with next := n } x = h x :=
    fun z hz => Function.update_of_ne (by rintro rfl; exact hp hz) ..
  cases hp' : p with
  | none =>
      cases hn' : n with
      | none => simp_all [erase]
      | some m =>
          refine ⟨fun y hy => ?_, by simp_all [erase]⟩
          by_cases hym : y = m
          · simp_all [erase, setPrev]
          · simp_all [erase, setPrev, Ne.symm hym]
  | some q =>
      subst hp'
      have hq := hread q rfl
      cases hn' : n with
      | none =>
          subst hn'
          refine ⟨fun y hy => ?_, by simp [erase, hx, setNext, hq]⟩
          by_cases hyq : y = q
          · simp [erase, setNext, hx, hq, hyq, hyq ▸ hy]
          · simp [erase, setNext, hx, hq, hyq, hy, Ne.symm hyq]
      | some m =>
          subst hn'
          have hqm : q ≠ m := fun hqm => hpn q rfl (by rw [hqm])
          refine ⟨fun y hy => ?_, by simp [erase, hx, setNext, hq]⟩
          by_cases hyq : y = q
          · subst hyq
            simp [erase, setNext, setPrev, hx, hq, hy, hqm]
          · by_cases hym : y = m
            · subst hym
              simp [erase, setNext, setPrev, hx, hq, hy, hyq, hqm]
            · simp [erase, setNext, setPrev, hx, hq, hy, hyq, hym, Ne.symm hyq, Ne.symm hym]

/-- What `erase` of a member does. -/
theorem erase_member {l₁ l₂ : List α} (hl : Rep h l (l₁ ++ x :: l₂)) :
    (∀ y, y ≠ x → (erase h l x).1 y = if l₁.getLast? = some y then { h y with next := l₂.head? }
      else if l₂.head? = some y then { h y with prev := l₁.getLast? } else h y) ∧
    (erase h l x).2 = ⟨if l₁.getLast? = none then l₂.head? else l.head,
      if l₂.head? = none then l₁.getLast? else l.tail, l.size - 1⟩ := by
  obtain ⟨hnode, hx₁, hx₂, hdis⟩ := hl.neighbours
  exact erase_eq hnode (fun h => hx₁ (List.mem_of_getLast? h))
    fun z h₁ h₂ => hdis z (List.mem_of_getLast? h₁) (List.mem_of_mem_head? h₂)

/-- `erase` of a member touches the members only. -/
theorem erase_frame (hl : Rep h l xs) (hx : x ∈ xs) {y : α} (hy : y ∉ xs) :
    (erase h l x).1 y = h y := by
  obtain ⟨l₁, l₂, rfl⟩ := List.append_of_mem hx
  rw [(erase_member hl).1 y (by rintro rfl; exact hy (by simp)), if_neg, if_neg]
  · exact fun h => hy (by simp [List.mem_of_mem_head? h])
  · exact fun h => hy (by simp [List.mem_of_getLast? h])

/-- **`erase` removes** a member. -/
theorem Rep.erase_append {l₁ l₂ : List α} (hl : Rep h l (l₁ ++ x :: l₂)) :
    Rep (Impl.erase h l x).1 (Impl.erase h l x).2 (l₁ ++ l₂) := by
  obtain ⟨hseg₁, -, hseg₂⟩ := seg_append.1 hl.seg
  obtain ⟨-, hx₁, hx₂, hdis⟩ := hl.neighbours
  obtain ⟨heap, hlist⟩ := erase_member hl
  have hhead := hl.head_eq
  have htail := hl.tail_eq
  have hnd := List.nodup_append.1 hl.nodup
  refine ⟨hl.nodup.sublist (by simp), ?_, ?_, ?_, ?_⟩
  · rw [hlist]
    cases l₁ with
    | nil => simp
    | cons z zs => simp [hhead]
  · rw [hlist]
    rcases List.eq_nil_or_concat l₂ with rfl | ⟨zs, z, rfl⟩
    · simp
    · rw [htail]
      cases zs <;> simp
  · rw [hlist, hl.size_eq]
    simp
    omega
  · rw [seg_append]
    constructor
    · -- the nodes before `x`: the last one is linked on
      refine hseg₁.linkOn hnd.1 fun y hy => ?_
      have hyx : y ≠ x := by rintro rfl; exact hx₁ hy
      have hyn : l₂.head? ≠ some y := fun h => hdis y hy (List.mem_of_mem_head? h)
      rw [heap y hyx, if_neg hyn, Option.or_none]
    · -- the nodes after `x`: the first one is linked back
      refine hseg₂.linkBack (List.nodup_cons.1 hnd.2.1).2 fun y hy => ?_
      have hyx : y ≠ x := by rintro rfl; exact hx₂ hy
      have hyp : l₁.getLast? ≠ some y := fun h => hdis y (List.mem_of_getLast? h) hy
      rw [heap y hyx, if_neg hyp, Option.or_none]

/-- `erase` of a member leaves the others, in their order. -/
theorem Rep.erase (hl : Rep h l xs) (hx : x ∈ xs) :
    Rep (Impl.erase h l x).1 (Impl.erase h l x).2 (xs.erase x) := by
  obtain ⟨l₁, l₂, rfl⟩ := List.append_of_mem hx
  rw [List.erase_append_right _ hl.neighbours.2.1, List.erase_cons_head]
  exact hl.erase_append

/-- `erase` on a node in no list forgets all nodes of the list it is called on. -/
theorem erase_free (hx : h x = Node.free) :
    erase h l x = (h, ⟨none, none, l.size - 1⟩) := by
  have hupd : Function.update h x (⟨none, none, false⟩ : Node α) = h :=
    Function.update_eq_self_iff.2 hx.symm
  simp only [erase, hx, Node.free, hupd]

end Impl
end Lfi
