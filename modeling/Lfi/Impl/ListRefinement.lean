/-
# The intrusive list is a sequence of nodes

`src/include/impl/DoubleLinkedList.hpp` as a component of its own: `push_back`,
`push_front` and `erase` called in any order, on a heap in which other lists may have
nodes too.  What the calls are for is said by `ListOp.apply`, on a sequence of nodes.

A call is allowed (`Allowed`) for a push when the node is in no list and has null links,
for `erase` when the node is met on the way from `head`.  After any allowed calls the
list and the sequence are the same (`Refines`): following `next` from `head` visits it
forwards (`forward_eq`), following `prev` from `tail` backwards (`backward_eq`), and
`inserted` is set in its nodes alone (`list_refines_sequence`).
-/

import Lfi.Impl.DoubleLinkedList
import Lfi.Runs.Simulation

namespace Lfi
namespace Impl

/-- The calls that change a list. -/
inductive ListOp (α : Type*) where
  | pushBack (node : α)
  | pushFront (node : α)
  | erase (node : α)
  deriving DecidableEq

/-- What a call is for. -/
def ListOp.apply {α : Type*} [DecidableEq α] (xs : List α) : ListOp α → List α
  | .pushBack node => xs ++ [node]
  | .pushFront node => node :: xs
  | .erase node => xs.erase node

/-- The nodes and a list that links some of them. -/
structure ListState (α : Type*) where
  nodes : Nodes α
  list : DoubleLinkedList α

namespace ListState

variable {α : Type*}

/-- A list without nodes. -/
def new (h₀ : Nodes α) : ListState α := ⟨h₀, DoubleLinkedList.empty⟩

/-- The position `i` calls of `++` after `begin()`; `none` is `end()`. -/
def forward (s : ListState α) : ℕ → Option α
  | 0 => s.list.head
  | i + 1 => (s.forward i).bind fun x => (s.nodes x).next

/-- The node reached from `tail` by following `prev` `i` times. -/
def backward (s : ListState α) : ℕ → Option α
  | 0 => s.list.tail
  | i + 1 => (s.backward i).bind fun x => (s.nodes x).prev

variable [DecidableEq α]

/-- `push_back(node)`. -/
def pushBack (s : ListState α) (node : α) : ListState α :=
  let (nodes, list) := Impl.pushBack s.nodes s.list node
  ⟨nodes, list⟩

/-- `push_front(node)`. -/
def pushFront (s : ListState α) (node : α) : ListState α :=
  let (nodes, list) := Impl.pushFront s.nodes s.list node
  ⟨nodes, list⟩

/-- `erase(node)` and the position it returns, read before the node is unlinked. -/
def erase (s : ListState α) (node : α) : ListState α × Option α :=
  let next := (s.nodes node).next
  let (nodes, list) := Impl.erase s.nodes s.list node
  (⟨nodes, list⟩, next)

@[simp] theorem erase_nodes (s : ListState α) (x : α) :
    (s.erase x).1.nodes = (Impl.erase s.nodes s.list x).1 := rfl

/-- One call. -/
def step (s : ListState α) : ListOp α → Option (ListState α)
  | .pushBack node => some (s.pushBack node)
  | .pushFront node => some (s.pushFront node)
  | .erase node => some (s.erase node).1

end ListState

variable {α : Type*}

/-- A node in no list, with null links: not in another one when this one began, and not met on
the way from `head`. -/
structure Insertable (h₀ : Nodes α) (s : ListState α) (x : α) : Prop where
  others : (h₀ x).inserted = false
  this : ∀ i, s.forward i ≠ some x
  prev : (s.nodes x).prev = none
  next : (s.nodes x).next = none

/-- The calls that may be made. -/
def Allowed (h₀ : Nodes α) (s : ListState α) : ListOp α → Prop
  | .pushBack x => Insertable h₀ s x
  | .pushFront x => Insertable h₀ s x
  | .erase x => ∃ i, s.forward i = some x

/-- **The list stands for the sequence.**  Its nodes are those of `xs`, no other node is
inserted that was not at the beginning, and the nodes of other lists are as they were. -/
structure Refines (h₀ : Nodes α) (s : ListState α) (xs : List α) : Prop where
  rep : Rep s.nodes s.list xs
  clear : ∀ x, (h₀ x).inserted = false → x ∉ xs → (s.nodes x).inserted = false
  others : ∀ x, (h₀ x).inserted = true → x ∉ xs ∧ s.nodes x = h₀ x

variable {h₀ : Nodes α} {s t : ListState α} {xs : List α} {x : α}

theorem refines_new : Refines h₀ (ListState.new h₀) [] :=
  ⟨rep_empty, fun _ hx _ => hx, fun _ _ => ⟨List.not_mem_nil, rfl⟩⟩

/-- What is before and after a position of a sequence. -/
theorem split_at {i : ℕ} (hx : xs[i]? = some x) :
    ∃ l₁ l₂, xs = l₁ ++ x :: l₂ ∧ xs[i + 1]? = l₂.head? := by
  obtain ⟨hi, rfl⟩ := List.getElem?_eq_some_iff.1 hx
  refine ⟨xs.take i, xs.drop (i + 1), ?_, ?_⟩
  · rw [← List.drop_eq_getElem_cons hi, List.take_append_drop]
  · rw [List.head?_drop]

/-- A position past the end has none after it. -/
theorem getElem?_succ_of_none {i : ℕ} (hx : xs[i]? = none) : xs[i + 1]? = none := by
  rw [List.getElem?_eq_none_iff] at hx ⊢
  omega

/-- **Following `next`** from `head` visits the nodes of the list in their order, and then
`end()`. -/
theorem Rep.forward_eq (hl : Rep s.nodes s.list xs) (i : ℕ) : s.forward i = xs[i]? := by
  induction i with
  | zero => rw [ListState.forward, hl.head_eq, List.head?_eq_getElem?]
  | succ i ih =>
      rw [ListState.forward, ih]
      cases hx : xs[i]? with
      | none => rw [Option.bind_none, getElem?_succ_of_none hx]
      | some x =>
          obtain ⟨l₁, l₂, rfl, hnext⟩ := split_at hx
          rw [Option.bind_some, hl.neighbours.1, hnext]

/-- **Following `prev`** from `tail` visits them in the opposite order, and then null. -/
theorem Rep.backward_eq (hl : Rep s.nodes s.list xs) (i : ℕ) :
    s.backward i = xs.reverse[i]? := by
  induction i with
  | zero => rw [ListState.backward, hl.tail_eq, ← List.head?_eq_getElem?, List.head?_reverse]
  | succ i ih =>
      rw [ListState.backward, ih]
      cases hx : xs.reverse[i]? with
      | none => rw [Option.bind_none, getElem?_succ_of_none hx]
      | some x =>
          obtain ⟨l₁, l₂, hxs, hnext⟩ := split_at hx
          have hsplit : xs = l₂.reverse ++ x :: l₁.reverse := by
            rw [← List.reverse_reverse xs, hxs]
            simp
          rw [hsplit] at hl
          rw [Option.bind_some, hl.neighbours.1, List.getLast?_reverse, hnext]

/-- The nodes met on the way from `head` are those of the list. -/
theorem Rep.mem_iff_forward (hl : Rep s.nodes s.list xs) : x ∈ xs ↔ ∃ i, s.forward i = some x := by
  rw [List.mem_iff_getElem?]
  simp only [hl.forward_eq]

namespace Refines

/-- A node that may be pushed is free. -/
theorem free_of_insertable (hs : Refines h₀ s xs) (hx : Insertable h₀ s x) :
    s.nodes x = Node.free := by
  have hmem : x ∉ xs := fun hmem => by
    obtain ⟨i, hi⟩ := hs.rep.mem_iff_forward.1 hmem
    exact hx.this i hi
  rcases hnode : s.nodes x with ⟨p, n, b⟩
  have hprev : p = none := by simpa [hnode] using hx.prev
  have hnext : n = none := by simpa [hnode] using hx.next
  have hins : b = false := by simpa [hnode] using hs.clear x hx.others hmem
  rw [hprev, hnext, hins, Node.free]

/-- A push takes a node into the list and leaves the nodes outside alone. -/
theorem push {ys : List α} (hs : Refines h₀ s xs) (hx : (h₀ x).inserted = false)
    (hrep : Rep t.nodes t.list ys) (hys : ∀ y, y ∈ ys ↔ y = x ∨ y ∈ xs)
    (hframe : ∀ y, y ≠ x → y ∉ xs → t.nodes y = s.nodes y) : Refines h₀ t ys := by
  refine ⟨hrep, fun y hy hmem => ?_, fun y hy => ?_⟩
  · rw [hys, not_or] at hmem
    rw [hframe y hmem.1 hmem.2]
    exact hs.clear y hy hmem.2
  · obtain ⟨hmem, hold⟩ := hs.others y hy
    have hyx : y ≠ x := by
      rintro rfl
      rw [hx] at hy
      cases hy
    exact ⟨by rw [hys]; exact not_or.2 ⟨hyx, hmem⟩, (hframe y hyx hmem).trans hold⟩

/-- A free node may be pushed. -/
theorem insertable (hs : Refines h₀ s xs) (hx : s.nodes x = Node.free) : Insertable h₀ s x := by
  refine ⟨?_, fun i hi => ?_, by rw [hx, Node.free], by rw [hx, Node.free]⟩
  · by_contra hold
    have hins : (h₀ x).inserted = true := by simpa using hold
    rw [← (hs.others x hins).2, hx] at hins
    cases hins
  · exact hs.rep.not_mem_of_free hx (hs.rep.mem_iff_forward.2 ⟨i, hi⟩)

variable [DecidableEq α]

/-- `erase` takes a member out. -/
theorem erase (hs : Refines h₀ s xs) (hx : x ∈ xs) :
    Refines h₀ (s.erase x).1 (xs.erase x) := by
  refine ⟨hs.rep.erase hx, fun y hy hmem => ?_, fun y hy => ?_⟩
  · by_cases hyx : y = x
    · rw [hyx, ListState.erase_nodes, erase_self, Node.free]
    · have hxs : y ∉ xs := fun h => hmem ((List.mem_erase_of_ne hyx).2 h)
      rw [ListState.erase_nodes, erase_frame hs.rep hx hxs]
      exact hs.clear y hy hxs
  · obtain ⟨hxs, hold⟩ := hs.others y hy
    exact ⟨fun h => hxs (List.mem_of_mem_erase h), (erase_frame hs.rep hx hxs).trans hold⟩

/-- **An allowed call does what it is for.** -/
theorem step {op : ListOp α} (hs : Refines h₀ s xs) (hop : Allowed h₀ s op)
    (h : s.step op = some t) : Refines h₀ t (op.apply xs) := by
  cases op with
  | pushBack x =>
      obtain rfl := Option.some.inj h
      exact hs.push hop.others (hs.rep.pushBack (hs.free_of_insertable hop))
        (fun y => by rw [ListOp.apply, List.mem_append, List.mem_singleton, or_comm])
        fun y hy hmem => pushBack_frame hs.rep hy hmem
  | pushFront x =>
      obtain rfl := Option.some.inj h
      exact hs.push hop.others (hs.rep.pushFront (hs.free_of_insertable hop))
        (fun y => List.mem_cons) fun y hy hmem => pushFront_frame hs.rep hy hmem
  | erase x =>
      obtain rfl := Option.some.inj h
      exact hs.erase (hs.rep.mem_iff_forward.2 hop)

/-- `inserted` is set in the nodes of the list alone. -/
theorem inserted_iff (hs : Refines h₀ s xs) (hx : (h₀ x).inserted = false) :
    (s.nodes x).inserted = true ↔ x ∈ xs := by
  constructor
  · intro hins
    by_contra hmem
    rw [hs.clear x hx hmem] at hins
    cases hins
  · exact hs.rep.seg.inserted

/-- `erase` returns the node after the member, and leaves the member as one that may be
inserted again. -/
theorem erase_returns {l₁ l₂ : List α} (hs : Refines h₀ s (l₁ ++ x :: l₂)) :
    (s.erase x).2 = l₂.head? ∧ Refines h₀ (s.erase x).1 (l₁ ++ l₂) ∧
      Insertable h₀ (s.erase x).1 x := by
  obtain ⟨hnode, hx₁, -, -⟩ := hs.rep.neighbours
  have hrest := hs.erase (by simp : x ∈ l₁ ++ x :: l₂)
  rw [List.erase_append_right _ hx₁, List.erase_cons_head] at hrest
  exact ⟨by rw [ListState.erase, hnode], hrest, hrest.insertable erase_self⟩

end Refines

/-- **The intrusive list refines a sequence.**  After any allowed calls on a new list there is
one sequence without duplicates, what the calls are for, that is met by following `next` from
`head` and backwards by following `prev` from `tail`; `size` is its length, and `inserted` is
set in its nodes alone.  Nodes of other lists are as they were.  `erase` of any of its nodes
removes this node, returns the one after it and leaves it ready for the next insertion. -/
theorem list_refines_sequence [DecidableEq α] (h₀ : Nodes α) (ops : List (ListOp α))
    (s : ListState α) (hrun : Runs.exec ListState.step (ListState.new h₀) ops = some s)
    (hops : Runs.Meets ListState.step (Allowed h₀) (ListState.new h₀) ops) :
    ∃ xs : List α, xs = ops.foldl ListOp.apply [] ∧ xs.Nodup ∧
      (∀ i, s.forward i = xs[i]?) ∧ (∀ i, s.backward i = xs.reverse[i]?) ∧
      s.list.size = xs.length ∧
      (∀ x, (h₀ x).inserted = false → ((s.nodes x).inserted = true ↔ x ∈ xs)) ∧
      (∀ x, (h₀ x).inserted = true → s.nodes x = h₀ x) ∧
      ∀ l₁ x l₂, xs = l₁ ++ x :: l₂ →
        ListOp.apply xs (.erase x) = l₁ ++ l₂ ∧ (s.erase x).2 = l₂.head? ∧
        (∀ i, (s.erase x).1.forward i = (l₁ ++ l₂)[i]?) ∧ Insertable h₀ (s.erase x).1 x := by
  have hs : Refines h₀ s (ops.foldl ListOp.apply []) :=
    Runs.exec_foldl (fun _ _ _ _ hs hop h => hs.step hop h) refines_new hops hrun
  refine ⟨_, rfl, hs.rep.nodup, hs.rep.forward_eq, hs.rep.backward_eq, hs.rep.size_eq,
    fun x => hs.inserted_iff, fun x hx => (hs.others x hx).2, fun l₁ x l₂ hxs => ?_⟩
  rw [hxs] at hs ⊢
  obtain ⟨hnext, hrest, hinsert⟩ := hs.erase_returns
  refine ⟨?_, hnext, hrest.rep.forward_eq, hinsert⟩
  rw [ListOp.apply, List.erase_append_right _ hs.rep.neighbours.2.1, List.erase_cons_head]

/-- Three calls on two free nodes. -/
theorem list_refines_sequence_two :
    ∃ s, Runs.exec ListState.step (ListState.new fun _ : ℕ => Node.free)
        [.pushBack 0, .pushFront 1, .erase 0] = some s ∧
      (∀ i, s.forward i = [1][i]?) ∧ (s.nodes 0).inserted = false := by
  have h₁ : Refines (fun _ : ℕ => Node.free) (ListState.new fun _ => Node.free) [] := refines_new
  have a₁ : Allowed (fun _ : ℕ => Node.free) (ListState.new fun _ => Node.free) (.pushBack 0) :=
    h₁.insertable rfl
  have h₂ := h₁.step a₁ rfl
  have a₂ : Insertable _ _ 1 := h₂.insertable rfl
  have h₃ := h₂.step (show Allowed _ _ (.pushFront 1) from a₂) rfl
  have a₃ := h₃.rep.mem_iff_forward.1 (by decide : 0 ∈ ([1, 0] : List ℕ))
  obtain ⟨xs, rfl, -, hforward, -, -, hflag, -, -⟩ := list_refines_sequence _
    [.pushBack 0, .pushFront 1, .erase 0] _ rfl
    ⟨a₁, fun _ h => Option.some.inj h ▸ ⟨a₂, fun _ h => Option.some.inj h ▸
      ⟨a₃, fun _ _ => trivial⟩⟩⟩
  exact ⟨_, rfl, hforward, by simpa using (hflag 0 rfl).not.2 (by decide)⟩

end Impl
end Lfi
