/-
# The ring buffer inside its vector

`VectorQueue<T>` once more, now with `m_buffer` as the vector it is: a read, a write or a
`memcpy` outside of it fails.  On well-formed queues none does, and what is computed is
what `Lfi.Data.VectorQueue` computes.  So from any first capacity on, through any sequence
of operations and any number of growths, the queue is a list (`ring_buffer_refines_list`).
-/

import Lfi.Data.VectorQueue

namespace Lfi
namespace Data

/-! ### Accesses to a vector -/

section Vector

variable {α : Type*}

/-- `b[i] = v`. -/
def write (b : List α) (i : ℕ) (v : α) : Option (List α) :=
  if i < b.length then some (b.set i v) else none

/-- `memcpy(b + dst, b + src, n)`, from a place before `dst` that does not overlap. -/
def copy (b : List α) (dst src n : ℕ) : Option (List α) :=
  if src + n ≤ dst ∧ dst + n ≤ b.length then
    some (b.take dst ++ (b.drop src).take n ++ b.drop (dst + n))
  else none

variable [Inhabited α] {b c : List α} {i : ℕ} {v : α}

/-- A vector as memory. -/
def memory (b : List α) (i : ℕ) : α := b.getD i default

theorem getElem?_of_lt (h : i < b.length) : b[i]? = some (memory b i) := by
  simp [memory, h]

/-- A write inside the vector. -/
theorem write_of_lt (h : i < b.length) (v : α) :
    ∃ c, write b i v = some c ∧ c.length = b.length ∧
      memory c = Function.update (memory b) i v := by
  refine ⟨b.set i v, if_pos h, List.length_set, ?_⟩
  funext j
  by_cases hj : j = i
  · subst hj
    simp [memory, h]
  · rw [Function.update_of_ne hj, memory, memory, List.getD_eq_getElem?_getD,
      List.getElem?_set_ne (Ne.symm hj), List.getD_eq_getElem?_getD]

/-- A copy inside the vector. -/
theorem copy_of_le {dst src n : ℕ} (hsrc : src + n ≤ dst) (hdst : dst + n ≤ b.length) :
    ∃ c, copy b dst src n = some c ∧ c.length = b.length ∧
      memory c = memcpy (memory b) dst src n := by
  refine ⟨_, if_pos ⟨hsrc, hdst⟩, ?_, ?_⟩
  · simp only [List.length_append, List.length_take, List.length_drop]
    omega
  · funext j
    have htake : (b.take dst).length = dst := by
      rw [List.length_take]
      omega
    have hmid : (b.take dst ++ (b.drop src).take n).length = dst + n := by
      rw [List.length_append, htake, List.length_take, List.length_drop]
      omega
    unfold memory memcpy
    simp only [List.getD_eq_getElem?_getD]
    by_cases hlow : j < dst
    · rw [if_neg (by omega), List.append_assoc, List.getElem?_append_left (by omega),
        List.getElem?_take_of_lt hlow]
    · by_cases hin : j < dst + n
      · rw [if_pos ⟨by omega, hin⟩, List.getElem?_append_left (by omega),
          List.getElem?_append_right (by omega), htake, List.getElem?_take_of_lt (by omega),
          List.getElem?_drop]
      · rw [if_neg (by omega), List.getElem?_append_right (by omega), hmid, List.getElem?_drop,
          Nat.add_sub_of_le (by omega)]

/-- What is appended to a vector is default values, so the memory stays. -/
theorem memory_append_replicate (b : List α) (n : ℕ) :
    memory (b ++ List.replicate n default) = memory b := by
  funext i
  unfold memory
  by_cases hi : i < b.length
  · simp [List.getD_eq_getElem?_getD, List.getElem?_append_left hi]
  · rw [List.getD_eq_getElem?_getD, List.getElem?_append_right (by omega),
      List.getElem?_replicate, List.getD_eq_getElem?_getD, List.getElem?_eq_none (by omega)]
    split <;> rfl

end Vector

/-! ### The queue -/

/-- `VectorQueue<T>`. -/
structure RingBuffer (α : Type*) where
  buffer : List α
  head : ℕ
  tail : ℕ
  count : ℕ

/-- `VectorQueue<T>::Iterator`. -/
structure Iterator (α : Type*) where
  queue : RingBuffer α
  index : ℕ

namespace RingBuffer

section Operations

variable {α : Type*} (q : RingBuffer α)

/-- `VectorQueue(cap)`. -/
def new [Inhabited α] (cap : ℕ) : RingBuffer α := ⟨List.replicate cap default, 0, 0, 0⟩

/-- `m_head + i`, or that from the start of the vector on. -/
def pos (i : ℕ) : ℕ :=
  if q.buffer.length ≤ q.head + i then q.head + i - q.buffer.length else q.head + i

/-- The first half of `push`. -/
def grow [Inhabited α] : Option (RingBuffer α) :=
  if q.count = q.buffer.length then
    let oldSize := q.buffer.length
    let buffer := q.buffer ++ List.replicate oldSize default
    if q.tail ≤ q.head then do
      let buffer ← copy buffer oldSize 0 q.tail
      some { q with buffer := buffer, tail := oldSize + q.tail }
    else some { q with buffer := buffer }
  else some q

/-- `push(v)`, of a value that is no element of the queue. -/
def push [Inhabited α] (v : α) : Option (RingBuffer α) := do
  let q ← q.grow
  let buffer ← write q.buffer q.tail v
  some { q with
    buffer := buffer
    tail := if q.tail + 1 = buffer.length then 0 else q.tail + 1
    count := q.count + 1 }

/-- `pop()`. -/
def pop : RingBuffer α :=
  if 0 < q.count then
    { q with
      head := if q.head + 1 = q.buffer.length then 0 else q.head + 1
      count := q.count - 1 }
  else q

/-- `front()`. -/
def front : Option α := q.buffer[q.head]?

/-- `empty()`. -/
def empty : Bool := q.count == 0

/-- `size()`. -/
def size : ℕ := q.count

/-- One round of the loop of `erase_if`. -/
def eraseRound (predicate : α → Bool) (p : List α × ℕ) (readIdx : ℕ) : Option (List α × ℕ) := do
  let v ← p.1[q.pos readIdx]?
  if predicate v then some p
  else
    let buffer ← if p.2 ≠ readIdx then write p.1 (q.pos p.2) v else some p.1
    some (buffer, p.2 + 1)

/-- `erase_if(predicate)`. -/
def eraseIf (predicate : α → Bool) : Option (RingBuffer α) :=
  if q.count = 0 then some q
  else do
    let p ← (List.range q.count).foldlM (q.eraseRound predicate) (q.buffer, 0)
    some { q with buffer := p.1, count := p.2, tail := q.pos p.2 }

/-- `begin()`. -/
def iterBegin : Iterator α := ⟨q, 0⟩

/-- `end()`. -/
def iterEnd : Iterator α := ⟨q, q.count⟩

/-- **The content**: the `size()` places from `m_head` on, taken cyclically. -/
def toList [Inhabited α] : List α :=
  (List.range q.count).map fun i => memory q.buffer ((q.head + i) % q.buffer.length)

/-- The queue with the vector seen as memory. -/
def toQueue [Inhabited α] : VectorQueue α :=
  ⟨memory q.buffer, q.buffer.length, q.head, q.tail, q.count⟩

end Operations

end RingBuffer

namespace Iterator

variable {α : Type*}

/-- `*it`. -/
def deref (it : Iterator α) : Option α :=
  it.queue.buffer[(it.queue.head + it.index) % it.queue.buffer.length]?

/-- `++it`. -/
def next (it : Iterator α) : Iterator α := { it with index := it.index + 1 }

/-- The values from `it` to `last`, for the loop that stops when they are equal. -/
def walk : ℕ → Iterator α → Iterator α → Option (List α)
  | fuel, it, last =>
      if it.index = last.index then some []
      else
        match fuel with
        | 0 => none
        | fuel + 1 => do
            let v ← it.deref
            let vs ← walk fuel it.next last
            some (v :: vs)

end Iterator

namespace RingBuffer

variable {α : Type*} [Inhabited α] {q : RingBuffer α}

/-! ### Every access is inside -/

theorem pos_eq_mod (h : q.toQueue.Wf) {i : ℕ} (hi : i ≤ q.count) :
    q.pos i = (q.head + i) % q.buffer.length := by
  have hhead : q.head < q.buffer.length := h.head_lt
  have hcount : q.count ≤ q.buffer.length := h.count_le
  unfold pos
  split
  case isTrue hwrap => rw [Nat.mod_eq_sub_mod hwrap, Nat.mod_eq_of_lt (by omega)]
  case isFalse hfit => rw [Nat.mod_eq_of_lt (by omega)]

theorem pos_lt (h : q.toQueue.Wf) {i : ℕ} (hi : i ≤ q.count) : q.pos i < q.buffer.length := by
  rw [pos_eq_mod h hi]
  exact Nat.mod_lt _ (Nat.zero_lt_of_lt h.head_lt)

/-- The content is that of the queue on memory. -/
theorem toList_toQueue (h : q.toQueue.Wf) : q.toQueue.toList = q.toList := by
  refine List.map_congr_left fun i hi => ?_
  rw [← pos_eq_mod h (List.mem_range.1 hi).le]
  rfl

theorem wf_new {cap : ℕ} (h : 1 ≤ cap) : (new cap : RingBuffer α).toQueue.Wf where
  head_lt := by simpa [toQueue, new] using Nat.lt_of_succ_le h
  count_le := Nat.zero_le _
  tail_eq := by simp [toQueue, new, VectorQueue.pos, Nat.ne_of_gt h]

/-- Where the queue ends. -/
theorem tail_eq_mod (h : q.toQueue.Wf) : q.tail = (q.head + q.count) % q.buffer.length := by
  rw [← pos_eq_mod h le_rfl]
  exact h.tail_eq

/-- Growing copies inside the new vector. -/
theorem grow_spec (h : q.toQueue.Wf) : ∃ p, q.grow = some p ∧ p.toQueue = q.toQueue.grow := by
  have hhead : q.head < q.buffer.length := h.head_lt
  unfold grow
  by_cases hfull : q.count = q.buffer.length
  case neg =>
    rw [if_neg hfull]
    exact ⟨q, rfl, (if_neg hfull).symm⟩
  case pos =>
    have hlen : (q.buffer ++ List.replicate q.buffer.length default).length =
        q.buffer.length * 2 := by
      rw [List.length_append, List.length_replicate, Nat.mul_two]
    rw [if_pos hfull]
    by_cases hwrap : q.tail ≤ q.head
    · obtain ⟨c, hc, hclen, hmem⟩ := @copy_of_le α _
        (q.buffer ++ List.replicate q.buffer.length default) q.buffer.length 0 q.tail
        (by omega) (by omega)
      refine ⟨⟨c, q.head, q.buffer.length + q.tail, q.count⟩, by simp [hwrap, hc], ?_⟩
      rw [memory_append_replicate] at hmem
      simp [toQueue, VectorQueue.grow, hfull, hwrap, hclen, hmem, Nat.mul_two]
    · refine ⟨⟨q.buffer ++ List.replicate q.buffer.length default, q.head, q.tail, q.count⟩,
        by simp [hwrap], ?_⟩
      simp [toQueue, VectorQueue.grow, hfull, hwrap, memory_append_replicate, Nat.mul_two]

/-- **`push`.** -/
theorem push_spec (h : q.toQueue.Wf) (v : α) :
    ∃ p, q.push v = some p ∧ p.toQueue = q.toQueue.push v := by
  obtain ⟨g, hg, hgq⟩ := grow_spec h
  obtain ⟨hwf, -, -, hroom⟩ := h.grow
  rw [← hgq] at hwf hroom
  have htail : g.tail < g.buffer.length := by
    rw [tail_eq_mod hwf]
    exact Nat.mod_lt _ (Nat.zero_lt_of_lt hwf.head_lt)
  obtain ⟨c, hc, hclen, hmem⟩ := write_of_lt htail v
  refine ⟨⟨c, g.head, if g.tail + 1 = c.length then 0 else g.tail + 1, g.count + 1⟩,
    by simp only [push, hg, hc, Option.bind_eq_bind, Option.bind_some], ?_⟩
  unfold VectorQueue.push
  rw [← hgq]
  simp only [toQueue, hmem, hclen]
  rfl

/-- **`pop`.** -/
theorem pop_spec (q : RingBuffer α) : q.pop.toQueue = q.toQueue.pop := by
  unfold pop VectorQueue.pop toQueue
  split <;> rfl

/-- **`front`.** -/
theorem front_spec (h : q.toQueue.Wf) : q.front = some q.toQueue.front :=
  getElem?_of_lt h.head_lt

/-- The rounds of `erase_if` read and write inside. -/
theorem eraseRounds_spec (h : q.toQueue.Wf) (predicate : α → Bool) {n : ℕ} (hn : n ≤ q.count) :
    let p := (List.range n).foldl (q.toQueue.eraseRound predicate) (q.toQueue.buffer, 0)
    ∃ buf, (List.range n).foldlM (q.eraseRound predicate) (q.buffer, 0) = some (buf, p.2) ∧
      buf.length = q.buffer.length ∧ memory buf = p.1 := by
  induction n with
  | zero => exact ⟨q.buffer, rfl, rfl, rfl⟩
  | succ n ih =>
      obtain ⟨buf, hc, hclen, hmem⟩ := ih (by omega)
      obtain ⟨hwrite, -, -⟩ := h.eraseRounds predicate (n := n) (show n ≤ q.count by omega)
      dsimp only
      rw [List.range_succ, List.foldl_append, List.foldlM_append, hc]
      generalize (List.range n).foldl (q.toQueue.eraseRound predicate) (q.toQueue.buffer, 0) = p
        at hwrite hmem
      have hread : buf[q.pos n]? = some (p.1 (q.toQueue.pos n)) := by
        rw [getElem?_of_lt (hclen ▸ pos_lt h (by omega)), hmem]
        rfl
      simp only [Option.bind_eq_bind, Option.bind_some, List.foldl_cons, List.foldl_nil,
        List.foldlM_cons, List.foldlM_nil, bind_pure]
      unfold eraseRound VectorQueue.eraseRound
      rw [hread]
      simp only [Option.bind_eq_bind, Option.bind_some]
      by_cases hp : predicate (p.1 (q.toQueue.pos n)) = true
      · exact ⟨buf, by rw [if_pos hp, if_pos hp], hclen, by rw [if_pos hp, hmem]⟩
      · rw [if_neg hp, if_neg hp]
        by_cases hsame : p.2 = n
        · exact ⟨buf, by simp [hsame], hclen, by simp [hsame, hmem]⟩
        · obtain ⟨d, hd, hdlen, hdmem⟩ := write_of_lt (b := buf) (i := q.pos p.2)
            (hclen ▸ pos_lt h (by omega)) (p.1 (q.toQueue.pos n))
          refine ⟨d, by simp [hsame, hd], hdlen.trans hclen, ?_⟩
          rw [hdmem, hmem]
          simp only [ne_eq, hsame, not_false_eq_true, if_true]
          rfl

/-- **`erase_if`.** -/
theorem eraseIf_spec (h : q.toQueue.Wf) (predicate : α → Bool) :
    ∃ p, q.eraseIf predicate = some p ∧ p.toQueue = q.toQueue.eraseIf predicate := by
  by_cases hzero : q.count = 0
  · exact ⟨q, if_pos hzero, (if_pos hzero).symm⟩
  · obtain ⟨c, hc, hclen, hmem⟩ := eraseRounds_spec h predicate le_rfl
    have herase : q.toQueue.eraseIf predicate =
        let p := (List.range q.count).foldl (q.toQueue.eraseRound predicate) (q.toQueue.buffer, 0)
        ⟨p.1, q.buffer.length, q.head, q.toQueue.pos p.2, p.2⟩ := if_neg hzero
    rw [herase]
    generalize (List.range q.count).foldl (q.toQueue.eraseRound predicate)
      (q.toQueue.buffer, 0) = p at hc hmem ⊢
    refine ⟨⟨c, q.head, q.pos p.2, p.2⟩,
      by simp only [eraseIf, if_neg hzero, hc, Option.bind_eq_bind, Option.bind_some], ?_⟩
    simp only [toQueue, hclen, hmem]
    rfl

/-- **Iteration** from `begin()` to `end()` yields the content. -/
theorem walk_spec (h : q.toQueue.Wf) :
    q.iterBegin.walk q.count q.iterEnd = some q.toList := by
  have hlen : 0 < q.buffer.length := Nat.zero_lt_of_lt h.head_lt
  -- from the element `i` on
  have hfrom : ∀ n i, i + n = q.count → Iterator.walk n ⟨q, i⟩ q.iterEnd =
      some ((List.range' i n).map fun i =>
        memory q.buffer ((q.head + i) % q.buffer.length)) := by
    intro n
    induction n with
    | zero =>
        intro i hi
        simp [Iterator.walk, iterEnd, show i = q.count by omega]
    | succ n ih =>
        intro i hi
        unfold Iterator.walk
        rw [if_neg (show ¬ (⟨q, i⟩ : Iterator α).index = q.iterEnd.index by
          show ¬ i = q.count
          omega)]
        have hread : Iterator.deref ⟨q, i⟩ =
            some (memory q.buffer ((q.head + i) % q.buffer.length)) :=
          getElem?_of_lt (Nat.mod_lt _ hlen)
        simp only [hread, Option.bind_eq_bind, Option.bind_some]
        rw [show Iterator.next ⟨q, i⟩ = ⟨q, i + 1⟩ from rfl, ih (i + 1) (by omega)]
        rfl
  rw [iterBegin, hfrom q.count 0 (by omega), toList, List.range_eq_range']

/-! ### Sequences of operations -/

/-- A call of an operation; `iterate` is a loop from `begin()` to `end()`. -/
inductive Operation (α : Type*) where
  | push (v : α)
  | pop
  | eraseIf (predicate : α → Bool)
  | front
  | empty
  | size
  | iterate

/-- What a call returns. -/
inductive Answer (α : Type*) where
  | nothing
  | value (v : α)
  | flag (b : Bool)
  | number (n : ℕ)
  | values (vs : List α)

/-- One call. -/
def call (q : RingBuffer α) : Operation α → Option (RingBuffer α × Answer α)
  | .push v => do some (← q.push v, .nothing)
  | .pop => some (q.pop, .nothing)
  | .eraseIf predicate => do some (← q.eraseIf predicate, .nothing)
  | .front => do some (q, .value (← q.front))
  | .empty => some (q, .flag q.empty)
  | .size => some (q, .number q.size)
  | .iterate => do some (q, .values (← q.iterBegin.walk q.count q.iterEnd))

/-- The calls one after the other. -/
def calls : RingBuffer α → List (Operation α) → Option (RingBuffer α × List (Answer α))
  | q, [] => some (q, [])
  | q, op :: ops => do
      let (p, answer) ← q.call op
      let (p, answers) ← calls p ops
      some (p, answer :: answers)

/-- **The call on a list**: what becomes of the list, and what may be answered.  The front of
an empty list is any value. -/
def OnList (l : List α) : Operation α → Answer α → List α → Prop
  | .push v, answer, l' => answer = .nothing ∧ l' = l ++ [v]
  | .pop, answer, l' => answer = .nothing ∧ l' = l.tail
  | .eraseIf predicate, answer, l' =>
      answer = .nothing ∧ l' = l.filter fun v => !predicate v
  | .front, answer, l' => (∃ v, answer = .value v ∧ ∀ w ∈ l.head?, v = w) ∧ l' = l
  | .empty, answer, l' => answer = .flag l.isEmpty ∧ l' = l
  | .size, answer, l' => answer = .number l.length ∧ l' = l
  | .iterate, answer, l' => answer = .values l ∧ l' = l

/-- The calls on a list. -/
def AllOnList : List α → List (Operation α) → List (Answer α) → List α → Prop
  | l, [], answers, l' => answers = [] ∧ l' = l
  | l, op :: ops, answers, l' => ∃ answer rest m,
      answers = answer :: rest ∧ OnList l op answer m ∧ AllOnList m ops rest l'

/-- **One call** stays inside the vector and is the call on the list. -/
theorem call_spec (h : q.toQueue.Wf) (op : Operation α) :
    ∃ p answer, q.call op = some (p, answer) ∧ p.toQueue.Wf ∧
      OnList q.toList op answer p.toList := by
  -- where the queue stays well formed, its content is that on memory
  have hlist : ∀ {p : RingBuffer α}, p.toQueue.Wf → p.toQueue.toList = p.toList :=
    fun hp => toList_toQueue hp
  cases op with
  | push v =>
      obtain ⟨p, hp, hpq⟩ := push_spec h v
      obtain ⟨hwf, heq⟩ := h.push v
      rw [← hpq] at hwf heq
      exact ⟨p, .nothing, by simp [call, hp], hwf, rfl, by rw [← hlist hwf, heq, hlist h]⟩
  | pop =>
      obtain ⟨hwf, heq⟩ := h.pop
      rw [← pop_spec] at hwf heq
      exact ⟨q.pop, .nothing, rfl, hwf, rfl, by rw [← hlist hwf, heq, hlist h]⟩
  | eraseIf predicate =>
      obtain ⟨p, hp, hpq⟩ := eraseIf_spec h predicate
      obtain ⟨hwf, heq⟩ := h.eraseIf predicate
      rw [← hpq] at hwf heq
      exact ⟨p, .nothing, by simp [call, hp], hwf, rfl, by rw [← hlist hwf, heq, hlist h]⟩
  | front =>
      refine ⟨q, .value q.toQueue.front, by simp [call, front_spec h], h,
        ⟨_, rfl, fun w hw => ?_⟩, rfl⟩
      have hne : q.toQueue.toList ≠ [] := by
        rw [hlist h]
        rintro hnil
        rw [hnil] at hw
        cases hw
      have hfront := h.front hne
      rw [hlist h, hw] at hfront
      exact (Option.some.inj hfront).symm
  | empty =>
      refine ⟨q, .flag q.empty, rfl, h, congrArg _ (Bool.eq_iff_iff.2 ?_), rfl⟩
      rw [List.isEmpty_iff, ← hlist h]
      exact (VectorQueue.toList_eq_nil (q := q.toQueue)).symm
  | size => exact ⟨q, .number q.size, rfl, h, by simp [size, toList], rfl⟩
  | iterate => exact ⟨q, .values q.toList, by simp [call, walk_spec h], h, rfl, rfl⟩

/-- The calls from any well-formed queue. -/
theorem calls_spec (h : q.toQueue.Wf) (ops : List (Operation α)) :
    ∃ p answers, q.calls ops = some (p, answers) ∧ p.toQueue.Wf ∧
      AllOnList q.toList ops answers p.toList := by
  induction ops generalizing q with
  | nil => exact ⟨q, [], rfl, h, rfl, rfl⟩
  | cons op ops ih =>
      obtain ⟨p, answer, hcall, hp, hop⟩ := call_spec h op
      obtain ⟨p', answers, hcalls, hp', hops⟩ := ih hp
      exact ⟨p', answer :: answers, by simp [calls, hcall, hcalls], hp',
        answer, answers, p.toList, rfl, hop, hops⟩

/-- **The ring buffer is a list.**  From any capacity of at least one, through any sequence of
operations, every access is inside the vector, each operation does to the content what it
does to a list and answers what it answers, and the queue ends where its content ends. -/
theorem ring_buffer_refines_list {cap : ℕ} (hcap : 1 ≤ cap) (ops : List (Operation α)) :
    ∃ q answers, (new cap : RingBuffer α).calls ops = some (q, answers) ∧
      q.head < q.buffer.length ∧ q.count ≤ q.buffer.length ∧
      q.tail = (q.head + q.count) % q.buffer.length ∧ AllOnList [] ops answers q.toList := by
  obtain ⟨q, answers, hcalls, hwf, hops⟩ := calls_spec (wf_new hcap) ops
  exact ⟨q, answers, hcalls, hwf.head_lt, hwf.count_le, tail_eq_mod hwf, hops⟩

/-- A queue of one place that grows twice, the second time while it is wrapped. -/
theorem ring_buffer_refines_list_grown :
    ∃ q answers, (new 1 : RingBuffer ℕ).calls [.push 1, .push 2, .pop, .push 3, .push 4, .front,
        .eraseIf (· = 3), .iterate] = some (q, answers) ∧
      q.head < q.buffer.length ∧ q.count ≤ q.buffer.length ∧
      q.tail = (q.head + q.count) % q.buffer.length ∧
      AllOnList [] [.push 1, .push 2, .pop, .push 3, .push 4, .front, .eraseIf (· = 3), .iterate]
        answers q.toList :=
  ring_buffer_refines_list (by decide) _

end RingBuffer

end Data
end Lfi
