/-
# Matching messages and receives

A matching engine gets messages and posted receives in any order.  A message completes the
first posted receive that accepts it, or waits among the unexpected ones; a receive takes the
first unexpected message that it accepts, or is posted.  This is what is assumed of a fabric: it
looks for the oldest that fits, loses nothing and matches nothing twice.

Some messages and some receives belong together, and none of them goes with any other.  In
such a class it is as if there were nothing else (`Fifo.step`): its `k`-th message completes
its `k`-th receive, whatever else arrives and is posted in between.
-/

import Lfi.Runs.Basic
import Mathlib.Data.List.Zip

namespace Lfi
namespace Runs

variable {μ ρ : Type*}

/-- The messages that wait for a receive, the receives that wait for a message, and what was
matched, in order. -/
structure Matcher (μ ρ : Type*) where
  unexpected : List μ
  posted : List ρ
  matched : List (μ × ρ)

/-- A message arrives, or a receive is posted. -/
inductive Arrival (μ ρ : Type*) where
  | message (m : μ)
  | receive (r : ρ)

/-- Nothing has arrived. -/
def Matcher.empty : Matcher μ ρ := ⟨[], [], []⟩

/-- What an arrival does. -/
def Matcher.step (accepts : μ → ρ → Bool) (s : Matcher μ ρ) : Arrival μ ρ → Matcher μ ρ
  | .message m =>
      match s.posted.find? (accepts m) with
      | some r => { s with
          posted := s.posted.eraseP (accepts m)
          matched := s.matched ++ [(m, r)] }
      | none => { s with unexpected := s.unexpected ++ [m] }
  | .receive r =>
      match s.unexpected.find? (accepts · r) with
      | some m => { s with
          unexpected := s.unexpected.eraseP (accepts · r)
          matched := s.matched ++ [(m, r)] }
      | none => { s with posted := s.posted ++ [r] }

/-! ### Lists of which some belong to a class -/

section Lists

variable {α : Type*} {p q : α → Bool} {l : List α}

theorem find?_congr (h : ∀ a ∈ l, p a = q a) : l.find? p = l.find? q := by
  induction l with
  | nil => rfl
  | cons a l ih =>
      rw [List.find?_cons, List.find?_cons, h a (List.mem_cons_self ..),
        ih fun b hb => h b (List.mem_cons_of_mem _ hb)]

theorem eraseP_congr (h : ∀ a ∈ l, p a = q a) : l.eraseP p = l.eraseP q := by
  induction l with
  | nil => rfl
  | cons a l ih =>
      rw [List.eraseP_cons, List.eraseP_cons, h a (List.mem_cons_self ..),
        ih fun b hb => h b (List.mem_cons_of_mem _ hb)]

/-- The first of a class is taken. -/
theorem filter_eraseP_self : (l.eraseP p).filter p = (l.filter p).tail := by
  induction l with
  | nil => rfl
  | cons a l ih =>
      cases ha : p a with
      | true => simp [ha]
      | false => simp [ha, ih]

/-- What is taken is not of the class. -/
theorem filter_eraseP_of_disjoint (h : ∀ a ∈ l, p a = true → q a = false) :
    (l.eraseP p).filter q = l.filter q := by
  induction l with
  | nil => rfl
  | cons a l ih =>
      have hrest := ih fun b hb => h b (List.mem_cons_of_mem _ hb)
      cases ha : p a with
      | true => simp [ha, h a (List.mem_cons_self ..) ha]
      | false => simp [ha, List.filter_cons, hrest]

/-- One more on the shorter side makes one more pair. -/
theorem zip_concat_left {β : Type*} {xs : List α} {ys : List β} {y : β}
    (h : ys[xs.length]? = some y) (x : α) : (xs ++ [x]).zip ys = xs.zip ys ++ [(x, y)] := by
  induction xs generalizing ys with
  | nil =>
      cases ys with
      | nil => cases h
      | cons z zs => obtain rfl := Option.some.inj h; simp
  | cons a xs ih =>
      cases ys with
      | nil => cases h
      | cons z zs => simpa using ih h

/-- One more on the longer side makes no more pairs. -/
theorem zip_concat_left_of_le {β : Type*} {xs : List α} {ys : List β}
    (h : ys.length ≤ xs.length) (x : α) : (xs ++ [x]).zip ys = xs.zip ys := by
  induction xs generalizing ys with
  | nil =>
      obtain rfl := List.length_eq_zero_iff.1 (Nat.le_zero.1 h)
      rfl
  | cons a xs ih =>
      cases ys with
      | nil => rfl
      | cons z zs => simpa using ih (Nat.le_of_succ_le_succ h)

end Lists

/-! ### The two sides are alike -/

/-- Messages and receives exchanged. -/
def Matcher.swap (s : Matcher μ ρ) : Matcher ρ μ :=
  ⟨s.posted, s.unexpected, s.matched.map Prod.swap⟩

def Arrival.swap : Arrival μ ρ → Arrival ρ μ
  | .message m => .receive m
  | .receive r => .message r

theorem Matcher.swap_swap (s : Matcher μ ρ) : s.swap.swap = s := by
  simp [swap, Function.comp_def]

theorem Matcher.step_swap (accepts : μ → ρ → Bool) (s : Matcher μ ρ) (a : Arrival μ ρ) :
    s.swap.step (fun r m => accepts m r) a.swap = (s.step accepts a).swap := by
  cases a with
  | message m =>
      show Matcher.step _ s.swap (.receive m) = _
      cases h : s.posted.find? (accepts m) with
      | none => simp only [step, swap, h]
      | some r => simp [step, swap, h]
  | receive r =>
      show Matcher.step _ s.swap (.message r) = _
      cases h : s.unexpected.find? (accepts · r) with
      | none => simp only [step, swap, h]
      | some m => simp [step, swap, h]

/-! ### A class of its own -/

/-- A class of messages and receives among those that occur: they go with each other, and
with no other. -/
structure Class (accepts : μ → ρ → Bool) where
  message : μ → Bool
  receive : ρ → Bool
  occurs : μ → Prop
  posts : ρ → Prop
  accepts_iff : ∀ m r, occurs m → posts r → (message m = true ∨ receive r = true) →
    (accepts m r = true ↔ message m = true ∧ receive r = true)

variable {accepts : μ → ρ → Bool}

def Class.swap (C : Class accepts) : Class (fun r m => accepts m r) where
  message := C.receive
  receive := C.message
  occurs := C.posts
  posts := C.occurs
  accepts_iff r m hr hm h := (C.accepts_iff m r hm hr h.symm).trans and_comm

/-- The messages `ms` of the class have arrived, and its receives `rs` were posted, in this
order: as far as both go they are matched one by one, and the rest waits. -/
structure Fifo (C : Class accepts) (s : Matcher μ ρ) (ms : List μ) (rs : List ρ) : Prop where
  occurs : ∀ m ∈ s.unexpected, C.occurs m
  posts : ∀ r ∈ s.posted, C.posts r
  unexpected : s.unexpected.filter C.message = ms.drop rs.length
  posted : s.posted.filter C.receive = rs.drop ms.length
  matched : s.matched.filter (fun e => C.message e.1) = ms.zip rs
  paired : ∀ e ∈ s.matched, C.message e.1 = C.receive e.2

variable {C : Class accepts} {s : Matcher μ ρ} {ms : List μ} {rs : List ρ}

theorem fifo_empty (C : Class accepts) : Fifo C Matcher.empty [] [] :=
  ⟨fun _ h => absurd h List.not_mem_nil, fun _ h => absurd h List.not_mem_nil, rfl, rfl, rfl,
    fun _ h => absurd h List.not_mem_nil⟩

theorem Fifo.swap (h : Fifo C s ms rs) : Fifo C.swap s.swap rs ms where
  occurs := h.posts
  posts := h.occurs
  unexpected := h.posted
  posted := h.unexpected
  matched := by
    have hfilter : s.matched.filter (fun e => C.receive e.2) =
        s.matched.filter (fun e => C.message e.1) :=
      List.filter_congr fun e he => (h.paired e he).symm
    show (s.matched.map Prod.swap).filter (fun e => C.receive e.1) = rs.zip ms
    rw [List.filter_map, ← List.zip_swap, ← h.matched, ← hfilter]
    rfl
  paired := by
    intro e he
    obtain ⟨e', he', rfl⟩ := List.mem_map.1 he
    exact (h.paired e' he').symm

/-- What a message of another class does not do. -/
theorem Fifo.other (h : Fifo C s ms rs) {m : μ} (hm : C.occurs m) (hC : C.message m = false) :
    Fifo C (s.step accepts (.message m)) ms rs := by
  have hacc : ∀ r ∈ s.posted, accepts m r = true → C.receive r = false := by
    intro r hr hok
    by_contra hR
    have hclass := (C.accepts_iff m r hm (h.posts r hr) (.inr (by simpa using hR))).1 hok
    rw [hC] at hclass
    exact absurd hclass.1 Bool.false_ne_true
  rw [Matcher.step]
  split
  case h_1 r hr =>
    have hR := hacc r (List.mem_of_find?_eq_some hr) (List.find?_some hr)
    refine ⟨h.occurs, fun x hx => h.posts x (List.mem_of_mem_eraseP hx), h.unexpected, ?_, ?_,
      fun e he => ?_⟩
    · exact (filter_eraseP_of_disjoint hacc).trans h.posted
    · rw [List.filter_append, h.matched]
      simp [hC]
    · rcases List.mem_append.1 he with he | he
      · exact h.paired e he
      · obtain rfl := List.mem_singleton.1 he
        exact hC.trans hR.symm
  case h_2 =>
    refine ⟨fun x hx => ?_, h.posts, ?_, h.posted, h.matched, h.paired⟩
    · rcases List.mem_append.1 hx with hx | hx
      · exact h.occurs x hx
      · exact List.mem_singleton.1 hx ▸ hm
    · rw [List.filter_append, h.unexpected]
      simp [hC]

/-- A message of the class completes its first posted receive, if there is one. -/
theorem Fifo.message (h : Fifo C s ms rs) {m : μ} (hm : C.occurs m) (hC : C.message m = true) :
    Fifo C (s.step accepts (.message m)) (ms ++ [m]) rs := by
  have hacc : ∀ r ∈ s.posted, accepts m r = C.receive r := by
    intro r hr
    rw [Bool.eq_iff_iff, C.accepts_iff m r hm (h.posts r hr) (.inl hC), and_iff_right hC]
  have hfind : s.posted.find? (accepts m) = rs[ms.length]? := by
    rw [find?_congr hacc, ← List.head?_filter, h.posted, List.head?_drop]
  rw [Matcher.step]
  split
  case h_1 r hr =>
    have hR : C.receive r = true := by
      rw [← hacc r (List.mem_of_find?_eq_some hr)]
      exact List.find?_some hr
    rw [hfind] at hr
    obtain ⟨hlt, -⟩ := List.getElem?_eq_some_iff.1 hr
    refine ⟨h.occurs, fun x hx => h.posts x (List.mem_of_mem_eraseP hx), ?_, ?_, ?_,
      fun e he => ?_⟩
    · rw [h.unexpected, List.drop_of_length_le (Nat.le_of_lt hlt), List.drop_of_length_le]
      rw [List.length_append, List.length_singleton]
      exact hlt
    · rw [eraseP_congr hacc, filter_eraseP_self, h.posted, List.tail_drop, List.length_append]
      rfl
    · rw [List.filter_append, h.matched, zip_concat_left hr]
      simp [hC]
    · rcases List.mem_append.1 he with he | he
      · exact h.paired e he
      · obtain rfl := List.mem_singleton.1 he
        exact hC.trans hR.symm
  case h_2 hr =>
    rw [hfind] at hr
    have hle := List.getElem?_eq_none_iff.1 hr
    refine ⟨fun x hx => ?_, h.posts, ?_, ?_, ?_, h.paired⟩
    · rcases List.mem_append.1 hx with hx | hx
      · exact h.occurs x hx
      · exact List.mem_singleton.1 hx ▸ hm
    · rw [List.filter_append, h.unexpected, List.drop_append_of_le_length hle]
      simp [hC]
    · rw [h.posted, List.drop_of_length_le hle, List.drop_of_length_le]
      rw [List.length_append]
      exact Nat.le_add_right_of_le hle
    · rw [h.matched, zip_concat_left_of_le hle]

/-- The messages of the class that an arrival brings. -/
def Class.messages (C : Class accepts) : Arrival μ ρ → List μ
  | .message m => if C.message m then [m] else []
  | .receive _ => []

/-- The receives of the class that are posted. -/
def Class.receives (C : Class accepts) : Arrival μ ρ → List ρ
  | .message _ => []
  | .receive r => if C.receive r then [r] else []

/-- An arrival among those the class is told from. -/
def Class.Occurs (C : Class accepts) : Arrival μ ρ → Prop
  | .message m => C.occurs m
  | .receive r => C.posts r

theorem Fifo.step_message (h : Fifo C s ms rs) {m : μ} (hm : C.occurs m) :
    Fifo C (s.step accepts (.message m)) (ms ++ C.messages (.message m)) rs := by
  rw [Class.messages]
  split
  case isTrue hC => exact h.message hm hC
  case isFalse hC =>
    rw [List.append_nil]
    exact h.other hm (by simpa using hC)

/-- **A class is first in, first out.**  Whatever arrives, its messages are matched with its
receives in order. -/
theorem Fifo.step (h : Fifo C s ms rs) {a : Arrival μ ρ} (ha : C.Occurs a) :
    Fifo C (s.step accepts a) (ms ++ C.messages a) (rs ++ C.receives a) := by
  cases a with
  | message m =>
      rw [Class.receives, List.append_nil]
      exact h.step_message ha
  | receive r =>
      have hswap := (h.swap.step_message (m := r) ha).swap
      rw [← Matcher.swap_swap (s.step accepts _), ← Matcher.step_swap, Class.messages,
        List.append_nil]
      exact hswap

end Runs
end Lfi
