/-
# Links that lead to list members

`Rep` of `Lfi.Impl.DoubleLinkedList` is lost when `erase` is called on a node in no
list: the list forgets its members, which stay linked.  What is never lost is that
the links are sound (`Linked`).  A link and the ends of the list lead to nodes that
say they are inserted, two neighbours agree, and nobody is reached twice on the way
along the links.
-/

import Lfi.Impl.DoubleLinkedList

namespace Lfi
namespace Impl

/-- **Sound links.**  A node that is not inserted has none; neighbours agree; the ends
of the list are ends; and the links do not run in a circle. -/
structure Linked {α : Type*} (h : Nodes α) (l : DoubleLinkedList α) : Prop where
  free : ∀ x, (h x).inserted = false → h x = Node.free
  next : ∀ x y, (h x).next = some y → (h y).prev = some x
  prev : ∀ x y, (h y).prev = some x → (h x).next = some y
  head : ∀ x, l.head = some x → (h x).prev = none ∧ (h x).inserted = true
  tail : ∀ x, l.tail = some x → (h x).next = none ∧ (h x).inserted = true
  order : ∃ rank : α → ℕ, ∀ x y, (h x).next = some y → rank x < rank y

variable {α : Type*} {h : Nodes α} {l : DoubleLinkedList α} {x y : α}

namespace Linked

/-- A node that links on is inserted. -/
theorem inserted_of_next (hl : Linked h l) (hx : (h x).next = some y) :
    (h x).inserted = true := by
  by_contra hins
  rw [hl.free x (by simpa using hins)] at hx
  cases hx

/-- A node that is linked to is inserted. -/
theorem inserted_of_prev (hl : Linked h l) (hy : (h y).prev = some x) :
    (h y).inserted = true := by
  by_contra hins
  rw [hl.free y (by simpa using hins)] at hy
  cases hy

/-- The next node is inserted. -/
theorem next_inserted (hl : Linked h l) (hx : (h x).next = some y) : (h y).inserted = true :=
  hl.inserted_of_prev (hl.next x y hx)

/-- A node is not its own neighbour, and its neighbours are not the same node. -/
theorem neighbours_ne (hl : Linked h l) (x : α) :
    (h x).prev ≠ some x ∧ ∀ z, (h x).prev = some z → (h x).next ≠ some z := by
  obtain ⟨rank, hrank⟩ := hl.order
  have hfrom : ∀ z, (h x).prev = some z → rank z < rank x := fun z hz =>
    hrank z x (hl.prev z x hz)
  exact ⟨fun hx => Nat.lt_irrefl _ (hfrom x hx),
    fun z hp hn => Nat.lt_asymm (hfrom z hp) (hrank x z hn)⟩

variable [DecidableEq α]

/-- `push_back` of a node in no list. -/
theorem pushBack (hl : Linked h l) (hx : h x = Node.free) :
    Linked (pushBack h l x).1 (pushBack h l x).2 := by
  have hnotail : l.tail ≠ some x := fun ht => by
    have hins := (hl.tail x ht).2
    rw [hx] at hins; cases hins
  obtain ⟨heap, hlist⟩ := pushBack_eq hx hnotail
  have hnext : ∀ y z, ((Impl.pushBack h l x).1 y).next = some z ↔
      (l.tail = some y ∧ z = x) ∨ (h y).next = some z := by
    intro y z
    rw [heap]
    by_cases hy : y = x
    · simp [hy, hx, Node.free, hnotail]
    · by_cases hyt : l.tail = some y
      · simp [hy, hyt, (hl.tail y hyt).1, eq_comm]
      · simp [hy, hyt]
  have hprev : ∀ y z, ((Impl.pushBack h l x).1 y).prev = some z ↔
      (y = x ∧ l.tail = some z) ∨ (h y).prev = some z := by
    intro y z
    rw [heap]
    by_cases hy : y = x
    · simp [hy, hx, Node.free]
    · by_cases hyt : l.tail = some y <;> simp [hy, hyt]
  obtain ⟨rank, hrank⟩ := hl.order
  refine ⟨fun y hy => ?_, fun y z hz => ?_, fun y z hz => ?_, fun y hy => ?_, ?_,
    Function.update rank x (l.tail.elim 0 rank + 1), fun y z hz => ?_⟩
  · rw [← Bool.not_eq_true, pushBack_inserted, not_or, Bool.not_eq_true] at hy
    have hyt : l.tail ≠ some y := fun ht => by
      rw [(hl.tail y ht).2] at hy; cases hy.2
    rw [heap, if_neg hy.1, if_neg hyt]
    exact hl.free y hy.2
  · rcases (hnext y z).1 hz with ⟨ht, rfl⟩ | hz
    · exact (hprev _ _).2 (.inl ⟨rfl, ht⟩)
    · exact (hprev _ _).2 (.inr (hl.next y z hz))
  · rcases (hprev z y).1 hz with ⟨rfl, ht⟩ | hz
    · exact (hnext _ _).2 (.inl ⟨ht, rfl⟩)
    · exact (hnext _ _).2 (.inr (hl.prev y z hz))
  · rw [hlist] at hy
    by_cases ht : l.tail = none
    · obtain rfl : x = y := by simpa [ht] using hy
      rw [heap, if_pos rfl]
      exact ⟨ht, rfl⟩
    · obtain ⟨hyprev, hyins⟩ := hl.head y (by simpa [ht] using hy)
      have hyx : y ≠ x := by rintro rfl; rw [hx] at hyins; cases hyins
      rw [heap, if_neg hyx]
      split <;> exact ⟨hyprev, hyins⟩
  · rw [hlist]
    rintro y ⟨⟩
    simp [heap]
  · rcases (hnext y z).1 hz with ⟨ht, rfl⟩ | hold
    · have hyx : y ≠ z := fun hyx => hnotail (hyx ▸ ht)
      simp [Function.update_of_ne hyx, ht]
    · have hyx : y ≠ x := by rintro rfl; rw [hx] at hold; cases hold
      have hzx : z ≠ x := by
        rintro rfl
        have hins := hl.next_inserted hold
        rw [hx] at hins; cases hins
      rw [Function.update_of_ne hyx, Function.update_of_ne hzx]
      exact hrank y z hold

/-- The links on after `erase` of a member. -/
theorem erase_next_iff (hl : Linked h l) (x y z : α) :
    ((Impl.erase h l x).1 y).next = some z ↔ y ≠ x ∧
      (((h x).prev = some y ∧ (h x).next = some z) ∨
        ((h x).prev ≠ some y ∧ (h y).next = some z)) := by
  obtain ⟨hpx, hpn⟩ := hl.neighbours_ne x
  by_cases hy : y = x
  · simp [hy, Node.free]
  · rw [(erase_eq (l := l) rfl hpx hpn).1 y hy]
    by_cases hp : (h x).prev = some y
    · simp [hp, hy]
    · by_cases hn : (h x).next = some y <;> simp [hp, hn, hy]

/-- The links back after `erase` of a member. -/
theorem erase_prev_iff (hl : Linked h l) (x y z : α) :
    ((Impl.erase h l x).1 z).prev = some y ↔ z ≠ x ∧
      (((h x).prev = some y ∧ (h x).next = some z) ∨
        ((h x).next ≠ some z ∧ (h z).prev = some y)) := by
  obtain ⟨hpx, hpn⟩ := hl.neighbours_ne x
  by_cases hz : z = x
  · simp [hz, Node.free]
  · rw [(erase_eq (l := l) rfl hpx hpn).1 z hz]
    by_cases hp : (h x).prev = some z
    · simp [hp, hz, hpn z hp]
    · by_cases hn : (h x).next = some z <;> simp [hp, hn, hz]

/-- The others are inserted as before. -/
theorem erase_inserted_of_ne {y : α} (hy : y ≠ x) :
    ((Impl.erase h l x).1 y).inserted = (h y).inserted := by
  rw [Bool.eq_iff_iff, erase_inserted, and_iff_right hy]

/-- The first node after `erase` of a member. -/
theorem erase_head (hl : Linked h l) (hy : (Impl.erase h l x).2.head = some y) :
    ((Impl.erase h l x).1 y).prev = none ∧ ((Impl.erase h l x).1 y).inserted = true := by
  obtain ⟨hpx, hpn⟩ := hl.neighbours_ne x
  rw [(erase_eq (l := l) rfl hpx hpn).2] at hy
  rw [Option.eq_none_iff_forall_ne_some]
  by_cases hp : (h x).prev = none
  · -- the first one was erased, and the next one moves up
    have hn : (h x).next = some y := by simpa [hp] using hy
    have hback := hl.next x y hn
    have hyx : y ≠ x := by rintro rfl; rw [hp] at hback; cases hback
    refine ⟨fun w hw => ?_, by rw [erase_inserted_of_ne hyx]; exact hl.inserted_of_prev hback⟩
    obtain ⟨-, ⟨hp', -⟩ | ⟨hn', -⟩⟩ := (hl.erase_prev_iff x w y).1 hw
    · rw [hp] at hp'; cases hp'
    · exact hn' hn
  · obtain ⟨hyprev, hyins⟩ := hl.head y (by simpa [hp] using hy)
    have hyx : y ≠ x := by rintro rfl; exact hp hyprev
    refine ⟨fun w hw => ?_, by rw [erase_inserted_of_ne hyx]; exact hyins⟩
    obtain ⟨-, ⟨-, hn⟩ | ⟨-, hw⟩⟩ := (hl.erase_prev_iff x w y).1 hw
    · have hback := hl.next x y hn
      rw [hyprev] at hback; cases hback
    · rw [hyprev] at hw; cases hw

/-- The last node after `erase` of a member. -/
theorem erase_tail (hl : Linked h l) (hy : (Impl.erase h l x).2.tail = some y) :
    ((Impl.erase h l x).1 y).next = none ∧ ((Impl.erase h l x).1 y).inserted = true := by
  obtain ⟨hpx, hpn⟩ := hl.neighbours_ne x
  rw [(erase_eq (l := l) rfl hpx hpn).2] at hy
  rw [Option.eq_none_iff_forall_ne_some]
  by_cases hn : (h x).next = none
  · -- the last one was erased, and the one before it moves up
    have hp : (h x).prev = some y := by simpa [hn] using hy
    have hforth := hl.prev y x hp
    have hyx : y ≠ x := by rintro rfl; rw [hn] at hforth; cases hforth
    refine ⟨fun w hw => ?_, by rw [erase_inserted_of_ne hyx]; exact hl.inserted_of_next hforth⟩
    obtain ⟨-, ⟨-, hn'⟩ | ⟨hp', -⟩⟩ := (hl.erase_next_iff x y w).1 hw
    · rw [hn] at hn'; cases hn'
    · exact hp' hp
  · obtain ⟨hynext, hyins⟩ := hl.tail y (by simpa [hn] using hy)
    have hyx : y ≠ x := by rintro rfl; exact hn hynext
    refine ⟨fun w hw => ?_, by rw [erase_inserted_of_ne hyx]; exact hyins⟩
    obtain ⟨-, ⟨hp, -⟩ | ⟨-, hw⟩⟩ := (hl.erase_next_iff x y w).1 hw
    · have hforth := hl.prev y x hp
      rw [hynext] at hforth; cases hforth
    · rw [hynext] at hw; cases hw

/-- `erase`, of a member or not. -/
theorem erase (hl : Linked h l) (x : α) : Linked (erase h l x).1 (erase h l x).2 := by
  cases hins : (h x).inserted with
  | false =>
      rw [erase_free (hl.free x hins)]
      exact { hl with head := nofun, tail := nofun }
  | true =>
      obtain ⟨hpx, hpn⟩ := hl.neighbours_ne x
      obtain ⟨rank, hrank⟩ := hl.order
      refine ⟨fun y hy => ?_, fun y z hz => ?_, fun y z hz => ?_, fun y hy => hl.erase_head hy,
        fun y hy => hl.erase_tail hy, rank, fun y z hz => ?_⟩
      · by_cases hyx : y = x
        · rw [hyx]; exact erase_self
        · rw [erase_inserted_of_ne hyx] at hy
          have hfree := hl.free y hy
          have hp : (h x).prev ≠ some y := fun hp => by
            have hforth := hl.prev y x hp
            rw [hfree] at hforth; cases hforth
          have hn : (h x).next ≠ some y := fun hn => by
            have hback := hl.next x y hn
            rw [hfree] at hback; cases hback
          rw [(erase_eq (l := l) rfl hpx hpn).1 y hyx, if_neg hp, if_neg hn, hfree]
      · obtain ⟨hyx, ⟨hp, hn⟩ | ⟨hp, hz⟩⟩ := (hl.erase_next_iff x y z).1 hz
        · have hzx : z ≠ x := by rintro rfl; exact hpx (hl.next z z hn)
          exact (hl.erase_prev_iff x y z).2 ⟨hzx, .inl ⟨hp, hn⟩⟩
        · have hback := hl.next y z hz
          have hzx : z ≠ x := by rintro rfl; exact hp hback
          refine (hl.erase_prev_iff x y z).2 ⟨hzx, .inr ⟨fun hn => hyx ?_, hback⟩⟩
          exact Option.some.inj (hback.symm.trans (hl.next x z hn))
      · obtain ⟨hzx, ⟨hp, hn⟩ | ⟨hn, hz⟩⟩ := (hl.erase_prev_iff x y z).1 hz
        · have hyx : y ≠ x := by rintro rfl; exact hpx hp
          exact (hl.erase_next_iff x y z).2 ⟨hyx, .inl ⟨hp, hn⟩⟩
        · have hforth := hl.prev y z hz
          have hyx : y ≠ x := by rintro rfl; exact hn hforth
          refine (hl.erase_next_iff x y z).2 ⟨hyx, .inr ⟨fun hp => hzx ?_, hforth⟩⟩
          exact Option.some.inj (hforth.symm.trans (hl.prev y x hp))
      · obtain ⟨-, ⟨hp, hn⟩ | ⟨-, hz⟩⟩ := (hl.erase_next_iff x y z).1 hz
        · exact Nat.lt_trans (hrank y x (hl.prev y x hp)) (hrank x z hn)
        · exact hrank y z hz

end Linked

end Impl
end Lfi
