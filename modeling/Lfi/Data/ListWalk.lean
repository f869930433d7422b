/-
# A walk along a list that changes

Somebody visits the elements of a list one after the other.  A visit may take the element
out of the list.  What comes next is looked up after the visit: the element behind the one
visited, and nothing when that is no longer in the list.  All the time others may put
elements at the end.

Nobody is visited twice (`Inv.visited`).  But a visit that takes its element out is the
last, so the walk visits all that were in the list when it began exactly if no visit but
that of the last of them takes its element out (`visits_all_iff`).
-/

import Lfi.Runs.Basic
import Mathlib.Data.List.Nodup

namespace Lfi
namespace Data

open Runs

variable {α : Type*}

/-- Where a walk is: about to visit an element, between the visit of one and what comes next,
or at the end. -/
inductive Place (α : Type*) where
  | at (x : α)
  | after (x : α)
  | ended
  deriving DecidableEq

/-- To the element that comes next, if there is one. -/
def Place.ofNext : Option α → Place α
  | none => .ended
  | some x => .at x

/-- A list on which somebody walks, and whom he visited. -/
structure ListWalk (α : Type*) where
  members : List α
  place : Place α
  visited : List α

inductive WalkEvent (α : Type*) where
  /-- Somebody puts `x` at the end. -/
  | push (x : α)
  /-- The next visit; the element stays in the list or not. -/
  | visit (keep : Bool)
  /-- The walk goes on to what comes next. -/
  | next

namespace ListWalk

/-- Before the first visit. -/
def start (xs : List α) : ListWalk α := ⟨xs, .ofNext xs.head?, []⟩

variable [DecidableEq α]

/-- The elements behind `x`; none when `x` is not in the list. -/
def behind (xs : List α) (x : α) : List α := xs.drop (xs.idxOf x + 1)

/-- One event. -/
def step (w : ListWalk α) : WalkEvent α → Option (ListWalk α)
  | .push x => if x ∈ w.members then none else some { w with members := w.members ++ [x] }
  | .visit keep =>
      match w.place with
      | .at x => some
          ⟨if keep then w.members else w.members.erase x, .after x, w.visited ++ [x]⟩
      | _ => none
  | .next =>
      match w.place with
      | .after x => some { w with place := .ofNext (behind w.members x).head? }
      | _ => none

/-- Whom the walk will visit when nothing changes any more. -/
def ahead (w : ListWalk α) : List α :=
  match w.place with
  | .at x => x :: behind w.members x
  | .after x => behind w.members x
  | .ended => []

/-! ### Behind an element -/

variable {xs ys : List α} {x y : α}

theorem behind_of_notMem (h : x ∉ xs) : behind xs x = [] := by
  rw [behind, List.idxOf_eq_length h]
  exact List.drop_of_length_le (Nat.le_succ _)

theorem behind_append (h : x ∈ xs) : behind (xs ++ ys) x = behind xs x ++ ys := by
  have hlt := List.idxOf_lt_length_of_mem h
  rw [behind, List.idxOf_append_of_mem h, List.drop_append_of_le_length hlt, behind]

theorem behind_concat (h : x ∉ xs) : behind (xs ++ [y]) x = [] := by
  rw [behind, List.idxOf_append_of_notMem h]
  exact List.drop_of_length_le (by simp)

theorem behind_cons_self : behind (x :: xs) x = xs := by
  rw [behind, List.idxOf_cons_self]
  rfl

theorem mem_of_behind (h : y ∈ behind xs x) : x ∈ xs ∧ y ∈ xs := by
  refine ⟨?_, List.mem_of_mem_drop h⟩
  by_contra hx
  rw [behind_of_notMem hx] at h
  exact List.not_mem_nil h

/-- The list around `x`. -/
theorem eq_append_behind (h : x ∈ xs) : ∃ l, x ∉ l ∧ xs = l ++ x :: behind xs x := by
  obtain ⟨l, r, rfl, hl⟩ := List.eq_append_cons_of_mem h
  refine ⟨l, hl, ?_⟩
  rw [behind, List.idxOf_append_of_notMem hl, List.idxOf_cons_self]
  simp [List.drop_append]

theorem nodup_behind (hn : xs.Nodup) (h : x ∈ xs) : (x :: behind xs x).Nodup := by
  obtain ⟨l, -, heq⟩ := eq_append_behind h
  rw [heq] at hn
  exact hn.of_append_right

/-- What is behind the next element. -/
theorem behind_next (hn : xs.Nodup) (h : behind xs x = y :: ys) : behind xs y = ys := by
  have hx : x ∈ xs := (mem_of_behind (h ▸ List.mem_cons_self)).1
  obtain ⟨l, -, heq⟩ := eq_append_behind hx
  rw [h] at heq
  have hy : y ∉ l ++ [x] := by
    rw [heq, ← List.singleton_append, ← List.append_assoc] at hn
    exact fun hmem => List.disjoint_of_nodup_append hn hmem List.mem_cons_self
  have hsplit : xs = l ++ [x] ++ y :: ys := by rw [heq, List.append_assoc, List.singleton_append]
  have hdrop : l ++ [x] ++ y :: ys = l ++ [x] ++ [y] ++ ys := by simp
  rw [behind, hsplit, List.idxOf_append_of_notMem hy, List.idxOf_cons_self, hdrop]
  exact List.drop_left' (by simp)

/-! ### Nobody twice -/

/-- What holds of every walk. -/
structure Inv (w : ListWalk α) : Prop where
  nodup : w.members.Nodup
  visited : w.visited.Nodup
  notAhead : ∀ x ∈ w.visited, x ∉ w.ahead
  kept : ∀ x ∈ w.visited, x ∈ w.members ∨ w.place = .after x ∨ w.place = .ended
  here : ∀ x, w.place = .at x → x ∈ w.members
  there : ∀ x, w.place = .after x → x ∈ w.visited

variable {w v : ListWalk α} {e : WalkEvent α}

theorem ahead_start (xs : List α) : (start xs).ahead = xs := by
  cases xs with
  | nil => rfl
  | cons x xs =>
      show x :: behind (x :: xs) x = x :: xs
      rw [behind_cons_self]

theorem Inv.start (h : xs.Nodup) : (start xs).Inv where
  nodup := h
  visited := List.nodup_nil
  notAhead x hx := absurd hx List.not_mem_nil
  kept x hx := absurd hx List.not_mem_nil
  here x hx := by
    cases xs with
    | nil => cases hx
    | cons y xs =>
        obtain rfl := Place.at.inj hx
        exact List.mem_cons_self
  there x hx := by cases xs <;> cases hx

/-- Whoever comes to the end of the list is behind all others that are still there. -/
theorem Inv.ahead_push (inv : w.Inv) (h : x ∉ w.members) :
    { w with members := w.members ++ [x] : ListWalk α }.ahead = w.ahead ∨
      { w with members := w.members ++ [x] : ListWalk α }.ahead = w.ahead ++ [x] ∧
        x ∉ w.visited := by
  cases hp : w.place with
  | ended => exact .inl (by simp only [ahead, hp])
  | «at» y =>
      have hy := inv.here y hp
      refine .inr ⟨by simp only [ahead, hp, behind_append hy, List.cons_append], fun hx => ?_⟩
      rcases inv.kept x hx with hm | hm | hm
      · exact h hm
      · rw [hp] at hm; cases hm
      · rw [hp] at hm; cases hm
  | after y =>
      by_cases hy : y ∈ w.members
      · refine .inr ⟨by simp only [ahead, hp, behind_append hy], fun hx => ?_⟩
        rcases inv.kept x hx with hm | hm | hm
        · exact h hm
        · rw [hp] at hm
          exact h (Place.after.inj hm ▸ hy)
        · rw [hp] at hm; cases hm
      · exact .inl (by simp only [ahead, hp, behind_of_notMem hy, behind_concat hy])

/-- The walk goes on; whom it will visit stays the same. -/
theorem ahead_next (hn : w.members.Nodup) (hp : w.place = .after x) :
    { w with place := .ofNext (behind w.members x).head? : ListWalk α }.ahead = w.ahead := by
  simp only [ahead, hp]
  cases hb : behind w.members x with
  | nil => rfl
  | cons y ys =>
      show y :: behind w.members y = y :: ys
      rw [behind_next hn hb]

/-- After a visit the element visited is no longer ahead, and nobody is when it was taken
out. -/
theorem ahead_visit (hn : w.members.Nodup) (x : α) (keep : Bool) :
    (⟨if keep then w.members else w.members.erase x, .after x, w.visited ++ [x]⟩ :
        ListWalk α).ahead = if keep then behind w.members x else [] := by
  cases keep with
  | true => rfl
  | false => exact behind_of_notMem hn.not_mem_erase

theorem Inv.push (inv : w.Inv) (h : x ∉ w.members) :
    { w with members := w.members ++ [x] : ListWalk α }.Inv := by
  refine ⟨?_, inv.visited, fun y hy hahead => ?_, fun y hy => ?_, fun y hy => ?_, inv.there⟩
  · exact inv.nodup.append (List.nodup_singleton x)
      (List.disjoint_singleton.2 h)
  · rcases inv.ahead_push h with heq | ⟨heq, hx⟩
    · exact inv.notAhead y hy (heq ▸ hahead)
    · rw [heq] at hahead
      rcases List.mem_append.1 hahead with hahead | hahead
      · exact inv.notAhead y hy hahead
      · exact hx (List.mem_singleton.1 hahead ▸ hy)
  · exact (inv.kept y hy).imp_left (List.mem_append_left _)
  · exact List.mem_append_left _ (inv.here y hy)

theorem Inv.visit (inv : w.Inv) (hp : w.place = .at x) (keep : Bool) :
    (⟨if keep then w.members else w.members.erase x, .after x, w.visited ++ [x]⟩ :
      ListWalk α).Inv := by
  have hx := inv.here x hp
  have hnew : x ∉ w.visited := fun hv =>
    inv.notAhead x hv (by simp only [ahead, hp]; exact List.mem_cons_self)
  refine ⟨?_, ?_, fun y hy => ?_, fun y hy => ?_, fun y hy => (nomatch hy), fun y hy => ?_⟩
  · cases keep with
    | true => exact inv.nodup
    | false => exact inv.nodup.erase x
  · exact inv.visited.append (List.nodup_singleton x) (List.disjoint_singleton.2 hnew)
  · rw [ahead_visit inv.nodup x]
    cases keep with
    | false => exact List.not_mem_nil
    | true =>
        rcases List.mem_append.1 hy with hy | hy
        · have hnot := inv.notAhead y hy
          simp only [ahead, hp, List.mem_cons, not_or] at hnot
          exact hnot.2
        · rw [List.mem_singleton.1 hy]
          exact (List.nodup_cons.1 (nodup_behind inv.nodup hx)).1
  · rcases List.mem_append.1 hy with hy | hy
    · have hmem : y ∈ w.members := by
        rcases inv.kept y hy with hm | hm | hm
        · exact hm
        · rw [hp] at hm; cases hm
        · rw [hp] at hm; cases hm
      have hne : y ≠ x := fun heq => hnew (heq ▸ hy)
      refine .inl ?_
      cases keep with
      | true => exact hmem
      | false => exact (List.mem_erase_of_ne hne).2 hmem
    · exact .inr (.inl (by rw [List.mem_singleton.1 hy]))
  · obtain rfl := Place.after.inj hy
    exact List.mem_append_right _ (List.mem_singleton_self x)

theorem Inv.next (inv : w.Inv) (hp : w.place = .after x) :
    { w with place := .ofNext (behind w.members x).head? : ListWalk α }.Inv := by
  refine ⟨inv.nodup, inv.visited, fun y hy => ?_, fun y hy => ?_, fun y hy => ?_, fun y hy => ?_⟩
  · rw [ahead_next inv.nodup hp]
    exact inv.notAhead y hy
  · cases hb : behind w.members x with
    | nil => exact .inr (.inr rfl)
    | cons z zs =>
        have hx : x ∈ w.members := (mem_of_behind (hb ▸ List.mem_cons_self)).1
        rcases inv.kept y hy with hm | hm | hm
        · exact .inl hm
        · rw [hp] at hm
          exact .inl (Place.after.inj hm ▸ hx)
        · rw [hp] at hm; cases hm
  · cases hb : behind w.members x with
    | nil => rw [hb] at hy; cases hy
    | cons z zs =>
        rw [hb] at hy
        obtain rfl := Place.at.inj hy
        exact (mem_of_behind (hb ▸ List.mem_cons_self)).2
  · cases hb : behind w.members x with
    | nil => rw [hb] at hy; cases hy
    | cons z zs => rw [hb] at hy; cases hy

/-- **Nobody is visited twice.** -/
theorem Inv.step (inv : w.Inv) (h : w.step e = some v) : v.Inv := by
  cases e with
  | push x =>
      rw [ListWalk.step] at h
      split at h
      case isTrue => cases h
      case isFalse hx => exact Option.some.inj h ▸ inv.push hx
  | visit keep =>
      rw [ListWalk.step] at h
      split at h
      case h_1 hp => exact Option.some.inj h ▸ inv.visit hp keep
      case h_2 => cases h
  | next =>
      rw [ListWalk.step] at h
      split at h
      case h_1 hp => exact Option.some.inj h ▸ inv.next hp
      case h_2 => cases h

/-! ### Everybody once -/

/-- The visits that take nobody out of the list but the last of `xs`, or somebody who came
later. -/
def KeepsMembers (xs : List α) (w : ListWalk α) : WalkEvent α → Prop
  | .visit keep => keep = true ∨ ∀ x, w.place = .at x → x ∉ xs.dropLast
  | _ => True

/-- The walk is on its way: of `xs` a part is visited, and the rest is what comes next. -/
def OnItsWay (xs : List α) (w : ListWalk α) : Prop :=
  ∃ done rest pushed, xs = done ++ rest ∧ (∀ x ∈ done, x ∈ w.visited) ∧
    w.ahead = rest ++ pushed

/-- Somebody of `xs` is in the list, but the walk will not come to him. -/
def Misses (xs : List α) (w : ListWalk α) : Prop :=
  ∃ x ∈ xs, x ∉ w.visited ∧ x ∈ w.members ∧ x ∉ w.ahead

theorem OnItsWay.not_misses (h : OnItsWay xs w) : ¬ Misses xs w := by
  obtain ⟨done, rest, pushed, rfl, hdone, hahead⟩ := h
  rintro ⟨x, hx, hnew, -, hnot⟩
  rcases List.mem_append.1 hx with hx | hx
  · exact hnew (hdone x hx)
  · exact hnot (hahead ▸ List.mem_append_left _ hx)

/-- The next to be visited is the first of the rest, or all of `xs` are visited. -/
theorem OnItsWay.at_cases (h : OnItsWay xs w) (hp : w.place = .at x) :
    (∃ done rest pushed, xs = done ++ x :: rest ∧ (∀ y ∈ done, y ∈ w.visited) ∧
      behind w.members x = rest ++ pushed) ∨ ∀ y ∈ xs, y ∈ w.visited := by
  obtain ⟨done, rest, pushed, rfl, hdone, hahead⟩ := h
  simp only [ahead, hp] at hahead
  cases rest with
  | nil =>
      refine .inr fun y hy => hdone y ?_
      rwa [List.append_nil] at hy
  | cons z rest =>
      rw [List.cons_append, List.cons.injEq] at hahead
      obtain ⟨rfl, hbehind⟩ := hahead
      exact .inl ⟨done, rest, pushed, rfl, hdone, hbehind⟩

theorem OnItsWay.of_all (h : ∀ x ∈ xs, x ∈ w.visited) : OnItsWay xs w :=
  ⟨xs, [], w.ahead, (List.append_nil xs).symm, h, rfl⟩

omit [DecidableEq α] in
theorem mem_dropLast_append {done rest : List α} (hn : (done ++ x :: rest).Nodup) :
    x ∈ (done ++ x :: rest).dropLast ↔ rest ≠ [] := by
  have hx : x ∉ done := fun h => List.disjoint_of_nodup_append hn h List.mem_cons_self
  rw [List.dropLast_append_of_ne_nil (List.cons_ne_nil _ _)]
  cases rest with
  | nil => simp [hx]
  | cons y rest => simp

/-- A step that takes out nobody who is waited behind keeps the walk on its way. -/
theorem OnItsWay.step (hn : xs.Nodup) (h : OnItsWay xs w) (inv : w.Inv)
    (hG : KeepsMembers xs w e) (hstep : w.step e = some v) : OnItsWay xs v := by
  cases e with
  | push y =>
      rw [ListWalk.step] at hstep
      split at hstep
      case isTrue => cases hstep
      case isFalse hy =>
        obtain rfl := Option.some.inj hstep
        obtain ⟨done, rest, pushed, hxs, hdone, hahead⟩ := h
        rcases inv.ahead_push hy with heq | ⟨heq, -⟩
        · exact ⟨done, rest, pushed, hxs, hdone, heq.trans hahead⟩
        · exact ⟨done, rest, pushed ++ [y], hxs, hdone, by
            rw [heq, hahead, List.append_assoc]⟩
  | visit keep =>
      rw [ListWalk.step] at hstep
      split at hstep
      case h_2 => cases hstep
      case h_1 x hp =>
        obtain rfl := Option.some.inj hstep
        rcases h.at_cases hp with ⟨done, rest, pushed, rfl, hdone, hbehind⟩ | hall
        · have hvisited : ∀ y ∈ done ++ [x], y ∈ w.visited ++ [x] := by
            intro y hy
            rcases List.mem_append.1 hy with hy | hy
            · exact List.mem_append_left _ (hdone y hy)
            · exact List.mem_append_right _ hy
          have hahead := ahead_visit inv.nodup x keep
          cases keep with
          | true =>
              exact ⟨done ++ [x], rest, pushed, by simp, hvisited, hahead.trans hbehind⟩
          | false =>
              have hlast := (hG.resolve_left (by decide)) x hp
              rw [mem_dropLast_append hn, not_not] at hlast
              subst hlast
              exact OnItsWay.of_all hvisited
        · exact OnItsWay.of_all fun y hy => List.mem_append_left _ (hall y hy)
  | next =>
      rw [ListWalk.step] at hstep
      split at hstep
      case h_2 => cases hstep
      case h_1 hp =>
        obtain rfl := Option.some.inj hstep
        obtain ⟨done, rest, pushed, hxs, hdone, hahead⟩ := h
        exact ⟨done, rest, pushed, hxs, hdone, (ahead_next inv.nodup hp).trans hahead⟩

/-- When somebody else is taken out, the one behind him is missed. -/
theorem OnItsWay.misses (hn : xs.Nodup) (h : OnItsWay xs w) (inv : w.Inv)
    (hG : ¬ KeepsMembers xs w e) (hstep : w.step e = some v) : Misses xs v := by
  cases e with
  | push y => exact absurd trivial hG
  | next => exact absurd trivial hG
  | visit keep =>
      obtain ⟨hkeep, hmem⟩ := not_or.1 hG
      obtain rfl : keep = false := by simpa using hkeep
      push Not at hmem
      obtain ⟨x, hp, hx⟩ := hmem
      have hin := inv.here x hp
      have hnew : x ∉ w.visited := fun hv =>
        inv.notAhead x hv (by simp only [ahead, hp]; exact List.mem_cons_self)
      rw [ListWalk.step, hp] at hstep
      obtain rfl := Option.some.inj hstep
      rcases h.at_cases hp with ⟨done, rest, pushed, rfl, -, hbehind⟩ | hall
      · rw [mem_dropLast_append hn] at hx
        obtain ⟨y, rest, rfl⟩ := List.exists_cons_of_ne_nil hx
        have hy : y ∈ behind w.members x := hbehind ▸ List.mem_cons_self
        have hne : y ≠ x := by
          rintro rfl
          exact (List.nodup_cons.1 (nodup_behind inv.nodup hin)).1 hy
        refine ⟨y, by simp, fun hv => ?_, ?_, ?_⟩
        · rcases List.mem_append.1 hv with hv | hv
          · exact inv.notAhead y hv (by simp only [ahead, hp]; exact List.mem_cons_of_mem _ hy)
          · exact hne (List.mem_singleton.1 hv)
        · exact (List.mem_erase_of_ne hne).2 (mem_of_behind hy).2
        · rw [ahead_visit inv.nodup x false]
          exact List.not_mem_nil
      · exact absurd (hall x (List.dropLast_subset xs hx)) hnew

/-- The walk never comes back to whom it missed. -/
theorem Misses.step (h : Misses xs w) (inv : w.Inv) (hstep : w.step e = some v) :
    Misses xs v := by
  obtain ⟨x, hx, hnew, hmem, hnot⟩ := h
  cases e with
  | push y =>
      rw [ListWalk.step] at hstep
      split at hstep
      case isTrue => cases hstep
      case isFalse hy =>
        obtain rfl := Option.some.inj hstep
        refine ⟨x, hx, hnew, List.mem_append_left _ hmem, fun hahead => ?_⟩
        rcases inv.ahead_push hy with heq | ⟨heq, -⟩
        · exact hnot (heq ▸ hahead)
        · rw [heq] at hahead
          rcases List.mem_append.1 hahead with hahead | hahead
          · exact hnot hahead
          · exact hy (List.mem_singleton.1 hahead ▸ hmem)
  | visit keep =>
      rw [ListWalk.step] at hstep
      split at hstep
      case h_2 => cases hstep
      case h_1 y hp =>
        obtain rfl := Option.some.inj hstep
        have hne : x ≠ y ∧ x ∉ behind w.members y := by
          simp only [ahead, hp, List.mem_cons, not_or] at hnot
          exact hnot
        refine ⟨x, hx, fun hv => ?_, ?_, ?_⟩
        · rcases List.mem_append.1 hv with hv | hv
          · exact hnew hv
          · exact hne.1 (List.mem_singleton.1 hv)
        · cases keep with
          | true => exact hmem
          | false => exact (List.mem_erase_of_ne hne.1).2 hmem
        · rw [ahead_visit inv.nodup y]
          cases keep with
          | true => exact hne.2
          | false => exact List.not_mem_nil
  | next =>
      rw [ListWalk.step] at hstep
      split at hstep
      case h_2 => cases hstep
      case h_1 hp =>
        obtain rfl := Option.some.inj hstep
        refine ⟨x, hx, hnew, hmem, ?_⟩
        rw [ahead_next inv.nodup hp]
        exact hnot

/-- **A walk to the end visits everybody** who was in the list when it began exactly when no
visit takes out one of them who is not the last. -/
theorem visits_all_iff (hn : xs.Nodup) {es : List (WalkEvent α)}
    (h : exec step (start xs) es = some w) (hended : w.place = .ended) :
    (∀ x ∈ xs, x ∈ w.visited) ↔ Meets step (KeepsMembers xs) (start xs) es := by
  have hfirst : (start xs).Inv ∧ OnItsWay xs (start xs) :=
    ⟨Inv.start hn, [], xs, [], rfl, by simp, by rw [ahead_start, List.append_nil]⟩
  have hmeets : Meets step (KeepsMembers xs) (start xs) es ↔ ¬ (w.Inv ∧ Misses xs w) :=
    meets_iff_not (I := fun w => w.Inv ∧ OnItsWay xs w) (B := fun w => w.Inv ∧ Misses xs w)
      (fun _ _ _ hI hG hs => ⟨hI.1.step hs, hI.2.step hn hI.1 hG hs⟩)
      (fun _ _ _ hI hG hs => ⟨hI.1.step hs, hI.2.misses hn hI.1 hG hs⟩)
      (fun _ _ _ hB hs => ⟨hB.1.step hs, hB.2.step hB.1 hs⟩)
      (fun _ hI hB => hI.2.not_misses hB.2) hfirst h
  constructor
  · intro hall
    refine hmeets.2 ?_
    rintro ⟨-, x, hx, hnew, -⟩
    exact hnew (hall x hx)
  · intro hG
    obtain ⟨-, done, rest, pushed, rfl, hdone, hahead⟩ :=
      (always_of_meets (P := fun w => w.Inv ∧ OnItsWay xs w)
        (fun _ _ _ hI hG hs => ⟨hI.1.step hs, hI.2.step hn hI.1 hG hs⟩) hfirst hG).last h
    simp only [ahead, hended, List.nil_eq, List.append_eq_nil_iff] at hahead
    rw [hahead.1, List.append_nil]
    exact hdone

end ListWalk

end Data
end Lfi
