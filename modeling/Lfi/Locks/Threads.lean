/-
# Threads and their mutexes

A program given by its calls: what a call does is a list of operations, chosen by the
environment among those the call allows, and an operation locks or unlocks a mutex,
exclusively or shared, or is another call.  A thread is the mutexes it holds and what it
has still to do.  Locking waits until nobody holds the mutex, and a thread that already
does waits for itself.

A deadlock is a set of threads of which each waits for a mutex that one of them holds
(`Deadlock`).  There is none where a bounded number grows along every such wait
(`not_closed_of_rank`).  What a thread can hold at each operation is said by a
discipline: a condition on the held mutexes, the operation and what follows it, which the
body of a call meets where the call does (`Discipline`).  Then every operation a thread
comes to meets it (`ThreadsInv.step`).
-/

import Lfi.Runs.Basic
import Mathlib.Data.Set.Basic

namespace Lfi
namespace Locks

open Runs

/-- What a thread does next: `μ` are the mutexes, `κ` the calls. -/
inductive Op (μ κ : Type*) where
  | lock (m : μ)
  | unlock (m : μ)
  | lockShared (m : μ)
  | unlockShared (m : μ)
  | call (f : κ)
  deriving DecidableEq

/-- A thread: the mutexes it holds exclusively, the last one first, those it shares, and
what it has to do. -/
structure Thread (μ κ : Type*) where
  held : List μ
  shared : List μ
  todo : List (Op μ κ)

/-- A program over the data `δ`: the calls a thread can begin with, and what a call does
by the choice `ι` of the environment. -/
structure Program (μ κ ι δ : Type*) where
  entry : κ → Bool
  body : δ → κ → ι → Option (List (Op μ κ) × δ)

/-- The threads and the data they share. -/
structure Config (μ κ δ : Type*) where
  threads : List (Thread μ κ)
  data : δ

/-- A thread with nothing to do begins a call; a thread takes its next step. -/
inductive ThreadAction (κ ι : Type*) where
  | begin (t : ℕ) (f : κ)
  | step (t : ℕ) (choice : ι)
  deriving DecidableEq

variable {μ κ ι δ : Type*} [DecidableEq μ]

/-- `n` threads with nothing to do. -/
def idle (n : ℕ) (d : δ) : Config μ κ δ := ⟨List.replicate n ⟨[], [], []⟩, d⟩

/-- Nobody holds `m` exclusively. -/
def Config.Unheld (s : Config μ κ δ) (m : μ) : Prop := ∀ x ∈ s.threads, m ∉ x.held

/-- Nobody shares `m`. -/
def Config.Unshared (s : Config μ κ δ) (m : μ) : Prop := ∀ x ∈ s.threads, m ∉ x.shared

instance (s : Config μ κ δ) (m : μ) : Decidable (s.Unheld m) :=
  inferInstanceAs (Decidable (∀ x ∈ s.threads, m ∉ x.held))

instance (s : Config μ κ δ) (m : μ) : Decidable (s.Unshared m) :=
  inferInstanceAs (Decidable (∀ x ∈ s.threads, m ∉ x.shared))

/-- The thread after its next operation, and the data. -/
def opStep (P : Program μ κ ι δ) (s : Config μ κ δ) (x : Thread μ κ) (choice : ι) :
    Option (Thread μ κ × δ) :=
  match x.todo with
  | [] => none
  | .lock m :: rest =>
      if s.Unheld m ∧ s.Unshared m then some (⟨m :: x.held, x.shared, rest⟩, s.data) else none
  | .unlock m :: rest => some (⟨x.held.erase m, x.shared, rest⟩, s.data)
  | .lockShared m :: rest =>
      if s.Unheld m then some (⟨x.held, m :: x.shared, rest⟩, s.data) else none
  | .unlockShared m :: rest => some (⟨x.held, x.shared.erase m, rest⟩, s.data)
  | .call f :: rest =>
      (P.body s.data f choice).map fun (b, d) => (⟨x.held, x.shared, b ++ rest⟩, d)

/-- One action. -/
def threadStep (P : Program μ κ ι δ) (s : Config μ κ δ) :
    ThreadAction κ ι → Option (Config μ κ δ)
  | .begin t f =>
      match s.threads[t]? with
      | some x =>
          if x.todo = [] ∧ P.entry f = true then
            some ⟨s.threads.set t { x with todo := [.call f] }, s.data⟩
          else none
      | none => none
  | .step t choice =>
      match s.threads[t]? with
      | some x => (opStep P s x choice).map fun (y, d) => ⟨s.threads.set t y, d⟩
      | none => none

/-- The thread `t` waits for a mutex that the thread `u` holds. -/
def Config.WaitsFor (s : Config μ κ δ) (t u : ℕ) : Prop :=
  ∃ x y, s.threads[t]? = some x ∧ s.threads[u]? = some y ∧
    ∃ m rest, (x.todo = .lock m :: rest ∧ (m ∈ y.held ∨ m ∈ y.shared)) ∨
      (x.todo = .lockShared m :: rest ∧ m ∈ y.held)

/-- **A deadlock**: threads of which each waits for one of them. -/
def Config.Deadlock (s : Config μ κ δ) : Prop :=
  ∃ T : Set ℕ, T.Nonempty ∧ ∀ t ∈ T, ∃ u ∈ T, s.WaitsFor t u

/-- Where every waiting thread of a set has a lower rank than the one it waits for, and the
ranks are bounded, the set is empty. -/
theorem not_closed_of_rank {T : Set ℕ} (hT : T.Nonempty) {waits : ℕ → ℕ → Prop}
    (hclosed : ∀ t ∈ T, ∃ u ∈ T, waits t u) (rank : ℕ → ℕ) (bound : ℕ)
    (hrank : ∀ t ∈ T, ∀ u ∈ T, waits t u → rank t < rank u) : ¬ ∀ t ∈ T, rank t ≤ bound := by
  intro hbound
  have hgrow : ∀ k, ∃ t ∈ T, k ≤ rank t := by
    intro k
    induction k with
    | zero => exact hT.imp fun t ht => ⟨ht, Nat.zero_le _⟩
    | succ k ih =>
        obtain ⟨t, ht, hk⟩ := ih
        obtain ⟨u, hu, hwaits⟩ := hclosed t ht
        exact ⟨u, hu, hk.trans_lt (hrank t ht u hu hwaits)⟩
  obtain ⟨t, ht, hk⟩ := hgrow (bound + 1)
  exact absurd (hbound t ht) (Nat.not_le.2 hk)

/-! ### Disciplines -/

/-- What a thread holds after an operation. -/
@[simp] def heldAfter (held : List μ) : Op μ κ → List μ
  | .lock m => m :: held
  | .unlock m => held.erase m
  | _ => held

/-- A thread that holds `held` meets `ok` at each of the operations, and holds nothing in
the end. -/
@[simp] def Fits (ok : List μ → Op μ κ → List (Op μ κ) → Prop) : List μ → List (Op μ κ) → Prop
  | held, [] => held = []
  | held, op :: rest => ok held op rest ∧ Fits ok (heldAfter held op) rest

/-- A discipline of a program: what a thread may hold at an operation and what may follow
it.  The mutexes that are `sharedOnly` are never locked exclusively, and only they are
shared; what a call does meets the discipline where the call does. -/
structure Discipline (P : Program μ κ ι δ) where
  ok : List μ → Op μ κ → List (Op μ κ) → Prop
  sharedOnly : μ → Prop
  lock : ∀ {held m rest}, ok held (.lock m) rest → ¬ sharedOnly m
  lockShared : ∀ {held m rest}, ok held (.lockShared m) rest → sharedOnly m
  entry : ∀ {f}, P.entry f = true → ok [] (.call f) []
  body : ∀ {d f i b d' held rest}, P.body d f i = some (b, d') → ok held (.call f) rest →
    Fits ok held rest → Fits ok held (b ++ rest)

/-- What a step does to its thread. -/
inductive Moves (P : Program μ κ ι δ) (s : Config μ κ δ) : Thread μ κ → Thread μ κ → Prop
  | begin {x : Thread μ κ} {f : κ} (hx : x.todo = []) (hf : P.entry f = true) :
      Moves P s x { x with todo := [.call f] }
  | lock {x : Thread μ κ} {m : μ} {rest : List (Op μ κ)} (hx : x.todo = .lock m :: rest)
      (hm : s.Unheld m) (hm' : s.Unshared m) : Moves P s x ⟨m :: x.held, x.shared, rest⟩
  | unlock {x : Thread μ κ} {m : μ} {rest : List (Op μ κ)} (hx : x.todo = .unlock m :: rest) :
      Moves P s x ⟨x.held.erase m, x.shared, rest⟩
  | lockShared {x : Thread μ κ} {m : μ} {rest : List (Op μ κ)}
      (hx : x.todo = .lockShared m :: rest) (hm : s.Unheld m) :
      Moves P s x ⟨x.held, m :: x.shared, rest⟩
  | unlockShared {x : Thread μ κ} {m : μ} {rest : List (Op μ κ)}
      (hx : x.todo = .unlockShared m :: rest) : Moves P s x ⟨x.held, x.shared.erase m, rest⟩
  | call {x : Thread μ κ} {f : κ} {rest b : List (Op μ κ)} {i : ι} {d : δ}
      (hx : x.todo = .call f :: rest) (hb : P.body s.data f i = some (b, d)) :
      Moves P s x ⟨x.held, x.shared, b ++ rest⟩

variable {P : Program μ κ ι δ} {s s' : Config μ κ δ}

theorem opStep_moves {x y : Thread μ κ} {i : ι} {d : δ} (h : opStep P s x i = some (y, d)) :
    Moves P s x y := by
  unfold opStep at h
  split at h
  case h_1 => cases h
  case h_2 m rest hx =>
    split at h
    case isFalse => cases h
    case isTrue hm => cases h; exact .lock hx hm.1 hm.2
  case h_3 m rest hx => cases h; exact .unlock hx
  case h_4 m rest hx =>
    split at h
    case isFalse => cases h
    case isTrue hm => cases h; exact .lockShared hx hm
  case h_5 m rest hx => cases h; exact .unlockShared hx
  case h_6 f rest hx =>
    obtain ⟨⟨b, d'⟩, hb, hy⟩ := Option.map_eq_some_iff.1 h
    cases hy
    exact .call hx hb

/-- **What an action is.**  One thread moves. -/
theorem threadStep_cases {a : ThreadAction κ ι} (h : threadStep P s a = some s') :
    ∃ t x y, s.threads[t]? = some x ∧ s'.threads = s.threads.set t y ∧ Moves P s x y := by
  cases a with
  | begin t f =>
      simp only [threadStep] at h
      split at h
      case h_2 => cases h
      case h_1 x hx =>
        split at h
        case isFalse => cases h
        case isTrue hf => cases h; exact ⟨t, x, _, hx, rfl, .begin hf.1 hf.2⟩
  | step t i =>
      simp only [threadStep] at h
      split at h
      case h_2 => cases h
      case h_1 x hx =>
        obtain ⟨⟨y, d⟩, hy, hs⟩ := Option.map_eq_some_iff.1 h
        cases hs
        exact ⟨t, x, y, hx, rfl, opStep_moves hy⟩

/-- What holds in every reachable state: the threads meet the discipline, and no mutex is
held twice. -/
structure ThreadsInv (D : Discipline P) (s : Config μ κ δ) : Prop where
  fits : ∀ (t : ℕ) (x : Thread μ κ), s.threads[t]? = some x → Fits D.ok x.held x.todo
  nodup : ∀ (t : ℕ) (x : Thread μ κ), s.threads[t]? = some x → x.held.Nodup
  exclusive : ∀ (t : ℕ) (x : Thread μ κ), s.threads[t]? = some x → ∀ m ∈ x.held, ¬ D.sharedOnly m
  shared : ∀ (t : ℕ) (x : Thread μ κ), s.threads[t]? = some x → ∀ m ∈ x.shared, D.sharedOnly m
  alone : ∀ (t u : ℕ) (x y : Thread μ κ), s.threads[t]? = some x → s.threads[u]? = some y → t ≠ u →
    ∀ m ∈ x.held, m ∉ y.held

variable {D : Discipline P}

theorem threadsInv_idle (n : ℕ) (d : δ) : ThreadsInv D (idle n d) := by
  have hget : ∀ (t : ℕ) (x : Thread μ κ), (idle n d : Config μ κ δ).threads[t]? = some x →
      x = ⟨[], [], []⟩ := fun t x hx => by
    simp only [idle, List.getElem?_replicate, Option.ite_none_right_eq_some,
      Option.some.injEq] at hx
    exact hx.2.symm
  refine ⟨fun t x hx => ?_, fun t x hx => ?_, fun t x hx => ?_, fun t x hx => ?_,
    fun t u x y hx _ _ => ?_⟩ <;> obtain rfl := hget t x hx
  · exact rfl
  · exact List.nodup_nil
  · exact fun m hm => absurd hm List.not_mem_nil
  · exact fun m hm => absurd hm List.not_mem_nil
  · exact fun m hm => absurd hm List.not_mem_nil

/-- A thread that moves meets the discipline again. -/
theorem Moves.fits {x y : Thread μ κ} (h : Moves P s x y) (hx : Fits D.ok x.held x.todo) :
    Fits D.ok y.held y.todo := by
  cases h with
  | begin hnil hf =>
      rw [hnil] at hx
      rw [show x.held = [] from hx]
      exact ⟨D.entry hf, rfl⟩
  | lock htodo => rw [htodo] at hx; exact hx.2
  | unlock htodo => rw [htodo] at hx; exact hx.2
  | lockShared htodo => rw [htodo] at hx; exact hx.2
  | unlockShared htodo => rw [htodo] at hx; exact hx.2
  | call htodo hb => rw [htodo] at hx; exact D.body hb hx.1 hx.2

/-- What a thread holds after it has moved it held before, or nobody did. -/
theorem Moves.held {x y : Thread μ κ} (h : Moves P s x y) {m : μ} (hm : m ∈ y.held) :
    m ∈ x.held ∨ (s.Unheld m ∧ ∃ rest, x.todo = .lock m :: rest) := by
  cases h with
  | begin => exact .inl hm
  | lock htodo hfree =>
      rcases List.mem_cons.1 hm with rfl | hm
      · exact .inr ⟨hfree, _, htodo⟩
      · exact .inl hm
  | unlock => exact .inl (List.mem_of_mem_erase hm)
  | lockShared => exact .inl hm
  | unlockShared => exact .inl hm
  | call => exact .inl hm

theorem Moves.shared {x y : Thread μ κ} (h : Moves P s x y) {m : μ} (hm : m ∈ y.shared) :
    m ∈ x.shared ∨ ∃ rest, x.todo = .lockShared m :: rest := by
  cases h with
  | begin => exact .inl hm
  | lock => exact .inl hm
  | unlock => exact .inl hm
  | lockShared htodo =>
      rcases List.mem_cons.1 hm with rfl | hm
      · exact .inr ⟨_, htodo⟩
      · exact .inl hm
  | unlockShared => exact .inl (List.mem_of_mem_erase hm)
  | call => exact .inl hm

theorem Moves.nodup {x y : Thread μ κ} (h : Moves P s x y) (hx : x ∈ s.threads)
    (hnodup : x.held.Nodup) : y.held.Nodup := by
  cases h with
  | begin => exact hnodup
  | lock _ hfree => exact List.nodup_cons.2 ⟨hfree x hx, hnodup⟩
  | unlock => exact hnodup.erase _
  | lockShared => exact hnodup
  | unlockShared => exact hnodup
  | call => exact hnodup

/-- **The invariant survives every action.** -/
theorem ThreadsInv.step (hs : ThreadsInv D s) {a : ThreadAction κ ι}
    (h : threadStep P s a = some s') : ThreadsInv D s' := by
  obtain ⟨k, x, y, hx, hset, hmove⟩ := threadStep_cases h
  have hget : ∀ (t : ℕ) (z : Thread μ κ), s'.threads[t]? = some z →
      (t = k ∧ z = y) ∨ (t ≠ k ∧ s.threads[t]? = some z) := fun t z hz => by
    rw [hset, List.getElem?_set] at hz
    split at hz
    case isTrue htk =>
      split at hz
      case isTrue => exact .inl ⟨htk.symm, (Option.some.inj hz).symm⟩
      case isFalse => cases hz
    case isFalse htk => exact .inr ⟨Ne.symm htk, hz⟩
  have hmem : x ∈ s.threads := List.mem_of_getElem? hx
  refine ⟨fun t z hz => ?_, fun t z hz => ?_, fun t z hz m hm => ?_, fun t z hz m hm => ?_,
    fun t u z w hz hw htu m hm => ?_⟩
  · rcases hget t z hz with ⟨rfl, rfl⟩ | ⟨-, hz⟩
    · exact hmove.fits (hs.fits t x hx)
    · exact hs.fits t z hz
  · rcases hget t z hz with ⟨rfl, rfl⟩ | ⟨-, hz⟩
    · exact hmove.nodup hmem (hs.nodup t x hx)
    · exact hs.nodup t z hz
  · rcases hget t z hz with ⟨rfl, rfl⟩ | ⟨-, hz⟩
    · rcases hmove.held hm with hm | ⟨-, rest, htodo⟩
      · exact hs.exclusive t x hx m hm
      · have hok := hs.fits t x hx
        rw [htodo] at hok
        exact D.lock hok.1
    · exact hs.exclusive t z hz m hm
  · rcases hget t z hz with ⟨rfl, rfl⟩ | ⟨-, hz⟩
    · rcases hmove.shared hm with hm | ⟨rest, htodo⟩
      · exact hs.shared t x hx m hm
      · have hok := hs.fits t x hx
        rw [htodo] at hok
        exact D.lockShared hok.1
    · exact hs.shared t z hz m hm
  · -- a mutex one of two threads holds, the other does not take
    rcases hget t z hz with ⟨rfl, rfl⟩ | ⟨-, hz⟩ <;> rcases hget u w hw with ⟨rfl, rfl⟩ | ⟨-, hw⟩
    · exact absurd rfl htu
    · rcases hmove.held hm with hm | ⟨hfree, -⟩
      · exact hs.alone t u x w hx hw htu m hm
      · exact hfree w (List.mem_of_getElem? hw)
    · intro hmw
      rcases hmove.held hmw with hmw | ⟨hfree, -⟩
      · exact hs.alone t u z x hz hx htu m hm hmw
      · exact hfree z (List.mem_of_getElem? hz) hm
    · exact hs.alone t u z w hz hw htu m hm

/-- Who waits, waits for a mutex that is held exclusively. -/
theorem ThreadsInv.waitsFor (hs : ThreadsInv D s) {t u : ℕ} (h : s.WaitsFor t u) :
    ∃ x y m rest, s.threads[t]? = some x ∧ s.threads[u]? = some y ∧
      x.todo = .lock m :: rest ∧ m ∈ y.held := by
  obtain ⟨x, y, hx, hy, m, rest, ⟨htodo, hm | hm⟩ | ⟨htodo, hm⟩⟩ := h
  · exact ⟨x, y, m, rest, hx, hy, htodo, hm⟩
  · have hok := hs.fits t x hx
    rw [htodo] at hok
    exact absurd (hs.shared u y hy m hm) (D.lock hok.1)
  · have hok := hs.fits t x hx
    rw [htodo] at hok
    exact absurd (D.lockShared hok.1) (hs.exclusive u y hy m hm)

/-! ### What a thread has still to do -/

/-- What a thread has to do it had to do before, or a call it makes does it. -/
theorem Moves.todo {x y : Thread μ κ} {o : Op μ κ} (h : Moves P s x y) (ho : o ∈ y.todo) :
    o ∈ x.todo ∨ (∃ f, o = .call f ∧ P.entry f = true) ∨
      ∃ f rest b i d, x.todo = .call f :: rest ∧ P.body s.data f i = some (b, d) ∧
        y.held = x.held ∧ o ∈ b := by
  cases h with
  | begin hnil hf => exact .inr (.inl ⟨_, List.mem_singleton.1 ho, hf⟩)
  | lock htodo => exact .inl (htodo ▸ List.mem_cons_of_mem _ ho)
  | unlock htodo => exact .inl (htodo ▸ List.mem_cons_of_mem _ ho)
  | lockShared htodo => exact .inl (htodo ▸ List.mem_cons_of_mem _ ho)
  | unlockShared htodo => exact .inl (htodo ▸ List.mem_cons_of_mem _ ho)
  | call htodo hb =>
      rcases List.mem_append.1 ho with ho | ho
      · exact .inr (.inr ⟨_, _, _, _, _, htodo, hb, rfl, ho⟩)
      · exact .inl (htodo ▸ List.mem_cons_of_mem _ ho)

/-- What is done before the operation `o`. -/
def before [DecidableEq κ] (o : Op μ κ) (todo : List (Op μ κ)) : List (Op μ κ) :=
  todo.takeWhile (· ≠ o)

section Pending

variable [DecidableEq κ] {o o' : Op μ κ} {m : μ}

@[simp]
theorem before_nil : before o ([] : List (Op μ κ)) = [] := rfl

theorem before_cons_of_ne (h : o' ≠ o) (todo : List (Op μ κ)) :
    before o (o' :: todo) = o' :: before o todo := by
  simp [before, h]

theorem mem_before_of_cons {todo : List (Op μ κ)} (h : o' ∈ before o (o :: todo)) : False := by
  simp [before] at h

theorem mem_before_append {b rest : List (Op μ κ)} (h : o' ∈ before o (b ++ rest)) :
    o' ∈ b ∨ o' ∈ before o rest := by
  induction b with
  | nil => exact .inr h
  | cons c b ih =>
      by_cases hc : c = o
      · subst hc
        exact (mem_before_of_cons h).elim
      · rw [List.cons_append, before_cons_of_ne hc, List.mem_cons] at h
        rcases h with rfl | h
        · exact .inl (List.mem_cons_self ..)
        · exact (ih h).imp_left (List.mem_cons_of_mem _)

/-- What a thread does before it releases a mutex it holds was so before, or it has just
taken the mutex, or a call it makes does it. -/
theorem Moves.pending {x y : Thread μ κ} (h : Moves P s x y) (hfit : Fits D.ok x.held x.todo)
    (hnodup : x.held.Nodup) (hm : m ∈ y.held) (ho : o ∈ before (.unlock m) y.todo) :
    (m ∈ x.held ∧ o ∈ before (.unlock m) x.todo) ∨
      (x.todo = .lock m :: y.todo ∧ y.held = m :: x.held) ∨
      (m ∈ x.held ∧ ∃ f rest b i d, x.todo = .call f :: rest ∧
        P.body s.data f i = some (b, d) ∧ y.held = x.held ∧ o ∈ b) := by
  have hcons : ∀ {o' rest}, x.todo = o' :: rest → o' ≠ .unlock m → o ∈ before (.unlock m) rest →
      o ∈ before (.unlock m) x.todo := fun htodo hne ho => by
    rw [htodo, before_cons_of_ne hne]
    exact List.mem_cons_of_mem _ ho
  cases h with
  | begin hnil =>
      rw [hnil] at hfit
      rw [show x.held = [] from hfit] at hm
      exact absurd hm List.not_mem_nil
  | lock htodo =>
      rcases List.mem_cons.1 hm with rfl | hm
      · exact .inr (.inl ⟨htodo, rfl⟩)
      · exact .inl ⟨hm, hcons htodo (by simp) ho⟩
  | unlock htodo =>
      refine .inl ⟨List.mem_of_mem_erase hm, hcons htodo (fun heq => ?_) ho⟩
      cases heq
      exact (hnodup.mem_erase_iff.1 hm).1 rfl
  | lockShared htodo => exact .inl ⟨hm, hcons htodo (by simp) ho⟩
  | unlockShared htodo => exact .inl ⟨hm, hcons htodo (by simp) ho⟩
  | call htodo hb =>
      rcases mem_before_append ho with ho | ho
      · exact .inr (.inr ⟨hm, _, _, _, _, _, htodo, hb, rfl, ho⟩)
      · exact .inl ⟨hm, hcons htodo (by simp) ho⟩

end Pending

end Locks
end Lfi
