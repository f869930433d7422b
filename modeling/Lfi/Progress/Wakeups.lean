/-
# No wake-up is lost

The guards of the calls of `Lfi.Progress.Waiters` come and go, and leadership is handed on with
them.  `CallMoves` is all that a call can do next; each of its cases keeps `WaitsInv`: only the
hand-over gives leadership to another call, and then the leaver is on the way to notify it, since
`toWake` is left out only for a successor that cannot sleep.

`no_lost_wakeup` says so of every run, with timeouts and spurious wake-ups.
-/

import Lfi.Progress.Waiters

namespace Lfi
namespace Progress

open Runs

variable {s t : Waits} {c d : ℕ} {e : Ep} {x y : WaitCall} {phase : Ep → Phase}
  {leads timeUp : Bool}

/-! ### The constructors and destructors -/

theorem Waits.setEp_ep {e' : Ep} {ep : Endpoint} :
    (s.setEp e ep).ep e' = if e' = e then ep else s.ep e' := by
  simp only [Waits.setEp, Function.update_apply]

theorem Waits.setWaitersMutex_waitersMutex {e' : Ep} {o : Option ℕ} :
    (s.setWaitersMutex e o).waitersMutex e' = if e' = e then o else s.waitersMutex e' := by
  simp only [Waits.setWaitersMutex, Function.update_apply]

/-- Registering and unregistering change nothing but the phase of the guard. -/
theorem registerWaiter_guards (s : Endpoint) (g h : ℕ) : (registerWaiter s g).guards h =
    if h = g then { s.guards g with phase := .registered } else s.guards h :=
  Endpoint.setGuard_guards g h _

theorem unregisterWaiter_guards (s : Endpoint) (g h : ℕ) : (unregisterWaiter s g).guards h =
    if h = g then { s.guards g with phase := .unregistered } else s.guards h :=
  Endpoint.setGuard_guards g h _

/-- `transfer_leader_and_wake` destroys the guard, and changes no other one's phase. -/
theorem GuardInv.transfer_phase {s : Endpoint} {leader : Option ℕ} (hs : GuardInv s leader)
    {g : ℕ} (hg : (s.guards g).phase = .unregistered) (h : ℕ) :
    ((Progress.transferLeaderAndWake s g).guards h).phase =
      if h = g then .destroyed else (s.guards h).phase := by
  unfold Progress.transferLeaderAndWake
  by_cases hl : (s.guards g).isLeader = true
  · rw [if_pos hl]
    cases hw : s.waitersList with
    | nil =>
        simp only [Endpoint.setGuard_guards]
        split <;> rfl
    | cons w l =>
        have hmem : (s.guards w).phase = .registered :=
          (hs.mem_waiters w).1 (by rw [hw]; exact List.mem_cons_self)
        have hwg : w ≠ g := by
          rintro rfl
          rw [hg] at hmem
          cases hmem
        simp only [Endpoint.setGuard_guards]
        by_cases hh : h = w
        · rw [if_pos hh, hh, if_neg hwg]
        · rw [if_neg hh]
          split <;> rfl
  · rw [if_neg hl, Endpoint.setGuard_guards]
    split <;> rfl

/-- Whom it makes the leader. -/
theorem transfer_isLeader {s : Endpoint} {g h : ℕ} (hh : h ≠ g)
    (hl : ((transferLeaderAndWake s g).guards h).isLeader = true) :
    (s.guards h).isLeader = true ∨
      (s.guards g).isLeader = true ∧ s.waitersList.head? = some h := by
  unfold Progress.transferLeaderAndWake at hl
  by_cases hg : (s.guards g).isLeader = true
  · rw [if_pos hg] at hl
    cases hw : s.waitersList with
    | nil =>
        simp only [hw, Endpoint.setGuard_guards, if_neg hh] at hl
        exact .inl hl
    | cons w l =>
        simp only [hw, Endpoint.setGuard_guards, if_neg hh] at hl
        by_cases hhw : h = w
        · exact .inr ⟨hg, by rw [hhw]; rfl⟩
        · rw [if_neg hhw] at hl
          exact .inl hl
  · rw [if_neg hg, Endpoint.setGuard_guards, if_neg hh] at hl
    exact .inl hl

/-- The call `c` moves to `y` with its guard of `e`, and `waiters_mutex` of `e` to `o`.  The guards
of the others stay where they are, and who dozes is handed the lead only by a call that is on the
way to notify it, with `waiters_mutex` of the endpoint. -/
structure GuardMoves (s : Waits) (c : ℕ) (e : Ep) (ep : Endpoint) (o : Option ℕ) (y : WaitCall) :
    Prop where
  inv : ∃ leader, GuardInv ep leader
  phase : ∀ d, d ≠ c → (ep.guards d).phase = ((s.ep e).guards d).phase
  placed : GuardsAt y
    (Function.update (fun e => ((s.ep e).guards c).phase) e (ep.guards c).phase)
  sound : y.Sound
  awake : ¬ y.pc.Dozes
  built : ∀ e' ∈ (s.call c).built, s.waitersMutex e' ≠ none → e' ∈ y.built
  lead : ∀ d, d ≠ c → (s.call d).pc.Dozes → (ep.guards d).isLeader = true →
    ((s.ep e).guards d).isLeader = true ∨ y.pc = .notify e d
  quiet : ∀ e w, (s.call c).pc ≠ .notify e w
  notify : (∀ e w, y.pc ≠ .notify e w) ∧ o = s.waitersMutex e ∨
    s.waitersMutex e = none ∧ o = some c ∧
      ∃ w, y.pc = .notify e w ∧ w ≠ c ∧ e ∈ (s.call w).built

section GuardMoves

variable {ep : Endpoint} {o : Option ℕ}

/-- Every call is where its guards are. -/
theorem GuardMoves.placed_at (h : GuardMoves s c e ep o y) (hs : WaitsInv s) (d : ℕ) :
    GuardsAt (if d = c then y else s.call d) fun e' =>
      ((if e' = e then ep else s.ep e').guards d).phase := by
  by_cases hd : d = c
  · rw [if_pos hd, hd]
    convert h.placed using 1
    funext e'
    rw [Function.update_apply]
    split <;> rfl
  · rw [if_neg hd]
    convert hs.placed d using 1
    funext e'
    split
    case isTrue he => rw [h.phase d hd, he]
    case isFalse => rfl

/-- The call itself: it has `waiters_mutex` if and only if it is about to notify. -/
theorem GuardMoves.holds_iff (h : GuardMoves s c e ep o y) (hs : WaitsInv s) (e' : Ep) :
    (if e' = e then o else s.waitersMutex e') = some c ↔ ∃ w, y.pc = .notify e' w := by
  have hnone : ∀ e', s.waitersMutex e' ≠ some c := fun e' hheld =>
    ((hs.waitersMutex e' c).1 hheld).elim (h.quiet e')
  rcases h.notify with ⟨hy, rfl⟩ | ⟨-, rfl, w, hy, -⟩
  · refine iff_of_false ?_ fun ⟨w, hw⟩ => hy e' w hw
    by_cases he : e' = e
    · rw [if_pos he]
      exact hnone e
    · rw [if_neg he]
      exact hnone e'
  · by_cases he : e' = e
    · rw [if_pos he, he]
      exact iff_of_true rfl ⟨w, hy⟩
    · rw [if_neg he]
      refine iff_of_false (hnone e') fun ⟨w', hw'⟩ => he ?_
      rw [hy] at hw'
      exact (WaitPc.notify.inj hw').1.symm

/-- The others have it as before: it is taken only when it is free. -/
theorem GuardMoves.holds_other_iff (h : GuardMoves s c e ep o y) (hd : d ≠ c) (e' : Ep) :
    (if e' = e then o else s.waitersMutex e') = some d ↔ s.waitersMutex e' = some d := by
  by_cases he : e' = e
  · rw [if_pos he, he]
    rcases h.notify with ⟨-, rfl⟩ | ⟨hfree, rfl, -⟩
    · rfl
    · rw [hfree]
      exact iff_of_false (fun h => hd (Option.some.inj h).symm) nofun
  · rw [if_neg he]

/-- Whoever is notified is another call, and still has its guard. -/
theorem GuardMoves.woken_at {w : ℕ} {e' : Ep} (h : GuardMoves s c e ep o y) (hs : WaitsInv s)
    (hd : (if d = c then y else s.call d).pc = .notify e' w) :
    w ≠ d ∧ e' ∈ (if w = c then y else s.call w).built := by
  by_cases hdc : d = c
  · rw [if_pos hdc] at hd
    rcases h.notify with ⟨hy, -⟩ | ⟨-, -, w', hy, hw', hmem⟩
    · exact absurd hd (hy e' w)
    · obtain ⟨rfl, rfl⟩ := WaitPc.notify.inj (hy.symm.trans hd)
      rw [if_neg hw', hdc]
      exact ⟨hw', hmem⟩
  · rw [if_neg hdc] at hd
    obtain ⟨hne, hmem⟩ := hs.woken d e' w hd
    refine ⟨hne, ?_⟩
    -- a guard is not unregistered while somebody holds `waiters_mutex`
    have hheld : s.waitersMutex e' ≠ none := by
      rw [(hs.waitersMutex e' d).2 ⟨w, hd⟩]
      nofun
    by_cases hw : w = c
    · rw [if_pos hw]
      exact h.built e' (hw ▸ hmem) hheld
    · rw [if_neg hw]
      exact hmem

/-- Whoever dozes and leads is about to be notified. -/
theorem GuardMoves.handed_at {e' : Ep} (h : GuardMoves s c e ep o y) (hs : WaitsInv s)
    (hd : (if d = c then y else s.call d).pc.Dozes)
    (hl : ((if e' = e then ep else s.ep e').guards d).isLeader = true) :
    ∃ w, (if w = c then y else s.call w).pc = .notify e' d := by
  by_cases hdc : d = c
  · rw [if_pos hdc] at hd
    exact absurd hd h.awake
  rw [if_neg hdc] at hd
  have hold : ((s.ep e').guards d).isLeader = true →
      ∃ w, (if w = c then y else s.call w).pc = .notify e' d := by
    intro hl
    obtain ⟨w, hw⟩ := hs.handed d hd e' hl
    have hwc : w ≠ c := by
      rintro rfl
      exact h.quiet e' d hw
    exact ⟨w, by rwa [if_neg hwc]⟩
  by_cases he : e' = e
  · rw [if_pos he] at hl
    rcases h.lead d hdc hd hl with hl | hy
    · exact hold (he ▸ hl)
    · exact ⟨c, by rwa [if_pos rfl, he]⟩
  · rw [if_neg he] at hl
    exact hold hl

/-- **A call moves with one of its guards**, and the invariant stays. -/
theorem WaitsInv.setGuard (hs : WaitsInv s) (h : GuardMoves s c e ep o y) :
    WaitsInv (((s.setEp e ep).setWaitersMutex e o).setCall c y) := by
  have hcall : ∀ d, (((s.setEp e ep).setWaitersMutex e o).setCall c y).call d =
      if d = c then y else s.call d := fun d => Waits.setCall_call
  have hep : ∀ e', (((s.setEp e ep).setWaitersMutex e o).setCall c y).ep e' =
      if e' = e then ep else s.ep e' := fun e' => Waits.setEp_ep
  refine ⟨fun e' => ?_, fun d => ?_, fun d => ?_, fun e' d => ?_, fun d e' w hd => ?_,
    fun d hd e' hl => ?_⟩
  · rw [hep]
    split
    case isTrue => exact h.inv
    case isFalse => exact hs.ep e'
  · simp only [hcall, hep]
    exact h.placed_at hs d
  · rw [hcall]
    split
    case isTrue => exact h.sound
    case isFalse => exact hs.sound d
  · rw [hcall, Waits.setCall_waitersMutex, Waits.setWaitersMutex_waitersMutex,
      Waits.setEp_waitersMutex]
    by_cases hd : d = c
    · rw [if_pos hd, hd]
      exact h.holds_iff hs e'
    · rw [if_neg hd, h.holds_other_iff hd]
      exact hs.waitersMutex e' d
  · rw [hcall] at hd ⊢
    exact h.woken_at hs hd
  · rw [hcall] at hd
    rw [hep] at hl
    simp only [hcall]
    exact h.handed_at hs hd hl

end GuardMoves

/-- The constructor has asked for the lead; the guard is still to be registered. -/
theorem GuardsAt.acquire {requested : Bool} {todo : List (Ep × Bool)} (hx : GuardsAt x phase)
    (hpc : x.pc = .acquire ((e, requested) :: todo)) :
    GuardsAt { x with pc := .register e todo } (Function.update phase e .acquired) := by
  have habsent := hx.absent
  have hnodup := hx.todo_nodup
  simp only [hpc, WaitPc.todo, List.map_cons, List.nodup_cons] at habsent hnodup
  have he := habsent e List.mem_cons_self
  have hbuilt := (hx.registered e).not.1 (by rw [he]; decide)
  refine ⟨fun e' => ?_, fun e' => ?_, fun e' => ?_, fun e' he' => ?_, hnodup.2, nofun,
    hx.built_nodup⟩ <;> rw [Function.update_apply]
  · split
    case isTrue h => rw [h]; exact iff_of_false (by decide) hbuilt
    case isFalse => exact hx.registered e'
  · split
    case isTrue h => rw [h]; exact iff_of_true rfl rfl
    case isFalse h =>
      rw [hx.acquired, hpc]
      exact iff_of_false nofun fun h' => h (Option.some.inj h').symm
  · split
    case isTrue => exact iff_of_false (by decide) nofun
    case isFalse => rw [hx.unregistered, hpc]; exact Iff.rfl
  · rw [if_neg (by rintro rfl; exact hnodup.1 he')]
    exact habsent e' (List.mem_cons_of_mem e he')

/-- The constructor is done, and the next guard of the call is due. -/
theorem GuardsAt.register {todo : List (Ep × Bool)} (hx : GuardsAt x phase)
    (hpc : x.pc = .register e todo) :
    GuardsAt { x with pc := .acquire todo, built := e :: x.built }
      (Function.update phase e .registered) := by
  have habsent := hx.absent
  have hnodup := hx.todo_nodup
  rw [hpc] at habsent hnodup
  have he : phase e = .acquired := (hx.acquired e).2 (by rw [hpc]; rfl)
  have hbuilt := (hx.registered e).not.1 (by rw [he]; decide)
  refine ⟨fun e' => ?_, fun e' => ?_, fun e' => ?_, fun e' he' => ?_, hnodup,
    nofun, List.nodup_cons.2 ⟨hbuilt, hx.built_nodup⟩⟩ <;> rw [Function.update_apply]
  · rw [List.mem_cons]
    split
    case isTrue h => exact iff_of_true rfl (.inl h)
    case isFalse h => rw [hx.registered, or_iff_right h]
  · split
    case isTrue => exact iff_of_false (by decide) nofun
    case isFalse h =>
      rw [hx.acquired, hpc]
      exact iff_of_false (fun h' => h (Option.some.inj h').symm) nofun
  · split
    case isTrue => exact iff_of_false (by decide) nofun
    case isFalse => rw [hx.unregistered, hpc]; exact Iff.rfl
  · rw [if_neg]
    · exact habsent e' he'
    · rintro rfl
      rw [habsent e' he'] at he
      cases he

/-- A destructor takes the guard off the waiters; guards go in the order opposite to their
construction. -/
theorem GuardsAt.unregister {built : List Ep} (hx : GuardsAt x phase) (hpc : x.pc = .unregister)
    (hb : x.built = e :: built) :
    GuardsAt { x with pc := .transfer e, built := built }
      (Function.update phase e .unregistered) := by
  have hnodup := hx.built_nodup
  rw [hb, List.nodup_cons] at hnodup
  refine ⟨fun e' => ?_, fun e' => ?_, fun e' => ?_, nofun, List.nodup_nil, nofun,
    hnodup.2⟩ <;> rw [Function.update_apply]
  · split
    case isTrue h => rw [h]; exact iff_of_false (by decide) hnodup.1
    case isFalse h => rw [hx.registered, hb, List.mem_cons, or_iff_right h]
  · split
    case isTrue => exact iff_of_false (by decide) nofun
    case isFalse => rw [hx.acquired, hpc]; exact Iff.rfl
  · split
    case isTrue h => rw [h]; exact iff_of_true rfl rfl
    case isFalse h =>
      rw [hx.unregistered, hpc]
      exact iff_of_false nofun fun h' => h (Option.some.inj h').symm

/-- The destructor is done, with a successor to notify or without one. -/
theorem GuardsAt.transfer {pc : WaitPc} (hx : GuardsAt x phase) (hpc : x.pc = .transfer e)
    (hin : pc.registering = none) (hout : pc.leaving = none) (htodo : pc.todo = [])
    (hret : pc ≠ .returned) :
    GuardsAt { x with pc := pc } (Function.update phase e .destroyed) := by
  have he : phase e = .unregistered := (hx.unregistered e).2 (by rw [hpc]; rfl)
  have hbuilt := (hx.registered e).not.1 (by rw [he]; decide)
  refine ⟨fun e' => ?_, fun e' => ?_, fun e' => ?_, ?_, ?_,
    fun h => absurd h hret, hx.built_nodup⟩
  · rw [Function.update_apply]
    split
    case isTrue h => rw [h]; exact iff_of_false (by decide) hbuilt
    case isFalse => exact hx.registered e'
  · rw [Function.update_apply, hin]
    split
    case isTrue => exact iff_of_false (by decide) nofun
    case isFalse => rw [hx.acquired, hpc]; exact Iff.rfl
  · rw [Function.update_apply, hout]
    split
    case isTrue => exact iff_of_false (by decide) nofun
    case isFalse h =>
      rw [hx.unregistered, hpc]
      exact iff_of_false (fun h' => h (Option.some.inj h').symm) nofun
  · simp [htodo]
  · simp [htodo]

/-- What the call `c` can do next. -/
inductive CallMoves (s : Waits) (c : ℕ) (timeUp : Bool) : Waits → Prop where
  | acquire {e : Ep} {requested : Bool} {todo : List (Ep × Bool)}
      (hpc : (s.call c).pc = .acquire ((e, requested) :: todo)) :
      CallMoves s c timeUp ((s.setEp e (tryAcquire (s.ep e) c requested)).setCall c
        { s.call c with pc := .register e todo })
  | register {e : Ep} {todo : List (Ep × Bool)} (hpc : (s.call c).pc = .register e todo)
      (hm : s.waitersMutex e = none) :
      CallMoves s c timeUp ((s.setEp e (registerWaiter (s.ep e) c)).setCall c
        { s.call c with pc := .acquire todo, built := e :: (s.call c).built })
  | return (hpc : (s.call c).pc = .unregister) (hb : (s.call c).built = []) :
      CallMoves s c timeUp (s.setCall c { s.call c with pc := .returned })
  | unregister {e : Ep} {built : List Ep} (hpc : (s.call c).pc = .unregister)
      (hb : (s.call c).built = e :: built) (hm : s.waitersMutex e = none) :
      CallMoves s c timeUp ((s.setEp e (unregisterWaiter (s.ep e) c)).setCall c
        { s.call c with pc := .transfer e, built := built })
  | handOn {e : Ep} {w : ℕ} (hpc : (s.call c).pc = .transfer e) (hm : s.waitersMutex e = none)
      (hw : s.toWake e c = some w) :
      CallMoves s c timeUp (((s.setEp e (transferLeaderAndWake (s.ep e) c)).setWaitersMutex e
        (some c)).setCall c { s.call c with pc := .notify e w })
  | transfer {e : Ep} (hpc : (s.call c).pc = .transfer e)
      (hm : ((s.ep e).guards c).isLeader = true → s.waitersMutex e = none)
      (hw : s.toWake e c = none) :
      CallMoves s c timeUp ((s.setEp e (transferLeaderAndWake (s.ep e) c)).setCall c
        { s.call c with pc := .unregister })
  | notify {e : Ep} {w : ℕ} (hpc : (s.call c).pc = .notify e w) (hm : (s.call w).mutex = none) :
      CallMoves s c timeUp (((s.setWaitersMutex e none).setCall w (s.call w).notified).setCall c
        { s.call c with pc := .unregister })
  | loop {y : WaitCall} (h : LoopMoves (s.leads c) timeUp (s.call c) y) :
      CallMoves s c timeUp (s.setCall c y)

/-- Who is to be notified is the first of the waiters, and may sleep. -/
theorem Waits.leader_of_toWake {w : ℕ} (h : s.toWake e c = some w) :
    ((s.ep e).guards c).isLeader = true ∧ (s.ep e).waitersList.head? = some w ∧
      (s.call w).kind.sleeps = true := by
  unfold Waits.toWake at h
  split at h
  case isTrue hl => exact ⟨hl, (Option.filter_eq_some_iff.1 h).1, (Option.filter_eq_some_iff.1 h).2⟩
  case isFalse => cases h

/-- **What the next step of a call can be.** -/
theorem callStep_moves (h : callStep s c timeUp = some t) : CallMoves s c timeUp t := by
  unfold callStep at h
  dsimp only at h
  split at h
  case h_1 hpc =>
    obtain rfl := Option.some.inj h
    exact .acquire hpc
  case h_2 hpc =>
    obtain ⟨hm, h⟩ := Option.ite_none_right_eq_some.1 h
    obtain rfl := Option.some.inj h
    exact .register hpc hm
  case h_3 hpc =>
    split at h
    case h_1 hb =>
      obtain rfl := Option.some.inj h
      exact .return hpc hb
    case h_2 hb =>
      obtain ⟨hm, h⟩ := Option.ite_none_right_eq_some.1 h
      obtain rfl := Option.some.inj h
      exact .unregister hpc hb hm
  case h_4 hpc =>
    obtain ⟨hm, h⟩ := Option.ite_none_right_eq_some.1 h
    split at h <;> rename_i hw <;> obtain rfl := Option.some.inj h
    · exact .handOn hpc (hm (Waits.leader_of_toWake hw).1) hw
    · exact .transfer hpc hm hw
  case h_5 hpc =>
    obtain ⟨hm, h⟩ := Option.ite_none_right_eq_some.1 h
    obtain rfl := Option.some.inj h
    exact .notify hpc hm
  case h_6 =>
    obtain ⟨y, hy, rfl⟩ := Option.map_eq_some_iff.1 h
    exact .loop (loopStep_moves hy)

/-! ### The invariant -/

/-- Only calls that sleep work with the mutex. -/
theorem WaitPc.Holds.maySleep {pc : WaitPc} {locked : Bool} (h : pc.Holds locked) :
    pc.MaySleep := by
  cases pc <;> trivial

theorem WaitPc.Dozes.maySleep {pc : WaitPc} (h : pc.Dozes) : pc.MaySleep := by
  cases pc <;> trivial

/-- A call that is not at its loop is sound as long as it leaves the mutex alone. -/
theorem WaitCall.Sound.away (hx : x.Sound) (hm : y.mutex = x.mutex) (hxpc : ¬ x.pc.MaySleep)
    (hypc : ¬ y.pc.MaySleep) : y.Sound where
  mutex := by
    rw [hm, hx.mutex]
    exact iff_of_false (fun h => hxpc h.maySleep) fun h => hypc h.maySleep
  sleeps h := absurd h hypc
  doubt h := absurd (by rw [h]; trivial) hypc
  asleep h := absurd (by rw [h]; trivial) hypc
  relock h := absurd (by rw [h]; trivial) hypc

theorem Waits.setWaitersMutex_self (ep : Endpoint) :
    (s.setEp e ep).setWaitersMutex e (s.waitersMutex e) = s.setEp e ep := by
  unfold Waits.setWaitersMutex
  rw [Waits.setEp_waitersMutex, Function.update_eq_self]
  rfl

/-- What a leaver hands over to nobody who dozes is missed by nobody. -/
theorem WaitsInv.setGuard' (hs : WaitsInv s) {ep : Endpoint} (hep : ∃ leader, GuardInv ep leader)
    (hphase : ∀ d, d ≠ c → (ep.guards d).phase = ((s.ep e).guards d).phase)
    (hplaced : GuardsAt y
      (Function.update (fun e => ((s.ep e).guards c).phase) e (ep.guards c).phase))
    (hm : y.mutex = (s.call c).mutex)
    (hbuilt : ∀ e' ∈ (s.call c).built, s.waitersMutex e' ≠ none → e' ∈ y.built)
    (hlead : ∀ d, d ≠ c → (s.call d).pc.Dozes → (ep.guards d).isLeader = true →
      ((s.ep e).guards d).isLeader = true)
    (hx : ¬ (s.call c).pc.MaySleep) (hy : ¬ y.pc.MaySleep)
    (hxn : ∀ e w, (s.call c).pc ≠ .notify e w) (hyn : ∀ e w, y.pc ≠ .notify e w) :
    WaitsInv ((s.setEp e ep).setCall c y) := by
  have hset := hs.setGuard (o := s.waitersMutex e) ⟨hep, hphase, hplaced,
    (hs.sound c).away hm hx hy, fun h => hy h.maySleep, hbuilt,
    fun d hd hz hl => .inl (hlead d hd hz hl), hxn, .inl ⟨hyn, rfl⟩⟩
  rwa [Waits.setWaitersMutex_self] at hset

/-- A sleeper wakes up. -/
theorem WaitCall.Sound.roused {expired : Bool} (hx : x.Sound) (hpc : x.pc = .asleep)
    {m : Option MutexOwner} (hm : m ≠ some .caller) :
    WaitCall.Sound { x with pc := .roused expired, mutex := m } := by
  have hsl := hx.sleeps (by rw [hpc]; trivial)
  constructor <;> simp [WaitPc.Holds, hm, hsl]

/-- A sleeper has given its mutex back. -/
theorem WaitCall.Sound.mutex_of_asleep (hx : x.Sound) (hpc : x.pc = .asleep) :
    x.mutex ≠ some .caller := by
  intro hm
  have := hx.mutex.1 hm
  rw [hpc] at this
  exact this

/-- To be notified is to wake up, for a call that sleeps. -/
theorem WaitCall.Sound.notified (hx : x.Sound) : x.notified.Sound := by
  unfold WaitCall.notified
  split
  case isTrue hpc => exact hx.roused hpc (hx.mutex_of_asleep hpc)
  case isFalse => exact hx

/-- It has nothing to do with the guards. -/
theorem SameGuards.notified : SameGuards x x.notified := by
  unfold WaitCall.notified
  split
  case isTrue hpc => exact .of_plain rfl (by rw [hpc]; trivial) trivial
  case isFalse => exact .of_pc rfl rfl

theorem WaitCall.dozes_notified (h : x.notified.pc.Dozes) : x.pc.Dozes := by
  unfold WaitCall.notified at h
  split at h
  case isTrue => exact h.elim
  case isFalse => exact h

/-- Nobody who has been notified under its mutex dozes. -/
theorem WaitCall.Sound.not_dozes_notified (hx : x.Sound) (hm : x.mutex = none) :
    ¬ x.notified.pc.Dozes := by
  unfold WaitCall.notified
  split
  case isTrue => exact id
  case isFalse hpc =>
    intro h
    have hdoubt : x.pc = .doubt := by
      cases hp : x.pc <;> rw [hp] at h hpc <;> first | rfl | exact absurd rfl hpc | exact h.elim
    have hheld := hx.mutex.2 (by rw [hdoubt]; trivial)
    rw [hm] at hheld
    cases hheld

/-- The leaver is through with a successor that does not doze. -/
theorem WaitsInv.unnotify {w : ℕ} (hs : WaitsInv s) (hpc : (s.call c).pc = .notify e w)
    (hw : ¬ (s.call w).pc.Dozes) :
    WaitsInv ((s.setWaitersMutex e none).setCall c { s.call c with pc := .unregister }) := by
  have hcall : ∀ d, ((s.setWaitersMutex e none).setCall c
      { s.call c with pc := .unregister }).call d =
      if d = c then { s.call c with pc := .unregister } else s.call d := fun d => Waits.setCall_call
  have hheld := (hs.waitersMutex e c).2 ⟨w, hpc⟩
  refine ⟨hs.ep, fun d => ?_, fun d => ?_, fun e' d => ?_, fun d e' w' hd => ?_,
    fun d hd e' hl => ?_⟩
  · rw [hcall]
    split
    case isTrue hd =>
      rw [hd]
      have hplaced := hs.placed c
      exact ⟨hplaced.registered, by simpa [hpc, WaitPc.registering] using hplaced.acquired,
        by simpa [hpc, WaitPc.leaving] using hplaced.unregistered, by simp [WaitPc.todo],
        by simp [WaitPc.todo], nofun, hplaced.built_nodup⟩
    case isFalse => exact hs.placed d
  · rw [hcall]
    split
    case isTrue => exact (hs.sound c).away rfl (by rw [hpc]; exact id) id
    case isFalse => exact hs.sound d
  · rw [hcall, Waits.setCall_waitersMutex, Waits.setWaitersMutex_waitersMutex]
    have hold := hs.waitersMutex e' d
    by_cases he : e' = e
    · rw [if_pos he]
      refine iff_of_false nofun fun ⟨w', hw'⟩ => ?_
      split at hw'
      case isTrue => cases hw'
      case isFalse hd =>
        rw [he, hheld] at hold
        exact hd (Option.some.inj (hold.2 ⟨w', he ▸ hw'⟩)).symm
    · rw [if_neg he, hold]
      split
      case isTrue hd =>
        subst hd
        refine iff_of_false (fun ⟨w', hw'⟩ => he ?_) fun ⟨_, h⟩ => by cases h
        rw [hpc] at hw'
        exact (WaitPc.notify.inj hw').1.symm
      case isFalse => exact Iff.rfl
  · rw [hcall] at hd ⊢
    split at hd
    case isTrue => cases hd
    case isFalse =>
      obtain ⟨hne, hmem⟩ := hs.woken d e' w' hd
      refine ⟨hne, ?_⟩
      split
      case isTrue hw' => exact hw' ▸ hmem
      case isFalse => exact hmem
  · rw [hcall] at hd
    split at hd
    case isTrue => exact hd.elim
    case isFalse =>
      obtain ⟨w', hw'⟩ := hs.handed d hd e' hl
      refine ⟨w', ?_⟩
      rw [hcall, if_neg]
      · exact hw'
      · rintro rfl
        obtain ⟨-, rfl⟩ := WaitPc.notify.inj (hpc.symm.trans hw')
        exact hw hd

/-- A constructor asks for the lead. -/
theorem WaitsInv.acquire {requested : Bool} {todo : List (Ep × Bool)} (hs : WaitsInv s)
    (hpc : (s.call c).pc = .acquire ((e, requested) :: todo)) :
    WaitsInv ((s.setEp e (tryAcquire (s.ep e) c requested)).setCall c
      { s.call c with pc := .register e todo }) := by
  have hplaced := hs.placed c
  obtain ⟨leader, hinv⟩ := hs.ep e
  have habsent : ((s.ep e).guards c).phase = .absent :=
    hplaced.absent e (by rw [hpc]; exact List.mem_cons_self)
  have hguards := tryAcquire_guards (s.ep e) c requested
  refine hs.setGuard' ⟨_, hinv.tryAcquire habsent requested⟩ (fun d hd => ?_) ?_ rfl
    (fun e' he' _ => he') (fun d hd _ hl => ?_) ?_ id ?_ nofun
  · rw [hguards, if_neg hd]
  · rw [hguards, if_pos rfl]
    exact hplaced.acquire hpc
  · rwa [hguards, if_neg hd] at hl
  · rw [hpc]; exact id
  · rw [hpc]; nofun

/-- It registers its guard, leader or not. -/
theorem WaitsInv.register {todo : List (Ep × Bool)} (hs : WaitsInv s)
    (hpc : (s.call c).pc = .register e todo) :
    WaitsInv ((s.setEp e (registerWaiter (s.ep e) c)).setCall c
      { s.call c with pc := .acquire todo, built := e :: (s.call c).built }) := by
  have hplaced := hs.placed c
  obtain ⟨leader, hinv⟩ := hs.ep e
  have hacquired : ((s.ep e).guards c).phase = .acquired :=
    (hplaced.acquired e).2 (by rw [hpc]; rfl)
  have hguards := registerWaiter_guards (s.ep e) c
  refine hs.setGuard' ⟨_, hinv.registerWaiter hacquired⟩ (fun d hd => ?_) ?_ rfl
    (fun e' he' _ => List.mem_cons_of_mem e he') (fun d hd _ hl => ?_) ?_ id ?_ nofun
  · rw [hguards, if_neg hd]
  · rw [hguards, if_pos rfl]
    exact hplaced.register hpc
  · rwa [hguards, if_neg hd] at hl
  · rw [hpc]; exact id
  · rw [hpc]; nofun

/-- A destructor takes its guard off the waiters, while nobody notifies one of them. -/
theorem WaitsInv.unregister {built : List Ep} (hs : WaitsInv s)
    (hpc : (s.call c).pc = .unregister) (hb : (s.call c).built = e :: built)
    (hm : s.waitersMutex e = none) :
    WaitsInv ((s.setEp e (unregisterWaiter (s.ep e) c)).setCall c
      { s.call c with pc := .transfer e, built := built }) := by
  have hplaced := hs.placed c
  obtain ⟨leader, hinv⟩ := hs.ep e
  have hguards := unregisterWaiter_guards (s.ep e) c
  refine hs.setGuard' ⟨_, hinv.unregisterWaiter⟩ (fun d hd => ?_) ?_ rfl
    (fun e' he' hheld => ?_) (fun d hd _ hl => ?_) ?_ id ?_ nofun
  · rw [hguards, if_neg hd]
  · rw [hguards, if_pos rfl]
    exact hplaced.unregister hpc hb
  · rw [hb] at he'
    exact (List.mem_cons.1 he').resolve_left fun h => hheld (h ▸ hm)
  · rwa [hguards, if_neg hd] at hl
  · rw [hpc]; exact id
  · rw [hpc]; nofun

/-- The lead is handed to a successor that may sleep, with `waiters_mutex` held until it is
notified. -/
theorem WaitsInv.handOn {w : ℕ} (hs : WaitsInv s) (hpc : (s.call c).pc = .transfer e)
    (hm : s.waitersMutex e = none) (hw : s.toWake e c = some w) :
    WaitsInv (((s.setEp e (transferLeaderAndWake (s.ep e) c)).setWaitersMutex e
      (some c)).setCall c { s.call c with pc := .notify e w }) := by
  have hplaced := hs.placed c
  obtain ⟨hlead, hhead, hsleeps⟩ := Waits.leader_of_toWake hw
  obtain ⟨leader, hinv⟩ := hs.ep e
  have hun : ((s.ep e).guards c).phase = .unregistered :=
    (hplaced.unregistered e).2 (by rw [hpc]; rfl)
  have hwr : ((s.ep e).guards w).phase = .registered :=
    (hinv.mem_waiters w).1 (List.mem_of_mem_head? hhead)
  have hphase := hinv.transfer_phase hun
  refine hs.setGuard ⟨⟨_, hinv.transferLeaderAndWake hun⟩, fun d hd => ?_, ?_, ?_, id,
    fun e' he' _ => he', fun d hd _ hl => ?_, ?_, .inr ⟨hm, rfl, w, rfl, ?_, ?_⟩⟩
  · rw [hphase, if_neg hd]
  · rw [hphase, if_pos rfl]
    exact hplaced.transfer hpc rfl rfl rfl nofun
  · exact (hs.sound c).away rfl (by rw [hpc]; exact id) id
  · refine (transfer_isLeader hd hl).imp_right fun ⟨_, hd'⟩ => ?_
    rw [Option.some.inj (hhead.symm.trans hd')]
  · rw [hpc]; nofun
  · rintro rfl
    rw [hun] at hwr
    cases hwr
  · exact ((hs.placed w).registered e).1 hwr

/-- The guard is destroyed with nobody to notify. -/
theorem WaitsInv.transfer (hs : WaitsInv s) (hpc : (s.call c).pc = .transfer e)
    (hw : s.toWake e c = none) :
    WaitsInv ((s.setEp e (transferLeaderAndWake (s.ep e) c)).setCall c
      { s.call c with pc := .unregister }) := by
  have hplaced := hs.placed c
  obtain ⟨leader, hinv⟩ := hs.ep e
  have hun : ((s.ep e).guards c).phase = .unregistered :=
    (hplaced.unregistered e).2 (by rw [hpc]; rfl)
  have hphase := hinv.transfer_phase hun
  refine hs.setGuard' ⟨_, hinv.transferLeaderAndWake hun⟩ (fun d hd => ?_) ?_ rfl
    (fun e' he' _ => he') (fun d hd hz hl => ?_) ?_ id ?_ nofun
  · rw [hphase, if_neg hd]
  · rw [hphase, if_pos rfl]
    exact hplaced.transfer hpc rfl rfl rfl nofun
  · -- a successor that dozes would have had to be notified
    refine (transfer_isLeader hd hl).resolve_right fun ⟨hlead, hhead⟩ => ?_
    have hsleeps := (hs.sound d).sleeps hz.maySleep
    rw [Waits.toWake, if_pos hlead, hhead, Option.filter_some, if_pos hsleeps] at hw
    cases hw
  · rw [hpc]; exact id
  · rw [hpc]; nofun

/-- `notify_one`, under the mutex of the successor. -/
theorem WaitsInv.notify {w : ℕ} (hs : WaitsInv s) (hpc : (s.call c).pc = .notify e w)
    (hm : (s.call w).mutex = none) :
    WaitsInv (((s.setWaitersMutex e none).setCall w (s.call w).notified).setCall c
      { s.call c with pc := .unregister }) := by
  obtain ⟨hne, -⟩ := hs.woken c e w hpc
  have hs' : WaitsInv (s.setCall w (s.call w).notified) :=
    hs.setCall .notified (hs.sound w).notified fun h => .inl (WaitCall.dozes_notified h)
  have hc : (s.setCall w (s.call w).notified).call c = s.call c := by
    rw [Waits.setCall_call, if_neg hne.symm]
  have hw : (s.setCall w (s.call w).notified).call w = (s.call w).notified := by
    rw [Waits.setCall_call, if_pos rfl]
  have := hs'.unnotify (c := c) (by rw [hc, hpc]) (by
    rw [hw]
    exact (hs.sound w).not_dozes_notified hm)
  rwa [hc] at this

/-- **The invariant survives every step of a call.** -/
theorem WaitsInv.callStep (hs : WaitsInv s) (h : CallMoves s c timeUp t) : WaitsInv t := by
  cases h with
  | acquire hpc => exact hs.acquire hpc
  | register hpc hm => exact hs.register hpc
  | «return» hpc hb =>
      refine hs.setCall ⟨rfl, by rw [hpc]; rfl, by rw [hpc]; rfl, fun e w => ?_, nofun,
        fun _ => .inr hb, fun _ => List.nodup_nil⟩ ?_ fun h => h.elim
      · rw [hpc]
        exact iff_of_false nofun nofun
      · exact (hs.sound c).away rfl (by rw [hpc]; exact id) id
  | unregister hpc hb hm => exact hs.unregister hpc hb hm
  | handOn hpc hm hw => exact hs.handOn hpc hm hw
  | transfer hpc hm hw => exact hs.transfer hpc hw
  | notify hpc hm => exact hs.notify hpc hm
  | loop h => exact hs.setCall h.sameGuards (h.sound (hs.sound c)) h.dozes

/-- Nobody has called. -/
theorem waitsInv_init : WaitsInv waitsInit where
  ep _ := ⟨none, guardInv_init⟩
  placed _ := by constructor <;> simp [waitsInit, endpointInit, WaitPc.todo, WaitPc.registering,
    WaitPc.leaving]
  sound _ := by constructor <;> simp [waitsInit, WaitPc.Holds, WaitPc.MaySleep]
  waitersMutex e c := by simp [waitsInit]
  woken c e w h := by cases h
  handed c h := h.elim

/-- A call starts. -/
theorem SameGuards.enter (hpc : x.pc = .outside) (hb : x.built = []) (kind : WaitKind)
    (timed : Bool) (count : ℤ) :
    SameGuards x ⟨kind, timed, .acquire kind.guards, [], count, false, x.mutex⟩ := by
  refine ⟨hb.symm, by rw [hpc]; rfl, by rw [hpc]; rfl, fun e w => ?_, fun e _ => ?_, nofun,
    fun _ => ?_⟩
  · rw [hpc]
    exact iff_of_false nofun nofun
  · rw [hpc]
    cases e <;> simp [WaitPc.todo]
  · cases kind <;> simp [WaitPc.todo, WaitKind.guards]

/-- A call that has not started has no guards. -/
theorem GuardsAt.built_of_outside (hx : GuardsAt x phase) (hpc : x.pc = .outside) :
    x.built = [] := by
  refine List.eq_nil_iff_forall_not_mem.2 fun e he => ?_
  have habsent : phase e = .absent := hx.absent e (by rw [hpc]; cases e <;> simp [WaitPc.todo])
  rw [(hx.registered e).2 he] at habsent
  cases habsent

/-- `complete` counts down under the mutex. -/
theorem WaitCall.Sound.complete (hx : x.Sound) (hm : x.mutex = none) :
    WaitCall.Sound { x with count := x.count - 1, mutex := some .completer } := by
  have hholds : ¬ x.pc.Holds x.kind.locked := fun h => by
    have := hx.mutex.2 h
    rw [hm] at this
    cases this
  refine ⟨iff_of_false nofun hholds, hx.sleeps, fun hpc => ?_, fun _ _ => rfl, hx.relock⟩
  refine absurd ?_ hholds
  rw [show x.pc = .doubt from hpc]
  trivial

/-- `complete` gives the mutex back, when it has notified. -/
theorem WaitCall.Sound.notifyAll (hx : x.Sound) (hm : x.mutex = some .completer)
    (hpc : x.pc = .asleep → 0 < x.count) : WaitCall.Sound { x with mutex := none } := by
  refine ⟨?_, hx.sleeps, hx.doubt, fun h hc => absurd (hpc h) (Int.not_lt.2 hc), hx.relock⟩
  rw [← hx.mutex, hm]
  exact iff_of_false nofun nofun

/-- **The invariant survives every step.** -/
theorem WaitsInv.step (hs : WaitsInv s) {a : WaitAction} (h : waitStep s a = some t) :
    WaitsInv t := by
  cases a with
  | enter c kind timed count =>
      obtain ⟨⟨hpc, -⟩, h⟩ := Option.ite_none_right_eq_some.1 h
      obtain rfl := Option.some.inj h
      refine hs.setCall (.enter hpc ((hs.placed c).built_of_outside hpc) kind timed count) ?_
        fun h => h.elim
      exact (hs.sound c).away rfl (by rw [hpc]; exact id) id
  | step c timeUp =>
      obtain ⟨-, h⟩ := Option.ite_none_right_eq_some.1 h
      exact hs.callStep (callStep_moves h)
  | complete c =>
      obtain ⟨hm, h⟩ := Option.ite_none_right_eq_some.1 h
      obtain rfl := Option.some.inj h
      exact hs.setCall (.of_pc rfl rfl) ((hs.sound c).complete hm) .inl
  | notifyAll c =>
      obtain ⟨hm, h⟩ := Option.ite_none_right_eq_some.1 h
      obtain rfl := Option.some.inj h
      by_cases hpc : (s.call c).pc = .asleep
      · split
        case isTrue =>
          unfold WaitCall.notified
          rw [if_pos hpc]
          exact hs.setCall (.of_plain rfl (by rw [hpc]; trivial) trivial)
            ((hs.sound c).roused hpc nofun) fun h => h.elim
        case isFalse hcond =>
          have hcount : 0 < (s.call c).count := by
            by_contra hle
            exact hcond (.inr (decide_eq_true (Int.not_lt.1 hle)))
          exact hs.setCall (.of_pc rfl rfl) ((hs.sound c).notifyAll hm fun _ => hcount) .inl
      · have hsame : ({ s.call c with mutex := none } : WaitCall).notified =
            { s.call c with mutex := none } := if_neg hpc
        rw [hsame, ite_self]
        exact hs.setCall (.of_pc rfl rfl) ((hs.sound c).notifyAll hm fun h => absurd h hpc) .inl
  | rouse c expired =>
      obtain ⟨⟨hpc, -⟩, h⟩ := Option.ite_none_right_eq_some.1 h
      obtain rfl := Option.some.inj h
      exact hs.setCall (.of_plain rfl (by rw [hpc]; trivial) trivial)
        ((hs.sound c).roused hpc ((hs.sound c).mutex_of_asleep hpc)) fun h => h.elim

/-- **No wake-up is lost.**  In every state of every run, whoever sleeps with its requests
completed has `complete` between its store and `notify_all`, and whoever sleeps with a guard that
leads has the leaver that handed over on the way to `notify_one`. -/
theorem no_lost_wakeup {as : List WaitAction} (h : exec waitStep waitsInit as = some s)
    (hpc : (s.call c).pc = .asleep) :
    ((s.call c).completed = true → (s.call c).mutex = some .completer) ∧
      (s.leads c = true → ∃ w e, (s.call w).pc = .notify e c) := by
  have hs : WaitsInv s := exec_invariant (fun _ _ _ hs => hs.step) waitsInv_init h
  refine ⟨fun hcount => (hs.sound c).asleep hpc (of_decide_eq_true hcount), fun hl => ?_⟩
  obtain ⟨e, -, hlead⟩ := List.any_eq_true.1 hl
  obtain ⟨w, hw⟩ := hs.handed c (by rw [hpc]; trivial) e hlead
  exact ⟨w, e, hw⟩

/-- The call 1 sleeps, and the leader 0, whose request is completed, has just handed over. -/
def handingOver : List WaitAction :=
  [.enter 0 (.wait .shm) false 1] ++ List.replicate 6 (.step 0 false) ++
    [.enter 1 (.waitNum true false) true 2] ++ List.replicate 10 (.step 1 false) ++
    [.complete 0, .notifyAll 0] ++ List.replicate 5 (.step 0 false)

theorem no_lost_wakeup_handingOver : ∃ s, exec waitStep waitsInit handingOver = some s ∧
    (s.call 1).pc = .asleep ∧ s.leads 1 = true ∧
    ((s.call 1).completed = true → (s.call 1).mutex = some .completer) ∧
      (s.leads 1 = true → ∃ w e, (s.call w).pc = .notify e 1) := by
  have hrun := (Option.some_get (x := exec waitStep waitsInit handingOver) (by decide)).symm
  have hpc : (((exec waitStep waitsInit handingOver).get (by decide)).call 1).pc = .asleep := by
    decide
  exact ⟨_, hrun, hpc, by decide, no_lost_wakeup hrun hpc⟩

end Progress
end Lfi
