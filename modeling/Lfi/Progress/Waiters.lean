/-
# Who sleeps is woken

`wait` and `wait_num` (`src/src/impl/wait.cpp`) with their guards, for any number of threads, one
step being what a thread does up to the next point at which another can come between.  A call
drives its endpoint while a guard of it leads; else it sleeps on a condition variable

    auto wait_predicate = [&]() { return request.is_completed() || guard.leader(); };
    request.cv.wait(request_lock, wait_predicate);

until it is told that one of the two has come true.  It is told so from two sides, and only one of
them sets what the predicate reads under the mutex of the sleeper: `complete` does.  A leader that
leaves stores to `successor->m_is_leader` first and locks `*successor->m_mutex` only for
`notify_one`, so the store can fall between the predicate and the sleep of the successor.

`WaitsInv` is what makes up for it: a call that has found the predicate false, or sleeps on it, has
somebody on the way to notify it whenever the predicate is true.  That its own loop keeps this is
shown here; `Lfi.Progress.Wakeups` has the guards, and the result.

The mutex of a request is left out where no sleeper needs it: under it, `test` constructs and
destroys its guard.
-/

import Lfi.Progress.Guard
import Mathlib.Data.Int.Notation

namespace Lfi
namespace Progress

open Runs

/-- `shm_ep` or `peer_ep`. -/
inductive Ep where
  | shm
  | peer
  deriving DecidableEq, Repr

/-- The function called: on a request of an endpoint, or with `need_progress_in_shm` and
`need_progress_in_peer`. -/
inductive WaitKind where
  | test (e : Ep)
  | testNum (shm peer : Bool)
  | wait (e : Ep)
  | waitNum (shm peer : Bool)
  deriving DecidableEq, Repr

/-- The guards it constructs, with `requested`. -/
def WaitKind.guards : WaitKind → List (Ep × Bool)
  | .test e | .wait e => [(e, true)]
  | .testNum shm peer | .waitNum shm peer => [(.shm, shm), (.peer, peer)]

/-- It can sleep: its guards are given a mutex and a condition variable. -/
def WaitKind.sleeps : WaitKind → Bool
  | .test _ | .testNum .. => false
  | .wait _ | .waitNum .. => true

/-- Its loop is run under the mutex. -/
def WaitKind.locked : WaitKind → Bool
  | .wait _ => true
  | _ => false

/-- A `wait_num` that finds its requests completed constructs no guard. -/
def WaitKind.starts (count : ℤ) : WaitKind → Bool
  | .waitNum .. => decide (0 < count)
  | _ => true

/-- What a call does next: the constructors of its guards, the parts of its loop, and the
destructors. -/
inductive WaitPc where
  | outside
  | acquire (todo : List (Ep × Bool))
  | register (e : Ep) (todo : List (Ep × Bool))
  /-- it takes the mutex, in `wait` for the loop, in `wait_num` for the sleep -/
  | lock
  /-- the condition of the loop -/
  | head
  /-- `leader()` -/
  | ask
  /-- `progress(true)`, in `wait` with the loop around it -/
  | drive
  /-- `request_lock.lock()` after that loop -/
  | relock
  /-- `wait_predicate`, the time being over in `wait_for` or not -/
  | check (expired : Bool)
  /-- the predicate was false -/
  | doubt
  | asleep
  /-- awake, without the mutex as yet -/
  | roused (expired : Bool)
  | unregister
  | transfer (e : Ep)
  /-- `waiters_mutex` is held, `successor->m_is_leader` is set -/
  | notify (e : Ep) (successor : ℕ)
  | returned
  deriving DecidableEq, Repr

/-- Who holds a mutex. -/
inductive MutexOwner where
  | caller
  | completer
  deriving DecidableEq, Repr

/-- A call with its `wait_count` (of `wait`, 1 until the request is completed), `is_timeout`, the
guards it has constructed and its mutex: `request.mutex` or `shared_wait.wait_mutex`. -/
structure WaitCall where
  kind : WaitKind
  timed : Bool
  pc : WaitPc
  built : List Ep
  count : ℤ
  isTimeout : Bool
  mutex : Option MutexOwner
  deriving DecidableEq, Repr

/-- The calls and both endpoints, with who holds `waiters_mutex` across steps. -/
structure Waits where
  ep : Ep → Endpoint
  waitersMutex : Ep → Option ℕ
  call : ℕ → WaitCall

/-- A call starts; it takes its next step, `timeUp` being what the clock says if it is read;
`complete` counts a completion down, and notifies; a sleeper wakes up by itself, or because its
time is over. -/
inductive WaitAction where
  | enter (c : ℕ) (kind : WaitKind) (timed : Bool) (count : ℤ)
  | step (c : ℕ) (timeUp : Bool)
  | complete (c : ℕ)
  | notifyAll (c : ℕ)
  | rouse (c : ℕ) (expired : Bool)
  deriving DecidableEq, Repr

/-- Nobody has called. -/
def waitsInit : Waits :=
  ⟨fun _ => endpointInit, fun _ => none,
    fun _ => ⟨.test .shm, false, .outside, [], 0, false, none⟩⟩

/-- The state with the call `c` replaced. -/
def Waits.setCall (s : Waits) (c : ℕ) (x : WaitCall) : Waits :=
  { s with call := Function.update s.call c x }

/-- The state with the endpoint `e` replaced. -/
def Waits.setEp (s : Waits) (e : Ep) (ep : Endpoint) : Waits :=
  { s with ep := Function.update s.ep e ep }

/-- The state with `waiters_mutex` of `e` held by `owner`. -/
def Waits.setWaitersMutex (s : Waits) (e : Ep) (owner : Option ℕ) : Waits :=
  { s with waitersMutex := Function.update s.waitersMutex e owner }

/-- A guard of the call leads. -/
def Waits.leads (s : Waits) (c : ℕ) : Bool :=
  (s.call c).built.any fun e => ((s.ep e).guards c).isLeader

/-- `is_completed()`, or `wait_count <= 0`. -/
def WaitCall.completed (x : WaitCall) : Bool := decide (x.count ≤ 0)

/-- The mutex given back, where the loop was run under it. -/
def WaitCall.leave (x : WaitCall) : WaitCall :=
  if x.kind.locked then { x with mutex := none } else x

/-- What follows the constructors. -/
def WaitKind.body : WaitKind → WaitPc
  | .test _ | .testNum .. => .drive
  | .wait _ => .lock
  | .waitNum .. => .head

/-- The next step of a call between its constructors and destructors, where a guard of it `leads`
and the time is `timeUp` or not. -/
def loopStep (leads timeUp : Bool) (x : WaitCall) : Option WaitCall :=
  match x.pc with
  | .acquire [] => some { x with pc := x.kind.body }
  | .lock =>
      if x.mutex = none then
        some { x with mutex := some .caller, pc := if x.kind.locked then .head else .check false }
      else none
  | .head =>
      if x.completed || x.isTimeout then some { x.leave with pc := .unregister }
      else some { x with pc := .ask }
  | .ask =>
      if leads then some { x.leave with pc := .drive }
      else if timeUp then some { x with isTimeout := true, pc := .head }
      else some { x with pc := if x.kind.locked then .check false else .lock }
  | .drive =>
      match x.kind with
      | .wait _ =>
          if x.completed || x.isTimeout then some { x with pc := .relock }
          else some { x with isTimeout := timeUp }
      | .waitNum .. => some { x with isTimeout := x.isTimeout || timeUp, pc := .head }
      | .test _ | .testNum .. => some { x with pc := .unregister }
  | .relock =>
      if x.mutex = none then
        some { x with mutex := some .caller, isTimeout := x.isTimeout || timeUp, pc := .head }
      else none
  | .check expired =>
      if x.completed || leads || expired then
        some { x with
          mutex := if x.kind.locked then x.mutex else none
          isTimeout := x.isTimeout || timeUp
          pc := .head }
      else some { x with pc := .doubt }
  -- the mutex is given back and the thread is asleep in one step, as `wait` of a condition
  -- variable promises
  | .doubt => some { x with mutex := none, pc := .asleep }
  | .roused expired =>
      if x.mutex = none then some { x with mutex := some .caller, pc := .check expired } else none
  | _ => none

/-- A notified call, if it sleeps. -/
def WaitCall.notified (x : WaitCall) : WaitCall :=
  if x.pc = .asleep then { x with pc := .roused false } else x

/-- Whom the guard of `c` has to notify when it hands on its leadership. -/
def Waits.toWake (s : Waits) (e : Ep) (c : ℕ) : Option ℕ :=
  if ((s.ep e).guards c).isLeader then
    (s.ep e).waitersList.head?.filter fun w => (s.call w).kind.sleeps
  else none

/-- The next step of the call `c`. -/
def callStep (s : Waits) (c : ℕ) (timeUp : Bool) : Option Waits :=
  let x := s.call c
  match x.pc with
  | .acquire ((e, requested) :: todo) =>
      some ((s.setEp e (tryAcquire (s.ep e) c requested)).setCall c
        { x with pc := .register e todo })
  | .register e todo =>
      if s.waitersMutex e = none then
        some ((s.setEp e (registerWaiter (s.ep e) c)).setCall c
          { x with pc := .acquire todo, built := e :: x.built })
      else none
  | .unregister =>
      match x.built with
      | [] => some (s.setCall c { x with pc := .returned })
      | e :: built =>
          if s.waitersMutex e = none then
            some ((s.setEp e (unregisterWaiter (s.ep e) c)).setCall c
              { x with pc := .transfer e, built := built })
          else none
  | .transfer e =>
      if ((s.ep e).guards c).isLeader = true → s.waitersMutex e = none then
        let t := s.setEp e (transferLeaderAndWake (s.ep e) c)
        match s.toWake e c with
        | some w => some ((t.setWaitersMutex e (some c)).setCall c { x with pc := .notify e w })
        | none => some (t.setCall c { x with pc := .unregister })
      else none
  | .notify e w =>
      if (s.call w).mutex = none then
        some (((s.setWaitersMutex e none).setCall w (s.call w).notified).setCall c
          { x with pc := .unregister })
      else none
  | _ => (loopStep (s.leads c) timeUp x).map (s.setCall c)

/-- One step. -/
def waitStep (s : Waits) : WaitAction → Option Waits
  | .enter c kind timed count =>
      if (s.call c).pc = .outside ∧ kind.starts count = true then
        some (s.setCall c ⟨kind, timed, .acquire kind.guards, [], count, false, (s.call c).mutex⟩)
      else none
  | .step c timeUp => if timeUp = true → (s.call c).timed = true then callStep s c timeUp else none
  | .complete c =>
      if (s.call c).mutex = none then
        some (s.setCall c
          { s.call c with count := (s.call c).count - 1, mutex := some .completer })
      else none
  | .notifyAll c =>
      if (s.call c).mutex = some .completer then
        let x := { s.call c with mutex := none }
        some (s.setCall c (if x.kind.locked ∨ x.completed then x.notified else x))
      else none
  | .rouse c expired =>
      if (s.call c).pc = .asleep ∧ (expired = true → (s.call c).timed = true) then
        some (s.setCall c { s.call c with pc := .roused expired })
      else none

/-! ### Where the guards of a call are -/

/-- The endpoints whose guards are still to be constructed. -/
def WaitPc.todo : WaitPc → List Ep
  | .outside => [.shm, .peer]
  | .acquire todo | .register _ todo => todo.map Prod.fst
  | _ => []

/-- The endpoint whose guard has to register. -/
def WaitPc.registering : WaitPc → Option Ep
  | .register e _ => some e
  | _ => none

/-- The endpoint whose guard has unregistered. -/
def WaitPc.leaving : WaitPc → Option Ep
  | .transfer e => some e
  | _ => none

/-- It has found the predicate false, and has not been woken. -/
def WaitPc.Dozes : WaitPc → Prop
  | .doubt | .asleep => True
  | _ => False

/-- It has the mutex. -/
def WaitPc.Holds (locked : Bool) : WaitPc → Prop
  | .head | .ask => locked = true
  | .check _ | .doubt => True
  | _ => False

/-- It is between the parts of a loop that sleeps. -/
def WaitPc.MaySleep : WaitPc → Prop
  | .lock | .head | .ask | .relock | .check _ | .doubt | .asleep | .roused _ => True
  | _ => False

instance (pc : WaitPc) : Decidable pc.Dozes := by
  cases pc <;> unfold WaitPc.Dozes <;> infer_instance

/-- No guard is on its way in or out. -/
def WaitPc.Plain : WaitPc → Prop
  | .outside | .acquire (_ :: _) | .register .. | .transfer _ | .notify .. | .returned => False
  | _ => True

/-- The phases of the guards of a call, by where it stands. -/
structure GuardsAt (x : WaitCall) (phase : Ep → Phase) : Prop where
  registered : ∀ e, phase e = .registered ↔ e ∈ x.built
  acquired : ∀ e, phase e = .acquired ↔ x.pc.registering = some e
  unregistered : ∀ e, phase e = .unregistered ↔ x.pc.leaving = some e
  absent : ∀ e ∈ x.pc.todo, phase e = .absent
  todo_nodup : x.pc.todo.Nodup
  returned : x.pc = .returned → x.built = []
  built_nodup : x.built.Nodup

/-- What holds of a call by itself.  Whoever sleeps with everything completed is about to be
notified of it. -/
structure WaitCall.Sound (x : WaitCall) : Prop where
  mutex : x.mutex = some .caller ↔ x.pc.Holds x.kind.locked
  sleeps : x.pc.MaySleep → x.kind.sleeps = true
  doubt : x.pc = .doubt → 0 < x.count
  asleep : x.pc = .asleep → x.count ≤ 0 → x.mutex = some .completer
  relock : x.pc = .relock → x.kind.locked = true

/-- What holds at every point of a run. -/
structure WaitsInv (s : Waits) : Prop where
  ep : ∀ e, ∃ leader, GuardInv (s.ep e) leader
  placed : ∀ c, GuardsAt (s.call c) fun e => ((s.ep e).guards c).phase
  sound : ∀ c, (s.call c).Sound
  waitersMutex : ∀ e c, s.waitersMutex e = some c ↔ ∃ w, (s.call c).pc = .notify e w
  woken : ∀ c e w, (s.call c).pc = .notify e w → w ≠ c ∧ e ∈ (s.call w).built
  handed : ∀ c, (s.call c).pc.Dozes → ∀ e, ((s.ep e).guards c).isLeader = true →
    ∃ w, (s.call w).pc = .notify e c

variable {s t : Waits} {c d : ℕ} {e : Ep} {x y : WaitCall} {phase : Ep → Phase}
  {leads timeUp : Bool}

theorem Waits.setCall_call : (s.setCall c x).call d = if d = c then x else s.call d := by
  simp only [Waits.setCall, Function.update_apply]

@[simp] theorem Waits.setCall_ep : (s.setCall c x).ep = s.ep := rfl

@[simp] theorem Waits.setCall_waitersMutex : (s.setCall c x).waitersMutex = s.waitersMutex := rfl

@[simp] theorem Waits.setEp_call (ep : Endpoint) : (s.setEp e ep).call = s.call := rfl

@[simp] theorem Waits.setEp_waitersMutex (ep : Endpoint) :
    (s.setEp e ep).waitersMutex = s.waitersMutex := rfl

@[simp] theorem Waits.setWaitersMutex_call (o : Option ℕ) :
    (s.setWaitersMutex e o).call = s.call := rfl

@[simp] theorem Waits.setWaitersMutex_ep (o : Option ℕ) : (s.setWaitersMutex e o).ep = s.ep := rfl

/-- Two calls with their guards in the same places. -/
structure SameGuards (x y : WaitCall) : Prop where
  built : y.built = x.built
  registering : y.pc.registering = x.pc.registering
  leaving : y.pc.leaving = x.pc.leaving
  notify : ∀ e w, y.pc = .notify e w ↔ x.pc = .notify e w
  todo : ∀ e ∈ y.pc.todo, e ∈ x.pc.todo
  returned : y.pc = .returned → x.pc = .returned ∨ x.built = []
  nodup : x.pc.todo.Nodup → y.pc.todo.Nodup

theorem SameGuards.of_pc (hbuilt : y.built = x.built) (hpc : y.pc = x.pc) : SameGuards x y := by
  refine ⟨hbuilt, by rw [hpc], by rw [hpc], fun e w => by rw [hpc], fun e he => hpc ▸ he,
    fun h => .inl (hpc ▸ h), fun h => hpc ▸ h⟩

theorem SameGuards.of_plain (hbuilt : y.built = x.built) (hx : x.pc.Plain) (hy : y.pc.Plain) :
    SameGuards x y := by
  have hplain : ∀ pc : WaitPc, pc.Plain → pc.registering = none ∧ pc.leaving = none ∧
      pc.todo = [] ∧ pc ≠ .returned ∧ ∀ e w, pc ≠ .notify e w := by
    intro pc hpc
    cases pc with
    | acquire todo =>
        cases todo with
        | nil => exact ⟨rfl, rfl, rfl, by simp, by simp⟩
        | cons => exact hpc.elim
    | outside | register | transfer | notify | returned => exact hpc.elim
    | _ => exact ⟨rfl, rfl, rfl, by simp, by simp⟩
  obtain ⟨hxr, hxl, hxt, -, hxn⟩ := hplain _ hx
  obtain ⟨hyr, hyl, hyt, hyret, hyn⟩ := hplain _ hy
  refine ⟨hbuilt, hyr.trans hxr.symm, hyl.trans hxl.symm, fun e w => ?_, ?_,
    fun h => absurd h hyret, ?_⟩
  · exact iff_of_false (hyn e w) (hxn e w)
  · simp [hyt]
  · simp [hyt]

theorem GuardsAt.same (hx : GuardsAt x phase) (h : SameGuards x y) : GuardsAt y phase where
  registered e := by rw [h.built, hx.registered]
  acquired e := by rw [h.registering, hx.acquired]
  unregistered e := by rw [h.leaving, hx.unregistered]
  absent e he := hx.absent e (h.todo e he)
  todo_nodup := h.nodup hx.todo_nodup
  returned hpc := h.built ▸ (h.returned hpc).elim hx.returned id
  built_nodup := h.built ▸ hx.built_nodup

/-- Where a live guard can be. -/
theorem GuardsAt.live (hx : GuardsAt x phase) (h : (phase e).Live) :
    e ∈ x.built ∨ x.pc.registering = some e ∨ x.pc.leaving = some e := by
  rw [← hx.registered, ← hx.acquired, ← hx.unregistered]
  cases hp : phase e
  case absent => exact absurd hp h.1
  case destroyed => exact absurd hp h.2
  all_goals simp

/-- A guard that leads is one of those the call has constructed, when none of them is on its way
in or out. -/
theorem WaitsInv.mem_built (hs : WaitsInv s) (hl : ((s.ep e).guards c).isLeader = true)
    (hin : (s.call c).pc.registering = none) (hout : (s.call c).pc.leaving = none) :
    e ∈ (s.call c).built := by
  obtain ⟨leader, hinv⟩ := hs.ep e
  rcases (hs.placed c).live (hinv.live c ((hinv.isLeader_iff c).1 hl)) with h | h | h
  · exact h
  · rw [hin] at h; cases h
  · rw [hout] at h; cases h

theorem WaitPc.Dozes.registering {pc : WaitPc} (h : pc.Dozes) : pc.registering = none := by
  cases pc <;> first | rfl | exact h.elim

theorem WaitPc.Dozes.leaving {pc : WaitPc} (h : pc.Dozes) : pc.leaving = none := by
  cases pc <;> first | rfl | exact h.elim

/-- A call moves, and its guards do not. -/
theorem WaitsInv.setCall (hs : WaitsInv s) (h : SameGuards (s.call c) y) (hsound : y.Sound)
    (hdoze : y.pc.Dozes → (s.call c).pc.Dozes ∨ s.leads c = false) :
    WaitsInv (s.setCall c y) := by
  have hnotify : ∀ d e w, ((s.setCall c y).call d).pc = .notify e w ↔
      (s.call d).pc = .notify e w := fun d e w => by
    rw [Waits.setCall_call]
    split
    case isTrue hd => rw [hd, h.notify]
    case isFalse => rfl
  refine ⟨hs.ep, fun d => ?_, fun d => ?_, fun e d => ?_, fun d e w hd => ?_, fun d hd e hl => ?_⟩
  · rw [Waits.setCall_call]
    split
    case isTrue hd => exact hd ▸ (hs.placed c).same h
    case isFalse => exact hs.placed d
  · rw [Waits.setCall_call]
    split
    case isTrue => exact hsound
    case isFalse => exact hs.sound d
  · simp only [hnotify]
    exact hs.waitersMutex e d
  · obtain ⟨hne, hbuilt⟩ := hs.woken d e w ((hnotify d e w).1 hd)
    refine ⟨hne, ?_⟩
    rw [Waits.setCall_call]
    split
    case isTrue hw => rw [h.built, ← hw]; exact hbuilt
    case isFalse => exact hbuilt
  · simp only [hnotify]
    rw [Waits.setCall_call] at hd
    split at hd
    case isTrue hdc =>
      subst hdc
      rcases hdoze hd with hold | hnot
      · exact hs.handed d hold e hl
      · have hmem : e ∈ (s.call d).built :=
          hs.mem_built hl (h.registering ▸ hd.registering) (h.leaving ▸ hd.leaving)
        simp only [Waits.leads, List.any_eq_false] at hnot
        exact absurd hl (hnot e hmem)
    case isFalse => exact hs.handed d hd e hl

/-! ### The loop -/

@[simp] theorem WaitCall.leave_built : x.leave.built = x.built := by
  unfold WaitCall.leave; split <;> rfl

@[simp] theorem WaitCall.leave_kind : x.leave.kind = x.kind := by
  unfold WaitCall.leave; split <;> rfl

@[simp] theorem WaitCall.leave_count : x.leave.count = x.count := by
  unfold WaitCall.leave; split <;> rfl

/-- What a call between its constructors and destructors does next. -/
inductive LoopMoves (leads timeUp : Bool) (x : WaitCall) : WaitCall → Prop where
  | begin (hpc : x.pc = .acquire []) : LoopMoves leads timeUp x { x with pc := x.kind.body }
  | lock (hpc : x.pc = .lock) (hm : x.mutex = none) :
      LoopMoves leads timeUp x { x with
        mutex := some .caller, pc := if x.kind.locked then .head else .check false }
  | exit (hpc : x.pc = .head) (hdone : (x.completed || x.isTimeout) = true) :
      LoopMoves leads timeUp x { x.leave with pc := .unregister }
  | again (hpc : x.pc = .head) (hdone : (x.completed || x.isTimeout) = false) :
      LoopMoves leads timeUp x { x with pc := .ask }
  | lead (hpc : x.pc = .ask) (hl : leads = true) :
      LoopMoves leads timeUp x { x.leave with pc := .drive }
  | late (hpc : x.pc = .ask) (hl : leads = false) (ho : timeUp = true) :
      LoopMoves leads timeUp x { x with isTimeout := true, pc := .head }
  | follow (hpc : x.pc = .ask) (hl : leads = false) (ho : timeUp = false) :
      LoopMoves leads timeUp x { x with pc := if x.kind.locked then .check false else .lock }
  | driven (hpc : x.pc = .drive) (hk : x.kind.locked = true)
      (hdone : (x.completed || x.isTimeout) = true) :
      LoopMoves leads timeUp x { x with pc := .relock }
  | progress (hpc : x.pc = .drive) (hk : x.kind.locked = true)
      (hdone : (x.completed || x.isTimeout) = false) :
      LoopMoves leads timeUp x { x with isTimeout := timeUp }
  | progressOnce (hpc : x.pc = .drive) (hk : x.kind.locked = false) (hsl : x.kind.sleeps = true) :
      LoopMoves leads timeUp x { x with isTimeout := x.isTimeout || timeUp, pc := .head }
  | tested (hpc : x.pc = .drive) (hsl : x.kind.sleeps = false) :
      LoopMoves leads timeUp x { x with pc := .unregister }
  | relock (hpc : x.pc = .relock) (hm : x.mutex = none) :
      LoopMoves leads timeUp x { x with
        mutex := some .caller, isTimeout := x.isTimeout || timeUp, pc := .head }
  | heard {expired} (hpc : x.pc = .check expired)
      (hpred : (x.completed || leads || expired) = true) :
      LoopMoves leads timeUp x { x with
        mutex := if x.kind.locked then x.mutex else none
        isTimeout := x.isTimeout || timeUp
        pc := .head }
  | doubt {expired} (hpc : x.pc = .check expired)
      (hpred : (x.completed || leads || expired) = false) :
      LoopMoves leads timeUp x { x with pc := .doubt }
  | sleep (hpc : x.pc = .doubt) : LoopMoves leads timeUp x { x with mutex := none, pc := .asleep }
  | wake {expired} (hpc : x.pc = .roused expired) (hm : x.mutex = none) :
      LoopMoves leads timeUp x { x with mutex := some .caller, pc := .check expired }

theorem loopStep_moves (h : loopStep leads timeUp x = some y) : LoopMoves leads timeUp x y := by
  unfold loopStep at h
  split at h <;> rename_i hpc
  case h_1 =>
    obtain rfl := Option.some.inj h
    exact .begin hpc
  case h_2 =>
    obtain ⟨hm, h⟩ := Option.ite_none_right_eq_some.1 h
    obtain rfl := Option.some.inj h
    exact .lock hpc hm
  case h_3 =>
    split at h <;> rename_i hdone <;> obtain rfl := Option.some.inj h
    · exact .exit hpc hdone
    · exact .again hpc (Bool.eq_false_iff.2 hdone)
  case h_4 =>
    split at h
    case isTrue hl =>
      obtain rfl := Option.some.inj h
      exact .lead hpc hl
    case isFalse hl =>
      split at h <;> rename_i ho <;> obtain rfl := Option.some.inj h
      · exact .late hpc (Bool.eq_false_iff.2 hl) ho
      · exact .follow hpc (Bool.eq_false_iff.2 hl) (Bool.eq_false_iff.2 ho)
  case h_5 =>
    split at h <;> rename_i hk
    case h_1 =>
      split at h <;> rename_i hdone <;> obtain rfl := Option.some.inj h
      · exact .driven hpc (by rw [hk]; rfl) hdone
      · exact .progress hpc (by rw [hk]; rfl) (Bool.eq_false_iff.2 hdone)
    case h_2 =>
      obtain rfl := Option.some.inj h
      exact .progressOnce hpc (by rw [hk]; rfl) (by rw [hk]; rfl)
    all_goals
      obtain rfl := Option.some.inj h
      exact .tested hpc (by rw [hk]; rfl)
  case h_6 =>
    obtain ⟨hm, h⟩ := Option.ite_none_right_eq_some.1 h
    obtain rfl := Option.some.inj h
    exact .relock hpc hm
  case h_7 =>
    split at h <;> rename_i hpred <;> obtain rfl := Option.some.inj h
    · exact .heard hpc hpred
    · exact .doubt hpc (Bool.eq_false_iff.2 hpred)
  case h_8 =>
    obtain rfl := Option.some.inj h
    exact .sleep hpc
  case h_9 =>
    obtain ⟨hm, h⟩ := Option.ite_none_right_eq_some.1 h
    obtain rfl := Option.some.inj h
    exact .wake hpc hm
  case h_10 => cases h

/-- Nobody dozes off with a guard that leads. -/
theorem LoopMoves.dozes (h : LoopMoves leads timeUp x y) (hd : y.pc.Dozes) :
    x.pc.Dozes ∨ leads = false := by
  cases h with
  | doubt hpc hpred =>
      simp only [Bool.or_eq_false_iff] at hpred
      exact .inr hpred.1.2
  | sleep hpc => exact .inl (by rw [hpc]; trivial)
  | begin => cases hk : x.kind <;> simp [hk, WaitKind.body, WaitPc.Dozes] at hd
  | lock | follow => cases hk : x.kind.locked <;> simp [hk, WaitPc.Dozes] at hd
  | progress => exact .inl hd
  | _ => exact hd.elim

theorem WaitKind.sleeps_of_locked {k : WaitKind} (h : k.locked = true) : k.sleeps = true := by
  cases k <;> first | rfl | cases h

theorem LoopMoves.sameGuards (h : LoopMoves leads timeUp x y) : SameGuards x y := by
  cases h with
  | begin hpc =>
      refine .of_plain rfl (by rw [hpc]; trivial) ?_
      cases x.kind <;> simp [WaitKind.body, WaitPc.Plain]
  | lock hpc | follow hpc =>
      refine .of_plain rfl (by rw [hpc]; trivial) ?_
      cases x.kind.locked <;> simp [WaitPc.Plain]
  | progress => exact .of_pc rfl rfl
  | exit hpc | lead hpc =>
      exact .of_plain WaitCall.leave_built (by rw [hpc]; trivial) trivial
  | again hpc | late hpc | driven hpc | progressOnce hpc | tested hpc | relock hpc | heard hpc
  | doubt hpc | sleep hpc | wake hpc =>
      exact .of_plain rfl (by rw [hpc]; trivial) trivial

theorem LoopMoves.sound (hx : x.Sound) (h : LoopMoves leads timeUp x y) : y.Sound := by
  have hm := hx.mutex
  have hsl := hx.sleeps
  cases h with
  | begin hpc =>
      rw [hpc] at hm
      cases hk : x.kind <;> constructor <;>
        simp_all [WaitKind.body, WaitPc.Holds, WaitPc.MaySleep, WaitKind.sleeps, WaitKind.locked]
  | lock hpc | follow hpc =>
      rw [hpc] at hm hsl
      cases hk : x.kind.locked <;> constructor <;> simp_all [WaitPc.Holds, WaitPc.MaySleep]
  | exit hpc | lead hpc | heard hpc =>
      rw [hpc] at hm hsl
      cases hk : x.kind.locked <;> constructor <;>
        simp_all [WaitPc.Holds, WaitPc.MaySleep, WaitCall.leave]
  | doubt hpc hpred =>
      rw [hpc] at hm hsl
      constructor <;> simp_all [WaitPc.Holds, WaitPc.MaySleep, WaitCall.completed]
  | sleep hpc =>
      have hpos := hx.doubt hpc
      rw [hpc] at hm hsl
      constructor <;> simp_all [WaitPc.Holds, WaitPc.MaySleep]
  | driven hpc hk =>
      have hk' := WaitKind.sleeps_of_locked hk
      rw [hpc] at hm
      constructor <;> simp_all [WaitPc.Holds]
  | relock hpc =>
      have hk := hx.relock hpc
      rw [hpc] at hsl
      constructor <;> simp_all [WaitPc.Holds, WaitPc.MaySleep]
  | again hpc | late hpc | progress hpc | progressOnce hpc | tested hpc | wake hpc =>
      rw [hpc] at hm hsl
      constructor <;> simp_all [WaitPc.Holds, WaitPc.MaySleep]

end Progress
end Lfi
