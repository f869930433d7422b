/-
# Waiting with a time limit

`LFI::wait` and the loops of `LFI::wait_num` with their clock.  A loop ends when the threshold is
reached or `is_timeout` is set, and both can come in one turn: a progress step completes what was
missing and the clock that is read after it says that the time is over.  `wait` looks again:

    // Return timeout only if is not completed and timeout
    if (is_timeout && request.wait_context.load()) {

`wait_num` does not (`timeout_verdicts_iff`).  This last look is not under the mutex of the
request: a completion can come after it and before the return.  For one request `wait_num` calls
`wait` instead of going through its loops, so the two can be compared on runs with the same
events: completions, and readings of the clock that find the time over.

A guard that leads stays leader until the call is over.  With a limit below 0 the loops of
`wait_num` are those of `Lfi.Wait.WaitNum`, which `Lfi.Wait.Unlimited` shows.
-/

import Lfi.Runs.Simulation
import Lfi.Wait.WaitNum

namespace Lfi
namespace Wait

open Impl Runs

/-- The result of `wait_check_timeout` when the clock says `ms` milliseconds; they are taken as an
`int32_t`. -/
def checkTimeout (timeoutMs ms : ℤ) : Bool := 0 ≤ timeoutMs ∧ timeoutMs ≤ ms.bmod (2 ^ 32)

/-- What happens in a run of either function: what its thread does, the completion of a request,
and that the lead of an endpoint is handed to the thread or taken by it.  Every reading of the
clock has its own action. -/
inductive TimedAction (ρ : Type*) where
  | setUp
  | check
  | lead
  | progress
  | elapsed (ms : ℤ)
  | sleep
  | wake
  | clock (ms : ℤ)
  | recheck (ms : ℤ)
  | cleanUp
  | complete (r : ρ) (err : ℤ)
  | load
  | verdict
  | otherCall
  deriving DecidableEq, Repr

/-- What an observer sees of a run. -/
inductive TimedEvent (ρ : Type*) where
  | expired
  | completed (r : ρ) (err : ℤ)
  | returns
  deriving DecidableEq, Repr

/-- A reading of the clock that finds the time over. -/
def TimedAction.FindsOver {ρ : Type*} (timeoutMs : ℤ) : TimedAction ρ → Bool
  | .elapsed ms => timeoutMs ≤ ms
  | .clock ms => checkTimeout timeoutMs ms
  | .recheck ms => checkTimeout timeoutMs ms
  | _ => false

def TimedAction.event {ρ : Type*} (timeoutMs : ℤ) : TimedAction ρ → Option (TimedEvent ρ)
  | .complete r err => some (.completed r err)
  | .verdict => some .returns
  | a => if a.FindsOver timeoutMs then some .expired else none

/-! ### The loops of `wait_num` -/

/-- A call of `wait_num`; the loops are there for one request too, and a request may be in the
array more than once.  `frame` is the address of its `wait_struct`. -/
structure TimedCall (ρ : Type*) where
  requests : List ρ
  howMany : ℕ
  timeoutMs : ℤ
  frame : ℕ
  pos : 1 ≤ howMany
  le : howMany ≤ requests.length

/-- How far the thread is: `clock` is before the reading at the end of the body. -/
inductive TimedPhase where
  | setUp (i : ℕ)
  | check
  | body
  | asleep
  | clock
  | cleanUp (first i : ℕ)
  | verdict
  | returned (ret : ℤ)
  deriving DecidableEq, Repr

/-- The requests and the variables of the call; `leader` says whether a guard leads. -/
structure Timed (ρ : Type*) where
  request : ρ → LfiRequest
  waitCount : ℤ
  linearCounter : ℕ
  isTimeout : Bool
  leader : Bool
  outIndex : ℤ
  phase : TimedPhase

section WaitNum

variable {ρ : Type*} [DecidableEq ρ] (c : TimedCall ρ) (s : Timed ρ)

/-- The state with the request `r` replaced. -/
def Timed.setRequest (r : ρ) (q : LfiRequest) : Timed ρ :=
  { s with request := Function.update s.request r q }

/-- What the set-up loop does under the mutex of the request `r`. -/
def Timed.setUpRequest (r : ρ) : Timed ρ :=
  let q := { s.request r with sharedWaitStruct := some c.frame }
  if q.isCompleted then { s.setRequest r q with waitCount := s.waitCount - 1 }
  else if q.error = -lfiTimeout then s.setRequest r { q with error := lfiSuccess }
  else s.setRequest r q

/-- What the clean-up loop does under the mutex of the request at `index`. -/
def Timed.cleanUpRequest (r : ρ) (index : ℕ) : Timed ρ :=
  let q := { s.request r with sharedWaitStruct := none }
  if q.isCompleted then
    { s.setRequest r q with outIndex := if s.outIndex = -1 then index else s.outIndex }
  else if q.error = lfiSuccess then s.setRequest r { q with error := -lfiTimeout }
  else s.setRequest r q

/-- The body of `complete(err)`. -/
def Timed.completeRequest (r : ρ) (err : ℤ) : Timed ρ :=
  let q := s.request r
  { s.setRequest r { q with error := err, waitContext := none } with
    waitCount := if q.sharedWaitStruct = some c.frame then s.waitCount - 1 else s.waitCount }

/-- The predicate of the wait. -/
def Timed.awake : Bool := s.waitCount ≤ 0 || s.leader

/-- Where a wait on `wait_cv` leads: past it when the predicate holds. -/
def Timed.wait : Timed ρ := { s with phase := if s.awake then .clock else .asleep }

/-- One action.  The run of a call ends when it returns. -/
def timedStep : TimedAction ρ → Option (Timed ρ)
  | .setUp =>
      match s.phase with
      | .setUp i =>
          match c.requests[i]? with
          | some r => some { s.setUpRequest c r with phase := .setUp (i + 1) }
          | none => some { s with phase := .check }
      | _ => none
  | .check =>
      if s.phase = .check then
        if s.waitCount > 0 ∧ s.isTimeout = false then some { s with phase := .body }
        else some { s with
          linearCounter := (s.linearCounter + 1) % 2 ^ 32
          phase := .cleanUp (s.linearCounter % c.requests.length) 0 }
      else none
  | .lead =>
      match s.phase with
      | .returned _ => none
      | _ => some { s with leader := true }
  | .progress =>
      if s.phase = .body ∧ s.leader = true then some { s with phase := .clock } else none
  | .elapsed ms =>
      if s.phase = .body ∧ s.leader = false ∧ 0 ≤ c.timeoutMs then
        if c.timeoutMs ≤ ms then some { s with isTimeout := true, phase := .check }
        else some s.wait
      else none
  | .sleep =>
      if s.phase = .body ∧ s.leader = false ∧ c.timeoutMs < 0 then some s.wait else none
  -- a wait with a time limit ends when the time has passed, too
  | .wake =>
      if s.phase = .asleep ∧ (0 ≤ c.timeoutMs ∨ s.awake = true) then
        some { s with phase := .clock }
      else none
  | .clock ms =>
      if s.phase = .clock then
        some { s with
          isTimeout := s.isTimeout || checkTimeout c.timeoutMs ms
          phase := .check }
      else none
  | .recheck _ => none
  | .cleanUp =>
      match s.phase with
      | .cleanUp first i =>
          if i < c.requests.length then
            (rotated first i c.requests.length).bind fun index =>
              c.requests[index]?.map fun r =>
                { s.cleanUpRequest r index with phase := .cleanUp first (i + 1) }
          else some { s with phase := .verdict }
      | _ => none
  | .complete r err =>
      match s.phase with
      | .returned _ => none
      | _ => if (s.request r).isCompleted then none else some (s.completeRequest c r err)
  | .load => none
  | .verdict =>
      if s.phase = .verdict then
        some { s with phase := .returned (if s.isTimeout then -lfiTimeout else s.outIndex) }
      else none
  | .otherCall =>
      match s.phase with
      | .returned _ => none
      | _ => some { s with linearCounter := (s.linearCounter + 1) % 2 ^ 32 }

/-- The call has just made its `wait_struct`, and no request refers to it. -/
structure TimedEntered : Prop where
  phase : s.phase = .setUp 0
  waitCount : s.waitCount = c.howMany
  isTimeout : s.isTimeout = false
  leader : s.leader = false
  outIndex : s.outIndex = -1
  unused : ∀ r, (s.request r).sharedWaitStruct ≠ some c.frame

/-- How many of the requests are completed. -/
def Timed.completed : ℕ := c.requests.countP fun r => (s.request r).isCompleted

/-- The time is not found to be over when enough requests are completed, and when it was found to
be over no completion makes them enough. -/
def Punctual : TimedAction ρ → Prop
  | .complete r _ => s.isTimeout = true → s.completed c + c.requests.count r < c.howMany
  | a => a.FindsOver c.timeoutMs = true → s.completed c < c.howMany

instance : DecidablePred (Punctual c s)
  | .complete .. | .setUp | .check | .lead | .progress | .elapsed _ | .sleep | .wake | .clock _
  | .recheck _ | .cleanUp | .load | .verdict | .otherCall =>
      inferInstanceAs (Decidable (_ = true → _))

end WaitNum

/-! ### `wait` -/

/-- How far the thread is: `progress` and `clock` are inside the loop of a leader, `recheck` is
behind it, before the reading at the end of the body.  In `decided` the call has looked at the
request for the last time. -/
inductive SinglePhase where
  | check
  | body
  | progress
  | clock
  | asleep
  | recheck
  | lastClock
  | verdict
  | decided (expired : Bool)
  | returned (ret : ℤ)
  deriving DecidableEq, Repr

/-- The requests and the variables of a call of `wait`. -/
structure Single (ρ : Type*) where
  request : ρ → LfiRequest
  isTimeout : Bool
  leader : Bool
  phase : SinglePhase

section Wait

variable {ρ : Type*} [DecidableEq ρ] (timeoutMs : ℤ) (r : ρ) (w : Single ρ)

/-- The state with the request `r` replaced. -/
def Single.setRequest (q : LfiRequest) : Single ρ :=
  { w with request := Function.update w.request r q }

/-- The condition of both loops. -/
def Single.goesOn : Bool := !(w.request r).isCompleted && !w.isTimeout

/-- Where the condition of the leader's loop leads.  Behind this loop the clock is read again,
unless `is_timeout` is set. -/
def Single.leading : SinglePhase :=
  if w.goesOn r then .progress else if w.isTimeout then .check else .recheck

/-- Where a wait on the `cv` of the request leads. -/
def Single.wait : Single ρ :=
  { w with phase := if (w.request r).isCompleted || w.leader then .lastClock else .asleep }

/-- One action of a call for the request `r`. -/
def singleStep : TimedAction ρ → Option (Single ρ)
  | .check =>
      match w.phase with
      | .check => some { w with phase := if w.goesOn r then .body else .verdict }
      | .body => if w.leader then some { w with phase := w.leading r } else none
      | _ => none
  | .lead =>
      match w.phase with
      | .returned _ => none
      | _ => some { w with leader := true }
  | .progress => if w.phase = .progress then some { w with phase := .clock } else none
  | .elapsed ms =>
      if w.phase = .body ∧ w.leader = false ∧ 0 ≤ timeoutMs then
        if timeoutMs ≤ ms then some { w with isTimeout := true, phase := .check }
        else some (w.wait r)
      else none
  | .sleep =>
      if w.phase = .body ∧ w.leader = false ∧ timeoutMs < 0 then some (w.wait r) else none
  | .wake =>
      if w.phase = .asleep ∧
          (0 ≤ timeoutMs ∨ (w.request r).isCompleted = true ∨ w.leader = true) then
        some { w with phase := .lastClock }
      else none
  | .clock ms =>
      match w.phase with
      | .clock => some { w with isTimeout := checkTimeout timeoutMs ms, phase := .body }
      | .lastClock =>
          some { w with isTimeout := w.isTimeout || checkTimeout timeoutMs ms, phase := .check }
      | _ => none
  | .recheck ms =>
      if w.phase = .recheck then
        some { w with isTimeout := w.isTimeout || checkTimeout timeoutMs ms, phase := .check }
      else none
  | .complete r' err =>
      match w.phase with
      | .returned _ => none
      | _ =>
          if (w.request r').isCompleted then none
          else some (w.setRequest r' { w.request r' with error := err, waitContext := none })
  | .load =>
      if w.phase = .verdict then
        some { w with phase := .decided (w.isTimeout && !(w.request r).isCompleted) }
      else none
  | .verdict =>
      match w.phase with
      | .decided true =>
          some { w.setRequest r { w.request r with error := -lfiTimeout } with
            phase := .returned (-lfiTimeout) }
      | .decided false => some { w with phase := .returned lfiSuccess }
      | _ => none
  | .setUp | .cleanUp | .otherCall => none

/-- The call begins. -/
structure SingleEntered : Prop where
  phase : w.phase = .check
  isTimeout : w.isTimeout = false
  leader : w.leader = false

/-- The request is not completed between the last look, when this finds the time over, and the
return. -/
def Timely : TimedAction ρ → Prop
  | .complete r' _ => r' = r → w.phase ≠ .decided true
  | _ => True

instance : DecidablePred (Timely r w)
  | .complete .. => inferInstanceAs (Decidable (_ = _ → _))
  | .setUp | .check | .lead | .progress | .elapsed _ | .sleep | .wake | .clock _ | .recheck _
  | .cleanUp | .load | .verdict | .otherCall => inferInstanceAs (Decidable True)

end Wait

end Wait
end Lfi
