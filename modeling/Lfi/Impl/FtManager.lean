/-
# A monitoring pass

`process_comm`, `cancel_comm`, `handle_any_comm_reports` and `one_loop` of
`src/src/impl/ft_manager.cpp`, and `close_comm` of `src/src/impl/comm.cpp`.

A pass looks at the communicators of the endpoint, at all of them while an any-comm
receive is outstanding and otherwise at those in `ft_comms`.  On each it runs
`process_comm`: a communicator that has been silent for the fault-tolerance time
gets a heartbeat, a remote read of a known word, and one whose heartbeat stays
unanswered goes to `ft_canceled_coms`.  The pass then cancels the communicators
collected there and reports them to the any-comm receives.

What the pass cannot know is an argument (`PassInput`): the clock, the order in
which the hash tables are walked, and what the fabric does in the progress step of
each `cancel`.  That step does nothing under `LFI_efficient_progress`, since the
pass itself runs in the step of the leader.
-/

import Lfi.Impl.Post

namespace Lfi
namespace Impl

/-! ### The clock -/

/-- `duration_cast<milliseconds>(now - start).count()`, of two readings in
nanoseconds. -/
def elapsedMs (now start : ℤ) : ℤ := (now - start).tdiv 1000000

/-- The conversion of a 64-bit integer to `int32_t`. -/
def toInt32 (x : ℤ) : ℤ := x.bmod (2 ^ 32)

/-- `ft_ms`. -/
def ftMs (env : Env) : ℤ := max 0 (env.faultToleranceTime * 1000)

/-! ### `process_comm` -/

/-- The communicator is to be cancelled at the end of the pass. -/
def giveUp (s : Ft) (c : CommId) : Ft :=
  { s.setComm c { s.comm c with ftCurrentStatus := .error } with
    ftCanceledComs := s.ftCanceledComs ++ [c] }

/-- The heartbeat request of `c` is absent or completed. -/
def heartbeatFree (s : Core) (c : CommId) : Bool :=
  match s.requests (.heartbeat c) with
  | none => true
  | some q => q.isCompleted

/-- The heartbeat request, created when it is absent. -/
def ensureHeartbeat (s : Core) (c : CommId) : Core :=
  match s.requests (.heartbeat c) with
  | none => s.setRequest (.heartbeat c) (some (LfiRequest.new c))
  | some _ => s

/-- `ft_value_heartbeat = 0`. -/
def clearValue (s : Ft) (c : CommId) : Ft :=
  s.setComm c { s.comm c with ftValueHeartbeat := 0 }

/-- A heartbeat is under way since `beat`. -/
def markHeartbeat (s : Ft) (c : CommId) (beat : ℤ) : Ft :=
  s.setComm c { s.comm c with ftCurrentStatus := .heartbeat, ftHeartbeatTimePoint := beat }

/-- The `IDLE` case of `process_comm` on a communicator that is due; `beat` is what
the clock reads after the read is posted. -/
def startHeartbeat (env : Env) (s : State) (c : CommId) (beat : ℤ) : State :=
  let core := ensureHeartbeat s.core c
  if heartbeatFree core c then
    let comm := s.ft.comm c
    let p := asyncGet env ⟨reset core (.heartbeat c), clearValue s.ft c⟩ (.heartbeat c) 0 8
      comm.ftRemoteHeartbeatAddr comm.ftRemoteHeartbeatKey true
    if p.1 < 0 then { p.2 with ft := giveUp p.2.ft c }
    else { p.2 with ft := markHeartbeat p.2.ft c beat }
  else { s with core := core }

/-- `elapsed_ms_req >= ft_ms`: nothing has succeeded on the communicator for the
fault-tolerance time. -/
def Due (env : Env) (comm : LfiComm) (now : ℤ) : Prop :=
  ftMs env ≤ toInt32 (elapsedMs now comm.ftLastRequestTime)

instance (env : Env) (comm : LfiComm) (now : ℤ) : Decidable (Due env comm now) :=
  inferInstanceAs (Decidable (_ ≤ _))

/-- The heartbeat is completed and has brought `HEARBEAT_CODE`. -/
def Answered (s : State) (c : CommId) : Prop :=
  heartbeatFree s.core c = true ∧ (s.ft.comm c).ftValueHeartbeat = hearbeatCode

instance (s : State) (c : CommId) : Decidable (Answered s c) :=
  inferInstanceAs (Decidable (_ ∧ _))

/-- `elapsed_ms_pp > std::max(ft_ms, 1000)`. -/
def Overdue (env : Env) (comm : LfiComm) (now : ℤ) : Prop :=
  max (ftMs env) 1000 < toInt32 (elapsedMs now comm.ftHeartbeatTimePoint)

instance (env : Env) (comm : LfiComm) (now : ℤ) : Decidable (Overdue env comm now) :=
  inferInstanceAs (Decidable (_ < _))

/-- `process_comm(comm, ft_ms, ft_canceled_coms, now)`. -/
def processComm (env : Env) (now : ℤ) (beat : CommId → ℤ) (s : State) (c : CommId) : State :=
  let comm := s.ft.comm c
  if comm.ftRequests.size = 0 then { s with ft := eraseComm s.ft c }
  else
    match comm.ftCurrentStatus with
    | .idle => if Due env comm now then startHeartbeat env s c (beat c) else s
    | .heartbeat =>
        if Answered s c then
          { s with ft := s.ft.setComm c { comm with ftCurrentStatus := .idle } }
        else if Overdue env comm now then { s with ft := giveUp s.ft c }
        else s
    | .error => s

/-! ### `cancel_comm` and `close_comm` -/

/-- The loop of `cancel_comm`: it cancels the first outstanding request until there
is none, `fuel` times at most. -/
def cancelRequests (env : Env) (events : ReqId → List FabricEvent) (c : CommId) :
    ℕ → State → State
  | 0, s => s
  | fuel + 1, s =>
      match (s.ft.comm c).ftRequests.head with
      | none => s
      | some r => cancelRequests env events c fuel (cancel env s r (events r))

/-- `cancel_comm(comm)`. -/
def cancelComm (env : Env) (events : ReqId → List FabricEvent) (s : State) (c : CommId) : State :=
  let s := { s with ft := s.ft.setComm c { s.ft.comm c with isCanceled := true } }
  let s := cancelRequests env events c (s.ft.comm c).ftRequests.size.toNat s
  let s := requestFree env s (.heartbeat c) []
  { s with ft := eraseComm s.ft c }

/-- `close_comm(id)`. -/
def closeComm (env : Env) (events : ReqId → List FabricEvent) (s : State) (c : CommId) :
    ℤ × State :=
  if c ∈ s.ft.commIds then
    let s := if env.faultTolerance then cancelComm env events s c else s
    (lfiSuccess, { s with ft := { s.ft with commIds := s.ft.commIds.erase c } })
  else (-lfiCommNotFound, s)

/-! ### `handle_any_comm_reports` -/

/-- One round of `report_to_any`: the receive takes the failed communicator as its
source and is put up for cancelling. -/
def reportTo (s : State) (r : ReqId) (c : CommId) : State :=
  ⟨s.core.setRequest r ((s.core.requests r).map fun q =>
      { q with source := c, error := -lfiBrokenComm }),
    { s.ft with
      ftAnyCommRequests := s.ft.ftAnyCommRequests.erase r
      ftRequestsToCancel := s.ft.ftRequestsToCancel ++ [r] }⟩

/-- `report_to_any` on the receives `anys` and the communicators `errors`, paired
until one of the two ends. -/
def reportToAny (s : State) (anys : List ReqId) (errors : List CommId) : State :=
  (anys.zip errors).foldl (fun s p => reportTo s p.1 p.2) s

/-- `handle_any_comm_reports`, with the orders in which the two sets are walked:
first the communicators waiting in `ft_pending_failed_comms`, then those of this
pass, of which the unreported ones join the waiting. -/
def handleAnyCommReports (env : Env) (events : ReqId → List FabricEvent) (anys : List ReqId)
    (pending : List CommId) (s : State) : State :=
  let canceled := s.ft.ftCanceledComs
  let s := reportToAny s anys pending
  let s := { s with ft := { s.ft with ftPendingFailedComms :=
    s.ft.ftPendingFailedComms \ (pending.take anys.length).toFinset } }
  let rest := anys.drop pending.length
  let s := reportToAny s rest canceled
  let s := { s with ft := { s.ft with ftPendingFailedComms :=
    s.ft.ftPendingFailedComms ∪ (canceled.drop rest.length).toFinset } }
  let s := s.ft.ftRequestsToCancel.foldl (fun s r => cancel env s r (events r)) s
  { s with ft := { s.ft with ftRequestsToCancel := [] } }

/-! ### `one_loop` -/

/-- What a pass cannot know: the clock when it starts and after the heartbeat of
each communicator, the order in which it walks `m_comms`, `ft_any_comm_requests` and
`ft_pending_failed_comms`, and what the fabric does while it cancels each request. -/
structure PassInput where
  now : ℤ
  beat : CommId → ℤ
  comms : List CommId
  anys : List ReqId
  pending : List CommId
  events : ReqId → List FabricEvent

/-- The three orders visit every element of their sets once, and whatever else they
list is skipped. -/
def PassInput.Walks (input : PassInput) (s : Ft) : Prop :=
  (input.comms.Nodup ∧ ∀ c ∈ s.commIds, c ∈ input.comms) ∧
    (input.anys.Nodup ∧ ∀ r ∈ s.ftAnyCommRequests, r ∈ input.anys) ∧
    input.pending.Nodup ∧ ∀ c ∈ s.ftPendingFailedComms, c ∈ input.pending

instance (input : PassInput) (s : Ft) : Decidable (input.Walks s) :=
  inferInstanceAs (Decidable (_ ∧ _))

/-- The walk of `ft_comms` from the communicator `c` on; it is over when `fuel`
communicators were visited. -/
def walkFtComms (env : Env) (now : ℤ) (beat : CommId → ℤ) : ℕ → Option CommId → State → State
  | 0, _, s => s
  | _, none, s => s
  | fuel + 1, some c, s =>
      let s := processComm env now beat s c
      walkFtComms env now beat fuel (s.ft.commNodes c).next s

/-- The events of the progress steps inside a pass. -/
def passEvents (env : Env) (input : PassInput) : ReqId → List FabricEvent :=
  if env.efficientProgress then fun _ => [] else input.events

/-- The first half of a pass: every communicator it looks at is processed. -/
def processComms (env : Env) (input : PassInput) (s : State) : State :=
  if s.ft.ftAnyCommRequests.Nonempty then
    (input.comms.filter fun c => c ∈ s.ft.commIds ∧ isAnyComm c = false).foldl
      (processComm env input.now input.beat) s
  else walkFtComms env input.now input.beat s.ft.commIds.card s.ft.ftComms.head s

/-- The second half: the communicators in `ft_canceled_coms` are cancelled. -/
def cancelComms (env : Env) (input : PassInput) (s : State) : State :=
  s.ft.ftCanceledComs.foldl (fun s c =>
    if c ∈ s.ft.commIds then
      let s := cancelComm env (passEvents env input) s c
      { s with ft := { s.ft with failed := s.ft.failed ++ [c] } }
    else s) s

/-- A pass that got past its rate limit. -/
def pass (env : Env) (input : PassInput) (s : State) : State :=
  let isAny : Bool := s.ft.ftAnyCommRequests.Nonempty
  let s := { s with ft := { s.ft with ftLastProgress := input.now } }
  let s := cancelComms env input (processComms env input s)
  let s := if isAny then
      handleAnyCommReports env (passEvents env input)
        (input.anys.filter fun r => r ∈ s.ft.ftAnyCommRequests)
        (input.pending.filter fun c => c ∈ s.ft.ftPendingFailedComms) s
    else s
  { s with ft := { s.ft with ftCanceledComs := [] } }

/-- `one_loop`: one call in a hundred runs a pass, and not within ten milliseconds
of the last one. -/
def oneLoop (env : Env) (input : PassInput) (s : State) : State :=
  let count := s.ft.ftProgressCount + 1
  if count < 100 then { s with ft := { s.ft with ftProgressCount := count } }
  else
    let s := { s with ft := { s.ft with ftProgressCount := 0 } }
    if elapsedMs input.now s.ft.ftLastProgress < 10 then s else pass env input s

/-! ### Case by case -/

variable {env : Env} {s : State} {c : CommId} {now : ℤ}

theorem processComm_of_empty (h : (s.ft.comm c).ftRequests.size = 0) (beat : CommId → ℤ) :
    processComm env now beat s c = ⟨s.core, eraseComm s.ft c⟩ := by
  simp only [processComm, h, if_true]

theorem processComm_of_idle (hsize : (s.ft.comm c).ftRequests.size ≠ 0)
    (h : (s.ft.comm c).ftCurrentStatus = .idle) (beat : CommId → ℤ) :
    processComm env now beat s c =
      if Due env (s.ft.comm c) now then startHeartbeat env s c (beat c) else s := by
  simp only [processComm, hsize, h, if_false]

theorem processComm_of_heartbeat (hsize : (s.ft.comm c).ftRequests.size ≠ 0)
    (h : (s.ft.comm c).ftCurrentStatus = .heartbeat) (beat : CommId → ℤ) :
    processComm env now beat s c =
      if Answered s c then
        ⟨s.core, s.ft.setComm c { s.ft.comm c with ftCurrentStatus := .idle }⟩
      else if Overdue env (s.ft.comm c) now then ⟨s.core, giveUp s.ft c⟩
      else s := by
  simp only [processComm, hsize, h, if_false]

/-- A communicator given up waits for its `cancel_comm`. -/
theorem processComm_of_error (hsize : (s.ft.comm c).ftRequests.size ≠ 0)
    (h : (s.ft.comm c).ftCurrentStatus = .error) (beat : CommId → ℤ) :
    processComm env now beat s c = s := by
  simp only [processComm, hsize, h, if_false]

/-- When nothing is outstanding the loop is over. -/
theorem cancelRequests_of_head_none {events : ReqId → List FabricEvent}
    (h : (s.ft.comm c).ftRequests.head = none) (fuel : ℕ) :
    cancelRequests env events c fuel s = s := by
  cases fuel with
  | zero => rfl
  | succ fuel => simp only [cancelRequests, h]

theorem cancelRequests_of_head_some {events : ReqId → List FabricEvent} {r : ReqId}
    (h : (s.ft.comm c).ftRequests.head = some r) (fuel : ℕ) :
    cancelRequests env events c (fuel + 1) s =
      cancelRequests env events c fuel (cancel env s r (events r)) := by
  simp only [cancelRequests, h]

end Impl
end Lfi
