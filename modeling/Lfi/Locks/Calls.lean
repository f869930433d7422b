/-
# What the calls lock

The calls of an endpoint as the mutexes they take and release, in the order of the
source, over the data that decides which ones these are: the queues of operations,
`ft_any_comm_requests`, `ft_requests_to_cancel` and `waiters_list`.  Everything else a
call looks at (the status of a communicator, whether a request is completed, who leads,
what the fabric answers) is a `Branch`, which any step may choose freely.

Fault tolerance is on.  `m_comms_mutex` is only ever shared here, and a mutex under which
a call takes no other one is left out: `m_mutex` of the context factory, `wait_mutex` and
`callbacks_mutex`.
-/

import Lfi.Impl.State
import Lfi.Locks.Threads

namespace Lfi
namespace Locks

open Impl (ReqId CommId isAnyComm)

/-- The mutexes. -/
inductive Mutex where
  /-- `m_comms_mutex` -/
  | comms
  /-- `lfi_request::mutex` -/
  | request (r : ReqId)
  /-- `lfi_comm::ft_mutex` -/
  | commFt (c : CommId)
  /-- `lfi_endpoint::ft_mutex` -/
  | endpointFt
  /-- `pending_ops_mutex` -/
  | pendingOps
  /-- `waiters_mutex` -/
  | waiters
  deriving DecidableEq

/-- `priority_ops` or `pending_ops`. -/
inductive Queue where
  | priorityOps
  | pendingOps
  deriving DecidableEq

/-- What the calls share: the requests of the queued operations, those in
`ft_any_comm_requests` and `ft_requests_to_cancel`, and the mutexes of the guards in
`waiters_list`. -/
structure LockData where
  priorityOps : List ReqId
  pendingOps : List ReqId
  ftAnyCommRequests : List ReqId
  ftRequestsToCancel : List ReqId
  waitersList : List (Option ReqId)
  deriving DecidableEq

def LockData.empty : LockData := ⟨[], [], [], [], []⟩

def LockData.ops (d : LockData) : Queue → List ReqId
  | .priorityOps => d.priorityOps
  | .pendingOps => d.pendingOps

def LockData.setOps (d : LockData) (q : Queue) (ops : List ReqId) : LockData :=
  match q with
  | .priorityOps => { d with priorityOps := ops }
  | .pendingOps => { d with pendingOps := ops }

/-- What is done under the mutexes. -/
inductive Effect where
  /-- the look at `is_canceled` and at the limits before an operation is posted -/
  | check (r : ReqId)
  /-- `queue.push` -/
  | push (r : ReqId) (q : Queue)
  /-- `queue.pop` -/
  | pop (q : Queue)
  /-- the two `erase_if` of `cancel` -/
  | eraseOps (r : ReqId)
  /-- `ft_any_comm_requests.emplace` -/
  | emplaceAny (r : ReqId)
  /-- `ft_any_comm_requests.erase` -/
  | eraseAny (r : ReqId)
  /-- the lines of `complete` under the mutex of the request -/
  | setCompleted (r : ReqId)
  /-- `any_req->error = -LFI_BROKEN_COMM` -/
  | setFailed (r : ReqId)
  /-- `ft_requests_to_cancel.push_back`, and the `erase` that follows -/
  | reported (r : ReqId)
  /-- `ft_requests_to_cancel.clear` -/
  | clearToCancel
  /-- `waiters_list.push_back` -/
  | pushWaiter (k : Option ReqId)
  /-- `successor->m_cv->notify_one` -/
  | notify (r : ReqId)
  deriving DecidableEq

def Effect.apply (d : LockData) : Effect → LockData
  | .push r q => d.setOps q (d.ops q ++ [r])
  | .pop q => d.setOps q (d.ops q).tail
  | .eraseOps r => { d with
      priorityOps := d.priorityOps.filter (· ≠ r), pendingOps := d.pendingOps.filter (· ≠ r) }
  | .emplaceAny r => { d with ftAnyCommRequests := d.ftAnyCommRequests.insert r }
  | .eraseAny r => { d with ftAnyCommRequests := d.ftAnyCommRequests.erase r }
  | .reported r => { d with
      ftRequestsToCancel := d.ftRequestsToCancel ++ [r]
      ftAnyCommRequests := d.ftAnyCommRequests.erase r }
  | .clearToCancel => { d with ftRequestsToCancel := [] }
  | .pushWaiter k => { d with waitersList := d.waitersList ++ [k] }
  | .check _ | .setCompleted _ | .setFailed _ | .notify _ => d

/-- The calls.  `asyncPost` is `async_send`, `async_recv`, `async_put` and `async_get`, which
lock the same mutexes; loops and lambdas of the source are calls of their own. -/
inductive Call where
  | effect (e : Effect)
  | asyncPost (r : ReqId) (q : Queue)
  | registerRequest (r : ReqId)
  | progress
  | readCq
  | postPendingOps
  | processQueue (q : Queue)
  | complete (r : ReqId)
  | onRequestComplete (r : ReqId)
  | oneLoop
  | processComms
  | ftComms
  | processComm (c : CommId)
  | cancelComms
  | cancelComm (c : CommId)
  | cancelRequests (c : CommId)
  | freeRequest (r : ReqId)
  | cancel (r : ReqId)
  | handleAnyCommReports
  | reportToAny
  | report (r : ReqId)
  | cancelReported
  | protectedProgress
  | guard (k : Option ReqId)
  | unguard (k : Option ReqId)
  | eraseWaiter (k : Option ReqId)
  | transferLeader
  | test (r : ReqId)
  | wait (r : ReqId)
  | waitLoop (r : ReqId)
  | progresses
  deriving DecidableEq

/-- How the conditions of a call turn out.  A loop is through or takes its next element. -/
inductive Branch where
  | returns
  | continues
  | rejects
  | looksUp
  | anyComm
  | heartbeat
  | request (r : ReqId)
  | failed (r : ReqId)
  | comm (c : CommId)
  | waiter (i : ℕ)
  deriving DecidableEq

/-- `m_comm` of the requests, and the variable `LFI_efficient_progress`. -/
structure Setting where
  comm : ℕ → CommId
  efficientProgress : Bool

def Setting.commOf (S : Setting) : ReqId → CommId
  | .user k => S.comm k
  | .heartbeat c => c

/-- The operations of this program. -/
abbrev LOp := Op Mutex Call

/-! ### Posting -/

/-- `async_send_internal`, `async_recv_internal`, `async_put` and `async_get`: without a
communicator, with one that is refused, or through to `register_request`. -/
def asyncPost (S : Setting) (r : ReqId) (q : Queue) : Branch → Option (List LOp)
  | .returns => some [.lockShared .comms, .lock (.request r), .unlock (.request r),
      .unlockShared .comms]
  | .rejects => some [.lockShared .comms, .lock (.request r), .lock (.commFt (S.commOf r)),
      .call (.effect (.check r)), .unlock (.commFt (S.commOf r)), .unlock (.request r),
      .unlockShared .comms]
  | .continues => some [.lockShared .comms, .lock (.request r), .lock (.commFt (S.commOf r)),
      .call (.effect (.check r)), .lock .pendingOps, .call (.effect (.push r q)),
      .unlock .pendingOps, .unlock (.request r), .call (.registerRequest r),
      .unlock (.commFt (S.commOf r)),
      .unlockShared .comms]
  | _ => none

/-- `register_request`, under the `ft_mutex` of the communicator. -/
def registerRequest (S : Setting) (r : ReqId) : Branch → Option (List LOp)
  | .anyComm =>
      if isAnyComm (S.commOf r) then
        some [.lock .endpointFt, .call (.effect (.emplaceAny r)), .unlock .endpointFt]
      else none
  | .continues => if isAnyComm (S.commOf r) then none else some [.lock .endpointFt,
      .unlock .endpointFt]
  | .returns => if isAnyComm (S.commOf r) then none else some []
  | _ => none

/-! ### Progress -/

/-- `progress`. -/
def progress : Branch → Option (List LOp)
  | .continues => some [.call .readCq, .call .postPendingOps, .call .oneLoop]
  | _ => none

/-- The loop over `fi_cq_read`: an entry of a request, an error entry of one, or no more. -/
def readCq : Branch → Option (List LOp)
  | .returns => some []
  | .request r => some [.lock (.request r), .unlock (.request r), .call (.complete r),
      .call .readCq]
  | .failed r => some [.call (.complete r), .call .readCq]
  | _ => none

/-- `post_pending_ops`. -/
def postPendingOps : Branch → Option (List LOp)
  | .continues => some [.lock .pendingOps, .call (.processQueue .priorityOps),
      .unlock .pendingOps]
  | _ => none

/-- `process_queue`: the fabric answers `-FI_EAGAIN` (`returns`), takes the operation
(`continues`), or the request is completed at once, an inject or refused (`rejects`). -/
def processQueue (d : LockData) (q : Queue) : Branch → Option (List LOp)
  | .returns =>
      if q = .priorityOps ∧ d.ops q = [] then some [.call (.processQueue .pendingOps)]
      else some []
  | .continues =>
      match d.ops q with
      | [] => none
      | _ :: _ => some [.call (.effect (.pop q)), .call (.processQueue q)]
  | .rejects =>
      match d.ops q with
      | [] => none
      | r :: _ => some [.call (.complete r), .call (.effect (.pop q)), .call (.processQueue q)]
  | _ => none

/-- `lfi_request::complete`. -/
def complete (r : ReqId) : Branch → Option (List LOp)
  | .returns => some []
  | .continues => some [.call (.onRequestComplete r), .lock (.request r),
      .call (.effect (.setCompleted r)), .unlock (.request r)]
  | _ => none

/-- The part of `on_request_complete` for a request of an any-comm. -/
def eraseAnyComm (S : Setting) (r : ReqId) : List LOp :=
  if isAnyComm (S.commOf r) then
    [.lock .endpointFt, .call (.effect (.eraseAny r)), .unlock .endpointFt]
  else []

/-- `on_request_complete`, which looks up the communicator of another source. -/
def onRequestComplete (S : Setting) (r : ReqId) : Branch → Option (List LOp)
  | .continues => some ([.lock (.commFt (S.commOf r))] ++ eraseAnyComm S r ++
      [.unlock (.commFt (S.commOf r))])
  | .looksUp => some ([.lock (.commFt (S.commOf r))] ++ eraseAnyComm S r ++
      [.unlock (.commFt (S.commOf r)), .lockShared .comms, .lock (.commFt (S.commOf r)),
       .unlockShared .comms, .unlock (.commFt (S.commOf r))])
  | _ => none

/-! ### The pass of fault tolerance -/

/-- `one_loop`: not due, over all communicators, or over `ft_comms`. -/
def oneLoop : Branch → Option (List LOp)
  | .returns => some []
  | .anyComm => some [.lockShared .comms, .lock .endpointFt, .unlock .endpointFt,
      .call .processComms, .call .cancelComms, .unlockShared .comms,
      .call .handleAnyCommReports]
  | .continues => some [.lockShared .comms, .lock .endpointFt, .call .ftComms,
      .unlock .endpointFt, .call .cancelComms, .unlockShared .comms]
  | _ => none

/-- The loop over `m_comms`. -/
def processComms : Branch → Option (List LOp)
  | .returns => some []
  | .comm c => some [.call (.processComm c), .call .processComms]
  | _ => none

/-- The loop over `ft_comms`. -/
def ftComms : Branch → Option (List LOp)
  | .returns => some []
  | .comm c => some [.unlock .endpointFt, .call (.processComm c), .lock .endpointFt,
      .call .ftComms]
  | _ => none

/-- `process_comm`: nothing outstanding, nothing due, a heartbeat to post, or one to look
at. -/
def processComm (c : CommId) : Branch → Option (List LOp)
  | .returns => some [.lock (.commFt c), .lock .endpointFt, .unlock .endpointFt,
      .unlock (.commFt c)]
  | .continues => some [.lock (.commFt c), .unlock (.commFt c)]
  | .heartbeat => some [.lock (.commFt c), .unlock (.commFt c),
      .call (.asyncPost (.heartbeat c) .priorityOps)]
  | .looksUp => some [.lock (.commFt c), .unlock (.commFt c), .lock (.request (.heartbeat c)),
      .unlock (.request (.heartbeat c))]
  | _ => none

/-- The loop over `ft_canceled_coms`. -/
def cancelComms : Branch → Option (List LOp)
  | .returns => some []
  | .comm c => some [.call (.cancelComm c), .call .cancelComms]
  | _ => none

/-- `cancel_comm`, of a communicator with a heartbeat (`heartbeat`) or without one. -/
def cancelComm (c : CommId) : Branch → Option (List LOp)
  | .heartbeat => some [.lock (.commFt c), .call (.cancelRequests c), .unlock (.commFt c),
      .call (.freeRequest (.heartbeat c)), .lock .endpointFt, .unlock .endpointFt]
  | .continues => some [.lock (.commFt c), .call (.cancelRequests c), .unlock (.commFt c),
      .lock .endpointFt, .unlock .endpointFt]
  | _ => none

/-- The loop over `ft_requests`. -/
def cancelRequests (c : CommId) : Branch → Option (List LOp)
  | .returns => some []
  | .request r => some [.unlock (.commFt c), .call (.cancel r), .lock (.commFt c),
      .call (.cancelRequests c)]
  | _ => none

/-- `~lfi_request`, of a request that is completed (`returns`) or not. -/
def freeRequest (r : ReqId) : Branch → Option (List LOp)
  | .returns => some [.lock (.request r), .unlock (.request r)]
  | .continues => some [.lock (.request r), .unlock (.request r), .call (.cancel r)]
  | _ => none

/-- `lfi_request::cancel`, of a request that is completed (`returns`), of an inject
(`continues`), or with a look at the communicator. -/
def cancel (r : ReqId) : Branch → Option (List LOp)
  | .returns => some [.lock .pendingOps, .call (.effect (.eraseOps r)), .unlock .pendingOps,
      .lock (.request r), .unlock (.request r)]
  | .continues => some [.lock .pendingOps, .call (.effect (.eraseOps r)), .unlock .pendingOps,
      .lock (.request r), .unlock (.request r), .call .protectedProgress, .call (.complete r)]
  | .looksUp => some [.lock .pendingOps, .call (.effect (.eraseOps r)), .unlock .pendingOps,
      .lock (.request r), .unlock (.request r), .lockShared .comms, .lock (.request r),
      .unlockShared .comms, .unlock (.request r), .call .protectedProgress,
      .call (.complete r)]
  | _ => none

/-- `handle_any_comm_reports`, with something to report or not. -/
def handleAnyCommReports : Branch → Option (List LOp)
  | .returns => some [.lock .endpointFt, .unlock .endpointFt]
  | .continues => some [.lock .endpointFt, .call .reportToAny, .unlock .endpointFt,
      .call .cancelReported]
  | _ => none

/-- `report_to_any`, under the `ft_mutex` of the endpoint. -/
def reportToAny (d : LockData) : Branch → Option (List LOp)
  | .returns => some []
  | .request r =>
      if r ∈ d.ftAnyCommRequests then some [.call (.report r), .call .reportToAny] else none
  | _ => none

/-- What `report_to_any` does with one receive. -/
def report (r : ReqId) : Branch → Option (List LOp)
  | .continues => some [.lock (.request r), .call (.effect (.setFailed r)),
      .unlock (.request r), .call (.effect (.reported r))]
  | _ => none

/-- The loop over `ft_requests_to_cancel`. -/
def cancelReported (d : LockData) : Branch → Option (List LOp)
  | .returns => some [.call (.effect .clearToCancel)]
  | .request r =>
      if r ∈ d.ftRequestsToCancel then some [.call (.cancel r), .call .cancelReported] else none
  | _ => none

/-! ### Guards, test and wait -/

/-- `protected_progress`, as leader (`continues`) or not. -/
def protectedProgress (S : Setting) : Branch → Option (List LOp)
  | .returns =>
      if S.efficientProgress then some [.call (.guard none), .call (.unguard none)] else none
  | .continues => some [.call (.guard none), .call .progress, .call (.unguard none)]
  | _ => none

/-- The constructor of a guard with the mutex of the request `k`. -/
def guard (S : Setting) (k : Option ReqId) : Branch → Option (List LOp)
  | .continues =>
      if S.efficientProgress then
        some [.lock .waiters, .call (.effect (.pushWaiter k)), .unlock .waiters]
      else some []
  | _ => none

/-- The destructor of a guard: `unregister_waiter`, and `transfer_leader_and_wake` of a
leader (`continues`). -/
def unguard (S : Setting) (k : Option ReqId) : Branch → Option (List LOp)
  | .returns =>
      if S.efficientProgress then
        some [.lock .waiters, .call (.eraseWaiter k), .unlock .waiters]
      else some []
  | .continues =>
      if S.efficientProgress then
        some [.lock .waiters, .call (.eraseWaiter k), .unlock .waiters, .lock .waiters,
          .call .transferLeader, .unlock .waiters]
      else some []
  | _ => none

/-- `waiters_list.erase(this)`: of several guards with one mutex any may be this one. -/
def eraseWaiter (d : LockData) (k : Option ReqId) : Branch → Option LockData
  | .waiter i =>
      if d.waitersList[i]? = some k then some { d with waitersList := d.waitersList.eraseIdx i }
      else none
  | _ => none

/-- What `transfer_leader_and_wake` does with the head of `waiters_list`. -/
def transferLeader (d : LockData) : Branch → Option (List LOp)
  | .continues =>
      match d.waitersList with
      | some r :: _ => some [.lock (.request r), .call (.effect (.notify r)),
          .unlock (.request r)]
      | _ => some []
  | _ => none

/-- `LFI::test`, as leader (`continues`) or not. -/
def test (r : ReqId) : Branch → Option (List LOp)
  | .returns => some [.lock (.request r), .call (.guard none), .call (.unguard none),
      .unlock (.request r)]
  | .continues => some [.lock (.request r), .call (.guard none), .unlock (.request r),
      .call .progress, .lock (.request r), .call (.unguard none), .unlock (.request r)]
  | _ => none

/-- `LFI::wait`. -/
def wait (r : ReqId) : Branch → Option (List LOp)
  | .continues => some [.call (.guard (some r)), .lock (.request r), .call (.waitLoop r),
      .unlock (.request r), .call (.unguard (some r))]
  | _ => none

/-- The loop of `wait`: through, as leader, or waiting on `cv` (`looksUp`). -/
def waitLoop (r : ReqId) : Branch → Option (List LOp)
  | .returns => some []
  | .continues => some [.unlock (.request r), .call .progresses, .lock (.request r),
      .call (.waitLoop r)]
  | .looksUp => some [.unlock (.request r), .lock (.request r), .call (.waitLoop r)]
  | _ => none

/-- The inner loop of a leader in `wait`. -/
def progresses : Branch → Option (List LOp)
  | .returns => some []
  | .continues => some [.call .progress, .call .progresses]
  | _ => none

/-! ### The program -/

/-- What a call does. -/
def body (S : Setting) (d : LockData) : Call → Branch → Option (List LOp × LockData)
  | .effect e, _ => some ([], e.apply d)
  | .eraseWaiter k, i => (eraseWaiter d k i).map ([], ·)
  | .asyncPost r q, i => (asyncPost S r q i).map (·, d)
  | .registerRequest r, i => (registerRequest S r i).map (·, d)
  | .progress, i => (progress i).map (·, d)
  | .readCq, i => (readCq i).map (·, d)
  | .postPendingOps, i => (postPendingOps i).map (·, d)
  | .processQueue q, i => (processQueue d q i).map (·, d)
  | .complete r, i => (complete r i).map (·, d)
  | .onRequestComplete r, i => (onRequestComplete S r i).map (·, d)
  | .oneLoop, i => (oneLoop i).map (·, d)
  | .processComms, i => (processComms i).map (·, d)
  | .ftComms, i => (ftComms i).map (·, d)
  | .processComm c, i => (processComm c i).map (·, d)
  | .cancelComms, i => (cancelComms i).map (·, d)
  | .cancelComm c, i => (cancelComm c i).map (·, d)
  | .cancelRequests c, i => (cancelRequests c i).map (·, d)
  | .freeRequest r, i => (freeRequest r i).map (·, d)
  | .cancel r, i => (cancel r i).map (·, d)
  | .handleAnyCommReports, i => (handleAnyCommReports i).map (·, d)
  | .reportToAny, i => (reportToAny d i).map (·, d)
  | .report r, i => (report r i).map (·, d)
  | .cancelReported, i => (cancelReported d i).map (·, d)
  | .protectedProgress, i => (protectedProgress S i).map (·, d)
  | .guard k, i => (guard S k i).map (·, d)
  | .unguard k, i => (unguard S k i).map (·, d)
  | .transferLeader, i => (transferLeader d i).map (·, d)
  | .test r, i => (test r i).map (·, d)
  | .wait r, i => (wait r i).map (·, d)
  | .waitLoop r, i => (waitLoop r i).map (·, d)
  | .progresses, i => (progresses i).map (·, d)

/-- The calls an application makes. -/
def isEntry : Call → Bool
  | .asyncPost (.user _) _ | .progress | .test (.user _) | .wait (.user _) => true
  | _ => false

/-- The endpoint as a program of threads. -/
def endpointProgram (S : Setting) : Program Mutex Call Branch LockData where
  entry := isEntry
  body := body S

end Locks
end Lfi
