/-
# A progress step of an endpoint

`progress` of `src/src/impl/lfi_endpoint.cpp` reads the completion queue and then
hands queued operations to the fabric (`post_pending_ops`).  What the fabric does
is a list of `FabricEvent`s: a completion entry, a remote read that lands in
`ft_value_heartbeat`, or a round of `post_pending_ops` with the fabric's answer to
each attempt.  An event the fabric cannot produce, an entry for a context it does
not hold, changes nothing.

A `cancel` runs such a step through `protected_progress`, which does nothing while
somebody else leads (`Lfi.Progress.Guard`); then its list of events is empty.  The
monitoring pass that ends a progress step, `one_loop`, is in `Lfi.Impl.FtManager`.  Of
the step inside a `cancel` the pass is left out here: one in a hundred steps makes one,
and inside a pass none does under `LFI_efficient_progress`.  What such a pass can do to
the list that `cancel_comm` works on is in `Lfi.Impl.Nested`.
-/

import Lfi.Impl.Request

namespace Lfi
namespace Impl

/-- What the fabric can do in a progress step; `now` is what the clock reads if the
event completes a request. -/
inductive FabricEvent where
  | success (ctx len tag : ℕ) (now : ℤ)
  | error (ctx : ℕ) (err : ℤ)
  | heartbeatValue (c : CommId) (value : ℕ)
  | postPendingOps (answers : List ℤ) (now : ℤ)
  deriving DecidableEq, Repr

/-! ### Completion entries -/

/-- The fabric gives the context back. -/
def takeBack (s : Core) (ctx : ℕ) : Core :=
  { s with inFlight := s.inFlight.filter fun op => op.context != ctx }

/-- What a success entry says about its request before it completes it: a receive
takes its size, tag and source from the entry. -/
def LfiRequest.received (q : LfiRequest) (len tag : ℕ) : LfiRequest :=
  if q.opType = .recv then
    { q with
      size := len
      tag := tag &&& maskTag
      source := (tag &&& maskRank) >>> maskRankBytes }
  else q

/-- `error` of an entry of `fi_cq_readerr`. -/
def cqErrorCode (err : ℤ) : ℤ :=
  if err.natAbs = fiEcanceled then -lfiCanceled
  else if err.natAbs = fiEnomsg then -lfiPeekNoMsg
  else if err.natAbs = fiEtrunc then -lfiEtrunRecv
  else -lfiLibfabricError

/-- What a success entry does to its request. -/
def receive (env : Env) (s : State) (r : ReqId) (len tag : ℕ) (now : ℤ) : State :=
  let q := (s.core.requests r).map fun q => q.received len tag
  complete env { s with core := s.core.setRequest r q } r lfiSuccess now

/-- `complete(err)` of the request the context points to, if it points to one. -/
def completeAt (env : Env) (s : State) (ctx : ℕ) (err now : ℤ) : State :=
  match s.core.contexts ctx with
  | some r => complete env s r err now
  | none => s

/-- `receive` for the request the context points to, if it points to one. -/
def receiveAt (env : Env) (s : State) (ctx len tag : ℕ) (now : ℤ) : State :=
  match s.core.contexts ctx with
  | some r => receive env s r len tag now
  | none => s

/-- A success entry with the context `ctx`. -/
def cqSuccess (env : Env) (s : State) (ctx len tag : ℕ) (now : ℤ) : State :=
  let s := receiveAt env { s with core := takeBack s.core ctx } ctx len tag now
  { s with core := destroyContext s.core ctx }

/-- An error entry with the context `ctx`. -/
def cqError (env : Env) (s : State) (ctx : ℕ) (err : ℤ) : State :=
  let s := completeAt env { s with core := takeBack s.core ctx } ctx (cqErrorCode err) 0
  { s with core := destroyContext s.core ctx }

/-! ### `post_pending_ops` -/

/-- The fabric answers an attempt to post `op` with `ret`, which is not
`-FI_EAGAIN`. -/
def postOp (env : Env) (s : State) (op : LfiPendingOp) (ret now : ℤ) : State :=
  if ret ≠ 0 then completeAt env s op.context (-lfiLibfabricError) now
  else if op.type = .inject then
    let s := completeAt env s op.context lfiSuccess now
    { s with core := destroyContext s.core op.context }
  else { s with core := { s.core with inFlight := s.core.inFlight ++ [op] } }

/-- `process_queue` on a queue with the operations `ops`: what is left of it, of the
answers, and the state.  When the answers end the fabric says `-FI_EAGAIN`. -/
def processQueue (env : Env) (now : ℤ) :
    List LfiPendingOp → List ℤ → State → List LfiPendingOp × List ℤ × State
  | [], answers, s => ([], answers, s)
  | op :: ops, [], s => (op :: ops, [], s)
  | op :: ops, ret :: answers, s =>
      if ret = -fiEagain then (op :: ops, [], s)
      else processQueue env now ops answers (postOp env s op ret now)

/-- `post_pending_ops()`: the priority queue, and if it is empty then the other. -/
def postPendingOps (env : Env) (s : State) (answers : List ℤ) (now : ℤ) : State :=
  let p := processQueue env now s.core.priorityOps answers s
  let s := { p.2.2 with core := { p.2.2.core with priorityOps := p.1 } }
  if p.1 = [] then
    let p := processQueue env now s.core.pendingOps p.2.1 s
    { p.2.2 with core := { p.2.2.core with pendingOps := p.1 } }
  else s

/-! ### Progress -/

/-- One event. -/
def fabricEvent (env : Env) (s : State) : FabricEvent → State
  | .success ctx len tag now =>
      if ∃ op ∈ s.core.inFlight, op.context = ctx then cqSuccess env s ctx len tag now else s
  | .error ctx err =>
      if ∃ op ∈ s.core.inFlight, op.context = ctx then cqError env s ctx err else s
  | .heartbeatValue c value =>
      { s with ft := s.ft.setComm c { s.ft.comm c with ftValueHeartbeat := value } }
  | .postPendingOps answers now => postPendingOps env s answers now

/-- The progress step of a `cancel`, without `one_loop`. -/
def progress (env : Env) (events : List FabricEvent) (s : State) : State :=
  events.foldl (fabricEvent env) s

/-- `cancel()`. -/
def cancel (env : Env) (s : State) (r : ReqId) (events : List FabricEvent) : State :=
  cancelWith env (progress env events) s r

/-- `lfi_request_free(r)`. -/
def requestFree (env : Env) (s : State) (r : ReqId) (events : List FabricEvent) : State :=
  freeWith env (progress env events) s r

/-! ### Case by case -/

variable {env : Env} {s : State} {r : ReqId} {q : LfiRequest} {ctx : ℕ}

theorem completeAt_of_none (h : s.core.contexts ctx = none) (err now : ℤ) :
    completeAt env s ctx err now = s := by
  simp only [completeAt, h]

theorem completeAt_of_some (h : s.core.contexts ctx = some r) (err now : ℤ) :
    completeAt env s ctx err now = complete env s r err now := by
  simp only [completeAt, h]

theorem receiveAt_of_none (h : s.core.contexts ctx = none) (len tag : ℕ) (now : ℤ) :
    receiveAt env s ctx len tag now = s := by
  simp only [receiveAt, h]

theorem receiveAt_of_some (h : s.core.contexts ctx = some r) (len tag : ℕ) (now : ℤ) :
    receiveAt env s ctx len tag now = receive env s r len tag now := by
  simp only [receiveAt, h]

theorem cancel_of_none (h : s.core.requests r = none) (events : List FabricEvent) :
    cancel env s r events = s := by
  simp only [cancel, cancelWith, h]

/-- Only the queues are cleaned: the request had ended. -/
theorem cancel_of_completed (h : s.core.requests r = some q) (hdone : q.isCompleted = true)
    (events : List FabricEvent) :
    cancel env s r events = ⟨eraseOps s.core q.waitContext, s.ft⟩ := by
  simp only [cancel, cancelWith, h, hdone, if_true]

theorem cancel_of_outstanding (h : s.core.requests r = some q) (hout : q.isCompleted = false)
    (events : List FabricEvent) :
    cancel env s r events =
      complete env (progress env events ⟨eraseOps s.core q.waitContext, s.ft⟩) r
        (cancelError s.ft q) 0 := by
  simp only [cancel, cancelWith, h, hout, Bool.false_eq_true, if_false]

theorem requestFree_of_none (h : s.core.requests r = none) (events : List FabricEvent) :
    requestFree env s r events = s := by
  simp only [requestFree, freeWith, h]

theorem requestFree_of_completed (h : s.core.requests r = some q) (hdone : q.isCompleted = true)
    (events : List FabricEvent) :
    requestFree env s r events = ⟨s.core.setRequest r none, s.ft⟩ := by
  simp only [requestFree, freeWith, h, hdone, if_true]

/-- The destructor cancels what is outstanding. -/
theorem requestFree_of_outstanding (h : s.core.requests r = some q) (hout : q.isCompleted = false)
    (events : List FabricEvent) :
    requestFree env s r events =
      ⟨(cancel env s r events).core.setRequest r none, (cancel env s r events).ft⟩ := by
  simp only [requestFree, freeWith, h, hout, Bool.false_eq_true, if_false, cancel]

end Impl
end Lfi
