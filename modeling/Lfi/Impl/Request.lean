/-
# Completing and cancelling a request

`complete` and `cancel` of `src/src/impl/lfi_request.cpp`, the context factory of
`src/include/impl/lfi_request_context.hpp`, and the two functions of
`src/src/impl/ft_manager.cpp` that keep track of outstanding requests,
`register_request` and `on_request_complete`.

`complete` is made of three parts, each under its own lock or none: the check of
`is_completed()`, `on_request_complete` and the rest of the body.  They are
functions of their own here, and `complete` is the three in a row.  A `cancel`
runs a progress step of the endpoint before it completes the request; what that
step does is an argument, given in `Lfi.Impl.Endpoint`.
-/

import Lfi.Impl.State

namespace Lfi
namespace Impl

/-! ### Contexts -/

/-- `assign` and `unassign` of a context. -/
def Core.setContext (s : Core) (c : ℕ) (r : Option ReqId) : Core :=
  { s with contexts := Function.update s.contexts c r }

/-- `lfi_request_context_factory::create(req)`: the last context of the pool, or a
new one. -/
def createContext (s : Core) (r : ReqId) : ℕ × Core :=
  match s.pool.getLast? with
  | some c => (c, { s with pool := s.pool.dropLast }.setContext c (some r))
  | none => (s.created, { s with created := s.created + 1 }.setContext s.created (some r))

/-- `lfi_request_context_factory::destroy(ctx)`. -/
def destroyContext (s : Core) (c : ℕ) : Core :=
  { s.setContext c none with pool := s.pool ++ [c] }

/-- `wait_context->unassign()`, when there is one. -/
def unassign (s : Core) (c : Option ℕ) : Core :=
  match c with
  | some c => s.setContext c none
  | none => s

/-! ### `complete` -/

/-- The body of `complete(err)` under the request's mutex: the error, the context,
the count of an attached `wait_struct`, the callback. -/
def completeBody (s : Core) (r : ReqId) (err : ℤ) : Core :=
  match s.requests r with
  | none => s
  | some q =>
      let s := unassign s q.waitContext
      let s := s.setRequest r (some { q with error := err, waitContext := none })
      let s := match q.sharedWaitStruct with
        | some w => { s with waitCount := Function.update s.waitCount w (s.waitCount w - 1) }
        | none => s
      let s := match q.callback with
        | some f => { s with callbacks := s.callbacks ++ [(f, err)] }
        | none => s
      { s with completions := s.completions ++ [⟨r, q.commId, err, q.source⟩] }

/-- `comm->ft_requests.push_back(req)`. -/
def pushRequest (s : Ft) (r : ReqId) (c : CommId) : Ft :=
  let p := pushBack s.reqNodes (s.comm c).ftRequests r
  { s with reqNodes := p.1 }.setComm c { s.comm c with ftRequests := p.2 }

/-- `comm->ft_requests.erase(req)`. -/
def eraseRequest (s : Ft) (r : ReqId) (c : CommId) : Ft :=
  let p := erase s.reqNodes (s.comm c).ftRequests r
  { s with reqNodes := p.1 }.setComm c { s.comm c with ftRequests := p.2 }

/-- `ft_comms.push_back(comm)`. -/
def pushComm (s : Ft) (c : CommId) : Ft :=
  let p := pushBack s.commNodes s.ftComms c
  { s with commNodes := p.1, ftComms := p.2 }

/-- `ft_comms.erase(comm)`. -/
def eraseComm (s : Ft) (c : CommId) : Ft :=
  let p := erase s.commNodes s.ftComms c
  { s with commNodes := p.1, ftComms := p.2 }

/-- `ft_any_comm_requests.erase(req)`, for a request of an any-comm. -/
def eraseAnyRequest (s : Ft) (r : ReqId) (c : CommId) : Ft :=
  if isAnyComm c then { s with ftAnyCommRequests := s.ftAnyCommRequests.erase r } else s

/-- `register_request(req, comm)`. -/
def registerRequest (s : Ft) (r : ReqId) (c : CommId) : Ft :=
  let s :=
    if isAnyComm c then { s with ftAnyCommRequests := insert r s.ftAnyCommRequests }
    else if (s.commNodes c).inserted then s
    else pushComm s c
  pushRequest s r c

/-- `comm_to_update->ft_last_request_time = clock::now()`. -/
def touchComm (s : Ft) (c : CommId) (now : ℤ) : Ft :=
  if c ∈ s.commIds then s.setComm c { s.comm c with ftLastRequestTime := now } else s

/-- `on_request_complete(req, err)` for a request of the communicator `c` whose
`source` is given; `now` is what the clock reads. -/
def onRequestComplete (s : Ft) (r : ReqId) (c source : CommId) (err now : ℤ) : Ft :=
  if c ∈ s.commIds then
    let s := eraseAnyRequest (eraseRequest s r c) r c
    if err = lfiSuccess then touchComm s source now else s
  else s

/-- `complete(err)`. -/
def complete (env : Env) (s : State) (r : ReqId) (err now : ℤ) : State :=
  match s.core.requests r with
  | none => s
  | some q =>
      if q.isCompleted then s
      else
        let ft := if env.faultTolerance then onRequestComplete s.ft r q.commId q.source err now
          else s.ft
        ⟨completeBody s.core r err, ft⟩

/-! ### `cancel` -/

/-- The first part of `cancel`: the operations with the context are taken out of
both queues. -/
def eraseOps (s : Core) (c : Option ℕ) : Core :=
  match c with
  | some c =>
      { s with
        priorityOps := s.priorityOps.filter fun op => op.context != c
        pendingOps := s.pendingOps.filter fun op => op.context != c }
  | none => s

/-- `cancel_error`: an inject is not looked up; otherwise the communicator or an
earlier report says whether the peer is lost. -/
def cancelError (s : Ft) (q : LfiRequest) : ℤ :=
  if q.opType ≠ .inject ∧
      ((q.commId ∈ s.commIds ∧ (s.comm q.commId).isCanceled = true) ∨ q.error = -lfiBrokenComm)
  then -lfiBrokenComm
  else -lfiCanceled

/-- `cancel()`, with the progress step it runs before it completes. -/
def cancelWith (env : Env) (progress : State → State) (s : State) (r : ReqId) : State :=
  match s.core.requests r with
  | none => s
  | some q =>
      let s := { s with core := eraseOps s.core q.waitContext }
      if q.isCompleted then s
      else complete env (progress s) r (cancelError s.ft q) 0

/-- `~lfi_request()`. -/
def freeWith (env : Env) (progress : State → State) (s : State) (r : ReqId) : State :=
  match s.core.requests r with
  | none => s
  | some q =>
      let s := if q.isCompleted then s else cancelWith env progress s r
      { s with core := s.core.setRequest r none }

end Impl
end Lfi
