/-
# Posting an operation

`async_send_internal` (`src/src/impl/send.cpp`), `async_recv_internal`
(`recv.cpp`), `async_put` and `async_get` (`rma.cpp`).  After their checks the four
do the same (`post`): they reset the request, give it a context, put the operation
into one of the two queues of the endpoint and register the request for
monitoring.
-/

import Lfi.Impl.Endpoint
import Mathlib.Algebra.Group.Int.Defs
import Mathlib.Algebra.Group.Nat.Defs

namespace Lfi
namespace Impl

/-- What an operation sets in its request. -/
structure RequestFields where
  opType : OpType
  size : ℕ
  tag : ℕ
  source : CommId

/-- What an operation gives to the fabric. -/
structure OpFields where
  type : PendingType
  buf : ℕ
  len : ℕ
  addr : ℕ
  tagRemoteAddr : ℕ
  ignoreRemoteKey : ℕ

/-- `reset()`. -/
def reset (s : Core) (r : ReqId) : Core :=
  match s.requests r with
  | none => s
  | some q =>
      (unassign s q.waitContext).setRequest r (some { q with
        opType := .none
        error := 0
        size := 0
        tag := 0
        source := uninitializedComm
        waitContext := none })

/-- The operation goes into the queue chosen by `priority`. -/
def pushOp (s : Core) (priority : Bool) (op : LfiPendingOp) : Core :=
  if priority then { s with priorityOps := s.priorityOps ++ [op] }
  else { s with pendingOps := s.pendingOps ++ [op] }

/-- The request side of a post. -/
def postCore (s : Core) (r : ReqId) (f : RequestFields) (o : OpFields) (priority : Bool) : Core :=
  let s := reset s r
  let p := createContext s r
  let ctx := p.1
  let s := p.2
  let s := s.setRequest r ((s.requests r).map fun q =>
    { q with
      opType := f.opType
      size := f.size
      tag := f.tag
      source := f.source
      waitContext := some ctx })
  pushOp { s with posts := s.posts + 1, lastPost := Function.update s.lastPost r s.posts } priority
    ⟨o.type, o.buf, o.len, o.addr, o.tagRemoteAddr, o.ignoreRemoteKey, ctx, r, s.posts⟩

/-- What all four do after their checks. -/
def post (env : Env) (s : State) (r : ReqId) (c : CommId) (f : RequestFields) (o : OpFields)
    (priority : Bool) : State :=
  ⟨postCore s.core r f o priority,
    if env.faultTolerance then registerRequest s.ft r c else s.ft⟩

/-- The checks all four begin with: the communicator is there, and it is not
cancelled. -/
def withComm (s : State) (r : ReqId) (k : LfiRequest → LfiComm → ℤ × State) : ℤ × State :=
  match s.core.requests r with
  | none => (-lfiCommNotFound, s)
  | some q =>
      if q.commId ∈ s.ft.commIds then
        if (s.ft.comm q.commId).isCanceled then (-lfiBrokenComm, s)
        else k q (s.ft.comm q.commId)
      else (-lfiCommNotFound, s)

/-- `async_send_internal`: `async_sendv` when `vector` is set, then `size` counts
the buffers. -/
def asyncSend (env : Env) (s : State) (r : ReqId) (buffer size tag : ℕ) (vector priority : Bool) :
    ℤ × State :=
  withComm s r fun q comm =>
    if isAnyComm q.commId then (-lfiSendAnyComm, s)
    else if vector ∧ env.iovLimit < size then (-lfiIovLimit, s)
    else
      let tagSend := (comm.rankSelfInPeer <<< maskRankBytes) ||| tag
      let inject := env.useInject ∧ vector = false ∧ size ≤ env.injectSize
      let type := if inject then .inject else if vector then .sendv else .send
      (lfiSuccess, post env s r q.commId
        ⟨if inject then .inject else .send, size, tag, q.commId⟩
        ⟨type, buffer, size, comm.fiAddr, tagSend, 0⟩ priority)

/-- `async_recv_internal`: `async_recvv` when `vector` is set. -/
def asyncRecv (env : Env) (s : State) (r : ReqId) (buffer size tag : ℕ) (vector priority : Bool) :
    ℤ × State :=
  withComm s r fun q comm =>
    if vector ∧ env.iovLimit < size then (-lfiIovLimit, s)
    else
      let tagRecv := (q.commId <<< maskRankBytes) ||| tag
      let mask := if isAnyComm q.commId then maskRank else 0
      (lfiSuccess, post env s r q.commId ⟨.recv, size, tag, q.commId⟩
        ⟨if vector then .recvv else .recv, buffer, size, comm.fiAddr, tagRecv, mask⟩ priority)

/-- `is_shm ? remote_key.shm_key : remote_key.peer_key`, as a `uint64_t`. -/
def remoteKey (env : Env) (key : LfiMrKey) : ℕ :=
  ((if env.isShm then key.shmKey else key.peerKey) % 2 ^ 64).toNat

/-- `async_put`. -/
def asyncPut (env : Env) (s : State) (r : ReqId) (buffer size remoteAddr : ℕ) (key : LfiMrKey)
    (priority : Bool) : ℤ × State :=
  withComm s r fun q comm =>
    (lfiSuccess, post env s r q.commId ⟨.put, size, 0, q.commId⟩
      ⟨.put, buffer, size, comm.fiAddr, remoteAddr, remoteKey env key⟩ priority)

/-- `async_get`. -/
def asyncGet (env : Env) (s : State) (r : ReqId) (buffer size remoteAddr : ℕ) (key : LfiMrKey)
    (priority : Bool) : ℤ × State :=
  withComm s r fun q comm =>
    (lfiSuccess, post env s r q.commId ⟨.get, size, 0, q.commId⟩
      ⟨.get, buffer, size, comm.fiAddr, remoteAddr, remoteKey env key⟩ priority)

/-- The arguments of a post. -/
inductive PostCall where
  | send (buffer size tag : ℕ) (vector priority : Bool)
  | recv (buffer size tag : ℕ) (vector priority : Bool)
  | put (buffer size remoteAddr : ℕ) (key : LfiMrKey) (priority : Bool)
  | get (buffer size remoteAddr : ℕ) (key : LfiMrKey) (priority : Bool)
  deriving DecidableEq, Repr

/-- One of the four. -/
def asyncPost (env : Env) (s : State) (r : ReqId) : PostCall → ℤ × State
  | .send b n tag vector priority => asyncSend env s r b n tag vector priority
  | .recv b n tag vector priority => asyncRecv env s r b n tag vector priority
  | .put b n addr key priority => asyncPut env s r b n addr key priority
  | .get b n addr key priority => asyncGet env s r b n addr key priority

/-- The queue it goes to. -/
def PostCall.priority : PostCall → Bool
  | .send _ _ _ _ priority => priority
  | .recv _ _ _ _ priority => priority
  | .put _ _ _ _ priority => priority
  | .get _ _ _ _ priority => priority

/-! ### What a post does -/

theorem withComm_of_none {s : State} {r : ReqId} (h : s.core.requests r = none)
    (k : LfiRequest → LfiComm → ℤ × State) : withComm s r k = (-lfiCommNotFound, s) := by
  simp only [withComm, h]

theorem withComm_of_some {s : State} {r : ReqId} {q : LfiRequest}
    (h : s.core.requests r = some q) (k : LfiRequest → LfiComm → ℤ × State) :
    withComm s r k =
      if q.commId ∈ s.ft.commIds then
        if (s.ft.comm q.commId).isCanceled then (-lfiBrokenComm, s)
        else k q (s.ft.comm q.commId)
      else (-lfiCommNotFound, s) := by
  simp only [withComm, h]

theorem withComm_cases (s : State) (r : ReqId) (k : LfiRequest → LfiComm → ℤ × State) :
    ((withComm s r k).1 < 0 ∧ (withComm s r k).2 = s) ∨
    ∃ q, s.core.requests r = some q ∧ q.commId ∈ s.ft.commIds ∧
      (s.ft.comm q.commId).isCanceled = false ∧ withComm s r k = k q (s.ft.comm q.commId) := by
  cases hr : s.core.requests r with
  | none =>
      rw [withComm_of_none hr]
      exact .inl ⟨by simp [lfiCommNotFound], rfl⟩
  | some q =>
      rw [withComm_of_some hr]
      by_cases hc : q.commId ∈ s.ft.commIds
      · cases hcan : (s.ft.comm q.commId).isCanceled with
        | true => exact .inl ⟨by simp [hc, lfiBrokenComm], by simp [hc]⟩
        | false => exact .inr ⟨q, rfl, hc, hcan, by simp [hc]⟩
      · exact .inl ⟨by simp [hc, lfiCommNotFound], by simp [hc]⟩

/-- **What a post does.**  It fails and changes nothing, or the request is on a
communicator that is there and not cancelled, and it is `post`ed with the address of the
communicator; injects go to a peer. -/
theorem asyncPost_spec (env : Env) (s : State) (r : ReqId) (call : PostCall) :
    ((asyncPost env s r call).1 < 0 ∧ (asyncPost env s r call).2 = s) ∨
    ∃ q f o, s.core.requests r = some q ∧ q.commId ∈ s.ft.commIds ∧
      (s.ft.comm q.commId).isCanceled = false ∧
      (isAnyComm q.commId = true → f.opType ≠ .inject) ∧ f.source = q.commId ∧
      o.addr = (s.ft.comm q.commId).fiAddr ∧
      asyncPost env s r call = (lfiSuccess, post env s r q.commId f o call.priority) := by
  cases call with
  | send b n tag vector priority =>
      simp only [asyncPost, asyncSend, PostCall.priority]
      rcases withComm_cases s r _ with h | ⟨q, hr, hc, hcan, h⟩
      · exact .inl h
      · rw [h]
        by_cases hany : isAnyComm q.commId
        · exact .inl (by simp [hany, lfiSendAnyComm])
        · by_cases hiov : vector ∧ env.iovLimit < n
          · exact .inl (by simp [hany, hiov, lfiIovLimit])
          · exact .inr ⟨q, _, _, hr, hc, hcan, fun h => absurd h hany, rfl, rfl, by
              simp only [hany, hiov, if_false, Bool.false_eq_true]; rfl⟩
  | recv b n tag vector priority =>
      simp only [asyncPost, asyncRecv, PostCall.priority]
      rcases withComm_cases s r _ with h | ⟨q, hr, hc, hcan, h⟩
      · exact .inl h
      · rw [h]
        by_cases hiov : vector ∧ env.iovLimit < n
        · exact .inl (by simp [hiov, lfiIovLimit])
        · exact .inr ⟨q, ⟨.recv, n, tag, q.commId⟩,
            ⟨if vector then .recvv else .recv, b, n, (s.ft.comm q.commId).fiAddr,
              (q.commId <<< maskRankBytes) ||| tag, if isAnyComm q.commId then maskRank else 0⟩,
            hr, hc, hcan, fun _ h => OpType.noConfusion h, rfl, rfl, by
              simp only [hiov, if_false]⟩
  | put b n addr key priority =>
      simp only [asyncPost, asyncPut, PostCall.priority]
      rcases withComm_cases s r _ with h | ⟨q, hr, hc, hcan, h⟩
      · exact .inl h
      · exact .inr ⟨q, _, _, hr, hc, hcan, fun _ h => OpType.noConfusion h, rfl, rfl, h⟩
  | get b n addr key priority =>
      simp only [asyncPost, asyncGet, PostCall.priority]
      rcases withComm_cases s r _ with h | ⟨q, hr, hc, hcan, h⟩
      · exact .inl h
      · exact .inr ⟨q, _, _, hr, hc, hcan, fun _ h => OpType.noConfusion h, rfl, rfl, h⟩

/-- What matters of it in most places. -/
theorem asyncPost_cases (env : Env) (s : State) (r : ReqId) (call : PostCall) :
    ((asyncPost env s r call).1 < 0 ∧ (asyncPost env s r call).2 = s) ∨
    ∃ q f o priority, s.core.requests r = some q ∧ q.commId ∈ s.ft.commIds ∧
      (s.ft.comm q.commId).isCanceled = false ∧
      (isAnyComm q.commId = true → f.opType ≠ .inject) ∧ f.source = q.commId ∧
      asyncPost env s r call = (lfiSuccess, post env s r q.commId f o priority) := by
  rcases asyncPost_spec env s r call with h | ⟨q, f, o, hq, hc, hcan, hinj, hsrc, -, h⟩
  · exact .inl h
  · exact .inr ⟨q, f, o, _, hq, hc, hcan, hinj, hsrc, h⟩

end Impl
end Lfi
