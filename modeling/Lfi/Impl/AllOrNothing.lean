/-
# Posting is all or nothing

`async_send`, `async_sendv`, `async_recv`, `async_recvv`, `async_put` and `async_get` check
first and change afterwards.  One that returns an error has changed nothing; one that
returns 0 has queued one operation, which waits on the request it was posted for, and the
request is on the books of fault tolerance (`post_all_or_nothing`).
-/

import Lfi.Impl.Freed
import Lfi.Impl.Queues

namespace Lfi
namespace Impl

open Runs

variable {env : Env} {s t : State} {r : ReqId}

/-- **An operation was queued** between `s` and `t`: one, at the end of the queue chosen by
`priority`, and its context and the request point to each other.  With fault tolerance on
the request is in `ft_requests` of its communicator once, and one on an any-comm also in
`ft_any_comm_requests`. -/
structure Enqueued (env : Env) (s t : State) (r : ReqId) (priority : Bool) (op : LfiPendingOp)
    (q : LfiRequest) : Prop where
  queue : t.core.queue priority = s.core.queue priority ++ [op]
  other : t.core.queue (!priority) = s.core.queue (!priority)
  request : t.core.requests r = some q
  waits : q.waitContext = some op.context
  back : t.core.contexts op.context = some r
  outstanding : q.isCompleted = false
  listed : env.faultTolerance = true →
    ∃ xs, Rep t.ft.reqNodes (t.ft.comm q.commId).ftRequests xs ∧ xs.count r = 1
  anys : env.faultTolerance = true → isAnyComm q.commId = true → r ∈ t.ft.ftAnyCommRequests

/-- The operation of a post waits on the context that is made for it. -/
theorem postCore_context {s : Core} {q : LfiRequest} (hq : s.requests r = some q)
    (f : RequestFields) (o : OpFields) (priority : Bool) :
    (postCore s r f o priority).requests r = some { q with
      error := 0
      waitContext := some (createContext (reset s r) r).1
      opType := f.opType
      size := f.size
      tag := f.tag
      source := f.source } := by
  simp [postCore, Core.setRequest, reset, hq]

/-- What a post does to the queues. -/
theorem postCore_queue (s : Core) (f : RequestFields) (o : OpFields) (priority : Bool) :
    (postCore s r f o priority).queue priority = s.queue priority ++
        [⟨o.type, o.buf, o.len, o.addr, o.tagRemoteAddr, o.ignoreRemoteKey,
          (createContext (reset s r) r).1, r, s.posts⟩] ∧
      (postCore s r f o priority).queue (!priority) = s.queue (!priority) := by
  obtain ⟨contexts, pool, created, hcreate⟩ := createContext_eq (reset s r) r
  obtain ⟨requests, contexts', hreset⟩ := reset_eq s r
  have hprio : (createContext (reset s r) r).2.priorityOps = s.priorityOps := by
    rw [hcreate, hreset]
  have hpend : (createContext (reset s r) r).2.pendingOps = s.pendingOps := by
    rw [hcreate, hreset]
  have hposts : (createContext (reset s r) r).2.posts = s.posts := by
    rw [hcreate, hreset]
  cases priority <;>
    simp [postCore, pushOp, Core.queue, Core.setRequest, hprio, hpend, hposts]

/-- The books after a post. -/
theorem post_listed {q : LfiRequest} (h : Accounts env s) (hq : s.core.requests r = some q)
    (hc : q.commId ∈ s.ft.commIds) (hon : s.core.onComm r = none)
    (hft : env.faultTolerance = true) (f : RequestFields) (o : OpFields) (priority : Bool) :
    ∃ xs, Rep (post env s r q.commId f o priority).ft.reqNodes
      ((post env s r q.commId f o priority).ft.comm q.commId).ftRequests xs ∧
      xs.count r = 1 := by
  have htracked := (h.books.tracked hft).1.post hft hq hc hon f o priority
  have honComm : (post env s r q.commId f o priority).core.onComm r = some q.commId := by
    show (postCore s.core r f o priority).onComm r = _
    rw [postCore_onComm hq hon, Function.update_self]
  obtain ⟨xs, hrep, hmem⟩ := htracked.rep q.commId (htracked.there r _ honComm)
  exact ⟨xs, hrep, List.count_eq_one_of_mem hrep.nodup ((hmem r).2 honComm)⟩

/-- **A post that succeeds queues one operation.** -/
theorem enqueued_post {q : LfiRequest} (h : Accounts env s) (hq : s.core.requests r = some q)
    (hc : q.commId ∈ s.ft.commIds) (hon : s.core.onComm r = none) (f : RequestFields)
    (o : OpFields) (priority : Bool) :
    ∃ op q', Enqueued env s (post env s r q.commId f o priority) r priority op q' := by
  have hrequest := postCore_context hq f o priority
  have hqueue := postCore_queue (r := r) s.core f o priority
  have hinv := h.contexts.postCore hq f o priority
  refine ⟨_, _, hqueue.1, hqueue.2, hrequest, rfl, hinv.back r _ _ hrequest rfl, rfl,
    fun hft => ?_, fun hft hany => ?_⟩
  · exact post_listed h hq hc hon hft f o priority
  · show r ∈ (if env.faultTolerance then registerRequest s.ft r q.commId
      else s.ft).ftAnyCommRequests
    rw [if_pos hft, registerRequest_anys]
    simp [show isAnyComm q.commId = true from hany]

/-- **Posting is all or nothing.**  In every reachable state and for every completed request,
a post that returns an error leaves the whole state as it was.  A post that returns 0 has
queued exactly one operation, in the queue it chose, and put the request on the books.  It
returns nothing else. -/
theorem post_all_or_nothing (env : Env) (s : State) (h : Reachable (lifeStep env) Fresh s)
    (r : ReqId) (hr : s.core.onComm r = none) (call : PostCall) :
    (asyncPost env s r call).1 ≤ 0 ∧
      ((asyncPost env s r call).1 < 0 → (asyncPost env s r call).2 = s) ∧
      ((asyncPost env s r call).1 = 0 →
        ∃ op q, Enqueued env s (asyncPost env s r call).2 r call.priority op q) := by
  have hs : Accounts env s ∧ NoneToCancel s :=
    h.invariant (P := fun s => Accounts env s ∧ NoneToCancel s)
      (fun _ hs => ⟨hs.accounts, hs.toCancel⟩) fun _ _ _ hs ht => lifeStep_accounts hs.1 hs.2 ht
  rcases asyncPost_spec env s r call with ⟨hneg, hsame⟩ | ⟨q, f, o, hq, hc, -, -, -, -, heq⟩
  · exact ⟨hneg.le, fun _ => hsame, fun h0 => absurd h0 hneg.ne⟩
  · rw [heq]
    exact ⟨le_rfl, fun hneg => absurd hneg (lt_irrefl _),
      fun _ => enqueued_post hs.1 hq hc hr f o call.priority⟩

/-- A receive from anybody, posted on the fresh endpoint of `twoReceives`. -/
theorem post_all_or_nothing_receive :
    let s := freshState {0, anyCommPeer} (fun k => if k = 0 then anyCommPeer else 0) 99
    ∃ op q, Enqueued Env.default s
      (asyncPost Env.default s (.user 0) (.recv 7 8 1 false false)).2 (.user 0) false op q :=
  (post_all_or_nothing Env.default _ ⟨_, [], fresh_freshState .., rfl⟩ (.user 0) rfl
    (.recv 7 8 1 false false)).2.2 (by decide)

end Impl
end Lfi
