/-
# Receives and their requests

A receive that is queued or in flight is what its request waits for, until a cancel completes
the request: then the receive is given up, and unless the request was used again it says that
it failed (`Held`).  Entries and attempts, the body of a cancel's `complete` and the next use
of a request keep that.
-/

import Lfi.Impl.Addressing
import Lfi.Impl.Elsewhere

namespace Lfi
namespace Impl

/-- The operation takes a message. -/
def PendingType.Receives : PendingType → Prop
  | .recv | .recvv => True
  | _ => False

instance : DecidablePred PendingType.Receives := fun type => by
  cases type <;> unfold PendingType.Receives <;> infer_instance

/-- The operations that wait on the context of a request. -/
def Core.waiting (s : Core) (r : ReqId) : List LfiPendingOp :=
  s.ops.filter fun op => s.contexts op.context = some r

variable {env : Env} {s t : Core} {ops rest : List LfiPendingOp}

/-! ### Operations that are held -/

/-- The request of the receive waits for it. -/
def WaitedFor (s : Core) (op : LfiPendingOp) : Prop :=
  s.contexts op.context = some op.owner ∧
    ∀ q, s.requests op.owner = some q → q.opType = .recv

/-- A cancel has completed the request of the receive.  Unless it was used again it still says
that it failed. -/
def LeftBehind (s : Core) (op : LfiPendingOp) : Prop :=
  s.contexts op.context = none ∧
    (s.lastPost op.owner = op.post → s.onComm op.owner = none ∧
      ∀ q, s.requests op.owner = some q → q.opType = .recv → q.error ≠ lfiSuccess)

/-- What holds of an operation that is queued or in flight, when the operations `g` were given
up. -/
structure Held (g : List LfiPendingOp) (s : Core) (op : LfiPendingOp) : Prop where
  post : op.post < s.posts
  waited : op.type.Receives → op ∉ g → WaitedFor s op
  left : op.type.Receives → op ∈ g → LeftBehind s op

variable {g : List LfiPendingOp} {op : LfiPendingOp}

/-- What happens elsewhere does not matter to an operation. -/
theorem Held.elsewhere (h : Held g s op) (he : Elsewhere op.context s t) : Held g t op where
  post := he.posts ▸ h.post
  waited hrecv hg := by
    obtain ⟨hctx, htype⟩ := h.waited hrecv hg
    refine ⟨he.context.trans hctx, fun q hq => htype q ?_⟩
    rw [← he.request op.owner hctx]
    exact hq
  left hrecv hg := by
    obtain ⟨hctx, hlast⟩ := h.left hrecv hg
    refine ⟨he.context.trans hctx, fun hpost => ?_⟩
    obtain ⟨hon, herr⟩ := hlast (he.lastPost ▸ hpost)
    have hsame := he.completed op.owner hon
    exact ⟨(Core.onComm_congr hsame).trans hon, hsame ▸ herr⟩

theorem survives_held (g : List LfiPendingOp) : Survives (Held g) :=
  fun _ _ _ h he => h.elsewhere he

/-! ### The body of a cancel's complete -/

/-- The contexts after the body of `complete`. -/
theorem ContextInv.completeBody_contexts (h : ContextInv s ops) (r : ReqId) (err : ℤ) (c : ℕ) :
    (Impl.completeBody s r err).contexts c =
      if s.contexts c = some r then none else s.contexts c := by
  cases hq : s.requests r with
  | none =>
      have hne : s.contexts c ≠ some r := fun hc => by
        obtain ⟨q, hq', -⟩ := h.sound c r hc
        rw [hq] at hq'
        cases hq'
      rw [if_neg hne, Impl.completeBody, hq]
  | some q =>
      have heq : (Impl.completeBody s r err).contexts = (unassign s q.waitContext).contexts := by
        simp only [Impl.completeBody, hq]
        cases q.sharedWaitStruct <;> cases q.callback <;> cases q.waitContext <;> rfl
      rw [heq, unassign_contexts]
      simp only [h.contexts_iff hq c]

/-- It touches neither the operations nor the numbers of posts. -/
theorem completeBody_kept (s : Core) (r : ReqId) (err : ℤ) :
    (completeBody s r err).ops = s.ops ∧ (completeBody s r err).posts = s.posts ∧
      (completeBody s r err).lastPost = s.lastPost := by
  unfold completeBody
  cases s.requests r with
  | none => exact ⟨rfl, rfl, rfl⟩
  | some q =>
      dsimp only
      cases q.sharedWaitStruct <;> cases q.callback <;> cases q.waitContext <;>
        exact ⟨rfl, rfl, rfl⟩

/-- The operations whose request a cancel completes are given up. -/
theorem held_completeBody (hinv : ContextInv s s.ops) (h : ∀ op ∈ s.ops, Held g s op)
    (r : ReqId) {err : ℤ} (herr : err ≠ lfiSuccess) :
    ∀ op ∈ (completeBody s r err).ops, Held (g ++ s.waiting r) (completeBody s r err) op := by
  obtain ⟨hops, hposts, hlast⟩ := completeBody_kept s r err
  rw [hops]
  intro op hop
  obtain ⟨hpost, hwaited, hleft⟩ := h op hop
  have hctx := hinv.completeBody_contexts r err op.context
  have hreq : ∀ r' ≠ r, (completeBody s r err).requests r' = s.requests r' := fun r' hr' => by
    rw [completeBody_requests, Function.update_of_ne hr']
  have hon : (completeBody s r err).onComm r = none := by
    rw [completeBody_onComm, Function.update_self]
  have hfailed : ∀ q, (completeBody s r err).requests r = some q → q.error ≠ lfiSuccess := by
    intro q hq
    rw [completeBody_requests, Function.update_self] at hq
    obtain ⟨q', -, rfl⟩ := Option.map_eq_some_iff.1 hq
    exact herr
  by_cases hwait : s.contexts op.context = some r
  case pos =>
    have hmem : op ∈ g ++ s.waiting r :=
      List.mem_append_right _ (List.mem_filter.2 ⟨hop, by simpa using hwait⟩)
    obtain ⟨howner, -⟩ := hinv.current op hop r hwait
    rw [if_pos hwait] at hctx
    refine ⟨hposts ▸ hpost, fun _ hg => absurd hmem hg, fun _ _ => ⟨hctx, fun _ => ?_⟩⟩
    rw [← howner]
    exact ⟨hon, fun q hq _ => hfailed q hq⟩
  case neg =>
    have hmem : op ∈ g ++ s.waiting r ↔ op ∈ g := by
      simp [Core.waiting, hwait]
    rw [if_neg hwait] at hctx
    refine ⟨hposts ▸ hpost, fun hrecv hg => ?_, fun hrecv hg => ?_⟩
    · obtain ⟨hself, htype⟩ := hwaited hrecv (fun hg' => hg (hmem.2 hg'))
      have hne : op.owner ≠ r := fun h' => hwait (h' ▸ hself)
      exact ⟨hctx.trans hself, fun q hq => htype q (hreq _ hne ▸ hq)⟩
    · obtain ⟨hnone, hgone⟩ := hleft hrecv (hmem.1 hg)
      refine ⟨hctx.trans hnone, fun hsame => ?_⟩
      by_cases howner : op.owner = r
      · rw [howner]
        exact ⟨hon, fun q hq _ => hfailed q hq⟩
      · obtain ⟨honOwner, herrOwner⟩ := hgone (hlast ▸ hsame)
        rw [hreq _ howner]
        exact ⟨(Core.onComm_congr (hreq _ howner)).trans honOwner, herrOwner⟩

/-! ### Using a request again -/

theorem receives_iff (type : PendingType) : type.Receives ↔ ¬ type.Directed := by
  cases type <;> simp [PendingType.Receives, PendingType.Directed]

/-- A post of a receive makes the request one. -/
theorem asyncPost_receives (env : Env) (s : State) (r : ReqId) (call : PostCall) :
    (asyncPost env s r call).2 = s ∨
    ∃ q f o, s.core.requests r = some q ∧
      (asyncPost env s r call).2 = post env s r q.commId f o call.priority ∧
      (o.type.Receives → f.opType = .recv) := by
  rcases asyncPost_spec env s r call with ⟨-, hsame⟩ | ⟨q, -, -, hq, -⟩
  · exact .inl hsame
  · rcases @asyncPost_accepts env _ _ _ hq call with ⟨-, hsame⟩ |
      ⟨-, f, o, heq, -, -, hrecv⟩
    · exact .inl hsame
    · exact .inr ⟨q, f, o, hq, by rw [heq], fun h => hrecv ((receives_iff _).1 h)⟩

/-- A change of a completed request that leaves it completed, and does not make it say that a
receive ended with success. -/
structure Reuses (r : ReqId) (s t : Core) : Prop where
  posts : t.posts = s.posts
  lastPost : t.lastPost = s.lastPost
  contexts : t.contexts = s.contexts
  others : ∀ r' ≠ r, t.requests r' = s.requests r'
  completed : t.onComm r = none
  silent : ∀ q, t.requests r = some q → q.opType ≠ .recv

theorem Held.reuses {r : ReqId} (h : Held g s op) (hinv : ContextInv s ops)
    (hr : s.onComm r = none) (hu : Reuses r s t) : Held g t op where
  post := hu.posts ▸ h.post
  waited hrecv hg := by
    obtain ⟨hctx, htype⟩ := h.waited hrecv hg
    have hne : op.owner ≠ r := fun h' => hinv.not_pointed hr op.context (h' ▸ hctx)
    exact ⟨hu.contexts ▸ hctx, fun q hq => htype q (hu.others _ hne ▸ hq)⟩
  left hrecv hg := by
    obtain ⟨hctx, hlast⟩ := h.left hrecv hg
    refine ⟨hu.contexts ▸ hctx, fun hpost => ?_⟩
    by_cases howner : op.owner = r
    · rw [howner]
      exact ⟨hu.completed, fun q hq htype => absurd htype (hu.silent q hq)⟩
    · obtain ⟨hon, herr⟩ := hlast (hu.lastPost ▸ hpost)
      rw [hu.others _ howner]
      exact ⟨(Core.onComm_congr (hu.others _ howner)).trans hon, herr⟩

/-- `reset` of a completed request. -/
theorem reuses_reset {r : ReqId} (hr : s.onComm r = none) : Reuses r s (reset s r) := by
  cases hq : s.requests r with
  | none =>
      have heq : reset s r = s := by simp [reset, hq]
      rw [heq]
      exact ⟨rfl, rfl, rfl, fun _ _ => rfl, hr, fun q hq' => by rw [hq] at hq'; cases hq'⟩
  | some q =>
      have hw : q.waitContext = none := by
        simpa [Core.onComm, hq, LfiRequest.isCompleted] using hr
      refine ⟨?_, ?_, ?_, fun r' hr' => ?_, (reset_onComm hr).1 ▸ hr, fun q' hq' => ?_⟩
      · simp [reset, hq, hw, unassign, Core.setRequest]
      · simp [reset, hq, hw, unassign, Core.setRequest]
      · simp [reset, hq, hw, unassign, Core.setRequest]
      · simp [reset, hq, hw, unassign, Core.setRequest, hr']
      · obtain rfl : _ = q' := by simpa [reset, hq, Core.setRequest] using hq'
        exact fun h => by cases h

/-- A request that is created, or freed. -/
theorem reuses_setRequest {r : ReqId} {q : Option LfiRequest}
    (hq : ∀ q', q = some q' → q'.isCompleted = true ∧ q'.opType = .none) :
    Reuses r s (s.setRequest r q) := by
  refine ⟨rfl, rfl, rfl, fun r' hr' => Function.update_of_ne hr' .., ?_, fun q' hq' => ?_⟩
  · cases q with
    | none => simp [Core.onComm, Core.setRequest]
    | some q' => simp [Core.onComm, Core.setRequest, (hq q' rfl).1]
  · rw [(hq q' (by simpa [Core.setRequest] using hq')).2]
    exact fun h => by cases h

/-- **The operation of a post** is the last one of its request and waited for; the operations of
earlier posts, and the other contexts and requests, are not concerned. -/
theorem postCore_ops (hinv : ContextInv s s.ops) (r : ReqId) (f : RequestFields) (o : OpFields)
    (priority : Bool) :
    (postCore s r f o priority).posts = s.posts + 1 ∧
      (postCore s r f o priority).lastPost = Function.update s.lastPost r s.posts ∧
      ∀ op ∈ (postCore s r f o priority).ops,
        (op ∈ s.ops ∧ (postCore s r f o priority).contexts op.context =
          (reset s r).contexts op.context) ∨
        (op.owner = r ∧ op.post = s.posts ∧ op.type = o.type ∧
          (postCore s r f o priority).contexts op.context = some r) := by
  obtain ⟨hunused, hnew, pool, created, -, -, -, -, hcreate⟩ := (hinv.reset r).createContext r
  obtain ⟨requests, contexts, heq⟩ := reset_eq s r
  obtain ⟨priorityOps, pendingOps, hpush⟩ :
      ∃ priorityOps pendingOps, postCore s r f o priority = { s with
        requests := (postCore s r f o priority).requests
        contexts := Function.update (reset s r).contexts (createContext (reset s r) r).1 (some r)
        pool := pool
        created := created
        priorityOps := priorityOps
        pendingOps := pendingOps
        posts := s.posts + 1
        lastPost := Function.update s.lastPost r s.posts } := by
    unfold postCore
    dsimp only
    obtain ⟨priorityOps, pendingOps, hpush⟩ := pushOp_eq _ priority _
    rw [hpush, hcreate, heq]
    exact ⟨_, _, rfl⟩
  have hctx : (postCore s r f o priority).contexts =
      Function.update (reset s r).contexts (createContext (reset s r) r).1 (some r) := by rw [hpush]
  have hfly : (postCore s r f o priority).inFlight = s.inFlight := by rw [hpush]
  have hold : ∀ op ∈ s.ops, (postCore s r f o priority).contexts op.context =
      (reset s r).contexts op.context := fun op hop => by
    rw [hctx, Function.update_of_ne (hnew op hop)]
  refine ⟨by rw [hpush], by rw [hpush], fun op hop => ?_⟩
  rcases List.mem_append.1 hop with hop | hop
  · rcases (mem_queued_postCore f o priority).1 hop with hop | rfl
    · have hmem : op ∈ s.ops := List.mem_append_left _ hop
      exact .inl ⟨hmem, hold op hmem⟩
    · exact .inr ⟨rfl, rfl, rfl, by rw [hctx, Function.update_self]⟩
  · have hmem : op ∈ s.ops := List.mem_append_right _ (hfly ▸ hop)
    exact .inl ⟨hmem, hold op hmem⟩

/-- The operation of a post is waited for, and those of earlier posts are not concerned. -/
theorem held_postCore (hinv : ContextInv s s.ops) (h : ∀ op ∈ s.ops, Held g s op)
    (hg : ∀ op ∈ g, op.post < s.posts) {r : ReqId} {q : LfiRequest} (hq : s.requests r = some q)
    (hr : s.onComm r = none) {f : RequestFields} {o : OpFields} (priority : Bool)
    (hrecv : o.type.Receives → f.opType = .recv) :
    ∀ op ∈ (postCore s r f o priority).ops, Held g (postCore s r f o priority) op := by
  obtain ⟨hposts, hlast, hops⟩ := postCore_ops hinv r f o priority
  have hreq := postCore_context hq f o priority
  have hother := fun r' (hr' : r' ≠ r) => @postCore_requests_of_ne s r r' hr' f o priority
  intro op hop
  rcases hops op hop with ⟨hop, hkeep⟩ | ⟨howner, hnumber, htype, hself⟩
  case inr =>
    refine ⟨by rw [hposts, hnumber]; exact Nat.lt_succ_self _,
      fun hrecv' _ => ⟨howner ▸ hself, fun q' hq' => ?_⟩,
      fun _ hmem => absurd (hg _ hmem) (hnumber ▸ Nat.lt_irrefl _)⟩
    rw [howner, hreq] at hq'
    rw [← Option.some.inj hq']
    exact hrecv (htype ▸ hrecv')
  case inl =>
    obtain ⟨hpost, hwaited, hleft⟩ := h op hop
    rw [(reuses_reset hr).contexts] at hkeep
    refine ⟨by rw [hposts]; exact Nat.lt_succ_of_lt hpost, fun htype hmem => ?_,
      fun htype hmem => ?_⟩
    · obtain ⟨hself, hrecv'⟩ := hwaited htype hmem
      have hne : op.owner ≠ r := fun h' => hinv.not_pointed hr op.context (h' ▸ hself)
      exact ⟨hkeep.trans hself, fun q' hq' => hrecv' q' (hother _ hne ▸ hq')⟩
    · obtain ⟨hnone, hgone⟩ := hleft htype hmem
      refine ⟨hkeep.trans hnone, fun hsame => ?_⟩
      -- the request was used again, if it is the one of the post
      have hne : op.owner ≠ r := fun h' => by
        rw [hlast, h', Function.update_self] at hsame
        exact hpost.ne hsame.symm
      rw [hlast, Function.update_of_ne hne] at hsame
      obtain ⟨honOwner, herr⟩ := hgone hsame
      rw [hother _ hne]
      exact ⟨(Core.onComm_congr (hother _ hne)).trans honOwner, herr⟩

end Impl
end Lfi
