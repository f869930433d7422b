/-
# Contexts and operations

A request is tied to its operation by a context: the request points to it
(`wait_context`), it points back, and the fabric returns it with the completion
entry.  Contexts are used again through the pool of their factory and requests are
posted again, so an entry may come for an operation its request has left behind.

`ContextInv` is the invariant that keeps the two apart.  This file shows that
completing a request, giving a context back to the pool and posting keep it; what
the fabric and the user do is made of these (`Lfi.Impl.CrossTalk`).
-/

import Lfi.Impl.Progressed

namespace Lfi
namespace Impl

/-- The invariant of contexts, for the operations `ops` that are queued or in
flight: requests and contexts point to each other, the pool has unused contexts
only, every operation has a context of its own, and the request its context points
to is the one it was posted for and was not posted since. -/
structure ContextInv (s : Core) (ops : List LfiPendingOp) : Prop where
  sound : ∀ c r, s.contexts c = some r → ∃ q, s.requests r = some q ∧ q.waitContext = some c
  back : ∀ r q c, s.requests r = some q → q.waitContext = some c → s.contexts c = some r
  made : ∀ c r, s.contexts c = some r → c < s.created
  poolNodup : s.pool.Nodup
  poolUnused : ∀ c ∈ s.pool, s.contexts c = none ∧ c < s.created
  opsNodup : (ops.map (·.context)).Nodup
  opsMade : ∀ op ∈ ops, op.context ∉ s.pool ∧ op.context < s.created
  current : ∀ op ∈ ops, ∀ r, s.contexts op.context = some r →
    r = op.owner ∧ s.lastPost r = op.post

/-- The operations of a state. -/
def Core.ops (s : Core) : List LfiPendingOp := s.priorityOps ++ s.pendingOps ++ s.inFlight

variable {env : Env} {s t : Core} {ops ops' : List LfiPendingOp}

namespace ContextInv

/-! ### Steps that leave the contexts alone -/

/-- Fewer operations, in another order. -/
theorem subperm (h : ContextInv s ops) (hops : ops'.Subperm ops) : ContextInv s ops' := by
  refine { h with opsNodup := ?_, opsMade := ?_, current := ?_ }
  · obtain ⟨l, hl, hsub⟩ := hops
    exact (hl.map _).nodup_iff.1 (h.opsNodup.sublist (hsub.map _))
  · exact fun op hop => h.opsMade op (hops.subset hop)
  · exact fun op hop => h.current op (hops.subset hop)

theorem perm (h : ContextInv s ops) (hops : ops'.Perm ops) : ContextInv s ops' :=
  h.subperm hops.subperm

/-- What a request carries besides its context does not matter. -/
theorem congr (h : ContextInv s ops)
    (hreq : ∀ r, (t.requests r).map (·.waitContext) = (s.requests r).map (·.waitContext))
    (hctx : t.contexts = s.contexts) (hpool : t.pool = s.pool) (hcreated : t.created = s.created)
    (hpost : t.lastPost = s.lastPost) : ContextInv t ops := by
  have hwait : ∀ r c, (∃ q, t.requests r = some q ∧ q.waitContext = some c) ↔
      ∃ q, s.requests r = some q ∧ q.waitContext = some c := fun r c => by
    have := congrArg (· = some (some c)) (hreq r)
    simpa [Option.map_eq_some_iff] using this
  refine ⟨fun c r hc => ?_, fun r q c hq hw => ?_, ?_, ?_, ?_, h.opsNodup, ?_, ?_⟩
  · exact (hwait r c).2 (h.sound c r (by rwa [hctx] at hc))
  · obtain ⟨q', hq', hw'⟩ := (hwait r c).1 ⟨q, hq, hw⟩
    rw [hctx]
    exact h.back r q' c hq' hw'
  · rw [hctx, hcreated]; exact h.made
  · rw [hpool]; exact h.poolNodup
  · rw [hpool, hctx, hcreated]; exact h.poolUnused
  · rw [hpool, hcreated]; exact h.opsMade
  · rw [hctx, hpost]; exact h.current

/-- Where the state keeps the operations does not matter either. -/
theorem moveOps (h : ContextInv s ops) (priorityOps pendingOps inFlight : List LfiPendingOp) :
    ContextInv { s with
      priorityOps := priorityOps
      pendingOps := pendingOps
      inFlight := inFlight } ops :=
  h.congr (fun _ => rfl) rfl rfl rfl rfl

/-! ### Requests leave their contexts -/

/-- A context points to the request that waits on it, and to no other. -/
theorem contexts_iff (h : ContextInv s ops) {r : ReqId} {q : LfiRequest}
    (hq : s.requests r = some q) (c : ℕ) : s.contexts c = some r ↔ q.waitContext = some c := by
  constructor
  · intro hc
    obtain ⟨q', hq', hw⟩ := h.sound c r hc
    rw [hq] at hq'
    rwa [Option.some.inj hq']
  · exact h.back r q c hq

/-- No context points to a request that waits on none. -/
theorem not_pointed (h : ContextInv s ops) {r : ReqId} (hr : s.onComm r = none) (c : ℕ) :
    s.contexts c ≠ some r := by
  intro hc
  obtain ⟨q, hq, hw⟩ := h.sound c r hc
  simp [Core.onComm, hq, LfiRequest.isCompleted, hw] at hr

theorem unassign_contexts (s : Core) (w : Option ℕ) (c : ℕ) :
    (unassign s w).contexts c = if w = some c then none else s.contexts c := by
  cases w with
  | none => simp [unassign]
  | some d =>
      by_cases hd : d = c
      · subst hd; simp [unassign, Core.setContext]
      · simp [unassign, Core.setContext, hd, Ne.symm hd]

/-- A request that leaves its context, and is otherwise anything that waits on
none, keeps the invariant. -/
theorem leave (h : ContextInv s ops) {r : ReqId} {q : LfiRequest} (hq : s.requests r = some q)
    (hreq : t.requests = Function.update s.requests r (t.requests r))
    (hnone : ∀ q', t.requests r = some q' → q'.waitContext = none)
    (hctx : t.contexts = (unassign s q.waitContext).contexts) (hpool : t.pool = s.pool)
    (hcreated : t.created = s.created) (hpost : t.lastPost = s.lastPost) : ContextInv t ops := by
  have hother : ∀ r', r' ≠ r → t.requests r' = s.requests r' := fun r' hr' => by
    rw [hreq, Function.update_of_ne hr']
  have hkeep : ∀ c r', t.contexts c = some r' ↔ s.contexts c = some r' ∧ r' ≠ r := by
    intro c r'
    rw [hctx, unassign_contexts]
    have hr := h.contexts_iff hq c
    constructor
    · intro hc
      split at hc
      case isTrue => cases hc
      case isFalse hw => exact ⟨hc, fun hrr => hw (hr.1 (hrr ▸ hc))⟩
    · rintro ⟨hc, hne⟩
      rw [if_neg, hc]
      intro hw
      rw [hr.2 hw] at hc
      exact hne (Option.some.inj hc).symm
  refine ⟨fun c r' hc => ?_, fun r' q' c hq' hw => ?_, fun c r' hc => ?_, ?_, fun c hc => ?_,
    h.opsNodup, ?_, fun op hop r' hc => ?_⟩
  · obtain ⟨hc, hne⟩ := (hkeep c r').1 hc
    rw [hother r' hne]
    exact h.sound c r' hc
  · by_cases hr : r' = r
    · subst hr
      rw [hnone q' hq'] at hw
      cases hw
    · rw [hother r' hr] at hq'
      exact (hkeep c r').2 ⟨h.back r' q' c hq' hw, hr⟩
  · rw [hcreated]
    exact h.made c r' ((hkeep c r').1 hc).1
  · rw [hpool]; exact h.poolNodup
  · rw [hpool] at hc
    refine ⟨?_, by rw [hcreated]; exact (h.poolUnused c hc).2⟩
    rw [hctx, unassign_contexts]
    split
    case isTrue => rfl
    case isFalse => exact (h.poolUnused c hc).1
  · rw [hpool, hcreated]; exact h.opsMade
  · rw [hpost]
    exact h.current op hop r' ((hkeep _ r').1 hc).1

/-- The body of `complete`. -/
theorem completeBody (h : ContextInv s ops) (r : ReqId) (err : ℤ) :
    ContextInv (completeBody s r err) ops := by
  cases hq : s.requests r with
  | none => simpa [Impl.completeBody, hq] using h
  | some q =>
      refine h.leave hq ?_ (fun q' hq' => ?_) ?_ ?_ ?_ ?_
      · rw [completeBody_requests, Function.update_self]
      · rw [completeBody_requests, Function.update_self, hq, Option.map_some] at hq'
        rw [← Option.some.inj hq']
      all_goals
        simp only [Impl.completeBody, hq]
        cases q.sharedWaitStruct <;> cases q.callback <;> cases q.waitContext <;> rfl

/-- `complete`. -/
theorem complete {s : State} (h : ContextInv s.core ops) (r : ReqId) (err now : ℤ) :
    ContextInv (complete env s r err now).core ops := by
  unfold Impl.complete
  cases s.core.requests r with
  | none => exact h
  | some q =>
      dsimp only
      split
      case isTrue => exact h
      case isFalse => exact h.completeBody r err

/-- A completed request has no context. -/
theorem complete_contexts {s : State} (h : ContextInv s.core ops) {c : ℕ} {r : ReqId}
    (err now : ℤ) (hc : s.core.contexts c = some r) :
    (Impl.complete env s r err now).core.contexts c = none := by
  rw [Option.eq_none_iff_forall_ne_some]
  intro r' hc'
  have hinv : ContextInv (Impl.complete env s r err now).core ops := h.complete r err now
  have hne : r' ≠ r := fun hr => hinv.not_pointed (by rw [complete_onComm, hr]; simp) c hc'
  -- no other request waits on the context
  obtain ⟨q', hq', hw'⟩ := hinv.sound c r' hc'
  have hkeep := (@complete_progressed env s r err now).kept r'
    (by simp [Core.onComm, hq', LfiRequest.isCompleted, hw'])
  rw [hkeep] at hq'
  have := (h.back r' q' c hq' hw').symm.trans hc
  exact hne (Option.some.inj this)

/-! ### The pool -/

/-- An unused context that no operation has goes back to the pool. -/
theorem destroyContext (h : ContextInv s ops) {c : ℕ} (hc : s.contexts c = none)
    (hpool : c ∉ s.pool) (hmade : c < s.created) (hops : ∀ op ∈ ops, op.context ≠ c) :
    ContextInv (destroyContext s c) ops := by
  have hctx : (Impl.destroyContext s c).contexts = s.contexts := by
    simp only [Impl.destroyContext, Core.setContext]
    rw [← hc, Function.update_eq_self]
  refine ⟨?_, ?_, ?_, ?_, ?_, h.opsNodup, fun op hop => ?_, ?_⟩
  · rw [hctx]; exact h.sound
  · rw [hctx]; exact h.back
  · rw [hctx]; exact h.made
  · exact List.nodup_append.2 ⟨h.poolNodup, List.nodup_singleton c, fun a ha b hb hab =>
      hpool (List.mem_singleton.1 hb ▸ hab ▸ ha)⟩
  · rw [hctx]
    intro d hd
    rcases List.mem_append.1 hd with hd | hd
    · exact h.poolUnused d hd
    · rw [List.mem_singleton.1 hd]
      exact ⟨hc, hmade⟩
  · refine ⟨fun hmem => ?_, (h.opsMade op hop).2⟩
    rcases List.mem_append.1 hmem with hmem | hmem
    · exact (h.opsMade op hop).1 hmem
    · exact hops op hop (List.mem_singleton.1 hmem)
  · rw [hctx]; exact h.current

/-! ### Posting -/

/-- `reset`. -/
theorem reset (h : ContextInv s ops) (r : ReqId) : ContextInv (reset s r) ops := by
  cases hq : s.requests r with
  | none => simpa only [Impl.reset, hq] using h
  | some q =>
      have heq : Impl.reset s r = (unassign s q.waitContext).setRequest r (some { q with
          opType := .none
          error := 0
          size := 0
          tag := 0
          source := uninitializedComm
          waitContext := none }) := by
        unfold Impl.reset
        rw [hq]
      rw [heq]
      refine h.leave hq ?_ (fun q' hq' => ?_) rfl ?_ ?_ ?_
      · simp [Core.setRequest]
      · obtain rfl : _ = q' := by simpa [Core.setRequest] using hq'
        rfl
      all_goals cases q.waitContext <;> rfl

/-- The context of a new operation was unused, and is not in the pool any more. -/
theorem createContext (h : ContextInv s ops) (r : ReqId) :
    s.contexts (createContext s r).1 = none ∧ (∀ op ∈ ops, op.context ≠ (createContext s r).1) ∧
      ∃ pool created, (createContext s r).1 ∉ pool ∧ (createContext s r).1 < created ∧
        pool.Sublist s.pool ∧ s.created ≤ created ∧
        (createContext s r).2 = { s with
          contexts := Function.update s.contexts (createContext s r).1 (some r)
          pool := pool
          created := created } := by
  unfold Impl.createContext
  cases hlast : s.pool.getLast? with
  | none =>
      refine ⟨?_, fun op hop => ((h.opsMade op hop).2).ne, s.pool, s.created + 1, fun hc => ?_,
        Nat.lt_succ_self _, List.Sublist.refl _, Nat.le_succ _, rfl⟩
      · rw [Option.eq_none_iff_forall_ne_some]
        exact fun r' hr' => Nat.lt_irrefl _ (h.made _ r' hr')
      · exact Nat.lt_irrefl _ (h.poolUnused _ hc).2
  | some d =>
      obtain ⟨l, hl⟩ := List.getLast?_eq_some_iff.1 hlast
      have hd : d ∈ s.pool := by simp [hl]
      have hnd := h.poolNodup
      rw [hl, List.nodup_append] at hnd
      refine ⟨(h.poolUnused d hd).1, fun op hop hc => (h.opsMade op hop).1 (hc ▸ hd),
        s.pool.dropLast, s.created, fun hc => ?_, (h.poolUnused d hd).2, List.dropLast_sublist _,
        Nat.le_refl _, rfl⟩
      rw [hl, List.dropLast_concat] at hc
      exact hnd.2.2 d hc d (by simp) rfl

/-- A request that waits on no context gets an unused one for a new operation. -/
theorem assign (h : ContextInv s ops) {r : ReqId} (hr : s.onComm r = none) {q : LfiRequest}
    {op : LfiPendingOp} (hw : q.waitContext = some op.context) (howner : op.owner = r)
    (hunused : s.contexts op.context = none) (hnew : ∀ op' ∈ ops, op'.context ≠ op.context)
    (hreq : t.requests = Function.update s.requests r (some q))
    (hctx : t.contexts = Function.update s.contexts op.context (some r))
    (hpool : op.context ∉ t.pool) (hmade : op.context < t.created) (hsub : t.pool.Sublist s.pool)
    (hle : s.created ≤ t.created) (hpost : t.lastPost = Function.update s.lastPost r op.post) :
    ContextInv t (op :: ops) := by
  have hold : ∀ c r', s.contexts c = some r' → c ≠ op.context ∧ r' ≠ r := by
    refine fun c r' hc => ⟨fun h' => ?_, fun h' => h.not_pointed hr c (h' ▸ hc)⟩
    rw [h', hunused] at hc
    cases hc
  have hcases : ∀ c r', t.contexts c = some r' →
      c = op.context ∧ r' = r ∨ s.contexts c = some r' := by
    intro c r' hc
    rw [hctx] at hc
    by_cases h' : c = op.context
    · rw [h', Function.update_self] at hc
      exact .inl ⟨h', (Option.some.inj hc).symm⟩
    · rw [Function.update_of_ne h'] at hc
      exact .inr hc
  refine ⟨fun c r' hc => ?_, fun r' q' c hq' hw' => ?_, fun c r' hc => ?_, h.poolNodup.sublist hsub,
    fun c hc => ?_, ?_, fun op' hop => ?_, fun op' hop r' hc => ?_⟩
  · rcases hcases c r' hc with ⟨rfl, rfl⟩ | hc
    · exact ⟨q, by rw [hreq, Function.update_self], hw⟩
    · rw [hreq, Function.update_of_ne (hold c r' hc).2]
      exact h.sound c r' hc
  · rw [hctx]
    by_cases h' : r' = r
    · subst h'
      rw [hreq, Function.update_self] at hq'
      rw [← Option.some.inj hq', hw] at hw'
      rw [← Option.some.inj hw', Function.update_self]
    · rw [hreq, Function.update_of_ne h'] at hq'
      have hc := h.back r' q' c hq' hw'
      rw [Function.update_of_ne (hold c r' hc).1, hc]
  · rcases hcases c r' hc with ⟨rfl, -⟩ | hc
    · exact hmade
    · exact (h.made c r' hc).trans_le hle
  · have hne : c ≠ op.context := fun h' => hpool (h' ▸ hc)
    rw [hctx, Function.update_of_ne hne]
    exact ⟨(h.poolUnused c (hsub.subset hc)).1,
      (h.poolUnused c (hsub.subset hc)).2.trans_le hle⟩
  · rw [List.map_cons, List.nodup_cons]
    refine ⟨fun hmem => ?_, h.opsNodup⟩
    obtain ⟨op', hop, heq⟩ := List.mem_map.1 hmem
    exact hnew op' hop heq
  · rcases List.mem_cons.1 hop with rfl | hop
    · exact ⟨hpool, hmade⟩
    · exact ⟨fun hc => (h.opsMade op' hop).1 (hsub.subset hc),
        (h.opsMade op' hop).2.trans_le hle⟩
  · rw [hpost]
    rcases List.mem_cons.1 hop with rfl | hop
    · obtain rfl : r' = r := by
        rcases hcases op'.context r' hc with ⟨-, h'⟩ | h'
        · exact h'
        · exact absurd rfl (hold _ r' h').1
      exact ⟨howner.symm, Function.update_self ..⟩
    · rcases hcases op'.context r' hc with ⟨h', -⟩ | h'
      · exact absurd h' (hnew op' hop)
      · rw [Function.update_of_ne (hold _ r' h').2]
        exact h.current op' hop r' h'

end ContextInv

/-! ### Queues -/

theorem pushOp_ops_perm (s : Core) (priority : Bool) (op : LfiPendingOp) :
    (pushOp s priority op).ops.Perm (op :: s.ops) := by
  have hmid : ∀ xs ys : List LfiPendingOp, (xs ++ [op] ++ ys).Perm (op :: (xs ++ ys)) :=
    fun xs ys => by simp
  unfold pushOp
  split
  case isTrue => simp [Core.ops]
  case isFalse => simpa [Core.ops] using hmid (s.priorityOps ++ s.pendingOps) s.inFlight

namespace ContextInv

/-- The request side of a post. -/
theorem postCore (h : ContextInv s s.ops) {r : ReqId} {q : LfiRequest}
    (hq : s.requests r = some q) (f : RequestFields) (o : OpFields) (priority : Bool) :
    ContextInv (postCore s r f o priority) (postCore s r f o priority).ops := by
  have hreset := h.reset r
  obtain ⟨q', hq', hw'⟩ : ∃ q', (Impl.reset s r).requests r = some q' ∧ q'.waitContext = none := by
    simp [Impl.reset, hq, Core.setRequest]
  have hfree : (Impl.reset s r).onComm r = none := by
    simp [Core.onComm, hq', LfiRequest.isCompleted, hw']
  obtain ⟨requests, contexts, heq⟩ := reset_eq s r
  obtain ⟨hunused, hnew, pool, created, hpool, hmade, hsub, hle, ht⟩ := hreset.createContext r
  refine perm ?_ (pushOp_ops_perm _ _ _)
  have hops : ∀ u : Core, u.priorityOps = s.priorityOps → u.pendingOps = s.pendingOps →
      u.inFlight = s.inFlight → u.ops = s.ops := fun u h₁ h₂ h₃ => by
    rw [Core.ops, h₁, h₂, h₃]; rfl
  rw [hops _ (by rw [ht, heq]; rfl) (by rw [ht, heq]; rfl) (by rw [ht, heq]; rfl)]
  refine hreset.assign hfree (q := { q' with
      opType := f.opType
      size := f.size
      tag := f.tag
      source := f.source
      waitContext := some (Impl.createContext (Impl.reset s r) r).1 })
    rfl rfl hunused hnew ?_ ?_ ?_ ?_ ?_ ?_ ?_
  all_goals
    unfold Impl.postCore
    dsimp only
    obtain ⟨priorityOps, pendingOps, hpush⟩ := pushOp_eq _ priority _
    rw [hpush, ht]
  · simp [Core.setRequest, hq']
  · rfl
  · exact hpool
  · exact hmade
  · exact hsub
  · exact hle
  · rfl

end ContextInv

end Impl
end Lfi
