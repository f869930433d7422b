/-
# What an operation and its request agree on

A post writes the kind and the size of an operation twice, into the operation and into its
request.  They stay the same for as long as the request waits for the operation (`Agreed`).  An
inject is over when the fabric takes it, so none of the operations in flight is one.
-/

import Lfi.Impl.Parts
import Lfi.Impl.Receives

namespace Lfi
namespace Impl

open Runs

/-- The `op_type` of a request whose operation has this type. -/
def PendingType.opType : PendingType → OpType
  | .send | .sendv => .send
  | .recv | .recvv => .recv
  | .inject => .inject
  | .put => .put
  | .get => .get

/-- The request that waits for an operation has its kind and size; injects are not in flight. -/
structure Agreed (s : Core) : Prop where
  agree : ∀ op ∈ s.ops, ∀ r q, s.contexts op.context = some r → s.requests r = some q →
    q.opType = op.type.opType ∧ q.size = op.len
  accepted : ∀ op ∈ s.inFlight, op.type ≠ .inject

variable {env : Env} {s t u : Core} {ops ops' : List LfiPendingOp} {r : ReqId}

/-! ### Operations move to the fabric and end -/

/-- The operations of `t` are among those of `s`, and what the fabric took is no inject. -/
structure Shrinks (s t : Core) : Prop where
  ops : ∀ op ∈ t.ops, op ∈ s.ops
  inFlight : ∀ op ∈ t.inFlight, op ∈ s.inFlight ∨ op.type ≠ .inject

theorem Shrinks.refl (s : Core) : Shrinks s s := ⟨fun _ h => h, fun _ h => .inl h⟩

theorem Shrinks.trans (h₁ : Shrinks s t) (h₂ : Shrinks t u) : Shrinks s u where
  ops op hop := h₁.ops op (h₂.ops op hop)
  inFlight op hop := (h₂.inFlight op hop).elim (h₁.inFlight op) .inr

/-- The operations stay as they are. -/
theorem shrinks_of_eq (hops : t.ops = s.ops) (hflight : t.inFlight = s.inFlight) :
    Shrinks s t :=
  ⟨fun _ hop => hops ▸ hop, fun _ hop => .inl (hflight ▸ hop)⟩

/-- `process_queue` gives the fabric operations of its queue, injects apart. -/
theorem processQueue_inFlight (ops : List LfiPendingOp) (answers : List ℤ) (s : State) (now : ℤ) :
    ∀ op ∈ (processQueue env now ops answers s).2.2.core.inFlight,
      op ∈ s.core.inFlight ∨ op ∈ ops ∧ op.type ≠ .inject := by
  induction ops generalizing answers s with
  | nil => exact fun op hop => .inl hop
  | cons first ops ih =>
    cases answers with
    | nil => exact fun op hop => .inl hop
    | cons ret answers =>
      unfold processQueue
      split
      case isTrue => exact fun op hop => .inl hop
      case isFalse =>
        intro op hop
        rcases ih answers (postOp env s first ret now) op hop with hop | ⟨hop, htype⟩
        · unfold postOp at hop
          split at hop
          case isTrue => exact .inl ((completeAt_queues ..).2.2 ▸ hop)
          case isFalse =>
            split at hop
            case isTrue => exact .inl ((completeAt_queues s first.context ..).2.2 ▸ hop)
            case isFalse htype =>
              rcases List.mem_append.1 hop with hop | hop
              · exact .inl hop
              · obtain rfl := List.mem_singleton.1 hop
                exact .inr ⟨List.mem_cons_self .., htype⟩
        · exact .inr ⟨List.mem_cons_of_mem _ hop, htype⟩

/-- What is handed over was queued, and is no inject. -/
theorem postPendingOps_inFlight (s : State) (answers : List ℤ) (now : ℤ) :
    ∀ op ∈ (postPendingOps env s answers now).core.inFlight,
      op ∈ s.core.inFlight ∨ op ∈ s.core.queued ∧ op.type ≠ .inject := by
  have hfirst := @processQueue_inFlight env s.core.priorityOps answers s now
  obtain ⟨-, hpend⟩ := @processQueue_queues env s.core.priorityOps answers s now
  unfold postPendingOps
  generalize processQueue env now s.core.priorityOps answers s = p at *
  have hold : ∀ op ∈ p.2.2.core.inFlight,
      op ∈ s.core.inFlight ∨ op ∈ s.core.queued ∧ op.type ≠ .inject := by
    intro op hop
    exact (hfirst op hop).imp_right fun h => ⟨List.mem_append_left _ h.1, h.2⟩
  dsimp only
  split
  case isFalse => exact hold
  case isTrue =>
    intro op hop
    rcases processQueue_inFlight _ _ _ _ op hop with hop | ⟨hop, htype⟩
    · exact hold op hop
    · exact .inr ⟨List.mem_append_right _ (hpend ▸ hop), htype⟩

/-- An event of the fabric. -/
theorem fabricEvent_shrinks (s : State) (e : FabricEvent) :
    Shrinks s.core (fabricEvent env s e).core := by
  have htake : ∀ ctx, Shrinks s.core (takeBack s.core ctx) := fun ctx =>
    ⟨fun op hop => ((List.Sublist.refl _).append List.filter_sublist).subset hop,
      fun op hop => .inl (List.mem_of_mem_filter hop)⟩
  cases e with
  | heartbeatValue c value => exact .refl _
  | success ctx len tag now =>
    simp only [fabricEvent]
    split
    case isFalse => exact .refl _
    case isTrue =>
      have hread := @receiveAt_queues env ⟨takeBack s.core ctx, s.ft⟩ ctx len tag now
      exact (htake ctx).trans (shrinks_of_eq (Core.ops_eq hread) hread.2.2)
  | error ctx err =>
    simp only [fabricEvent]
    split
    case isFalse => exact .refl _
    case isTrue =>
      have hread := @completeAt_queues env ⟨takeBack s.core ctx, s.ft⟩ ctx (cqErrorCode err) 0
      exact (htake ctx).trans (shrinks_of_eq (Core.ops_eq hread) hread.2.2)
  | postPendingOps answers now =>
    have hflight := @postPendingOps_inFlight env s answers now
    refine ⟨fun op hop => ?_, fun op hop => (hflight op hop).imp_right And.right⟩
    rcases List.mem_append.1 hop with hop | hop
    · exact List.mem_append_left _
        ((@fabricEvent_queued env s (.postPendingOps answers now)).subset hop)
    · rcases hflight op hop with hop | ⟨hop, -⟩
      · exact List.mem_append_right _ hop
      · exact List.mem_append_left _ hop

/-- A progress step, and what `cancel` and the others make of the operations. -/
theorem progress_shrinks (s : State) (events : List FabricEvent) :
    Shrinks s.core (progress env events s).core :=
  progress_induction (P := fun t => Shrinks s.core t.core)
    (fun t e h => h.trans (fabricEvent_shrinks t e)) (.refl _) events

theorem eraseOps_shrinks (s : Core) (w : Option ℕ) : Shrinks s (eraseOps s w) := by
  cases w with
  | none => exact .refl s
  | some c =>
    exact ⟨fun op hop => ((List.filter_sublist.append List.filter_sublist).append
      (List.Sublist.refl _)).subset hop, fun op hop => .inl hop⟩

theorem cancel_shrinks (s : State) (r : ReqId) (events : List FabricEvent) :
    Shrinks s.core (cancel env s r events).core := by
  refine cancel_parts (P := fun t => Shrinks s.core t.core)
    (fun q _ => eraseOps_shrinks s.core q.waitContext)
    (fun t h => h.trans (progress_shrinks t events)) (fun t err _ h => ?_) (.refl _)
  have hqueues := @complete_queues env t r err 0
  exact h.trans (shrinks_of_eq (Core.ops_eq hqueues) hqueues.2.2)

theorem requestFree_shrinks (s : State) (r : ReqId) (events : List FabricEvent) :
    Shrinks s.core (requestFree env s r events).core :=
  requestFree_induction (P := fun t => Shrinks s.core t.core)
    (fun t h => h.trans (cancel_shrinks t r events))
    (fun _ _ h => h.trans (shrinks_of_eq rfl rfl)) (.refl _)

theorem cancelComm_shrinks (events : ReqId → List FabricEvent) (s : State) (c : CommId) :
    Shrinks s.core (cancelComm env events s c).core := by
  have hloop := @cancelRequests_induction env (markCanceled s c)
    (fun t => Shrinks s.core t.core) events c
    (fun t r _ h => h.trans (cancel_shrinks t r (events r))) (.refl _)
  exact (hloop _).trans (requestFree_shrinks _ _ _)

/-! ### The agreement along a step -/

/-- A context that points to a request in `t` did so in `s`, and the request was the same kind
and size. -/
def SamePairs (s t : Core) : Prop :=
  ∀ c r q, t.contexts c = some r → t.requests r = some q →
    s.contexts c = some r ∧ ∃ p, s.requests r = some p ∧ p.opType = q.opType ∧ p.size = q.size

theorem Agreed.step (h : Agreed s) (hops : Shrinks s t) (hpairs : SamePairs s t) : Agreed t where
  agree op hop r q hctx hq := by
    obtain ⟨hctx', p, hp, htype, hsize⟩ := hpairs _ r q hctx hq
    obtain ⟨htype', hsize'⟩ := h.agree op (hops.ops op hop) r p hctx' hp
    exact ⟨htype.symm.trans htype', hsize.symm.trans hsize'⟩
  accepted op hop := (hops.inFlight op hop).elim (h.accepted op) id

/-- Progress keeps the requests that are waited for. -/
theorem samePairs_progressed {s t : State} (hs : ContextInv s.core ops)
    (ht : ContextInv t.core ops') (hp : Progressed s t) : SamePairs s.core t.core := by
  intro c r q hctx hq
  have hkept := hp.kept r (ht.outstanding hctx)
  have hq' : s.core.requests r = some q := hkept ▸ hq
  exact ⟨hs.back r q c hq' ((ht.contexts_iff hq c).1 hctx), q, hq', rfl, rfl⟩

/-- What only completes requests leaves the others agreed. -/
theorem Agreed.progressed {s t : State} (h : Agreed s.core) (hs : ContextInv s.core ops)
    (ht : ContextInv t.core ops') (hp : Progressed s t) (hops : Shrinks s.core t.core) :
    Agreed t.core :=
  h.step hops (samePairs_progressed hs ht hp)

/-- A completed request that is used again is not waited for. -/
theorem Agreed.reuses (h : Agreed s) (hinv : ContextInv s ops) (hr : s.onComm r = none)
    (hu : Reuses r s t) (hops : t.ops = s.ops) (hflight : t.inFlight = s.inFlight) : Agreed t := by
  refine h.step (shrinks_of_eq hops hflight) fun c r' q hctx hq => ?_
  rw [hu.contexts] at hctx
  have hne : r' ≠ r := fun h' => hinv.not_pointed hr c (h' ▸ hctx)
  exact ⟨hctx, q, hu.others r' hne ▸ hq, rfl, rfl⟩

/-- `reset` starts from a request that waits for nothing. -/
theorem Agreed.reset (h : Agreed s) (hinv : ContextInv s ops) (hr : s.onComm r = none) :
    Agreed (reset s r) := by
  obtain ⟨requests, contexts, heq⟩ := reset_eq s r
  exact h.reuses hinv hr (reuses_reset hr) (by rw [heq]; rfl) (by rw [heq])

/-- A report changes the error and the source of its request. -/
theorem Agreed.reportTo {s : State} (h : Agreed s.core) (r : ReqId) (c : CommId) :
    Agreed (reportTo s r c).core := by
  refine h.step (shrinks_of_eq rfl rfl) fun ctx r' q hctx hq => ⟨hctx, ?_⟩
  by_cases hr : r' = r
  · subst hr
    simp only [Impl.reportTo, Core.setRequest, Function.update_self, Option.map_eq_some_iff] at hq
    obtain ⟨p, hp, rfl⟩ := hq
    exact ⟨p, hp, rfl, rfl⟩
  · exact ⟨q, by simpa [Impl.reportTo, Core.setRequest, hr] using hq, rfl, rfl⟩

/-- The `size` of a call; the number of buffers in a vectored one. -/
def PostCall.size : PostCall → ℕ
  | .send _ n _ _ _ => n
  | .recv _ n _ _ _ => n
  | .put _ n _ _ _ => n
  | .get _ n _ _ _ => n

/-- A post writes the same into the operation and its request. -/
theorem asyncPost_agrees (env : Env) (s : State) (r : ReqId) (call : PostCall) :
    ((asyncPost env s r call).1 < 0 ∧ (asyncPost env s r call).2 = s) ∨
      ∃ q f o, s.core.requests r = some q ∧
        (asyncPost env s r call).2 = post env s r q.commId f o call.priority ∧
        f.opType = o.type.opType ∧ f.size = o.len ∧ f.size = call.size ∧
        (f.opType = .recv ↔ ¬call.Directed) := by
  cases call with
  | send b n tag vector priority =>
    simp only [asyncPost, asyncSend]
    rcases withComm_cases s r _ with h | ⟨q, hr, -, -, h⟩
    · exact .inl h
    · rw [h]
      split
      case isTrue => exact .inl ⟨by simp [lfiSendAnyComm], rfl⟩
      case isFalse =>
        split
        case isTrue => exact .inl ⟨by simp [lfiIovLimit], rfl⟩
        case isFalse =>
          refine .inr ⟨q, _, _, hr, rfl, ?_, rfl, rfl, ?_⟩
          · dsimp only
            split
            case isTrue => rfl
            case isFalse => split <;> rfl
          · refine iff_of_false ?_ (not_not.2 trivial)
            dsimp only
            split <;> decide
  | recv b n tag vector priority =>
    simp only [asyncPost, asyncRecv]
    rcases withComm_cases s r _ with h | ⟨q, hr, -, -, h⟩
    · exact .inl h
    · rw [h]
      split
      case isTrue => exact .inl ⟨by simp [lfiIovLimit], rfl⟩
      case isFalse =>
        refine .inr ⟨q, _, _, hr, rfl, ?_, rfl, rfl, iff_of_true rfl id⟩
        dsimp only
        split <;> rfl
  | put b n addr key priority =>
    simp only [asyncPost, asyncPut]
    rcases withComm_cases s r _ with h | ⟨q, hr, -, -, h⟩
    · exact .inl h
    · exact .inr ⟨q, ⟨.put, n, 0, q.commId⟩, _, hr, by rw [h]; rfl, rfl, rfl, rfl,
        iff_of_false (fun h => by cases h) (not_not.2 trivial)⟩
  | get b n addr key priority =>
    simp only [asyncPost, asyncGet]
    rcases withComm_cases s r _ with h | ⟨q, hr, -, -, h⟩
    · exact .inl h
    · exact .inr ⟨q, ⟨.get, n, 0, q.commId⟩, _, hr, by rw [h]; rfl, rfl, rfl, rfl,
        iff_of_false (fun h => by cases h) (not_not.2 trivial)⟩

/-- A post writes both sides of the pair. -/
theorem Agreed.postCore (h : Agreed s) (hinv : ContextInv s s.ops) {q : LfiRequest}
    (hq : s.requests r = some q) (hr : s.onComm r = none) {f : RequestFields} {o : OpFields}
    (priority : Bool) (htype : f.opType = o.type.opType) (hsize : f.size = o.len) :
    Agreed (postCore s r f o priority) := by
  have hpost := hinv.postCore hq f o priority
  obtain ⟨hunused, hnew, -⟩ := (hinv.reset r).createContext r
  have hreq := postCore_context hq f o priority
  have hother := fun r' (hr' : r' ≠ r) => @postCore_requests_of_ne s r r' hr' f o priority
  have hflight : (Impl.postCore s r f o priority).inFlight = s.inFlight := by
    obtain ⟨contexts, pool, created, hcreate⟩ := createContext_eq (Impl.reset s r) r
    obtain ⟨requests, contexts', hreset⟩ := reset_eq s r
    unfold Impl.postCore
    dsimp only
    obtain ⟨priorityOps, pendingOps, hpush⟩ := pushOp_eq _ priority _
    rw [hpush, hcreate, hreset]
    rfl
  refine ⟨fun op hop r' q' hctx hq' => ?_, fun op hop => h.accepted op (hflight ▸ hop)⟩
  have hmem : op ∈ s.ops ∨ op = ⟨o.type, o.buf, o.len, o.addr, o.tagRemoteAddr, o.ignoreRemoteKey,
      (createContext (Impl.reset s r) r).1, r, s.posts⟩ := by
    rcases List.mem_append.1 hop with hop | hop
    · exact ((mem_queued_postCore f o priority).1 hop).imp_left (List.mem_append_left _)
    · exact .inl (List.mem_append_right _ (hflight ▸ hop))
  have hwait := (hpost.contexts_iff hq' op.context).1 hctx
  by_cases hne : r' = r
  · -- the request waits for the new operation only
    subst hne
    rw [hreq] at hq'
    obtain rfl := Option.some.inj hq'
    rcases hmem with hmem | rfl
    · exact absurd (Option.some.inj hwait).symm (hnew op hmem)
    · exact ⟨htype, hsize⟩
  · rw [hother r' hne] at hq'
    have hctx' := hinv.back r' q' _ hq' hwait
    rcases hmem with hmem | rfl
    · exact h.agree op hmem r' q' hctx' hq'
    · have hcontexts := (reuses_reset hr).contexts
      rw [hcontexts] at hunused
      exact absurd (hunused.symm.trans hctx') nofun

theorem Agreed.asyncPost {s : State} (h : Agreed s.core) (hinv : ContextInv s.core s.core.ops)
    (hr : s.core.onComm r = none) (call : PostCall) : Agreed (asyncPost env s r call).2.core := by
  rcases asyncPost_agrees env s r call with ⟨-, heq⟩ | ⟨q, f, o, hq, heq, htype, hsize, -⟩ <;>
    rw [heq]
  · exact h
  · exact h.postCore hinv hq hr _ htype hsize

theorem Agreed.fabricEvent {s : State} (h : Agreed s.core) (hinv : ContextInv s.core s.core.ops)
    (e : FabricEvent) : Agreed (fabricEvent env s e).core :=
  h.progressed hinv (hinv.fabricEvent e) (fabricEvent_progressed e) (fabricEvent_shrinks s e)

theorem Fresh.agreed {s : State} (h : Fresh s) : Agreed s.core where
  agree op hop := by simp [Core.ops, h.priorityOps, h.pendingOps, h.inFlight] at hop
  accepted op hop := by simp [h.inFlight] at hop

/-! ### Passes -/

theorem Agreed.startHeartbeat {s : State} (h : Agreed s.core) (hkept : Kept env s) (c : CommId)
    (beat : ℤ) : Agreed (startHeartbeat env s c beat).core := by
  have hensure : Agreed (ensureHeartbeat s.core c) := by
    unfold ensureHeartbeat
    cases hnone : s.core.requests (.heartbeat c) with
    | some q => exact h
    | none =>
      refine h.reuses hkept.accounts.contexts (r := .heartbeat c) (by simp [Core.onComm, hnone])
        (reuses_setRequest fun q hq => ?_) rfl rfl
      rw [← Option.some.inj hq]
      exact ⟨rfl, rfl⟩
  have hposted := hkept.posted.ensureHeartbeat c
  unfold Impl.startHeartbeat
  dsimp only
  split
  case isFalse => exact hensure
  case isTrue hfree =>
    have hnone := heartbeatFree_iff.1 hfree
    have hready := @Agreed.asyncPost env _
      ⟨Impl.reset (ensureHeartbeat s.core c) (.heartbeat c), clearValue s.ft c⟩
      (hensure.reset hposted.inv hnone)
      (hposted.reset hnone).inv
      ((congrFun (reset_onComm hnone).1 _).trans hnone)
      (.get 0 8 (s.ft.comm c).ftRemoteHeartbeatAddr (s.ft.comm c).ftRemoteHeartbeatKey true)
    split
    case isTrue => exact hready
    case isFalse => exact hready

theorem Agreed.cancelComm {s : State} (h : Agreed s.core) (hkept : Kept env s)
    (events : ReqId → List FabricEvent) (c : CommId) : Agreed (cancelComm env events s c).core := by
  have hops := @cancelComm_shrinks env events s c
  have hinv := (@Posted.cancelComm env _ hkept.posted events c).inv
  obtain ⟨u, hprog, heq, -⟩ := cancelComm_eq env events s c
  rw [heq] at hops hinv ⊢
  exact h.progressed (s := markCanceled s c) (t := u) hkept.accounts.contexts hinv hprog hops

/-- **The agreement holds in every state**, those inside a pass included. -/
theorem Agreed.partStep {s t : State} (h : Agreed s.core) (hkept : Kept env s)
    (hft : env.faultTolerance = true) {a : PartAction} (ht : partStep env s a = some t) :
    Agreed t.core := by
  have hnext := hkept.partStep hft ht
  have hprog : Progressed s t → Shrinks s.core t.core → Agreed t.core :=
    h.progressed hkept.accounts.contexts hnext.accounts.contexts
  cases a with
  | post k call =>
    simp only [Impl.partStep, Option.ite_none_right_eq_some, Option.some.injEq] at ht
    obtain ⟨hon, rfl⟩ := ht
    exact h.asyncPost hkept.accounts.contexts hon call
  | fabric e =>
    obtain rfl := Option.some.inj ht
    exact hprog (fabricEvent_progressed e) (fabricEvent_shrinks s e)
  | cancel r events =>
    obtain rfl := Option.some.inj ht
    exact hprog (cancel_progressed r events) (cancel_shrinks s r events)
  | free k events =>
    obtain rfl := Option.some.inj ht
    exact hprog (requestFree_progressed _ events) (requestFree_shrinks s _ events)
  | processComm now beat c =>
    obtain rfl := Option.some.inj ht
    rcases processComm_cases env now beat s c with ⟨-, heq⟩ | ⟨-, -, -, heq⟩ | ⟨-, -, -, heq⟩ |
      ⟨-, -, -, -, heq⟩ | ⟨-, -, -, heq⟩ <;> rw [heq]
    · exact h
    · exact h.startHeartbeat hkept c (beat c)
    · exact h
    · exact h
    · exact h
  | cancelComm c events =>
    obtain rfl := Option.some.inj ht
    exact h.cancelComm hkept events c
  | reportTo r c =>
    obtain rfl := Option.some.inj ht
    exact h.reportTo r c
  | note pending canceled toCancel last count failed =>
    obtain rfl := Option.some.inj ht
    exact h
  | closeComm c events =>
    obtain rfl := Option.some.inj ht
    unfold Impl.closeComm
    split
    case isFalse => exact h
    case isTrue => exact h.cancelComm hkept events c

/-- **In every state** requests and operations agree. -/
theorem reachable_agreed {s : State} (hft : env.faultTolerance = true)
    (h : Reachable (Impl.partStep env) Fresh s) : Kept env s ∧ Agreed s.core :=
  h.invariant (P := fun s => Kept env s ∧ Agreed s.core)
    (fun _ hs => ⟨⟨hs.accounts, hs.posted.live⟩, hs.agreed⟩)
    fun _ _ _ hs ht => ⟨hs.1.partStep hft ht, hs.2.partStep hs.1 hft ht⟩

end Impl
end Lfi
