/-
# The order of posts

What a run does to the two queues of an endpoint (`posting_order`).  Each queue is drained
in the order it was filled, every operation once at most; `pending_ops` waits until
`priority_ops` is empty; and an operation that is attempted is what its request waits for,
so that one the fabric refuses completes its request with the error.

The last point needs what `lfi_async.h` asks of the user, that a request is used again only
when it is completed (`ReusesCompleted`).  Then every queued operation has the context its
request waits on (`Live`): whatever completes the request takes the operation out of its
queue first.
-/

import Lfi.Impl.Queues

namespace Lfi
namespace Impl

open Runs

/-- The operations in the two queues. -/
def Core.queued (s : Core) : List LfiPendingOp := s.priorityOps ++ s.pendingOps

/-- The request of each of these operations waits for it. -/
def Live (s : Core) (ops : List LfiPendingOp) : Prop :=
  ∀ op ∈ ops, s.contexts op.context = some op.owner

/-- "It is valid to reuse the request when it has been completed or cancelled." -/
def ReusesCompleted (s : State) : OpAction → Prop
  | .post r _ => s.core.onComm r = none
  | _ => True

instance (s : State) : DecidablePred (ReusesCompleted s) := fun a => by
  cases a <;> unfold ReusesCompleted <;> infer_instance

/-- The contexts are right and the queued operations are waited for. -/
structure Posted (s : Core) : Prop where
  inv : ContextInv s s.ops
  live : Live s s.queued

/-- The attempt is of an operation that its request waits for. -/
def Attempt.Ok (a : Attempt) : Prop :=
  ∃ ops, ContextInv a.before.core ops ∧ a.op ∈ ops ∧ Live a.before.core [a.op]

variable {env : Env} {s t : State} {ops rest : List LfiPendingOp}

/-! ### Which contexts a step touches -/

/-- Some of them are waited for, too. -/
theorem Live.sublist {s : Core} (h : Live s ops) (hsub : rest ⊆ ops) : Live s rest :=
  fun op hop => h op (hsub hop)

/-- Only the contexts of these operations count. -/
theorem Live.congr {s t : Core} (h : Live s ops)
    (hctx : ∀ op ∈ ops, t.contexts op.context = s.contexts op.context) : Live t ops :=
  fun op hop => (hctx op hop).trans (h op hop)

/-- `complete` gives up the context its request waits on, and no other. -/
theorem complete_contexts_of_ne {r : ReqId} {c : ℕ}
    (h : ∀ q, s.core.requests r = some q → q.waitContext ≠ some c) (err now : ℤ) :
    (complete env s r err now).core.contexts c = s.core.contexts c := by
  unfold complete
  cases hq : s.core.requests r with
  | none => rfl
  | some q =>
      dsimp only
      split
      case isTrue => rfl
      case isFalse =>
        have heq : (completeBody s.core r err).contexts =
            (unassign s.core q.waitContext).contexts := by
          simp only [completeBody, hq]
          cases q.sharedWaitStruct <;> cases q.callback <;> cases q.waitContext <;> rfl
        dsimp only
        rw [heq, ContextInv.unassign_contexts, if_neg]
        exact h q hq

/-- A request waits on one context only. -/
theorem ContextInv.waits_on {s : Core} (h : ContextInv s ops) {ctx c : ℕ} {r : ReqId}
    (hctx : s.contexts ctx = some r) (hne : c ≠ ctx) :
    ∀ q, s.requests r = some q → q.waitContext ≠ some c := fun q hq hw => hne (by
  obtain ⟨q', hq', hw'⟩ := h.sound ctx r hctx
  rw [hq] at hq'
  obtain rfl := Option.some.inj hq'
  exact Option.some.inj (hw.symm.trans hw'))

/-- So does the completion of the operation on a context. -/
theorem completeAt_contexts_of_ne (h : ContextInv s.core ops) {ctx c : ℕ} (hne : c ≠ ctx)
    (err now : ℤ) : (completeAt env s ctx err now).core.contexts c = s.core.contexts c := by
  unfold completeAt
  cases hctx : s.core.contexts ctx with
  | none => rfl
  | some r => exact complete_contexts_of_ne (h.waits_on hctx hne) err now

/-- And that of a receive. -/
theorem receiveAt_contexts_of_ne (h : ContextInv s.core ops) {ctx c : ℕ} (hne : c ≠ ctx)
    (len tag : ℕ) (now : ℤ) :
    (receiveAt env s ctx len tag now).core.contexts c = s.core.contexts c := by
  unfold receiveAt
  cases hctx : s.core.contexts ctx with
  | none => rfl
  | some r =>
      have hset := h.received r len tag
      have hwaits := hset.waits_on (r := r) hctx hne
      exact complete_contexts_of_ne (s := ⟨s.core.setRequest r
        ((s.core.requests r).map fun q => q.received len tag), s.ft⟩) hwaits lfiSuccess now

/-- A context is destroyed by itself. -/
theorem destroyContext_contexts_of_ne {s : Core} {ctx c : ℕ} (hne : c ≠ ctx) :
    (destroyContext s ctx).contexts c = s.contexts c := by
  simp [destroyContext, Core.setContext, hne]

/-- An attempt touches the context of its operation only. -/
theorem postOp_contexts_of_ne (h : ContextInv s.core ops) (op : LfiPendingOp) {c : ℕ}
    (hne : c ≠ op.context) (ret now : ℤ) :
    (postOp env s op ret now).core.contexts c = s.core.contexts c := by
  unfold postOp
  split
  case isTrue => exact completeAt_contexts_of_ne h hne ..
  case isFalse =>
    split
    case isTrue =>
      exact (destroyContext_contexts_of_ne hne).trans (completeAt_contexts_of_ne h hne ..)
    case isFalse => rfl

/-! ### What stays in the queues -/

/-- `process_queue` leaves some of the operations it is given, in their order. -/
theorem processQueue_sublist (ops : List LfiPendingOp) (answers : List ℤ) (s : State) (now : ℤ) :
    (processQueue env now ops answers s).1.Sublist ops := by
  induction ops generalizing answers s with
  | nil => exact List.Sublist.refl _
  | cons op ops ih =>
      cases answers with
      | nil => exact List.Sublist.refl _
      | cons ret answers =>
          unfold processQueue
          split
          case isTrue => exact List.Sublist.refl _
          case isFalse => exact (ih ..).cons op

/-- A progress step adds nothing to the queues. -/
theorem fabricEvent_queued (e : FabricEvent) :
    (fabricEvent env s e).core.queued.Sublist s.core.queued := by
  have hsame : ∀ {u : State}, u.core.priorityOps = s.core.priorityOps →
      u.core.pendingOps = s.core.pendingOps → u.core.queued.Sublist s.core.queued :=
    fun hprio hpend => by rw [Core.queued, hprio, hpend]; exact List.Sublist.refl _
  cases e with
  | heartbeatValue c value => exact List.Sublist.refl _
  | success ctx len tag now =>
      simp only [fabricEvent]
      split
      case isFalse => exact List.Sublist.refl _
      case isTrue =>
        obtain ⟨hprio, hpend, -⟩ :=
          @receiveAt_queues env ⟨takeBack s.core ctx, s.ft⟩ ctx len tag now
        exact hsame hprio hpend
  | error ctx err =>
      simp only [fabricEvent]
      split
      case isFalse => exact List.Sublist.refl _
      case isTrue =>
        obtain ⟨hprio, hpend, -⟩ :=
          @completeAt_queues env ⟨takeBack s.core ctx, s.ft⟩ ctx (cqErrorCode err) 0
        exact hsame hprio hpend
  | postPendingOps answers now =>
      have hfirst := @processQueue_sublist env s.core.priorityOps answers s now
      obtain ⟨-, hpend⟩ := @processQueue_queues env s.core.priorityOps answers s now
      simp only [fabricEvent, postPendingOps, Core.queued]
      generalize processQueue env now s.core.priorityOps answers s = p at *
      split
      case isFalse =>
        rw [hpend]
        exact hfirst.append (List.Sublist.refl _)
      case isTrue =>
        have hsecond := @processQueue_sublist env p.2.2.core.pendingOps p.2.1
          ⟨{ p.2.2.core with priorityOps := p.1 }, p.2.2.ft⟩ now
        obtain ⟨hprio, -⟩ := @processQueue_queues env p.2.2.core.pendingOps p.2.1
          ⟨{ p.2.2.core with priorityOps := p.1 }, p.2.2.ft⟩ now
        rw [hprio, ← hpend]
        exact hfirst.append hsecond

/-- Nor do several. -/
theorem progress_queued (events : List FabricEvent) :
    (progress env events s).core.queued.Sublist s.core.queued :=
  progress_induction (P := fun t => t.core.queued.Sublist s.core.queued)
    (fun _ e h => (fabricEvent_queued e).trans h) (List.Sublist.refl _) events

/-! ### Attempts -/

/-- All attempts among the events are of operations that are waited for. -/
def AllOk (es : List QueueEvent) : Prop := ∀ a, .attempt a ∈ es → a.Ok

theorem allOk_nil : AllOk [] := fun _ ha => (List.not_mem_nil ha).elim

theorem AllOk.append {es es' : List QueueEvent} (h : AllOk es) (h' : AllOk es') :
    AllOk (es ++ es') := fun a ha =>
  (List.mem_append.1 ha).elim (h a) (h' a)

/-- `process_queue` attempts operations that are waited for, and leaves such; `rest` are the
operations of the other queue. -/
theorem Live.processQueue {s : State} (hinv : ContextInv s.core (ops ++ rest ++ s.core.inFlight))
    (hlive : Live s.core (ops ++ rest)) (answers : List ℤ) (now : ℤ) (priority : Bool) :
    AllOk (queueTrace env now priority ops answers s) ∧
      Live (processQueue env now ops answers s).2.2.core
        ((processQueue env now ops answers s).1 ++ rest) := by
  induction ops generalizing s answers with
  | nil => exact ⟨allOk_nil, hlive⟩
  | cons op ops ih =>
      have hop : Live s.core [op] := hlive.sublist (by simp)
      have hok : ∀ ret, (Attempt.mk priority op ret s).Ok := fun ret =>
        ⟨_, hinv, by simp, hop⟩
      cases answers with
      | nil =>
          refine ⟨fun a ha => ?_, hlive⟩
          cases List.mem_singleton.1 ha
          exact hok _
      | cons ret answers =>
          obtain ⟨hinv', -⟩ := @ContextInv.postOp env (ops ++ rest) _ _ hinv ret now
          -- the operations have contexts of their own
          have hrest : Live (postOp env s op ret now).core (ops ++ rest) := by
            refine (hlive.sublist (List.subset_cons_self ..)).congr fun op' hop' => ?_
            refine postOp_contexts_of_ne hinv op (fun heq => ?_) ret now
            have hnd := hinv.opsNodup
            rw [List.cons_append, List.cons_append, List.map_cons, List.nodup_cons] at hnd
            refine hnd.1 ?_
            rw [← heq]
            exact List.mem_map_of_mem (List.mem_append_left _ hop')
          obtain ⟨hattempts, hlast⟩ := ih hinv' hrest answers
          unfold Impl.processQueue queueTrace
          split
          case isTrue hstall =>
            refine ⟨fun a ha => ?_, hlive⟩
            cases List.mem_singleton.1 ha
            exact hok _
          case isFalse =>
            refine ⟨fun a ha => ?_, hlast⟩
            rcases List.mem_cons.1 ha with ha | ha
            · cases ha
              exact hok _
            · exact hattempts a ha

namespace Posted

/-- `post_pending_ops`. -/
theorem postPendingOps {s : State} (h : Posted s.core) (answers : List ℤ) (now : ℤ) :
    AllOk (postTrace env s answers now) ∧ Posted (postPendingOps env s answers now).core := by
  have hinv := @ContextInv.postPendingOps env _ h.inv answers now
  obtain ⟨hfirst, hlive⟩ := @Live.processQueue env s.core.priorityOps s.core.pendingOps s
    h.inv h.live answers now true
  obtain ⟨hctx, -, hpend⟩ := @ContextInv.processQueue env s.core.priorityOps s
    s.core.pendingOps h.inv answers now
  unfold Impl.postPendingOps at hinv ⊢
  unfold postTrace
  generalize processQueue env now s.core.priorityOps answers s = p at *
  rw [← hpend] at hctx hlive
  by_cases hnil : p.1 = []
  case neg =>
    simp only [hnil, if_false, List.append_nil] at hinv ⊢
    exact ⟨hfirst, hinv, hlive⟩
  case pos =>
    rw [hnil] at hctx hlive
    simp only [if_pos hnil] at hinv ⊢
    have hqueue : ContextInv { p.2.2.core with priorityOps := p.1 }
        (p.2.2.core.pendingOps ++ [] ++ p.2.2.core.inFlight) := by
      simpa using hctx.moveOps p.1 p.2.2.core.pendingOps p.2.2.core.inFlight
    have hwaits : Live { p.2.2.core with priorityOps := p.1 } (p.2.2.core.pendingOps ++ []) := by
      rw [List.append_nil]
      exact hlive
    obtain ⟨hsecond, hlast⟩ := @Live.processQueue env p.2.2.core.pendingOps []
      ⟨{ p.2.2.core with priorityOps := p.1 }, p.2.2.ft⟩ hqueue hwaits p.2.1 now false
    obtain ⟨hprio, -⟩ := @processQueue_queues env p.2.2.core.pendingOps p.2.1
      ⟨{ p.2.2.core with priorityOps := p.1 }, p.2.2.ft⟩ now
    refine ⟨hfirst.append hsecond, hinv, hlast.sublist fun op hop => ?_⟩
    rw [Core.queued] at hop
    simpa [hprio.trans hnil] using hop

/-- An event of the fabric: an entry is for an operation that is in no queue. -/
theorem fabricEvent {s : State} (h : Posted s.core) (e : FabricEvent) :
    AllOk (eventTrace env s e) ∧ Posted (fabricEvent env s e).core := by
  have hinv := @ContextInv.fabricEvent env _ h.inv e
  have hapart : ∀ op ∈ s.core.inFlight, ∀ op' ∈ s.core.queued, op'.context ≠ op.context := by
    intro op hop op' hop' heq
    have hnd := h.inv.opsNodup
    rw [Core.ops, List.map_append, List.nodup_append] at hnd
    exact hnd.2.2 _ (List.mem_map_of_mem hop') _ (List.mem_map_of_mem hop) heq
  cases e with
  | postPendingOps answers now => exact h.postPendingOps answers now
  | heartbeatValue c value => exact ⟨allOk_nil, hinv, h.live⟩
  | success ctx len tag now =>
      refine ⟨allOk_nil, hinv, ?_⟩
      simp only [Impl.fabricEvent]
      split
      case isFalse => exact h.live
      case isTrue hop =>
        obtain ⟨op, hop, rfl⟩ := hop
        have htake : ContextInv (takeBack s.core op.context) s.core.ops := h.inv.moveOps _ _ _
        obtain ⟨hprio, hpend, -⟩ :=
          @receiveAt_queues env ⟨takeBack s.core op.context, s.ft⟩ op.context len tag now
        have hqueued : (cqSuccess env s op.context len tag now).core.queued = s.core.queued :=
          congrArg₂ _ hprio hpend
        rw [hqueued]
        refine h.live.congr fun op' hop' => ?_
        have hne := hapart op hop op' hop'
        exact (destroyContext_contexts_of_ne hne).trans
          (receiveAt_contexts_of_ne (s := ⟨takeBack s.core op.context, s.ft⟩) htake hne ..)
  | error ctx err =>
      refine ⟨allOk_nil, hinv, ?_⟩
      simp only [Impl.fabricEvent]
      split
      case isFalse => exact h.live
      case isTrue hop =>
        obtain ⟨op, hop, rfl⟩ := hop
        have htake : ContextInv (takeBack s.core op.context) s.core.ops := h.inv.moveOps _ _ _
        obtain ⟨hprio, hpend, -⟩ := @completeAt_queues env ⟨takeBack s.core op.context, s.ft⟩
          op.context (cqErrorCode err) 0
        have hqueued : (cqError env s op.context err).core.queued = s.core.queued :=
          congrArg₂ _ hprio hpend
        rw [hqueued]
        refine h.live.congr fun op' hop' => ?_
        have hne := hapart op hop op' hop'
        exact (destroyContext_contexts_of_ne hne).trans
          (completeAt_contexts_of_ne (s := ⟨takeBack s.core op.context, s.ft⟩) htake hne ..)

/-- The entries of a progress step, one after the other. -/
theorem progress {s : State} (h : Posted s.core) (events : List FabricEvent) :
    AllOk (progressTrace env events s) ∧ Posted (progress env events s).core := by
  induction events generalizing s with
  | nil => exact ⟨allOk_nil, h⟩
  | cons e events ih =>
      obtain ⟨hok, hnext⟩ := @fabricEvent env _ h e
      obtain ⟨hrest, hlast⟩ := ih hnext
      exact ⟨hok.append hrest, hlast⟩

/-- Taking operations out of the queues. -/
theorem eraseOps {s : Core} (h : Posted s) (w : Option ℕ) : Posted (eraseOps s w) := by
  refine ⟨h.inv.eraseOps w, ?_⟩
  cases w with
  | none => exact h.live
  | some c =>
      have hlive : Live s (Impl.eraseOps s (some c)).queued :=
        h.live.sublist (List.filter_sublist.append List.filter_sublist).subset
      exact hlive

/-- `cancel`: the operation is out of its queue before its request is completed. -/
theorem cancel {s : State} (h : Posted s.core) (r : ReqId) (events : List FabricEvent) :
    AllOk (cancelTrace env s r events) ∧ Posted (cancel env s r events).core := by
  have hinv := @ContextInv.cancel env _ h.inv r events
  unfold cancelTrace
  unfold Impl.cancel cancelWith at hinv ⊢
  cases hr : s.core.requests r with
  | none => exact ⟨allOk_nil, h⟩
  | some q =>
      simp only [hr] at hinv ⊢
      have herase : AllOk (q.waitContext.map QueueEvent.erase).toList := fun a ha => by
        cases q.waitContext <;> simp at ha
      have hout := h.eraseOps q.waitContext
      by_cases hdone : q.isCompleted = true
      case pos =>
        simp only [hdone, if_true]
        exact ⟨herase.append allOk_nil, hout⟩
      case neg =>
        simp only [hdone, Bool.false_eq_true, if_false] at hinv ⊢
        obtain ⟨hok, hlast⟩ := @progress env ⟨Impl.eraseOps s.core q.waitContext, s.ft⟩ hout events
        have hprog := @progress_progressed env ⟨Impl.eraseOps s.core q.waitContext, s.ft⟩ events
        have hsub := @progress_queued env ⟨Impl.eraseOps s.core q.waitContext, s.ft⟩ events
        generalize Impl.progress env events ⟨Impl.eraseOps s.core q.waitContext, s.ft⟩ = u at *
        refine ⟨herase.append hok, hinv, ?_⟩
        obtain ⟨hprio, hpend, -⟩ := @complete_queues env u r (cancelError s.ft q) 0
        rw [show (complete env u r (cancelError s.ft q) 0).core.queued = u.core.queued from
          congrArg₂ _ hprio hpend]
        refine hlast.live.congr fun op hop => complete_contexts_of_ne (fun p hp hw => ?_) ..
        -- the request waits on the context it waited on when its operation was taken out
        have hon : u.core.onComm r ≠ none := by
          simp [Core.onComm, hp, LfiRequest.isCompleted, hw]
        have hkept := hprog.kept r hon
        have hreq : (Impl.eraseOps s.core q.waitContext).requests r = some q := by
          rw [← hr]
          cases q.waitContext <;> rfl
        rw [hp, hreq] at hkept
        obtain rfl := Option.some.inj hkept
        have hmem := hsub.subset hop
        rw [hw] at hmem
        rcases List.mem_append.1 hmem with hmem | hmem
        · simpa using List.of_mem_filter hmem
        · simpa using List.of_mem_filter hmem

/-- `lfi_request_free`: a request that is not completed is cancelled first. -/
theorem requestFree {s : State} (h : Posted s.core) (r : ReqId) (events : List FabricEvent) :
    AllOk (freeTrace env s r events) ∧ Posted (requestFree env s r events).core := by
  have hinv := @ContextInv.requestFree env _ h.inv r events
  refine ⟨?_, hinv, ?_⟩
  · unfold freeTrace
    cases s.core.requests r with
    | none => exact allOk_nil
    | some q =>
        dsimp only
        split
        case isTrue => exact allOk_nil
        case isFalse => exact (h.cancel r events).1
  · unfold Impl.requestFree freeWith
    cases s.core.requests r with
    | none => exact h.live
    | some q =>
        dsimp only
        split
        case isTrue => exact h.live
        case isFalse => exact (h.cancel r events).2.live

/-- A post of a request that is completed. -/
theorem asyncPost {s : State} (h : Posted s.core) {r : ReqId} (hon : s.core.onComm r = none)
    (call : PostCall) : Posted (asyncPost env s r call).2.core := by
  rcases asyncPost_trace env s r call with ⟨heq, -⟩ |
    ⟨q, f, o, priority, op, hq, heq, howner, -, hctx, hprio, hpend, -⟩
  · rw [heq]
    exact h
  have hinv : ContextInv (Impl.asyncPost env s r call).2.core
      (Impl.asyncPost env s r call).2.core.ops := by
    rw [heq]
    exact h.inv.postCore hq f o priority
  -- a context is added, and the others are as they were
  obtain ⟨hunused, -, pool, created, -, -, -, -, hcreate⟩ := (h.inv.reset r).createContext r
  have hreset : (reset s.core r).contexts = s.core.contexts := by
    have hw : q.waitContext = none := by
      simpa [Core.onComm, hq, LfiRequest.isCompleted] using hon
    simp [reset, hq, hw, unassign, Core.setRequest]
  have hcontexts : (Impl.asyncPost env s r call).2.core.contexts =
      Function.update s.core.contexts op.context (some r) := by
    rw [heq]
    have hpost : (postCore s.core r f o priority).contexts =
        (createContext (reset s.core r) r).2.contexts := by
      cases priority <;> rfl
    refine hpost.trans ?_
    rw [hcreate, hctx, hreset]
  rw [← hctx, hreset] at hunused
  have hlive : Live (Impl.asyncPost env s r call).2.core s.core.queued := by
    refine h.live.congr fun op' hop' => ?_
    have hne : op'.context ≠ op.context := fun hsame => by
      have hwaits := h.live op' hop'
      rw [hsame, hunused] at hwaits
      cases hwaits
    rw [hcontexts, Function.update_of_ne hne]
  refine ⟨hinv, fun op' hop' => ?_⟩
  have hmem : op' ∈ s.core.queued ∨ op' = op := by
    rw [Core.queued, hprio, hpend] at hop'
    cases priority <;> simp at hop' <;> rw [Core.queued, List.mem_append] <;> tauto
  rcases hmem with hmem | rfl
  · exact hlive op' hmem
  · rw [hcontexts, Function.update_self, howner]

/-- Every action, the posts being of completed requests. -/
theorem opStep {s t : State} (h : Posted s.core) {a : OpAction} (ha : ReusesCompleted s a)
    (ht : opStep env s a = some t) : AllOk (stepTrace env s a) ∧ Posted t.core := by
  cases a with
  | create r c =>
      have hinv := opStep_contextInv h.inv ht
      simp only [Impl.opStep, Option.ite_none_right_eq_some, Option.some.injEq] at ht
      obtain ⟨-, rfl⟩ := ht
      exact ⟨allOk_nil, hinv, h.live⟩
  | post r call =>
      obtain rfl := Option.some.inj ht
      refine ⟨fun a ha => ?_, h.asyncPost ha call⟩
      rcases asyncPost_trace env s r call with ⟨-, htrace⟩ |
        ⟨-, -, -, priority, op, -, -, -, -, -, -, -, htrace⟩ <;>
        rw [stepTrace, htrace] at ha <;> simp at ha
  | fabric e =>
      obtain rfl := Option.some.inj ht
      exact h.fabricEvent e
  | cancel r events =>
      obtain rfl := Option.some.inj ht
      exact h.cancel r events
  | free r events =>
      obtain rfl := Option.some.inj ht
      exact h.requestFree r events

end Posted

/-- The attempts of a run. -/
theorem Posted.runTrace {s : State} (h : Posted s.core) {as : List OpAction}
    (has : Meets (Impl.opStep env) ReusesCompleted s as) : AllOk (runTrace env s as) := by
  induction as generalizing s with
  | nil => exact allOk_nil
  | cons a as ih =>
      unfold Impl.runTrace
      cases ht : Impl.opStep env s a with
      | none => exact allOk_nil
      | some t =>
          obtain ⟨hok, hposted⟩ := h.opStep has.1 ht
          exact hok.append (ih hposted (has.2 t ht))

/-- Before the first post there is nothing to wait for. -/
theorem Fresh.posted {s : State} (h : Fresh s) : Posted s.core :=
  ⟨h.contextInv, by simp [Live, Core.queued, h.priorityOps, h.pendingOps]⟩

/-- The request of an attempted operation waits for it. -/
theorem Attempt.Ok.current {a : Attempt} (h : a.Ok) : a.before.core.Current a.op a.op.owner := by
  obtain ⟨ops, hinv, hop, hlive⟩ := h
  have hctx := hlive a.op (List.mem_singleton_self _)
  exact ⟨rfl, (hinv.current a.op hop _ hctx).2, fun hnone => hinv.not_pointed hnone _ hctx⟩

/-- An operation the fabric refuses completes its request with the error. -/
theorem Attempt.Ok.refused {a : Attempt} (h : a.Ok) (hret : a.ret ≠ 0) (now : ℤ) :
    ∃ q, (postOp env a.before a.op a.ret now).core.requests a.op.owner = some q ∧
      q.isCompleted = true ∧ q.error = -lfiLibfabricError := by
  obtain ⟨ops, hinv, hop, hlive⟩ := h
  have hctx := hlive a.op (List.mem_singleton_self _)
  obtain ⟨q, hq, hw⟩ := hinv.sound _ _ hctx
  refine ⟨{ q with error := -lfiLibfabricError, waitContext := none }, ?_, rfl, rfl⟩
  rw [postOp, if_pos hret, completeAt, hctx]
  simp only [complete, hq, LfiRequest.isCompleted, hw, Option.isNone_some, Bool.false_eq_true,
    if_false]
  rw [completeBody_requests, Function.update_self, hq]
  rfl

/-! ### Numbers of posts -/

/-- A completion is no post. -/
theorem complete_posts (s : State) (r : ReqId) (err now : ℤ) :
    (complete env s r err now).core.posts = s.core.posts := by
  obtain ⟨_, _, _, _, _, heq⟩ := @complete_core_eq env s r err now
  rw [heq]

theorem completeAt_posts (s : State) (ctx : ℕ) (err now : ℤ) :
    (completeAt env s ctx err now).core.posts = s.core.posts := by
  obtain ⟨_, _, _, _, _, heq⟩ := @completeAt_core_eq env s ctx err now
  rw [heq]

/-- Nor is the attempt of a queued operation. -/
theorem processQueue_posts (ops : List LfiPendingOp) (answers : List ℤ) (s : State) (now : ℤ) :
    (processQueue env now ops answers s).2.2.core.posts = s.core.posts := by
  induction ops generalizing answers s with
  | nil => rfl
  | cons op ops ih =>
      cases answers with
      | nil => rfl
      | cons ret answers =>
          unfold processQueue
          split
          case isTrue => rfl
          case isFalse =>
            refine (ih ..).trans ?_
            unfold postOp
            split
            case isTrue => exact completeAt_posts ..
            case isFalse =>
              split
              case isTrue => exact completeAt_posts ..
              case isFalse => rfl

/-- Only a post counts as one. -/
theorem fabricEvent_posts (e : FabricEvent) :
    (fabricEvent env s e).core.posts = s.core.posts := by
  cases e with
  | heartbeatValue c value => rfl
  | success ctx len tag now =>
      simp only [fabricEvent]
      split
      case isFalse => rfl
      case isTrue =>
        obtain ⟨_, _, _, _, _, heq⟩ :=
          @receiveAt_core_eq env ⟨takeBack s.core ctx, s.ft⟩ ctx len tag now
        show (receiveAt env ⟨takeBack s.core ctx, s.ft⟩ ctx len tag now).core.posts = _
        rw [heq]
        rfl
  | error ctx err =>
      simp only [fabricEvent]
      split
      case isFalse => rfl
      case isTrue => exact completeAt_posts ⟨takeBack s.core ctx, s.ft⟩ ..
  | postPendingOps answers now =>
      have hfirst := @processQueue_posts env s.core.priorityOps answers s now
      simp only [fabricEvent, postPendingOps]
      split
      case isFalse => exact hfirst
      case isTrue => exact (processQueue_posts ..).trans hfirst

/-- Nor is a `cancel`, with its progress step. -/
theorem cancel_posts (s : State) (r : ReqId) (events : List FabricEvent) :
    (cancel env s r events).core.posts = s.core.posts := by
  refine cancel_parts (P := fun t => t.core.posts = s.core.posts)
    (fun q _ => by cases q.waitContext <;> rfl)
    (fun _ h => progress_induction (P := fun t => t.core.posts = s.core.posts)
      (fun _ e h => (fabricEvent_posts e).trans h) h events)
    (fun _ _ _ h => (complete_posts ..).trans h) rfl

/-- The operations submitted carry numbers of their own, smaller than the number of the next
post. -/
def Numbered (s : State) (es : List QueueEvent) : Prop :=
  ∀ priority, ((Queues.submitted priority es).map (·.post)).Nodup ∧
    ∀ op ∈ Queues.submitted priority es, op.post < s.core.posts

theorem submitted_append (priority : Bool) (es es' : List QueueEvent) :
    Queues.submitted priority (es ++ es') =
      Queues.submitted priority es ++ Queues.submitted priority es' :=
  List.filterMap_append

/-- Attempts and cancels submit nothing. -/
theorem submitted_eq_nil {es : List QueueEvent} (h : ∀ e ∈ es, ∀ p op, e ≠ .submit p op)
    (priority : Bool) : Queues.submitted priority es = [] := by
  refine List.filterMap_eq_nil_iff.2 fun e he => ?_
  cases e with
  | submit p op => exact absurd rfl (h _ he p op)
  | attempt a => rfl
  | erase ctx => rfl

/-- A `cancel` puts nothing into the queues. -/
theorem cancelTrace_submits (s : State) (r : ReqId) (events : List FabricEvent) :
    ∀ e ∈ cancelTrace env s r events, ∀ p op, e ≠ .submit p op := by
  rintro e he p op rfl
  unfold cancelTrace at he
  cases hr : s.core.requests r with
  | none => simp [hr] at he
  | some q =>
      simp only [hr] at he
      rcases List.mem_append.1 he with he | he
      · cases q.waitContext <;> simp at he
      · split at he
        case isTrue => cases he
        case isFalse =>
          obtain ⟨a, ha⟩ := progressTrace_attempt he
          cases ha

/-- A post takes the next number, and the other actions take none. -/
theorem Numbered.opStep {s t : State} {es : List QueueEvent} (h : Numbered s es) {a : OpAction}
    (ht : opStep env s a = some t) : Numbered t (es ++ stepTrace env s a) := by
  have hquiet : t.core.posts = s.core.posts →
      (∀ e ∈ stepTrace env s a, ∀ p op, e ≠ .submit p op) →
        Numbered t (es ++ stepTrace env s a) := fun hposts hnone priority => by
    rw [submitted_append, submitted_eq_nil hnone, List.append_nil, hposts]
    exact h priority
  cases a with
  | create r c =>
      simp only [Impl.opStep, Option.ite_none_right_eq_some, Option.some.injEq] at ht
      obtain ⟨-, rfl⟩ := ht
      exact hquiet rfl fun e he => absurd he List.not_mem_nil
  | fabric e =>
      obtain rfl := Option.some.inj ht
      refine hquiet (fabricEvent_posts e) fun e' he' p op heq => ?_
      obtain ⟨a, rfl⟩ := eventTrace_attempt he'
      cases heq
  | cancel r events =>
      obtain rfl := Option.some.inj ht
      exact hquiet (cancel_posts s r events) (cancelTrace_submits s r events)
  | free r events =>
      obtain rfl := Option.some.inj ht
      refine hquiet ?_ ?_
      · exact requestFree_induction (P := fun t => t.core.posts = s.core.posts)
          (fun t h => (cancel_posts t r events).trans h) (fun _ _ h => h) rfl
      · rw [stepTrace, freeTrace]
        cases s.core.requests r with
        | none => exact fun e he => absurd he List.not_mem_nil
        | some q =>
            dsimp only
            split
            case isTrue => exact fun e he => absurd he List.not_mem_nil
            case isFalse => exact cancelTrace_submits s r events
  | post r call =>
      obtain rfl := Option.some.inj ht
      rcases asyncPost_trace env s r call with ⟨heq, htrace⟩ |
        ⟨q, f, o, priority, op, -, heq, -, hpost, -, -, -, htrace⟩
      · refine hquiet (by rw [heq]) ?_
        rw [stepTrace, htrace]
        exact fun e he => absurd he List.not_mem_nil
      · have hposts : (asyncPost env s r call).2.core.posts = s.core.posts + 1 := by
          obtain ⟨contexts, pool, created, hcreate⟩ := createContext_eq (reset s.core r) r
          obtain ⟨requests, contexts', hreset⟩ := reset_eq s.core r
          have hold : (createContext (reset s.core r) r).2.posts = s.core.posts := by
            rw [hcreate, hreset]
          rw [heq, ← hold]
          cases priority <;> rfl
        intro priority'
        rw [stepTrace, htrace, submitted_append, hposts]
        obtain ⟨hnodup, hlt⟩ := h priority'
        by_cases hp : priority = priority'
        case neg =>
          simp only [Queues.submitted, List.filterMap_cons, hp, if_false, List.filterMap_nil,
            List.append_nil]
          exact ⟨hnodup, fun op' hop' => Nat.lt_succ_of_lt (hlt op' hop')⟩
        case pos =>
          simp only [show Queues.submitted priority' [.submit priority op] = [op] by
            simp [Queues.submitted, hp]]
          refine ⟨?_, fun op' hop' => ?_⟩
          · rw [List.map_append, List.nodup_append]
            refine ⟨hnodup, List.nodup_singleton _, ?_⟩
            rintro n hn m hm rfl
            obtain ⟨op', hop', rfl⟩ := List.mem_map.1 hn
            have hlt' := hlt op' hop'
            rw [List.map_singleton, List.mem_singleton, hpost] at hm
            omega
          · rcases List.mem_append.1 hop' with hop' | hop'
            · exact Nat.lt_succ_of_lt (hlt op' hop')
            · rw [List.mem_singleton.1 hop', hpost]
              exact Nat.lt_succ_self _

/-- **No two posts of a run have the same number.** -/
theorem numbered_runTrace {s₀ : State} {as : List OpAction}
    (h : exec (Impl.opStep env) s₀ as = some s) : Numbered s (runTrace env s₀ as) := by
  refine exec_snoc_induction (M := fun as (s : State) => Numbered s (runTrace env s₀ as))
    (fun _ => ⟨List.nodup_nil, nofun⟩) (fun as a t u hexec hn ht => ?_) as s h
  rw [runTrace_snoc hexec ht]
  exact hn.opStep ht

/-- **Posting order.**  In every run the events at the queues are those of two ring buffers,
which in the end hold what is left: an attempt is of the operation at the front, of a normal
one only when no priority operation is left, and an operation leaves its queue by an attempt
that is not stalled or by a cancel of its request.  Each queue hands over in the order of the
posts, each operation once at most.  And if requests are used again only when they are
completed, then the request of an attempted operation waits for it, since the post of this
operation, and if the fabric refuses the operation its request completes with the error. -/
theorem posting_order (env : Env) (s₀ s : State) (h₀ : Fresh s₀) (as : List OpAction)
    (h : exec (opStep env) s₀ as = some s) :
    (∃ q, exec Queues.play Queues.new (runTrace env s₀ as) = some q ∧
      (q true).toList = s.core.priorityOps ∧ (q false).toList = s.core.pendingOps) ∧
    (∀ r q, s.core.requests r = some q → ∀ op ∈ s.core.queued,
      q.waitContext = some op.context → op.owner = r) ∧
    (∀ priority,
      (Queues.handedOver priority (runTrace env s₀ as)).Sublist
          (Queues.submitted priority (runTrace env s₀ as)) ∧
        (Queues.submitted priority (runTrace env s₀ as)).Nodup) ∧
    (Meets (opStep env) ReusesCompleted s₀ as → ∀ a, .attempt a ∈ runTrace env s₀ as →
      a.before.core.Current a.op a.op.owner ∧
        (a.ret ≠ 0 → a.ret ≠ -fiEagain → ∀ now, ∃ q,
          (postOp env a.before a.op a.ret now).core.requests a.op.owner = some q ∧
            q.isCompleted = true ∧ q.error = -lfiLibfabricError)) := by
  obtain ⟨q, hplay, hholds⟩ := Queues.play_runTrace h₀ h
  have hinv : ContextInv s.core s.core.ops :=
    exec_invariant (P := fun s => ContextInv s.core s.core.ops)
      (fun _ _ _ hs ht => opStep_contextInv hs ht) h₀.contextInv h
  refine ⟨⟨q, hplay, (hholds true).2, (hholds false).2⟩, fun r p hp op hop hw => ?_,
    fun priority => ⟨?_, ?_⟩, fun has a ha => ?_⟩
  · exact (hinv.current op (List.mem_append_left _ hop) r (hinv.back r p _ hp hw)).1.symm
  · have horder := Queues.play_order hplay
      (fun _ => Data.VectorQueue.wf_new (by decide)) priority
    exact (Queues.handedOver_sublist priority _).trans
      ((List.sublist_append_left ..).trans horder)
  · exact List.Nodup.of_map _ (numbered_runTrace h priority).1
  · have hok := h₀.posted.runTrace has a ha
    exact ⟨hok.current, fun hret _ now => hok.refused hret now⟩

/-- A stalled priority send holds back a normal one; the fabric takes the first, refuses the
second, and a third is cancelled in its queue. -/
def stalledRun : List OpAction :=
  [.post (.user 0) (.send 0 8 1 false true), .post (.user 1) (.send 0 8 2 false false),
    .post (.user 2) (.recv 0 8 3 false false), .fabric (.postPendingOps [-fiEagain] 0),
    .cancel (.user 2) [], .fabric (.postPendingOps [0, -5] 0)]

theorem posting_order_stalled :
    (Queues.handedOver true (runTrace Env.default (freshState {7} (fun _ => 7) 0)
        stalledRun)).Sublist
      (Queues.submitted true (runTrace Env.default (freshState {7} (fun _ => 7) 0) stalledRun)) ∧
    ∀ a, .attempt a ∈ runTrace Env.default (freshState {7} (fun _ => 7) 0) stalledRun →
      a.before.core.Current a.op a.op.owner :=
  have hrun := posting_order Env.default (freshState {7} (fun _ => 7) 0)
    ((exec (opStep Env.default) (freshState {7} (fun _ => 7) 0) stalledRun).get (by decide))
    (fresh_freshState ..) stalledRun (Option.some_get _).symm
  ⟨(hrun.2.2.1 true).1, fun a ha => (hrun.2.2.2 (by decide) a ha).1⟩

/-- A request is posted again while its first send waits in the queue, and cancelled. -/
def canceledRepost : List OpAction :=
  [.post (.user 0) (.send 0 8 1 false false), .post (.user 0) (.send 0 8 2 false false),
    .cancel (.user 0) [], .fabric (.postPendingOps [0] 0)]

/-- The fabric takes an operation of a completed request. -/
def QueueEvent.late : QueueEvent → Bool
  | .attempt a => a.ret == 0 && (a.before.core.requests a.op.owner).any LfiRequest.isCompleted
  | _ => false

/-- **A cancelled send is handed over.**  `reset` has given up the context of the first send, so
that the `cancel` does not find it in the queue. -/
theorem posting_order_reposted :
    ¬ ∀ (env : Env) (s₀ s : State) (as : List OpAction), Fresh s₀ →
      exec (opStep env) s₀ as = some s → ∀ a, .attempt a ∈ runTrace env s₀ as → a.ret = 0 →
        ∀ q, a.before.core.requests a.op.owner = some q → q.isCompleted = false := by
  intro h
  have hrun := h Env.default (freshState {7} (fun _ => 7) 0)
    ((exec (opStep Env.default) (freshState {7} (fun _ => 7) 0) canceledRepost).get (by decide))
    canceledRepost (fresh_freshState ..) (Option.some_get _).symm
  have hlate : (runTrace Env.default (freshState {7} (fun _ => 7) 0) canceledRepost).any
      QueueEvent.late = true := by decide
  obtain ⟨e, he, hlate⟩ := List.any_eq_true.1 hlate
  cases e with
  | submit | erase => cases hlate
  | attempt a =>
      simp only [QueueEvent.late, Bool.and_eq_true, beq_iff_eq, Option.any_eq_true] at hlate
      obtain ⟨hret, q, hq, hdone⟩ := hlate
      rw [hrun a he hret q hq] at hdone
      cases hdone

end Impl
end Lfi
