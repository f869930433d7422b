/-
# Cancel and the completion queue

What the fabric had matched when a request is cancelled is known from an entry that may be read
at any time.  A message the fabric has taken should be in the request of its receive, whether a
cancel of it is under way or not.  `tells_iff` says when it is.
-/

import Lfi.Impl.CancelSteps

namespace Lfi
namespace Impl

open Runs

/-! ### What should hold -/

/-- The action uses the request again. -/
def CancelAction.Uses (r : ReqId) : CancelAction → Prop
  | .reset r' | .post r' _ | .free r' => r' = r
  | _ => False

/-- The request is that of a receive that ended with success. -/
def Core.Received (s : Core) (r : ReqId) : Prop :=
  ∃ q, s.requests r = some q ∧ q.isCompleted = true ∧ q.opType = .recv ∧ q.error = lfiSuccess

instance (s : Core) (r : ReqId) : Decidable (s.Received r) :=
  match h : s.requests r with
  | none => .isFalse fun ⟨_, hq, _⟩ => nomatch h.symm.trans hq
  | some q => decidable_of_iff
      (q.isCompleted = true ∧ q.opType = .recv ∧ q.error = lfiSuccess) (by simp [Core.Received, h])

/-- The request says what the success entry with `len` and `tag` said. -/
def Told (s : Core) (r : ReqId) (len tag : ℕ) : Prop :=
  ∃ q, s.requests r = some q ∧ q.isCompleted = true ∧ q.opType = .recv ∧ q.error = lfiSuccess ∧
    q.size = len ∧ q.tag = tag &&& maskTag ∧ q.source = (tag &&& maskRank) >>> maskRankBytes

/-- **No message is hidden** by the action.  A success entry for a receive ends up in its
request, which was not posted again since, and a receive that ended with success stays so until
its request is used again. -/
structure Tells (env : Env) (s : Cancelling) (a : CancelAction) : Prop where
  entry : ∀ ctx len tag now, a = .fabric (.success ctx len tag now) →
    ∀ op ∈ s.ep.core.inFlight, op.context = ctx → op.type.Receives →
      s.ep.core.lastPost op.owner = op.post ∧
        Told (fabricEvent env s.ep (.success ctx len tag now)).core op.owner len tag
  stays : ∀ t, cancelStep env s a = some t → ∀ r, s.ep.core.Received r → ¬ a.Uses r →
    t.ep.core.requests r = s.ep.core.requests r

/-- No success entry is read for a receive whose request a cancel has completed, and no cancel
completes a request that such an entry has completed. -/
def InTime (s : Cancelling) : CancelAction → Prop
  | .fabric (.success ctx _ _ _) =>
      ∀ op ∈ s.ep.core.inFlight, op.context = ctx → op.type.Receives → op ∉ s.givenUp
  | .complete k => ∀ call ∈ s.cancels[k]?, ¬ s.ep.core.Received call.req
  | _ => True

instance (s : Cancelling) : DecidablePred (InTime s)
  | .fabric (.success ctx _ _ _) => inferInstanceAs (Decidable (∀ op ∈ s.ep.core.inFlight, _))
  | .complete k =>
      match h : s.cancels[k]? with
      | none => .isTrue (by simp [InTime, h])
      | some call => decidable_of_iff (¬ s.ep.core.Received call.req) (by simp [InTime, h])
  | .fabric (.error ..) | .fabric (.heartbeatValue ..) | .fabric (.postPendingOps ..) =>
      .isTrue trivial
  | .create .. | .reset _ | .post .. | .free _ | .monitor _ | .report .. | .cancel _ | .check _ =>
      .isTrue trivial

variable {env : Env} {s t : Core} {ops g : List LfiPendingOp} {op : LfiPendingOp}

/-! ### The invariant -/

/-- The contexts are right, a receive that was not given up is waited for, and a cancel
completes its request with an error. -/
structure CancelInv (s : Cancelling) : Prop where
  contexts : ContextInv s.ep.core s.ep.core.ops
  held : ∀ op ∈ s.ep.core.ops, Held s.givenUp s.ep.core op
  given : ∀ op ∈ s.givenUp, op.post < s.ep.core.posts
  errs : ∀ call ∈ s.cancels, call.err ≠ lfiSuccess

theorem CancelStart.inv {s : Cancelling} (h : CancelStart s) : CancelInv s where
  contexts := h.fresh.contextInv
  held op hop := by
    rw [Core.ops, h.fresh.priorityOps, h.fresh.pendingOps, h.fresh.inFlight] at hop
    cases hop
  given op hop := by
    rw [h.givenUp] at hop
    cases hop
  errs call hcall := by
    rw [h.cancels] at hcall
    cases hcall

/-- The request of a report stays outstanding, and what it is. -/
theorem held_reportTo {s : State} {r : ReqId} (h : Held g s.core op)
    (hr : s.core.onComm r ≠ none) (c : CommId) : Held g (reportTo s r c).core op := by
  have hother : ∀ r' ≠ r, (reportTo s r c).core.requests r' = s.core.requests r' :=
    fun r' hr' => Function.update_of_ne hr' ..
  refine ⟨h.post, fun hrecv hg => ?_, fun hrecv hg => ?_⟩
  · obtain ⟨hctx, htype⟩ := h.waited hrecv hg
    refine ⟨hctx, fun q hq => ?_⟩
    by_cases howner : op.owner = r
    · rw [howner] at hq
      simp only [reportTo, Core.setRequest, Function.update_self] at hq
      obtain ⟨q', hq', rfl⟩ := Option.map_eq_some_iff.1 hq
      exact htype q' (howner ▸ hq')
    · exact htype q (hother _ howner ▸ hq)
  · obtain ⟨hctx, hlast⟩ := h.left hrecv hg
    refine ⟨hctx, fun hpost => ?_⟩
    obtain ⟨hon, herr⟩ := hlast hpost
    have howner : op.owner ≠ r := fun h' => hr (h' ▸ hon)
    rw [hother _ howner]
    exact ⟨(Core.onComm_congr (hother _ howner)).trans hon, herr⟩

/-- A completed request that is used again. -/
theorem CancelInv.reuses {s : Cancelling} (h : CancelInv s) {r : ReqId} {core : Core}
    (hr : s.ep.core.onComm r = none) (hinv : ContextInv core s.ep.core.ops)
    (hops : core.ops = s.ep.core.ops) (hu : Reuses r s.ep.core core) :
    CancelInv { s with ep := ⟨core, s.ep.ft⟩ } where
  contexts := by rw [hops]; exact hinv
  held op hop := (h.held op (hops ▸ hop)).reuses h.contexts hr hu
  given op hop := by rw [hu.posts]; exact h.given op hop
  errs := h.errs

/-- Every action keeps the invariant. -/
theorem cancelStep_inv {s t : Cancelling} {a : CancelAction} (h : CancelInv s)
    (ht : cancelStep env s a = some t) : CancelInv t := by
  cases cancelStep_cases ht with
  | @create r c hnone =>
      have hr : s.ep.core.onComm r = none := by simp [Core.onComm, hnone]
      refine h.reuses hr (h.contexts.new hnone c) rfl (reuses_setRequest fun q hq => ?_)
      rw [← Option.some.inj hq]
      exact ⟨rfl, rfl⟩
  | @reset r hr =>
      obtain ⟨requests, contexts, heq⟩ := reset_eq s.ep.core r
      exact h.reuses hr (h.contexts.reset r) (by rw [heq]; rfl) (reuses_reset hr)
  | @post r call hr =>
      rcases asyncPost_receives env s.ep r call with heq | ⟨q, f, o, hq, heq, hrecv⟩
      · rw [heq]; exact h
      · rw [heq]
        refine ⟨h.contexts.postCore hq f o call.priority,
          held_postCore h.contexts h.held h.given hq hr call.priority hrecv,
          fun op hop => ?_, h.errs⟩
        show op.post < (postCore s.ep.core r f o call.priority).posts
        rw [postCore_posts]
        exact Nat.lt_succ_of_lt (h.given op hop)
  | free hr =>
      exact h.reuses hr (h.contexts.clear hr) rfl (reuses_setRequest fun _ h => by cases h)
  | @fabric e =>
      obtain ⟨hheld, hsettles⟩ :=
        @Survives.fabricEvent env _ (survives_held _) _ h.contexts h.held e
      exact ⟨h.contexts.fabricEvent e, hheld, fun op hop => hsettles.posts ▸ h.given op hop,
        h.errs⟩
  | monitor => exact ⟨h.contexts, h.held, h.given, h.errs⟩
  | @report r c hr =>
      exact ⟨h.contexts.reportTo r c, fun op hop => held_reportTo (h.held op hop) hr c, h.given,
        h.errs⟩
  | @cancel r q hq =>
      obtain ⟨hheld, hposts⟩ := (survives_held _).eraseOps h.held q.waitContext
      refine ⟨h.contexts.eraseOps _, hheld, fun op hop => hposts ▸ h.given op hop,
        fun call hcall => ?_⟩
      rcases List.mem_append.1 hcall with hcall | hcall
      · exact h.errs call hcall
      · split at hcall
        case isTrue => cases hcall
        case isFalse =>
          rw [List.mem_singleton.1 hcall]
          exact cancelError_ne s.ep.ft q
  | @check k r err hcall =>
      refine ⟨h.contexts, h.held, h.given, fun call hmem => ?_⟩
      dsimp only at hmem
      split at hmem
      case isTrue => exact h.errs call (List.mem_of_mem_eraseIdx hmem)
      case isFalse =>
        rcases List.mem_or_eq_of_mem_set hmem with hmem | rfl
        · exact h.errs call hmem
        · exact h.errs ⟨r, err, false⟩ (List.mem_of_getElem? hcall)
  | @complete k r err hcall =>
      obtain ⟨hops, hposts, -⟩ := completeBody_kept s.ep.core r err
      have herr := h.errs _ (List.mem_of_getElem? hcall)
      refine ⟨by rw [hops]; exact h.contexts.completeBody r err,
        held_completeBody h.contexts h.held r herr, fun op hop => ?_,
        fun call hmem => h.errs call (List.mem_of_mem_eraseIdx hmem)⟩
      show op.post < (completeBody s.ep.core r err).posts
      rw [hposts]
      rcases List.mem_append.1 hop with hop | hop
      · exact h.given op hop
      · exact (h.held op (List.mem_filter.1 hop).1).post

/-! ### Which steps hide nothing -/

/-- A success entry for a receive whose request waits for it. -/
theorem told_cqSuccess {s : State} (hinv : ContextInv s.core ops) (hwait : WaitedFor s.core op)
    (len tag : ℕ) (now : ℤ) :
    Told (cqSuccess env s op.context len tag now).core op.owner len tag := by
  obtain ⟨hctx, htype⟩ := hwait
  obtain ⟨q, hq, hw⟩ := hinv.sound _ _ hctx
  have hrecv := htype q hq
  have hset : ((takeBack s.core op.context).setRequest op.owner
      ((s.core.requests op.owner).map fun q => q.received len tag)).requests op.owner =
        some (q.received len tag) := by
    simp [Core.setRequest, hq]
  have hout : (q.received len tag).isCompleted = false := by
    simp [LfiRequest.received, LfiRequest.isCompleted, hrecv, hw]
  have hread : (cqSuccess env s op.context len tag now).core.requests op.owner =
      some { q.received len tag with error := lfiSuccess, waitContext := none } := by
    show (receiveAt env ⟨takeBack s.core op.context, s.ft⟩ op.context len tag now).core.requests
      op.owner = _
    rw [receiveAt_of_some (s := ⟨takeBack s.core op.context, s.ft⟩) hctx]
    exact complete_request (s := ⟨_, s.ft⟩) hset hout lfiSuccess now
  exact ⟨_, hread, rfl, by simp [LfiRequest.received, hrecv], rfl,
    by simp [LfiRequest.received, hrecv], by simp [LfiRequest.received, hrecv],
    by simp [LfiRequest.received, hrecv]⟩

/-- A receive that ended is completed. -/
theorem Core.Received.onComm {r : ReqId} (h : s.Received r) : s.onComm r = none := by
  obtain ⟨q, hq, hdone, -⟩ := h
  simp [Core.onComm, hq, hdone]

/-- What an action that is no event of the fabric does to a request it does not use: nothing, or
it is reported, or a cancel completes it. -/
theorem cancelStep_request {s t : Cancelling} {a : CancelAction} {r : ReqId} {q : LfiRequest}
    (ht : cancelStep env s a = some t) (hentry : ∀ e, a ≠ .fabric e)
    (hq : s.ep.core.requests r = some q) (huses : ¬ a.Uses r) :
    t.ep.core.requests r = some q ∨
      (s.ep.core.onComm r ≠ none ∧ ∃ c, a = .report r c ∧
        t.ep.core.requests r = some { q with source := c, error := -lfiBrokenComm }) ∨
      ∃ k err, a = .complete k ∧ ⟨r, err, true⟩ ∈ s.cancels ∧
        t.ep.core.requests r = some { q with error := err, waitContext := none } := by
  cases cancelStep_cases ht with
  | @fabric e => exact absurd rfl (hentry e)
  | @create r' c hnone =>
      have hne : r ≠ r' := fun h' => by
        rw [← h', hq] at hnone
        cases hnone
      exact .inl ((Function.update_of_ne hne ..).trans hq)
  | reset hon => exact .inl (((reuses_reset hon).others r fun h' => huses h'.symm).trans hq)
  | @post r' call => exact .inl ((asyncPost_requests_of_ne (fun h' => huses h'.symm) call).trans hq)
  | free => exact .inl ((Function.update_of_ne (fun h' => huses h'.symm) ..).trans hq)
  | monitor => exact .inl hq
  | @report r' c hon =>
      by_cases hr : r = r'
      · subst hr
        refine .inr (.inl ⟨hon, c, rfl, ?_⟩)
        simp [reportTo, Core.setRequest, hq]
      · exact .inl ((Function.update_of_ne hr ..).trans hq)
  | @cancel r' p hp =>
      have hkept : (eraseOps s.ep.core p.waitContext).requests = s.ep.core.requests := by
        cases p.waitContext <;> rfl
      exact .inl ((congrFun hkept r).trans hq)
  | check => exact .inl hq
  | @complete k r' err hcall =>
      show (completeBody s.ep.core r' err).requests r = some q ∨ _ ∨ _
      by_cases hr : r = r'
      · subst hr
        refine .inr (.inr ⟨k, err, rfl, List.mem_of_getElem? hcall, ?_⟩)
        show (completeBody s.ep.core r err).requests r = _
        rw [completeBody_requests, Function.update_self, hq, Option.map_some]
      · rw [completeBody_requests, Function.update_of_ne hr]
        exact .inl hq

/-- Neither entries nor the body of a `complete` apart, an action leaves a received request as
it is until it is used again. -/
theorem cancelStep_received {s t : Cancelling} {a : CancelAction}
    (ht : cancelStep env s a = some t) (hentry : ∀ e, a ≠ .fabric e)
    (hbody : ∀ k, a ≠ .complete k) {r : ReqId} (hr : s.ep.core.Received r) (huses : ¬ a.Uses r) :
    t.ep.core.requests r = s.ep.core.requests r := by
  obtain ⟨q, hq, -⟩ := id hr
  rcases cancelStep_request ht hentry hq huses with hsame | ⟨hon, -⟩ | ⟨k, -, hk, -⟩
  · exact hsame.trans hq.symm
  · exact absurd hr.onComm hon
  · exact absurd hk (hbody k)

/-- The body of a cancel's `complete` hides a message when the receive has ended with
success. -/
theorem tells_complete_iff {s t : Cancelling} {k : ℕ} (h : CancelInv s)
    (ht : cancelStep env s (.complete k) = some t) :
    Tells env s (.complete k) ↔ InTime s (.complete k) := by
  have hstep := ht
  cases cancelStep_cases ht with
  | @complete k r err hcall =>
    have herr := h.errs _ (List.mem_of_getElem? hcall)
    have hin : InTime s (.complete k) ↔ ¬ s.ep.core.Received r := by simp [InTime, hcall]
    rw [hin]
    constructor
    · rintro ⟨-, hstays⟩ hrecv
      have hsame : (completeBody s.ep.core r err).requests r = s.ep.core.requests r :=
        hstays _ hstep r hrecv id
      obtain ⟨q, hq, -, -, hq0⟩ := hrecv
      rw [completeBody_requests, Function.update_self, hq, Option.map_some] at hsame
      have herr' : err = q.error := congrArg LfiRequest.error (Option.some.inj hsame)
      exact herr (herr'.trans hq0)
    · intro hrecv
      refine ⟨(fun _ _ _ _ h => by cases h), fun u hu r' hr' _ => ?_⟩
      obtain rfl := Option.some.inj (hstep.symm.trans hu)
      have hne : r' ≠ r := fun h' => hrecv (h' ▸ hr')
      show (completeBody s.ep.core r err).requests r' = _
      rw [completeBody_requests, Function.update_of_ne hne]

/-- A success entry hides its message when the receive was given up. -/
theorem tells_fabric_iff {s : Cancelling} (h : CancelInv s) (e : FabricEvent) :
    Tells env s (.fabric e) ↔ InTime s (.fabric e) := by
  obtain ⟨-, hsettles⟩ := @Survives.fabricEvent env _ (survives_held _) _ h.contexts h.held e
  have hstays : ∀ t, cancelStep env s (.fabric e) = some t → ∀ r, s.ep.core.Received r →
      ¬ CancelAction.Uses r (.fabric e) → t.ep.core.requests r = s.ep.core.requests r := by
    rintro t ht r hr -
    obtain rfl := Option.some.inj ht
    exact hsettles.completed r hr.onComm
  cases e with
  | error ctx err => exact iff_of_true ⟨nofun, hstays⟩ trivial
  | heartbeatValue c value => exact iff_of_true ⟨nofun, hstays⟩ trivial
  | postPendingOps answers now => exact iff_of_true ⟨nofun, hstays⟩ trivial
  | success ctx len tag now =>
      constructor
      · rintro ⟨hentry, -⟩ op hop hctx hrecv hgiven
        obtain ⟨hlast, q, hq, -, htype, herr, -⟩ := hentry ctx len tag now rfl op hop hctx hrecv
        obtain ⟨-, hgone⟩ := (h.held op (List.mem_append_right _ hop)).left hrecv hgiven
        obtain ⟨hon, herr'⟩ := hgone hlast
        rw [hsettles.completed _ hon] at hq
        exact herr' q hq htype herr
      · intro hin
        refine ⟨fun ctx' len' tag' now' ha op hop hctx hrecv => ?_, hstays⟩
        cases ha
        have hmem : op ∈ s.ep.core.ops := List.mem_append_right _ hop
        have hwait := (h.held op hmem).waited hrecv (hin op hop hctx hrecv)
        refine ⟨(h.contexts.current op hmem _ hwait.1).2, ?_⟩
        subst hctx
        rw [fabricEvent, if_pos ⟨op, hop, rfl⟩]
        exact told_cqSuccess h.contexts hwait len tag now

/-- **What hides a message.** -/
theorem tells_step_iff {s t : Cancelling} {a : CancelAction} (h : CancelInv s)
    (ht : cancelStep env s a = some t) : Tells env s a ↔ InTime s a := by
  have hquiet : (∀ e, a ≠ .fabric e) → (∀ k, a ≠ .complete k) → Tells env s a :=
    fun hentry hbody => ⟨fun ctx len tag now ha => absurd ha (hentry _),
      fun u hu r hr huses => cancelStep_received hu hentry hbody hr huses⟩
  cases a with
  | fabric e => exact tells_fabric_iff h e
  | complete k => exact tells_complete_iff h ht
  | create r c => exact iff_of_true (hquiet nofun nofun) trivial
  | reset r => exact iff_of_true (hquiet nofun nofun) trivial
  | post r call => exact iff_of_true (hquiet nofun nofun) trivial
  | free r => exact iff_of_true (hquiet nofun nofun) trivial
  | monitor ft => exact iff_of_true (hquiet nofun nofun) trivial
  | report r c => exact iff_of_true (hquiet nofun nofun) trivial
  | cancel r => exact iff_of_true (hquiet nofun nofun) trivial
  | check k => exact iff_of_true (hquiet nofun nofun) trivial

/-- **Cancel hides no delivered message** in exactly those runs in which no success entry is
read for a receive whose request a cancel has completed by itself, and no cancel completes a
request that such an entry completed after the cancel had found it outstanding. -/
theorem tells_iff (env : Env) (s₀ s : Cancelling) (h₀ : CancelStart s₀) (as : List CancelAction)
    (h : exec (cancelStep env) s₀ as = some s) :
    Meets (cancelStep env) (Tells env) s₀ as ↔ Meets (cancelStep env) InTime s₀ as :=
  meets_congr (I := CancelInv) (H := fun _ _ => True) (fun _ _ _ hs ht => cancelStep_inv hs ht)
    (fun _ _ _ hs _ ht => tells_step_iff hs ht) h₀.inv h
    (meets_of_forall (fun _ _ => trivial) s₀ as)

/-- A receive is in flight when it is cancelled, and its entry is read after the cancel. -/
def hiddenRun : List CancelAction :=
  [.post (.user 0) (.recv 0 8 3 false false), .fabric (.postPendingOps [0] 0),
    .cancel (.user 0), .check 0, .complete 0, .fabric (.success 0 8 3 5)]

/-- A fresh endpoint with one communicator and no cancel under way. -/
def cancelling : Cancelling := ⟨freshState {7} (fun _ => 7) 0, [], []⟩

theorem cancelStart_cancelling : CancelStart cancelling := ⟨fresh_freshState .., rfl, rfl⟩

/-- The entry is read and its message dropped: the request says that it was cancelled. -/
theorem tells_hidden :
    CancelStart cancelling ∧
      (∃ s, exec (cancelStep Env.default) cancelling hiddenRun = some s ∧
        s.ep.core.inFlight = [] ∧
        (s.ep.core.requests (.user 0)).map (·.error) = some (-lfiCanceled)) ∧
      ¬ Meets (cancelStep Env.default) (Tells Env.default) cancelling hiddenRun := by
  refine ⟨cancelStart_cancelling, ⟨_, (Option.some_get
    (x := exec (cancelStep Env.default) cancelling hiddenRun) (by decide +kernel)).symm,
    by decide +kernel, by decide +kernel⟩, fun htells => ?_⟩
  have hlast := ((meets_append cancelling (hiddenRun.take 5) (hiddenRun.drop 5)).1 htells).2 _
    (Option.some_get (x := exec (cancelStep Env.default) cancelling (hiddenRun.take 5))
      (by decide +kernel)).symm
  obtain ⟨op, hop, hctx, hrecv, howner⟩ : ∃ op ∈ ((exec (cancelStep Env.default) cancelling
      (hiddenRun.take 5)).get (by decide +kernel)).ep.core.inFlight,
      op.context = 0 ∧ op.type.Receives ∧ op.owner = .user 0 := by
    decide +kernel
  obtain ⟨-, q, hq, -, -, herr, -⟩ := hlast.1.entry 0 8 3 5 rfl op hop hctx hrecv
  have hsays : ((fabricEvent Env.default ((exec (cancelStep Env.default) cancelling
      (hiddenRun.take 5)).get (by decide +kernel)).ep (.success 0 8 3 5)).core.requests
        (.user 0)).map (·.error) = some (-lfiCanceled) := by
    decide +kernel
  rw [← howner, hq, Option.map_some, herr] at hsays
  exact absurd (Option.some.inj hsays) (by decide)

/-- The entry is read while the cancel is under way. -/
def toldRun : List CancelAction :=
  [.post (.user 0) (.recv 0 8 3 false false), .fabric (.postPendingOps [0] 0),
    .cancel (.user 0), .fabric (.success 0 8 3 5), .check 0]

theorem tells_toldRun :
    Meets (cancelStep Env.default) (Tells Env.default) cancelling toldRun :=
  (tells_iff Env.default cancelling _ cancelStart_cancelling toldRun
    (Option.some_get (x := exec (cancelStep Env.default) cancelling toldRun)
      (by decide +kernel)).symm).2 (by decide +kernel)

end Impl
end Lfi
