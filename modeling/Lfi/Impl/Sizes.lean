/-
# Sizes and bytes

A call that waits for its operation returns what its request says in the end:

    return request.error < 0 ? request.error : request.size;

The post sets the size, and the entry of a receive sets it again.  Between the two nothing
else does, so the number returned is the one of the post, and for a receive the one of the
entry.  A vectored send posts with the number of its buffers as the size and no entry corrects
that: `lfi_tsendv` returns how many buffers there were (`returned_bytes_iff`).
-/

import Lfi.Impl.Agreed
import Lfi.Impl.CancelRace
import Mathlib.Algebra.GroupWithZero.Nat

namespace Lfi
namespace Impl

open Runs

/-- What `lfi_tsend`, `lfi_trecv`, `lfi_put` and the others return when the operation is over. -/
def LfiRequest.returned (q : LfiRequest) : ℤ := if q.error < 0 then q.error else q.size

/-- The bytes of the first `n` entries of an iovec list. -/
def iovBytes (iovLen : ℕ → ℕ) (n : ℕ) : ℕ := ((List.range n).map iovLen).sum

/-- The length in a success entry for `r`. -/
def entryLen (s : Core) (r : ReqId) : CancelAction → Option ℕ
  | .fabric (.success ctx len _ _) =>
      if (∃ op ∈ s.inFlight, op.context = ctx) ∧ s.contexts ctx = some r then some len else none
  | _ => none

/-- The length in the first success entry for `r` that is read in a run. -/
def entryRead (env : Env) (r : ReqId) : Cancelling → List CancelAction → Option ℕ
  | _, [] => none
  | s, a :: as =>
      (entryLen s.ep.core r a).or ((cancelStep env s a).bind fun t => entryRead env r t as)

/-- The bytes an operation has transferred when it is over without an error.  `iovLen b` are the
lengths in the iovec list at `b`, and `read` is the length in the entry. -/
def PostCall.transferred (iovLen : ℕ → ℕ → ℕ) (read : Option ℕ) : PostCall → ℕ
  | .send b n _ true _ => iovBytes (iovLen b) n
  | .send _ n _ false _ => n
  | .recv .. => read.getD 0
  | .put _ n _ _ _ => n
  | .get _ n _ _ _ => n

/-- Of a vectored send there are as many buffers as bytes. -/
def PostCall.CountsBytes (iovLen : ℕ → ℕ → ℕ) : PostCall → Prop
  | .send b n _ true _ => iovBytes (iovLen b) n = n
  | _ => True

variable {env : Env} {s t : Core} {ops : List LfiPendingOp} {r : ReqId} {q : LfiRequest}

/-! ### The invariant -/

theorem completeBody_inFlight (s : Core) (r : ReqId) (err : ℤ) :
    (completeBody s r err).inFlight = s.inFlight := by
  unfold completeBody
  cases s.requests r with
  | none => rfl
  | some q =>
    dsimp only
    cases q.sharedWaitStruct <;> cases q.callback <;> cases q.waitContext <;> rfl

/-- The request that is completed waits for nothing. -/
theorem Agreed.completeBody (h : Agreed s) (hinv : ContextInv s ops) (r : ReqId) (err : ℤ) :
    Agreed (completeBody s r err) := by
  obtain ⟨hops, -⟩ := completeBody_kept s r err
  refine h.step (shrinks_of_eq hops (completeBody_inFlight s r err)) fun c r' q hctx hq => ?_
  rw [hinv.completeBody_contexts] at hctx
  split at hctx
  case isTrue => cases hctx
  case isFalse hne =>
    have hr : r' ≠ r := fun h' => hne (h' ▸ hctx)
    rw [completeBody_requests, Function.update_of_ne hr] at hq
    exact ⟨hctx, q, hq, rfl, rfl⟩

/-- What holds while cancels are under way. -/
structure SizeInv (s : Cancelling) : Prop where
  cancels : CancelInv s
  agreed : Agreed s.ep.core

theorem CancelStart.sizeInv {s : Cancelling} (h : CancelStart s) : SizeInv s :=
  ⟨h.inv, h.fresh.agreed⟩

theorem SizeInv.step {s t : Cancelling} {a : CancelAction} (h : SizeInv s)
    (ht : cancelStep env s a = some t) : SizeInv t := by
  refine ⟨cancelStep_inv h.cancels ht, ?_⟩
  obtain ⟨hinv, hagreed⟩ := And.intro h.cancels.contexts h.agreed
  cases cancelStep_cases ht with
  | @create r c hnone =>
    refine hagreed.reuses hinv (r := r) (by simp [Core.onComm, hnone])
      (reuses_setRequest fun q hq => ?_) rfl rfl
    rw [← Option.some.inj hq]
    exact ⟨rfl, rfl⟩
  | reset hr => exact hagreed.reset hinv hr
  | @post r call hr => exact hagreed.asyncPost hinv hr call
  | free hr => exact hagreed.reuses hinv hr (reuses_setRequest fun _ h => by cases h) rfl rfl
  | @fabric e => exact hagreed.fabricEvent hinv e
  | monitor => exact hagreed
  | @report r c => exact hagreed.reportTo r c
  | @cancel r p hp =>
    refine hagreed.step (eraseOps_shrinks s.ep.core p.waitContext) fun c r' q hctx hq => ?_
    cases hw : p.waitContext <;> rw [hw] at hctx hq <;> exact ⟨hctx, q, hq, rfl, rfl⟩
  | check => exact hagreed
  | @complete k r err hcall => exact hagreed.completeBody hinv r err

/-! ### What an event makes of a request -/

/-- The request after a step in which the entry for it said `read`, if one was read.  A receive
ends with success by its entry only. -/
structure Turns (q : LfiRequest) (read : Option ℕ) (q' : LfiRequest) : Prop where
  opType : q'.opType = q.opType
  unread : read = none → q'.size = q.size ∧
    (q'.isCompleted = true → q.opType = .recv → q'.error ≠ lfiSuccess)
  read : ∀ len, read = some len → q'.isCompleted = true ∧
    q'.size = if q.opType = .recv then len else q.size

theorem turns_refl (hout : q.isCompleted = false) : Turns q none q :=
  ⟨rfl, fun _ => ⟨rfl, fun hdone => by simp [hout] at hdone⟩, nofun⟩

theorem turns_failed (q : LfiRequest) {err : ℤ} (herr : err ≠ lfiSuccess) :
    Turns q none { q with error := err, waitContext := none } :=
  ⟨rfl, fun _ => ⟨rfl, fun _ _ => herr⟩, nofun⟩

theorem completeAt_request {s : State} {ctx : ℕ} (hctx : s.core.contexts ctx = some r)
    (hq : s.core.requests r = some q) (hout : q.isCompleted = false) (err now : ℤ) :
    (completeAt env s ctx err now).core.requests r =
      some { q with error := err, waitContext := none } := by
  rw [completeAt_of_some hctx]
  exact complete_request hq hout err now

theorem cqErrorCode_ne_success (err : ℤ) : cqErrorCode err ≠ lfiSuccess := by
  unfold cqErrorCode
  split
  case isTrue => decide
  case isFalse =>
    split
    case isTrue => decide
    case isFalse => split <;> decide

/-- An attempt to post an operation. -/
theorem postOp_turns {s : State} (hinv : ContextInv s.core ops) (hout : q.isCompleted = false)
    {ctx : ℕ} (hwait : q.waitContext = some ctx) {op : LfiPendingOp}
    (htype : op.context = ctx → op.type.opType = q.opType)
    (h : ∃ q', s.core.requests r = some q' ∧ (q' = q ∨ q'.isCompleted = true ∧ Turns q none q'))
    (ret now : ℤ) :
    ∃ q', (postOp env s op ret now).core.requests r = some q' ∧
      (q' = q ∨ q'.isCompleted = true ∧ Turns q none q') := by
  obtain ⟨q', hq', rfl | hdone⟩ := h
  · have hctx := hinv.back r q' ctx hq' hwait
    by_cases hop : op.context = ctx
    · have hat := fun err => @completeAt_request env _ _ s _ (hop ▸ hctx) hq' hout err now
      unfold postOp
      split
      case isTrue => exact ⟨_, hat _, .inr ⟨rfl, turns_failed q' (by decide)⟩⟩
      case isFalse =>
        split
        case isTrue hinject =>
          refine ⟨_, hat lfiSuccess, .inr ⟨rfl, rfl, fun _ => ⟨rfl, fun _ hrecv => ?_⟩, nofun⟩⟩
          have := htype hop
          rw [hinject, hrecv] at this
          cases this
        case isFalse => exact ⟨q', hq', .inl rfl⟩
    · have hsame := (@elsewhere_postOp env _ s op ctx hinv (Ne.symm hop) ret now).request r hctx
      exact ⟨q', hsame.trans hq', .inl rfl⟩
  · have hnone : s.core.onComm r = none := by simp [Core.onComm, hq', hdone.1]
    exact ⟨q', ((settles_postOp hinv op ret now).completed r hnone).trans hq', .inr hdone⟩

/-- **What an event of the fabric makes of a request that is outstanding.** -/
theorem fabricEvent_turns {s : State} (hinv : ContextInv s.core s.core.ops) (h : Agreed s.core)
    (hq : s.core.requests r = some q) (hout : q.isCompleted = false) (e : FabricEvent) :
    ∃ q', (fabricEvent env s e).core.requests r = some q' ∧
      Turns q (entryLen s.core r (.fabric e)) q' := by
  obtain ⟨ctx, hwait⟩ : ∃ ctx, q.waitContext = some ctx :=
    Option.isSome_iff_exists.1 (by simpa [LfiRequest.isCompleted] using hout)
  have hctx := hinv.back r q ctx hq hwait
  have hpoints : ∀ c, s.core.contexts c = some r → c = ctx := fun c hc => by
    have := (hinv.contexts_iff hq c).1 hc
    exact Option.some.inj (this.symm.trans hwait)
  cases e with
  | heartbeatValue c value => exact ⟨q, hq, turns_refl hout⟩
  | error c err =>
    simp only [fabricEvent, entryLen]
    split
    case isFalse => exact ⟨q, hq, turns_refl hout⟩
    case isTrue =>
      by_cases hc : c = ctx
      · subst hc
        exact ⟨_, @completeAt_request env _ _ ⟨takeBack s.core c, s.ft⟩ _ hctx hq hout _ 0,
          turns_failed q (cqErrorCode_ne_success err)⟩
      · exact ⟨q, ((elsewhere_cqError hinv (Ne.symm hc) err).request r hctx).trans hq,
          turns_refl hout⟩
  | success c len tag now =>
    simp only [fabricEvent, entryLen]
    split
    case isFalse hop =>
      rw [if_neg fun h' => hop h'.1]
      exact ⟨q, hq, turns_refl hout⟩
    case isTrue hop =>
      by_cases hc : c = ctx
      · subst hc
        rw [if_pos ⟨hop, hctx⟩]
        have hset : (s.core.setRequest r
            ((s.core.requests r).map fun q => q.received len tag)).requests r =
              some (q.received len tag) := by
          simp [Core.setRequest, hq]
        refine ⟨{ q.received len tag with error := lfiSuccess, waitContext := none }, ?_, ?_⟩
        · show (receiveAt env ⟨takeBack s.core c, s.ft⟩ c len tag now).core.requests r = _
          rw [receiveAt_of_some (s := ⟨takeBack s.core c, s.ft⟩) hctx]
          refine complete_request (q := q.received len tag) hset ?_ lfiSuccess now
          unfold LfiRequest.received
          split <;> exact hout
        · refine ⟨?_, (fun h => by cases h), fun len' hlen => ⟨rfl, ?_⟩⟩
          · unfold LfiRequest.received
            split <;> rfl
          · obtain rfl := Option.some.inj hlen
            unfold LfiRequest.received
            split <;> rfl
      · rw [if_neg fun h' => hc (hpoints c h'.2)]
        exact ⟨q, ((elsewhere_cqSuccess hinv (Ne.symm hc) len tag now).request r hctx).trans hq,
          turns_refl hout⟩
  | postPendingOps answers now =>
    have htype : ∀ op ∈ s.core.queued, op.context = ctx → op.type.opType = q.opType := by
      rintro op hop rfl
      exact (h.agree op (List.mem_append_left _ hop) r q hctx hq).1.symm
    have hturns := @postPendingOps_induction env (fun t : Core =>
      ∃ q', t.requests r = some q' ∧ (q' = q ∨ q'.isCompleted = true ∧ Turns q none q')) s hinv
      (fun _ _ _ _ ht => ht)
      (fun _ _ op ret now hop hinv' ht => postOp_turns hinv' hout hwait (htype op hop) ht ret now)
      ⟨q, hq, .inl rfl⟩ answers now
    obtain ⟨q', hq', rfl | ⟨-, hturn⟩⟩ := hturns
    · exact ⟨q', hq', turns_refl hout⟩
    · exact ⟨q', hq', hturn⟩

/-- What any step makes of it. -/
theorem cancelStep_turns {s t : Cancelling} {a : CancelAction} (h : SizeInv s)
    (ht : cancelStep env s a = some t) (hq : s.ep.core.requests r = some q)
    (hout : q.isCompleted = false) (huses : ¬ a.Uses r) :
    ∃ q', t.ep.core.requests r = some q' ∧ Turns q (entryLen s.ep.core r a) q' := by
  by_cases hfabric : ∃ e, a = .fabric e
  · obtain ⟨e, rfl⟩ := hfabric
    obtain rfl := Option.some.inj ht
    exact fabricEvent_turns h.cancels.contexts h.agreed hq hout e
  · have hread : entryLen s.ep.core r a = none := by
      cases a <;> first | rfl | exact absurd ⟨_, rfl⟩ hfabric
    rw [hread]
    rcases cancelStep_request ht (fun e he => hfabric ⟨e, he⟩) hq huses with
      hsame | ⟨-, c, -, hreport⟩ | ⟨k, err, -, hcall, hdone⟩
    · exact ⟨q, hsame, turns_refl hout⟩
    · have hnot : ¬ q.isCompleted = true := by simp [hout]
      exact ⟨_, hreport, rfl, fun _ => ⟨rfl, fun hdone => absurd hdone hnot⟩, nofun⟩
    · exact ⟨_, hdone, turns_failed q (h.cancels.errs _ hcall)⟩

/-- A completed request keeps its size, and one that failed does not end well. -/
theorem cancelStep_completed {s t : Cancelling} {a : CancelAction} (h : SizeInv s)
    (ht : cancelStep env s a = some t) (hq : s.ep.core.requests r = some q)
    (hdone : q.isCompleted = true) (huses : ¬ a.Uses r) :
    ∃ q', t.ep.core.requests r = some q' ∧ q'.isCompleted = true ∧ q'.size = q.size ∧
      (q'.error = lfiSuccess → q.error = lfiSuccess) := by
  have hnone : s.ep.core.onComm r = none := by simp [Core.onComm, hq, hdone]
  by_cases hfabric : ∃ e, a = .fabric e
  · obtain ⟨e, rfl⟩ := hfabric
    obtain rfl := Option.some.inj ht
    obtain ⟨-, hsettles⟩ :=
      @Survives.fabricEvent env _ (survives_held _) _ h.cancels.contexts h.cancels.held e
    exact ⟨q, (hsettles.completed r hnone).trans hq, hdone, rfl, id⟩
  · rcases cancelStep_request ht (fun e he => hfabric ⟨e, he⟩) hq huses with
      hsame | ⟨hon, -⟩ | ⟨k, err, -, hcall, hcompleted⟩
    · exact ⟨q, hsame, hdone, rfl, id⟩
    · exact absurd hnone hon
    · exact ⟨_, hcompleted, rfl, rfl, fun herr => absurd herr (h.cancels.errs _ hcall)⟩

/-! ### Runs -/

theorem exec_completed {s u : Cancelling} {as : List CancelAction} (h : SizeInv s)
    (hu : exec (cancelStep env) s as = some u) (hq : s.ep.core.requests r = some q)
    (hdone : q.isCompleted = true) (huses : ∀ a ∈ as, ¬ a.Uses r) :
    ∃ q', u.ep.core.requests r = some q' ∧ q'.isCompleted = true ∧ q'.size = q.size ∧
      (q'.error = lfiSuccess → q.error = lfiSuccess) := by
  induction as generalizing s q with
  | nil =>
    obtain rfl := Option.some.inj hu
    exact ⟨q, hq, hdone, rfl, id⟩
  | cons a as ih =>
    rw [exec_cons, Option.bind_eq_some_iff] at hu
    obtain ⟨t, ht, hu⟩ := hu
    obtain ⟨p, hp, hpdone, hsize, herr⟩ :=
      cancelStep_completed h ht hq hdone (huses a (List.mem_cons_self ..))
    obtain ⟨q', hq', hdone', hsize', herr'⟩ :=
      ih (h.step ht) hu hp hpdone fun b hb => huses b (List.mem_cons_of_mem _ hb)
    exact ⟨q', hq', hdone', hsize'.trans hsize, fun h' => herr (herr' h')⟩

/-- **The size of a request that ends well**: the length in the entry of a receive, and of
anything else the size it was posted with. -/
theorem exec_size {s u : Cancelling} {as : List CancelAction} {q' : LfiRequest} (h : SizeInv s)
    (hu : exec (cancelStep env) s as = some u) (hq : s.ep.core.requests r = some q)
    (hout : q.isCompleted = false) (huses : ∀ a ∈ as, ¬ a.Uses r)
    (hq' : u.ep.core.requests r = some q') (hdone : q'.isCompleted = true)
    (hok : q'.error = lfiSuccess) :
    (q.opType = .recv → entryRead env r s as = some q'.size) ∧
      (q.opType ≠ .recv → q'.size = q.size) := by
  induction as generalizing s q with
  | nil =>
    obtain rfl := Option.some.inj hu
    obtain rfl := Option.some.inj (hq.symm.trans hq')
    simp [hout] at hdone
  | cons a as ih =>
    rw [exec_cons, Option.bind_eq_some_iff] at hu
    obtain ⟨t, ht, hu⟩ := hu
    have hrest : ∀ b ∈ as, ¬ b.Uses r := fun b hb => huses b (List.mem_cons_of_mem _ hb)
    obtain ⟨p, hp, hturn⟩ := cancelStep_turns h ht hq hout (huses a (List.mem_cons_self ..))
    rw [entryRead, ht, Option.bind_some]
    cases hread : entryLen s.ep.core r a with
    | some len =>
      obtain ⟨hpdone, hsize⟩ := hturn.read len hread
      obtain ⟨p', hp', -, hsize', -⟩ := exec_completed (h.step ht) hu hp hpdone hrest
      obtain rfl := Option.some.inj (hp'.symm.trans hq')
      rw [hsize', hsize]
      exact ⟨fun hrecv => by simp [hrecv], fun hrecv => by simp [hrecv]⟩
    | none =>
      obtain ⟨hsize, hfails⟩ := hturn.unread hread
      rw [Option.none_or]
      cases hpdone : p.isCompleted with
      | true =>
        obtain ⟨p', hp', -, hsize', herr⟩ := exec_completed (h.step ht) hu hp hpdone hrest
        obtain rfl := Option.some.inj (hp'.symm.trans hq')
        exact ⟨fun hrecv => absurd (herr hok) (hfails hpdone hrecv),
          fun _ => hsize'.trans hsize⟩
      | false =>
        obtain ⟨hrecv, hother⟩ := ih (h.step ht) hu hp hpdone hrest
        rw [hturn.opType] at hrecv hother
        exact ⟨hrecv, fun hne => (hother hne).trans hsize⟩

/-- The request after a post that was accepted. -/
theorem asyncPost_request {s : State} {call : PostCall}
    (haccepted : (asyncPost env s r call).1 = lfiSuccess) :
    ∃ q, (asyncPost env s r call).2.core.requests r = some q ∧ q.isCompleted = false ∧
      q.size = call.size ∧ (q.opType = .recv ↔ ¬ call.Directed) := by
  rcases asyncPost_agrees env s r call with ⟨hneg, -⟩ | ⟨q, f, o, hq, heq, -, -, hsize, hrecv⟩
  · rw [haccepted] at hneg
    exact absurd hneg (by decide)
  · rw [heq]
    exact ⟨_, postCore_context hq f o call.priority, rfl, hsize, hrecv⟩

/-- **Sizes are bytes**, except of a vectored send: it returns how many buffers it had, and this
is how many bytes they have only by chance.  A receive that ends well has had its entry. -/
theorem returned_bytes_iff (env : Env) (iovLen : ℕ → ℕ → ℕ) (s₀ s t u : Cancelling)
    (h₀ : CancelStart s₀) (as : List CancelAction) (hs : exec (cancelStep env) s₀ as = some s)
    (r : ReqId) (call : PostCall) (haccepted : (asyncPost env s.ep r call).1 = lfiSuccess)
    (ht : cancelStep env s (.post r call) = some t) (bs : List CancelAction)
    (hu : exec (cancelStep env) t bs = some u) (huses : ∀ a ∈ bs, ¬ a.Uses r) (q : LfiRequest)
    (hq : u.ep.core.requests r = some q) (hdone : q.isCompleted = true)
    (hok : q.error = lfiSuccess) :
    q.returned = q.size ∧ (¬ call.Directed → ∃ len, entryRead env r t bs = some len) ∧
      (q.size = call.transferred iovLen (entryRead env r t bs) ↔ call.CountsBytes iovLen) := by
  have hsized : SizeInv s := exec_invariant (fun _ _ _ h ht => h.step ht) h₀.sizeInv hs
  have hposted : t.ep = (asyncPost env s.ep r call).2 := by
    simp only [cancelStep, Option.ite_none_right_eq_some, Option.some.injEq] at ht
    rw [← ht.2]
  obtain ⟨p, hp, hout, hsize, hrecv⟩ := asyncPost_request haccepted
  rw [← hposted] at hp
  obtain ⟨hread, hkept⟩ := exec_size (hsized.step ht) hu hp hout huses hq hdone hok
  refine ⟨by simp [LfiRequest.returned, hok, lfiSuccess], fun hdir => ⟨_, hread (hrecv.2 hdir)⟩, ?_⟩
  have hsent : call.Directed → q.size = call.size := fun hdir =>
    (hkept fun h => hrecv.1 h hdir).trans hsize
  cases call with
  | send b n tag vector priority =>
    rw [hsent trivial]
    cases vector with
    | true => exact eq_comm
    | false => exact iff_of_true rfl trivial
  | recv b n tag vector priority =>
    refine iff_of_true ?_ trivial
    rw [PostCall.transferred, hread (hrecv.2 id), Option.getD_some]
  | put b n addr key priority => exact iff_of_true (hsent trivial) trivial
  | get b n addr key priority => exact iff_of_true (hsent trivial) trivial

/-- Two buffers of eight bytes are sent. -/
def vectoredSend : PostCall := .send 0 2 3 true false

/-- The call returns 2; for the sixteen bytes in one buffer it would return 16. -/
theorem returned_buffers :
    ∃ t u q, CancelStart cancelling ∧
      cancelStep Env.default cancelling (.post (.user 0) vectoredSend) = some t ∧
      exec (cancelStep Env.default) t
        [.fabric (.postPendingOps [0] 0), .fabric (.success 0 0 0 5)] = some u ∧
      u.ep.core.requests (.user 0) = some q ∧ q.isCompleted = true ∧ q.error = lfiSuccess ∧
      q.returned = 2 ∧ vectoredSend.transferred (fun _ _ => 8) none = 16 := by
  refine ⟨_, _, _, cancelStart_cancelling, rfl, rfl, rfl, rfl, rfl, rfl, by decide⟩

/-- Five bytes come for a receive with two buffers. -/
theorem returned_bytes_received :
    ∃ t u q, cancelStep Env.default cancelling
        (.post (.user 0) (.recv 0 2 3 true false)) = some t ∧
      exec (cancelStep Env.default) t
        [.fabric (.postPendingOps [0] 0), .fabric (.success 0 5 3 5)] = some u ∧
      u.ep.core.requests (.user 0) = some q ∧ q.returned = 5 ∧
      q.size = PostCall.transferred (fun _ _ => 8) (some 5) (.recv 0 2 3 true false) := by
  refine ⟨_, _, _, rfl, rfl, rfl, rfl, ?_⟩
  exact (returned_bytes_iff Env.default (fun _ _ => 8) cancelling cancelling _ _
    cancelStart_cancelling [] rfl (.user 0) (.recv 0 2 3 true false) rfl rfl
    [.fabric (.postPendingOps [0] 0), .fabric (.success 0 5 3 5)] rfl
    (by simp [CancelAction.Uses]) _ rfl rfl rfl).2.2.2 trivial

end Impl
end Lfi
