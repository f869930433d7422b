/-
# Rounds of heartbeats

A round of a communicator begins when its heartbeat is posted and ends with the answer, or with
the communicator in the list to cancel.  `BeatInv` is what every step keeps: while the round
goes on what is queued or in flight is the read of this heartbeat, and the word in the buffer is
`HEARBEAT_CODE` exactly if this read has written it.

What does not concern heartbeats is dealt with once (`Bypasses`).  `process_cases` lists what
`process_comm` does to them.
-/

import Lfi.Impl.Freed
import Lfi.Impl.Heartbeat
import Lfi.Impl.Receives

namespace Lfi
namespace Impl

open Runs

/-! ### What is kept -/

/-- Where a communicator is; the time point and the word in the buffer matter in a round only. -/
structure Pulse where
  status : FtStatus
  isCanceled : Bool
  round : Option (ℤ × ℕ)

def LfiComm.pulse (x : LfiComm) : Pulse :=
  ⟨x.ftCurrentStatus, x.isCanceled,
    if x.ftCurrentStatus = .heartbeat then some (x.ftHeartbeatTimePoint, x.ftValueHeartbeat)
    else none⟩

/-- The round of a communicator that waits for its heartbeat `b`: the time point is the one of
the heartbeat, what is queued or in flight is its read, and the word in the buffer is
`HEARBEAT_CODE` exactly if this read has written it. -/
structure Round (w : Beating) (c : CommId) (b : Beat) : Prop where
  last : w.beats c = some b
  time : (w.ep.ft.comm c).ftHeartbeatTimePoint = b.time
  read : ∀ op ∈ w.ep.core.ops, op.owner = .heartbeat c → op.post = b.post
  value : (w.ep.ft.comm c).ftValueHeartbeat = hearbeatCode ↔
    w.landed c = some (b.post, hearbeatCode)

/-- **The invariant of heartbeats.** -/
structure BeatInv (w : Beating) : Prop where
  contexts : ContextInv w.ep.core w.ep.core.ops
  ids : HeartbeatIds w.ep.core
  numbered : ∀ op ∈ w.ep.core.ops, op.post < w.ep.core.posts
  landed : ∀ c p v, w.landed c = some (p, v) → p < w.ep.core.posts
  waited : ∀ op ∈ w.ep.core.ops, ∀ c, op.owner = .heartbeat c →
    (w.ep.ft.comm c).isCanceled = false → w.ep.core.contexts op.context = some op.owner
  one : ∀ c, ∀ op ∈ w.ep.core.ops, ∀ op' ∈ w.ep.core.ops, op.owner = .heartbeat c →
    op'.owner = .heartbeat c → op = op'
  collected : ∀ c ∈ w.ep.ft.ftCanceledComs, (w.ep.ft.comm c).ftCurrentStatus = .error
  given : ∀ c ∈ w.given, (w.ep.ft.comm c).ftCurrentStatus = .error
  once : w.given.Nodup
  round : ∀ c, (w.ep.ft.comm c).ftCurrentStatus = .heartbeat → ∃ b, Round w c b

variable {env : Env} {s t : State} {w : Beating} {c : CommId}

/-! ### What leaves heartbeats alone -/

/-- A post changes the list of requests of a communicator only. -/
theorem post_comm (s : State) (r : ReqId) (c : CommId) (f : RequestFields) (o : OpFields)
    (priority : Bool) (d : CommId) : (post env s r c f o priority).ft.comm d =
      { s.ft.comm d with ftRequests := ((post env s r c f o priority).ft.comm d).ftRequests } := by
  have hpush : ∀ ft : Ft, (pushRequest ft r c).comm d =
      { ft.comm d with ftRequests := ((pushRequest ft r c).comm d).ftRequests } := by
    intro ft
    unfold pushRequest
    rw [Ft.setComm_comm]
    split
    case isTrue hd => rw [hd]
    case isFalse => rfl
  unfold post
  split
  case isFalse => rfl
  case isTrue =>
    unfold registerRequest
    refine (hpush _).trans ?_
    split
    case isTrue => rfl
    case isFalse => split <;> rfl

theorem post_pulse (s : State) (r : ReqId) (c : CommId) (f : RequestFields) (o : OpFields)
    (priority : Bool) (d : CommId) :
    ((post env s r c f o priority).ft.comm d).pulse = (s.ft.comm d).pulse := by
  rw [post_comm]
  rfl

theorem post_collected (s : State) (r : ReqId) (c : CommId) (f : RequestFields) (o : OpFields)
    (priority : Bool) : (post env s r c f o priority).ft.ftCanceledComs = s.ft.ftCanceledComs := by
  unfold post
  split
  case isFalse => rfl
  case isTrue =>
    unfold registerRequest
    dsimp only [pushRequest, Ft.setComm]
    split
    case isTrue => rfl
    case isFalse => split <;> rfl

theorem complete_pulse (r : ReqId) (err now : ℤ) (d : CommId) :
    ((complete env s r err now).ft.comm d).pulse = (s.ft.comm d).pulse := by
  have herase : ∀ c, ((eraseAnyRequest (eraseRequest s.ft r c) r c).comm d).pulse =
      (s.ft.comm d).pulse := by
    intro c
    have hlist : ((eraseRequest s.ft r c).comm d).pulse = (s.ft.comm d).pulse :=
      Ft.setComm_same LfiComm.pulse (s := { s.ft with reqNodes := _ }) (by rfl) d
    unfold eraseAnyRequest
    split
    case isTrue => exact hlist
    case isFalse => exact hlist
  have htouch : ∀ (ft : Ft) c, ((touchComm ft c now).comm d).pulse = (ft.comm d).pulse := by
    intro ft c
    unfold touchComm
    split
    case isTrue => exact Ft.setComm_same LfiComm.pulse (by rfl) d
    case isFalse => rfl
  cases hr : s.core.onComm r with
  | none => rw [complete_of_onComm_none hr]
  | some c =>
      obtain ⟨q, -, -, -, heq⟩ := @complete_of_onComm_some env _ _ _ err now hr
      rw [heq]
      dsimp only
      split
      case isFalse => rfl
      case isTrue =>
        unfold onRequestComplete
        split
        case isFalse => rfl
        case isTrue =>
          split
          case isTrue => rw [htouch, herase]
          case isFalse => exact herase c

/-- An entry and a round of `post_pending_ops` leave the buffer alone. -/
theorem fabricEvent_pulse {e : FabricEvent} (he : ∀ c value, e ≠ .heartbeatValue c value)
    (d : CommId) : ((fabricEvent env s e).ft.comm d).pulse = (s.ft.comm d).pulse :=
  fabricEvent_induction_of (P := fun t => (t.ft.comm d).pulse = (s.ft.comm d).pulse) e
    (fun _ _ _ _ h => h) (fun _ r err now _ h => (complete_pulse r err now d).trans h)
    (fun _ r _ _ now h => (complete_pulse r lfiSuccess now d).trans h)
    (fun c value heq => absurd heq (he c value)) rfl

/-- The reads of heartbeats that are queued or in flight were so before, their contexts are
what they were unless the communicator is cancelled, and what is posted is not one. -/
structure Bypasses (s t : State) : Prop where
  contexts : ContextInv t.core t.core.ops
  ids : HeartbeatIds t.core
  posts : s.core.posts ≤ t.core.posts
  ops : ∀ op ∈ t.core.ops, op.post < t.core.posts ∧ ∀ c, op.owner = .heartbeat c →
    op ∈ s.core.ops ∧ ((t.ft.comm c).isCanceled = false →
      t.core.contexts op.context = s.core.contexts op.context)
  pulse : ∀ c, (t.ft.comm c).pulse = (s.ft.comm c).pulse
  collected : t.ft.ftCanceledComs ⊆ s.ft.ftCanceledComs

theorem status_of_pulse {x y : LfiComm} (h : x.pulse = y.pulse) :
    x.ftCurrentStatus = y.ftCurrentStatus :=
  congrArg Pulse.status h

theorem isCanceled_of_pulse {x y : LfiComm} (h : x.pulse = y.pulse) :
    x.isCanceled = y.isCanceled :=
  congrArg Pulse.isCanceled h

theorem round_of_pulse {x y : LfiComm} (h : x.pulse = y.pulse)
    (hy : y.ftCurrentStatus = .heartbeat) : x.ftHeartbeatTimePoint = y.ftHeartbeatTimePoint ∧
      x.ftValueHeartbeat = y.ftValueHeartbeat := by
  have hround := congrArg Pulse.round h
  rw [LfiComm.pulse, LfiComm.pulse, if_pos hy, if_pos ((status_of_pulse h).trans hy)] at hround
  exact Prod.mk.inj (Option.some.inj hround)

/-- A round goes on. -/
theorem Round.bypasses {b : Beat} (h : Round w c b) (hb : Bypasses w.ep t)
    (hc : (w.ep.ft.comm c).ftCurrentStatus = .heartbeat) : Round { w with ep := t } c b := by
  obtain ⟨htime, hvalue⟩ := round_of_pulse (hb.pulse c) hc
  refine ⟨h.last, htime.trans h.time, fun op hop howner =>
    h.read op ((hb.ops op hop).2 c howner).1 howner, ?_⟩
  rw [hvalue]
  exact h.value

theorem BeatInv.bypasses (h : BeatInv w) (hb : Bypasses w.ep t) :
    BeatInv { w with ep := t } where
  contexts := hb.contexts
  ids := hb.ids
  numbered op hop := (hb.ops op hop).1
  landed c p v hv := (h.landed c p v hv).trans_le hb.posts
  waited op hop c howner hcan := by
    obtain ⟨hold, hctx⟩ := (hb.ops op hop).2 c howner
    rw [hctx hcan]
    exact h.waited op hold c howner ((isCanceled_of_pulse (hb.pulse c)).symm.trans hcan)
  one c op hop op' hop' howner howner' :=
    h.one c op ((hb.ops op hop).2 c howner).1 op' ((hb.ops op' hop').2 c howner').1 howner howner'
  collected c hc := (status_of_pulse (hb.pulse c)).trans (h.collected c (hb.collected hc))
  given c hc := (status_of_pulse (hb.pulse c)).trans (h.given c hc)
  once := h.once
  round c hc := by
    have hold := (status_of_pulse (hb.pulse c)).symm.trans hc
    obtain ⟨b, hround⟩ := h.round c hold
    exact ⟨b, hround.bypasses hb hold⟩

/-- The operations that stay keep their contexts. -/
theorem bypasses_of_ops (h : BeatInv w) (hinv : ContextInv t.core t.core.ops)
    (hids : HeartbeatIds t.core) (hposts : t.core.posts = w.ep.core.posts)
    (hops : t.core.ops ⊆ w.ep.core.ops) (hctx : t.core.contexts = w.ep.core.contexts)
    (hpulse : ∀ c, (t.ft.comm c).pulse = (w.ep.ft.comm c).pulse)
    (hcollected : t.ft.ftCanceledComs ⊆ w.ep.ft.ftCanceledComs) : Bypasses w.ep t where
  contexts := hinv
  ids := hids
  posts := hposts.ge
  ops op hop := ⟨hposts ▸ h.numbered op (hops hop),
    fun _ _ => ⟨hops hop, fun _ => congrFun hctx op.context⟩⟩
  pulse := hpulse
  collected := hcollected

/-- The requests change, but for what they wait on. -/
theorem bypasses_requests (h : BeatInv w) {r : ReqId} {q : Option LfiRequest} {ft : Ft}
    (hinv : ContextInv (w.ep.core.setRequest r q) w.ep.core.ops)
    (hids : HeartbeatIds (w.ep.core.setRequest r q))
    (hpulse : ∀ c, (ft.comm c).pulse = (w.ep.ft.comm c).pulse)
    (hcollected : ft.ftCanceledComs ⊆ w.ep.ft.ftCanceledComs) :
    Bypasses w.ep ⟨w.ep.core.setRequest r q, ft⟩ :=
  bypasses_of_ops h hinv hids rfl (List.Subset.refl _) rfl hpulse hcollected

/-- Fault tolerance changes its own half, but for what a pass looks at. -/
theorem bypasses_ft (h : BeatInv w) {ft : Ft}
    (hpulse : ∀ c, (ft.comm c).pulse = (w.ep.ft.comm c).pulse)
    (hcollected : ft.ftCanceledComs ⊆ w.ep.ft.ftCanceledComs) : Bypasses w.ep ⟨w.ep.core, ft⟩ :=
  bypasses_of_ops h h.contexts h.ids rfl (List.Subset.refl _) rfl hpulse hcollected

theorem bypasses_eraseOps (h : BeatInv w) (ctx : Option ℕ) :
    Bypasses w.ep ⟨eraseOps w.ep.core ctx, w.ep.ft⟩ := by
  have hstay : Survives fun _ op => op ∈ w.ep.core.ops := fun _ _ _ hop _ => hop
  have hops := (hstay.eraseOps (fun _ hop => hop) ctx).1
  refine bypasses_of_ops h (h.contexts.eraseOps ctx) ?_ ?_ (fun op hop => hops op hop) ?_
    (fun _ => rfl) (List.Subset.refl _)
  all_goals cases ctx <;> first | exact h.ids | rfl

/-- An entry, or a round of `post_pending_ops`. -/
theorem bypasses_fabricEvent (h : BeatInv w) {e : FabricEvent}
    (he : ∀ c value, e ≠ .heartbeatValue c value) : Bypasses w.ep (fabricEvent env w.ep e) := by
  have hkept : Survives fun core op => op ∈ w.ep.core.ops ∧
      core.contexts op.context = w.ep.core.contexts op.context :=
    fun _ _ _ hop helse => ⟨hop.1, helse.context.trans hop.2⟩
  obtain ⟨hops, hsettles⟩ := @Survives.fabricEvent env _ hkept _ h.contexts
    (fun op hop => ⟨hop, rfl⟩) e
  have hprog := @fabricEvent_progressed env w.ep e
  exact
    { contexts := h.contexts.fabricEvent e
      ids := h.ids.progress hprog
      posts := hsettles.posts.ge
      ops := fun op hop => ⟨hsettles.posts ▸ h.numbered op (hops op hop).1,
        fun _ _ => ⟨(hops op hop).1, fun _ => (hops op hop).2⟩⟩
      pulse := fabricEvent_pulse he
      collected := by rw [hprog.ftCanceledComs]; exact List.Subset.refl _ }

/-- The `complete` of a cancel.  Only a communicator that is cancelled loses its heartbeat. -/
theorem bypasses_complete (h : BeatInv w) {r : ReqId} (hr : MayCancel w.ep.ft r) (err now : ℤ) :
    Bypasses w.ep (complete env w.ep r err now) := by
  have hprog := @complete_progressed env w.ep r err now
  have hops : (complete env w.ep r err now).core.ops = w.ep.core.ops :=
    Core.ops_eq (complete_queues w.ep r err now)
  have hposts : (complete env w.ep r err now).core.posts = w.ep.core.posts :=
    complete_posts w.ep r err now
  refine
    { contexts := by rw [hops]; exact h.contexts.complete r err now
      ids := h.ids.progress hprog
      posts := hposts.ge
      ops := fun op hop => ?_
      pulse := complete_pulse r err now
      collected := by rw [hprog.ftCanceledComs]; exact List.Subset.refl _ }
  rw [hops] at hop
  refine ⟨hposts ▸ h.numbered op hop, fun c howner => ⟨hop, fun hcan => ?_⟩⟩
  have hne : w.ep.core.contexts op.context ≠ some r := by
    intro hctx
    have hself := (h.contexts.current op hop r hctx).1
    rw [hself, howner] at hr
    have hcan' := (isCanceled_of_pulse (@complete_pulse env w.ep r err now c)).symm.trans hcan
    exact absurd hr (by rw [MayCancel, hcan']; exact Bool.false_ne_true)
  by_cases hon : w.ep.core.onComm r = none
  · rw [complete_of_onComm_none hon]
  · exact (elsewhere_complete h.contexts hon hne err now).context

/-- A post of the user. -/
theorem bypasses_asyncPost (h : BeatInv w) {k : ℕ} (hon : w.ep.core.onComm (.user k) = none)
    (call : PostCall) : Bypasses w.ep (asyncPost env w.ep (.user k) call).2 := by
  rcases asyncPost_cases env w.ep (.user k) call with ⟨-, heq⟩ |
    ⟨q, f, o, p, hq, -, -, -, -, heq⟩
  · rw [heq]
    exact bypasses_ft h (fun _ => rfl) (List.Subset.refl _)
  · obtain ⟨hposts, -, hops⟩ := postCore_ops h.contexts (.user k) f o p
    rw [heq]
    refine
      { contexts := h.contexts.postCore hq f o p
        ids := h.ids.postCore hon f o p
        posts := by rw [post, hposts]; exact Nat.le_succ _
        ops := fun op hop => ?_
        pulse := fun c => post_pulse ..
        collected := by rw [post_collected]; exact List.Subset.refl _ }
    · rcases hops op hop with ⟨hold, hctx⟩ | ⟨howner, hnumber, -, -⟩
      · rw [(reuses_reset hon).contexts] at hctx
        refine ⟨?_, fun _ _ => ⟨hold, fun _ => hctx⟩⟩
        rw [post, hposts]
        exact Nat.lt_succ_of_lt (h.numbered op hold)
      · refine ⟨?_, fun c hc => ?_⟩
        · rw [post, hposts, hnumber]
          exact Nat.lt_succ_self _
        · rw [howner] at hc
          cases hc

/-! ### What concerns them -/

/-- **One communicator changes.**  It stays an error if it was one, and what is new is right. -/
theorem BeatInv.setComm (h : BeatInv w) {x : LfiComm} {landed : CommId → Option (ℕ × ℕ)}
    (hlanded : ∀ d ≠ c, landed d = w.landed d)
    (hposts : ∀ p v, landed c = some (p, v) → p < w.ep.core.posts)
    (hwaited : x.isCanceled = false → (w.ep.ft.comm c).isCanceled = false)
    (herror : (w.ep.ft.comm c).ftCurrentStatus = .error → x.ftCurrentStatus = .error)
    (hround : x.ftCurrentStatus = .heartbeat → ∃ b, Round
      { w with ep := ⟨w.ep.core, w.ep.ft.setComm c x⟩, landed := landed } c b) :
    BeatInv { w with ep := ⟨w.ep.core, w.ep.ft.setComm c x⟩, landed := landed } := by
  have hstays : ∀ d, (w.ep.ft.comm d).ftCurrentStatus = .error →
      ((w.ep.ft.setComm c x).comm d).ftCurrentStatus = .error := fun _ =>
    Ft.setComm_of (P := fun _ y => y.ftCurrentStatus = .error) herror
  refine
    { contexts := h.contexts
      ids := h.ids
      numbered := h.numbered
      landed := fun d p v hv => ?_
      waited := fun op hop d hd hcan => ?_
      one := h.one
      collected := fun d hd => hstays d (h.collected d hd)
      given := fun d hd => hstays d (h.given d hd)
      once := h.once
      round := fun d hd => ?_ }
  · by_cases hdc : d = c
    · exact hposts p v (hdc ▸ hv)
    · exact h.landed d p v ((hlanded d hdc).symm.trans hv)
  · rw [Ft.setComm_comm] at hcan
    split at hcan
    case isTrue hdc => exact h.waited op hop d hd (hdc ▸ hwaited hcan)
    case isFalse => exact h.waited op hop d hd hcan
  · by_cases hdc : d = c
    · subst hdc
      rw [Ft.setComm_comm, if_pos rfl] at hd
      exact hround hd
    · rw [Ft.setComm_comm, if_neg hdc] at hd
      obtain ⟨b, hold⟩ := h.round d hd
      refine ⟨b, hold.last, ?_, hold.read, ?_⟩
      · rw [Ft.setComm_comm, if_neg hdc]
        exact hold.time
      · rw [Ft.setComm_comm, if_neg hdc]
        show _ ↔ landed d = _
        rw [hlanded d hdc]
        exact hold.value

/-- The word that a heartbeat's read has written. -/
theorem BeatInv.land (env : Env) (h : BeatInv w) {op : LfiPendingOp} (hop : op ∈ w.ep.core.inFlight)
    (howner : op.owner = .heartbeat c) (value : ℕ) :
    BeatInv { w with
      ep := fabricEvent env w.ep (.heartbeatValue c value)
      landed := Function.update w.landed c (some (op.post, value)) } := by
  have hmem : op ∈ w.ep.core.ops := List.mem_append_right _ hop
  refine h.setComm (x := { w.ep.ft.comm c with ftValueHeartbeat := value })
    (fun d hd => Function.update_of_ne hd ..) (fun p v hv => ?_) id id (fun hstatus => ?_)
  · rw [Function.update_self] at hv
    rw [← (Prod.mk.inj (Option.some.inj hv)).1]
    exact h.numbered op hmem
  · obtain ⟨b, hround⟩ := h.round c hstatus
    refine ⟨b, hround.last, ?_, hround.read, ?_⟩
    · rw [Ft.setComm_comm, if_pos rfl]
      exact hround.time
    · have hvalue : Function.update w.landed c (some (op.post, value)) c =
          some (b.post, value) := by
        rw [Function.update_self, hround.read op hmem howner]
      rw [Ft.setComm_comm, if_pos rfl]
      show value = hearbeatCode ↔ Function.update w.landed c (some (op.post, value)) c = _
      rw [hvalue]
      simp

/-- The first assignment of `cancel_comm`. -/
theorem BeatInv.markCanceled (h : BeatInv w) (c : CommId) :
    BeatInv { w with ep := markCanceled w.ep c } := by
  refine h.setComm (x := { w.ep.ft.comm c with isCanceled := true }) (fun _ _ => rfl)
    (h.landed c) nofun id (fun hstatus => ?_)
  obtain ⟨b, hround⟩ := h.round c hstatus
  refine ⟨b, hround.last, ?_, hround.read, ?_⟩
  · rw [Ft.setComm_comm, if_pos rfl]
    exact hround.time
  · rw [Ft.setComm_comm, if_pos rfl]
    exact hround.value

/-- The end of a round. -/
theorem BeatInv.answered (h : BeatInv w) (hc : (w.ep.ft.comm c).ftCurrentStatus ≠ .error) :
    BeatInv { w with ep := ⟨w.ep.core,
      w.ep.ft.setComm c { w.ep.ft.comm c with ftCurrentStatus := .idle }⟩ } :=
  h.setComm (fun _ _ => rfl) (h.landed c) id (fun herr => absurd herr hc) nofun

/-- The communicator is put in the list to cancel. -/
theorem BeatInv.giveUp (h : BeatInv w) (hc : (w.ep.ft.comm c).ftCurrentStatus ≠ .error) :
    BeatInv { w with ep := ⟨w.ep.core, giveUp w.ep.ft c⟩, given := w.given ++ [c] } := by
  have herr : BeatInv { w with ep := ⟨w.ep.core,
      w.ep.ft.setComm c { w.ep.ft.comm c with ftCurrentStatus := .error }⟩ } :=
    h.setComm (fun _ _ => rfl) (h.landed c) id (fun _ => rfl) nofun
  have hself : ((w.ep.ft.setComm c { w.ep.ft.comm c with ftCurrentStatus := .error }).comm
      c).ftCurrentStatus = .error := by
    rw [Ft.setComm_comm, if_pos rfl]
  have hnew : c ∉ w.given := fun hmem => hc (h.given c hmem)
  refine { herr with
    collected := fun d hd => ?_
    given := fun d hd => ?_
    once := ?_
    round := fun d hd => ?_ }
  · rcases List.mem_append.1 hd with hd | hd
    · exact herr.collected d hd
    · exact List.mem_singleton.1 hd ▸ hself
  · rcases List.mem_append.1 hd with hd | hd
    · exact herr.given d hd
    · exact List.mem_singleton.1 hd ▸ hself
  · exact List.nodup_append.2 ⟨h.once, List.nodup_singleton c, fun d hd d' hd' heq =>
      hnew (List.mem_singleton.1 hd' ▸ heq ▸ hd)⟩
  · obtain ⟨b, hround⟩ := herr.round d hd
    exact ⟨b, hround.last, hround.time, hround.read, hround.value⟩

/-! ### A heartbeat is posted -/

/-- A request waits on one context, and the operations have contexts of their own. -/
theorem ContextInv.eq_of_waits {core : Core} (h : ContextInv core core.ops) {r : ReqId}
    {op op' : LfiPendingOp} (hop : op ∈ core.ops) (hop' : op' ∈ core.ops)
    (hr : core.contexts op.context = some r) (hr' : core.contexts op'.context = some r) :
    op = op' := by
  obtain ⟨q, hq, hw⟩ := h.sound op.context r hr
  have hw' := (h.contexts_iff hq op'.context).1 hr'
  exact List.inj_on_of_nodup_map h.opsNodup hop hop' (Option.some.inj (hw.symm.trans hw'))

/-- While its request is completed a communicator that is not cancelled has no heartbeat that is
queued or in flight. -/
theorem BeatInv.gone (h : BeatInv w) (hon : w.ep.core.onComm (.heartbeat c) = none)
    (hcan : (w.ep.ft.comm c).isCanceled = false) {op : LfiPendingOp} (hop : op ∈ w.ep.core.ops) :
    op.owner ≠ .heartbeat c := by
  intro howner
  have hctx := h.waited op hop c howner hcan
  rw [howner] at hctx
  exact h.contexts.not_pointed hon op.context hctx

/-- A round begins. -/
theorem BeatInv.beat (h : BeatInv w) (hc : (w.ep.ft.comm c).ftCurrentStatus = .idle)
    (hon : w.ep.core.onComm (.heartbeat c) = none) (hcan : (w.ep.ft.comm c).isCanceled = false)
    (hvalue : (w.ep.ft.comm c).ftValueHeartbeat ≠ hearbeatCode) {q : LfiRequest}
    (hq : w.ep.core.requests (.heartbeat c) = some q) (f : RequestFields) (o : OpFields)
    (beat : ℤ) :
    BeatInv { w with
      ep := ⟨postCore w.ep.core (.heartbeat c) f o true, markHeartbeat w.ep.ft c beat⟩
      beats := Function.update w.beats c (some ⟨w.ep.core.posts, beat⟩) } := by
  obtain ⟨hposts, -, hops⟩ := postCore_ops h.contexts (.heartbeat c) f o true
  rw [(reuses_reset hon).contexts] at hops
  have hinv : ContextInv (postCore w.ep.core (.heartbeat c) f o true)
      (postCore w.ep.core (.heartbeat c) f o true).ops := h.contexts.postCore hq f o true
  have hwaited : ∀ op ∈ (postCore w.ep.core (.heartbeat c) f o true).ops, ∀ d,
      op.owner = .heartbeat d → (w.ep.ft.comm d).isCanceled = false →
        (postCore w.ep.core (.heartbeat c) f o true).contexts op.context = some op.owner := by
    intro op hop d howner hd
    rcases hops op hop with ⟨hold, hctx⟩ | ⟨hnew, -, -, hctx⟩
    · rw [hctx]
      exact h.waited op hold d howner hd
    · rw [hctx, hnew]
  have hcomm : ∀ d, (markHeartbeat w.ep.ft c beat).comm d = if d = c then
      { w.ep.ft.comm c with ftCurrentStatus := .heartbeat, ftHeartbeatTimePoint := beat }
      else w.ep.ft.comm d := fun d => Ft.setComm_comm ..
  have hcanceled : ∀ d, ((markHeartbeat w.ep.ft c beat).comm d).isCanceled =
      (w.ep.ft.comm d).isCanceled := Ft.setComm_same (·.isCanceled) rfl
  have herror : ∀ d, (w.ep.ft.comm d).ftCurrentStatus = .error →
      ((markHeartbeat w.ep.ft c beat).comm d).ftCurrentStatus = .error := fun _ =>
    Ft.setComm_of (P := fun _ y => y.ftCurrentStatus = .error) fun hd => by
      rw [hc] at hd
      cases hd
  refine
    { contexts := hinv
      ids := h.ids.postCore hon f o true
      numbered := fun op hop => ?_
      landed := fun d p v hv => ?_
      waited := fun op hop d hd hdcan => hwaited op hop d hd ((hcanceled d).symm.trans hdcan)
      one := fun d op hop op' hop' hd hd' => ?_
      collected := fun d hd => herror d (h.collected d hd)
      given := fun d hd => herror d (h.given d hd)
      once := h.once
      round := fun d hd => ?_ }
  · show op.post < (postCore w.ep.core (.heartbeat c) f o true).posts
    rw [hposts]
    rcases hops op hop with ⟨hold, -⟩ | ⟨-, hnumber, -, -⟩
    · exact Nat.lt_succ_of_lt (h.numbered op hold)
    · rw [hnumber]
      exact Nat.lt_succ_self _
  · show p < (postCore w.ep.core (.heartbeat c) f o true).posts
    rw [hposts]
    exact Nat.lt_succ_of_lt (h.landed d p v hv)
  · by_cases hdc : d = c
    · subst hdc
      have hctx := hwaited op hop d hd hcan
      have hctx' := hwaited op' hop' d hd' hcan
      rw [hd] at hctx
      rw [hd'] at hctx'
      exact hinv.eq_of_waits hop hop' hctx hctx'
    · have hold : ∀ op ∈ (postCore w.ep.core (.heartbeat c) f o true).ops,
          op.owner = .heartbeat d → op ∈ w.ep.core.ops := by
        intro op hop howner
        rcases hops op hop with ⟨hold, -⟩ | ⟨hnew, -, -, -⟩
        · exact hold
        · exact absurd (ReqId.heartbeat.inj (howner.symm.trans hnew)) hdc
      exact h.one d op (hold op hop hd) op' (hold op' hop' hd') hd hd'
  · by_cases hdc : d = c
    · subst hdc
      refine ⟨⟨w.ep.core.posts, beat⟩, Function.update_self .., ?_, fun op hop howner => ?_, ?_⟩
      · rw [hcomm, if_pos rfl]
      · rcases hops op hop with ⟨hold, -⟩ | ⟨-, hnumber, -, -⟩
        · exact absurd howner (h.gone hon hcan hold)
        · exact hnumber
      · rw [hcomm, if_pos rfl]
        exact iff_of_false hvalue fun hv => Nat.lt_irrefl _ (h.landed d _ _ hv)
    · rw [hcomm, if_neg hdc] at hd
      obtain ⟨b, hround⟩ := h.round d hd
      refine ⟨b, (Function.update_of_ne hdc ..).trans hround.last, ?_, fun op hop howner => ?_, ?_⟩
      · rw [hcomm, if_neg hdc]
        exact hround.time
      · rcases hops op hop with ⟨hold, -⟩ | ⟨hnew, -, -, -⟩
        · exact hround.read op hold howner
        · exact absurd (ReqId.heartbeat.inj (howner.symm.trans hnew)) hdc
      · rw [hcomm, if_neg hdc]
        exact hround.value

/-- The request of the heartbeat is there, completed and reset, and the buffer is cleared. -/
theorem bypasses_reset (h : BeatInv w) (hc : (w.ep.ft.comm c).ftCurrentStatus ≠ .heartbeat)
    (hon : w.ep.core.onComm (.heartbeat c) = none) :
    Bypasses w.ep ⟨reset (ensureHeartbeat w.ep.core c) (.heartbeat c), clearValue w.ep.ft c⟩ ∧
      (reset (ensureHeartbeat w.ep.core c) (.heartbeat c)).posts = w.ep.core.posts ∧
      (reset (ensureHeartbeat w.ep.core c) (.heartbeat c)).onComm (.heartbeat c) = none ∧
      ∃ q, (reset (ensureHeartbeat w.ep.core c) (.heartbeat c)).requests (.heartbeat c) = some q ∧
        q.commId = c := by
  obtain ⟨hon', hids, -, q, hq, hqc⟩ := ensureHeartbeat_spec (c := c) h.ids
  have hens : ContextInv (ensureHeartbeat w.ep.core c) w.ep.core.ops ∧
      (ensureHeartbeat w.ep.core c).ops = w.ep.core.ops ∧
      (ensureHeartbeat w.ep.core c).contexts = w.ep.core.contexts ∧
      (ensureHeartbeat w.ep.core c).posts = w.ep.core.posts := by
    unfold ensureHeartbeat
    cases hnone : w.ep.core.requests (.heartbeat c) with
    | none => exact ⟨h.contexts.new hnone c, rfl, rfl, rfl⟩
    | some q => exact ⟨h.contexts, rfl, rfl, rfl⟩
  obtain ⟨hinv, hops, hctx, hposts⟩ := hens
  have hfree : (ensureHeartbeat w.ep.core c).onComm (.heartbeat c) = none := by
    rw [hon']
    exact hon
  have hreuse := reuses_reset hfree
  obtain ⟨requests, contexts, heq⟩ := reset_eq (ensureHeartbeat w.ep.core c) (.heartbeat c)
  have hsame : (reset (ensureHeartbeat w.ep.core c) (.heartbeat c)).ops = w.ep.core.ops := by
    rw [heq]
    exact hops
  obtain ⟨q', hq', hid⟩ : ∃ q', (reset (ensureHeartbeat w.ep.core c) (.heartbeat c)).requests
      (.heartbeat c) = some q' ∧ q'.commId = q.commId := by
    have hmap := (reset_onComm hfree).2
    rw [hq, Option.map_some, Option.map_eq_some_iff] at hmap
    exact hmap
  have hids' : HeartbeatIds (reset (ensureHeartbeat w.ep.core c) (.heartbeat c)) := by
    intro d p hp
    by_cases hdc : d = c
    · subst hdc
      rw [hq'] at hp
      rw [← Option.some.inj hp, hid, hqc]
    · rw [hreuse.others (.heartbeat d) fun heq => hdc (ReqId.heartbeat.inj heq)] at hp
      exact hids d p hp
  refine ⟨bypasses_of_ops h ?_ hids' (hreuse.posts.trans hposts)
    (by rw [hsame]; exact List.Subset.refl _) (hreuse.contexts.trans hctx) (fun d => ?_)
    (List.Subset.refl _), hreuse.posts.trans hposts, hreuse.completed, q', hq', hid.trans hqc⟩
  · show ContextInv _ (reset (ensureHeartbeat w.ep.core c) (.heartbeat c)).ops
    rw [hsame]
    exact hinv.reset _
  · refine Ft.setComm_same LfiComm.pulse ?_ d
    simp [LfiComm.pulse, hc]

/-! ### Calls of `process_comm` -/

/-- The `async_get` of `process_comm`. -/
def heartbeatGet (env : Env) (s : State) (c : CommId) : ℤ × State :=
  asyncGet env ⟨reset (ensureHeartbeat s.core c) (.heartbeat c), clearValue s.ft c⟩
    (.heartbeat c) 0 8 (s.ft.comm c).ftRemoteHeartbeatAddr (s.ft.comm c).ftRemoteHeartbeatKey true

theorem startHeartbeat_get (hon : s.core.onComm (.heartbeat c) = none)
    (hids : HeartbeatIds s.core) (beat : ℤ) :
    startHeartbeat env s c beat = if (heartbeatGet env s c).1 < 0 then
      { (heartbeatGet env s c).2 with ft := giveUp (heartbeatGet env s c).2.ft c }
    else { (heartbeatGet env s c).2 with
      ft := markHeartbeat (heartbeatGet env s c).2.ft c beat } := by
  have hfree : heartbeatFree (ensureHeartbeat s.core c) c = true := by
    rw [heartbeatFree_iff, (ensureHeartbeat_spec hids).1]
    exact hon
  unfold startHeartbeat
  dsimp only
  rw [if_pos hfree]
  rfl

/-- A call that posts no heartbeat and puts nobody in the list. -/
theorem Beating.process_of_quiet {now beat : ℤ} {ep : State}
    (h : processComm env now (fun _ => beat) w.ep c = ep) (hposts : ep.core.posts = w.ep.core.posts)
    (hcollected : ep.ft.ftCanceledComs = w.ep.ft.ftCanceledComs) :
    w.process env c now beat = { w with ep := ep } := by
  unfold Beating.process
  simp [h, hposts, hcollected]

/-- A call that puts the communicator in the list. -/
theorem Beating.process_of_giveUp {now beat : ℤ} {core : Core} {ft : Ft}
    (h : processComm env now (fun _ => beat) w.ep c = ⟨core, giveUp ft c⟩)
    (hposts : core.posts = w.ep.core.posts)
    (hcollected : ft.ftCanceledComs = w.ep.ft.ftCanceledComs) :
    w.process env c now beat =
      { w with ep := ⟨core, giveUp ft c⟩, given := w.given ++ [c] } := by
  unfold Beating.process
  simp [h, hposts, giveUp, Ft.setComm, hcollected]

/-- A call that posts a heartbeat. -/
theorem Beating.process_of_beat {now beat : ℤ} {core : Core} {ft : Ft} {f : RequestFields}
    {o : OpFields} (h : processComm env now (fun _ => beat) w.ep c =
      ⟨postCore core (.heartbeat c) f o true, markHeartbeat ft c beat⟩)
    (hposts : core.posts = w.ep.core.posts)
    (hcollected : ft.ftCanceledComs = w.ep.ft.ftCanceledComs) :
    w.process env c now beat = { w with
      ep := ⟨postCore core (.heartbeat c) f o true, markHeartbeat ft c beat⟩
      beats := Function.update w.beats c (some ⟨w.ep.core.posts, beat⟩) } := by
  unfold Beating.process
  simp [h, postCore_posts, hposts, markHeartbeat, Ft.setComm, hcollected]

/-- **What a call of `process_comm` does.**  It begins a round, ends one because of the answer,
puts the communicator in the list because the heartbeat could not be posted or is not answered
in time, or leaves heartbeats alone. -/
theorem process_cases (env : Env) (h : BeatInv w) (c : CommId) (now beat : ℤ) :
    (∃ ep, w.process env c now beat = { w with ep := ep } ∧ Bypasses w.ep ep ∧
      ((w.ep.ft.comm c).ftRequests.size ≠ 0 → (w.ep.ft.comm c).ftCurrentStatus = .heartbeat →
        ¬ Answered w.ep c → ¬ Overdue env (w.ep.ft.comm c) now)) ∨
    ((w.ep.ft.comm c).ftCurrentStatus = .idle ∧ ∃ u f o q, BeatInv { w with ep := u } ∧
      (∀ d, (u.ft.comm d).pulse = (w.ep.ft.comm d).pulse) ∧ u.core.posts = w.ep.core.posts ∧
      u.core.onComm (.heartbeat c) = none ∧ (u.ft.comm c).isCanceled = false ∧
      (u.ft.comm c).ftValueHeartbeat ≠ hearbeatCode ∧ u.core.requests (.heartbeat c) = some q ∧
      w.process env c now beat = { w with
        ep := ⟨postCore u.core (.heartbeat c) f o true, markHeartbeat u.ft c beat⟩
        beats := Function.update w.beats c (some ⟨w.ep.core.posts, beat⟩) }) ∨
    ((w.ep.ft.comm c).ftCurrentStatus = .heartbeat ∧ Answered w.ep c ∧
      w.process env c now beat = { w with ep := ⟨w.ep.core,
        w.ep.ft.setComm c { w.ep.ft.comm c with ftCurrentStatus := .idle }⟩ }) ∨
    ((w.ep.ft.comm c).ftCurrentStatus = .idle ∧ (heartbeatGet env w.ep c).1 < 0 ∧ ∃ core ft,
      Bypasses w.ep ⟨core, ft⟩ ∧
      w.process env c now beat =
        { w with ep := ⟨core, giveUp ft c⟩, given := w.given ++ [c] }) ∨
    ((w.ep.ft.comm c).ftRequests.size ≠ 0 ∧ (w.ep.ft.comm c).ftCurrentStatus = .heartbeat ∧
      ¬ Answered w.ep c ∧ Overdue env (w.ep.ft.comm c) now ∧
      w.process env c now beat =
        { w with ep := ⟨w.ep.core, giveUp w.ep.ft c⟩, given := w.given ++ [c] }) := by
  rcases processComm_cases env now (fun _ => beat) w.ep c with ⟨hsize, heq⟩ |
    ⟨-, hidle, -, heq⟩ | ⟨-, hbeat, hans, heq⟩ | ⟨hsize, hbeat, hans, hover, heq⟩ |
    ⟨-, -, hwait, heq⟩
  · exact .inl ⟨_, Beating.process_of_quiet heq rfl rfl,
      bypasses_ft h (fun _ => rfl) (List.Subset.refl _), fun hno => absurd hsize hno⟩
  · have hnot : (w.ep.ft.comm c).ftCurrentStatus ≠ .heartbeat := by
      rw [hidle]
      exact nofun
    by_cases hon : w.ep.core.onComm (.heartbeat c) = none
    case neg =>
      have hsame : processComm env now (fun _ => beat) w.ep c = w.ep := by
        rcases @startHeartbeat_cases env w.ep h.ids c beat with ⟨-, hkept⟩ | ⟨-, hfree, -⟩
        · exact heq.trans hkept
        · exact absurd hfree hon
      exact .inl ⟨_, Beating.process_of_quiet hsame rfl rfl,
        bypasses_ft h (fun _ => rfl) (List.Subset.refl _), fun _ hbeat => absurd hbeat hnot⟩
    case pos =>
      obtain ⟨hreset, hposts, hfree, q, hq, hqc⟩ := bypasses_reset h hnot hon
      rw [startHeartbeat_get hon h.ids] at heq
      have hget : heartbeatGet env w.ep c = asyncPost env
          ⟨reset (ensureHeartbeat w.ep.core c) (.heartbeat c), clearValue w.ep.ft c⟩ (.heartbeat c)
          (.get 0 8 (w.ep.ft.comm c).ftRemoteHeartbeatAddr
            (w.ep.ft.comm c).ftRemoteHeartbeatKey true) := rfl
      rcases asyncPost_spec env
          ⟨reset (ensureHeartbeat w.ep.core c) (.heartbeat c), clearValue w.ep.ft c⟩ (.heartbeat c)
          (.get 0 8 (w.ep.ft.comm c).ftRemoteHeartbeatAddr
            (w.ep.ft.comm c).ftRemoteHeartbeatKey true) with
        ⟨hneg, hkept⟩ | ⟨q', f, o, hq', -, hcan, -, -, -, hpost⟩
      · rw [← hget] at hneg hkept
        rw [if_pos hneg, hkept] at heq
        exact .inr (.inr (.inr (.inl ⟨hidle, hneg, _, _, hreset,
          Beating.process_of_giveUp heq hposts rfl⟩)))
      · have hfirst : BeatInv { w with ep := ⟨reset (ensureHeartbeat w.ep.core c) (.heartbeat c),
            clearValue w.ep.ft c⟩ } := h.bypasses hreset
        rw [← hget] at hpost
        rw [hpost, if_neg (by decide : ¬ lfiSuccess < 0)] at heq
        have hft : ∀ d, ((post env ⟨reset (ensureHeartbeat w.ep.core c) (.heartbeat c),
            clearValue w.ep.ft c⟩ (.heartbeat c) q'.commId f o true).ft.comm d).pulse =
              ((clearValue w.ep.ft c).comm d).pulse := fun d => post_pulse _ _ _ _ _ _ d
        have hcollected : (post env ⟨reset (ensureHeartbeat w.ep.core c) (.heartbeat c),
            clearValue w.ep.ft c⟩ (.heartbeat c) q'.commId f o true).ft.ftCanceledComs =
              w.ep.ft.ftCanceledComs := post_collected _ _ _ _ _ _
        refine .inr (.inl ⟨hidle, ⟨reset (ensureHeartbeat w.ep.core c) (.heartbeat c), _⟩, f, o, q,
          hfirst.bypasses (bypasses_ft hfirst hft
            (by rw [hcollected]; exact List.Subset.refl _)),
          fun d => (hft d).trans (hreset.pulse d), hposts, hfree, ?_, ?_, hq,
          Beating.process_of_beat heq hposts hcollected⟩)
        · rw [← Option.some.inj (hq.symm.trans hq'), hqc] at hcan
          exact (isCanceled_of_pulse (hft c)).trans hcan
        rw [post_comm]
        simp [clearValue, Ft.setComm_comm, hearbeatCode]
  · exact .inr (.inr (.inl ⟨hbeat, hans, Beating.process_of_quiet heq rfl rfl⟩))
  · exact .inr (.inr (.inr (.inr ⟨hsize, hbeat, hans, hover,
      Beating.process_of_giveUp heq rfl rfl⟩)))
  · exact .inl ⟨_, Beating.process_of_quiet heq rfl rfl,
      bypasses_ft h (fun _ => rfl) (List.Subset.refl _),
      fun _ hbeat _ => (hwait hbeat).2⟩

end Impl
end Lfi
