/-
# A freed request is out of reach

`lfi_request_free` deletes a request, and its memory may be anything from then on.  In
every run, whatever state the request was in when it was freed, none of the structures
of the endpoint holds a pointer to it, at once and for ever (`freed_unreachable`): a
later progress step, `one_loop` or `cancel_comm` neither reads nor writes its memory.

What carries the proof is that a structure holds a pointer to a request only while the
request is outstanding (`Accounts`).
-/

import Lfi.Impl.CrossTalk
import Lfi.Impl.PassIgnores

namespace Lfi
namespace Impl

open Runs

variable {env : Env} {s t : State} {r r' : ReqId} {c : CommId}

/-! ### Who holds a pointer -/

/-- An any-comm receive on the books is outstanding. -/
def AnysHeld (s : State) : Prop :=
  ∀ r ∈ s.ft.ftAnyCommRequests, ∃ c, s.core.onComm r = some c ∧ isAnyComm c = true

/-- **The books are right.**  The lists and sets of fault tolerance hold outstanding
requests only; with fault tolerance off they hold none. -/
structure Books (env : Env) (s : State) : Prop where
  heartbeatIds : HeartbeatIds s.core
  tracked : env.faultTolerance = true → Tracked s ∧ AnysHeld s
  off : env.faultTolerance = false → ∀ r, FtDetached s.ft r

/-- **Only outstanding requests are pointed to**, by contexts or by the books. -/
structure Accounts (env : Env) (s : State) : Prop where
  contexts : ContextInv s.core s.core.ops
  books : Books env s

theorem Tracked.ftDetached (h : Tracked s) (hanys : AnysHeld s)
    (hto : s.ft.ftRequestsToCancel = []) (hr : s.core.onComm r = none) : FtDetached s.ft r := by
  refine ⟨fun c hc => ?_, fun x => ?_, fun hmem => ?_, by simp [hto]⟩
  · obtain ⟨xs, hrep, hmem⟩ := h.rep c hc
    have hnot : r ∉ xs := fun hx => by
      rw [hmem, hr] at hx
      cases hx
    refine ⟨fun hhead => hnot ?_, fun htail => hnot ?_⟩
    · exact List.mem_of_mem_head? (hrep.head_eq ▸ hhead)
    · exact List.mem_of_getLast? (hrep.tail_eq ▸ htail)
  · -- a link leads from one outstanding request to another
    cases hx : s.core.onComm x with
    | none =>
        rw [h.free x hx]
        exact ⟨nofun, nofun⟩
    | some c =>
        obtain ⟨xs, hrep, hmem⟩ := h.rep c (h.there x c hx)
        obtain ⟨ys, zs, rfl⟩ := List.append_of_mem ((hmem x).2 hx)
        have hnot : r ∉ ys ++ x :: zs := fun hx => by
          rw [hmem, hr] at hx
          cases hx
        have hnode := (seg_append.1 hrep.seg).2.1
        simp only [List.mem_append, List.mem_cons, not_or] at hnot
        rw [hnode]
        refine ⟨fun hn => hnot.2.2 ?_, fun hp => hnot.1 ?_⟩
        · exact List.mem_of_mem_head? (by simpa using hn)
        · exact List.mem_of_getLast? (by simpa using hp)
  · obtain ⟨c, hc, -⟩ := hanys r hmem
    rw [hr] at hc
    cases hc

/-- **A request that is not outstanding is out of reach** of everything. -/
theorem Accounts.detached (h : Accounts env s) (hto : s.ft.ftRequestsToCancel = [])
    (hr : s.core.onComm r = none) : Detached s r := by
  refine detached_iff.2 ⟨h.contexts.not_pointed hr, ?_⟩
  cases hft : env.faultTolerance with
  | true =>
      obtain ⟨htracked, hanys⟩ := h.books.tracked hft
      exact htracked.ftDetached hanys hto hr
  | false => exact h.books.off hft r

theorem Fresh.accounts (h : Fresh s) : Accounts env s := by
  have hanys : AnysHeld s := fun r hr => by simp [h.anys] at hr
  exact ⟨h.contextInv, h.heartbeatIds, fun _ => ⟨h.tracked, hanys⟩, fun _ r =>
    h.tracked.ftDetached hanys h.toCancel (h.onComm r)⟩

/-! ### The books along a step -/

theorem AnysHeld.congr (h : AnysHeld s) (hon : t.core.onComm = s.core.onComm)
    (hanys : t.ft.ftAnyCommRequests = s.ft.ftAnyCommRequests) : AnysHeld t := fun r hr => by
  rw [hon]
  exact h r (hanys ▸ hr)

theorem AnysHeld.complete (h : AnysHeld s) (ht : Tracked s) (hft : env.faultTolerance = true)
    (r : ReqId) (err now : ℤ) : AnysHeld (complete env s r err now) := by
  cases hr : s.core.onComm r with
  | none => rw [complete_of_onComm_none hr]; exact h
  | some c =>
      obtain ⟨q, -, -, -, heq⟩ := @complete_of_onComm_some env _ _ _ err now hr
      intro r' hr'
      rw [heq, if_pos hft] at hr'
      dsimp only at hr'
      rw [onRequestComplete_anys (ht.there r c hr)] at hr'
      have hne : r' ≠ r := by
        rintro rfl
        split at hr'
        case isTrue => exact Finset.notMem_erase _ _ hr'
        case isFalse hany =>
          obtain ⟨d, hd, hdany⟩ := h r' hr'
          rw [hr] at hd
          exact hany (Option.some.inj hd ▸ hdany)
      rw [complete_onComm, Function.update_of_ne hne]
      refine h r' ?_
      split at hr'
      case isTrue => exact Finset.mem_of_mem_erase hr'
      case isFalse => exact hr'

/-- A change that concerns neither what is outstanding nor the books. -/
theorem Books.core (h : Books env s) {k : Core} (hon : k.onComm = s.core.onComm)
    (hids : HeartbeatIds k) : Books env ⟨k, s.ft⟩ :=
  ⟨hids, fun hft => ⟨(h.tracked hft).1.core hon, (h.tracked hft).2.congr hon rfl⟩, h.off⟩

/-- A communicator with the same list. -/
theorem Books.setComm (h : Books env s) (c : CommId) {x : LfiComm}
    (hx : x.ftRequests = (s.ft.comm c).ftRequests) : Books env ⟨s.core, s.ft.setComm c x⟩ :=
  ⟨h.heartbeatIds, fun hft => ⟨(h.tracked hft).1.setComm rfl hx, (h.tracked hft).2.congr rfl rfl⟩,
    fun hft r => (h.off hft r).setComm c hx⟩

/-- What a pass notes down, with fault tolerance on. -/
theorem Books.note (h : Books env s) (hft : env.faultTolerance = true) {f : Ft}
    (hids : f.commIds = s.ft.commIds) (hnodes : f.reqNodes = s.ft.reqNodes)
    (hlists : ∀ c, (f.comm c).ftRequests = (s.ft.comm c).ftRequests)
    (hanys : f.ftAnyCommRequests = s.ft.ftAnyCommRequests) : Books env ⟨s.core, f⟩ :=
  ⟨h.heartbeatIds, fun hft => ⟨(h.tracked hft).1.congr rfl hids hnodes hlists,
    (h.tracked hft).2.congr rfl hanys⟩, fun hoff => absurd (hft.symm.trans hoff) nofun⟩

/-- `complete`. -/
theorem Books.complete (h : Books env s) (r : ReqId) (err now : ℤ) :
    Books env (complete env s r err now) := by
  refine ⟨h.heartbeatIds.progress (complete_progressed r err now), fun hft => ?_, fun hft => ?_⟩
  · obtain ⟨htracked, hanys⟩ := h.tracked hft
    exact ⟨htracked.complete hft r err now, hanys.complete htracked hft r err now⟩
  · cases hr : s.core.onComm r with
    | none =>
        rw [complete_of_onComm_none hr]
        exact h.off hft
    | some c =>
        obtain ⟨q, -, -, -, heq⟩ := @complete_of_onComm_some env _ _ _ err now hr
        rw [heq, hft]
        exact h.off hft

/-- An event of the fabric. -/
theorem Books.fabricEvent (h : Books env s) (e : FabricEvent) :
    Books env (fabricEvent env s e) := by
  refine fabricEvent_induction (P := Books env)
    (fun s k hk _ hs => hs.core (Core.onComm_eq hk) (hs.heartbeatIds.progress (progressed_core hk)))
    (fun s r err now _ hs => hs.complete r err now) (fun s r len tag now hs => ?_)
    (fun s c value hs => hs.setComm c rfl) h e
  refine Books.complete (s := ⟨s.core.setRequest r _, s.ft⟩) (hs.core (received_onComm ..) ?_)
    r lfiSuccess now
  intro d q hq
  by_cases hd : ReqId.heartbeat d = r
  · subst hd
    simp only [Core.setRequest, Function.update_self, Option.map_eq_some_iff] at hq
    obtain ⟨p, hp, rfl⟩ := hq
    unfold LfiRequest.received
    split <;> exact hs.heartbeatIds d p hp
  · exact hs.heartbeatIds d q (by simpa [Core.setRequest, hd] using hq)

theorem Books.cancel (h : Books env s) (r : ReqId) (events : List FabricEvent) :
    Books env (cancel env s r events) :=
  cancel_induction (P := Books env)
    (fun _ _ hk _ hs => hs.core (Core.onComm_eq hk)
      (hs.heartbeatIds.progress (progressed_core hk)))
    (fun _ e hs => hs.fabricEvent e) (fun _ err now hs => hs.complete r err now) h events

theorem Books.requestFree (h : Books env s) (r : ReqId) (events : List FabricEvent) :
    Books env (requestFree env s r events) :=
  requestFree_induction (P := Books env) (fun _ hs => hs.cancel r events)
    (fun _ hr hs => hs.core (clear_onComm hr) (hs.heartbeatIds.progress (clear_progressed hr))) h

/-- A post. -/
theorem Books.post (h : Books env s) {q : LfiRequest} (hq : s.core.requests r = some q)
    (hc : q.commId ∈ s.ft.commIds) (hon : s.core.onComm r = none) (f : RequestFields)
    (o : OpFields) (priority : Bool) : Books env (post env s r q.commId f o priority) := by
  refine ⟨h.heartbeatIds.postCore hon f o priority, fun hft => ?_, fun hft => ?_⟩
  · obtain ⟨htracked, hanys⟩ := h.tracked hft
    refine ⟨htracked.post hft hq hc hon f o priority, fun r' hr' => ?_⟩
    have hmem : r' ∈ (registerRequest s.ft r q.commId).ftAnyCommRequests := by
      simpa only [Impl.post, hft, if_true] using hr'
    rw [registerRequest_anys] at hmem
    show ∃ c, (postCore s.core r f o priority).onComm r' = some c ∧ _
    rw [postCore_onComm hq hon]
    by_cases hr : r' = r
    · subst hr
      refine ⟨q.commId, Function.update_self .., ?_⟩
      by_contra hany
      rw [if_neg hany] at hmem
      obtain ⟨c, hc, -⟩ := hanys r' hmem
      rw [hon] at hc
      cases hc
    · rw [Function.update_of_ne hr]
      refine hanys r' ?_
      split at hmem
      case isTrue => exact (Finset.mem_insert.1 hmem).resolve_left hr
      case isFalse => exact hmem
  · show ∀ r', FtDetached (if env.faultTolerance then registerRequest s.ft r q.commId else s.ft) r'
    rw [hft]
    exact h.off hft

/-- A report changes no context. -/
theorem ContextInv.reportTo {ops : List LfiPendingOp} (h : ContextInv s.core ops) (r : ReqId)
    (c : CommId) : ContextInv (reportTo s r c).core ops := by
  refine h.congr (fun r' => ?_) rfl rfl rfl rfl
  by_cases hr : r' = r
  · subst hr
    simp [Impl.reportTo, Core.setRequest, Function.comp_def]
  · simp [Impl.reportTo, Core.setRequest, hr]

namespace Accounts

theorem fabricEvent (h : Accounts env s) (e : FabricEvent) : Accounts env (fabricEvent env s e) :=
  ⟨h.contexts.fabricEvent e, h.books.fabricEvent e⟩

theorem cancel (h : Accounts env s) (r : ReqId) (events : List FabricEvent) :
    Accounts env (cancel env s r events) :=
  ⟨h.contexts.cancel r events, h.books.cancel r events⟩

theorem requestFree (h : Accounts env s) (r : ReqId) (events : List FabricEvent) :
    Accounts env (requestFree env s r events) :=
  ⟨h.contexts.requestFree r events, h.books.requestFree r events⟩

/-- A post of a request that is completed. -/
theorem asyncPost (h : Accounts env s) (hon : s.core.onComm r = none) (call : PostCall) :
    Accounts env (asyncPost env s r call).2 := by
  rcases asyncPost_cases env s r call with ⟨-, heq⟩ | ⟨q, f, o, p, hq, hc, -, -, -, heq⟩ <;>
    rw [heq]
  · exact h
  · exact ⟨h.contexts.postCore hq f o p, h.books.post hq hc hon f o p⟩

theorem note (h : Accounts env s) (hft : env.faultTolerance = true) {f : Ft}
    (hids : f.commIds = s.ft.commIds) (hnodes : f.reqNodes = s.ft.reqNodes)
    (hlists : ∀ c, (f.comm c).ftRequests = (s.ft.comm c).ftRequests)
    (hanys : f.ftAnyCommRequests = s.ft.ftAnyCommRequests) : Accounts env ⟨s.core, f⟩ :=
  ⟨h.contexts, h.books.note hft hids hnodes hlists hanys⟩

theorem setComm (h : Accounts env s) (c : CommId) {x : LfiComm}
    (hx : x.ftRequests = (s.ft.comm c).ftRequests) : Accounts env ⟨s.core, s.ft.setComm c x⟩ :=
  ⟨h.contexts, h.books.setComm c hx⟩

/-- The communicator is given up. -/
theorem giveUp (h : Accounts env s) (hft : env.faultTolerance = true) (c : CommId) :
    Accounts env ⟨s.core, giveUp s.ft c⟩ :=
  (h.setComm c (x := { s.ft.comm c with ftCurrentStatus := .error }) rfl).note hft rfl rfl
    (fun _ => rfl) rfl

/-- `reset` of a request that is completed. -/
theorem reset (h : Accounts env s) (hon : s.core.onComm r = none) :
    Accounts env ⟨reset s.core r, s.ft⟩ := by
  obtain ⟨hsame, hid⟩ := reset_onComm hon
  obtain ⟨requests, contexts, heq⟩ := reset_eq s.core r
  have hops : (Impl.reset s.core r).ops = s.core.ops := by rw [heq]; rfl
  refine ⟨hops ▸ h.contexts.reset r, h.books.core hsame fun d q hq => ?_⟩
  by_cases hd : ReqId.heartbeat d = r
  · subst hd
    rw [hq, Option.map_some, eq_comm, Option.map_eq_some_iff] at hid
    obtain ⟨p, hp, hpq⟩ := hid
    exact hpq.symm.trans (h.books.heartbeatIds d p hp)
  · refine h.books.heartbeatIds d q ?_
    rw [← hq, Impl.reset]
    cases s.core.requests r with
    | none => rfl
    | some p =>
        obtain ⟨contexts, hun⟩ := unassign_eq s.core p.waitContext
        simp only [hun, Core.setRequest]
        exact (Function.update_of_ne hd ..).symm

/-- The heartbeat that a pass posts. -/
theorem startHeartbeat (h : Accounts env s) (hft : env.faultTolerance = true) (c : CommId)
    (beat : ℤ) : Accounts env (startHeartbeat env s c beat) := by
  obtain ⟨hon, hids, -⟩ := ensureHeartbeat_spec (c := c) h.books.heartbeatIds
  have hensure : Accounts env ⟨ensureHeartbeat s.core c, s.ft⟩ := by
    refine ⟨?_, h.books.core hon hids⟩
    unfold ensureHeartbeat
    cases hnone : s.core.requests (.heartbeat c) with
    | none => exact h.contexts.new hnone c
    | some p => exact h.contexts
  unfold Impl.startHeartbeat
  dsimp only
  split
  case isFalse => exact hensure
  case isTrue hfree =>
    have hfree' := heartbeatFree_iff.1 hfree
    have hready : Accounts env ⟨Impl.reset (ensureHeartbeat s.core c) (.heartbeat c),
        clearValue s.ft c⟩ := (hensure.reset hfree').setComm c rfl
    have hpost := hready.asyncPost (r := .heartbeat c)
      ((congrFun (reset_onComm hfree').1 _).trans hfree')
      (.get 0 8 (s.ft.comm c).ftRemoteHeartbeatAddr (s.ft.comm c).ftRemoteHeartbeatKey true)
    split
    case isTrue => exact hpost.giveUp hft c
    case isFalse => exact hpost.setComm c rfl

/-- `process_comm`. -/
theorem processComm (h : Accounts env s) (hft : env.faultTolerance = true) (now : ℤ)
    (beat : CommId → ℤ) (c : CommId) : Accounts env (processComm env now beat s c) := by
  rcases processComm_cases env now beat s c with ⟨-, heq⟩ | ⟨-, -, -, heq⟩ | ⟨-, -, -, heq⟩ |
    ⟨-, -, -, -, heq⟩ | ⟨-, -, -, heq⟩ <;> rw [heq]
  · exact h.note hft rfl rfl (fun _ => rfl) rfl
  · exact h.startHeartbeat hft c (beat c)
  · exact h.setComm c rfl
  · exact h.giveUp hft c
  · exact h

theorem cancelRequests (h : Accounts env s) (events : ReqId → List FabricEvent) (c : CommId)
    (fuel : ℕ) : Accounts env (cancelRequests env events c fuel s) := by
  induction fuel generalizing s with
  | zero => exact h
  | succ fuel ih =>
      unfold Impl.cancelRequests
      cases (s.ft.comm c).ftRequests.head with
      | none => exact h
      | some r => exact ih (h.cancel r (events r))

/-- `cancel_comm`. -/
theorem cancelComm (h : Accounts env s) (hft : env.faultTolerance = true)
    (events : ReqId → List FabricEvent) (c : CommId) :
    Accounts env (cancelComm env events s c) := by
  have hmark := h.setComm c (x := { s.ft.comm c with isCanceled := true }) rfl
  exact ((hmark.cancelRequests events c _).requestFree (.heartbeat c) []).note hft rfl rfl
    (fun _ => rfl) rfl

/-- `close_comm`, after which nothing is outstanding on the communicator. -/
theorem closeComm (h : Accounts env s) (events : ReqId → List FabricEvent) (c : CommId) :
    Accounts env (closeComm env events s c).2 := by
  by_cases hc : c ∈ s.ft.commIds
  case neg => rw [Impl.closeComm, if_neg hc]; exact h
  rw [Impl.closeComm, if_pos hc]
  cases hft : env.faultTolerance with
  | false =>
      simp only [Bool.false_eq_true, if_false]
      refine ⟨h.contexts, h.books.heartbeatIds, fun hon => ?_, fun _ r => ?_⟩
      · rw [hft] at hon
        cases hon
      · have hoff := h.books.off hft r
        exact ⟨fun d hd => hoff.lists d (Finset.mem_of_mem_erase hd), hoff.links, hoff.anys,
          hoff.toCancel⟩
  | true =>
      simp only [if_true]
      have hcancel := h.cancelComm hft events c
      obtain ⟨u, -, heq, hidle⟩ := cancelComm_eq env events s c
      have hnone := (hidle hft (h.books.tracked hft).1).2 hc
      obtain ⟨htracked, hanys⟩ := hcancel.books.tracked hft
      refine ⟨hcancel.contexts, hcancel.books.heartbeatIds, fun _ => ⟨⟨fun d hd =>
        htracked.rep d (Finset.mem_of_mem_erase hd), fun r d hr => ?_, htracked.free⟩, hanys⟩,
        fun hoff => absurd (hft.symm.trans hoff) nofun⟩
      refine Finset.mem_erase.2 ⟨?_, htracked.there r d hr⟩
      rintro rfl
      refine hnone r ?_
      have hcore : (Impl.cancelComm env events s d).core = u.core := by rw [heq]
      rw [← hcore]
      exact hr

/-- A report. -/
theorem reportTo (h : Accounts env s) (hft : env.faultTolerance = true) (r : ReqId) (c : CommId) :
    Accounts env (reportTo s r c) := by
  refine ⟨h.contexts.reportTo r c, h.books.heartbeatIds.reportTo r c, fun _ => ?_,
    fun hoff => absurd (hft.symm.trans hoff) nofun⟩
  obtain ⟨htracked, hanys⟩ := h.books.tracked hft
  refine ⟨htracked.congr (reportTo_onComm s r c) rfl rfl fun _ => rfl, fun r' hr' => ?_⟩
  rw [reportTo_onComm]
  exact hanys r' (Finset.mem_of_mem_erase hr')

/-- A pass. -/
theorem oneLoop (h : Accounts env s) (hft : env.faultTolerance = true) (input : PassInput) :
    Accounts env (oneLoop env input s) := by
  have hcount : ∀ n, Accounts env ⟨s.core, { s.ft with ftProgressCount := n }⟩ := fun n =>
    h.note hft rfl rfl (fun _ => rfl) rfl
  have hpass : ∀ s, Accounts env s → Accounts env (pass env input s) := fun s h =>
    pass_induction (P := Accounts env) (fun _ c h => h.processComm hft _ _ c)
      (fun _ c h => h.cancelComm hft _ c) (fun _ r c h => h.reportTo hft r c)
      (fun _ r h => h.cancel r _) (fun _ _ _ _ _ _ _ h => h.note hft rfl rfl (fun _ => rfl) rfl) h
  unfold Impl.oneLoop
  dsimp only
  split
  case isTrue => exact hcount _
  case isFalse =>
    split
    case isTrue => exact hcount 0
    case isFalse => exact hpass _ (hcount 0)

end Accounts

/-! ### Nothing stays to be cancelled -/

/-- `ft_requests_to_cancel` is empty. -/
def NoneToCancel (s : State) : Prop := s.ft.ftRequestsToCancel = []

theorem NoneToCancel.progress (h : NoneToCancel s) (hp : Progressed s t) : NoneToCancel t :=
  hp.ftRequestsToCancel.trans h

theorem NoneToCancel.asyncPost (h : NoneToCancel s) (r : ReqId) (call : PostCall) :
    NoneToCancel (asyncPost env s r call).2 := by
  rcases asyncPost_cases env s r call with ⟨-, heq⟩ | ⟨q, f, o, p, -, -, -, -, -, heq⟩ <;> rw [heq]
  · exact h
  · show (if env.faultTolerance then registerRequest s.ft r q.commId else s.ft).ftRequestsToCancel
      = []
    split
    case isFalse => exact h
    case isTrue =>
      unfold registerRequest
      dsimp only
      split
      case isTrue => exact h
      case isFalse => split <;> exact h

theorem NoneToCancel.processComm (h : NoneToCancel s) (now : ℤ) (beat : CommId → ℤ) (c : CommId) :
    NoneToCancel (processComm env now beat s c) := by
  rcases processComm_cases env now beat s c with ⟨-, heq⟩ | ⟨-, -, -, heq⟩ | ⟨-, -, -, heq⟩ |
    ⟨-, -, -, -, heq⟩ | ⟨-, -, -, heq⟩ <;> rw [heq]
  · exact h
  · unfold startHeartbeat
    dsimp only
    split
    case isFalse => exact h
    case isTrue =>
      have hpost := @NoneToCancel.asyncPost env
        ⟨reset (ensureHeartbeat s.core c) (.heartbeat c), clearValue s.ft c⟩ h (.heartbeat c)
        (.get 0 8 (s.ft.comm c).ftRemoteHeartbeatAddr (s.ft.comm c).ftRemoteHeartbeatKey true)
      split <;> exact hpost
  · exact h
  · exact h
  · exact h

theorem NoneToCancel.cancelComm (h : NoneToCancel s) (events : ReqId → List FabricEvent)
    (c : CommId) : NoneToCancel (cancelComm env events s c) := by
  obtain ⟨u, hprog, heq, -⟩ := cancelComm_eq env events s c
  have hu : NoneToCancel u := NoneToCancel.progress (s := markCanceled s c) h hprog
  rw [heq]
  exact hu

theorem NoneToCancel.pass (h : NoneToCancel s) (input : PassInput) :
    NoneToCancel (pass env input s) := by
  unfold Impl.pass
  dsimp only
  split
  case isTrue => exact rfl
  case isFalse =>
    have hproc : NoneToCancel (processComms env input
        ⟨s.core, { s.ft with ftLastProgress := input.now }⟩) := by
      unfold processComms
      split
      case isTrue =>
        exact List.foldlRecOn (motive := NoneToCancel) _ _ h fun _ h c _ => h.processComm _ _ c
      case isFalse =>
        exact walkFtComms_induction (P := NoneToCancel) (fun _ c h => h.processComm _ _ c) _ _ h
    refine List.foldlRecOn (motive := NoneToCancel) _ _ hproc fun s h c _ => ?_
    split
    case isTrue => exact h.cancelComm _ c
    case isFalse => exact h

theorem NoneToCancel.oneLoop (h : NoneToCancel s) (input : PassInput) :
    NoneToCancel (oneLoop env input s) := by
  unfold Impl.oneLoop
  dsimp only
  split
  case isTrue => exact h
  case isFalse =>
    split
    case isTrue => exact h
    case isFalse => exact NoneToCancel.pass (s := ⟨s.core, { s.ft with ftProgressCount := 0 }⟩) h _

/-! ### Runs -/

/-- What can happen to an endpoint, the end of a communicator included. -/
inductive LifeAction where
  | engine (a : EngineAction)
  | closeComm (c : CommId) (events : ReqId → List FabricEvent)

/-- One action. -/
def lifeStep (env : Env) (s : State) : LifeAction → Option State
  | .engine a => engineStep env s a
  | .closeComm c events => some (closeComm env events s c).2

/-- Every action keeps the books. -/
theorem lifeStep_accounts (h : Accounts env s) (hto : NoneToCancel s) {a : LifeAction}
    (ht : lifeStep env s a = some t) : Accounts env t ∧ NoneToCancel t := by
  cases a with
  | closeComm c events =>
      obtain rfl := Option.some.inj ht
      refine ⟨h.closeComm events c, ?_⟩
      unfold closeComm
      split
      case isFalse => exact hto
      case isTrue =>
        dsimp only
        split
        case isTrue => exact hto.cancelComm events c
        case isFalse => exact hto
  | engine a =>
      cases a with
      | post k call =>
          simp only [lifeStep, engineStep] at ht
          split at ht
          case isFalse => cases ht
          case isTrue hon =>
            obtain rfl := Option.some.inj ht
            exact ⟨h.asyncPost hon call, hto.asyncPost _ call⟩
      | fabric e =>
          obtain rfl := Option.some.inj ht
          exact ⟨h.fabricEvent e, hto.progress (fabricEvent_progressed e)⟩
      | cancel k events =>
          obtain rfl := Option.some.inj ht
          exact ⟨h.cancel _ events, hto.progress (cancel_progressed _ events)⟩
      | free k events =>
          obtain rfl := Option.some.inj ht
          exact ⟨h.requestFree _ events, hto.progress (requestFree_progressed _ events)⟩
      | oneLoop input =>
          simp only [lifeStep, engineStep] at ht
          split at ht
          case isFalse => cases ht
          case isTrue hft =>
            obtain rfl := Option.some.inj ht
            exact ⟨h.oneLoop hft.1 input, hto.oneLoop input⟩

/-- The user's request `k` is gone. -/
def Gone (k : ℕ) (s : State) : Prop := s.core.requests (.user k) = none

theorem Gone.progress {k : ℕ} (h : Gone k s) (hp : Progressed s t) : Gone k t := by
  cases hq : t.core.requests (.user k) with
  | none => exact hq
  | some q =>
      obtain ⟨p, hp, -⟩ := hp.commId _ q hq
      exact nomatch h.symm.trans hp

theorem asyncPost_requests_of_ne {r' : ReqId} (hne : r' ≠ r) (call : PostCall) :
    (asyncPost env s r call).2.core.requests r' = s.core.requests r' := by
  rcases asyncPost_cases env s r call with ⟨-, heq⟩ | ⟨q, f, o, p, -, -, -, -, -, heq⟩ <;> rw [heq]
  exact postCore_requests_of_ne hne f o p

theorem Gone.asyncPost {k : ℕ} (h : Gone k s) (r : ReqId) (call : PostCall) :
    Gone k (asyncPost env s r call).2 := by
  by_cases hne : ReqId.user k = r
  · subst hne
    rcases asyncPost_cases env s (.user k) call with ⟨-, heq⟩ |
      ⟨q, f, o, p, hq, -, -, -, -, heq⟩
    · rw [heq]; exact h
    · exact nomatch hq.symm.trans h
  · exact (asyncPost_requests_of_ne hne call).trans h

/-- `process_comm` leaves the requests of the user alone. -/
theorem processComm_user (now : ℤ) (beat : CommId → ℤ) (s : State) (c : CommId) (k : ℕ) :
    (processComm env now beat s c).core.requests (.user k) = s.core.requests (.user k) := by
  rcases processComm_cases env now beat s c with ⟨-, heq⟩ | ⟨-, -, -, heq⟩ | ⟨-, -, -, heq⟩ |
    ⟨-, -, -, -, heq⟩ | ⟨-, -, -, heq⟩ <;> rw [heq]
  case inr.inl =>
    have hne : ReqId.user k ≠ .heartbeat c := nofun
    have hens : (ensureHeartbeat s.core c).requests (.user k) = s.core.requests (.user k) := by
      unfold ensureHeartbeat
      cases s.core.requests (.heartbeat c) with
      | none => exact Function.update_of_ne hne (some (LfiRequest.new c)) s.core.requests
      | some p => rfl
    unfold startHeartbeat
    dsimp only
    split
    case isFalse => exact hens
    case isTrue =>
      have hreset : (reset (ensureHeartbeat s.core c) (.heartbeat c)).requests (.user k) =
          s.core.requests (.user k) := by
        unfold reset
        cases (ensureHeartbeat s.core c).requests (.heartbeat c) with
        | none => exact hens
        | some p =>
            obtain ⟨contexts, hun⟩ := unassign_eq (ensureHeartbeat s.core c) p.waitContext
            simp only [hun, Core.setRequest]
            exact (Function.update_of_ne hne ..).trans hens
      have hpost := @asyncPost_requests_of_ne env
        ⟨reset (ensureHeartbeat s.core c) (.heartbeat c), clearValue s.ft c⟩ _ _ hne
        (.get 0 8 (s.ft.comm c).ftRemoteHeartbeatAddr (s.ft.comm c).ftRemoteHeartbeatKey true)
      split <;> exact hpost.trans hreset

theorem Gone.processComm {k : ℕ} (h : Gone k s) (now : ℤ) (beat : CommId → ℤ) (c : CommId) :
    Gone k (processComm env now beat s c) :=
  (processComm_user now beat s c k).trans h

theorem Gone.cancelComm {k : ℕ} (h : Gone k s) (events : ReqId → List FabricEvent) (c : CommId) :
    Gone k (cancelComm env events s c) := by
  obtain ⟨u, hprog, heq, -⟩ := cancelComm_eq env events s c
  have hu : Gone k u := Gone.progress (s := markCanceled s c) h hprog
  rw [heq]
  exact hu

theorem Gone.reportTo {k : ℕ} (h : Gone k s) (r : ReqId) (c : CommId) :
    Gone k (reportTo s r c) := by
  by_cases hr : ReqId.user k = r
  · subst hr
    simp only [Gone, Impl.reportTo, Core.setRequest, Function.update_self]
    rw [show s.core.requests (.user k) = none from h]
    rfl
  · exact (Function.update_of_ne hr ..).trans h

/-- A request that is gone stays gone. -/
theorem lifeStep_gone {k : ℕ} (h : Gone k s) {a : LifeAction} (ht : lifeStep env s a = some t) :
    Gone k t := by
  cases a with
  | closeComm c events =>
      obtain rfl := Option.some.inj ht
      unfold closeComm
      split
      case isFalse => exact h
      case isTrue =>
        dsimp only
        split
        case isTrue => exact h.cancelComm events c
        case isFalse => exact h
  | engine a =>
      cases a with
      | post k call =>
          simp only [lifeStep, engineStep] at ht
          split at ht
          case isFalse => cases ht
          case isTrue =>
            obtain rfl := Option.some.inj ht
            exact h.asyncPost _ call
      | fabric e =>
          obtain rfl := Option.some.inj ht
          exact h.progress (fabricEvent_progressed e)
      | cancel k events =>
          obtain rfl := Option.some.inj ht
          exact h.progress (cancel_progressed _ events)
      | free k events =>
          obtain rfl := Option.some.inj ht
          exact h.progress (requestFree_progressed _ events)
      | oneLoop input =>
          simp only [lifeStep, engineStep] at ht
          split at ht
          case isFalse => cases ht
          case isTrue =>
            obtain rfl := Option.some.inj ht
            exact oneLoop_induction (P := Gone k) (fun _ c h => h.processComm _ _ c)
              (fun _ c h => h.cancelComm _ c) (fun _ r c h => h.reportTo r c)
              (fun _ r h => h.progress (cancel_progressed r _)) (fun _ _ _ _ _ _ _ h => h) h

theorem requestFree_gone (env : Env) (s : State) (k : ℕ) (events : List FabricEvent) :
    Gone k (requestFree env s (.user k) events) := by
  unfold requestFree freeWith Gone
  cases hq : s.core.requests (.user k) with
  | none => exact hq
  | some q => exact Function.update_self ..

/-- **A freed request is out of reach.**  Take a reachable state and free a request in it,
whatever state the request is in.  Then and in every state later on no structure holds a
pointer to it, no list leads to it, and no progress step, `one_loop` or `cancel_comm` reads
or writes its memory. -/
theorem freed_unreachable (env : Env) (s t : State) (h : Reachable (lifeStep env) Fresh s) (k : ℕ)
    (events : List FabricEvent) (as : List LifeAction)
    (ht : exec (lifeStep env) (requestFree env s (.user k) events) as = some t) :
    Detached t (.user k) ∧
      (∀ op ∈ t.core.ops, t.core.contexts op.context ≠ some (.user k)) ∧
      (∀ c ∈ t.ft.commIds, ∀ xs, Rep t.ft.reqNodes (t.ft.comm c).ftRequests xs →
        ReqId.user k ∉ xs) ∧
      (∀ events, IgnoresAt (progress env events) t (.user k)) ∧
      (∀ input, IgnoresAt (oneLoop env input) t (.user k)) ∧
      ∀ c ∈ t.ft.commIds, ∀ events, IgnoresAt (fun t => cancelComm env events t c) t (.user k) := by
  have hs : Accounts env s ∧ NoneToCancel s :=
    h.invariant (P := fun s => Accounts env s ∧ NoneToCancel s)
      (fun _ hs => ⟨hs.accounts, hs.toCancel⟩) fun _ _ _ hs ht => lifeStep_accounts hs.1 hs.2 ht
  have hfree := requestFree_gone env s k events
  obtain ⟨⟨haccounts, hto⟩, hgone⟩ : (Accounts env t ∧ NoneToCancel t) ∧ Gone k t :=
    exec_invariant (P := fun s => (Accounts env s ∧ NoneToCancel s) ∧ Gone k s)
      (fun _ _ _ hs ht => ⟨lifeStep_accounts hs.1.1 hs.1.2 ht, lifeStep_gone hs.2 ht⟩)
      ⟨⟨hs.1.requestFree _ events, hs.2.progress (requestFree_progressed _ events)⟩, hfree⟩ ht
  have hdet : Detached t (.user k) := haccounts.detached hto (by
    unfold Core.onComm
    rw [show t.core.requests (.user k) = none from hgone])
  have hr : ∀ c, ReqId.heartbeat c ≠ .user k := nofun
  exact ⟨hdet, fun op _ => hdet.contexts _, fun c hc xs hxs => hdet.not_mem hc hxs,
    fun events => progress_ignores hdet events, fun input => oneLoop_ignores hr hdet input,
    fun c hc events => cancelComm_ignores hdet (hr c) hc events⟩

/-- Receives from anybody and from the peer; the fabric has both. -/
def twoReceives : List LifeAction :=
  [.engine (.post 0 (.recv 7 8 1 false false)), .engine (.post 1 (.recv 9 8 1 false false)),
    .engine (.fabric (.postPendingOps [0, 0] 0))]

/-- The state after `twoReceives`. -/
def twoPosted : State :=
  (exec (lifeStep Env.default)
    (freshState {0, anyCommPeer} (fun k => if k = 0 then anyCommPeer else 0) 99)
    twoReceives).get (by decide)

/-- The entry for the freed request comes late, the peer's communicator is closed and a pass
is due. -/
def afterwards : List LifeAction :=
  [.engine (.fabric (.success 0 8 1 5)), .closeComm 0 (fun _ => []),
    .engine (.oneLoop ⟨5000000000, fun _ => 5000000000, [0, anyCommPeer], [.user 0], [],
      fun _ => []⟩)]

theorem freed_unreachable_receiving :
    Detached ((exec (lifeStep Env.default) (requestFree Env.default twoPosted (.user 0) [])
      afterwards).get (by decide +kernel)) (.user 0) :=
  have hreach : Reachable (lifeStep Env.default) Fresh twoPosted :=
    ⟨_, twoReceives, fresh_freshState .., (Option.some_get _).symm⟩
  (freed_unreachable Env.default twoPosted _ hreach 0 [] afterwards (Option.some_get _).symm).1

end Impl
end Lfi
