/-
# What every reachable endpoint satisfies

`EngineInv` collects what the passes rely on: the lists of outstanding requests are
right, `ft_any_comm_requests` has exactly the outstanding any-comm requests, an idle
communicator is not cancelled and has no heartbeat under way, links are sound, and a
communicator that a pass gave up stays given up.  It holds inside a pass too, so the
any-comm requests a pass has reported and not yet cancelled (`ft_requests_to_cancel`)
are excepted where that matters.

This file shows that progress steps, posts, `process_comm` and `cancel_comm` keep it.
-/

import Lfi.Impl.Engine
import Lfi.Impl.Links

namespace Lfi
namespace Impl

variable {env : Env} {s t : State} {c : CommId} {r : ReqId}

/-! ### Any-comm requests -/

/-- `ft_any_comm_requests` has the outstanding requests on an any-comm that were not
reported yet; those are no injects and carry no error. -/
structure Anys (s : State) : Prop where
  mem : ∀ r, r ∈ s.ft.ftAnyCommRequests ↔
    (∃ c, s.core.onComm r = some c ∧ isAnyComm c = true) ∧ r ∉ s.ft.ftRequestsToCancel
  plain : ∀ r q, s.core.requests r = some q → q.isCompleted = false →
    isAnyComm q.commId = true → q.opType ≠ .inject ∧ (q.error = 0 ∨ r ∈ s.ft.ftRequestsToCancel)

namespace Anys

/-- A change that keeps these fields of the requests. -/
theorem congr (h : Anys s) (hreq : ∀ r, (t.core.requests r).map
      (fun q => (q.isCompleted, q.commId, q.opType, q.error)) =
      (s.core.requests r).map fun q => (q.isCompleted, q.commId, q.opType, q.error))
    (hany : t.ft.ftAnyCommRequests = s.ft.ftAnyCommRequests)
    (hto : t.ft.ftRequestsToCancel = s.ft.ftRequestsToCancel) : Anys t := by
  have hfields : ∀ r q, t.core.requests r = some q → ∃ p, s.core.requests r = some p ∧
      p.isCompleted = q.isCompleted ∧ p.commId = q.commId ∧ p.opType = q.opType ∧
        p.error = q.error := fun r q hq => by
    have := hreq r
    rw [hq, Option.map_some, eq_comm, Option.map_eq_some_iff] at this
    obtain ⟨p, hp, heq⟩ := this
    simp only [Prod.mk.injEq] at heq
    exact ⟨p, hp, heq⟩
  have hon : t.core.onComm = s.core.onComm := by
    funext r
    have := hreq r
    unfold Core.onComm
    cases hs : s.core.requests r <;> cases ht : t.core.requests r <;> simp_all
  refine ⟨fun r => by rw [hany, hon, hto]; exact h.mem r, fun r q hq hc hany' => ?_⟩
  obtain ⟨p, hp, hpc, hpi, hpo, hpe⟩ := hfields r q hq
  rw [hto, ← hpo, ← hpe]
  exact h.plain r p hp (hpc.trans hc) (hpi.symm ▸ hany')

theorem core {k : Core} (h : Anys s) (hk : k.requests = s.core.requests) :
    Anys { s with core := k } :=
  h.congr (fun r => by rw [show ({ s with core := k } : State).core = k from rfl, hk]) rfl rfl

/-- `complete`. -/
theorem complete (h : Anys s) (ht : Tracked s) (hft : env.faultTolerance = true) (r : ReqId)
    (err now : ℤ) : Anys (complete env s r err now) := by
  cases hr : s.core.onComm r with
  | none => rw [complete_of_onComm_none hr]; exact h
  | some c =>
      have hon := @complete_onComm env s r err now
      obtain ⟨q, hq, -, -, heq⟩ := @complete_of_onComm_some env _ _ _ err now hr
      have hto := (@complete_progressed env s r err now).ftRequestsToCancel
      have hany : (Impl.complete env s r err now).ft.ftAnyCommRequests =
          if isAnyComm c = true then s.ft.ftAnyCommRequests.erase r
          else s.ft.ftAnyCommRequests := by
        rw [heq, if_pos hft]
        exact onRequestComplete_anys (Tracks.there ht r c hr) ..
      refine ⟨fun r' => ?_, fun r' q' hq' hc hany' => ?_⟩
      · rw [hto, hon, hany]
        by_cases hrr : r' = r
        · subst hrr
          have hnot : isAnyComm c = false → r' ∉ s.ft.ftAnyCommRequests := fun hc hmem => by
            obtain ⟨d, hd, hd'⟩ := ((h.mem r').1 hmem).1
            rw [hr] at hd
            rw [← Option.some.inj hd, hc] at hd'
            cases hd'
          cases hc : isAnyComm c with
          | true => simp
          | false => simp [hnot hc]
        · rw [Function.update_of_ne hrr, ← h.mem r']
          split
          case isTrue => simp [hrr]
          case isFalse => rfl
      · rw [hto]
        by_cases hrr : r' = r
        · subst hrr
          have : (Impl.complete env s r' err now).core.onComm r' = none := by rw [hon]; simp
          simp [Core.onComm, hq', hc] at this
        · rw [complete_requests_of_ne (Ne.symm hrr)] at hq'
          exact h.plain r' q' hq' hc hany'

/-- An event of the fabric. -/
theorem fabricEvent (h : Anys s) (ht : Tracked s) (hft : env.faultTolerance = true)
    (e : FabricEvent) : Anys (fabricEvent env s e) := by
  refine (fabricEvent_induction (P := fun s => Anys s ∧ Tracked s)
    (fun s k hk _ hs => ⟨hs.1.core hk, hs.2.core (Core.onComm_eq hk)⟩)
    (fun s r err now _ hs => ⟨hs.1.complete hs.2 hft r err now, hs.2.complete hft r err now⟩)
    (fun s r len tag now hs => ⟨?_, hs.2.receive hft r len tag now⟩)
    (fun s c value hs => ⟨hs.1.congr (fun _ => rfl) rfl rfl, ?_⟩) ⟨h, ht⟩ e).1
  · have hset : Anys ⟨s.core.setRequest r ((s.core.requests r).map fun q => q.received len tag),
        s.ft⟩ := by
      refine hs.1.congr (fun r' => ?_) rfl rfl
      have hq : ∀ q : LfiRequest, ((q.received len tag).isCompleted, (q.received len tag).commId,
          (q.received len tag).opType, (q.received len tag).error) =
          (q.isCompleted, q.commId, q.opType, q.error) := fun q => by
        unfold LfiRequest.received LfiRequest.isCompleted
        split <;> rfl
      by_cases hrr : r' = r
      · subst hrr
        simp only [Core.setRequest, Function.update_self, Option.map_map]
        cases s.core.requests r' <;> simp [hq]
      · simp [Core.setRequest, hrr]
    exact hset.complete (hs.2.core (received_onComm ..)) hft r lfiSuccess now
  · exact hs.2.setComm rfl rfl

theorem cancel (h : Anys s) (ht : Tracked s) (hft : env.faultTolerance = true) (r : ReqId)
    (events : List FabricEvent) : Anys (cancel env s r events) :=
  (cancel_induction (P := fun s => Anys s ∧ Tracked s)
    (fun _ _ hk _ hs => ⟨hs.1.core hk, hs.2.core (Core.onComm_eq hk)⟩)
    (fun _ e hs => ⟨hs.1.fabricEvent hs.2 hft e, hs.2.fabricEvent hft e⟩)
    (fun _ err now hs => ⟨hs.1.complete hs.2 hft r err now, hs.2.complete hft r err now⟩)
    ⟨h, ht⟩ events).1

theorem requestFree (h : Anys s) (ht : Tracked s) (hft : env.faultTolerance = true) (r : ReqId)
    (events : List FabricEvent) : Anys (requestFree env s r events) := by
  refine (requestFree_induction (P := fun s => Anys s ∧ Tracked s)
    (fun _ hs => ⟨hs.1.cancel hs.2 hft r events, hs.2.cancel hft r events⟩)
    (fun s hr hs => ⟨⟨fun r' => ?_, fun r' q hq => ?_⟩, hs.2.core (clear_onComm hr)⟩) ⟨h, ht⟩).1
  · rw [clear_onComm hr]
    exact hs.1.mem r'
  · by_cases hrr : r' = r
    · simp [Core.setRequest, hrr] at hq
    · exact hs.1.plain r' q (by simpa [Core.setRequest, hrr] using hq)

/-- A posted request joins the any-comm requests if it is on an any-comm. -/
theorem post (h : Anys s) {q : LfiRequest} (hr : s.core.requests r = some q)
    (hon : s.core.onComm r = none) (hft : env.faultTolerance = true)
    (hto : r ∉ s.ft.ftRequestsToCancel) {f : RequestFields}
    (hf : isAnyComm q.commId = true → f.opType ≠ .inject) (o : OpFields) (priority : Bool) :
    Anys (post env s r q.commId f o priority) := by
  have hmem : ∀ r', r' ∈ (Impl.post env s r q.commId f o priority).ft.ftAnyCommRequests ↔
      (isAnyComm q.commId = true ∧ r' = r) ∨ r' ∈ s.ft.ftAnyCommRequests := by
    intro r'
    simp only [Impl.post, if_pos hft, registerRequest_anys]
    by_cases hc : isAnyComm q.commId = true <;> simp [hc]
  have htc : (Impl.post env s r q.commId f o priority).ft.ftRequestsToCancel =
      s.ft.ftRequestsToCancel := by
    show (Impl.post env s r q.commId f o priority).ft.fixed.ftRequestsToCancel = _
    simp only [Impl.post, if_pos hft, registerRequest_fixed]
    split <;> rfl
  refine ⟨fun r' => ?_, fun r' q' hq' hc hany => ?_⟩
  · rw [hmem, htc, show (Impl.post env s r q.commId f o priority).core.onComm = _ from
      postCore_onComm hr hon f o priority]
    by_cases hrr : r' = r
    · subst hrr
      have hnot : r' ∉ s.ft.ftAnyCommRequests := fun hmem => by
        obtain ⟨d, hd, -⟩ := ((h.mem r').1 hmem).1
        rw [hon] at hd; cases hd
      simp [hnot, hto]
    · rw [Function.update_of_ne hrr, ← h.mem r']
      simp [hrr]
  · rw [htc]
    by_cases hrr : r' = r
    · subst hrr
      obtain ⟨ctx, hpost⟩ := postCore_request hr f o priority
      obtain rfl := Option.some.inj (hpost.symm.trans hq')
      exact ⟨hf hany, .inl rfl⟩
    · exact h.plain r' q' ((postCore_requests_of_ne hrr f o priority).symm.trans hq') hc hany

end Anys

/-! ### The invariant -/

/-- **The invariant of an endpoint**, in and between its passes. -/
structure EngineInv (s : State) : Prop where
  tracked : Tracked s
  heartbeatIds : HeartbeatIds s.core
  anys : Anys s
  canceled : ∀ c, (s.ft.comm c).isCanceled = true → (s.ft.comm c).ftCurrentStatus = .error
  idle : ∀ c, (s.ft.comm c).ftCurrentStatus = .idle → s.core.onComm (.heartbeat c) = none
  anyOpen : ∀ c, isAnyComm c = true → (s.ft.comm c).isCanceled = false
  links : Linked s.ft.commNodes s.ft.ftComms
  members : ∀ c, (s.ft.commNodes c).inserted = true → c ∈ s.ft.commIds ∧ isAnyComm c = false
  gaveUp : ∀ c ∈ s.ft.failed, (s.ft.comm c).ftCurrentStatus = .error

/-- A fresh endpoint. -/
theorem Fresh.engineInv (h : Fresh s) : EngineInv s where
  tracked := h.tracked
  heartbeatIds := h.heartbeatIds
  anys := by
    refine ⟨fun r => by simp [h.anys, h.onComm], fun r q hq hc _ => ?_⟩
    have := h.onComm r
    simp [Core.onComm, hq, hc] at this
  canceled c hc := by rw [h.notCanceled] at hc; cases hc
  idle c _ := h.onComm _
  anyOpen c _ := h.notCanceled c
  links := by
    refine ⟨fun c _ => h.commNodes c, fun c d hd => ?_, fun c d hd => ?_, fun c hc => ?_,
      fun c hc => ?_, fun _ => 0, fun c d hd => ?_⟩
    · rw [h.commNodes] at hd; cases hd
    · rw [h.commNodes] at hd; cases hd
    · rw [h.ftComms] at hc; cases hc
    · rw [h.ftComms] at hc; cases hc
    · rw [h.commNodes] at hd; cases hd
  members c hc := by rw [h.commNodes] at hc; cases hc
  gaveUp c hc := by rw [h.failed] at hc; cases hc

namespace EngineInv

/-- A progress step. -/
theorem progressed (h : EngineInv s) (hp : Progressed s t) (ht : Tracked t) (ha : Anys t) :
    EngineInv t where
  tracked := ht
  heartbeatIds := h.heartbeatIds.progress hp
  anys := ha
  canceled c hc := by
    rw [hp.isCanceled] at hc
    rw [hp.ftCurrentStatus]
    exact h.canceled c hc
  idle c hc := by
    rw [hp.ftCurrentStatus] at hc
    rcases hp.onComm (.heartbeat c) with h' | h'
    · rw [h', h.idle c hc]
    · exact h'
  anyOpen c hc := by rw [hp.isCanceled]; exact h.anyOpen c hc
  links := by rw [hp.commNodes, hp.ftComms]; exact h.links
  members c hc := by
    rw [hp.commNodes] at hc
    rw [hp.commIds]
    exact h.members c hc
  gaveUp c hc := by
    rw [hp.failed] at hc
    rw [hp.ftCurrentStatus]
    exact h.gaveUp c hc

theorem fabricEvent (h : EngineInv s) (hft : env.faultTolerance = true) (e : FabricEvent) :
    EngineInv (fabricEvent env s e) :=
  h.progressed (fabricEvent_progressed e) (h.tracked.fabricEvent hft e)
    (h.anys.fabricEvent h.tracked hft e)

theorem cancel (h : EngineInv s) (hft : env.faultTolerance = true) (r : ReqId)
    (events : List FabricEvent) : EngineInv (cancel env s r events) :=
  h.progressed (cancel_progressed r events) (h.tracked.cancel hft r events)
    (h.anys.cancel h.tracked hft r events)

theorem requestFree (h : EngineInv s) (hft : env.faultTolerance = true) (r : ReqId)
    (events : List FabricEvent) : EngineInv (requestFree env s r events) :=
  h.progressed (requestFree_progressed r events) (h.tracked.requestFree hft r events)
    (h.anys.requestFree h.tracked hft r events)

/-- What a pass notes down between its steps. -/
theorem note (h : EngineInv s) (pending : Finset CommId) (canceled : List CommId) (last : ℤ)
    (count : ℕ) : EngineInv ⟨s.core, { s.ft with
      ftPendingFailedComms := pending
      ftCanceledComs := canceled
      ftLastProgress := last
      ftProgressCount := count }⟩ :=
  { h with
    tracked := h.tracked.congr rfl rfl rfl fun _ => rfl
    anys := h.anys.congr (fun _ => rfl) rfl rfl }

/-- Replacing a communicator by one with the same requests and the same mark, whose
status leaves `ERROR` as it was and is `IDLE` only without a heartbeat under way. -/
theorem setComm (h : EngineInv s) {x : LfiComm} (hx : x.ftRequests = (s.ft.comm c).ftRequests)
    (hcan : x.isCanceled = (s.ft.comm c).isCanceled)
    (hidle : x.ftCurrentStatus = .idle → s.core.onComm (.heartbeat c) = none)
    (herror : (s.ft.comm c).ftCurrentStatus = .error → x.ftCurrentStatus = .error) :
    EngineInv ⟨s.core, s.ft.setComm c x⟩ where
  canceled d hd := by
    dsimp only at hd ⊢
    rw [Ft.setComm_same (·.isCanceled) hcan] at hd
    exact Ft.setComm_of (P := fun _ y => y.ftCurrentStatus = .error) herror (h.canceled d hd)
  tracked := h.tracked.setComm rfl hx
  heartbeatIds := h.heartbeatIds
  anys := h.anys.congr (fun _ => rfl) rfl rfl
  idle d hd := by
    dsimp only at hd ⊢
    rw [Ft.setComm_comm] at hd
    split at hd
    case isTrue hdc => subst hdc; exact hidle hd
    case isFalse => exact h.idle d hd
  anyOpen d hd := by
    dsimp only
    rw [Ft.setComm_same (·.isCanceled) hcan]
    exact h.anyOpen d hd
  links := h.links
  members := h.members
  gaveUp d hd :=
    Ft.setComm_of (P := fun _ y => y.ftCurrentStatus = .error) herror (h.gaveUp d hd)

/-- A communicator leaves `ft_comms`. -/
theorem eraseComm (h : EngineInv s) (c : CommId) : EngineInv ⟨s.core, eraseComm s.ft c⟩ :=
  { h with
    tracked := h.tracked.congr rfl rfl rfl fun _ => rfl
    anys := h.anys.congr (fun _ => rfl) rfl rfl
    links := h.links.erase c
    members := fun d hd => h.members d ((erase_inserted ..).1 hd).2 }

/-- The request `r`, which was completed, is posted. -/
theorem post (h : EngineInv s) {q : LfiRequest} (hr : s.core.requests r = some q)
    (hc : q.commId ∈ s.ft.commIds) (hon : s.core.onComm r = none)
    (hft : env.faultTolerance = true) (hto : r ∉ s.ft.ftRequestsToCancel) {f : RequestFields}
    (hf : isAnyComm q.commId = true → f.opType ≠ .inject)
    (hidle : ∀ c, r = .heartbeat c → (s.ft.comm c).ftCurrentStatus ≠ .idle)
    (o : OpFields) (priority : Bool) : EngineInv (post env s r q.commId f o priority) := by
  have htracked := h.tracked.post hft hr hc hon f o priority
  have hids := h.heartbeatIds.postCore hon f o priority
  have hanys := h.anys.post hr hon hft hto hf o priority
  have hcore : (Impl.post env s r q.commId f o priority).core.onComm =
      Function.update s.core.onComm r (some q.commId) := postCore_onComm hr hon f o priority
  have hfixed : (Impl.post env s r q.commId f o priority).ft.fixed =
      if isAnyComm q.commId = true ∨ (s.ft.commNodes q.commId).inserted = true then s.ft.fixed
      else (pushComm s.ft q.commId).fixed := by
    simp only [Impl.post, if_pos hft, registerRequest_fixed]
  have hids' : HeartbeatIds (Impl.post env s r q.commId f o priority).core := hids
  generalize Impl.post env s r q.commId f o priority = t at htracked hids' hanys hcore hfixed ⊢
  have hcomm : ∀ d, (t.ft.comm d).fixed = (s.ft.comm d).fixed := fun d =>
    show t.ft.fixed.comm d = s.ft.fixed.comm d by rw [hfixed]; split <;> rfl
  have hstatus : ∀ d, (t.ft.comm d).ftCurrentStatus = (s.ft.comm d).ftCurrentStatus := fun d =>
    show (t.ft.comm d).fixed.ftCurrentStatus = (s.ft.comm d).fixed.ftCurrentStatus by rw [hcomm]
  have hcan : ∀ d, (t.ft.comm d).isCanceled = (s.ft.comm d).isCanceled := fun d =>
    show (t.ft.comm d).fixed.isCanceled = (s.ft.comm d).fixed.isCanceled by rw [hcomm]
  have hcommIds : t.ft.commIds = s.ft.commIds :=
    show t.ft.fixed.commIds = s.ft.fixed.commIds by rw [hfixed]; split <;> rfl
  have hfailed : t.ft.failed = s.ft.failed :=
    show t.ft.fixed.failed = s.ft.fixed.failed by rw [hfixed]; split <;> rfl
  have hlist : Linked t.ft.commNodes t.ft.ftComms ∧ ∀ d, (t.ft.commNodes d).inserted = true →
      d ∈ s.ft.commIds ∧ isAnyComm d = false := by
    change Linked t.ft.fixed.commNodes t.ft.fixed.ftComms ∧
      ∀ d, (t.ft.fixed.commNodes d).inserted = true → _
    rw [hfixed]
    split
    case isTrue => exact ⟨h.links, h.members⟩
    case isFalse hnew =>
      rw [not_or] at hnew
      refine ⟨h.links.pushBack (h.links.free _ (by simpa using hnew.2)), fun d hd => ?_⟩
      rcases (pushBack_inserted ..).1 hd with rfl | hd
      · exact ⟨hc, by simpa using hnew.1⟩
      · exact h.members d hd
  refine ⟨htracked, hids', hanys, fun d hd => ?_, fun d hd => ?_,
    fun d hd => by rw [hcan]; exact h.anyOpen d hd, hlist.1,
    fun d hd => by rw [hcommIds]; exact hlist.2 d hd, fun d hd => ?_⟩
  · rw [hcan] at hd
    rw [hstatus]
    exact h.canceled d hd
  · rw [hstatus] at hd
    rw [hcore, Function.update_of_ne]
    · exact h.idle d hd
    · exact fun hr => hidle d hr.symm hd
  · rw [hfailed] at hd
    rw [hstatus]
    exact h.gaveUp d hd

/-- A change of a completed heartbeat request. -/
theorem heartbeatCore (h : EngineInv s) {core : Core} (hon : core.onComm = s.core.onComm)
    (hids : HeartbeatIds core) (hfree : s.core.onComm (.heartbeat c) = none)
    (hkeep : ∀ r, r ≠ .heartbeat c → core.requests r = s.core.requests r) :
    EngineInv ⟨core, s.ft⟩ where
  tracked := h.tracked.core hon
  heartbeatIds := hids
  anys := by
    refine ⟨fun r => by rw [hon]; exact h.anys.mem r, fun r q hq hc hany => ?_⟩
    by_cases hr : r = .heartbeat c
    · subst hr
      rw [← hon] at hfree
      simp [Core.onComm, show core.requests (.heartbeat c) = some q from hq, hc] at hfree
    · exact h.anys.plain r q ((hkeep r hr).symm.trans hq) hc hany
  canceled := h.canceled
  idle d hd := by
    dsimp only
    rw [hon]
    exact h.idle d hd
  anyOpen := h.anyOpen
  links := h.links
  members := h.members
  gaveUp := h.gaveUp

end EngineInv

end Impl
end Lfi
