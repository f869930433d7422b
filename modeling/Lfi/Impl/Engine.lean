/-
# Runs of an endpoint

An endpoint takes posts, events of the fabric, cancels and frees of the user's
requests, and calls of `one_loop`, one at a time and in any order (`engineStep`).
A request is posted when it is completed, and `one_loop` is called when fault
tolerance is on.

`pass_induction` says what to check of a property to have it kept by a pass; its
first use is that the lists of outstanding requests are right in every reachable
state (`reachable_tracked`).
-/

import Lfi.Impl.PassSteps
import Lfi.Runs.Basic

namespace Lfi
namespace Impl

open Runs

/-- What can happen to an endpoint. -/
inductive EngineAction where
  | post (k : ℕ) (call : PostCall)
  | fabric (e : FabricEvent)
  | cancel (k : ℕ) (events : List FabricEvent)
  | free (k : ℕ) (events : List FabricEvent)
  | oneLoop (input : PassInput)

/-- One action. -/
def engineStep (env : Env) (s : State) : EngineAction → Option State
  | .post k call =>
      if s.core.onComm (.user k) = none then some (asyncPost env s (.user k) call).2 else none
  | .fabric e => some (fabricEvent env s e)
  | .cancel k events => some (cancel env s (.user k) events)
  | .free k events => some (requestFree env s (.user k) events)
  | .oneLoop input =>
      if env.faultTolerance = true ∧ input.Walks s.ft then some (oneLoop env input s) else none

variable {env : Env} {s t : State} {c : CommId}

/-! ### Passes -/

/-- What one step of a walk keeps the walk keeps. -/
theorem walkFtComms_induction {P : State → Prop} {now : ℤ} {beat : CommId → ℤ}
    (hproc : ∀ s c, P s → P (processComm env now beat s c)) (fuel : ℕ) (c : Option CommId)
    (hs : P s) : P (walkFtComms env now beat fuel c s) := by
  induction fuel generalizing c s with
  | zero => exact hs
  | succ fuel ih =>
      cases c with
      | none => exact hs
      | some c => exact ih _ (hproc s c hs)

/-- **Pass induction.**  What survives `process_comm`, `cancel_comm`, a report, the
cancel of a receive and any change of what a pass notes down survives a pass. -/
theorem pass_induction {P : State → Prop} {input : PassInput}
    (hproc : ∀ s c, P s → P (processComm env input.now input.beat s c))
    (hcomm : ∀ s c, P s → P (cancelComm env (passEvents env input) s c))
    (hreport : ∀ s r c, P s → P (reportTo s r c))
    (hcancel : ∀ s r, P s → P (cancel env s r (passEvents env input r)))
    (hnote : ∀ s pending canceled toCancel last count failed, P s →
      P ⟨s.core, { s.ft with
        ftPendingFailedComms := pending
        ftCanceledComs := canceled
        ftRequestsToCancel := toCancel
        ftLastProgress := last
        ftProgressCount := count
        failed := failed }⟩)
    (hs : P s) : P (pass env input s) := by
  have hany : ∀ s anys errors, P s → P (reportToAny s anys errors) := fun s anys errors hs =>
    List.foldlRecOn _ _ hs fun s h p _ => hreport s p.1 p.2 h
  have hprocs : ∀ s, P s → P (processComms env input s) := by
    intro s hs
    unfold processComms
    split
    case isTrue => exact List.foldlRecOn _ _ hs fun s h c _ => hproc s c h
    case isFalse => exact walkFtComms_induction hproc _ _ hs
  have hcomms : ∀ s, P s → P (cancelComms env input s) := by
    intro s hs
    refine List.foldlRecOn _ _ hs fun s h c _ => ?_
    split
    case isTrue => exact hnote _ _ _ _ _ _ _ (hcomm s c h)
    case isFalse => exact h
  have hreports : ∀ s anys pending, P s →
      P (handleAnyCommReports env (passEvents env input) anys pending s) := by
    intro s anys pending hs
    unfold handleAnyCommReports
    refine hnote _ _ _ _ _ _ _ (List.foldlRecOn _ _ ?_ fun s h r _ => hcancel s r h)
    exact hnote _ _ _ _ _ _ _ (hany _ _ _ (hnote _ _ _ _ _ _ _ (hany _ _ _ hs)))
  unfold pass
  have hdone := hcomms _ (hprocs _ (hnote s s.ft.ftPendingFailedComms s.ft.ftCanceledComs
    s.ft.ftRequestsToCancel input.now s.ft.ftProgressCount s.ft.failed hs))
  refine hnote _ _ _ _ _ _ _ ?_
  split
  case isTrue => exact hreports _ _ _ hdone
  case isFalse => exact hdone

/-- The same of `one_loop`. -/
theorem oneLoop_induction {P : State → Prop} {input : PassInput}
    (hproc : ∀ s c, P s → P (processComm env input.now input.beat s c))
    (hcomm : ∀ s c, P s → P (cancelComm env (passEvents env input) s c))
    (hreport : ∀ s r c, P s → P (reportTo s r c))
    (hcancel : ∀ s r, P s → P (cancel env s r (passEvents env input r)))
    (hnote : ∀ s pending canceled toCancel last count failed, P s →
      P ⟨s.core, { s.ft with
        ftPendingFailedComms := pending
        ftCanceledComs := canceled
        ftRequestsToCancel := toCancel
        ftLastProgress := last
        ftProgressCount := count
        failed := failed }⟩)
    (hs : P s) : P (oneLoop env input s) := by
  have hcount : ∀ n, P ⟨s.core, { s.ft with ftProgressCount := n }⟩ := fun n =>
    hnote s s.ft.ftPendingFailedComms s.ft.ftCanceledComs s.ft.ftRequestsToCancel
      s.ft.ftLastProgress n s.ft.failed hs
  unfold oneLoop
  dsimp only
  split
  case isTrue => exact hcount _
  case isFalse =>
    split
    case isTrue => exact hcount 0
    case isFalse => exact pass_induction hproc hcomm hreport hcancel hnote (hcount 0)

/-! ### Outstanding requests -/

/-- A change that touches neither what is outstanding nor the lists. -/
theorem Tracked.congr (h : Tracked s) (hon : t.core.onComm = s.core.onComm)
    (hids : t.ft.commIds = s.ft.commIds) (hnodes : t.ft.reqNodes = s.ft.reqNodes)
    (hlists : ∀ c, (t.ft.comm c).ftRequests = (s.ft.comm c).ftRequests) : Tracked t := by
  unfold Tracked
  rw [hon]
  exact Tracks.congr h hids hnodes hlists

/-- Replacing a communicator by one with the same requests. -/
theorem Tracked.setComm (h : Tracked s) {core : Core} (hon : core.onComm = s.core.onComm)
    {x : LfiComm} (hx : x.ftRequests = (s.ft.comm c).ftRequests) :
    Tracked ⟨core, s.ft.setComm c x⟩ :=
  h.congr hon rfl rfl (Ft.setComm_same (·.ftRequests) hx)

theorem Tracked.giveUp (h : Tracked s) (c : CommId) : Tracked ⟨s.core, giveUp s.ft c⟩ :=
  Tracked.congr (h.setComm (c := c) (x := { s.ft.comm c with ftCurrentStatus := .error }) rfl rfl)
    rfl rfl rfl fun _ => rfl

/-- `process_comm`. -/
theorem Tracked.processComm (h : Tracked s) (hids : HeartbeatIds s.core)
    (hft : env.faultTolerance = true) (now : ℤ) (beat : CommId → ℤ) (c : CommId) :
    Tracked (processComm env now beat s c) ∧ HeartbeatIds (processComm env now beat s c).core := by
  rcases processComm_cases env now beat s c with ⟨-, heq⟩ | ⟨-, -, -, heq⟩ | ⟨-, -, -, heq⟩ |
    ⟨-, -, -, -, heq⟩ | ⟨-, -, -, heq⟩ <;> rw [heq]
  · exact ⟨h.congr rfl rfl rfl fun _ => rfl, hids⟩
  · rcases @startHeartbeat_cases env _ hids c (beat c) with ⟨-, h'⟩ |
      ⟨core, hfree, hon, hids', -, -, ⟨-, h'⟩ | ⟨q, f, o, hc, -, hq, hqc, h'⟩⟩ <;> rw [h']
    · exact ⟨h, hids⟩
    · have hclear : Tracked ⟨core, clearValue s.ft c⟩ := h.setComm hon rfl
      exact ⟨hclear.giveUp c, hids'⟩
    · have hclear : Tracked ⟨core, clearValue s.ft c⟩ := h.setComm hon rfl
      have hpost := hclear.post hft hq (hqc ▸ hc) (hon ▸ hfree) f o true
      rw [hqc] at hpost
      exact ⟨hpost.setComm rfl rfl, hids'.postCore (hon ▸ hfree) f o true⟩
  · exact ⟨h.setComm rfl rfl, hids⟩
  · exact ⟨h.giveUp c, hids⟩
  · exact ⟨h, hids⟩

/-- `cancel_comm`. -/
theorem Tracked.cancelComm (h : Tracked s) (hids : HeartbeatIds s.core)
    (hft : env.faultTolerance = true) (events : ReqId → List FabricEvent) (c : CommId) :
    Tracked (cancelComm env events s c) ∧ HeartbeatIds (cancelComm env events s c).core := by
  obtain ⟨u, hprog, heq, hu⟩ := cancelComm_eq env events s c
  rw [heq]
  exact ⟨(hu hft h).1.congr rfl rfl rfl fun _ => rfl,
    HeartbeatIds.progress (s := markCanceled s c) (t := u) hids hprog⟩

/-- A report changes fields of its request that do not matter here. -/
theorem reportTo_onComm (s : State) (r : ReqId) (c : CommId) :
    (reportTo s r c).core.onComm = s.core.onComm := by
  funext r'
  by_cases hr : r' = r
  · subst hr
    simp only [reportTo, Core.onComm, Core.setRequest, Function.update_self]
    cases s.core.requests r' <;> rfl
  · exact Core.onComm_congr (by simp [reportTo, Core.setRequest, hr])

theorem HeartbeatIds.reportTo (hids : HeartbeatIds s.core) (r : ReqId) (c : CommId) :
    HeartbeatIds (reportTo s r c).core := by
  intro d q hq
  by_cases hr : ReqId.heartbeat d = r
  · subst hr
    simp only [Impl.reportTo, Core.setRequest, Function.update_self, Option.map_eq_some_iff] at hq
    obtain ⟨p, hp, rfl⟩ := hq
    exact hids d p hp
  · exact hids d q (by simpa [Impl.reportTo, Core.setRequest, hr] using hq)

/-- `one_loop`. -/
theorem Tracked.oneLoop (h : Tracked s) (hids : HeartbeatIds s.core)
    (hft : env.faultTolerance = true) (input : PassInput) :
    Tracked (oneLoop env input s) ∧ HeartbeatIds (oneLoop env input s).core := by
  exact oneLoop_induction (P := fun s => Tracked s ∧ HeartbeatIds s.core)
    (fun s c h => h.1.processComm h.2 hft _ _ c) (fun s c h => h.1.cancelComm h.2 hft _ c)
    (fun s r c h => ⟨h.1.congr (reportTo_onComm s r c) rfl rfl fun _ => rfl, h.2.reportTo r c⟩)
    (fun s r h => ⟨h.1.cancel hft r _, h.2.progress (cancel_progressed r _)⟩)
    (fun s _ _ _ _ _ _ h => ⟨h.1.congr rfl rfl rfl fun _ => rfl, h.2⟩) ⟨h, hids⟩

/-- Every action. -/
theorem Tracked.engineStep (h : Tracked s) (hids : HeartbeatIds s.core)
    (hft : env.faultTolerance = true) {a : EngineAction} (ht : engineStep env s a = some t) :
    Tracked t ∧ HeartbeatIds t.core := by
  cases a with
  | post k call =>
      simp only [Impl.engineStep, Option.ite_none_right_eq_some, Option.some.injEq] at ht
      obtain ⟨hon, rfl⟩ := ht
      rcases asyncPost_cases env s (.user k) call with ⟨-, heq⟩ |
        ⟨q, f, o, p, hq, hc, -, -, -, heq⟩ <;> rw [heq]
      · exact ⟨h, hids⟩
      · exact ⟨h.post hft hq hc hon f o p, hids.postCore hon f o p⟩
  | fabric e =>
      obtain rfl := Option.some.inj ht
      exact ⟨h.fabricEvent hft e, hids.progress (fabricEvent_progressed e)⟩
  | cancel k events =>
      obtain rfl := Option.some.inj ht
      exact ⟨h.cancel hft _ events, hids.progress (cancel_progressed _ events)⟩
  | free k events =>
      obtain rfl := Option.some.inj ht
      exact ⟨h.requestFree hft _ events, hids.progress (requestFree_progressed _ events)⟩
  | oneLoop input =>
      simp only [Impl.engineStep, Option.ite_none_right_eq_some, Option.some.injEq] at ht
      obtain ⟨-, rfl⟩ := ht
      exact h.oneLoop hids hft input

/-- **The lists of outstanding requests are right** in every reachable state. -/
theorem reachable_tracked (hft : env.faultTolerance = true)
    (h : Reachable (Impl.engineStep env) Fresh s) : Tracked s ∧ HeartbeatIds s.core :=
  h.invariant (P := fun s => Tracked s ∧ HeartbeatIds s.core)
    (fun _ hs => ⟨hs.tracked, hs.heartbeatIds⟩) fun _ _ _ hs ht => hs.1.engineStep hs.2 hft ht

end Impl
end Lfi
