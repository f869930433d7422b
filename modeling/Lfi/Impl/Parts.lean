/-
# The parts of a pass

A pass is a sequence of smaller calls: `process_comm`, `cancel_comm`, reports and cancels.
Here each is an action of its own (`PartAction`), so that the states inside a pass are reached
too (`pass_parts`, `cancelComms_parts`); the user's actions and `close_comm` come in between.

In every state the lists of outstanding requests are right, and an operation in a queue is what
its request waits for (`Kept`).
-/

import Lfi.Impl.Freed
import Lfi.Impl.Posting

namespace Lfi
namespace Impl

open Runs

variable {env : Env} {s t : State} {r : ReqId} {c : CommId}

/-- What can happen to an endpoint, one part of a pass at a time.  `note` is what a pass writes
into its own fields. -/
inductive PartAction where
  | post (k : ℕ) (call : PostCall)
  | fabric (e : FabricEvent)
  | cancel (r : ReqId) (events : List FabricEvent)
  | free (k : ℕ) (events : List FabricEvent)
  | processComm (now : ℤ) (beat : CommId → ℤ) (c : CommId)
  | cancelComm (c : CommId) (events : ReqId → List FabricEvent)
  | reportTo (r : ReqId) (c : CommId)
  | note (pending : Finset CommId) (canceled : List CommId) (toCancel : List ReqId) (last : ℤ)
      (count : ℕ) (failed : List CommId)
  | closeComm (c : CommId) (events : ReqId → List FabricEvent)

/-- One action. -/
def partStep (env : Env) (s : State) : PartAction → Option State
  | .post k call =>
      if s.core.onComm (.user k) = none then some (asyncPost env s (.user k) call).2 else none
  | .fabric e => some (fabricEvent env s e)
  | .cancel r events => some (cancel env s r events)
  | .free k events => some (requestFree env s (.user k) events)
  | .processComm now beat c => some (processComm env now beat s c)
  | .cancelComm c events => some (cancelComm env events s c)
  | .reportTo r c => some (reportTo s r c)
  | .note pending canceled toCancel last count failed =>
      some ⟨s.core, { s.ft with
        ftPendingFailedComms := pending
        ftCanceledComs := canceled
        ftRequestsToCancel := toCancel
        ftLastProgress := last
        ftProgressCount := count
        failed := failed }⟩
  | .closeComm c events => some (closeComm env events s c).2

/-! ### Passes in parts -/

/-- One more part. -/
theorem reachable_part (h : Reachable (partStep env) Fresh s) (a : PartAction)
    (ht : partStep env s a = some t) : Reachable (partStep env) Fresh t := by
  obtain ⟨s₀, as, hfresh, has⟩ := h
  refine ⟨s₀, as ++ [a], hfresh, ?_⟩
  rw [exec_append, has, Option.bind_some, exec_cons, ht, Option.bind_some, exec_nil]

/-- A call of `one_loop` is made of parts. -/
theorem oneLoop_parts (h : Reachable (partStep env) Fresh s) (input : PassInput) :
    Reachable (partStep env) Fresh (oneLoop env input s) :=
  oneLoop_induction (P := Reachable (partStep env) Fresh)
    (fun _ c h => reachable_part h (.processComm _ _ c) rfl)
    (fun _ c h => reachable_part h (.cancelComm c _) rfl)
    (fun _ r c h => reachable_part h (.reportTo r c) rfl)
    (fun _ r h => reachable_part h (.cancel r _) rfl)
    (fun _ _ _ _ _ _ _ h => reachable_part h (.note _ _ _ _ _ _) rfl) h

/-- **Every state of a run is reached in parts.** -/
theorem reachable_parts (h : Reachable (lifeStep env) Fresh s) :
    Reachable (partStep env) Fresh s := by
  refine h.invariant (fun s hs => ⟨s, [], hs, rfl⟩) fun s a t hs ht => ?_
  cases a with
  | closeComm c events => exact reachable_part hs (.closeComm c events) ht
  | engine a =>
    cases a with
    | post k call => exact reachable_part hs (.post k call) ht
    | fabric e => exact reachable_part hs (.fabric e) ht
    | cancel k events => exact reachable_part hs (.cancel (.user k) events) ht
    | free k events => exact reachable_part hs (.free k events) ht
    | oneLoop input =>
      simp only [lifeStep, engineStep, Option.ite_none_right_eq_some, Option.some.injEq] at ht
      obtain ⟨-, rfl⟩ := ht
      exact oneLoop_parts hs input

/-- The first half of a pass. -/
theorem processComms_parts (h : Reachable (partStep env) Fresh s) (input : PassInput) :
    Reachable (partStep env) Fresh (processComms env input s) := by
  have hproc : ∀ s c, Reachable (partStep env) Fresh s →
      Reachable (partStep env) Fresh (processComm env input.now input.beat s c) :=
    fun _ c h => reachable_part h (.processComm _ _ c) rfl
  unfold processComms
  split
  case isTrue => exact List.foldlRecOn _ _ h fun s h c _ => hproc s c h
  case isFalse => exact walkFtComms_induction hproc _ _ h

/-- One round of the second half. -/
def cancelRound (env : Env) (input : PassInput) (s : State) (c : CommId) : State :=
  if c ∈ s.ft.commIds then
    let s := cancelComm env (passEvents env input) s c
    { s with ft := { s.ft with failed := s.ft.failed ++ [c] } }
  else s

/-- The states in which a pass calls `cancel_comm`. -/
theorem cancelComms_parts (h : Reachable (partStep env) Fresh s) (input : PassInput)
    (done : List CommId) :
    Reachable (partStep env) Fresh
      (done.foldl (cancelRound env input) (processComms env input s)) := by
  refine List.foldlRecOn (motive := Reachable (partStep env) Fresh) _ _
    (processComms_parts h input) fun s h c _ => ?_
  unfold cancelRound
  split
  case isTrue =>
    exact reachable_part (reachable_part h (.cancelComm c (passEvents env input)) rfl)
      (.note _ _ _ _ _ _) rfl
  case isFalse => exact h

/-! ### What is kept -/

/-- Progress on the contexts and the queues does not count. -/
theorem Posted.congr {s t : Core} (h : Posted s) (hinv : ContextInv t t.ops)
    (hctx : t.contexts = s.contexts) (hqueued : t.queued = s.queued) : Posted t :=
  ⟨hinv, hqueued ▸ h.live.congr fun op _ => congrFun hctx op.context⟩

/-- `reset` of a request that is completed. -/
theorem Posted.reset {s : Core} (h : Posted s) (hon : s.onComm r = none) :
    Posted (reset s r) := by
  obtain ⟨requests, contexts, heq⟩ := reset_eq s r
  have hops : (Impl.reset s r).ops = s.ops := by rw [heq]; rfl
  refine h.congr (hops ▸ h.inv.reset r) ?_ (by rw [heq]; rfl)
  unfold Impl.reset
  cases hq : s.requests r with
  | none => rfl
  | some q =>
    have hwait : q.waitContext = none := by
      simpa [Core.onComm, hq, LfiRequest.isCompleted] using hon
    simp [hwait, unassign, Core.setRequest]

theorem Posted.ensureHeartbeat {s : Core} (h : Posted s) (c : CommId) :
    Posted (ensureHeartbeat s c) := by
  unfold Impl.ensureHeartbeat
  cases hnone : s.requests (.heartbeat c) with
  | none => exact h.congr (h.inv.new hnone c) rfl rfl
  | some q => exact h

/-- The heartbeat that a pass posts. -/
theorem Posted.startHeartbeat (h : Posted s.core) (c : CommId) (beat : ℤ) :
    Posted (startHeartbeat env s c beat).core := by
  unfold Impl.startHeartbeat
  dsimp only
  split
  case isFalse => exact h.ensureHeartbeat c
  case isTrue hfree =>
    have hnone := heartbeatFree_iff.1 hfree
    have hreset : (Impl.reset (Impl.ensureHeartbeat s.core c) (.heartbeat c)).onComm
        (.heartbeat c) = none := by
      rw [(reset_onComm hnone).1]
      exact hnone
    have hpost := @Posted.asyncPost env
      ⟨Impl.reset (Impl.ensureHeartbeat s.core c) (.heartbeat c), clearValue s.ft c⟩
      ((h.ensureHeartbeat c).reset hnone) _ hreset
      (.get 0 8 (s.ft.comm c).ftRemoteHeartbeatAddr (s.ft.comm c).ftRemoteHeartbeatKey true)
    split
    case isTrue => exact hpost
    case isFalse => exact hpost

theorem Posted.processComm (h : Posted s.core) (now : ℤ) (beat : CommId → ℤ) (c : CommId) :
    Posted (processComm env now beat s c).core := by
  rcases processComm_cases env now beat s c with ⟨-, heq⟩ | ⟨-, -, -, heq⟩ | ⟨-, -, -, heq⟩ |
    ⟨-, -, -, -, heq⟩ | ⟨-, -, -, heq⟩ <;> rw [heq]
  · exact h
  · exact h.startHeartbeat c (beat c)
  · exact h
  · exact h
  · exact h

theorem Posted.cancelRequests (h : Posted s.core) (events : ReqId → List FabricEvent) (c : CommId)
    (fuel : ℕ) : Posted (cancelRequests env events c fuel s).core := by
  induction fuel generalizing s with
  | zero => exact h
  | succ fuel ih =>
    unfold Impl.cancelRequests
    cases (s.ft.comm c).ftRequests.head with
    | none => exact h
    | some r => exact ih (h.cancel r (events r)).2

theorem Posted.cancelComm (h : Posted s.core) (events : ReqId → List FabricEvent) (c : CommId) :
    Posted (cancelComm env events s c).core := by
  have hdrained := @Posted.cancelRequests env (markCanceled s c) h events c
    ((markCanceled s c).ft.comm c).ftRequests.size.toNat
  exact (hdrained.requestFree (.heartbeat c) []).2

/-- **What every part keeps.** -/
structure Kept (env : Env) (s : State) : Prop where
  accounts : Accounts env s
  live : Live s.core s.core.queued

theorem Kept.posted (h : Kept env s) : Posted s.core := ⟨h.accounts.contexts, h.live⟩

theorem Kept.tracked (h : Kept env s) (hft : env.faultTolerance = true) : Tracked s :=
  (h.accounts.books.tracked hft).1

theorem Kept.partStep (h : Kept env s) (hft : env.faultTolerance = true) {a : PartAction}
    (ht : partStep env s a = some t) : Kept env t := by
  cases a with
  | post k call =>
    simp only [Impl.partStep, Option.ite_none_right_eq_some, Option.some.injEq] at ht
    obtain ⟨hon, rfl⟩ := ht
    exact ⟨h.accounts.asyncPost hon call, (h.posted.asyncPost hon call).live⟩
  | fabric e =>
    obtain rfl := Option.some.inj ht
    exact ⟨h.accounts.fabricEvent e, (h.posted.fabricEvent e).2.live⟩
  | cancel r events =>
    obtain rfl := Option.some.inj ht
    exact ⟨h.accounts.cancel r events, (h.posted.cancel r events).2.live⟩
  | free k events =>
    obtain rfl := Option.some.inj ht
    exact ⟨h.accounts.requestFree _ events, (h.posted.requestFree _ events).2.live⟩
  | processComm now beat c =>
    obtain rfl := Option.some.inj ht
    exact ⟨h.accounts.processComm hft now beat c, (h.posted.processComm now beat c).live⟩
  | cancelComm c events =>
    obtain rfl := Option.some.inj ht
    exact ⟨h.accounts.cancelComm hft events c, (h.posted.cancelComm events c).live⟩
  | reportTo r c =>
    obtain rfl := Option.some.inj ht
    exact ⟨h.accounts.reportTo hft r c, h.live⟩
  | note pending canceled toCancel last count failed =>
    obtain rfl := Option.some.inj ht
    exact ⟨h.accounts.note hft rfl rfl (fun _ => rfl) rfl, h.live⟩
  | closeComm c events =>
    obtain rfl := Option.some.inj ht
    refine ⟨h.accounts.closeComm events c, ?_⟩
    unfold Impl.closeComm
    split
    case isFalse => exact h.live
    case isTrue => exact (h.posted.cancelComm events c).live

theorem Kept.cancel (h : Kept env s) (r : ReqId) (events : List FabricEvent) :
    Kept env (cancel env s r events) :=
  ⟨h.accounts.cancel r events, (h.posted.cancel r events).2.live⟩

/-- The lists and the queues are right in every state. -/
theorem reachable_kept (hft : env.faultTolerance = true)
    (h : Reachable (partStep env) Fresh s) : Kept env s :=
  h.invariant (P := Kept env) (fun _ hs => ⟨hs.accounts, hs.posted.live⟩)
    fun _ _ _ hs ht => hs.partStep hft ht

end Impl
end Lfi
