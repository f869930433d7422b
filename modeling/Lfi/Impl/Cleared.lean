/-
# A cancelled communicator

`cancel_comm` takes the first outstanding request of its communicator and cancels it, without
the mutex of the communicator, until there is none.  The progress step inside a cancel may
complete any other of them, and a request that is in the list is never a completed one, on which
`cancel` would return early and leave the list as it is.

So the loop ends after as many rounds as there are requests at most.  Then the communicator has
none, all of them are completed and none of their operations is in a queue; and a post on the
communicator fails from then on (`cancelComm_drains_seals`).
-/

import Lfi.Impl.Parts

namespace Lfi
namespace Impl

open Runs

variable {env : Env} {s t : State} {r : ReqId} {c d : CommId}

/-! ### Requests stay there -/

/-- No request of `s` is gone. -/
def Stay (s t : State) : Prop := ∀ r, s.core.requests r ≠ none → t.core.requests r ≠ none

theorem Stay.complete (h : Stay s t) (r : ReqId) (err now : ℤ) :
    Stay s (complete env t r err now) := by
  intro r' hr'
  have ht := h r' hr'
  by_cases hne : r' = r
  · subst hne
    cases hon : t.core.onComm r' with
    | none => rwa [complete_of_onComm_none hon]
    | some c =>
      obtain ⟨q, hq, -, -, heq⟩ := @complete_of_onComm_some env _ _ _ err now hon
      simp [heq, completeBody_requests, hq]
  · rwa [complete_requests_of_ne (Ne.symm hne)]

theorem Stay.fabricEvent (h : Stay s t) (e : FabricEvent) : Stay s (fabricEvent env t e) := by
  refine fabricEvent_induction (P := Stay s) (fun t k hk _ ht r hr => ?_)
    (fun t r err now _ ht => ht.complete r err now) (fun t r len tag now ht => ?_)
    (fun t c value ht => ht) h e
  · show k.requests r ≠ none
    rw [hk]
    exact ht r hr
  · refine Stay.complete (t := ⟨t.core.setRequest r _, t.ft⟩) (fun r' hr' => ?_) r lfiSuccess now
    have hthere := ht r' hr'
    by_cases hne : r' = r
    · subst hne
      simpa [Core.setRequest] using hthere
    · simpa [Core.setRequest, hne] using hthere

theorem Stay.cancel (h : Stay s t) (r : ReqId) (events : List FabricEvent) :
    Stay s (cancel env t r events) :=
  cancel_induction (P := Stay s)
    (fun t k hk _ ht r hr => by
      show k.requests r ≠ none
      rw [hk]
      exact ht r hr)
    (fun _ e ht => ht.fabricEvent e) (fun _ err now ht => ht.complete r err now) h events

theorem Stay.cancelRequests (h : Stay s t) (events : ReqId → List FabricEvent) (c : CommId)
    (rounds : ℕ) : Stay s (cancelRequests env events c rounds t) :=
  cancelRequests_induction (P := Stay s) (fun _ r _ ht => ht.cancel r (events r)) h rounds

/-! ### The loop -/

theorem cancelRequests_add (events : ReqId → List FabricEvent) (c : CommId) (n k : ℕ) :
    cancelRequests env events c (n + k) s =
      cancelRequests env events c k (cancelRequests env events c n s) := by
  induction n generalizing s with
  | zero => rw [Nat.zero_add, cancelRequests]
  | succ n ih =>
    rw [Nat.succ_add, cancelRequests, cancelRequests]
    cases hhead : (s.ft.comm c).ftRequests.head with
    | none => exact (cancelRequests_of_head_none hhead k).symm
    | some r => exact ih

/-- A communicator with nothing outstanding has the empty list. -/
theorem Tracked.list_empty (h : Tracked s) (hc : c ∈ s.ft.commIds)
    (hnone : ∀ r, s.core.onComm r ≠ some c) : (s.ft.comm c).ftRequests = .empty := by
  obtain ⟨xs, hrep, hmem⟩ := h.rep c hc
  have hnil : xs = [] := List.eq_nil_iff_forall_not_mem.2 fun r hr => hnone r ((hmem r).1 hr)
  subst hnil
  have hhead := hrep.head_eq
  have htail := hrep.tail_eq
  have hsize := hrep.size_eq
  cases hl : (s.ft.comm c).ftRequests with
  | mk head tail size => simp_all [DoubleLinkedList.empty]

/-- **The communicator is drained** of the requests `xs`: its list is empty, they are all
completed, and none of their operations is in a queue. -/
structure Cleared (s : State) (c : CommId) (xs : List ReqId) : Prop where
  empty : (s.ft.comm c).ftRequests = .empty
  completed : ∀ r ∈ xs, ∃ q, s.core.requests r = some q ∧ q.isCompleted = true
  unqueued : ∀ op ∈ s.core.queued, op.owner ∉ xs

theorem Kept.markCanceled (h : Kept env s) (c : CommId) : Kept env (markCanceled s c) :=
  ⟨h.accounts.setComm c (x := { s.ft.comm c with isCanceled := true }) rfl, h.live⟩

theorem Kept.cancelRequests (h : Kept env s) (events : ReqId → List FabricEvent) (c : CommId)
    (rounds : ℕ) : Kept env (cancelRequests env events c rounds s) := by
  induction rounds generalizing s with
  | zero => exact h
  | succ rounds ih =>
    unfold Impl.cancelRequests
    cases (s.ft.comm c).ftRequests.head with
    | none => exact h
    | some r => exact ih (h.cancel r (events r))

/-- A queued operation is of an outstanding request. -/
theorem Kept.queued_outstanding (h : Kept env s) {op : LfiPendingOp} (hop : op ∈ s.core.queued) :
    s.core.onComm op.owner ≠ none := by
  obtain ⟨q, hq, hwait⟩ := h.accounts.contexts.sound _ _ (h.live op hop)
  simp [Core.onComm, hq, LfiRequest.isCompleted, hwait]

/-- As many rounds as there are requests drain the communicator. -/
theorem Kept.cleared (h : Kept env s) (hft : env.faultTolerance = true) (hc : c ∈ s.ft.commIds)
    (events : ReqId → List FabricEvent) {xs : List ReqId}
    (hrep : Rep s.ft.reqNodes (s.ft.comm c).ftRequests xs)
    (hmem : ∀ r, r ∈ xs ↔ s.core.onComm r = some c) :
    Cleared (Impl.cancelRequests env events c xs.length s) c xs := by
  have hprog := @cancelRequests_progressed env s events c xs.length
  have hnone : ∀ r, (Impl.cancelRequests env events c xs.length s).core.onComm r ≠ some c :=
    cancelRequests_drains (h.tracked hft) hft hc events (by rw [hrep.size_eq, Int.toNat_natCast])
  -- a request of the list is on no other communicator either
  have hdone : ∀ r ∈ xs, (Impl.cancelRequests env events c xs.length s).core.onComm r = none := by
    intro r hr
    rcases hprog.onComm r with hsame | hdone
    · exact absurd (hsame.trans ((hmem r).1 hr)) (hnone r)
    · exact hdone
  have hkept := h.cancelRequests events c xs.length
  refine ⟨(hkept.tracked hft).list_empty (hprog.commIds ▸ hc) hnone,
    fun r hr => ?_, fun op hop hr =>
    hkept.queued_outstanding hop (hdone _ hr)⟩
  obtain ⟨q, hq, -⟩ := Core.onComm_eq_some.1 ((hmem r).1 hr)
  have hthere := @Stay.cancelRequests env s _ (fun _ h => h) events c xs.length r
    (by simp [hq])
  obtain ⟨p, hp⟩ := Option.ne_none_iff_exists'.1 hthere
  exact ⟨p, hp, by simpa [Core.onComm, hp] using hdone r hr⟩

theorem markCanceled_list (s : State) (c : CommId) :
    ((markCanceled s c).ft.comm c).ftRequests = (s.ft.comm c).ftRequests := by
  simp [markCanceled, Ft.setComm]

/-- Freeing a request that is not outstanding only takes it away. -/
theorem requestFree_of_onComm_none (hr : s.core.onComm r = none) (events : List FabricEvent) :
    requestFree env s r events = ⟨s.core.setRequest r none, s.ft⟩ := by
  cases hq : s.core.requests r with
  | none =>
    rw [requestFree_of_none hq]
    simp [Core.setRequest, ← hq]
  | some q => exact requestFree_of_completed hq (by simpa [Core.onComm, hq] using hr) events

/-- The heartbeat that `cancel_comm` frees is completed, or not there. -/
theorem Kept.cancelComm_eq (h : Kept env s) (hft : env.faultTolerance = true)
    (hc : c ∈ s.ft.commIds) (events : ReqId → List FabricEvent) :
    cancelComm env events s c =
      let u := Impl.cancelRequests env events c (s.ft.comm c).ftRequests.size.toNat
        (Impl.markCanceled s c)
      ⟨u.core.setRequest (.heartbeat c) none, eraseComm u.ft c⟩ := by
  have hnone := cancelRequests_drains ((h.markCanceled c).tracked hft) hft hc events
    (Nat.le_refl _) (.heartbeat c)
  rw [markCanceled_list] at hnone
  have hprog := @cancelRequests_progressed env (Impl.markCanceled s c) events c
    (s.ft.comm c).ftRequests.size.toNat
  have hbeat : (Impl.cancelRequests env events c (s.ft.comm c).ftRequests.size.toNat
      (Impl.markCanceled s c)).core.onComm (.heartbeat c) = none := by
    by_contra hout
    obtain ⟨d, hd⟩ := Option.ne_none_iff_exists'.1 hout
    obtain ⟨q, hq, -, hqd⟩ := Core.onComm_eq_some.1 (hprog.onComm_some hd)
    have hid := h.accounts.books.heartbeatIds c q hq
    rw [hd, ← hqd, hid] at hnone
    exact hnone rfl
  unfold Impl.cancelComm
  dsimp only
  rw [show (s.ft.setComm c { s.ft.comm c with isCanceled := true }) =
    (Impl.markCanceled s c).ft from rfl, markCanceled_list]
  exact congrArg (fun t : State => (⟨t.core, eraseComm t.ft c⟩ : State))
    (requestFree_of_onComm_none hbeat [])

/-! ### Sealed -/

/-- The communicator is cancelled. -/
def Sealed (c : CommId) (s : Ft) : Prop := (s.comm c).isCanceled = true

/-- A post on it fails. -/
theorem Sealed.asyncPost (h : Sealed c s.ft) (hc : c ∈ s.ft.commIds) {q : LfiRequest}
    (hq : s.core.requests r = some q) (hqc : q.commId = c) (call : PostCall) :
    asyncPost env s r call = (-lfiBrokenComm, s) := by
  subst hqc
  cases call <;>
    simp [Impl.asyncPost, asyncSend, asyncRecv, asyncPut, asyncGet, withComm, hq, hc,
      show (s.ft.comm q.commId).isCanceled = true from h]

theorem Sealed.progress (h : Sealed c s.ft) (hp : Progressed s t) : Sealed c t.ft :=
  (hp.isCanceled c).trans h

/-- Only `cancel_comm` writes `is_canceled`. -/
theorem Sealed.setComm {s : Ft} (h : Sealed c s) {x : LfiComm}
    (hx : x.isCanceled = (s.comm d).isCanceled) : Sealed c (s.setComm d x) :=
  (Ft.setComm_same (·.isCanceled) hx c).trans h

theorem Sealed.post (h : Sealed c s.ft) (r : ReqId) (call : PostCall) :
    Sealed c (Impl.asyncPost env s r call).2.ft := by
  rcases asyncPost_cases env s r call with ⟨-, heq⟩ | ⟨q, f, o, p, -, -, -, -, -, heq⟩ <;> rw [heq]
  · exact h
  · show Sealed c (if env.faultTolerance then registerRequest s.ft r q.commId else s.ft)
    split
    case isFalse => exact h
    case isTrue =>
      have hcomm : ((registerRequest s.ft r q.commId).fixed.comm c).isCanceled =
          (s.ft.comm c).isCanceled := by
        rw [registerRequest_fixed]
        split <;> rfl
      exact hcomm.trans h

theorem Sealed.processComm (h : Sealed c s.ft) (now : ℤ) (beat : CommId → ℤ) (d : CommId) :
    Sealed c (processComm env now beat s d).ft := by
  rcases processComm_cases env now beat s d with ⟨-, heq⟩ | ⟨-, -, -, heq⟩ | ⟨-, -, -, heq⟩ |
    ⟨-, -, -, -, heq⟩ | ⟨-, -, -, heq⟩ <;> rw [heq]
  · exact h
  · unfold startHeartbeat
    dsimp only
    split
    case isFalse => exact h
    case isTrue =>
      have hclear : Sealed c (clearValue s.ft d) := h.setComm rfl
      have hpost := @Sealed.post env
        ⟨reset (ensureHeartbeat s.core d) (.heartbeat d), clearValue s.ft d⟩ c hclear
        (.heartbeat d)
        (.get 0 8 (s.ft.comm d).ftRemoteHeartbeatAddr (s.ft.comm d).ftRemoteHeartbeatKey true)
      split
      case isTrue => exact hpost.setComm rfl
      case isFalse => exact hpost.setComm rfl
  · exact h.setComm rfl
  · exact h.setComm rfl
  · exact h

theorem sealed_cancelComm (events : ReqId → List FabricEvent) (c : CommId) :
    Sealed c (cancelComm env events s c).ft := by
  obtain ⟨u, hprog, heq, -⟩ := cancelComm_eq env events s c
  have hmark : Sealed c (markCanceled s c).ft := by simp [Sealed, markCanceled, Ft.setComm]
  have hu : Sealed c u.ft := hmark.progress hprog
  rw [heq]
  exact hu

theorem Sealed.cancelComm (h : Sealed c s.ft) (events : ReqId → List FabricEvent) (d : CommId) :
    Sealed c (cancelComm env events s d).ft := by
  by_cases hd : d = c
  · subst hd
    exact sealed_cancelComm events d
  · obtain ⟨u, hprog, heq, -⟩ := cancelComm_eq env events s d
    have hmark : Sealed c (markCanceled s d).ft := by
      simpa [Sealed, markCanceled, Ft.setComm, Ne.symm hd] using h
    have hu : Sealed c u.ft := hmark.progress hprog
    rw [heq]
    exact hu

/-- **A communicator stays cancelled.** -/
theorem Sealed.partStep (h : Sealed c s.ft) {a : PartAction} (ht : partStep env s a = some t) :
    Sealed c t.ft := by
  cases a with
  | post k call =>
    simp only [Impl.partStep, Option.ite_none_right_eq_some, Option.some.injEq] at ht
    obtain ⟨-, rfl⟩ := ht
    exact h.post _ call
  | fabric e =>
    obtain rfl := Option.some.inj ht
    exact h.progress (fabricEvent_progressed e)
  | cancel r events =>
    obtain rfl := Option.some.inj ht
    exact h.progress (cancel_progressed r events)
  | free k events =>
    obtain rfl := Option.some.inj ht
    exact h.progress (requestFree_progressed _ events)
  | processComm now beat d =>
    obtain rfl := Option.some.inj ht
    exact h.processComm now beat d
  | cancelComm d events =>
    obtain rfl := Option.some.inj ht
    exact h.cancelComm events d
  | reportTo r d =>
    obtain rfl := Option.some.inj ht
    exact h
  | note pending canceled toCancel last count failed =>
    obtain rfl := Option.some.inj ht
    exact h
  | closeComm d events =>
    obtain rfl := Option.some.inj ht
    unfold Impl.closeComm
    split
    case isFalse => exact h
    case isTrue =>
      dsimp only
      split
      case isTrue => exact h.cancelComm events d
      case isFalse => exact h

/-- **Cancelling a communicator drains and seals it.**  From some number of rounds on the loop
is over; then nothing is outstanding on the communicator, what was outstanding is completed and
out of the queues, and `cancel_comm` frees the heartbeat.  Afterwards, while the communicator is
in the table, every post on it returns `-LFI_BROKEN_COMM`. -/
theorem cancelComm_drains_seals (env : Env) (hft : env.faultTolerance = true) (s : State)
    (h : Reachable (partStep env) Fresh s) (c : CommId) (hc : c ∈ s.ft.commIds)
    (events : ReqId → List FabricEvent) :
    ∃ xs u, Rep s.ft.reqNodes (s.ft.comm c).ftRequests xs ∧
      (∀ r, r ∈ xs ↔ s.core.onComm r = some c) ∧
      (∀ rounds, xs.length ≤ rounds →
        cancelRequests env events c rounds (markCanceled s c) = u) ∧
      Cleared u c xs ∧
      cancelComm env events s c = ⟨u.core.setRequest (.heartbeat c) none, eraseComm u.ft c⟩ ∧
      ∀ as t, exec (partStep env) (cancelComm env events s c) as = some t → c ∈ t.ft.commIds →
        ∀ r q call, t.core.requests r = some q → q.commId = c →
          asyncPost env t r call = (-lfiBrokenComm, t) := by
  have hkept := reachable_kept hft h
  obtain ⟨xs, hrep, hmem⟩ := (hkept.tracked hft).rep c hc
  have hlist := markCanceled_list s c
  have hmarked : Rep (markCanceled s c).ft.reqNodes
      ((markCanceled s c).ft.comm c).ftRequests xs := by
    rw [hlist]
    exact hrep
  have hcleared := (hkept.markCanceled c).cleared hft hc events hmarked hmem
  have hrounds : ∀ rounds, xs.length ≤ rounds → cancelRequests env events c rounds
      (markCanceled s c) = cancelRequests env events c xs.length (markCanceled s c) := by
    intro rounds hle
    obtain ⟨k, rfl⟩ := Nat.exists_eq_add_of_le hle
    rw [cancelRequests_add]
    exact cancelRequests_of_head_none (by rw [hcleared.empty]; rfl) k
  refine ⟨xs, _, hrep, hmem, hrounds, hcleared, ?_, fun as t ht hct r q call hq hqc => ?_⟩
  · have hsize : (s.ft.comm c).ftRequests.size.toNat = xs.length := by
      rw [hrep.size_eq, Int.toNat_natCast]
    rw [hkept.cancelComm_eq hft hc events, hsize]
  · have hsealed : Sealed c t.ft := exec_invariant (P := fun s => Sealed c s.ft)
      (fun _ _ _ h ht => h.partStep ht) (sealed_cancelComm events c) ht
    exact hsealed.asyncPost hct hq hqc call

/-- A send that waits in its queue and a receive that the fabric has. -/
def sendAndReceive : State :=
  (exec (partStep Env.default) (freshState {0} (fun _ => 0) 0)
    [.post 0 (.recv 7 8 1 false false), .fabric (.postPendingOps [0] 0),
      .post 1 (.send 9 8 1 false false)]).get (by decide)

/-- The fabric reports the receive while it is being cancelled. -/
theorem cancelComm_drains_sendAndReceive :
    ∃ xs u, .user 0 ∈ xs ∧ .user 1 ∈ xs ∧ Cleared u 0 xs ∧
      cancelComm Env.default (fun _ => [.success 0 8 1 5]) sendAndReceive 0 =
        ⟨u.core.setRequest (.heartbeat 0) none, eraseComm u.ft 0⟩ := by
  have hreach : Reachable (partStep Env.default) Fresh sendAndReceive :=
    ⟨_, _, fresh_freshState .., (Option.some_get _).symm⟩
  obtain ⟨xs, u, -, hmem, -, hcleared, heq, -⟩ := cancelComm_drains_seals Env.default rfl
    sendAndReceive hreach 0 (by decide) fun _ => [.success 0 8 1 5]
  exact ⟨xs, u, (hmem _).2 (by decide), (hmem _).2 (by decide), hcleared, heq⟩

end Impl
end Lfi
