/-
# How the requests of a cancelled communicator end

`cancel_comm` marks its communicator and cancels its requests.  A `cancel` completes its request
with `-LFI_BROKEN_COMM` then, unless the progress step inside it has completed the request
before; that step completes other requests of the communicator too.  What it completes them with
comes from the fabric: `-LFI_CANCELED` for an entry that says `FI_ECANCELED`, whatever became of
the communicator.  And for an inject a `cancel` does not look at the communicator:

    // The inject is not cancelled
    if (is_completed()) return;
    if (op_type != OpType::INJECT) {

`cancelComm_broken_iff` says when every request ends with `-LFI_BROKEN_COMM`, or with what the
fabric reported if that is no cancellation.
-/

import Lfi.Impl.Agreed
import Lfi.Impl.Cleared
import Lfi.Impl.Reporting

namespace Lfi
namespace Impl

open Runs

/-! ### Endings -/

/-- A completion in a call of `cancel_comm`; the fabric reported it, or the `cancel` itself
gave it. -/
structure Ending where
  done : Completion
  reported : Bool
  deriving DecidableEq, Repr

/-- The request ends as one of a broken communicator, or with what the fabric reported. -/
def Ending.Right (c : CommId) (e : Ending) : Prop :=
  e.done.commId = c →
    if e.reported then e.done.error ≠ -lfiCanceled else e.done.error = -lfiBrokenComm

/-- The state after the progress step of a `cancel`. -/
def progressIn (env : Env) (s : State) (q : LfiRequest) (events : List FabricEvent) : State :=
  progress env events ⟨eraseOps s.core q.waitContext, s.ft⟩

/-- What ends in a `cancel`. -/
def roundEndings (env : Env) (s : State) (r : ReqId) (events : List FabricEvent) : List Ending :=
  match s.core.requests r with
  | none => []
  | some q =>
      let u := progressIn env s q events
      (u.core.completions.drop s.core.completions.length).map (⟨·, true⟩) ++
        ((cancel env s r events).core.completions.drop u.core.completions.length).map (⟨·, false⟩)

/-- What ends in `rounds` rounds of the loop. -/
def loopEndings (env : Env) (events : ReqId → List FabricEvent) (c : CommId) :
    ℕ → State → List Ending
  | 0, _ => []
  | rounds + 1, s =>
      match (s.ft.comm c).ftRequests.head with
      | none => []
      | some r =>
          roundEndings env s r (events r) ++
            loopEndings env events c rounds (cancel env s r (events r))

/-- What ends in a call of `cancel_comm`. -/
def commEndings (env : Env) (events : ReqId → List FabricEvent) (s : State) (c : CommId) :
    List Ending :=
  loopEndings env events c (s.ft.comm c).ftRequests.size.toNat (markCanceled s c)

/-! ### When it goes wrong -/

/-- The event is an entry that says of an outstanding request of `c` that it was cancelled. -/
def SaysCanceled (c : CommId) (s : State) : FabricEvent → Prop
  | .error ctx err =>
      err.natAbs = fiEcanceled ∧ (∃ op ∈ s.core.inFlight, op.context = ctx) ∧
        (s.core.contexts ctx).bind s.core.onComm = some c
  | _ => False

instance (c : CommId) (s : State) : DecidablePred (SaysCanceled c s)
  | .error ctx err => inferInstanceAs (Decidable (err.natAbs = fiEcanceled ∧
      (∃ op ∈ s.core.inFlight, op.context = ctx) ∧
        (s.core.contexts ctx).bind s.core.onComm = some c))
  | .success .. | .heartbeatValue .. | .postPendingOps .. => .isFalse id

/-- The events of a progress step, one at a time. -/
def eventStep (env : Env) (s : State) (e : FabricEvent) : Option State := some (fabricEvent env s e)

/-- One round of the loop. -/
def roundStep (env : Env) (events : ReqId → List FabricEvent) (c : CommId) (s : State) :
    Unit → Option State
  | () => (s.ft.comm c).ftRequests.head.map fun r => cancel env s r (events r)

/-- The request that is cancelled is not an inject, and no entry that is read meanwhile says
that one of the communicator was cancelled. -/
def Calm (env : Env) (events : ReqId → List FabricEvent) (c : CommId) (s : State) (_ : Unit) :
    Prop :=
  ∀ r ∈ (s.ft.comm c).ftRequests.head, ∀ q ∈ s.core.requests r,
    q.opType ≠ .inject ∧
      Meets (eventStep env) (fun s e => ¬SaysCanceled c s e)
        ⟨eraseOps s.core q.waitContext, s.ft⟩ (events r)

instance (env : Env) (events : ReqId → List FabricEvent) (c : CommId) (s : State) :
    DecidablePred (Calm env events c s) := fun _ =>
  inferInstanceAs (Decidable (∀ r ∈ (s.ft.comm c).ftRequests.head, ∀ q ∈ s.core.requests r,
    q.opType ≠ .inject ∧ Meets (eventStep env) (fun s e => ¬SaysCanceled c s e)
      ⟨eraseOps s.core q.waitContext, s.ft⟩ (events r)))

variable {env : Env} {s t : State} {r : ReqId} {c : CommId}

/-! ### Completions -/

/-- The completions of `t` are those of `s` and `new`. -/
def Completes (s t : State) (new : List Completion) : Prop :=
  t.core.completions = s.core.completions ++ new

theorem Completes.drop {new : List Completion} (h : Completes s t new) :
    t.core.completions.drop s.core.completions.length = new := by
  rw [h, List.drop_left]

/-- `complete` of a request. -/
theorem complete_completes (r : ReqId) (err now : ℤ) :
    (s.core.onComm r = none ∧ Completes s (complete env s r err now) []) ∨
      ∃ d source, s.core.onComm r = some d ∧
        Completes s (complete env s r err now) [⟨r, d, err, source⟩] := by
  cases hon : s.core.onComm r with
  | none => exact .inl ⟨rfl, by simp [Completes, complete_of_onComm_none hon]⟩
  | some d =>
    obtain ⟨q, hq, hdone, rfl⟩ := Core.onComm_eq_some.1 hon
    exact .inr ⟨_, _, rfl, complete_completions hq hdone err now⟩

theorem completeAt_completes (ctx : ℕ) (err now : ℤ) :
    ((s.core.contexts ctx).bind s.core.onComm = none ∧
        Completes s (completeAt env s ctx err now) []) ∨
      ∃ r d source, (s.core.contexts ctx).bind s.core.onComm = some d ∧
        Completes s (completeAt env s ctx err now) [⟨r, d, err, source⟩] := by
  unfold completeAt
  cases hctx : s.core.contexts ctx with
  | none => exact .inl ⟨rfl, by simp [Completes]⟩
  | some r =>
    rcases @complete_completes env s r err now with ⟨hon, h⟩ | ⟨d, source, hon, h⟩
    · exact .inl ⟨hon, h⟩
    · exact .inr ⟨r, d, source, hon, h⟩

theorem receiveAt_completes (ctx len tag : ℕ) (now : ℤ) :
    ∃ new, Completes s (receiveAt env s ctx len tag now) new ∧
      ∀ x ∈ new, x.error ≠ -lfiCanceled := by
  unfold receiveAt
  cases hctx : s.core.contexts ctx with
  | none => exact ⟨[], by simp [Completes], by simp⟩
  | some r =>
    rcases @complete_completes env
      ⟨s.core.setRequest r ((s.core.requests r).map fun q => q.received len tag), s.ft⟩
      r lfiSuccess now with ⟨-, h⟩ | ⟨d, source, -, h⟩
    · exact ⟨[], h, by simp⟩
    · refine ⟨_, h, fun x hx => ?_⟩
      rw [List.mem_singleton.1 hx]
      exact (by decide : lfiSuccess ≠ -lfiCanceled)

/-- What an attempt completes it does not call cancelled. -/
theorem postOp_completes (op : LfiPendingOp) (ret now : ℤ) :
    ∃ new, Completes s (postOp env s op ret now) new ∧ ∀ x ∈ new, x.error ≠ -lfiCanceled := by
  have hat : ∀ err ≠ -lfiCanceled, ∃ new, Completes s (completeAt env s op.context err now) new ∧
      ∀ x ∈ new, x.error ≠ -lfiCanceled := by
    intro err herr
    rcases @completeAt_completes env s op.context err now with ⟨-, h⟩ |
      ⟨r, d, source, -, h⟩
    · exact ⟨[], h, by simp⟩
    · refine ⟨_, h, fun x hx => ?_⟩
      rw [List.mem_singleton.1 hx]
      exact herr
  unfold postOp
  split
  case isTrue => exact hat _ (by decide)
  case isFalse =>
    split
    case isTrue => exact hat lfiSuccess (by decide)
    case isFalse => exact ⟨[], by simp [Completes], by simp⟩

theorem processQueue_completes (ops : List LfiPendingOp) (answers : List ℤ) (s : State) (now : ℤ) :
    ∃ new, Completes s (processQueue env now ops answers s).2.2 new ∧
      ∀ x ∈ new, x.error ≠ -lfiCanceled := by
  induction ops generalizing answers s with
  | nil => exact ⟨[], by simp [Completes, processQueue], by simp⟩
  | cons op ops ih =>
    cases answers with
    | nil => exact ⟨[], by simp [Completes, processQueue], by simp⟩
    | cons ret answers =>
      unfold processQueue
      split
      case isTrue => exact ⟨[], by simp [Completes], by simp⟩
      case isFalse =>
        obtain ⟨first, hfirst, hne⟩ := @postOp_completes env s op ret now
        obtain ⟨rest, hrest, hne'⟩ := ih answers (postOp env s op ret now)
        refine ⟨first ++ rest, ?_, fun x hx => (List.mem_append.1 hx).elim (hne x) (hne' x)⟩
        rw [Completes, hrest, hfirst, List.append_assoc]

theorem postPendingOps_completes (answers : List ℤ) (now : ℤ) :
    ∃ new, Completes s (postPendingOps env s answers now) new ∧
      ∀ x ∈ new, x.error ≠ -lfiCanceled := by
  obtain ⟨first, hfirst, hne⟩ := @processQueue_completes env s.core.priorityOps answers s now
  unfold postPendingOps
  generalize processQueue env now s.core.priorityOps answers s = p at *
  dsimp only
  split
  case isFalse => exact ⟨first, hfirst, hne⟩
  case isTrue =>
    obtain ⟨rest, hrest, hne'⟩ := @processQueue_completes env p.2.2.core.pendingOps p.2.1
      ⟨{ p.2.2.core with priorityOps := p.1 }, p.2.2.ft⟩ now
    refine ⟨first ++ rest, ?_, fun x hx => (List.mem_append.1 hx).elim (hne x) (hne' x)⟩
    show (processQueue env now p.2.2.core.pendingOps p.2.1 _).2.2.core.completions = _
    rw [hrest, ← List.append_assoc]
    exact congrArg (· ++ rest) hfirst

theorem cqErrorCode_eq_canceled (err : ℤ) :
    cqErrorCode err = -lfiCanceled ↔ err.natAbs = fiEcanceled := by
  unfold cqErrorCode
  split
  case isTrue h => exact iff_of_true rfl h
  case isFalse h =>
    refine iff_of_false ?_ h
    split
    case isTrue => decide
    case isFalse => split <;> decide

/-- **What an event completes.**  It calls a request of `c` cancelled if it says so. -/
theorem fabricEvent_completes (c : CommId) (s : State) (e : FabricEvent) :
    ∃ new, Completes s (fabricEvent env s e) new ∧
      ((∀ x ∈ new, x.commId = c → x.error ≠ -lfiCanceled) ↔ ¬SaysCanceled c s e) := by
  have hquiet : ∀ {t : State}, (∃ new, Completes s t new ∧ ∀ x ∈ new, x.error ≠ -lfiCanceled) →
      ∃ new, Completes s t new ∧ ((∀ x ∈ new, x.commId = c → x.error ≠ -lfiCanceled) ↔ ¬False) := by
    rintro t ⟨new, h, hne⟩
    exact ⟨new, h, iff_of_true (fun x hx _ => hne x hx) id⟩
  cases e with
  | heartbeatValue d value => exact hquiet ⟨[], by simp [Completes, fabricEvent], by simp⟩
  | postPendingOps answers now => exact hquiet (postPendingOps_completes answers now)
  | success ctx len tag now =>
    simp only [fabricEvent]
    split
    case isFalse => exact hquiet ⟨[], by simp [Completes], by simp⟩
    case isTrue =>
      exact hquiet (receiveAt_completes (s := ⟨takeBack s.core ctx, s.ft⟩) ctx len tag now)
  | error ctx err =>
    simp only [fabricEvent, SaysCanceled]
    split
    case isFalse hnone =>
      exact ⟨[], by simp [Completes], iff_of_true (by simp) fun h => hnone h.2.1⟩
    case isTrue hop =>
      simp only [hop, true_and]
      rcases @completeAt_completes env ⟨takeBack s.core ctx, s.ft⟩ ctx
        (cqErrorCode err) 0 with ⟨hon, h⟩ | ⟨r, d, source, hon, h⟩
      · refine ⟨[], h, iff_of_true (by simp) fun hsays => ?_⟩
        cases hon.symm.trans hsays.2
      · refine ⟨_, h, ?_⟩
        have hon' : (s.core.contexts ctx).bind s.core.onComm = some d := hon
        simp only [List.mem_singleton, forall_eq, hon', Option.some.injEq, Ne,
          cqErrorCode_eq_canceled, not_and]
        exact forall_comm

/-- What a progress step completes. -/
theorem progress_completes (c : CommId) (events : List FabricEvent) (s : State) :
    ∃ new, Completes s (progress env events s) new ∧
      ((∀ x ∈ new, x.commId = c → x.error ≠ -lfiCanceled) ↔
        Meets (eventStep env) (fun s e => ¬SaysCanceled c s e) s events) := by
  induction events generalizing s with
  | nil => exact ⟨[], by simp [Completes, progress], iff_of_true (by simp) trivial⟩
  | cons e events ih =>
    obtain ⟨first, hfirst, hsays⟩ := @fabricEvent_completes env c s e
    obtain ⟨rest, hrest, hmeets⟩ := ih (fabricEvent env s e)
    refine ⟨first ++ rest, ?_, ?_⟩
    · show (progress env events (fabricEvent env s e)).core.completions = _
      rw [hrest, hfirst, List.append_assoc]
    · simp only [Meets, eventStep, Option.some.injEq, forall_eq', ← hsays, ← hmeets,
        List.mem_append, or_imp, forall_and]

/-! ### Injects -/

/-- No operation has the context `ctx`. -/
def Unheld (ctx : ℕ) (ops : List LfiPendingOp) : Prop := ∀ op ∈ ops, op.context ≠ ctx

theorem elsewhere_postPendingOps {ctx : ℕ} {s : State} (hinv : ContextInv s.core s.core.ops)
    (hunheld : Unheld ctx s.core.ops) (answers : List ℤ) (now : ℤ) :
    Elsewhere ctx s.core (postPendingOps env s answers now).core :=
  postPendingOps_induction (P := Elsewhere ctx s.core) hinv
    (fun _ _ _ _ h => h.trans (elsewhere_moveOps ..))
    (fun _ _ op ret now hop hinv' h => h.trans
      (elsewhere_postOp hinv' (hunheld op (List.mem_append_left _ hop)).symm ret now))
    (.refl ctx _) answers now

/-- An event leaves a request whose operation is gone. -/
theorem elsewhere_fabricEvent {ctx : ℕ} {s : State} (hinv : ContextInv s.core s.core.ops)
    (hunheld : Unheld ctx s.core.ops) (e : FabricEvent) :
    Elsewhere ctx s.core (fabricEvent env s e).core := by
  have hflight : ∀ op ∈ s.core.inFlight, ctx ≠ op.context := fun op hop =>
    (hunheld op (List.mem_append_right _ hop)).symm
  cases e with
  | heartbeatValue c value => exact .refl ctx _
  | postPendingOps answers now => exact elsewhere_postPendingOps hinv hunheld answers now
  | success ctx' len tag now =>
    simp only [fabricEvent]
    split
    case isFalse => exact .refl ctx _
    case isTrue hop =>
      obtain ⟨op, hop, rfl⟩ := hop
      exact elsewhere_cqSuccess hinv (hflight op hop) len tag now
  | error ctx' err =>
    simp only [fabricEvent]
    split
    case isFalse => exact .refl ctx _
    case isTrue hop =>
      obtain ⟨op, hop, rfl⟩ := hop
      exact elsewhere_cqError hinv (hflight op hop) err

theorem elsewhere_progress {ctx : ℕ} {s : State} (hinv : ContextInv s.core s.core.ops)
    (hunheld : Unheld ctx s.core.ops) (events : List FabricEvent) :
    Elsewhere ctx s.core (progress env events s).core := by
  induction events generalizing s with
  | nil => exact .refl ctx _
  | cons e events ih =>
    have hops := @fabricEvent_shrinks env s e
    exact (elsewhere_fabricEvent hinv hunheld e).trans
      (ih (hinv.fabricEvent e) fun op hop => hunheld op (hops.ops op hop))

/-- **An inject stays outstanding while it is cancelled**: its operation was in a queue. -/
theorem inject_stays (hinv : ContextInv s.core s.core.ops) (hagreed : Agreed s.core)
    {q : LfiRequest} (hq : s.core.requests r = some q) (hout : q.isCompleted = false)
    (hinject : q.opType = .inject) (events : List FabricEvent) :
    (progressIn env s q events).core.requests r = some q := by
  obtain ⟨ctx, hwait⟩ : ∃ ctx, q.waitContext = some ctx :=
    Option.isSome_iff_exists.1 (by simpa [LfiRequest.isCompleted] using hout)
  have hctx := hinv.back r q ctx hq hwait
  have hunheld : Unheld ctx (eraseOps s.core (some ctx)).ops := by
    intro op hop heq
    rcases List.mem_append.1 hop with hqueued | hflight
    · rcases List.mem_append.1 hqueued with hqueued | hqueued
      · simpa [heq] using List.of_mem_filter hqueued
      · simpa [heq] using List.of_mem_filter hqueued
    · have htype := (hagreed.agree op (List.mem_append_right _ hflight) r q (heq ▸ hctx) hq).1
      rw [hinject] at htype
      refine hagreed.accepted op hflight ?_
      cases hop : op.type <;> rw [hop] at htype <;> first | rfl | cases htype
  have hkept := @elsewhere_progress env _ ⟨eraseOps s.core (some ctx), s.ft⟩
    (hinv.eraseOps (some ctx)) hunheld events
  unfold progressIn
  rw [hwait]
  exact (hkept.request r hctx).trans hq

/-! ### Rounds -/

/-- What the loop keeps. -/
structure Cancels (env : Env) (c : CommId) (s : State) : Prop where
  kept : Kept env s
  agreed : Agreed s.core
  marked : Sealed c s.ft
  there : c ∈ s.ft.commIds

theorem Cancels.cancel (h : Cancels env c s) (r : ReqId) (events : List FabricEvent) :
    Cancels env c (cancel env s r events) where
  kept := h.kept.cancel r events
  agreed := h.agreed.progressed h.kept.accounts.contexts (h.kept.cancel r events).accounts.contexts
    (cancel_progressed r events) (cancel_shrinks s r events)
  marked := h.marked.progress (cancel_progressed r events)
  there := by
    rw [(@cancel_progressed env s r events).commIds]
    exact h.there

/-- What the `cancel` itself completes. -/
theorem cancel_completes {q : LfiRequest} (hq : s.core.requests r = some q)
    (hout : q.isCompleted = false) (events : List FabricEvent) :
    ((progressIn env s q events).core.onComm r = none ∧
        Completes (progressIn env s q events) (cancel env s r events) []) ∨
      ∃ source, (progressIn env s q events).core.onComm r = some q.commId ∧
        Completes (progressIn env s q events) (cancel env s r events)
          [⟨r, q.commId, cancelError s.ft q, source⟩] := by
  have hprog : Progressed s (progressIn env s q events) := by
    have hcore : Progressed s ⟨eraseOps s.core q.waitContext, s.ft⟩ :=
      progressed_core (by cases q.waitContext <;> rfl)
    exact hcore.trans (progress_progressed events)
  have hcancel : cancel env s r events =
      complete env (progressIn env s q events) r (cancelError s.ft q) 0 := by
    simp [cancel, cancelWith, hq, hout, progressIn]
  rw [hcancel]
  rcases @complete_completes env (progressIn env s q events) r (cancelError s.ft q) 0
    with h | ⟨d, source, hon, h⟩
  · exact .inl h
  · have hd := hprog.onComm_some hon
    simp only [Core.onComm, hq, hout, Bool.false_eq_true, if_false, Option.some.injEq] at hd
    subst hd
    exact .inr ⟨source, hon, h⟩

/-- **What goes wrong in a round.** -/
theorem roundEndings_right (h : Cancels env c s) {q : LfiRequest}
    (hq : s.core.requests r = some q) (hout : q.isCompleted = false) (hqc : q.commId = c)
    (events : List FabricEvent) :
    (∀ e ∈ roundEndings env s r events, e.Right c) ↔
      q.opType ≠ .inject ∧ Meets (eventStep env) (fun s e => ¬SaysCanceled c s e)
        ⟨eraseOps s.core q.waitContext, s.ft⟩ events := by
  obtain ⟨nested, hnested, hmeets⟩ := @progress_completes env c events
    ⟨eraseOps s.core q.waitContext, s.ft⟩
  have herase : (eraseOps s.core q.waitContext).completions = s.core.completions := by
    cases q.waitContext <;> rfl
  have hdrop : (progressIn env s q events).core.completions.drop s.core.completions.length =
      nested := by
    rw [← herase]
    exact hnested.drop
  have hcode : cancelError s.ft q = -lfiBrokenComm ↔ q.opType ≠ .inject := by
    have hmarked : (s.ft.comm c).isCanceled = true := h.marked
    unfold cancelError
    rw [hqc]
    by_cases hinject : q.opType = .inject
    · simp [hinject, lfiCanceled, lfiBrokenComm]
    · simp [hinject, h.there, hmarked]
  have hown : (∀ x ∈ (cancel env s r events).core.completions.drop
      (progressIn env s q events).core.completions.length, x.commId = c →
        x.error = -lfiBrokenComm) ↔ q.opType ≠ .inject := by
    rcases @cancel_completes env _ _ _ hq hout events with ⟨hnone, hdone⟩ |
      ⟨source, -, hdone⟩
    · rw [hdone.drop]
      refine iff_of_true (by simp) fun hinject => ?_
      have hstays := @inject_stays env _ _ h.kept.accounts.contexts h.agreed _ hq hout hinject
        events
      simp [Core.onComm, hstays, hout] at hnone
    · rw [hdone.drop]
      simpa [hqc] using hcode
  simp only [roundEndings, hq, hdrop, List.mem_append, List.mem_map, or_imp, forall_and,
    forall_exists_index, and_imp, forall_apply_eq_imp_iff₂, Ending.Right, if_true,
    Bool.false_eq_true, if_false]
  rw [hown, hmeets, and_comm]

theorem loopEndings_right (h : Cancels env c s) (hft : env.faultTolerance = true)
    (events : ReqId → List FabricEvent) (rounds : ℕ) :
    (∀ e ∈ loopEndings env events c rounds s, e.Right c) ↔
      Meets (roundStep env events c) (Calm env events c) s (List.replicate rounds ()) := by
  induction rounds generalizing s with
  | zero => exact iff_of_true (by simp [loopEndings]) trivial
  | succ rounds ih =>
    rw [List.replicate_succ, loopEndings]
    cases hhead : (s.ft.comm c).ftRequests.head with
    | none => exact iff_of_true (by simp) ⟨by simp [Calm, hhead], by simp [roundStep, hhead]⟩
    | some r =>
      obtain ⟨xs, hrep, hmem⟩ := (h.kept.tracked hft).rep c h.there
      have hon := (hmem r).1 (List.mem_of_mem_head? (hrep.head_eq ▸ hhead))
      obtain ⟨q, hq, hout, hqc⟩ := Core.onComm_eq_some.1 hon
      have hround := roundEndings_right h hq hout hqc (events r)
      have hcalm : Calm env events c s () ↔ q.opType ≠ .inject ∧
          Meets (eventStep env) (fun s e => ¬SaysCanceled c s e)
            ⟨eraseOps s.core q.waitContext, s.ft⟩ (events r) := by
        simp [Calm, hhead, hq]
      simp only [List.mem_append, or_imp, forall_and, hround, Meets, hcalm, roundStep, hhead,
        Option.map_some, Option.some.injEq, forall_eq', ih (h.cancel r (events r))]

/-- The endings are the completions of the loop. -/
theorem roundEndings_done (hq : s.core.onComm r = some c) (events : List FabricEvent) :
    Completes s (cancel env s r events) ((roundEndings env s r events).map (·.done)) := by
  obtain ⟨q, hq, hout, -⟩ := Core.onComm_eq_some.1 hq
  obtain ⟨nested, hnested, -⟩ := @progress_completes env c events
    ⟨eraseOps s.core q.waitContext, s.ft⟩
  have herase : (eraseOps s.core q.waitContext).completions = s.core.completions := by
    cases q.waitContext <;> rfl
  have hfirst : Completes s (progressIn env s q events) nested := by
    show _ = s.core.completions ++ nested
    rw [← herase]
    exact hnested
  obtain ⟨own, hown⟩ :
      ∃ own, Completes (progressIn env s q events) (cancel env s r events) own := by
    rcases @cancel_completes env _ _ _ hq hout events with ⟨-, h⟩ | ⟨source, -, h⟩
    · exact ⟨_, h⟩
    · exact ⟨_, h⟩
  simp only [roundEndings, hq, hfirst.drop, hown.drop, List.map_append, List.map_map,
    Function.comp_def, List.map_id']
  rw [Completes, hown, hfirst, List.append_assoc]

theorem loopEndings_done (h : Cancels env c s) (hft : env.faultTolerance = true)
    (events : ReqId → List FabricEvent) (rounds : ℕ) :
    Completes s (cancelRequests env events c rounds s)
      ((loopEndings env events c rounds s).map (·.done)) := by
  induction rounds generalizing s with
  | zero => simp [Completes, cancelRequests, loopEndings]
  | succ rounds ih =>
    rw [cancelRequests, loopEndings]
    cases hhead : (s.ft.comm c).ftRequests.head with
    | none => simp [Completes]
    | some r =>
      obtain ⟨xs, hrep, hmem⟩ := (h.kept.tracked hft).rep c h.there
      have hon := (hmem r).1 (List.mem_of_mem_head? (hrep.head_eq ▸ hhead))
      have hround := @roundEndings_done env _ _ _ hon (events r)
      have hrest := ih (h.cancel r (events r))
      rw [Completes] at hround hrest ⊢
      rw [List.map_append, ← List.append_assoc, ← hround, ← hrest]

/-- **Broken is reported as broken** exactly when no inject is cancelled and no entry that is
read in a `cancel` says that a request of the communicator was cancelled. -/
theorem cancelComm_broken_iff (env : Env) (hft : env.faultTolerance = true) (s : State)
    (h : Reachable (partStep env) Fresh s) (c : CommId) (hc : c ∈ s.ft.commIds)
    (events : ReqId → List FabricEvent) :
    Completes s (cancelComm env events s c) ((commEndings env events s c).map (·.done)) ∧
      ((∀ e ∈ commEndings env events s c, e.Right c) ↔
        Meets (roundStep env events c) (Calm env events c) (markCanceled s c)
          (List.replicate (s.ft.comm c).ftRequests.size.toNat ())) := by
  obtain ⟨hkept, hagreed⟩ := reachable_agreed hft h
  have hstart : Cancels env c (markCanceled s c) :=
    ⟨hkept.markCanceled c, hagreed, by simp [Sealed, markCanceled, Ft.setComm], hc⟩
  refine ⟨?_, loopEndings_right hstart hft events _⟩
  rw [hkept.cancelComm_eq hft hc events]
  exact loopEndings_done hstart hft events _

/-- An endpoint that injects small messages. -/
def injecting : Env := { Env.default with useInject := true }

/-- An inject in its queue, and a receive that the fabric has. -/
def injectAndReceive : State :=
  (exec (partStep injecting) (freshState {0} (fun _ => 0) 0)
    [.post 0 (.recv 7 8 1 false false), .fabric (.postPendingOps [0] 0),
      .post 1 (.send 9 8 1 false false)]).get (by decide)

theorem reachable_injectAndReceive :
    Reachable (partStep injecting) Fresh injectAndReceive :=
  ⟨_, _, fresh_freshState .., (Option.some_get _).symm⟩

/-- The fabric says that the receive was cancelled; so does `cancel` of the inject. -/
theorem cancelComm_canceled :
    Reachable (partStep injecting) Fresh injectAndReceive ∧
      commEndings injecting (fun _ => [.error 0 125]) injectAndReceive 0 =
        [⟨⟨.user 0, 0, -lfiCanceled, 0⟩, true⟩, ⟨⟨.user 1, 0, -lfiCanceled, 0⟩, false⟩] ∧
      ∃ e ∈ commEndings injecting (fun _ => [.error 0 125]) injectAndReceive 0, ¬e.Right 0 := by
  have hendings : commEndings injecting (fun _ => [.error 0 125]) injectAndReceive 0 =
      [⟨⟨.user 0, 0, -lfiCanceled, 0⟩, true⟩, ⟨⟨.user 1, 0, -lfiCanceled, 0⟩, false⟩] := by
    decide +kernel
  refine ⟨reachable_injectAndReceive, hendings, ?_⟩
  rw [hendings]
  exact ⟨_, List.mem_cons_self .., fun h => h rfl rfl⟩

/-- While another thread leads, a send and a receive end as they should. -/
theorem cancelComm_broken_sendAndReceive :
    (commEndings Env.default (fun _ => []) sendAndReceive 0).length = 2 ∧
      ∀ e ∈ commEndings Env.default (fun _ => []) sendAndReceive 0, e.Right 0 := by
  have hreach : Reachable (partStep Env.default) Fresh sendAndReceive :=
    ⟨_, _, fresh_freshState .., (Option.some_get _).symm⟩
  exact ⟨by decide +kernel, (cancelComm_broken_iff Env.default rfl sendAndReceive hreach 0
    (by decide) fun _ => []).2.2 (by decide +kernel)⟩

end Impl
end Lfi
