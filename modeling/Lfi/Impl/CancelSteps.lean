/-
# Cancels in steps

`cancel` takes the operation out of its queue and finds the request outstanding, asks the
fabric to cancel, runs a progress step, which does nothing while another thread leads, and then
completes the request by itself.  Here these parts are steps of their own, and between them
come entries, posts and other cancels: the user's, those of `cancel_comm` and those of the
any-comm reports.  The last part is `complete`, whose check and whose body are two steps again.

The cancels of the other modules, which nothing interrupts, are runs of these steps
(`interleaved_cancel`, `interleaved_cancelComm`).
-/

import Lfi.Impl.Completion
import Lfi.Impl.Receives

namespace Lfi
namespace Impl

open Runs

/-- A `cancel` that is under way: its request, its `cancel_error`, and whether its `complete`
has found the request outstanding. -/
structure CancelCall where
  req : ReqId
  err : ℤ
  checked : Bool
  deriving DecidableEq, Repr

/-- An endpoint and the cancels under way.  `givenUp` is history: the operations whose request
a cancel has completed while they were still there. -/
structure Cancelling where
  ep : State
  cancels : List CancelCall
  givenUp : List LfiPendingOp

/-- What happens.  `reset` is what `process_comm` does to a heartbeat before it posts it, and
`monitor` whatever else fault tolerance does to its own half. -/
inductive CancelAction where
  | create (r : ReqId) (c : CommId)
  | reset (r : ReqId)
  | post (r : ReqId) (call : PostCall)
  | free (r : ReqId)
  | fabric (e : FabricEvent)
  | monitor (ft : Ft)
  | report (r : ReqId) (c : CommId)
  | cancel (r : ReqId)
  | check (k : ℕ)
  | complete (k : ℕ)

/-- One action.  A request is used again, or freed, when it is completed, and freed when no
cancel of it is under way. -/
def cancelStep (env : Env) (s : Cancelling) : CancelAction → Option Cancelling
  | .create r c =>
      if s.ep.core.requests r = none then
        some { s with ep := ⟨s.ep.core.setRequest r (some (LfiRequest.new c)), s.ep.ft⟩ }
      else none
  | .reset r =>
      if s.ep.core.onComm r = none then
        some { s with ep := ⟨Impl.reset s.ep.core r, s.ep.ft⟩ }
      else none
  | .post r call =>
      if s.ep.core.onComm r = none then some { s with ep := (asyncPost env s.ep r call).2 }
      else none
  | .free r =>
      if s.ep.core.onComm r = none ∧ ∀ call ∈ s.cancels, call.req ≠ r then
        some { s with ep := ⟨s.ep.core.setRequest r none, s.ep.ft⟩ }
      else none
  | .fabric e => some { s with ep := fabricEvent env s.ep e }
  | .monitor ft => some { s with ep := ⟨s.ep.core, ft⟩ }
  | .report r c =>
      if s.ep.core.onComm r = none then none else some { s with ep := reportTo s.ep r c }
  | .cancel r =>
      match s.ep.core.requests r with
      | none => none
      | some q =>
          some { s with
            ep := ⟨eraseOps s.ep.core q.waitContext, s.ep.ft⟩
            cancels := s.cancels ++
              if q.isCompleted then [] else [⟨r, cancelError s.ep.ft q, false⟩] }
  | .check k =>
      match s.cancels[k]? with
      | some ⟨r, err, false⟩ =>
          some { s with
            cancels := if s.ep.core.onComm r = none then s.cancels.eraseIdx k
              else s.cancels.set k ⟨r, err, true⟩ }
      | _ => none
  | .complete k =>
      match s.cancels[k]? with
      | some ⟨r, err, true⟩ =>
          some
            { ep := ⟨completeBody s.ep.core r err, completeFt env s.ep r err 0⟩
              cancels := s.cancels.eraseIdx k
              givenUp := s.givenUp ++ s.ep.core.waiting r }
      | _ => none

/-- What the actions do. -/
inductive CancelMoves (env : Env) (s : Cancelling) : CancelAction → Cancelling → Prop where
  | create {r c} (hr : s.ep.core.requests r = none) : CancelMoves env s (.create r c)
      { s with ep := ⟨s.ep.core.setRequest r (some (LfiRequest.new c)), s.ep.ft⟩ }
  | reset {r} (hr : s.ep.core.onComm r = none) :
      CancelMoves env s (.reset r) { s with ep := ⟨Impl.reset s.ep.core r, s.ep.ft⟩ }
  | post {r call} (hr : s.ep.core.onComm r = none) :
      CancelMoves env s (.post r call) { s with ep := (asyncPost env s.ep r call).2 }
  | free {r} (hr : s.ep.core.onComm r = none) (hcalls : ∀ call ∈ s.cancels, call.req ≠ r) :
      CancelMoves env s (.free r) { s with ep := ⟨s.ep.core.setRequest r none, s.ep.ft⟩ }
  | fabric {e} : CancelMoves env s (.fabric e) { s with ep := fabricEvent env s.ep e }
  | monitor {ft} : CancelMoves env s (.monitor ft) { s with ep := ⟨s.ep.core, ft⟩ }
  | report {r c} (hr : s.ep.core.onComm r ≠ none) :
      CancelMoves env s (.report r c) { s with ep := reportTo s.ep r c }
  | cancel {r q} (hq : s.ep.core.requests r = some q) : CancelMoves env s (.cancel r)
      { s with
        ep := ⟨eraseOps s.ep.core q.waitContext, s.ep.ft⟩
        cancels := s.cancels ++
          if q.isCompleted then [] else [⟨r, cancelError s.ep.ft q, false⟩] }
  | check {k r err} (hcall : s.cancels[k]? = some ⟨r, err, false⟩) :
      CancelMoves env s (.check k)
        { s with
          cancels := if s.ep.core.onComm r = none then s.cancels.eraseIdx k
            else s.cancels.set k ⟨r, err, true⟩ }
  | complete {k r err} (hcall : s.cancels[k]? = some ⟨r, err, true⟩) :
      CancelMoves env s (.complete k)
        { ep := ⟨completeBody s.ep.core r err, completeFt env s.ep r err 0⟩
          cancels := s.cancels.eraseIdx k
          givenUp := s.givenUp ++ s.ep.core.waiting r }

/-- **What a step can do.** -/
theorem cancelStep_cases {env : Env} {s t : Cancelling} {a : CancelAction}
    (ht : cancelStep env s a = some t) : CancelMoves env s a t := by
  cases a with
  | create r c =>
      simp only [cancelStep, Option.ite_none_right_eq_some, Option.some.injEq] at ht
      obtain ⟨hr, rfl⟩ := ht
      exact .create hr
  | reset r =>
      simp only [cancelStep, Option.ite_none_right_eq_some, Option.some.injEq] at ht
      obtain ⟨hr, rfl⟩ := ht
      exact .reset hr
  | post r call =>
      simp only [cancelStep, Option.ite_none_right_eq_some, Option.some.injEq] at ht
      obtain ⟨hr, rfl⟩ := ht
      exact .post hr
  | free r =>
      simp only [cancelStep, Option.ite_none_right_eq_some, Option.some.injEq] at ht
      obtain ⟨hr, rfl⟩ := ht
      exact .free hr.1 hr.2
  | fabric e =>
      obtain rfl := Option.some.inj ht
      exact .fabric
  | monitor ft =>
      obtain rfl := Option.some.inj ht
      exact .monitor
  | report r c =>
      simp only [cancelStep] at ht
      split at ht
      case isTrue => cases ht
      case isFalse hr =>
        obtain rfl := Option.some.inj ht
        exact .report hr
  | cancel r =>
      simp only [cancelStep] at ht
      split at ht
      case h_1 => cases ht
      case h_2 q hq =>
        obtain rfl := Option.some.inj ht
        exact .cancel hq
  | check k =>
      simp only [cancelStep] at ht
      split at ht
      case h_2 => cases ht
      case h_1 r err hcall =>
        obtain rfl := Option.some.inj ht
        exact .check hcall
  | complete k =>
      simp only [cancelStep] at ht
      split at ht
      case h_2 => cases ht
      case h_1 r err hcall =>
        obtain rfl := Option.some.inj ht
        exact .complete hcall

/-- A fresh endpoint on which no cancel is under way. -/
structure CancelStart (s : Cancelling) : Prop where
  fresh : Fresh s.ep
  cancels : s.cancels = []
  givenUp : s.givenUp = []

/-! ### A cancel in one go -/

/-- Some run of these steps, which leaves no cancel under way, leads from `s` to `t`. -/
def Interleaved (env : Env) (s t : State) : Prop :=
  ∀ g, ∃ as g', exec (cancelStep env) ⟨s, [], g⟩ as = some ⟨t, [], g'⟩

theorem Interleaved.trans {env : Env} {s t u : State} (h₁ : Interleaved env s t)
    (h₂ : Interleaved env t u) : Interleaved env s u := fun g => by
  obtain ⟨as, g₁, has⟩ := h₁ g
  obtain ⟨bs, g₂, hbs⟩ := h₂ g₁
  refine ⟨as ++ bs, g₂, ?_⟩
  rw [exec_append, has, Option.bind_some, hbs]

/-- One step that leaves the cancels as they are. -/
theorem interleaved_of_step {env : Env} {s t : State} {a : CancelAction}
    (h : ∀ g, cancelStep env ⟨s, [], g⟩ a = some ⟨t, [], g⟩) : Interleaved env s t :=
  fun g => ⟨[a], g, by rw [exec_cons, h, Option.bind_some, exec_nil]⟩

/-- A progress step, with some cancels under way. -/
theorem exec_fabric (env : Env) (s : State) (cancels : List CancelCall) (g : List LfiPendingOp)
    (events : List FabricEvent) :
    exec (cancelStep env) ⟨s, cancels, g⟩ (events.map .fabric) =
      some ⟨progress env events s, cancels, g⟩ := by
  induction events generalizing s with
  | nil => rfl
  | cons e events ih => exact ih (fabricEvent env s e)

/-- The `complete` at the end of a cancel, when nothing happens inside it. -/
theorem exec_complete (env : Env) (s : State) (r : ReqId) (err : ℤ) (g : List LfiPendingOp) :
    ∃ as g', exec (cancelStep env) ⟨s, [⟨r, err, false⟩], g⟩ as =
      some ⟨complete env s r err 0, [], g'⟩ := by
  cases hon : s.core.onComm r with
  | none =>
      rw [complete_of_onComm_none hon]
      exact ⟨[.check 0], g, by simp [cancelStep, hon]⟩
  | some c =>
      obtain ⟨q, hq, rfl, -, heq⟩ := @complete_of_onComm_some env _ _ _ err 0 hon
      rw [heq]
      exact ⟨[.check 0, .complete 0], g ++ s.core.waiting r,
        by simp [cancelStep, hon, completeFt, hq]⟩

/-- **A `cancel` in one go is a run of its steps.** -/
theorem interleaved_cancel (env : Env) (s : State) (r : ReqId) (events : List FabricEvent) :
    Interleaved env s (cancel env s r events) := fun g => by
  cases hq : s.core.requests r with
  | none =>
      rw [cancel_of_none hq]
      exact ⟨[], g, rfl⟩
  | some q =>
      cases hdone : q.isCompleted with
      | true =>
        rw [cancel_of_completed hq hdone]
        exact ⟨[.cancel r], g, by simp [cancelStep, hq, hdone]⟩
      | false =>
        rw [cancel_of_outstanding hq hdone]
        obtain ⟨as, g', has⟩ := exec_complete env
          (progress env events ⟨eraseOps s.core q.waitContext, s.ft⟩) r (cancelError s.ft q) g
        refine ⟨.cancel r :: (events.map .fabric ++ as), g', ?_⟩
        rw [exec_cons, cancelStep, hq]
        simp only [hdone, Bool.false_eq_true, if_false, List.nil_append, Option.bind_some]
        rw [exec_append, exec_fabric, Option.bind_some, has]

/-- Freeing a request cancels it first. -/
theorem interleaved_requestFree (env : Env) (s : State) (r : ReqId) (events : List FabricEvent) :
    Interleaved env s (requestFree env s r events) :=
  requestFree_induction (P := Interleaved env s)
    (fun t h => h.trans (interleaved_cancel env t r events))
    (fun t hr h => h.trans (interleaved_of_step (a := .free r) fun g => by simp [cancelStep, hr]))
    fun g => ⟨[], g, rfl⟩

/-- So do the cancels of a communicator. -/
theorem interleaved_cancelComm (env : Env) (events : ReqId → List FabricEvent) (s : State)
    (c : CommId) : Interleaved env s (cancelComm env events s c) := by
  have hmonitor : ∀ (s : State) (ft : Ft), Interleaved env s ⟨s.core, ft⟩ := fun s ft =>
    interleaved_of_step (a := .monitor ft) fun g => rfl
  have hloop := @cancelRequests_induction env (markCanceled s c) (Interleaved env s) events c
    (fun t r _ h => h.trans (interleaved_cancel env t r (events r))) (hmonitor s _)
  exact ((hloop _).trans (interleaved_requestFree env _ _ [])).trans (hmonitor _ _)

end Impl
end Lfi
