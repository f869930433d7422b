/-
# Heartbeats

A communicator with requests that has been silent for a while gets a heartbeat: `process_comm`
posts a remote read of a known word into `ft_value_heartbeat`, and in later passes looks whether
its request is completed and the word is there.

    int32_t elapsed_ms_pp =
        std::chrono::duration_cast<std::chrono::milliseconds>(
            now - comm->ft_heartbeat_time_point).count();
    if (elapsed_ms_pp > std::max(ft_ms, 1000)) {
        canceled_coms.emplace_back(comm->rank_peer);
        comm->ft_current_status = lfi_comm::ft_status::ERROR;
    }

Between two calls of `process_comm` anything else happens: the user posts, cancels and frees,
entries are read, the word is written while the read is in flight, and communicators are
cancelled and closed.  `cancel_comm` and `close_comm` are made of such steps too
(`covers_cancelComm`, `covers_closeComm`).
-/

import Lfi.Impl.Engine

namespace Lfi
namespace Impl

open Runs

/-! ### Runs -/

/-- A heartbeat: the number of its post, and what the clock read after it. -/
structure Beat where
  post : ℕ
  time : ℤ
  deriving DecidableEq, Repr

/-- An endpoint.  The rest is history: the last heartbeat of each communicator, the last word a
heartbeat has written with the number of its post, and whom `process_comm` has put in
`ft_canceled_coms`. -/
structure Beating where
  ep : State
  beats : CommId → Option Beat
  landed : CommId → Option (ℕ × ℕ)
  given : List CommId

/-- What happens.  `cancel`, `complete` and `free` are the parts of a `cancel` and of
`~lfi_request()`; `cancelComm` is the first assignment of `cancel_comm`, in a pass or in
`close_comm`, `eraseComm` its last and `removeComm` that of `close_comm`; `note` is what a pass
writes into its own fields, and `clear` its last assignment. -/
inductive BeatAction where
  | create (k : ℕ) (c : CommId)
  | post (k : ℕ) (call : PostCall)
  | fabric (e : FabricEvent)
  | land (op : LfiPendingOp) (c : CommId) (value : ℕ)
  | cancel (r : ReqId)
  | complete (r : ReqId) (err : ℤ)
  | free (r : ReqId)
  | report (r : ReqId) (c : CommId)
  | processComm (c : CommId) (now beat : ℤ)
  | cancelComm (c : CommId)
  | eraseComm (c : CommId)
  | removeComm (c : CommId)
  | note (pending : Finset CommId) (toCancel : List ReqId) (last : ℤ) (count : ℕ)
      (failed : List CommId)
  | clear

/-- A heartbeat is cancelled by the `cancel_comm` of its communicator only. -/
def MayCancel (s : Ft) : ReqId → Prop
  | .user _ => True
  | .heartbeat c => (s.comm c).isCanceled = true

instance (s : Ft) : DecidablePred (MayCancel s)
  | .user _ => .isTrue trivial
  | .heartbeat _ => inferInstanceAs (Decidable (_ = true))

/-- It is freed there too, when nothing is outstanding any more. -/
def MayFree (s : Ft) : ReqId → Prop
  | .user _ => True
  | .heartbeat c => (s.comm c).isCanceled = true ∧ (s.comm c).ftRequests.head = none

instance (s : Ft) : DecidablePred (MayFree s)
  | .user _ => .isTrue trivial
  | .heartbeat _ => inferInstanceAs (Decidable (_ ∧ _))

/-- `process_comm(comm)`; `beat` is what the clock reads after a heartbeat is posted. -/
def Beating.process (env : Env) (w : Beating) (c : CommId) (now beat : ℤ) : Beating :=
  let ep := processComm env now (fun _ => beat) w.ep c
  { w with
    ep := ep
    beats := if ep.core.posts = w.ep.core.posts then w.beats
      else Function.update w.beats c (some ⟨w.ep.core.posts, beat⟩)
    given := w.given ++ ep.ft.ftCanceledComs.drop w.ep.ft.ftCanceledComs.length }

/-- One action.  A word is written by a heartbeat in flight.  A pass may come to a communicator
while it is closed: both hold `m_comms_mutex` shared. -/
def beatStep (env : Env) (w : Beating) : BeatAction → Option Beating
  | .create k c =>
      if w.ep.core.requests (.user k) = none then
        some { w with ep := ⟨w.ep.core.setRequest (.user k) (some (LfiRequest.new c)), w.ep.ft⟩ }
      else none
  | .post k call =>
      if w.ep.core.onComm (.user k) = none then
        some { w with ep := (asyncPost env w.ep (.user k) call).2 }
      else none
  | .fabric (.heartbeatValue _ _) => none
  | .fabric e => some { w with ep := fabricEvent env w.ep e }
  | .land op c value =>
      if op ∈ w.ep.core.inFlight ∧ op.owner = .heartbeat c then
        some { w with
          ep := fabricEvent env w.ep (.heartbeatValue c value)
          landed := Function.update w.landed c (some (op.post, value)) }
      else none
  | .cancel r =>
      match w.ep.core.requests r with
      | none => none
      | some q =>
          if MayCancel w.ep.ft r then
            some { w with ep := ⟨eraseOps w.ep.core q.waitContext, w.ep.ft⟩ }
          else none
  | .complete r err =>
      if MayCancel w.ep.ft r ∧ err ≠ lfiSuccess then
        some { w with ep := Impl.complete env w.ep r err 0 }
      else none
  | .free r =>
      if MayFree w.ep.ft r ∧ w.ep.core.onComm r = none then
        some { w with ep := ⟨w.ep.core.setRequest r none, w.ep.ft⟩ }
      else none
  | .report r c => some { w with ep := reportTo w.ep r c }
  | .processComm c now beat =>
      if env.faultTolerance = true ∧ c ∈ w.ep.ft.commIds ∧ isAnyComm c = false then
        some (w.process env c now beat)
      else none
  | .cancelComm c =>
      if env.faultTolerance = true ∧ c ∈ w.ep.ft.commIds then
        some { w with ep := markCanceled w.ep c }
      else none
  | .eraseComm c =>
      if (w.ep.ft.comm c).isCanceled = true then
        some { w with ep := { w.ep with ft := Impl.eraseComm w.ep.ft c } }
      else none
  | .removeComm c =>
      if (w.ep.ft.comm c).isCanceled = true then
        some { w with ep :=
          { w.ep with ft := { w.ep.ft with commIds := w.ep.ft.commIds.erase c } } }
      else none
  | .note pending toCancel last count failed =>
      some { w with ep := ⟨w.ep.core, { w.ep.ft with
        ftPendingFailedComms := pending
        ftRequestsToCancel := toCancel
        ftLastProgress := last
        ftProgressCount := count
        failed := failed }⟩ }
  | .clear => some { w with ep := ⟨w.ep.core, { w.ep.ft with ftCanceledComs := [] }⟩ }

/-- Before anything happens. -/
def Beating.start (s : State) : Beating := ⟨s, fun _ => none, fun _ => none, []⟩

/-! ### Cancels in one go -/

variable {env : Env} {s t u : State} {c : CommId}

/-- Some run leads from `s` to `t`, and gives nobody a heartbeat. -/
def Covers (env : Env) (s t : State) : Prop :=
  ∀ w : Beating, w.ep = s → ∃ as, exec (beatStep env) w as = some { w with ep := t }

theorem Covers.refl (s : State) : Covers env s s := fun w hw => ⟨[], by rw [← hw]; rfl⟩

theorem Covers.trans (h₁ : Covers env s t) (h₂ : Covers env t u) : Covers env s u := by
  intro w hw
  obtain ⟨as, has⟩ := h₁ w hw
  obtain ⟨bs, hbs⟩ := h₂ { w with ep := t } rfl
  exact ⟨as ++ bs, by rw [exec_append, has, Option.bind_some, hbs]⟩

/-- One step. -/
theorem covers_of_step {a : BeatAction}
    (h : ∀ w : Beating, w.ep = s → beatStep env w a = some { w with ep := t }) :
    Covers env s t := fun w hw => ⟨[a], by rw [exec_cons, h w hw, Option.bind_some, exec_nil]⟩

/-- The event writes no word. -/
def FabricEvent.Entry : FabricEvent → Prop
  | .heartbeatValue .. => False
  | _ => True

theorem covers_progress {events : List FabricEvent} (h : ∀ e ∈ events, e.Entry) (s : State) :
    Covers env s (progress env events s) := by
  induction events generalizing s with
  | nil => exact .refl s
  | cons e events ih =>
      have hstep : Covers env s (fabricEvent env s e) := by
        refine covers_of_step (a := .fabric e) fun w hw => ?_
        have he := h e List.mem_cons_self
        match e with
        | .heartbeatValue .. => cases he
        | .success .. | .error .. | .postPendingOps .. => rw [← hw]; rfl
      exact hstep.trans (ih (fun e he => h e (List.mem_cons_of_mem _ he)) _)

theorem MayCancel.progress {r : ReqId} (h : MayCancel s.ft r) (hprog : Progressed s t) :
    MayCancel t.ft r := by
  cases r with
  | user k => trivial
  | heartbeat c => exact (hprog.isCanceled c).trans h

theorem covers_cancel {r : ReqId} (hr : MayCancel s.ft r) {events : List FabricEvent}
    (h : ∀ e ∈ events, e.Entry) : Covers env s (cancel env s r events) := by
  refine (cancel_parts (P := fun t => Covers env s t ∧ MayCancel t.ft r) (fun q hq => ⟨?_, hr⟩)
    (fun t ht => ⟨ht.1.trans (covers_progress h t), ht.2.progress (progress_progressed events)⟩)
    (fun t err herr ht => ⟨ht.1.trans ?_, ht.2.progress (complete_progressed r err 0)⟩)
    ⟨.refl s, hr⟩).1
  · exact covers_of_step (a := .cancel r) fun w hw => by
      subst hw
      simp [beatStep, hq, hr]
  · refine covers_of_step (a := .complete r err) fun w hw => ?_
    have hmay := ht.2
    rw [← hw] at hmay ⊢
    simp [beatStep, hmay, herr]

/-- A heartbeat in the list of a communicator is its own. -/
theorem mayCancel_head (h : Tracked s) (hids : HeartbeatIds s.core) (hc : c ∈ s.ft.commIds)
    (hcan : (s.ft.comm c).isCanceled = true) {r : ReqId}
    (hr : (s.ft.comm c).ftRequests.head = some r) : MayCancel s.ft r := by
  obtain ⟨xs, hrep, hmem⟩ := h.rep c hc
  have hon := (hmem r).1 (List.mem_of_mem_head? (hrep.head_eq ▸ hr))
  cases r with
  | user k => trivial
  | heartbeat d =>
      obtain ⟨q, hq, -, hqc⟩ := Core.onComm_eq_some.1 hon
      have hdc : d = c := (hids d q hq).symm.trans hqc
      exact hdc ▸ hcan

theorem covers_cancelRequests (h : Tracked s) (hids : HeartbeatIds s.core)
    (hft : env.faultTolerance = true) (hc : c ∈ s.ft.commIds)
    (hcan : (s.ft.comm c).isCanceled = true) {events : ReqId → List FabricEvent}
    (hevents : ∀ r, ∀ e ∈ events r, e.Entry) (fuel : ℕ) :
    Covers env s (cancelRequests env events c fuel s) := by
  refine (cancelRequests_induction
    (P := fun t => Covers env s t ∧ Progressed s t ∧ Tracked t) (fun t r hr ht => ?_)
    ⟨.refl s, .refl s, h⟩ fuel).1
  obtain ⟨hcovers, hprog, htracked⟩ := ht
  have hmay : MayCancel t.ft r := mayCancel_head htracked (hids.progress hprog)
    (hprog.commIds ▸ hc) ((hprog.isCanceled c).trans hcan) hr
  exact ⟨hcovers.trans (covers_cancel hmay (hevents r)),
    hprog.trans (cancel_progressed r (events r)), htracked.cancel hft r (events r)⟩

/-- The heartbeat of a communicator on which nothing is outstanding is freed. -/
theorem covers_requestFree (h : Tracked s) (hids : HeartbeatIds s.core) (hc : c ∈ s.ft.commIds)
    (hcan : (s.ft.comm c).isCanceled = true) (hnone : ∀ r, s.core.onComm r ≠ some c) :
    Covers env s (requestFree env s (.heartbeat c) []) ∧
      (requestFree env s (.heartbeat c) []).ft = s.ft := by
  have hhead : (s.ft.comm c).ftRequests.head = none := by
    obtain ⟨xs, hrep, hmem⟩ := h.rep c hc
    rw [hrep.head_eq_none, List.eq_nil_iff_forall_not_mem]
    exact fun r hr => hnone r ((hmem r).1 hr)
  have hon : s.core.onComm (.heartbeat c) = none := by
    rw [Option.eq_none_iff_forall_ne_some]
    intro d hd
    obtain ⟨q, hq, -, hqc⟩ := Core.onComm_eq_some.1 hd
    exact hnone _ (hd.trans (congrArg some (hqc.symm.trans (hids c q hq))))
  cases hq : s.core.requests (.heartbeat c) with
  | none =>
      rw [requestFree_of_none hq]
      exact ⟨.refl s, rfl⟩
  | some q =>
      rw [requestFree_of_completed hq (by simpa [Core.onComm, hq] using hon)]
      refine ⟨covers_of_step (a := .free (.heartbeat c)) fun w hw => ?_, rfl⟩
      subst hw
      simp [beatStep, MayFree, hcan, hhead, hon]

/-- **`cancel_comm` in one go.** -/
theorem covers_cancelComm (h : Tracked s) (hids : HeartbeatIds s.core)
    (hft : env.faultTolerance = true) (hc : c ∈ s.ft.commIds) {events : ReqId → List FabricEvent}
    (hevents : ∀ r, ∀ e ∈ events r, e.Entry) :
    Covers env s (cancelComm env events s c) ∧
      ((cancelComm env events s c).ft.comm c).isCanceled = true := by
  have hmark : Covers env s (markCanceled s c) :=
    covers_of_step (a := .cancelComm c) fun w hw => by
      subst hw
      simp [beatStep, hft, hc]
  have htracked : Tracked (markCanceled s c) := h.setComm rfl rfl
  have hcan : ((markCanceled s c).ft.comm c).isCanceled = true := by
    rw [markCanceled, Ft.setComm_comm, if_pos rfl]
  have hloop := @cancelRequests_progressed env (markCanceled s c) events c
    ((markCanceled s c).ft.comm c).ftRequests.size.toNat
  have hdone := htracked.cancelRequests hft events c
    ((markCanceled s c).ft.comm c).ftRequests.size.toNat
  have hdrained := cancelRequests_drains htracked hft hc events (Nat.le_refl _)
  have hcovers := hmark.trans (covers_cancelRequests htracked hids hft hc hcan hevents
    ((markCanceled s c).ft.comm c).ftRequests.size.toNat)
  have hcan' := (hloop.isCanceled c).trans hcan
  obtain ⟨hfree, hsame⟩ := @covers_requestFree env _ c hdone
    (HeartbeatIds.progress (s := markCanceled s c) hids hloop) (hloop.commIds ▸ hc) hcan' hdrained
  rw [← hsame] at hcan'
  refine ⟨(hcovers.trans hfree).trans (covers_of_step (a := .eraseComm c) fun w hw => ?_), hcan'⟩
  have hguard : (w.ep.ft.comm c).isCanceled = true := by
    rw [hw]
    exact hcan'
  rw [beatStep, if_pos hguard, hw]
  rfl

/-- **`close_comm` in one go.** -/
theorem covers_closeComm (h : Tracked s) (hids : HeartbeatIds s.core)
    (hft : env.faultTolerance = true) {events : ReqId → List FabricEvent}
    (hevents : ∀ r, ∀ e ∈ events r, e.Entry) :
    Covers env s (closeComm env events s c).2 := by
  unfold closeComm
  split
  case isFalse => exact .refl s
  case isTrue hc =>
    obtain ⟨hcovers, hcan⟩ := covers_cancelComm h hids hft hc hevents
    refine hcovers.trans (covers_of_step (a := .removeComm c) fun w hw => ?_)
    have hguard : (w.ep.ft.comm c).isCanceled = true := by
      rw [hw]
      exact hcan
    rw [beatStep, if_pos hguard, hw]

end Impl
end Lfi
