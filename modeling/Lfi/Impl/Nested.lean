/-
# The pass inside a `cancel`

`cancel` makes a progress step before it completes its request:

    m_endpoint.protected_progress(false);

Within a pass of a process with `LFI_efficient_progress` this does nothing, since the pass runs in
the step of the leader.  Elsewhere, in the `cancel_comm` of a `close_comm` above all, nobody may
be leading.  Then the step is a whole one, and ends with a call of `one_loop`, the pass of which may
process, cancel and take out of `ft_comms` any communicator, that which is being closed included.
`Nested` says what the step brings, and with it what those in its own pass bring.

The functions are those of `Lfi.Impl.FtManager`, and do the same where no pass is nested
(`oneLoopC_run`).  They are written with what their calls of `erase` ask for (`Checked`): that the
node is in the list.  `erase` does not look, though it was meant to:

    // if (!node->inserted) std::abort();
-/

import Lfi.Impl.Engine
import Lfi.Runs.Checked

namespace Lfi
namespace Impl

open Runs Checked

/-- The progress step of a `cancel`: nothing when somebody else leads; otherwise what the fabric
does, and what `one_loop` meets then, as in `PassInput`. -/
inductive Nested where
  | led
  | leads (events : List FabricEvent) (now : ℤ) (beat : CommId → ℤ) (comms : List CommId)
      (anys : List ReqId) (pending : List CommId) (cancels : ReqId → Nested)

variable (env : Env)

/-- `ft_comms.erase(comm)`. -/
def eraseCommC (c : CommId) : Checked State where
  run s := { s with ft := eraseComm s.ft c }
  ok s := (s.ft.commNodes c).inserted = true

/-- `process_comm(comm, ft_ms, ft_canceled_coms, now)`; it erases the communicator when nothing is
outstanding on it. -/
def processCommC (now : ℤ) (beat : CommId → ℤ) (c : CommId) : Checked State where
  run s := processComm env now beat s c
  ok s := (s.ft.comm c).ftRequests.size = 0 → (eraseCommC c).ok s

/-- `cancel()`. -/
def cancelC (progress : Checked State) (r : ReqId) : Checked State :=
  look fun s =>
    match s.core.requests r with
    | none => skip
    | some q =>
        (act fun s => { s with core := eraseOps s.core q.waitContext }).seq
          (if q.isCompleted then skip
          else progress.seq (act fun t => complete env t r (cancelError s.ft q) 0))

/-- `~lfi_request()`. -/
def freeC (progress : Checked State) (r : ReqId) : Checked State :=
  look fun s =>
    match s.core.requests r with
    | none => skip
    | some q =>
        (if q.isCompleted then skip else cancelC env progress r).seq
          (act fun s => { s with core := s.core.setRequest r none })

/-- The loop of `cancel_comm`. -/
def cancelRequestsC (progress : ReqId → Checked State) (c : CommId) : ℕ → Checked State
  | 0 => skip
  | fuel + 1 => look fun s =>
      match (s.ft.comm c).ftRequests.head with
      | none => skip
      | some r => (cancelC env (progress r) r).seq (cancelRequestsC progress c fuel)

/-- `cancel_comm(comm)`. -/
def cancelCommC (progress : ReqId → Checked State) (c : CommId) : Checked State :=
  (act fun s => markCanceled s c).seq <| look fun s =>
    (cancelRequestsC env progress c (s.ft.comm c).ftRequests.size.toNat).seq <|
      (freeC env (progress (.heartbeat c)) (.heartbeat c)).seq (eraseCommC c)

/-- The walk of `ft_comms`. -/
def walkFtCommsC (now : ℤ) (beat : CommId → ℤ) : ℕ → Option CommId → Checked State
  | 0, _ => skip
  | _, none => skip
  | fuel + 1, some c =>
      (processCommC env now beat c).seq
        (look fun s => walkFtCommsC now beat fuel (s.ft.commNodes c).next)

/-- The first half of a pass. -/
def processCommsC (input : PassInput) : Checked State :=
  look fun s =>
    if s.ft.ftAnyCommRequests.Nonempty then
      each (processCommC env input.now input.beat)
        (input.comms.filter fun c => c ∈ s.ft.commIds ∧ isAnyComm c = false)
    else walkFtCommsC env input.now input.beat s.ft.commIds.card s.ft.ftComms.head

/-- The second half. -/
def cancelCommsC (progress : ReqId → Checked State) : Checked State :=
  look fun s => each (fun c => look fun s =>
    if c ∈ s.ft.commIds then
      (cancelCommC env progress c).seq
        (act fun s => { s with ft := { s.ft with failed := s.ft.failed ++ [c] } })
    else skip) s.ft.ftCanceledComs

/-- `handle_any_comm_reports` as far as the lock of `ft_mutex` goes. -/
def reportAll (anys : List ReqId) (pending : List CommId) (s : State) : State :=
  let canceled := s.ft.ftCanceledComs
  let s := reportToAny s anys pending
  let s := { s with ft := { s.ft with ftPendingFailedComms :=
    s.ft.ftPendingFailedComms \ (pending.take anys.length).toFinset } }
  let rest := anys.drop pending.length
  let s := reportToAny s rest canceled
  { s with ft := { s.ft with ftPendingFailedComms :=
    s.ft.ftPendingFailedComms ∪ (canceled.drop rest.length).toFinset } }

/-- `handle_any_comm_reports`. -/
def handleAnyCommReportsC (progress : ReqId → Checked State) (anys : List ReqId)
    (pending : List CommId) : Checked State :=
  (act (reportAll anys pending)).seq <|
    (look fun s => each (fun r => cancelC env (progress r) r) s.ft.ftRequestsToCancel).seq
      (act fun s => { s with ft := { s.ft with ftRequestsToCancel := [] } })

/-- A pass that got past its rate limit. -/
def passC (progress : ReqId → Checked State) (input : PassInput) : Checked State :=
  look fun s₀ =>
    (act fun s => { s with ft := { s.ft with ftLastProgress := input.now } }).seq <|
      (processCommsC env input).seq <| (cancelCommsC env progress).seq <|
        (if s₀.ft.ftAnyCommRequests.Nonempty then
          look fun s => handleAnyCommReportsC env progress
            (input.anys.filter fun r => r ∈ s.ft.ftAnyCommRequests)
            (input.pending.filter fun c => c ∈ s.ft.ftPendingFailedComms)
        else skip).seq
          (act fun s => { s with ft := { s.ft with ftCanceledComs := [] } })

/-- `one_loop`. -/
def oneLoopC (progress : ReqId → Checked State) (input : PassInput) : Checked State :=
  look fun s =>
    if s.ft.ftProgressCount + 1 < 100 then
      act fun s => { s with ft := { s.ft with ftProgressCount := s.ft.ftProgressCount + 1 } }
    else
      (act fun s => { s with ft := { s.ft with ftProgressCount := 0 } }).seq
        (if elapsedMs input.now s.ft.ftLastProgress < 10 then skip else passC env progress input)

/-- The progress step of a `cancel`.  Within its pass nobody else becomes the leader. -/
def nestedC : Nested → Checked State
  | .led => skip
  | .leads events now beat comms anys pending cancels =>
      (act (progress env events)).seq
        (if env.faultTolerance then
          oneLoopC env (fun r => if env.efficientProgress then skip else nestedC (cancels r))
            ⟨now, beat, comms, anys, pending, fun _ => []⟩
        else skip)

/-- `close_comm(id)`. -/
def closeCommC (progress : ReqId → Checked State) (c : CommId) : Checked State :=
  look fun s =>
    if c ∈ s.ft.commIds then
      (if env.faultTolerance then cancelCommC env progress c else skip).seq
        (act fun s => { s with ft := { s.ft with commIds := s.ft.commIds.erase c } })
    else skip

variable {env} {s t : State} {c : CommId} {r : ReqId} {progress : ReqId → Checked State}

/-! ### Without a pass inside -/

section Run

/-- Each is its function, with the checks left out. -/
theorem cancelC_run (p : Checked State) (s : State) (r : ReqId) :
    (cancelC env p r).run s = cancelWith env p.run s r := by
  rw [cancelC, look_run, cancelWith]
  cases s.core.requests r with
  | none => rfl
  | some q =>
      simp only [seq_run, act_run]
      split <;> rfl

theorem freeC_run (p : Checked State) (s : State) (r : ReqId) :
    (freeC env p r).run s = freeWith env p.run s r := by
  rw [freeC, look_run, freeWith]
  cases s.core.requests r with
  | none => rfl
  | some q =>
      simp only [seq_run, act_run]
      split
      case isTrue => rfl
      case isFalse => rw [cancelC_run]

theorem walkFtCommsC_run (now : ℤ) (beat : CommId → ℤ) (fuel : ℕ) (x : Option CommId)
    (s : State) : (walkFtCommsC env now beat fuel x).run s = walkFtComms env now beat fuel x s := by
  induction fuel generalizing x s with
  | zero => rfl
  | succ fuel ih =>
      cases x with
      | none => rfl
      | some c => exact ih _ _

theorem processCommsC_run (input : PassInput) (s : State) :
    (processCommsC env input).run s = processComms env input s := by
  rw [processCommsC, look_run, processComms]
  split
  case isTrue => exact each_run ..
  case isFalse => exact walkFtCommsC_run ..

theorem cancelRequestsC_run (c : CommId) (fuel : ℕ) (s : State) :
    (cancelRequestsC env (fun _ => skip) c fuel).run s =
      cancelRequests env (fun _ => []) c fuel s := by
  induction fuel generalizing s with
  | zero => rfl
  | succ fuel ih =>
      rw [cancelRequestsC, look_run, cancelRequests]
      cases (s.ft.comm c).ftRequests.head with
      | none => rfl
      | some r =>
          simp only [seq_run]
          rw [ih, cancelC_run]
          rfl

theorem cancelCommC_run (c : CommId) (s : State) :
    (cancelCommC env (fun _ => skip) c).run s = cancelComm env (fun _ => []) s c := by
  simp only [cancelCommC, seq_run, act_run, look_run]
  rw [freeC_run, cancelRequestsC_run]
  rfl

/-- **The same pass.**  Under `LFI_efficient_progress` a call of `one_loop` that is in the step of
a leader is that of `Lfi.Impl.FtManager`. -/
theorem oneLoopC_run (h : env.efficientProgress = true) (input : PassInput) (s : State) :
    (oneLoopC env (fun _ => skip) input).run s = oneLoop env input s := by
  have hevents : passEvents env input = fun _ => [] := if_pos h
  have hcancels : ∀ s : State,
      (cancelCommsC env fun _ => skip).run s = cancelComms env input s := by
    intro s
    rw [cancelCommsC, look_run, each_run, cancelComms, hevents]
    refine List.foldl_ext _ _ _ fun t c _ => ?_
    rw [look_run]
    split
    case isTrue => rw [seq_run, act_run, cancelCommC_run]
    case isFalse => rfl
  have hreports : ∀ (anys : List ReqId) (pending : List CommId) (s : State),
      (handleAnyCommReportsC env (fun _ => skip) anys pending).run s =
        handleAnyCommReports env (fun _ => []) anys pending s := by
    intro anys pending s
    simp only [handleAnyCommReportsC, seq_run, act_run, look_run]
    rw [each_run]
    have hcancel : ∀ (t : State) r, (cancelC env skip r).run t = cancel env t r [] :=
      fun t r => cancelC_run skip t r
    simp only [hcancel]
    rfl
  have hpass : ∀ s : State, (passC env (fun _ => skip) input).run s = pass env input s := by
    intro s
    simp only [passC, look_run, seq_run, act_run, pass, hevents]
    rw [processCommsC_run, hcancels]
    by_cases hany : s.ft.ftAnyCommRequests.Nonempty
    · simp only [hany, if_true, look_run, hreports, decide_true]
    · simp only [hany, if_false, skip_run, decide_false, Bool.false_eq_true]
  rw [oneLoopC, look_run, oneLoop]
  by_cases hcount : s.ft.ftProgressCount + 1 < 100
  · simp only [hcount, if_true, act_run]
  · by_cases hsoon : elapsedMs input.now s.ft.ftLastProgress < 10
    · simp only [hcount, hsoon, if_true, if_false, seq_run, act_run, skip_run]
    · simp only [hcount, hsoon, if_false, seq_run, act_run, hpass]

end Run

/-! ### With a pass inside -/

/-- A `cancel` leaves its request completed. -/
theorem cancelC_onComm (p : Checked State) (s : State) (r : ReqId) :
    ((cancelC env p r).run s).core.onComm r = none := by
  rw [cancelC, look_run]
  cases hr : s.core.requests r with
  | none => simp [Core.onComm, hr]
  | some q =>
      simp only [seq_run, act_run]
      cases hdone : q.isCompleted with
      | true =>
          have hsame : (eraseOps s.core q.waitContext).requests = s.core.requests := by
            cases q.waitContext <;> rfl
          simp only [if_true, skip_run]
          rw [Core.onComm_congr (congrFun hsame r)]
          simp [Core.onComm, hr, hdone]
      | false =>
          simp only [Bool.false_eq_true, if_false, seq_run, act_run]
          rw [complete_onComm, Function.update_self]

/-- What survives all that touches neither links of communicators nor posts anything. -/
structure Harmless (env : Env) (P : State → Prop) : Prop where
  core : ∀ s core, core.requests = s.core.requests → P s → P { s with core := core }
  event : ∀ s e, P s → P (fabricEvent env s e)
  complete : ∀ s r err now, P s → P (complete env s r err now)
  clear : ∀ s r, s.core.onComm r = none → P s → P { s with core := s.core.setRequest r none }
  mark : ∀ s c, P s → P (markCanceled s c)
  report : ∀ s r c, P s → P (reportTo s r c)
  note : ∀ s pending canceled toCancel last count failed, P s →
    P ⟨s.core, { s.ft with
      ftPendingFailedComms := pending
      ftCanceledComs := canceled
      ftRequestsToCancel := toCancel
      ftLastProgress := last
      ftProgressCount := count
      failed := failed }⟩

section Harmless

variable {P K B : State → Prop} {p : Checked State}

theorem Harmless.eraseOps (h : Harmless env P) (w : Option ℕ) (hs : P s) :
    P { s with core := eraseOps s.core w } :=
  h.core s _ (by cases w <;> rfl) hs

/-- Events that come one after the other. -/
theorem Harmless.events (h : Harmless env P) (events : List FabricEvent) (hs : P s) :
    P (Impl.progress env events s) :=
  progress_induction h.event hs events

/-- The reports of a pass. -/
theorem Harmless.reportAll (h : Harmless env P) (anys : List ReqId) (pending : List CommId)
    (hs : P s) : P (reportAll anys pending s) := by
  have hany : ∀ s anys errors, P s → P (reportToAny s anys errors) := fun s anys errors hs =>
    List.foldlRecOn _ _ hs fun s hs p _ => h.report s p.1 p.2 hs
  exact h.note _ _ _ _ _ _ _ (hany _ _ _ (h.note _ _ _ _ _ _ _ (hany _ _ _ hs)))

/-- A `cancel` is harmless but for what its progress step does. -/
theorem cancelC_decides (hK : Harmless env K) (hB : Harmless env B) (hp : Decides K B p)
    (r : ReqId) : Decides K B (cancelC env p r) := by
  refine fun s => .look ?_
  cases s.core.requests r with
  | none => exact decides_skip s
  | some q =>
      refine DecidesAt.seq (.act (hK.eraseOps _) (hB.eraseOps _)) ?_
      split
      case isTrue => exact decides_skip _
      case isFalse =>
        exact (hp _).seq (.act (hK.complete _ _ _ _) (hB.complete _ _ _ _))

theorem freeC_decides (hK : Harmless env K) (hB : Harmless env B) (hp : Decides K B p)
    (r : ReqId) : Decides K B (freeC env p r) := by
  have hclear : ∀ t : State, t.core.onComm r = none →
      DecidesAt K B (act fun s => { s with core := s.core.setRequest r none }) t :=
    fun t h => .act (hK.clear t r h) (hB.clear t r h)
  refine fun s => .look ?_
  cases hr : s.core.requests r with
  | none => exact decides_skip s
  | some q =>
      dsimp only
      split
      case isTrue hdone =>
        exact (decides_skip s).seq (hclear s (by simp [Core.onComm, hr, hdone]))
      case isFalse =>
        exact (cancelC_decides hK hB hp r s).seq (hclear _ (cancelC_onComm p s r))

/-- The loop of `cancel_comm` over the requests. -/
theorem cancelRequestsC_decides (hK : Harmless env K) (hB : Harmless env B)
    (hp : ∀ r, Decides K B (progress r)) (c : CommId) (fuel : ℕ) :
    Decides K B (cancelRequestsC env progress c fuel) := by
  induction fuel with
  | zero => exact decides_skip
  | succ fuel ih =>
      refine fun s => .look ?_
      cases (s.ft.comm c).ftRequests.head with
      | none => exact decides_skip s
      | some r => exact (cancelC_decides hK hB (hp r) r).seq ih s

/-- What remains to be shown of a pass: that it holds of its walk, and of `cancel_comm`. -/
theorem oneLoopC_decides (hK : Harmless env K) (hB : Harmless env B)
    (hp : ∀ r, Decides K B (progress r)) {input : PassInput}
    (hprocs : Decides K B (processCommsC env input))
    (hcomm : ∀ s c, c ∈ s.ft.commIds → DecidesAt K B (cancelCommC env progress c) s) :
    Decides K B (oneLoopC env progress input) := by
  have hnote : ∀ (f : State → State) s, (∀ P, Harmless env P → P s → P (f s)) →
      DecidesAt K B (act f) s := fun _ _ h => .act (h K hK) (h B hB)
  have hcomms : Decides K B (cancelCommsC env progress) := by
    refine fun s => .look (Decides.each (fun c _ t => .look ?_) s)
    split
    case isTrue hc =>
      exact (hcomm t c hc).seq (hnote _ _ fun P h => h.note _ _ _ _ _ _ _)
    case isFalse => exact decides_skip t
  have hreports : ∀ anys pending, Decides K B (handleAnyCommReportsC env progress anys pending) :=
    fun anys pending s =>
      (hnote _ _ fun P h => h.reportAll anys pending).seq
        (DecidesAt.seq (.look (Decides.each (fun r _ => cancelC_decides hK hB (hp r) r) _))
          (hnote _ _ fun P h => h.note _ _ _ _ _ _ _))
  have hpass : Decides K B (passC env progress input) := by
    refine fun s => .look ((hnote _ _ fun P h => h.note _ _ _ _ _ _ _).seq ((hprocs _).seq
      ((hcomms _).seq (DecidesAt.seq ?_ (hnote _ _ fun P h => h.note _ _ _ _ _ _ _)))))
    split
    case isTrue => exact .look (hreports _ _ _)
    case isFalse => exact decides_skip _
  refine fun s => .look ?_
  split
  case isTrue => exact hnote _ _ fun P h => h.note _ _ _ _ _ _ _
  case isFalse =>
    refine (hnote _ _ fun P h => h.note _ _ _ _ _ _ _).seq ?_
    split
    case isTrue => exact decides_skip _
    case isFalse => exact hpass _

end Harmless

/-! ### A communicator that is cancelled -/

section Confined

variable {R : Set ReqId} {d : CommId}

/-- Of what survives progress steps. -/
theorem Harmless.of_progressed {P : State → Prop} (hprog : ∀ s t, Progressed s t → P s → P t)
    (hmark : ∀ s c, P s → P (markCanceled s c)) (hreport : ∀ s r c, P s → P (reportTo s r c))
    (hnote : ∀ s pending canceled toCancel last count failed, P s →
      P ⟨s.core, { s.ft with
        ftPendingFailedComms := pending
        ftCanceledComs := canceled
        ftRequestsToCancel := toCancel
        ftLastProgress := last
        ftProgressCount := count
        failed := failed }⟩) : Harmless env P where
  core _ _ h := hprog _ _ (progressed_core h)
  event _ e := hprog _ _ (fabricEvent_progressed e)
  complete _ r err now := hprog _ _ (complete_progressed r err now)
  clear _ _ h := hprog _ _ (clear_progressed h)
  mark := hmark
  report := hreport
  note := hnote

/-- `c` is cancelled, and only requests in `R` are outstanding on it. -/
structure Confined (c : CommId) (R : Set ReqId) (s : State) : Prop where
  heartbeatIds : HeartbeatIds s.core
  canceled : (s.ft.comm c).isCanceled = true
  mem : ∀ r, s.core.onComm r = some c → r ∈ R

theorem Confined.congr (h : Confined c R s) (hids : HeartbeatIds t.core)
    (hcan : (t.ft.comm c).isCanceled = (s.ft.comm c).isCanceled)
    (hon : t.core.onComm = s.core.onComm) : Confined c R t :=
  ⟨hids, hcan.trans h.canceled, fun r hr => h.mem r (hon ▸ hr)⟩

theorem confined_harmless : Harmless env (Confined c R) :=
  .of_progressed
    (fun _ _ hprog h => ⟨h.heartbeatIds.progress hprog, (hprog.isCanceled c).trans h.canceled,
      fun r hr => h.mem r (hprog.onComm_some hr)⟩)
    (fun s d h => by
      refine ⟨h.heartbeatIds, ?_, h.mem⟩
      rw [markCanceled, Ft.setComm_comm]
      split
      case isTrue => rfl
      case isFalse => exact h.canceled)
    (fun s r d h => h.congr (h.heartbeatIds.reportTo r d) rfl (reportTo_onComm s r d))
    (fun _ _ _ _ _ _ _ h => h.congr h.heartbeatIds rfl rfl)

/-- Nothing is posted on it. -/
theorem Confined.processComm (h : Confined c R s) (now : ℤ) (beat : CommId → ℤ) (d : CommId) :
    Confined c R (processComm env now beat s d) := by
  have hset : ∀ x : LfiComm, x.isCanceled = (s.ft.comm d).isCanceled →
      ((s.ft.setComm d x).comm c).isCanceled = (s.ft.comm c).isCanceled := fun x hx =>
    Ft.setComm_same (·.isCanceled) hx c
  rcases processComm_cases env now beat s d with ⟨-, heq⟩ | ⟨-, -, -, heq⟩ | ⟨-, -, -, heq⟩ |
    ⟨-, -, -, -, heq⟩ | ⟨-, -, -, heq⟩ <;> rw [heq]
  · exact h.congr h.heartbeatIds rfl rfl
  · rcases @startHeartbeat_cases env _ h.heartbeatIds d (beat d) with ⟨-, h'⟩ |
      ⟨core, hfree, hon, hids, -, -, ⟨-, h'⟩ | ⟨q, f, o, -, hcan, hq, hqd, h'⟩⟩ <;> rw [h']
    · exact h
    · have hgive : ((giveUp (clearValue s.ft d) d).comm c).isCanceled =
          ((clearValue s.ft d).comm c).isCanceled :=
        Ft.setComm_same (·.isCanceled)
          (x := { (clearValue s.ft d).comm d with ftCurrentStatus := .error }) rfl c
      exact h.congr hids (hgive.trans (hset _ rfl)) hon
    · have hdc : c ≠ d := by
        rintro rfl
        rw [h.canceled] at hcan
        cases hcan
      refine ⟨hids.postCore (hon ▸ hfree) f o true, ?_, fun r hr => ?_⟩
      · rw [markHeartbeat, Ft.setComm_comm, if_neg hdc]
        split
        case isTrue =>
          rw [registerRequest_comm _ _ hdc, clearValue, Ft.setComm_comm, if_neg hdc]
          exact h.canceled
        case isFalse =>
          rw [clearValue, Ft.setComm_comm, if_neg hdc]
          exact h.canceled
      · rw [postCore_onComm hq (hon ▸ hfree), hqd] at hr
        by_cases hr' : r = .heartbeat d
        · rw [hr', Function.update_self] at hr
          exact absurd (Option.some.inj hr).symm hdc
        · rw [Function.update_of_ne hr', hon] at hr
          exact h.mem r hr
  · exact h.congr h.heartbeatIds (hset _ rfl) rfl
  · exact h.congr h.heartbeatIds (hset _ rfl) rfl
  · exact h

/-- A pass leaves the requests of a canceled communicator confined. -/
theorem processCommsC_confined (input : PassInput) :
    Keeps (Confined c R) (processCommsC env input) := by
  intro s hs
  rw [processCommsC_run, processComms]
  split
  case isTrue => exact List.foldlRecOn _ _ hs fun s h d _ => h.processComm _ _ d
  case isFalse => exact walkFtComms_induction (fun s d h => h.processComm _ _ d) _ _ hs

theorem freeC_confined {p : Checked State} (hp : Keeps (Confined c R) p) (r : ReqId) :
    Keeps (Confined c R) (freeC env p r) :=
  (freeC_decides confined_harmless confined_harmless hp.decides r).keeps

/-- So does the `cancel_comm` of any communicator. -/
theorem cancelCommC_confined (hp : ∀ r, Keeps (Confined c R) (progress r)) (d : CommId) :
    Keeps (Confined c R) (cancelCommC env progress d) := by
  have hK : Harmless env (Confined c R) := confined_harmless
  intro s hs
  have hloop := (cancelRequestsC_decides hK hK (fun r => (hp r).decides) d
    ((markCanceled s d).ft.comm d).ftRequests.size.toNat).keeps _ (hK.mark s d hs)
  have hfree : Confined c R ((freeC env (progress (.heartbeat d)) (.heartbeat d)).run _) :=
    freeC_confined (hp (.heartbeat d)) (.heartbeat d) _ hloop
  exact hfree.congr hfree.heartbeatIds rfl rfl

/-- **A cancelled communicator stays sealed**, whatever passes come in between. -/
theorem nestedC_confined (n : Nested) : Keeps (Confined c R) (nestedC env n) := by
  have hK : Harmless env (Confined c R) := confined_harmless
  induction n with
  | led => exact decides_skip.keeps
  | leads events now beat comms anys pending cancels ih =>
      refine Keeps.seq (fun s hs => hK.events events hs) ?_
      split
      case isTrue =>
        have hp : ∀ r, Keeps (Confined c R)
            (if env.efficientProgress then skip else nestedC env (cancels r)) := fun r => by
          split
          case isTrue => exact decides_skip.keeps
          case isFalse => exact ih r
        exact (oneLoopC_decides hK hK (fun r => (hp r).decides) (processCommsC_confined _).decides
          fun s d _ => (cancelCommC_confined hp d).decides s).keeps
      case isFalse => exact decides_skip.keeps

end Confined

end Impl
end Lfi
