/-
# False alarms

Of a heartbeat is promised that there is one at a time, that only its own answer ends its round,
and that a communicator is put in the list to cancel once, because its heartbeat could not be
posted or had no answer for the fault-tolerance time (`Promised`).

The time is computed in `int32_t`, so a clock that was put back by weeks may seem to have gone
on.  `heartbeats_iff` says that nothing else breaks the promise.
-/

import Lfi.Impl.Rounds

namespace Lfi
namespace Impl

open Runs

/-! ### What is promised -/

/-- The heartbeat `b` of `c` is answered: its request is completed, and so is its read, unless
`cancel_comm` has completed the request, and the last word that was written is `HEARBEAT_CODE`,
by this read. -/
structure AnsweredBy (w : Beating) (c : CommId) (b : Beat) : Prop where
  completed : w.ep.core.onComm (.heartbeat c) = none
  gone : (w.ep.ft.comm c).isCanceled = false → ∀ op ∈ w.ep.core.ops, op.owner ≠ .heartbeat c
  delivered : w.landed c = some (b.post, hearbeatCode)

/-- The heartbeat could not be posted, or it had no answer for the fault-tolerance time. -/
def Silent (env : Env) (w : Beating) (c : CommId) (now : ℤ) : Prop :=
  ((w.ep.ft.comm c).ftCurrentStatus = .idle ∧ (heartbeatGet env w.ep c).1 < 0) ∨
    ((w.ep.ft.comm c).ftCurrentStatus = .heartbeat ∧ ∃ b, w.beats c = some b ∧
      ¬ AnsweredBy w c b ∧ max (ftMs env) 1000 * 1000000 < now - b.time)

/-- **What is promised of a step** from `w` to `t`. -/
structure Promised (env : Env) (w : Beating) (a : BeatAction) (t : Beating) : Prop where
  one : ∀ c, (t.ep.core.ops.filter fun op => op.owner = .heartbeat c).length ≤ 1
  begins : ∀ c, (w.ep.ft.comm c).ftCurrentStatus ≠ .heartbeat →
    (t.ep.ft.comm c).ftCurrentStatus = .heartbeat → ∃ now beat, a = .processComm c now beat ∧
      t.beats c = some ⟨w.ep.core.posts, beat⟩ ∧
      ∃ op ∈ t.ep.core.ops, op.owner = .heartbeat c ∧ op.post = w.ep.core.posts
  during : ∀ c, (w.ep.ft.comm c).ftCurrentStatus = .heartbeat → t.beats c = w.beats c
  ends : ∀ c, (w.ep.ft.comm c).ftCurrentStatus = .heartbeat →
    (t.ep.ft.comm c).ftCurrentStatus = .idle → ∃ b, w.beats c = some b ∧ AnsweredBy w c b
  alarm : ∀ c ∈ t.given, c ∉ w.given →
    ∃ now beat, a = .processComm c now beat ∧ Silent env w c now
  once : t.given.Nodup
  error : ∀ c, (w.ep.ft.comm c).ftCurrentStatus = .error →
    (t.ep.ft.comm c).ftCurrentStatus = .error

/-- The milliseconds from the heartbeat to the pass are so few that they seem to be more than
the fault-tolerance time in 32 bits. -/
def Wraps (env : Env) (comm : LfiComm) (now : ℤ) : Prop :=
  ∃ k : ℕ, 0 < k ∧ max (ftMs env) 1000 < elapsedMs now comm.ftHeartbeatTimePoint + k * 2 ^ 32 ∧
    elapsedMs now comm.ftHeartbeatTimePoint + k * 2 ^ 32 < 2 ^ 31

/-- No pass that waits for an answer has a clock that was put back like that. -/
def ClockKept (env : Env) (w : Beating) : BeatAction → Prop
  | .processComm c now _ => (w.ep.ft.comm c).ftRequests.size ≠ 0 →
      (w.ep.ft.comm c).ftCurrentStatus = .heartbeat → ¬ Answered w.ep c →
        ¬ Wraps env (w.ep.ft.comm c) now
  | _ => True

variable {env : Env} {w t : Beating} {c : CommId}

/-! ### The clock -/

/-- What wraps seems to be over the limit, and the clock was put back. -/
theorem Wraps.overdue {comm : LfiComm} {now : ℤ} (h : Wraps env comm now) :
    Overdue env comm now ∧ now < comm.ftHeartbeatTimePoint := by
  have hlow : (1000 : ℤ) ≤ max (ftMs env) 1000 := le_max_right ..
  obtain ⟨k, hk, hlt, hhigh⟩ := h
  have hneg : elapsedMs now comm.ftHeartbeatTimePoint < 0 := by omega
  constructor
  · unfold Overdue toInt32
    rw [Int.bmod_def]
    split <;> omega
  · by_contra hge
    have hnonneg := Int.tdiv_nonneg (a := now - comm.ftHeartbeatTimePoint) (b := 1000000)
      (by omega) (by decide)
    exact absurd hneg (not_lt.2 hnonneg)

/-- What does not wrap is over the limit if it seems to be. -/
theorem time_of_overdue {comm : LfiComm} {now : ℤ} (hover : Overdue env comm now)
    (hwraps : ¬ Wraps env comm now) :
    max (ftMs env) 1000 * 1000000 < now - comm.ftHeartbeatTimePoint := by
  have hlow : (1000 : ℤ) ≤ max (ftMs env) 1000 := le_max_right ..
  have helapsed : max (ftMs env) 1000 < elapsedMs now comm.ftHeartbeatTimePoint := by
    by_contra hle
    refine hwraps ⟨((toInt32 (elapsedMs now comm.ftHeartbeatTimePoint) -
      elapsedMs now comm.ftHeartbeatTimePoint) / 2 ^ 32).toNat, ?_⟩
    unfold Overdue at hover
    unfold toInt32 at *
    rw [Int.bmod_def] at *
    split at hover <;> omega
  have hpos : 0 ≤ now - comm.ftHeartbeatTimePoint := by
    by_contra hneg
    have hle := Int.tdiv_le_tdiv (c := 1000000) (by decide)
      (show now - comm.ftHeartbeatTimePoint ≤ 0 by omega)
    rw [Int.zero_tdiv] at hle
    exact absurd (hlow.trans_lt helapsed) (not_lt.2 (hle.trans (by decide)))
  rw [elapsedMs, Int.tdiv_eq_ediv_of_nonneg hpos] at helapsed
  omega

/-! ### Steps -/

theorem BeatInv.length_le_one (h : BeatInv w) (c : CommId) :
    (w.ep.core.ops.filter fun op => op.owner = .heartbeat c).length ≤ 1 := by
  have hnodup : (w.ep.core.ops.filter fun op => op.owner = .heartbeat c).Nodup :=
    (List.Nodup.of_map _ h.contexts.opsNodup).filter _
  by_contra hlen
  obtain ⟨op, op', rest, heq⟩ : ∃ op op' rest,
      (w.ep.core.ops.filter fun op => op.owner = .heartbeat c) = op :: op' :: rest := by
    match hl : w.ep.core.ops.filter fun op => op.owner = .heartbeat c with
    | [] => simp [hl] at hlen
    | [_] => simp [hl] at hlen
    | op :: op' :: rest => exact ⟨op, op', rest, hl⟩
  have hmem : ∀ x ∈ op :: op' :: rest, x ∈ w.ep.core.ops ∧ x.owner = .heartbeat c := by
    intro x hx
    rw [← heq] at hx
    simpa using List.mem_filter.1 hx
  obtain ⟨hop, howner⟩ := hmem op (by simp)
  obtain ⟨hop', howner'⟩ := hmem op' (by simp)
  rw [heq, h.one c op hop op' hop' howner howner'] at hnodup
  simp at hnodup

/-- Nothing that is promised happens in a step that leaves rounds and the list alone. -/
theorem promised_of_quiet (a : BeatAction) (h : BeatInv t)
    (hstatus : ∀ c, (t.ep.ft.comm c).ftCurrentStatus = (w.ep.ft.comm c).ftCurrentStatus)
    (hbeats : t.beats = w.beats) (hgiven : t.given = w.given) : Promised env w a t where
  one := h.length_le_one
  begins c hc hc' := absurd ((hstatus c).symm.trans hc') hc
  during c _ := congrFun hbeats c
  ends c hc hc' := by
    rw [hstatus, hc] at hc'
    cases hc'
  alarm c hc hc' := absurd (hgiven ▸ hc) hc'
  once := h.once
  error c hc := (hstatus c).trans hc

theorem step_of_bypasses (h : BeatInv w) {ep : State} (hb : Bypasses w.ep ep) (a : BeatAction) :
    BeatInv { w with ep := ep } ∧ Promised env w a { w with ep := ep } :=
  ⟨h.bypasses hb, promised_of_quiet a (h.bypasses hb) (fun c => status_of_pulse (hb.pulse c)) rfl
    rfl⟩

/-- In a round the code and the history agree on the answer. -/
theorem answered_iff (h : BeatInv w) (hc : (w.ep.ft.comm c).ftCurrentStatus = .heartbeat)
    {b : Beat} (hb : w.beats c = some b) :
    Answered w.ep c ↔ AnsweredBy w c b := by
  obtain ⟨b', hround⟩ := h.round c hc
  obtain rfl : b' = b := Option.some.inj (hround.last.symm.trans hb)
  rw [Answered, heartbeatFree_iff, hround.value]
  constructor
  · rintro ⟨hon, hvalue⟩
    exact ⟨hon, fun hcan op hop => h.gone hon hcan hop, hvalue⟩
  · intro hans
    exact ⟨hans.completed, hans.delivered⟩

/-- A communicator is put in the list. -/
theorem step_of_giveUp (h : BeatInv w) {core : Core} {ft : Ft}
    (hb : Bypasses w.ep ⟨core, ft⟩) (hc : (w.ep.ft.comm c).ftCurrentStatus ≠ .error)
    (now beat : ℤ) :
    BeatInv { w with ep := ⟨core, giveUp ft c⟩, given := w.given ++ [c] } ∧
      (Promised env w (.processComm c now beat)
        { w with ep := ⟨core, giveUp ft c⟩, given := w.given ++ [c] } ↔ Silent env w c now) := by
  have hinv := (h.bypasses hb).giveUp (c := c) (by rw [status_of_pulse (hb.pulse c)]; exact hc)
  have hnew : c ∉ w.given := fun hmem => hc (h.given c hmem)
  have hstatus : ∀ d, ((giveUp ft c).comm d).ftCurrentStatus =
      if d = c then .error else (w.ep.ft.comm d).ftCurrentStatus := by
    intro d
    rw [giveUp, Ft.setComm_comm]
    split
    case isTrue => rfl
    case isFalse => exact status_of_pulse (hb.pulse d)
  refine ⟨hinv, fun hpromised => ?_, fun hsilent => ?_⟩
  · obtain ⟨now', beat', heq, hsilent⟩ := hpromised.alarm c (by simp) hnew
    obtain ⟨-, rfl, -⟩ := BeatAction.processComm.inj heq
    exact hsilent
  · refine
      { one := hinv.length_le_one
        begins := fun d hd hd' => ?_
        during := fun d _ => rfl
        ends := fun d hd hd' => ?_
        alarm := fun d hd hd' => ?_
        once := hinv.once
        error := fun d hd => ?_ }
    · rw [hstatus] at hd'
      split at hd'
      case isTrue => cases hd'
      case isFalse => exact absurd hd' hd
    · rw [hstatus] at hd'
      split at hd'
      case isTrue => cases hd'
      case isFalse => rw [hd] at hd'; cases hd'
    · rcases List.mem_append.1 hd with hd | hd
      · exact absurd hd hd'
      · rw [List.mem_singleton.1 hd]
        exact ⟨now, beat, rfl, hsilent⟩
    · rw [hstatus]
      split
      case isTrue => rfl
      case isFalse => exact hd

/-- A round begins. -/
theorem promised_of_beat (h : BeatInv w) (hidle : (w.ep.ft.comm c).ftCurrentStatus = .idle)
    {u : State} {f : RequestFields} {o : OpFields} {now beat : ℤ}
    (hpulse : ∀ d, (u.ft.comm d).pulse = (w.ep.ft.comm d).pulse)
    (hposts : u.core.posts = w.ep.core.posts)
    (hinv : BeatInv { w with
      ep := ⟨postCore u.core (.heartbeat c) f o true, markHeartbeat u.ft c beat⟩
      beats := Function.update w.beats c (some ⟨w.ep.core.posts, beat⟩) }) :
    Promised env w (.processComm c now beat) { w with
      ep := ⟨postCore u.core (.heartbeat c) f o true, markHeartbeat u.ft c beat⟩
      beats := Function.update w.beats c (some ⟨w.ep.core.posts, beat⟩) } := by
  have hstatus : ∀ d, ((markHeartbeat u.ft c beat).comm d).ftCurrentStatus =
      if d = c then .heartbeat else (w.ep.ft.comm d).ftCurrentStatus := by
    intro d
    rw [markHeartbeat, Ft.setComm_comm]
    split
    case isTrue => rfl
    case isFalse => exact status_of_pulse (hpulse d)
  have hne : ∀ d, (w.ep.ft.comm d).ftCurrentStatus ≠ .idle → d ≠ c := by
    rintro d hd rfl
    exact hd hidle
  refine
    { one := hinv.length_le_one
      begins := fun d hd hd' => ?_
      during := fun d hd => ?_
      ends := fun d hd hd' => ?_
      alarm := fun d hd hd' => absurd hd hd'
      once := h.once
      error := fun d hd => ?_ }
  · rw [hstatus] at hd'
    split at hd'
    case isFalse => exact absurd hd' hd
    case isTrue hdc =>
      refine ⟨now, beat, by rw [hdc], by rw [hdc]; exact Function.update_self .., ?_⟩
      refine ⟨_, List.mem_append_left _ ((mem_queued_postCore f o true).2 (.inr rfl)), ?_, hposts⟩
      rw [hdc]
  · exact Function.update_of_ne (hne d (by rw [hd]; decide)) ..
  · rw [hstatus, if_neg (hne d (by rw [hd]; decide)), hd] at hd'
    cases hd'
  · rw [hstatus, if_neg (hne d (by rw [hd]; decide))]
    exact hd

/-- A round ends. -/
theorem promised_of_answer (h : BeatInv w) (a : BeatAction)
    (hbeat : (w.ep.ft.comm c).ftCurrentStatus = .heartbeat)
    (hans : Answered w.ep c) : Promised env w a { w with ep := ⟨w.ep.core,
      w.ep.ft.setComm c { w.ep.ft.comm c with ftCurrentStatus := .idle }⟩ } := by
  have hinv := h.answered (c := c) (by rw [hbeat]; exact nofun)
  have hstatus : ∀ d, ((w.ep.ft.setComm c
      { w.ep.ft.comm c with ftCurrentStatus := .idle }).comm d).ftCurrentStatus =
        if d = c then .idle else (w.ep.ft.comm d).ftCurrentStatus := by
    intro d
    rw [Ft.setComm_comm]
    split
    case isTrue => rfl
    case isFalse => rfl
  refine
    { one := hinv.length_le_one
      begins := fun d hd hd' => ?_
      during := fun d _ => rfl
      ends := fun d hd hd' => ?_
      alarm := fun d hd hd' => absurd hd hd'
      once := h.once
      error := fun d hd => ?_ }
  · rw [hstatus] at hd'
    split at hd'
    case isTrue => cases hd'
    case isFalse => exact absurd hd' hd
  · rw [hstatus] at hd'
    split at hd'
    case isFalse => rw [hd] at hd'; cases hd'
    case isTrue hdc =>
      obtain ⟨b, hround⟩ := h.round c hbeat
      rw [hdc]
      exact ⟨b, hround.last, (answered_iff h hbeat hround.last).1 hans⟩
  · have hdc : d ≠ c := by
      rintro rfl
      rw [hbeat] at hd
      cases hd
    rw [hstatus, if_neg hdc]
    exact hd

/-- A call of `process_comm`. -/
theorem process_spec (h : BeatInv w) (c : CommId) (now beat : ℤ) :
    BeatInv (w.process env c now beat) ∧
      (Promised env w (.processComm c now beat) (w.process env c now beat) ↔
        ClockKept env w (.processComm c now beat)) := by
  rcases process_cases env h c now beat with ⟨ep, heq, hb, hquiet⟩ |
    ⟨hidle, u, f, o, q, hu, hpulse, hposts, hon, hcan, hvalue, hq, heq⟩ | ⟨hbeat, hans, heq⟩ |
    ⟨hidle, hneg, core, ft, hb, heq⟩ | ⟨hsize, hbeat, hans, hover, heq⟩
  · obtain ⟨hinv, hpromised⟩ := step_of_bypasses h hb (.processComm c now beat)
    rw [heq]
    refine ⟨hinv, iff_of_true hpromised fun hsize hbeat hans hwraps => ?_⟩
    exact hquiet hsize hbeat hans hwraps.overdue.1
  · have hinv := hu.beat ((status_of_pulse (hpulse c)).trans hidle) hon hcan hvalue hq f o beat
    rw [show ({ w with ep := u } : Beating).ep.core.posts = w.ep.core.posts from hposts] at hinv
    rw [heq]
    refine ⟨hinv, iff_of_true (promised_of_beat h hidle hpulse hposts hinv) fun _ hbeat => ?_⟩
    rw [hidle] at hbeat
    cases hbeat
  · rw [heq]
    exact ⟨h.answered (by rw [hbeat]; exact nofun),
      iff_of_true (promised_of_answer h _ hbeat hans) fun _ _ hno => absurd hans hno⟩
  · obtain ⟨hinv, hiff⟩ := step_of_giveUp h hb (by rw [hidle]; exact nofun) now beat
    rw [heq]
    refine ⟨hinv, hiff.trans (iff_of_true (.inl ⟨hidle, hneg⟩) fun _ hbeat => ?_)⟩
    rw [hidle] at hbeat
    cases hbeat
  · obtain ⟨hinv, hiff⟩ := step_of_giveUp h (bypasses_ft h (fun _ => rfl) (List.Subset.refl _))
      (c := c) (by rw [hbeat]; exact nofun) now beat
    rw [heq]
    refine ⟨hinv, hiff.trans ?_⟩
    obtain ⟨b, hround⟩ := h.round c hbeat
    have hnot : ¬ AnsweredBy w c b := fun hby =>
      hans ((answered_iff h hbeat hround.last).2 hby)
    constructor
    · rintro (⟨hidle, -⟩ | ⟨-, b', hb', -, htime⟩) - - - hwraps
      · rw [hbeat] at hidle
        cases hidle
      · obtain rfl : b' = b := Option.some.inj (hb'.symm.trans hround.last)
        have hback := hwraps.overdue.2
        rw [hround.time] at hback
        have hlow : (1000 : ℤ) ≤ max (ftMs env) 1000 := le_max_right ..
        omega
    · intro hclock
      refine .inr ⟨hbeat, b, hround.last, hnot, ?_⟩
      rw [← hround.time]
      exact time_of_overdue hover (hclock hsize hbeat hans)

/-- **Every step** keeps the invariant, and what is promised of it if the clock is kept. -/
theorem beatStep_spec (h : BeatInv w) {a : BeatAction} (ht : beatStep env w a = some t) :
    BeatInv t ∧ (Promised env w a t ↔ ClockKept env w a) := by
  have hfree : ∀ {a t}, ClockKept env w a → BeatInv t ∧ Promised env w a t →
      BeatInv t ∧ (Promised env w a t ↔ ClockKept env w a) :=
    fun hclock hx => ⟨hx.1, iff_of_true hx.2 hclock⟩
  cases a with
  | create k c =>
      simp only [beatStep, Option.ite_none_right_eq_some, Option.some.injEq] at ht
      obtain ⟨hnone, rfl⟩ := ht
      refine hfree trivial (step_of_bypasses h (bypasses_requests h (h.contexts.new hnone c)
        (fun d q hq => ?_) (fun _ => rfl) (List.Subset.refl _)) _)
      exact h.ids d q (by simpa [Core.setRequest] using hq)
  | post k call =>
      simp only [beatStep, Option.ite_none_right_eq_some, Option.some.injEq] at ht
      obtain ⟨hon, rfl⟩ := ht
      exact hfree trivial (step_of_bypasses h (bypasses_asyncPost h hon call) _)
  | fabric e =>
      cases e with
      | heartbeatValue => cases ht
      | success | error | postPendingOps =>
          obtain rfl := Option.some.inj ht
          exact hfree trivial (step_of_bypasses h (bypasses_fabricEvent h (by simp)) _)
  | land op c value =>
      simp only [beatStep, Option.ite_none_right_eq_some, Option.some.injEq] at ht
      obtain ⟨⟨hop, howner⟩, rfl⟩ := ht
      have hinv := h.land env hop howner value
      exact hfree trivial ⟨hinv,
        promised_of_quiet _ hinv (Ft.setComm_same (·.ftCurrentStatus) rfl) rfl rfl⟩
  | cancel r =>
      simp only [beatStep] at ht
      split at ht
      case h_1 => cases ht
      case h_2 q hq =>
        simp only [Option.ite_none_right_eq_some, Option.some.injEq] at ht
        obtain ⟨-, rfl⟩ := ht
        exact hfree trivial (step_of_bypasses h (bypasses_eraseOps h _) _)
  | complete r err =>
      simp only [beatStep, Option.ite_none_right_eq_some, Option.some.injEq] at ht
      obtain ⟨⟨hr, -⟩, rfl⟩ := ht
      exact hfree trivial (step_of_bypasses h (bypasses_complete h hr err 0) _)
  | free r =>
      simp only [beatStep, Option.ite_none_right_eq_some, Option.some.injEq] at ht
      obtain ⟨⟨-, hon⟩, rfl⟩ := ht
      exact hfree trivial (step_of_bypasses h (bypasses_requests h (h.contexts.clear hon)
        (h.ids.progress (clear_progressed hon)) (fun _ => rfl) (List.Subset.refl _)) _)
  | report r c =>
      obtain rfl := Option.some.inj ht
      have hb : Bypasses w.ep (reportTo w.ep r c) := bypasses_requests h
        (h.contexts.reportTo r c) (h.ids.reportTo r c) (fun _ => rfl) (List.Subset.refl _)
      exact hfree trivial (step_of_bypasses h hb _)
  | processComm c now beat =>
      simp only [beatStep, Option.ite_none_right_eq_some, Option.some.injEq] at ht
      obtain ⟨-, rfl⟩ := ht
      exact process_spec h c now beat
  | cancelComm c =>
      simp only [beatStep, Option.ite_none_right_eq_some, Option.some.injEq] at ht
      obtain ⟨-, rfl⟩ := ht
      have hinv := h.markCanceled c
      exact hfree trivial ⟨hinv,
        promised_of_quiet _ hinv (Ft.setComm_same (·.ftCurrentStatus) rfl) rfl rfl⟩
  | eraseComm c =>
      simp only [beatStep, Option.ite_none_right_eq_some, Option.some.injEq] at ht
      obtain ⟨-, rfl⟩ := ht
      refine hfree trivial (step_of_bypasses h ?_ _)
      exact bypasses_ft h (fun _ => rfl) (List.Subset.refl _)
  | removeComm c =>
      simp only [beatStep, Option.ite_none_right_eq_some, Option.some.injEq] at ht
      obtain ⟨-, rfl⟩ := ht
      refine hfree trivial (step_of_bypasses h ?_ _)
      exact bypasses_ft h (fun _ => rfl) (List.Subset.refl _)
  | note pending toCancel last count failed =>
      obtain rfl := Option.some.inj ht
      refine hfree trivial (step_of_bypasses h ?_ _)
      exact bypasses_ft h (fun _ => rfl) (List.Subset.refl _)
  | clear =>
      obtain rfl := Option.some.inj ht
      refine hfree trivial (step_of_bypasses h ?_ _)
      exact bypasses_ft h (fun _ => rfl) (List.nil_subset _)

/-- Nothing has happened yet. -/
theorem Fresh.beatInv {s : State} (h : Fresh s) : BeatInv (Beating.start s) where
  contexts := h.contextInv
  ids := h.heartbeatIds
  numbered op hop := by
    simp [Beating.start, Core.ops, h.priorityOps, h.pendingOps, h.inFlight] at hop
  landed c p v hv := by cases hv
  waited op hop := by
    simp [Beating.start, Core.ops, h.priorityOps, h.pendingOps, h.inFlight] at hop
  one c op hop := by
    simp [Beating.start, Core.ops, h.priorityOps, h.pendingOps, h.inFlight] at hop
  collected c hc := by
    rw [Beating.start, h.canceled] at hc
    cases hc
  given c hc := by cases hc
  once := List.nodup_nil
  round c hc := by
    rw [Beating.start, h.idle c] at hc
    cases hc

/-- **Heartbeats.**  Along a run everything that is promised of its steps holds exactly if no
pass that waits for an answer has a clock that was put back so far that the time wraps. -/
theorem heartbeats_iff (env : Env) {s : State} (hs : Fresh s) {as : List BeatAction}
    (h : exec (beatStep env) (Beating.start s) as = some w) :
    Meets (beatStep env) (fun w a => ∀ t, beatStep env w a = some t → Promised env w a t)
        (Beating.start s) as ↔
      Meets (beatStep env) (ClockKept env) (Beating.start s) as := by
  refine meets_congr (I := BeatInv) (H := fun _ _ => True)
    (fun w a t hw ht => (beatStep_spec hw ht).1) (fun w a t hw _ ht => ?_) hs.beatInv h
    (meets_of_forall (fun _ _ => trivial) _ _)
  rw [← (beatStep_spec hw ht).2]
  constructor
  · exact fun hall => hall t ht
  · intro hp t' ht'
    rwa [← Option.some.inj (ht.symm.trans ht')]

/-- A peer, and a receive from it that does not complete. -/
def waitingPeer : Beating := .start (freshState {0} (fun _ => 0) 0)

/-- After six seconds the peer gets a heartbeat. -/
def silentRun : List BeatAction :=
  [.post 0 (.recv 7 8 1 false false), .processComm 0 6000000000 6000000000]

/-- The heartbeat is posted, its word is written and its entry is read; the next pass finds the
answer. -/
def answeredRun : List BeatAction :=
  silentRun ++ [.fabric (.postPendingOps [0] 0),
    .land ⟨.get, 0, 8, 0, 0, 2 ^ 64 - 1, 1, .heartbeat 0, 1⟩ 0 hearbeatCode,
    .fabric (.success 1 0 0 6001000000), .processComm 0 6010000000 6010000000]

/-- `heartbeats_iff` at a heartbeat that is answered. -/
theorem heartbeats_answered :
    Meets (beatStep .default) (fun w a => ∀ t, beatStep .default w a = some t →
        Promised .default w a t) waitingPeer answeredRun ↔
      Meets (beatStep .default) (ClockKept .default) waitingPeer answeredRun :=
  heartbeats_iff .default (fresh_freshState ..) (Option.some_get
    (show (exec (beatStep .default) waitingPeer answeredRun).isSome by decide)).symm

/-- The clock of the pass is 2^32 - 6000 milliseconds before the heartbeat. -/
def clockBack : ℤ := 6000000000 - (2 ^ 32 - 6000) * 1000000

/-- **A false alarm.**  The clock is put back by seven weeks, and the peer that has just got its
heartbeat is put in the list to cancel. -/
theorem heartbeats_wrap : ¬ ∀ (env : Env) (s : State) (as : List BeatAction) (w : Beating),
    Fresh s → exec (beatStep env) (Beating.start s) as = some w →
      Meets (beatStep env) (fun w a => ∀ t, beatStep env w a = some t → Promised env w a t)
        (Beating.start s) as := by
  intro h
  have hrun := h .default (freshState {0} (fun _ => 0) 0)
    (silentRun ++ [.processComm 0 clockBack clockBack]) _ (fresh_freshState ..)
    (Option.some_get (by decide)).symm
  have hlast := ((meets_append _ _ _).1 hrun).2
    ((exec (beatStep .default) waitingPeer silentRun).get (by decide)) (Option.some_get _).symm
  obtain ⟨now, beat, heq, hsilent⟩ := (hlast.1 _ (Option.some_get (by decide)).symm).alarm 0
    (by decide) (by decide)
  obtain ⟨-, rfl, -⟩ := BeatAction.processComm.inj heq
  rcases hsilent with ⟨hidle, -⟩ | ⟨-, b, hb, -, htime⟩
  · revert hidle
    decide
  · have hbeat : b = ⟨1, 6000000000⟩ := Option.some.inj (hb.symm.trans rfl)
    rw [hbeat] at htime
    revert htime
    decide

end Impl
end Lfi
