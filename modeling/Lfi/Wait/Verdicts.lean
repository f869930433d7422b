/-
# What a time-out says

`wait` says that the time was over only if its request was not completed when it looked for the
last time, and wrongly only if a completion comes between this look and the return.  The loops of
`wait_num` say so whenever `is_timeout` was set, and `is_timeout` says nothing about the requests:
the answer is wrong in exactly the runs in which enough of them are completed when the time is
found to be over, or after that and before the call returns (`timeout_verdicts_iff`).
-/

import Lfi.Wait.Timeout

namespace Lfi
namespace Wait

open Impl Runs

variable {ρ : Type*} [DecidableEq ρ] {c : TimedCall ρ} {s t : Timed ρ} {r : ρ} {v : ℤ}

/-- The action completes the request. -/
def TimedAction.Completes (r : ρ) : TimedAction ρ → Bool
  | .complete r' _ => r' = r
  | _ => false

/-! ### What a step does -/

/-- A change of a request that leaves it completed or not. -/
theorem update_isCompleted {request : ρ → LfiRequest} {q : LfiRequest}
    (hq : q.isCompleted = (request r).isCompleted) (r' : ρ) :
    (Function.update request r q r').isCompleted = (request r').isCompleted := by
  by_cases hr : r' = r
  · subst hr
    rw [Function.update_self, hq]
  · rw [Function.update_of_ne hr]

/-- The completion of a request. -/
theorem complete_isCompleted (request : ρ → LfiRequest) (r : ρ) (err : ℤ) (r' : ρ) :
    (Function.update request r { request r with error := err, waitContext := none }
      r').isCompleted =
        ((request r').isCompleted || TimedAction.Completes r' (.complete r err)) := by
  by_cases hr : r' = r
  · subst hr
    simp [LfiRequest.isCompleted, TimedAction.Completes]
  · simp [Function.update_of_ne hr, TimedAction.Completes, Ne.symm hr]

theorem Timed.setUpRequest_eq (c : TimedCall ρ) (s : Timed ρ) (r : ρ) :
    ∃ q, q.sharedWaitStruct = some c.frame ∧ q.isCompleted = (s.request r).isCompleted ∧
      s.setUpRequest c r = { s with
        request := Function.update s.request r q
        waitCount := if (s.request r).isCompleted then s.waitCount - 1 else s.waitCount } := by
  unfold Timed.setUpRequest
  dsimp only
  split
  case isTrue hq =>
    change (s.request r).isCompleted = true at hq
    refine ⟨{ s.request r with sharedWaitStruct := some c.frame }, rfl, rfl, ?_⟩
    rw [if_pos hq]
    rfl
  case isFalse hq =>
    change ¬ (s.request r).isCompleted = true at hq
    rw [if_neg hq]
    split
    case isTrue =>
      exact ⟨{ s.request r with sharedWaitStruct := some c.frame, error := lfiSuccess }, rfl, rfl,
        rfl⟩
    case isFalse => exact ⟨{ s.request r with sharedWaitStruct := some c.frame }, rfl, rfl, rfl⟩

theorem Timed.cleanUpRequest_eq (s : Timed ρ) (r : ρ) (index : ℕ) :
    ∃ q, q.sharedWaitStruct = none ∧ q.isCompleted = (s.request r).isCompleted ∧
      s.cleanUpRequest r index = { s with
        request := Function.update s.request r q
        outIndex := if (s.request r).isCompleted ∧ s.outIndex = -1 then (index : ℤ)
          else s.outIndex } := by
  unfold Timed.cleanUpRequest
  dsimp only
  split
  case isTrue hq =>
    change (s.request r).isCompleted = true at hq
    refine ⟨{ s.request r with sharedWaitStruct := none }, rfl, rfl, ?_⟩
    simp [hq, Timed.setRequest]
  case isFalse hq =>
    change ¬ (s.request r).isCompleted = true at hq
    have hout : ¬ ((s.request r).isCompleted = true ∧ s.outIndex = -1) := fun h => hq h.1
    rw [if_neg hout]
    split
    case isTrue =>
      exact ⟨{ s.request r with sharedWaitStruct := none, error := -lfiTimeout }, rfl, rfl, rfl⟩
    case isFalse => exact ⟨{ s.request r with sharedWaitStruct := none }, rfl, rfl, rfl⟩

/-- Where an action can take the thread without touching a request, and what it makes of the
lead and of `is_timeout`. -/
inductive TimedMoves (c : TimedCall ρ) (s : Timed ρ) :
    TimedAction ρ → TimedPhase → Bool → Bool → Prop where
  | setUpDone {i : ℕ} (hp : s.phase = .setUp i) (hi : c.requests.length ≤ i) :
      TimedMoves c s .setUp .check s.leader s.isTimeout
  | turn (hp : s.phase = .check) (hcount : 0 < s.waitCount) (htime : s.isTimeout = false) :
      TimedMoves c s .check .body s.leader s.isTimeout
  | leave (hp : s.phase = .check) (hleave : s.waitCount ≤ 0 ∨ s.isTimeout = true) (first : ℕ) :
      TimedMoves c s .check (.cleanUp first 0) s.leader s.isTimeout
  | lead (hp : ∀ v, s.phase ≠ .returned v) : TimedMoves c s .lead s.phase true s.isTimeout
  | progress (hp : s.phase = .body) (hlead : s.leader = true) :
      TimedMoves c s .progress .clock s.leader s.isTimeout
  | expired {ms : ℤ} (hp : s.phase = .body) (hlead : s.leader = false) (hlimit : 0 ≤ c.timeoutMs)
      (hover : c.timeoutMs ≤ ms) : TimedMoves c s (.elapsed ms) .check s.leader true
  | inTime {ms : ℤ} (hp : s.phase = .body) (hlead : s.leader = false)
      (hlimit : 0 ≤ c.timeoutMs) (hover : ¬ c.timeoutMs ≤ ms) :
      TimedMoves c s (.elapsed ms) s.wait.phase s.leader s.isTimeout
  | sleep (hp : s.phase = .body) (hlead : s.leader = false) (hlimit : c.timeoutMs < 0) :
      TimedMoves c s .sleep s.wait.phase s.leader s.isTimeout
  | wake (hp : s.phase = .asleep) (hawake : 0 ≤ c.timeoutMs ∨ s.awake = true) :
      TimedMoves c s .wake .clock s.leader s.isTimeout
  | clock {ms : ℤ} (hp : s.phase = .clock) :
      TimedMoves c s (.clock ms) .check s.leader (s.isTimeout || checkTimeout c.timeoutMs ms)
  | cleanedUp {first i : ℕ} (hp : s.phase = .cleanUp first i) (hi : c.requests.length ≤ i) :
      TimedMoves c s .cleanUp .verdict s.leader s.isTimeout
  | verdict (hp : s.phase = .verdict) : TimedMoves c s .verdict
      (.returned (if s.isTimeout then -lfiTimeout else s.outIndex)) s.leader s.isTimeout
  | otherCall (hp : ∀ v, s.phase ≠ .returned v) :
      TimedMoves c s .otherCall s.phase s.leader s.isTimeout

/-- The thread moves on to `t`. -/
def TimedOn (c : TimedCall ρ) (s : Timed ρ) (a : TimedAction ρ) (t : Timed ρ) : Prop :=
  ∃ phase leader time n, TimedMoves c s a phase leader time ∧
    t = { s with phase := phase, leader := leader, isTimeout := time, linearCounter := n }

omit [DecidableEq ρ] in
theorem TimedOn.of {a : TimedAction ρ} {phase : TimedPhase} {leader time : Bool} {n : ℕ}
    (hm : TimedMoves c s a phase leader time)
    (h : t = { s with phase := phase, leader := leader, isTimeout := time, linearCounter := n }) :
    TimedOn c s a t :=
  ⟨phase, leader, time, n, hm, h⟩

/-- The set-up loop. -/
theorem timedStep_setUp (ht : timedStep c s .setUp = some t) :
    (∃ i r, s.phase = .setUp i ∧ c.requests[i]? = some r ∧
      t = { s.setUpRequest c r with phase := .setUp (i + 1) }) ∨ TimedOn c s .setUp t := by
  simp only [timedStep] at ht
  split at ht
  case h_2 => cases ht
  case h_1 i hp =>
    cases hi : c.requests[i]? with
    | some r =>
      rw [hi] at ht
      exact .inl ⟨i, r, hp, hi, (Option.some.inj ht).symm⟩
    | none =>
      rw [hi] at ht
      exact .inr (.of (.setUpDone hp (List.getElem?_eq_none_iff.1 hi))
        (Option.some.inj ht).symm)

/-- The head of the wait loop. -/
theorem timedStep_check (ht : timedStep c s .check = some t) : TimedOn c s .check t := by
  simp only [timedStep] at ht
  split at ht
  case isFalse => cases ht
  case isTrue hp =>
    split at ht <;> obtain rfl := Option.some.inj ht
    case isTrue hgo => exact .of (.turn hp hgo.1 hgo.2) rfl
    case isFalse hgo =>
      have hleave : s.waitCount ≤ 0 ∨ s.isTimeout = true := by
        cases htime : s.isTimeout with
        | true => exact .inr rfl
        | false =>
          rw [htime] at hgo
          exact .inl (by simpa using hgo)
      exact .of (.leave hp hleave _) rfl

/-- The clock before the wait on `wait_cv`. -/
theorem timedStep_elapsed {ms : ℤ} (ht : timedStep c s (.elapsed ms) = some t) :
    TimedOn c s (.elapsed ms) t := by
  simp only [timedStep, Option.ite_none_right_eq_some] at ht
  obtain ⟨⟨hp, hlead, hlimit⟩, ht⟩ := ht
  split at ht <;> obtain rfl := Option.some.inj ht
  case isTrue hover => exact .of (.expired hp hlead hlimit hover) rfl
  case isFalse hover => exact .of (.inTime hp hlead hlimit hover) rfl

/-- The clean-up loop. -/
theorem timedStep_cleanUp (ht : timedStep c s .cleanUp = some t) :
    (∃ first i r, s.phase = .cleanUp first i ∧ i < c.requests.length ∧
      c.requests[(first + i) % c.requests.length]? = some r ∧
      t = { s.cleanUpRequest r ((first + i) % c.requests.length) with
        phase := .cleanUp first (i + 1) }) ∨ TimedOn c s .cleanUp t := by
  simp only [timedStep] at ht
  split at ht
  case h_2 => cases ht
  case h_1 first i hp =>
    split at ht
    case isTrue hlt =>
      obtain ⟨index, hindex, ht⟩ := Option.bind_eq_some_iff.1 ht
      obtain ⟨r, hr, rfl⟩ := Option.map_eq_some_iff.1 ht
      obtain rfl := rotated_eq hindex
      exact .inl ⟨first, i, r, hp, hlt, hr, rfl⟩
    case isFalse hlt => exact .inr (.of (.cleanedUp hp (by omega)) (Option.some.inj ht).symm)

/-- A completion, until the call has returned. -/
theorem timedStep_complete {err : ℤ} (ht : timedStep c s (.complete r err) = some t) :
    (∀ v, s.phase ≠ .returned v) ∧ (s.request r).isCompleted = false ∧
      t = s.completeRequest c r err := by
  simp only [timedStep] at ht
  split at ht
  case h_1 => cases ht
  case h_2 hp =>
    split at ht
    case isTrue => cases ht
    case isFalse hr => exact ⟨hp, by simpa using hr, (Option.some.inj ht).symm⟩

/-- **What an action of the loops can do.** -/
theorem timedStep_cases {a : TimedAction ρ} (ht : timedStep c s a = some t) :
    (∃ i r, a = .setUp ∧ s.phase = .setUp i ∧ c.requests[i]? = some r ∧
      t = { s.setUpRequest c r with phase := .setUp (i + 1) }) ∨
    (∃ first i r, a = .cleanUp ∧ s.phase = .cleanUp first i ∧ i < c.requests.length ∧
      c.requests[(first + i) % c.requests.length]? = some r ∧
      t = { s.cleanUpRequest r ((first + i) % c.requests.length) with
        phase := .cleanUp first (i + 1) }) ∨
    (∃ r err, a = .complete r err ∧ (∀ v, s.phase ≠ .returned v) ∧
      (s.request r).isCompleted = false ∧ t = s.completeRequest c r err) ∨
    ∃ phase leader time n, TimedMoves c s a phase leader time ∧
      t = { s with phase := phase, leader := leader, isTimeout := time, linearCounter := n } := by
  cases a with
  | setUp =>
    rcases timedStep_setUp ht with ⟨i, r, hr⟩ | hon
    · exact .inl ⟨i, r, rfl, hr⟩
    · exact .inr (.inr (.inr hon))
  | cleanUp =>
    rcases timedStep_cleanUp ht with ⟨first, i, r, hr⟩ | hon
    · exact .inr (.inl ⟨first, i, r, rfl, hr⟩)
    · exact .inr (.inr (.inr hon))
  | complete r err => exact .inr (.inr (.inl ⟨r, err, rfl, timedStep_complete ht⟩))
  | check => exact .inr (.inr (.inr (timedStep_check ht)))
  | elapsed ms => exact .inr (.inr (.inr (timedStep_elapsed ht)))
  | recheck ms => cases ht
  | load => cases ht
  | lead =>
    simp only [timedStep] at ht
    split at ht
    case h_1 => cases ht
    case h_2 hp => exact .inr (.inr (.inr (TimedOn.of (.lead hp) (Option.some.inj ht).symm)))
  | progress =>
    simp only [timedStep, Option.ite_none_right_eq_some, Option.some.injEq] at ht
    exact .inr (.inr (.inr (TimedOn.of (.progress ht.1.1 ht.1.2) ht.2.symm)))
  | sleep =>
    simp only [timedStep, Option.ite_none_right_eq_some, Option.some.injEq] at ht
    obtain ⟨⟨hp, hlead, hlimit⟩, rfl⟩ := ht
    exact .inr (.inr (.inr (TimedOn.of (.sleep hp hlead hlimit) rfl)))
  | wake =>
    simp only [timedStep, Option.ite_none_right_eq_some, Option.some.injEq] at ht
    exact .inr (.inr (.inr (TimedOn.of (.wake ht.1.1 ht.1.2) ht.2.symm)))
  | clock ms =>
    simp only [timedStep, Option.ite_none_right_eq_some, Option.some.injEq] at ht
    exact .inr (.inr (.inr (TimedOn.of (.clock ht.1) ht.2.symm)))
  | verdict =>
    simp only [timedStep, Option.ite_none_right_eq_some, Option.some.injEq] at ht
    exact .inr (.inr (.inr (TimedOn.of (.verdict ht.1) ht.2.symm)))
  | otherCall =>
    simp only [timedStep] at ht
    split at ht
    case h_1 => cases ht
    case h_2 hp => exact .inr (.inr (.inr (TimedOn.of (.otherCall hp) (Option.some.inj ht).symm)))

/-- **It completes the request it says**, and sets `is_timeout` when it finds the time over. -/
theorem timedStep_effect {a : TimedAction ρ} (ht : timedStep c s a = some t) :
    (∀ r, (t.request r).isCompleted = ((s.request r).isCompleted || a.Completes r)) ∧
      t.isTimeout = (s.isTimeout || a.FindsOver c.timeoutMs) := by
  rcases timedStep_cases ht with ⟨i, r, rfl, -, -, rfl⟩ | ⟨first, i, r, rfl, -, -, -, rfl⟩ |
    ⟨r, err, rfl, -, -, rfl⟩ | ⟨phase, leader, time, n, hm, rfl⟩
  · obtain ⟨q, -, hq, heq⟩ := s.setUpRequest_eq c r
    rw [heq]
    exact ⟨fun r' => (update_isCompleted hq r').trans (Bool.or_false _).symm,
      (Bool.or_false _).symm⟩
  · obtain ⟨q, -, hq, heq⟩ := s.cleanUpRequest_eq r ((first + i) % c.requests.length)
    rw [heq]
    exact ⟨fun r' => (update_isCompleted hq r').trans (Bool.or_false _).symm,
      (Bool.or_false _).symm⟩
  · exact ⟨complete_isCompleted s.request r err, (Bool.or_false _).symm⟩
  · cases hm <;> simp_all [TimedAction.Completes, TimedAction.FindsOver]

/-! ### The verdict of `wait_num` -/

/-- The call will say that the time was over, and the requests are completed. -/
def Timed.Wrong (c : TimedCall ρ) (s : Timed ρ) : Prop :=
  s.isTimeout = true ∧ c.howMany ≤ s.completed c

/-- One more is completed, wherever it is in the array. -/
theorem countP_or_eq {p : ρ → Bool} (l : List ρ) (hp : p r = false) :
    l.countP (fun r' => p r' || decide (r = r')) = l.countP p + l.count r := by
  induction l with
  | nil => rfl
  | cons r' l ih =>
    rw [List.countP_cons, List.countP_cons, List.count_cons, ih]
    by_cases hr : r = r'
    · subst hr
      simp only [hp, decide_true, Bool.or_true, if_true, Bool.false_eq_true, if_false,
        beq_self_eq_true]
      omega
    · have hne : (r' == r) = false := beq_eq_false_iff_ne.2 (Ne.symm hr)
      simp only [hr, hne, decide_false, Bool.or_false, Bool.false_eq_true, if_false]
      omega

theorem completed_step {a : TimedAction ρ} (ht : timedStep c s a = some t) :
    (∃ r err, a = .complete r err ∧
        t.completed c = s.completed c + c.requests.count r) ∨
      (∀ r err, a ≠ .complete r err) ∧ t.completed c = s.completed c := by
  obtain ⟨hdone, -⟩ := timedStep_effect ht
  have hcount : t.completed c =
      c.requests.countP fun r => (s.request r).isCompleted || a.Completes r :=
    List.countP_congr fun r _ => by rw [hdone]
  by_cases hcomplete : ∃ r err, a = .complete r err
  · obtain ⟨r, err, rfl⟩ := hcomplete
    obtain ⟨-, hnot, -⟩ := timedStep_complete ht
    exact .inl ⟨r, err, rfl, hcount.trans (countP_or_eq c.requests hnot)⟩
  · have hnone : ∀ r, a.Completes r = false := fun r => by
      cases a <;> first | rfl | exact absurd ⟨_, _, rfl⟩ hcomplete
    refine .inr ⟨fun r err h => hcomplete ⟨r, err, h⟩, ?_⟩
    simpa [Timed.completed, hnone] using hcount

/-- A step that is not punctual makes the verdict wrong. -/
theorem wrong_step {a : TimedAction ρ} (h : ¬ s.Wrong c) (ht : timedStep c s a = some t) :
    t.Wrong c ↔ ¬ Punctual c s a := by
  obtain ⟨-, hover⟩ := timedStep_effect ht
  rcases completed_step ht with ⟨r, err, rfl, hcount⟩ | ⟨hother, hcount⟩
  · have hsame : t.isTimeout = s.isTimeout := hover.trans (Bool.or_false _)
    simp only [Timed.Wrong, Punctual, hsame, hcount, not_and, Nat.not_le] at h ⊢
    constructor
    · rintro ⟨htime, hle⟩ hall
      exact absurd (hall htime) (by omega)
    · intro hall
      by_contra hwrong
      exact hall fun htime => by
        by_contra hle
        exact hwrong ⟨htime, by omega⟩
  · have hpunctual : Punctual c s a ↔
        (a.FindsOver c.timeoutMs = true → s.completed c < c.howMany) := by
      cases a <;> first | exact Iff.rfl | exact absurd rfl (hother _ _)
    rw [hpunctual]
    simp only [Timed.Wrong, hover, hcount, not_and, Nat.not_le, Bool.or_eq_true] at h ⊢
    constructor
    · rintro ⟨htime | hfinds, hle⟩ hall
      · exact absurd (h htime) (by omega)
      · exact absurd (hall hfinds) (by omega)
    · intro hall
      by_contra hwrong
      exact hall fun hfinds => by
        by_contra hle
        exact hwrong ⟨.inr hfinds, by omega⟩

theorem wrong_stays {a : TimedAction ρ} (h : s.Wrong c) (ht : timedStep c s a = some t) :
    t.Wrong c := by
  obtain ⟨-, hover⟩ := timedStep_effect ht
  refine ⟨by rw [hover, h.1, Bool.true_or], ?_⟩
  rcases completed_step ht with ⟨r, err, -, hcount⟩ | ⟨-, hcount⟩
  · exact h.2.trans (by omega)
  · exact h.2.trans hcount.ge

/-- What the run makes of the verdict. -/
theorem meets_punctual_iff {as : List (TimedAction ρ)} (hs : s.isTimeout = false)
    (h : exec (timedStep c) s as = some t) :
    Meets (timedStep c) (Punctual c) s as ↔ ¬ t.Wrong c := by
  refine meets_iff_not (I := fun s => ¬ s.Wrong c) (fun s a t hI hG ht hwrong => ?_)
    (fun s a t hI hG ht => (wrong_step hI ht).2 hG) (fun s a t hI ht => wrong_stays hI ht)
    (fun _ => id) (fun hwrong => ?_) h
  · exact (wrong_step hI ht).1 hwrong hG
  · exact absurd (hs.symm.trans hwrong.1) (by decide)

/-- What the call returns, and how the index stands before. -/
def ReturnInv (s : Timed ρ) : Prop :=
  -1 ≤ s.outIndex ∧
    ∀ v, s.phase = .returned v → v = if s.isTimeout then -lfiTimeout else s.outIndex

theorem ReturnInv.step {a : TimedAction ρ} (h : ReturnInv s) (ht : timedStep c s a = some t) :
    ReturnInv t := by
  rcases timedStep_cases ht with ⟨i, r, -, -, -, rfl⟩ | ⟨first, i, r, -, -, -, -, rfl⟩ |
    ⟨r, err, -, hp, -, rfl⟩ | ⟨phase, leader, time, n, hm, rfl⟩
  · obtain ⟨q, -, -, heq⟩ := s.setUpRequest_eq c r
    rw [heq]
    exact ⟨h.1, nofun⟩
  · obtain ⟨q, -, -, heq⟩ := s.cleanUpRequest_eq r ((first + i) % c.requests.length)
    rw [heq]
    refine ⟨?_, nofun⟩
    dsimp only
    split
    case isTrue => omega
    case isFalse => exact h.1
  · exact ⟨h.1, fun v hv => absurd hv (hp v)⟩
  · refine ⟨h.1, fun v hv => ?_⟩
    cases hm with
    | verdict => exact (TimedPhase.returned.inj hv).symm
    | lead hp => exact absurd hv (hp v)
    | otherCall hp => exact absurd hv (hp v)
    | inTime => exact absurd hv (by unfold Timed.wait; split <;> exact nofun)
    | sleep => exact absurd hv (by unfold Timed.wait; split <;> exact nofun)
    | _ => cases hv

omit [DecidableEq ρ] in
/-- The answer is that the time was over when `is_timeout` is set, and then only. -/
theorem ReturnInv.timeout_iff (h : ReturnInv s) (hv : s.phase = .returned v) :
    v = -lfiTimeout ↔ s.isTimeout = true := by
  obtain ⟨hout, hret⟩ := h
  rw [hret v hv]
  cases s.isTimeout with
  | true => exact iff_of_true rfl rfl
  | false =>
    refine iff_of_false (fun heq => ?_) (by decide)
    rw [show s.outIndex = -lfiTimeout from heq] at hout
    exact absurd hout (by decide)

/-! ### The verdict of `wait` -/

/-- What the call says of the time, once it has looked at the request for the last time. -/
def SinglePhase.answer : SinglePhase → Option Bool
  | .decided expired => some expired
  | .returned ret => some (ret = -lfiTimeout)
  | _ => none

/-- The leader's loop runs while `is_timeout` is not set, and the call has looked before it
returns. -/
structure SingleInv (r : ρ) (w : Single ρ) : Prop where
  running : w.phase = .progress ∨ w.phase = .clock → w.isTimeout = false
  expired : w.phase.answer = some true → w.isTimeout = true
  inTime : w.phase.answer = some false → w.isTimeout = true → (w.request r).isCompleted = true
  returned : ∀ u, w.phase = .returned u → u = -lfiTimeout ∨ u = lfiSuccess

variable {timeoutMs : ℤ} {w w' : Single ρ}

/-- The phases of which the invariant says nothing. -/
def SinglePhase.Quiet : SinglePhase → Prop
  | .progress | .clock | .decided _ | .returned _ => False
  | _ => True

theorem SinglePhase.Quiet.answer {phase : SinglePhase} (h : phase.Quiet) : phase.answer = none := by
  cases phase <;> first | rfl | exact h.elim

omit [DecidableEq ρ] in
theorem SingleInv.of_quiet (h : w.phase.Quiet) : SingleInv r w where
  running hp := by
    rcases hp with hp | hp <;> rw [hp] at h <;> exact h.elim
  expired hs := by
    rw [h.answer] at hs
    cases hs
  inTime hs := by
    rw [h.answer] at hs
    cases hs
  returned u hu := by
    rw [hu] at h
    exact h.elim

omit [DecidableEq ρ] in
theorem SingleEntered.inv (h : SingleEntered w) : SingleInv r w := by
  refine .of_quiet ?_
  rw [h.phase]
  trivial

omit [DecidableEq ρ] in
theorem Single.wait_quiet (r : ρ) (w : Single ρ) : (w.wait r).phase.Quiet := by
  unfold Single.wait
  dsimp only
  split <;> trivial

/-- What the actions of `wait` do. -/
inductive SingleMoves (timeoutMs : ℤ) (r : ρ) (w : Single ρ) : TimedAction ρ → Single ρ → Prop where
  | turn (hp : w.phase = .check) : SingleMoves timeoutMs r w .check
      { w with phase := if w.goesOn r then .body else .verdict }
  | leading (hp : w.phase = .body) (hlead : w.leader = true) :
      SingleMoves timeoutMs r w .check { w with phase := w.leading r }
  | lead (hp : ∀ u, w.phase ≠ .returned u) :
      SingleMoves timeoutMs r w .lead { w with leader := true }
  | progress (hp : w.phase = .progress) :
      SingleMoves timeoutMs r w .progress { w with phase := .clock }
  | expired {ms} (hp : w.phase = .body) (hlead : w.leader = false) (hlimit : 0 ≤ timeoutMs)
      (hover : timeoutMs ≤ ms) :
      SingleMoves timeoutMs r w (.elapsed ms) { w with isTimeout := true, phase := .check }
  | inTime {ms} (hp : w.phase = .body) (hlead : w.leader = false) (hlimit : 0 ≤ timeoutMs)
      (hover : ¬ timeoutMs ≤ ms) : SingleMoves timeoutMs r w (.elapsed ms) (w.wait r)
  | sleep (hp : w.phase = .body) (hlead : w.leader = false) (hlimit : timeoutMs < 0) :
      SingleMoves timeoutMs r w .sleep (w.wait r)
  | wake (hp : w.phase = .asleep)
      (hawake : 0 ≤ timeoutMs ∨ (w.request r).isCompleted = true ∨ w.leader = true) :
      SingleMoves timeoutMs r w .wake { w with phase := .lastClock }
  | clock {ms} (hp : w.phase = .clock) : SingleMoves timeoutMs r w (.clock ms)
      { w with isTimeout := checkTimeout timeoutMs ms, phase := .body }
  | lastClock {ms} (hp : w.phase = .lastClock) : SingleMoves timeoutMs r w (.clock ms)
      { w with isTimeout := w.isTimeout || checkTimeout timeoutMs ms, phase := .check }
  | recheck {ms} (hp : w.phase = .recheck) : SingleMoves timeoutMs r w (.recheck ms)
      { w with isTimeout := w.isTimeout || checkTimeout timeoutMs ms, phase := .check }
  | complete {r' err} (hp : ∀ u, w.phase ≠ .returned u)
      (hr : ¬ (w.request r').isCompleted = true) : SingleMoves timeoutMs r w (.complete r' err)
      (w.setRequest r' { w.request r' with error := err, waitContext := none })
  | load (hp : w.phase = .verdict) : SingleMoves timeoutMs r w .load
      { w with phase := .decided (w.isTimeout && !(w.request r).isCompleted) }
  | timeout (hp : w.phase = .decided true) : SingleMoves timeoutMs r w .verdict
      { w.setRequest r { w.request r with error := -lfiTimeout } with
        phase := .returned (-lfiTimeout) }
  | success (hp : w.phase = .decided false) :
      SingleMoves timeoutMs r w .verdict { w with phase := .returned lfiSuccess }

/-- The heads of the two loops. -/
theorem SingleMoves.of_check (ht : singleStep timeoutMs r w .check = some w') :
    SingleMoves timeoutMs r w .check w' := by
  simp only [singleStep] at ht
  split at ht
  case h_1 hp =>
    obtain rfl := Option.some.inj ht
    exact .turn hp
  case h_2 hp =>
    split at ht
    case isFalse => cases ht
    case isTrue hlead =>
      obtain rfl := Option.some.inj ht
      exact .leading hp hlead
  case h_3 => cases ht

/-- The clock before the wait on the `cv`. -/
theorem SingleMoves.of_elapsed {ms : ℤ} (ht : singleStep timeoutMs r w (.elapsed ms) = some w') :
    SingleMoves timeoutMs r w (.elapsed ms) w' := by
  simp only [singleStep, Option.ite_none_right_eq_some] at ht
  obtain ⟨⟨hp, hlead, hlimit⟩, ht⟩ := ht
  split at ht <;> obtain rfl := Option.some.inj ht
  case isTrue hover => exact .expired hp hlead hlimit hover
  case isFalse hover => exact .inTime hp hlead hlimit hover

/-- The clock inside the loop of a leader, and the one behind a wait. -/
theorem SingleMoves.of_clock {ms : ℤ} (ht : singleStep timeoutMs r w (.clock ms) = some w') :
    SingleMoves timeoutMs r w (.clock ms) w' := by
  simp only [singleStep] at ht
  split at ht
  case h_1 hp =>
    obtain rfl := Option.some.inj ht
    exact .clock hp
  case h_2 hp =>
    obtain rfl := Option.some.inj ht
    exact .lastClock hp
  case h_3 => cases ht

/-- A completion, until the call has returned. -/
theorem SingleMoves.of_complete {r' : ρ} {err : ℤ}
    (ht : singleStep timeoutMs r w (.complete r' err) = some w') :
    SingleMoves timeoutMs r w (.complete r' err) w' := by
  simp only [singleStep] at ht
  split at ht
  case h_1 => cases ht
  case h_2 hp =>
    split at ht
    case isTrue => cases ht
    case isFalse hr =>
      obtain rfl := Option.some.inj ht
      exact .complete hp hr

/-- The return. -/
theorem SingleMoves.of_verdict (ht : singleStep timeoutMs r w .verdict = some w') :
    SingleMoves timeoutMs r w .verdict w' := by
  simp only [singleStep] at ht
  split at ht
  case h_1 hp =>
    obtain rfl := Option.some.inj ht
    exact .timeout hp
  case h_2 hp =>
    obtain rfl := Option.some.inj ht
    exact .success hp
  case h_3 => cases ht

/-- **What an action of `wait` can do.** -/
theorem singleStep_cases {a : TimedAction ρ} (ht : singleStep timeoutMs r w a = some w') :
    SingleMoves timeoutMs r w a w' := by
  cases a with
  | setUp => cases ht
  | cleanUp => cases ht
  | otherCall => cases ht
  | check => exact .of_check ht
  | elapsed ms => exact .of_elapsed ht
  | clock ms => exact .of_clock ht
  | complete r' err => exact .of_complete ht
  | verdict => exact .of_verdict ht
  | lead =>
    simp only [singleStep] at ht
    split at ht
    case h_1 => cases ht
    case h_2 hp =>
      obtain rfl := Option.some.inj ht
      exact .lead hp
  | progress =>
    simp only [singleStep, Option.ite_none_right_eq_some, Option.some.injEq] at ht
    obtain ⟨hp, rfl⟩ := ht
    exact .progress hp
  | sleep =>
    simp only [singleStep, Option.ite_none_right_eq_some, Option.some.injEq] at ht
    obtain ⟨⟨hp, hlead, hlimit⟩, rfl⟩ := ht
    exact .sleep hp hlead hlimit
  | wake =>
    simp only [singleStep, Option.ite_none_right_eq_some, Option.some.injEq] at ht
    obtain ⟨⟨hp, hawake⟩, rfl⟩ := ht
    exact .wake hp hawake
  | recheck ms =>
    simp only [singleStep, Option.ite_none_right_eq_some, Option.some.injEq] at ht
    obtain ⟨hp, rfl⟩ := ht
    exact .recheck hp
  | load =>
    simp only [singleStep, Option.ite_none_right_eq_some, Option.some.injEq] at ht
    obtain ⟨hp, rfl⟩ := ht
    exact .load hp

/-- **A step of `wait`** does to the requests and to `is_timeout` what one of the loops of
`wait_num` does. -/
theorem SingleInv.step {a : TimedAction ρ} (h : SingleInv r w)
    (ht : singleStep timeoutMs r w a = some w') :
    SingleInv r w' ∧
      (∀ r', (w'.request r').isCompleted = ((w.request r').isCompleted || a.Completes r')) ∧
      w'.isTimeout = (w.isTimeout || a.FindsOver timeoutMs) := by
  cases singleStep_cases ht with
  | turn hp =>
    refine ⟨.of_quiet ?_, by simp [TimedAction.Completes], by simp [TimedAction.FindsOver]⟩
    dsimp only
    split <;> trivial
  | leading hp hlead =>
    refine ⟨?_, by simp [TimedAction.Completes], by simp [TimedAction.FindsOver]⟩
    by_cases hgo : w.goesOn r = true
    · have hrunning : w.isTimeout = false := by
        simp only [Single.goesOn, Bool.and_eq_true, Bool.not_eq_true'] at hgo
        exact hgo.2
      have hleading : w.leading r = .progress := if_pos hgo
      rw [hleading]
      exact ⟨fun _ => hrunning, nofun, nofun, nofun⟩
    · refine .of_quiet ?_
      simp only [Single.leading, if_neg hgo]
      split <;> trivial
  | lead hp =>
    exact ⟨⟨h.running, h.expired, h.inTime, h.returned⟩, by simp [TimedAction.Completes],
      by simp [TimedAction.FindsOver]⟩
  | progress hp =>
    exact ⟨⟨fun _ => h.running (.inl hp), nofun, nofun, nofun⟩, by simp [TimedAction.Completes],
      by simp [TimedAction.FindsOver]⟩
  | expired hp hlead hlimit hover =>
    exact ⟨.of_quiet trivial, by simp [TimedAction.Completes],
      by simp [TimedAction.FindsOver, hover]⟩
  | inTime hp hlead hlimit hover =>
    exact ⟨.of_quiet (w.wait_quiet r), by simp [TimedAction.Completes, Single.wait],
      by simp [TimedAction.FindsOver, Single.wait, hover]⟩
  | sleep =>
    exact ⟨.of_quiet (w.wait_quiet r), by simp [TimedAction.Completes, Single.wait],
      by simp [TimedAction.FindsOver, Single.wait]⟩
  | wake =>
    exact ⟨.of_quiet trivial, by simp [TimedAction.Completes], by simp [TimedAction.FindsOver]⟩
  | clock hp =>
    have hrunning := h.running (.inr hp)
    exact ⟨.of_quiet trivial, by simp [TimedAction.Completes],
      by simp [TimedAction.FindsOver, hrunning]⟩
  | lastClock =>
    exact ⟨.of_quiet trivial, by simp [TimedAction.Completes], by simp [TimedAction.FindsOver]⟩
  | recheck =>
    exact ⟨.of_quiet trivial, by simp [TimedAction.Completes], by simp [TimedAction.FindsOver]⟩
  | @complete r' err hp hr =>
    have hdone := complete_isCompleted w.request r' err
    refine ⟨⟨h.running, h.expired, fun hs htime => ?_, h.returned⟩, hdone,
      (Bool.or_false _).symm⟩
    exact (hdone r).trans (by rw [h.inTime hs htime, Bool.true_or])
  | load hp =>
    refine ⟨⟨by simp, fun hs => ?_, fun hs htime => ?_, nofun⟩, by simp [TimedAction.Completes],
      by simp [TimedAction.FindsOver]⟩
    · have hover := Option.some.inj hs
      rw [Bool.and_eq_true] at hover
      exact hover.1
    · have hover := Option.some.inj hs
      rw [show w.isTimeout = true from htime, Bool.true_and, Bool.not_eq_false'] at hover
      exact hover
  | timeout hp =>
    have hsame : ∀ r', ((w.setRequest r { w.request r with error := -lfiTimeout }).request
        r').isCompleted = (w.request r').isCompleted := update_isCompleted rfl
    refine ⟨⟨by simp, fun _ => h.expired (by rw [hp]; rfl), nofun, fun u hu => ?_⟩,
      fun r' => (hsame r').trans (Bool.or_false _).symm, (Bool.or_false _).symm⟩
    exact .inl (SinglePhase.returned.inj hu).symm
  | success hp =>
    refine ⟨⟨by simp, nofun, fun _ => h.inTime (by rw [hp]; rfl), fun u hu => ?_⟩,
      by simp [TimedAction.Completes], by simp [TimedAction.FindsOver]⟩
    exact .inr (SinglePhase.returned.inj hu).symm

/-- So does a run. -/
theorem SingleInv.exec {as : List (TimedAction ρ)} (h : SingleInv r w)
    (hw : exec (singleStep timeoutMs r) w as = some w') :
    SingleInv r w' ∧
      (∀ r', (w'.request r').isCompleted =
        ((w.request r').isCompleted || as.any (·.Completes r'))) ∧
      w'.isTimeout = (w.isTimeout || as.any (·.FindsOver timeoutMs)) := by
  have hstep : ∀ (w : Single ρ) a w', SingleInv r w → singleStep timeoutMs r w a = some w' →
      SingleInv r w' := fun _ _ _ hI hs => (hI.step hs).1
  refine ⟨exec_invariant hstep h hw, fun r' => ?_, ?_⟩
  · exact @exec_flag _ _ _ _ (fun w => (w.request r').isCompleted) (·.Completes r') hstep
      (fun _ _ _ hI hs => (hI.step hs).2.1 r') _ _ _ h hw
  · exact exec_flag hstep (fun _ _ _ hI hs => (hI.step hs).2.2) h hw

theorem answer_load (ht : singleStep timeoutMs r w .load = some w') :
    w.phase = .verdict ∧ w'.request = w.request ∧
      w'.phase.answer = some (w.isTimeout && !(w.request r).isCompleted) := by
  cases singleStep_cases ht with
  | load hp => exact ⟨hp, rfl, rfl⟩

/-- Only the last look says something of the time. -/
theorem answer_step {a : TimedAction ρ} (ha : a ≠ .load)
    (ht : singleStep timeoutMs r w a = some w') : w'.phase.answer = w.phase.answer := by
  cases singleStep_cases ht with
  | load => exact absurd rfl ha
  | lead => rfl
  | complete => rfl
  | turn hp =>
    rw [hp]
    dsimp only
    split <;> rfl
  | leading hp =>
    rw [hp]
    dsimp only [Single.leading]
    split_ifs <;> rfl
  | inTime hp =>
    rw [hp]
    exact (w.wait_quiet r).answer
  | sleep hp =>
    rw [hp]
    exact (w.wait_quiet r).answer
  | progress hp => rw [hp]; rfl
  | expired hp => rw [hp]; rfl
  | wake hp => rw [hp]; rfl
  | clock hp => rw [hp]; rfl
  | lastClock hp => rw [hp]; rfl
  | recheck hp => rw [hp]; rfl
  | timeout hp => rw [hp]; rfl
  | success hp => rw [hp]; rfl

/-- The call says that the time was over, and the request is completed. -/
def Single.Wrong (r : ρ) (w : Single ρ) : Prop :=
  w.phase.answer = some true ∧ (w.request r).isCompleted = true

/-- A completion that is not timely makes the verdict wrong. -/
theorem single_wrong_step {a : TimedAction ρ} (hI : SingleInv r w) (h : ¬ w.Wrong r)
    (ht : singleStep timeoutMs r w a = some w') : w'.Wrong r ↔ ¬ Timely r w a := by
  obtain ⟨-, hdone, -⟩ := hI.step ht
  by_cases hload : a = .load
  · subst hload
    obtain ⟨-, hreq, hanswer⟩ := answer_load ht
    refine iff_of_false (fun hwrong => ?_) (not_not.2 trivial)
    obtain ⟨hover, hr⟩ := hwrong
    rw [hreq] at hr
    rw [hanswer, hr, Bool.not_true, Bool.and_false] at hover
    cases hover
  have hanswer := answer_step hload ht
  by_cases hcomplete : ∃ r' err, a = .complete r' err
  · obtain ⟨r', err, rfl⟩ := hcomplete
    have hnot : ∀ u, w.phase ≠ .returned u := fun u hu => by
      simp [singleStep, hu] at ht
    have hphase : w.phase.answer = some true ↔ w.phase = .decided true := by
      cases hp : w.phase with
      | returned u => exact absurd hp (hnot u)
      | decided expired => simp [SinglePhase.answer]
      | _ => exact ⟨nofun, nofun⟩
    simp only [Single.Wrong, Timely, hanswer, hdone, hphase, TimedAction.Completes] at h ⊢
    by_cases hr : r' = r
    · simp [hr]
    · simpa [hr] using h
  · have htimely : Timely r w a := by
      cases a <;> first | exact trivial | exact absurd ⟨_, _, rfl⟩ hcomplete
    have hnone : a.Completes r = false := by
      cases a <;> first | rfl | exact absurd ⟨_, _, rfl⟩ hcomplete
    refine iff_of_false (fun hwrong => h ?_) (not_not.2 htimely)
    rwa [Single.Wrong, hanswer, hdone, hnone, Bool.or_false] at hwrong

theorem single_wrong_stays {a : TimedAction ρ} (hI : SingleInv r w) (h : w.Wrong r)
    (ht : singleStep timeoutMs r w a = some w') : w'.Wrong r := by
  obtain ⟨-, hdone, -⟩ := hI.step ht
  refine ⟨?_, by rw [hdone, h.2, Bool.true_or]⟩
  by_cases hload : a = .load
  · -- the call does not look again
    subst hload
    have hover := h.1
    rw [(answer_load ht).1] at hover
    cases hover
  · exact (answer_step hload ht).trans h.1

theorem meets_timely_iff {as : List (TimedAction ρ)} (hI : SingleInv r w) (h : ¬ w.Wrong r)
    (hw : Runs.exec (singleStep timeoutMs r) w as = some w') :
    Meets (singleStep timeoutMs r) (Timely r) w as ↔ ¬ w'.Wrong r := by
  have hiff : Meets (singleStep timeoutMs r) (Timely r) w as ↔
      ¬ (SingleInv r w' ∧ w'.Wrong r) := by
    refine meets_iff_not (I := fun w => SingleInv r w ∧ ¬ w.Wrong r)
      (B := fun w => SingleInv r w ∧ w.Wrong r) (fun w a w' hI hG ht => ?_)
      (fun w a w' hI hG ht => ?_) (fun w a w' hB ht => ?_) (fun w hI hB => hI.2 hB.2) ⟨hI, h⟩ hw
    · exact ⟨(hI.1.step ht).1, fun hwrong => (single_wrong_step hI.1 hI.2 ht).1 hwrong hG⟩
    · exact ⟨(hI.1.step ht).1, (single_wrong_step hI.1 hI.2 ht).2 hG⟩
    · exact ⟨(hB.1.step ht).1, single_wrong_stays hB.1 hB.2 ht⟩
  rwa [and_iff_right (hI.exec hw).1] at hiff

/-! ### The loops of `wait_num` for one request -/

/-- The request refers to the `wait_struct`, and `wait_count` says whether it is completed. -/
def Counts (c : TimedCall ρ) (r : ρ) (s : Timed ρ) : Prop :=
  (s.request r).sharedWaitStruct = some c.frame ∧
    s.waitCount = if (s.request r).isCompleted then 0 else 1

/-- What holds with the thread at a phase. -/
def AloneAt (c : TimedCall ρ) (r : ρ) (s : Timed ρ) : TimedPhase → Prop
  | .setUp 0 => (s.request r).sharedWaitStruct ≠ some c.frame ∧ s.waitCount = 1 ∧
      s.outIndex = -1 ∧ s.isTimeout = false
  | .setUp (_ + 1) | .body | .asleep | .clock =>
      Counts c r s ∧ s.outIndex = -1 ∧ s.isTimeout = false
  | .check => Counts c r s ∧ s.outIndex = -1
  | .cleanUp _ 0 => s.outIndex = -1 ∧ (s.isTimeout = false → (s.request r).isCompleted = true)
  | .cleanUp _ (_ + 1) | .verdict | .returned _ => s.isTimeout = false → s.outIndex = 0

/-- What holds in a call for one request. -/
structure Alone (c : TimedCall ρ) (r : ρ) (s : Timed ρ) : Prop where
  others : ∀ r' ≠ r, (s.request r').sharedWaitStruct ≠ some c.frame
  here : AloneAt c r s s.phase

omit [DecidableEq ρ] in
theorem howMany_single (hc : c.requests = [r]) : c.howMany = 1 := by
  have hle := c.le
  rw [hc, List.length_singleton] at hle
  have hpos := c.pos
  omega

omit [DecidableEq ρ] in
theorem TimedEntered.alone (h : TimedEntered c s) (hc : c.requests = [r]) : Alone c r s where
  others r' _ := h.unused r'
  here := by
    rw [h.phase]
    refine ⟨h.unused r, ?_, h.outIndex, h.isTimeout⟩
    rw [h.waitCount, howMany_single hc]
    rfl

theorem others_update {request : ρ → LfiRequest} {w : ℕ}
    (h : ∀ r' ≠ r, (request r').sharedWaitStruct ≠ some w) (q : LfiRequest) :
    ∀ r' ≠ r, (Function.update request r q r').sharedWaitStruct ≠ some w := by
  intro r' hr
  rw [Function.update_of_ne hr]
  exact h r' hr

/-- The request is completed, at any time before the call returns. -/
theorem AloneAt.complete {phase : TimedPhase} (h : AloneAt c r s phase)
    (hr : (s.request r).isCompleted = false) (err : ℤ) :
    AloneAt c r (s.completeRequest c r err) phase := by
  have hdone : ((s.completeRequest c r err).request r).isCompleted = true := by
    simp [Timed.completeRequest, Timed.setRequest, LfiRequest.isCompleted]
  have hshared : ((s.completeRequest c r err).request r).sharedWaitStruct =
      (s.request r).sharedWaitStruct := by
    simp [Timed.completeRequest, Timed.setRequest]
  have hcounts : Counts c r s → Counts c r (s.completeRequest c r err) := by
    rintro ⟨hatt, hcount⟩
    refine ⟨hshared.trans hatt, ?_⟩
    rw [hdone, if_pos rfl, Timed.completeRequest, if_pos hatt, hcount, hr]
    rfl
  cases phase with
  | setUp i =>
    cases i with
    | zero =>
      obtain ⟨hatt, hcount, hrest⟩ := h
      refine ⟨by rwa [hshared], ?_, hrest⟩
      rw [Timed.completeRequest, if_neg hatt]
      exact hcount
    | succ i => exact ⟨hcounts h.1, h.2⟩
  | check => exact ⟨hcounts h.1, h.2⟩
  | body => exact ⟨hcounts h.1, h.2⟩
  | asleep => exact ⟨hcounts h.1, h.2⟩
  | clock => exact ⟨hcounts h.1, h.2⟩
  | cleanUp first i =>
    cases i with
    | zero => exact ⟨h.1, fun _ => hdone⟩
    | succ i => exact h
  | verdict => exact h
  | returned v => exact h

omit [DecidableEq ρ] in
/-- What a phase needs is said about the request and the variables of the call. -/
theorem AloneAt.congr {phase : TimedPhase} (h : AloneAt c r s phase)
    (hreq : t.request r = s.request r) (hcount : t.waitCount = s.waitCount)
    (htime : t.isTimeout = s.isTimeout) (hout : t.outIndex = s.outIndex) :
    AloneAt c r t phase := by
  unfold AloneAt Counts at h ⊢
  rwa [hreq, hcount, htime, hout]

/-- The request is set up. -/
theorem Alone.setUp {i : ℕ} {r' : ρ} (h : Alone c r s) (hc : c.requests = [r])
    (hp : s.phase = .setUp i) (hi : c.requests[i]? = some r') :
    Alone c r { s.setUpRequest c r' with phase := .setUp (i + 1) } := by
  obtain ⟨hothers, hhere⟩ := h
  obtain ⟨rfl, rfl⟩ : i = 0 ∧ r' = r := by
    rw [hc, List.getElem?_singleton] at hi
    split at hi
    case isTrue hzero => exact ⟨hzero, (Option.some.inj hi).symm⟩
    case isFalse => cases hi
  obtain ⟨q, hshared, hq, heq⟩ := s.setUpRequest_eq c r'
  rw [hp] at hhere
  obtain ⟨-, hcount, hout, htime⟩ := hhere
  rw [heq]
  refine ⟨others_update hothers q, ⟨?_, ?_⟩, hout, htime⟩
  · exact (congrArg LfiRequest.sharedWaitStruct (Function.update_self ..)).trans hshared
  · simp only [Function.update_self, hq, hcount]
    split <;> rfl

/-- The request is cleaned up: a request that is completed gives its index. -/
theorem Alone.cleanUp {first i : ℕ} {r' : ρ} (h : Alone c r s) (hc : c.requests = [r])
    (hp : s.phase = .cleanUp first i) (hlt : i < c.requests.length)
    (hr' : c.requests[(first + i) % c.requests.length]? = some r') :
    Alone c r { s.cleanUpRequest r' ((first + i) % c.requests.length) with
      phase := .cleanUp first (i + 1) } := by
  obtain ⟨hothers, hhere⟩ := h
  obtain ⟨rfl, rfl⟩ : i = 0 ∧ r' = r := by
    rw [hc] at hlt hr'
    obtain rfl : i = 0 := by simpa using hlt
    simpa [Nat.mod_one, eq_comm] using hr'
  obtain ⟨q, hshared, hq, heq⟩ := s.cleanUpRequest_eq r' ((first + 0) % c.requests.length)
  rw [hp] at hhere
  obtain ⟨hout, hdone⟩ := hhere
  rw [heq]
  refine ⟨others_update hothers q, fun htime => ?_⟩
  simp [hdone htime, hout, hc, Nat.mod_one]

/-- A request is completed, this one or another. -/
theorem Alone.complete {r' : ρ} (h : Alone c r s) (hr' : (s.request r').isCompleted = false)
    (err : ℤ) : Alone c r (s.completeRequest c r' err) := by
  obtain ⟨hothers, hhere⟩ := h
  by_cases hr : r' = r
  · subst hr
    exact ⟨others_update hothers _, hhere.complete hr' err⟩
  · have hunattached := hothers r' hr
    refine ⟨fun r'' hne => ?_, hhere.congr ?_ ?_ rfl rfl⟩
    · by_cases hsame : r'' = r'
      · subst hsame
        simpa [Timed.completeRequest, Timed.setRequest] using hunattached
      · simpa [Timed.completeRequest, Timed.setRequest, hsame] using hothers r'' hne
    · simp [Timed.completeRequest, Timed.setRequest, Ne.symm hr]
    · simp [Timed.completeRequest, hunattached]

omit [DecidableEq ρ] in
/-- A wait on `wait_cv` leads to the clock or to sleep, and both need what the body needs. -/
theorem AloneAt.wait (h : AloneAt c r s .body) : AloneAt c r s s.wait.phase := by
  unfold Timed.wait
  dsimp only
  split <;> exact h

omit [DecidableEq ρ] in
/-- The thread moves on. -/
theorem Alone.moves {a : TimedAction ρ} {phase : TimedPhase} {leader time : Bool}
    (h : Alone c r s) (hc : c.requests = [r]) (hm : TimedMoves c s a phase leader time) (n : ℕ) :
    Alone c r { s with
      phase := phase, leader := leader, isTimeout := time, linearCounter := n } := by
  obtain ⟨hothers, hhere⟩ := h
  refine ⟨hothers, ?_⟩
  cases hm with
  | @setUpDone i hp hi =>
    rw [hp] at hhere
    cases i with
    | zero => simp [hc] at hi
    | succ i => exact ⟨hhere.1, hhere.2.1⟩
  | turn hp hcount htime =>
    rw [hp] at hhere
    exact ⟨hhere.1, hhere.2, htime⟩
  | leave hp hleave =>
    rw [hp] at hhere
    refine ⟨hhere.2, fun htime => ?_⟩
    have hcount : s.waitCount ≤ 0 := hleave.resolve_right (by simpa using htime)
    rw [hhere.1.2] at hcount
    by_contra hnot
    simp [hnot] at hcount
  | lead => exact hhere.congr rfl rfl rfl rfl
  | progress hp =>
    rw [hp] at hhere
    exact hhere
  | expired hp =>
    rw [hp] at hhere
    exact ⟨hhere.1, hhere.2.1⟩
  | inTime hp =>
    rw [hp] at hhere
    exact hhere.wait.congr rfl rfl rfl rfl
  | sleep hp =>
    rw [hp] at hhere
    exact hhere.wait.congr rfl rfl rfl rfl
  | wake hp =>
    rw [hp] at hhere
    exact hhere
  | clock hp =>
    rw [hp] at hhere
    exact ⟨hhere.1, hhere.2.1⟩
  | @cleanedUp first i hp hi =>
    rw [hp] at hhere
    cases i with
    | zero => simp [hc] at hi
    | succ i => exact hhere
  | verdict hp =>
    rw [hp] at hhere
    exact hhere
  | otherCall => exact hhere.congr rfl rfl rfl rfl

/-- Every action. -/
theorem Alone.step {a : TimedAction ρ} (h : Alone c r s) (hc : c.requests = [r])
    (ht : timedStep c s a = some t) : Alone c r t := by
  rcases timedStep_cases ht with ⟨i, r', -, hp, hi, rfl⟩ | ⟨first, i, r', -, hp, hlt, hr', rfl⟩ |
    ⟨r', err, -, -, hr', rfl⟩ | ⟨phase, leader, time, n, hm, rfl⟩
  · exact h.setUp hc hp hi
  · exact h.cleanUp hc hp hlt hr'
  · exact h.complete hr' err
  · exact h.moves hc hm n

/-! ### The two on the same run -/

/-- Where `wait` is when the thread of the loops is at a phase.  It looks for the last time right
before it returns. -/
def PairedAt (r : ρ) (w : Single ρ) : TimedPhase → Prop
  | .setUp _ => w.phase = .check
  | .check => w.phase = .check ∨ (w.phase = .body ∧ w.leader = true ∧ w.isTimeout = false)
  | .body => w.phase = .body
  | .asleep => w.phase = .asleep
  | .clock => (w.phase = .clock ∧ w.leader = true) ∨ w.phase = .lastClock ∨ w.phase = .recheck
  | .cleanUp _ _ | .verdict => w.phase = .verdict
  | .returned _ => (∃ u, w.phase = .returned u) ∧ ¬ w.Wrong r

/-- The calls have seen the same. -/
structure Paired (c : TimedCall ρ) (r : ρ) (s : Timed ρ) (w : Single ρ) : Prop where
  alone : Alone c r s
  request : ∀ r', (w.request r').isCompleted = (s.request r').isCompleted
  isTimeout : w.isTimeout = s.isTimeout
  leader : w.leader = s.leader
  phase : PairedAt r w s.phase

omit [DecidableEq ρ] in
theorem Counts.le_iff (h : Counts c r s) :
    s.waitCount ≤ 0 ↔ (s.request r).isCompleted = true := by
  rw [h.2]
  cases (s.request r).isCompleted <;> simp

/-- The events of a run say which requests are completed in it and whether the time was found to
be over. -/
theorem any_of_events (timeoutMs : ℤ) {as bs : List (TimedAction ρ)}
    (h : as.filterMap (TimedAction.event timeoutMs) = bs.filterMap (TimedAction.event timeoutMs)) :
    as.any (·.FindsOver timeoutMs) = bs.any (·.FindsOver timeoutMs) ∧
      ∀ r, as.any (·.Completes r) = bs.any (·.Completes r) := by
  have hover : ∀ as : List (TimedAction ρ), as.any (·.FindsOver timeoutMs) =
      (as.filterMap (TimedAction.event timeoutMs)).any fun e => decide (e = .expired) := by
    intro as
    rw [List.any_filterMap]
    refine congrArg (as.any ·) (funext fun a => ?_)
    cases a with
    | complete r err => simp [TimedAction.event, TimedAction.FindsOver]
    | verdict => simp [TimedAction.event, TimedAction.FindsOver]
    | _ => simp only [TimedAction.event]; split <;> simp_all
  have hcompletes : ∀ (r : ρ) (as : List (TimedAction ρ)), as.any (·.Completes r) =
      (as.filterMap (TimedAction.event timeoutMs)).any fun e =>
        match e with
        | .completed r' _ => decide (r' = r)
        | _ => false := by
    intro r as
    rw [List.any_filterMap]
    refine congrArg (as.any ·) (funext fun a => ?_)
    cases a with
    | complete r' err => simp [TimedAction.event, TimedAction.Completes]
    | verdict => simp [TimedAction.event, TimedAction.Completes]
    | _ => simp only [TimedAction.event, TimedAction.Completes]; split_ifs <;> rfl
  exact ⟨by rw [hover, hover, h], fun r => by rw [hcompletes, hcompletes, h]⟩

/-- A step of the loops that `wait` follows in the steps `bs`, which show the same. -/
theorem Paired.next {a : TimedAction ρ} {bs : List (TimedAction ρ)} {w w' : Single ρ}
    (h : Paired c r s w) (hc : c.requests = [r]) (ht : timedStep c s a = some t)
    (hinv : SingleInv r w) (hw : exec (singleStep c.timeoutMs r) w bs = some w')
    (hevents : bs.filterMap (TimedAction.event c.timeoutMs) =
      [a].filterMap (TimedAction.event c.timeoutMs))
    (hlead : w'.leader = t.leader) (hphase : PairedAt r w' t.phase) : Paired c r t w' := by
  obtain ⟨hdone, htime⟩ := timedStep_effect ht
  obtain ⟨-, hdone', htime'⟩ := hinv.exec hw
  obtain ⟨hover, hcompletes⟩ := any_of_events c.timeoutMs hevents
  refine ⟨h.alone.step hc ht, fun r' => ?_, ?_, hlead, hphase⟩
  · rw [hdone', hdone, h.request, hcompletes, List.any_cons, List.any_nil, Bool.or_false]
  · rw [htime', htime, h.isTimeout, hover, List.any_cons, List.any_nil, Bool.or_false]

theorem checkTimeout_neg_one (timeoutMs : ℤ) : checkTimeout timeoutMs (-1) = false := by
  unfold checkTimeout
  rw [decide_eq_false_iff_not]
  rintro ⟨hpos, hle⟩
  rw [show (-1 : ℤ).bmod (2 ^ 32) = -1 by decide] at hle
  omega

omit [DecidableEq ρ] in
theorem PairedAt.congr {phase : TimedPhase} (h : PairedAt r w phase)
    (hp : ∀ v, phase ≠ .returned v) (hphase : w'.phase = w.phase)
    (hlead : w.leader = true → w'.leader = true) (htime : w'.isTimeout = w.isTimeout) :
    PairedAt r w' phase := by
  unfold PairedAt at h ⊢
  rw [hphase, htime]
  split at h
  case h_2 => exact h.imp_right fun h => ⟨h.1, hlead h.2.1, h.2.2⟩
  case h_5 => exact h.imp_left fun h => ⟨h.1, hlead h.2⟩
  case h_8 v => exact absurd rfl (hp v)
  all_goals exact h

omit [DecidableEq ρ] in
theorem PairedAt.not_returned {phase : TimedPhase} (h : PairedAt r w phase)
    (hp : ∀ v, phase ≠ .returned v) : ∀ u, w.phase ≠ .returned u := by
  intro u hu
  unfold PairedAt at h
  rw [hu] at h
  split at h
  case h_8 v => exact hp v rfl
  all_goals simp at h

theorem singleStep_lead (hp : ∀ u, w.phase ≠ .returned u) :
    singleStep timeoutMs r w .lead = some { w with leader := true } := by
  simp only [singleStep]

theorem singleStep_complete (hp : ∀ u, w.phase ≠ .returned u) {r' : ρ}
    (hr : (w.request r').isCompleted = false) (err : ℤ) :
    singleStep timeoutMs r w (.complete r' err) =
      some (w.setRequest r' { w.request r' with error := err, waitContext := none }) := by
  simp only [singleStep, hr, Bool.false_eq_true, if_false]

/-- The leader's loop ends, and the clock is read once more. -/
theorem exec_leave (hw : w.phase = .body) (hleads : w.leader = true)
    (hrunning : w.isTimeout = false) (hgo : w.goesOn r = false) :
    exec (singleStep timeoutMs r) w [.check, .recheck (-1), .check] =
      some { w with phase := .verdict } := by
  have hout : singleStep timeoutMs r w .check = some { w with phase := .recheck } := by
    simp [singleStep, Single.leading, hw, hleads, hgo, hrunning]
  have hread : singleStep timeoutMs r { w with phase := .recheck } (.recheck (-1)) =
      some { w with phase := .check } := by
    simp [singleStep, checkTimeout_neg_one]
  have hlast : singleStep timeoutMs r { w with phase := .check } .check =
      some { w with phase := .verdict } := by
    rw [singleStep, show ({ w with phase := .check } : Single ρ).goesOn r = false from hgo]
    rfl
  rw [exec_cons, hout, Option.bind_some, exec_cons, hread, Option.bind_some, exec_cons, hlast]
  rfl

/-- The verdict: the request is read once. -/
theorem exec_verdict (hw : w.phase = .verdict) :
    exec (singleStep timeoutMs r) w [.load, .verdict] =
      some (if w.isTimeout && !(w.request r).isCompleted then
        { w.setRequest r { w.request r with error := -lfiTimeout } with
          phase := .returned (-lfiTimeout) }
      else { w with phase := .returned lfiSuccess }) := by
  have hload : singleStep timeoutMs r w .load = some { w with
      phase := .decided (w.isTimeout && !(w.request r).isCompleted) } := by
    rw [singleStep, if_pos hw]
  rw [exec_cons, hload]
  cases w.isTimeout && !(w.request r).isCompleted <;> rfl

omit [DecidableEq ρ] in
/-- Both wake up for the same. -/
theorem Paired.awake (h : Paired c r s w) (hcounts : Counts c r s) :
    s.awake = ((w.request r).isCompleted || w.leader) := by
  rw [h.request, h.leader, Timed.awake, Bool.eq_iff_iff, Bool.or_eq_true, Bool.or_eq_true,
    decide_eq_true_iff, hcounts.le_iff]

omit [DecidableEq ρ] in
theorem Paired.wait (h : Paired c r s w) (hcounts : Counts c r s) :
    PairedAt r (w.wait r) s.wait.phase := by
  simp only [Timed.wait, Single.wait, h.awake hcounts]
  split
  case isTrue => exact .inr (.inl rfl)
  case isFalse => rfl

/-- `wait` can take steps that show what the action shows and lead to where the loops then
are. -/
def CanFollow (c : TimedCall ρ) (r : ρ) (w : Single ρ) (a : TimedAction ρ) (leader : Bool)
    (phase : TimedPhase) : Prop :=
  CanShow (singleStep c.timeoutMs r) (TimedAction.event c.timeoutMs)
    (TimedAction.event c.timeoutMs) w a fun w' => w'.leader = leader ∧ PairedAt r w' phase

/-- What shows nothing may be of no concern to `wait`. -/
theorem CanFollow.stay {a : TimedAction ρ} {leader : Bool} {phase : TimedPhase}
    (ha : a.event c.timeoutMs = none) (hlead : w.leader = leader) (hphase : PairedAt r w phase) :
    CanFollow c r w a leader phase :=
  CanShow.stay ha ⟨hlead, hphase⟩

/-- The same action. -/
theorem CanFollow.same {a : TimedAction ρ} {leader : Bool} {phase : TimedPhase} (w' : Single ρ)
    (hw : singleStep c.timeoutMs r w a = some w') (hlead : w'.leader = leader)
    (hphase : PairedAt r w' phase) : CanFollow c r w a leader phase :=
  CanShow.one hw rfl ⟨hlead, hphase⟩

/-- Another turn of the loop. -/
theorem Paired.follow_turn (h : Paired c r s w) (hp : s.phase = .check) (hcount : 0 < s.waitCount)
    (hrunning : s.isTimeout = false) : CanFollow c r w .check s.leader .body := by
  have hphase := h.phase
  have hhere := h.alone.here
  rw [hp] at hphase hhere
  have hnot : (w.request r).isCompleted = false := by
    rw [h.request, Bool.eq_false_iff]
    exact fun hdone => absurd (hhere.1.le_iff.2 hdone) (by omega)
  have hgo : w.goesOn r = true := by simp [Single.goesOn, hnot, h.isTimeout, hrunning]
  rcases hphase with hw | ⟨hw, -⟩
  · exact .same { w with phase := .body } (by simp [singleStep, hw, hgo]) h.leader rfl
  · -- a leader is in its own loop already
    exact .stay rfl h.leader hw

/-- The loop ends, with the request completed or the time over. -/
theorem Paired.follow_leave (h : Paired c r s w) (hp : s.phase = .check)
    (hleave : s.waitCount ≤ 0 ∨ s.isTimeout = true) (first : ℕ) :
    CanFollow c r w .check s.leader (.cleanUp first 0) := by
  have hphase := h.phase
  have hhere := h.alone.here
  rw [hp] at hphase hhere
  rw [hhere.1.le_iff] at hleave
  have hgo : w.goesOn r = false := by
    rcases hleave with hdone | hover
    · simp [Single.goesOn, h.request, hdone]
    · simp [Single.goesOn, h.isTimeout, hover]
  rcases hphase with hw | ⟨hw, hleads, hrunning⟩
  · exact .same { w with phase := .verdict } (by simp [singleStep, hw, hgo]) h.leader rfl
  · -- a leader reads the clock once more, and it may say what it said before
    refine ⟨[.check, .recheck (-1), .check], { w with phase := .verdict },
      exec_leave hw hleads hrunning hgo, ?_, h.leader, rfl⟩
    simp [TimedAction.event, TimedAction.FindsOver, checkTimeout_neg_one]

/-- A progress step.  The leader's loop of `wait` makes none with the request completed. -/
theorem Paired.follow_progress (h : Paired c r s w) (hp : s.phase = .body)
    (hleads : s.leader = true) : CanFollow c r w .progress s.leader .clock := by
  have hphase := h.phase
  have hhere := h.alone.here
  rw [hp] at hphase hhere
  have hw : w.phase = .body := hphase
  have hrunning : w.isTimeout = false := h.isTimeout.trans hhere.2.2
  have hlead : w.leader = true := h.leader.trans hleads
  cases hdone : (w.request r).isCompleted with
  | true =>
    exact ⟨[.check], { w with phase := .recheck },
      by simp [singleStep, Single.leading, Single.goesOn, hw, hlead, hdone, hrunning], rfl,
      h.leader, .inr (.inr rfl)⟩
  | false =>
    exact ⟨[.check, .progress], { w with phase := .clock },
      by simp [singleStep, Single.leading, Single.goesOn, hw, hlead, hdone, hrunning], rfl,
      h.leader, .inl ⟨rfl, hlead⟩⟩

/-- The clock at the end of the body.  The leader's loop of `wait` ends when it finds the time
over. -/
theorem Paired.follow_clock (h : Paired c r s w) (hp : s.phase = .clock) (ms : ℤ) :
    CanFollow c r w (.clock ms) s.leader .check := by
  have hphase := h.phase
  have hhere := h.alone.here
  rw [hp] at hphase hhere
  have hrunning : w.isTimeout = false := h.isTimeout.trans hhere.2.2
  rcases hphase with ⟨hw, hleads⟩ | hw | hw
  · rcases Bool.eq_false_or_eq_true (checkTimeout c.timeoutMs ms) with hover | hover
    · exact ⟨[.clock ms, .check], { w with isTimeout := true, phase := .check },
        by simp [singleStep, Single.leading, Single.goesOn, hw, hover, hleads], rfl, h.leader,
        .inl rfl⟩
    · exact .same { w with isTimeout := false, phase := .body }
        (by simp [singleStep, hw, hover]) h.leader (.inr ⟨rfl, hleads, rfl⟩)
  · exact .same
      { w with isTimeout := w.isTimeout || checkTimeout c.timeoutMs ms, phase := .check }
      (by simp [singleStep, hw]) h.leader (.inl rfl)
  · exact ⟨[.recheck ms],
      { w with isTimeout := w.isTimeout || checkTimeout c.timeoutMs ms, phase := .check },
      by simp [singleStep, hw], rfl, h.leader, .inl rfl⟩

/-- The return.  Right before it `wait` looks at the request. -/
theorem Paired.follow_verdict (h : Paired c r s w) (hp : s.phase = .verdict) (v : ℤ) :
    CanFollow c r w .verdict s.leader (.returned v) := by
  have hphase := h.phase
  rw [hp] at hphase
  have hdecide := @exec_verdict _ _ r c.timeoutMs w hphase
  cases hover : w.isTimeout && !(w.request r).isCompleted with
  | true =>
    rw [hover, if_pos rfl] at hdecide
    have hnot : (w.request r).isCompleted = false := by
      rw [Bool.and_eq_true, Bool.not_eq_true'] at hover
      exact hover.2
    have hsame : ∀ r', ((w.setRequest r { w.request r with error := -lfiTimeout }).request
        r').isCompleted = (w.request r').isCompleted := update_isCompleted rfl
    exact ⟨[.load, .verdict], _, hdecide, rfl, h.leader, ⟨_, rfl⟩,
      fun hwrong => absurd (((hsame r).trans hnot).symm.trans hwrong.2) nofun⟩
  | false =>
    rw [hover, if_neg nofun] at hdecide
    exact ⟨[.load, .verdict], _, hdecide, rfl, h.leader, ⟨_, rfl⟩,
      fun hwrong => absurd (Option.some.inj hwrong.1) (by decide)⟩

/-- What the thread does without touching a request. -/
theorem Paired.follow_moves {a : TimedAction ρ} {phase : TimedPhase} {leader time : Bool}
    (h : Paired c r s w) (hm : TimedMoves c s a phase leader time) :
    CanFollow c r w a leader phase := by
  have hphase := h.phase
  have hhere := h.alone.here
  cases hm with
  | setUpDone hp =>
    rw [hp] at hphase
    exact .stay rfl h.leader (.inl hphase)
  | turn hp hcount hrunning => exact h.follow_turn hp hcount hrunning
  | leave hp hleave first => exact h.follow_leave hp hleave first
  | lead hp =>
    exact .same _ (singleStep_lead (hphase.not_returned hp)) rfl
      (hphase.congr hp rfl (fun _ => rfl) rfl)
  | progress hp hleads => exact h.follow_progress hp hleads
  | expired hp hleads hlimit hover =>
    rw [hp] at hphase
    have hw : w.phase = .body := hphase
    exact .same { w with isTimeout := true, phase := .check }
      (by simp [singleStep, hw, h.leader, hleads, hlimit, hover]) h.leader (.inl rfl)
  | inTime hp hleads hlimit hover =>
    rw [hp] at hphase hhere
    have hw : w.phase = .body := hphase
    exact .same (w.wait r) (by simp [singleStep, hw, h.leader, hleads, hlimit, hover])
      h.leader (h.wait hhere.1)
  | sleep hp hleads hlimit =>
    rw [hp] at hphase hhere
    have hw : w.phase = .body := hphase
    exact .same (w.wait r) (by simp [singleStep, hw, h.leader, hleads, hlimit]) h.leader
      (h.wait hhere.1)
  | wake hp hawake =>
    rw [hp] at hphase hhere
    have hw : w.phase = .asleep := hphase
    rw [h.awake hhere.1, Bool.or_eq_true] at hawake
    exact .same { w with phase := .lastClock } (by simp [singleStep, hw, hawake]) h.leader
      (.inr (.inl rfl))
  | clock hp => exact h.follow_clock hp _
  | cleanedUp hp =>
    rw [hp] at hphase
    exact .stay rfl h.leader hphase
  | verdict hp => exact h.follow_verdict hp _
  | otherCall => exact .stay rfl h.leader hphase

/-- Every action. -/
theorem Paired.follow {a : TimedAction ρ} (h : Paired c r s w) (ht : timedStep c s a = some t) :
    CanFollow c r w a t.leader t.phase := by
  have hphase := h.phase
  rcases timedStep_cases ht with ⟨i, r', rfl, hp, -, rfl⟩ | ⟨first, i, r', rfl, hp, -, -, rfl⟩ |
    ⟨r', err, rfl, hp, hr', rfl⟩ | ⟨phase, leader, time, n, hm, rfl⟩
  · -- `wait` has no set-up and no clean-up
    obtain ⟨q, -, -, heq⟩ := s.setUpRequest_eq c r'
    rw [hp] at hphase
    exact .stay rfl (by rw [heq, h.leader]) hphase
  · obtain ⟨q, -, -, heq⟩ := s.cleanUpRequest_eq r' ((first + i) % c.requests.length)
    rw [hp] at hphase
    exact .stay rfl (by rw [heq, h.leader]) hphase
  · exact .same _ (singleStep_complete (hphase.not_returned hp) ((h.request r').trans hr') err)
      h.leader (hphase.congr hp rfl id rfl)
  · exact h.follow_moves hm

/-- **`wait` can follow the loops of `wait_num`.** -/
theorem wait_follows (hc : c.requests = [r]) :
    Follows (timedStep c) (singleStep c.timeoutMs r) (TimedAction.event c.timeoutMs)
      (TimedAction.event c.timeoutMs) fun s w => Paired c r s w ∧ SingleInv r w := by
  rintro s w a t ⟨h, hinv⟩ ht
  obtain ⟨bs, w', hw, hevents, hlead, hphase⟩ := h.follow ht
  exact ⟨bs, w', hw, hevents, h.next hc ht hinv hw hevents hlead hphase, (hinv.exec hw).1⟩

/-- A run of the loops of `wait_num`, from where the call comes to them to its return. -/
structure TimedRun (c : TimedCall ρ) (s₀ : Timed ρ) (as : List (TimedAction ρ)) (s : Timed ρ)
    (ret : ℤ) : Prop where
  entered : TimedEntered c s₀
  exec : exec (timedStep c) s₀ as = some s
  returned : s.phase = .returned ret

/-- A run of `wait`. -/
structure SingleRun (timeoutMs : ℤ) (r : ρ) (w₀ : Single ρ) (as : List (TimedAction ρ))
    (w : Single ρ) (ret : ℤ) : Prop where
  entered : SingleEntered w₀
  exec : exec (singleStep timeoutMs r) w₀ as = some w
  returned : w.phase = .returned ret

omit [DecidableEq ρ] in
theorem SingleEntered.not_wrong {w₀ : Single ρ} (h : SingleEntered w₀) : ¬ w₀.Wrong r := by
  rintro ⟨hover, -⟩
  rw [h.phase] at hover
  cases hover

/-- `wait` says that the time was over when it was, and that it was not when the request is
completed or the time was not over. -/
theorem SingleRun.ret_cases {w₀ : Single ρ} {as : List (TimedAction ρ)} {u : ℤ}
    (h : SingleRun timeoutMs r w₀ as w u) :
    (u = -lfiTimeout ∧ w.isTimeout = true) ∨
      (u = lfiSuccess ∧ (w.isTimeout = true → (w.request r).isCompleted = true)) := by
  obtain ⟨-, hover, hinTime, hret⟩ := (h.entered.inv.exec h.exec).1
  rw [h.returned] at hover hinTime
  obtain rfl | rfl := hret u h.returned
  · exact .inl ⟨rfl, hover rfl⟩
  · exact .inr ⟨rfl, hinTime rfl⟩

theorem SingleRun.meets_timely_iff {w₀ : Single ρ} {as : List (TimedAction ρ)} {u : ℤ}
    (h : SingleRun timeoutMs r w₀ as w u) :
    Meets (singleStep timeoutMs r) (Timely r) w₀ as ↔
      (u = -lfiTimeout → (w.request r).isCompleted = false) := by
  rw [Wait.meets_timely_iff h.entered.inv h.entered.not_wrong h.exec, Single.Wrong, h.returned]
  simp [SinglePhase.answer]

theorem TimedRun.returnInv {s₀ : Timed ρ} {as : List (TimedAction ρ)}
    (h : TimedRun c s₀ as s v) : ReturnInv s := by
  refine exec_invariant (P := ReturnInv) (fun _ _ _ hI ht => hI.step ht) ⟨?_, fun u hu => ?_⟩ h.exec
  · rw [h.entered.outIndex]
  · rw [h.entered.phase] at hu
    cases hu

theorem TimedRun.alone {s₀ : Timed ρ} {as : List (TimedAction ρ)} (h : TimedRun c s₀ as s v)
    (hc : c.requests = [r]) : Alone c r s :=
  exec_invariant (P := Alone c r) (fun _ _ _ hI ht => hI.step hc ht) (h.entered.alone hc) h.exec

/-- Without a time-out the loops return the one request there is. -/
theorem TimedRun.ret_eq {s₀ : Timed ρ} {as : List (TimedAction ρ)} (h : TimedRun c s₀ as s v)
    (hc : c.requests = [r]) : v = if s.isTimeout = true then -lfiTimeout else lfiSuccess := by
  have hhere := (h.alone hc).here
  rw [h.returned] at hhere
  rw [h.returnInv.2 v h.returned]
  cases htime : s.isTimeout with
  | true => rfl
  | false => exact hhere htime

/-- **What a time-out says.**  `wait` says so only if its request is not completed when it returns
in exactly the runs that do not complete it after the last look.  The loops of `wait_num` say so
only if fewer than `how_many` requests are completed in exactly the runs whose steps are all
punctual.  On a run of the loops for one request `wait` can see the same events, also without a
completion after its last look; and whenever it sees the same events it gives the same answer if
and only if the run of the loops is punctual, or the wrong answer of the loops is its own, too. -/
theorem timeout_verdicts_iff (c : TimedCall ρ) :
    (∀ (r : ρ) (w₀ : Single ρ) (as : List (TimedAction ρ)) (w : Single ρ) (u : ℤ),
      SingleRun c.timeoutMs r w₀ as w u →
        ((u = -lfiTimeout → (w.request r).isCompleted = false) ↔
          Meets (singleStep c.timeoutMs r) (Timely r) w₀ as)) ∧
    ∀ (s₀ : Timed ρ) (bs : List (TimedAction ρ)) (s : Timed ρ) (v : ℤ), TimedRun c s₀ bs s v →
      ((v = -lfiTimeout → s.completed c < c.howMany) ↔
        Meets (timedStep c) (Punctual c) s₀ bs) ∧
      ∀ (r : ρ) (w₀ : Single ρ), c.requests = [r] → SingleEntered w₀ →
        (∀ r', (w₀.request r').isCompleted = (s₀.request r').isCompleted) →
        (∃ (as : List (TimedAction ρ)) (w : Single ρ) (u : ℤ),
          SingleRun c.timeoutMs r w₀ as w u ∧
          Meets (singleStep c.timeoutMs r) (Timely r) w₀ as ∧
          as.filterMap (TimedAction.event c.timeoutMs) =
            bs.filterMap (TimedAction.event c.timeoutMs)) ∧
        ∀ (as : List (TimedAction ρ)) (w : Single ρ) (u : ℤ),
          SingleRun c.timeoutMs r w₀ as w u →
          as.filterMap (TimedAction.event c.timeoutMs) =
            bs.filterMap (TimedAction.event c.timeoutMs) →
          (u = v ↔ Meets (timedStep c) (Punctual c) s₀ bs ∨
            ¬ Meets (singleStep c.timeoutMs r) (Timely r) w₀ as) := by
  refine ⟨fun r w₀ as w u hw => hw.meets_timely_iff.symm, fun s₀ bs s v hs => ?_⟩
  have hmeets := meets_punctual_iff hs.entered.isTimeout hs.exec
  refine ⟨?_, fun r w₀ hc hw₀ hsame => ⟨?_, fun as w u hw hevents => ?_⟩⟩
  · rw [hmeets, hs.returnInv.timeout_iff hs.returned, Timed.Wrong, not_and, Nat.not_le]
  · have hpaired : Paired c r s₀ w₀ := by
      refine ⟨hs.entered.alone hc, hsame, ?_, ?_, ?_⟩
      · rw [hw₀.isTimeout, hs.entered.isTimeout]
      · rw [hw₀.leader, hs.entered.leader]
      · rw [hs.entered.phase]
        exact hw₀.phase
    obtain ⟨as, w, has, hevents, hend, -⟩ := (wait_follows hc).exec ⟨hpaired, hw₀.inv⟩ hs.exec
    have hphase := hend.phase
    rw [hs.returned] at hphase
    obtain ⟨⟨u, hu⟩, hright⟩ := hphase
    exact ⟨as, w, u, ⟨hw₀, has, hu⟩, (meets_timely_iff hw₀.inv hw₀.not_wrong has).2 hright, hevents⟩
  · -- both have seen the same completions and time-outs
    obtain ⟨hover, hcompletes⟩ := any_of_events c.timeoutMs hevents
    obtain ⟨-, hdone, htime⟩ := hw₀.inv.exec hw.exec
    have hdone' := @exec_flag _ _ (timedStep c) (fun _ => True)
      (fun s => (s.request r).isCompleted) (·.Completes r) (fun _ _ _ _ _ => trivial)
      (fun _ _ _ _ ht => (timedStep_effect ht).1 r) _ _ _ trivial hs.exec
    have htime' := @exec_flag _ _ (timedStep c) (fun _ => True) Timed.isTimeout
      (·.FindsOver c.timeoutMs) (fun _ _ _ _ _ => trivial)
      (fun _ _ _ _ ht => (timedStep_effect ht).2) _ _ _ trivial hs.exec
    have hseen : (s.request r).isCompleted = (w.request r).isCompleted := by
      rw [hdone, hdone', hsame, hcompletes]
    have hfound : s.isTimeout = w.isTimeout := by
      rw [htime, htime', hw₀.isTimeout, hs.entered.isTimeout, hover]
    have hwrong : s.Wrong c ↔ s.isTimeout = true ∧ (s.request r).isCompleted = true := by
      rw [Timed.Wrong, howMany_single hc, Timed.completed, hc, List.countP_singleton]
      cases (s.request r).isCompleted <;> simp
    rw [hmeets, hwrong, hw.meets_timely_iff, hs.ret_eq hc, hseen, hfound]
    have hdiffer : lfiSuccess ≠ -lfiTimeout := by decide
    obtain ⟨rfl, hexpired⟩ | ⟨rfl, hinTime⟩ := hw.ret_cases
    · simp only [hexpired, if_true, true_and, true_iff, true_implies]
      cases (w.request r).isCompleted <;> simp
    · cases hexpired : w.isTimeout with
      | true => simp [hinTime hexpired, hdiffer]
      | false => simp

/-- The requests are under way and the call has just begun. -/
def underWay (c : TimedCall ℕ) : Timed ℕ where
  request r := { LfiRequest.new 0 with waitContext := some r }
  waitCount := c.howMany
  linearCounter := 0
  isTimeout := false
  leader := false
  outIndex := -1
  phase := .setUp 0

theorem entered_underWay (c : TimedCall ℕ) : TimedEntered c (underWay c) :=
  ⟨rfl, rfl, rfl, rfl, rfl, fun _ => nofun⟩

/-- A call for one of two requests with a limit of five milliseconds. -/
def firstInFive : TimedCall ℕ := ⟨[0, 1], 1, 5, 0, firstOfTwo.pos, firstOfTwo.le⟩

/-- The loops for one request, with the same limit. -/
def oneInFive : TimedCall ℕ := ⟨[0], 1, 5, 0, firstOfTwo.pos, by decide⟩

/-- The last turn of a leader: the completions `as` come in its progress step, and the clock then
says five milliseconds. -/
def lastTurn (c : TimedCall ℕ) (as : List (TimedAction ℕ)) : List (TimedAction ℕ) :=
  List.replicate (c.requests.length + 1) .setUp ++ [.check, .lead] ++ as ++
    [.progress, .clock 5, .check] ++ List.replicate (c.requests.length + 1) .cleanUp ++ [.verdict]

theorem timedRun_lastTurn (c : TimedCall ℕ) (as : List (TimedAction ℕ)) (v : ℤ) {s : Timed ℕ}
    (hs : exec (timedStep c) (underWay c) (lastTurn c as) = some s) (hv : s.phase = .returned v) :
    TimedRun c (underWay c) (lastTurn c as) s v :=
  ⟨entered_underWay c, hs, hv⟩

/-- `wait` with the request 0 under way. -/
def singleUnderWay : Single ℕ := ⟨(underWay oneInFive).request, false, false, .check⟩

/-- The same turn in `wait`. -/
def singleLastTurn (as : List (TimedAction ℕ)) : List (TimedAction ℕ) :=
  [.check, .lead, .check] ++ as ++ [.progress, .clock 5, .check, .check, .load, .verdict]

theorem singleRun_lastTurn (as : List (TimedAction ℕ)) (u : ℤ) {w : Single ℕ}
    (hw : exec (singleStep 5 0) singleUnderWay (singleLastTurn as) = some w)
    (hu : w.phase = .returned u) : SingleRun 5 0 singleUnderWay (singleLastTurn as) w u :=
  ⟨⟨rfl, rfl, rfl⟩, hw, hu⟩

/-- Nothing is completed in the last turn: the run is punctual and both say that the time was
over. -/
theorem timeout_verdicts_nothing :
    ∃ s w, TimedRun oneInFive (underWay oneInFive) (lastTurn oneInFive []) s (-lfiTimeout) ∧
      SingleRun 5 0 singleUnderWay (singleLastTurn []) w (-lfiTimeout) ∧
      ((w.request 0).isCompleted = false ↔
        Meets (singleStep 5 0) (Timely 0) singleUnderWay (singleLastTurn [])) ∧
      (s.completed oneInFive < oneInFive.howMany ↔ Meets (timedStep oneInFive) (Punctual oneInFive)
        (underWay oneInFive) (lastTurn oneInFive [])) ∧
      Meets (timedStep oneInFive) (Punctual oneInFive) (underWay oneInFive)
        (lastTurn oneInFive []) := by
  have hrun := timedRun_lastTurn oneInFive [] (-lfiTimeout)
    (Option.some_get (by decide +kernel)).symm (by decide +kernel)
  have hsingle := singleRun_lastTurn [] (-lfiTimeout)
    (Option.some_get (by decide +kernel)).symm (by decide +kernel)
  obtain ⟨hwait, hloops⟩ := timeout_verdicts_iff oneInFive
  have htimely := hwait _ _ _ _ _ hsingle
  obtain ⟨hiff, hone⟩ := hloops _ _ _ _ hrun
  have hsame := ((hone 0 singleUnderWay rfl ⟨rfl, rfl, rfl⟩ fun _ => rfl).2 _ _ _ hsingle
    (by decide +kernel)).1 rfl
  have hlooked : Meets (singleStep 5 0) (Timely 0) singleUnderWay (singleLastTurn []) := by
    decide +kernel
  exact ⟨_, _, hrun, hsingle, ⟨fun h => htimely.1 fun _ => h, fun h => htimely.2 h rfl⟩,
    ⟨fun h => hiff.1 fun _ => h, fun h => hiff.2 h rfl⟩, hsame.resolve_right fun h => h hlooked⟩

/-- The last progress step completes the request and the clock that is read after it says five
milliseconds: the loops say that the time was over, `wait` does not. -/
theorem timeout_verdict_last_turn :
    (¬ ∀ (c : TimedCall ℕ) (s₀ : Timed ℕ) (as : List (TimedAction ℕ)) (s : Timed ℕ) (v : ℤ),
      0 ≤ c.timeoutMs → TimedRun c s₀ as s v → v = -lfiTimeout → s.completed c < c.howMany) ∧
    ¬ ∀ (c : TimedCall ℕ) (r : ℕ) (s₀ : Timed ℕ) (bs : List (TimedAction ℕ)) (s : Timed ℕ) (v : ℤ)
      (w₀ : Single ℕ) (as : List (TimedAction ℕ)) (w : Single ℕ) (u : ℤ),
      0 ≤ c.timeoutMs → c.requests = [r] → w₀.request = s₀.request → TimedRun c s₀ bs s v →
        SingleRun c.timeoutMs r w₀ as w u →
        as.filterMap (TimedAction.event c.timeoutMs) =
          bs.filterMap (TimedAction.event c.timeoutMs) → u = v := by
  constructor
  · intro hall
    have hrun := timedRun_lastTurn firstInFive [.complete 0 0] (-lfiTimeout)
      (Option.some_get (by decide +kernel)).symm (by decide +kernel)
    exact absurd (hall _ _ _ _ _ (by decide) hrun rfl) (by decide +kernel)
  · intro hall
    have hrun := timedRun_lastTurn oneInFive [.complete 0 0] (-lfiTimeout)
      (Option.some_get (by decide +kernel)).symm (by decide +kernel)
    have hsingle := singleRun_lastTurn [.complete 0 0] lfiSuccess
      (Option.some_get (by decide +kernel)).symm (by decide +kernel)
    exact absurd (hall _ 0 _ _ _ _ _ _ _ _ (by decide) rfl rfl hrun hsingle (by decide +kernel))
      (by decide)

end Wait
end Lfi
