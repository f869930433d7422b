/-
# Waiting without a time limit

The loops of `wait_num` are stepped twice: in `Lfi.Wait.WaitNum` with the count of every
`wait_struct` and what was counted, but without a clock, and in `Lfi.Wait.Timeout` with the clock,
and with the count of the call alone.  With a `timeout_ms` below 0 the clock has no say, and the
loops of the second module are those of the first (`unlimited_follows`): what it shows of the count
holds of them (`unlimited_counts`).

A woken sleeper of `Lfi.Wait.Timeout` still has the clock to read where one of `Lfi.Wait.WaitNum` is
at the head of its loop, and a `complete` that reaches the threshold takes only the latter there.
-/

import Lfi.Wait.Verdicts

namespace Lfi
namespace Wait

open Impl Runs

/-- The call with a time limit. -/
def WaitCall.timed {ρ : Type*} (d : WaitCall ρ) (timeoutMs : ℤ) : TimedCall ρ :=
  ⟨d.requests, d.howMany, timeoutMs, d.frame, d.pos, d.le⟩

/-- Which request an action completes, and with what. -/
def TimedAction.completion {ρ : Type*} : TimedAction ρ → Option (ρ × ℤ)
  | .complete r err => some (r, err)
  | _ => none

def WaitAction.completion {ρ : Type*} : WaitAction ρ → Option (ρ × ℤ)
  | .complete r err => some (r, err)
  | _ => none

/-- Where the thread of the one is when that of the other is at a phase. -/
def SamePhase : TimedPhase → WaitPhase → Prop
  | .setUp i, p => p = .setUp i
  | .check, p | .clock, p => p = .check
  | .body, p => p = .body
  | .asleep, p => p = .asleep ∨ p = .check
  | .cleanUp first i, p => p = .cleanUp first i
  | .verdict, p | .returned _, p => ∃ first, p = .returned first

section Unlimited

variable {ρ : Type*} [DecidableEq ρ] {d : WaitCall ρ} {timeoutMs : ℤ} {s t : Timed ρ}
  {v : Waiting ρ} {r : ρ}

/-- The requests and the variables of the call are the same. -/
structure SameData (d : WaitCall ρ) (s : Timed ρ) (v : Waiting ρ) : Prop where
  request : v.request = s.request
  waitCount : v.waitCount d.frame = s.waitCount
  linearCounter : v.linearCounter = s.linearCounter
  outIndex : v.outIndex = s.outIndex

/-- The loops of both, the time never being over. -/
structure SameLoops (d : WaitCall ρ) (s : Timed ρ) (v : Waiting ρ) : Prop where
  data : SameData d s v
  isTimeout : s.isTimeout = false
  phase : SamePhase s.phase v.phase

/-! ### What is done under the mutex of a request -/

/-- The set-up of a request. -/
theorem SameData.setUpRequest (h : SameData d s v) (timeoutMs : ℤ) (r : ρ) :
    SameData d (s.setUpRequest (d.timed timeoutMs) r) (setUpRequest d v r) := by
  unfold Timed.setUpRequest Wait.setUpRequest
  rw [h.request]
  dsimp only [WaitCall.timed]
  split_ifs
  · refine ⟨?_, ?_, h.linearCounter, h.outIndex⟩
    · simp [Waiting.count, Waiting.setRequest, Timed.setRequest, h.request]
    · simp [Waiting.count, Waiting.setRequest, h.waitCount]
  · exact ⟨by simp [Waiting.setRequest, Timed.setRequest, h.request], h.waitCount,
      h.linearCounter, h.outIndex⟩
  · exact ⟨by simp [Waiting.setRequest, Timed.setRequest, h.request], h.waitCount,
      h.linearCounter, h.outIndex⟩

/-- Its clean-up. -/
theorem SameData.cleanUpRequest (h : SameData d s v) (r : ρ) (index : ℕ) :
    SameData d (s.cleanUpRequest r index) (cleanUpRequest v r index) := by
  unfold Timed.cleanUpRequest Wait.cleanUpRequest
  rw [h.request, h.outIndex]
  dsimp only
  split_ifs
  all_goals
    refine ⟨?_, h.waitCount, h.linearCounter, ?_⟩
    · simp [Waiting.setRequest, Timed.setRequest, h.request]
    · simp [Waiting.setRequest, Timed.setRequest, h.outIndex]

/-- `complete` looks after the counts of the other calls, too. -/
theorem SameData.completeRequest (h : SameData d s v) (timeoutMs : ℤ) (r : ρ) (err : ℤ) :
    SameData d (s.completeRequest (d.timed timeoutMs) r err) (completeRequest d v r err) := by
  obtain ⟨hreq, hout⟩ := completeRequest_request d v r err
  have hlinear : (Wait.completeRequest d v r err).linearCounter = v.linearCounter := by
    unfold Wait.completeRequest Waiting.notify
    dsimp only
    split
    case h_1 => split_ifs <;> rfl
    case h_2 => rfl
  refine ⟨?_, ?_, hlinear.trans h.linearCounter, hout.trans h.outIndex⟩
  · rw [hreq, h.request]
    rfl
  · by_cases hshared : (s.request r).sharedWaitStruct = some d.frame
    · rw [(completeRequest_attached (h.request ▸ hshared) err).1, h.waitCount]
      exact (if_pos hshared).symm
    · rw [(completeRequest_other (h.request ▸ hshared) err).1, h.waitCount]
      exact (if_neg hshared).symm

/-! ### The loops -/

/-- The other loops can follow. -/
def Followed (d : WaitCall ρ) (v : Waiting ρ) (a : TimedAction ρ) (t : Timed ρ) : Prop :=
  CanShow (waitStep d) TimedAction.completion WaitAction.completion v a (SameLoops d t)

/-- By a step of theirs. -/
theorem Followed.one {a : TimedAction ρ} (b : WaitAction ρ) (v' : Waiting ρ)
    (hv : waitStep d v b = some v') (hb : b.completion = a.completion) (h : SameLoops d t v') :
    Followed d v a t :=
  CanShow.one hv hb h

omit [DecidableEq ρ] in
/-- Where the thread is, is nothing to the data. -/
theorem SameData.move (h : SameData d s v) (p : TimedPhase) (p' : WaitPhase)
    (isTimeout leader : Bool) : SameData d
      { s with phase := p, isTimeout := isTimeout, leader := leader } { v with phase := p' } :=
  ⟨h.request, h.waitCount, h.linearCounter, h.outIndex⟩

omit [DecidableEq ρ] in
theorem SameLoops.at_phase {p : TimedPhase} (h : SameLoops d s v) (hp : s.phase = p) :
    SamePhase p v.phase := by
  rw [← hp]
  exact h.phase

/-- A turn of the set-up loop, or its end. -/
theorem SameLoops.follow_setUp (h : SameLoops d s v)
    (ht : timedStep (d.timed timeoutMs) s .setUp = some t) : Followed d v .setUp t := by
  simp only [timedStep] at ht
  split at ht
  case h_2 => cases ht
  case h_1 i hp =>
    have hv : v.phase = .setUp i := h.at_phase hp
    rw [show (d.timed timeoutMs).requests = d.requests from rfl] at ht
    cases hi : d.requests[i]? with
    | none =>
      rw [hi] at ht
      obtain rfl := Option.some.inj ht
      refine .one .setUp { v with phase := .check } ?_ rfl
        ⟨h.data.move _ _ _ _, h.isTimeout, rfl⟩
      simp [waitStep, hv, hi]
    | some r =>
      rw [hi] at ht
      obtain rfl := Option.some.inj ht
      refine .one .setUp { setUpRequest d v r with phase := .setUp (i + 1) } ?_ rfl
        ⟨(h.data.setUpRequest timeoutMs r).move _ _ _ _, ?_, rfl⟩
      · simp [waitStep, hv, hi]
      · obtain ⟨q, -, -, heq⟩ := s.setUpRequest_eq (d.timed timeoutMs) r
        rw [heq]
        exact h.isTimeout

/-- The head of the wait loop.  The time is not over, so both look at the count. -/
theorem SameLoops.follow_check (h : SameLoops d s v)
    (ht : timedStep (d.timed timeoutMs) s .check = some t) : Followed d v .check t := by
  simp only [timedStep, Option.ite_none_right_eq_some] at ht
  obtain ⟨hp, ht⟩ := ht
  have hv : v.phase = .check := h.at_phase hp
  have hgo : s.waitCount > 0 ∧ s.isTimeout = false ↔ v.waitCount d.frame > 0 := by
    rw [h.data.waitCount, and_iff_left h.isTimeout]
  simp only [hgo] at ht
  split at ht <;> obtain rfl := Option.some.inj ht
  case isTrue hcount =>
    refine .one .check { v with phase := .body } ?_ rfl
      ⟨h.data.move _ _ _ _, h.isTimeout, rfl⟩
    simp [waitStep, hv, hcount]
  case isFalse hcount =>
    refine .one .check { v with
        linearCounter := (v.linearCounter + 1) % 2 ^ 32
        phase := .cleanUp (v.linearCounter % d.requests.length) 0 } ?_ rfl
      ⟨⟨h.data.request, h.data.waitCount, ?_, h.data.outIndex⟩, h.isTimeout, ?_⟩
    · simp only [waitStep, if_pos hv, if_neg hcount]
    · rw [← h.data.linearCounter]
    · rw [← h.data.linearCounter]
      rfl

/-- A turn of the clean-up loop, or its end, which is the return of the other. -/
theorem SameLoops.follow_cleanUp (h : SameLoops d s v)
    (ht : timedStep (d.timed timeoutMs) s .cleanUp = some t) : Followed d v .cleanUp t := by
  simp only [timedStep] at ht
  split at ht
  case h_2 => cases ht
  case h_1 first i hp =>
    have hv : v.phase = .cleanUp first i := h.at_phase hp
    rw [show (d.timed timeoutMs).requests = d.requests from rfl] at ht
    split at ht
    case isTrue hlt =>
      obtain ⟨index, hindex, ht⟩ := Option.bind_eq_some_iff.1 ht
      obtain ⟨r, hr, rfl⟩ := Option.map_eq_some_iff.1 ht
      refine .one .cleanUp { cleanUpRequest v r index with phase := .cleanUp first (i + 1) } ?_ rfl
        ⟨(h.data.cleanUpRequest r index).move _ _ _ _, ?_, rfl⟩
      · simp [waitStep, hv, hlt, hindex, hr]
      · obtain ⟨q, -, -, heq⟩ := s.cleanUpRequest_eq r index
        rw [heq]
        exact h.isTimeout
    case isFalse hlt =>
      obtain rfl := Option.some.inj ht
      refine .one .cleanUp { v with phase := .returned first } ?_ rfl
        ⟨h.data.move _ _ _ _, h.isTimeout, first, rfl⟩
      simp [waitStep, hv, hlt]

/-- A wait on `wait_cv`.  Nobody who has the lead waits. -/
theorem SameLoops.follow_sleep (h : SameLoops d s v) (hp : s.phase = .body)
    (hlead : s.leader = false) : Followed d v .sleep s.wait := by
  have hv : v.phase = .body := h.at_phase hp
  refine .one (.wait false) { v with phase := if awake d v false then .check else .asleep } ?_ rfl
    ⟨h.data.move _ _ _ _, h.isTimeout, ?_⟩
  · simp [waitStep, hv]
  · simp only [Timed.wait, Timed.awake, awake, hlead, h.data.waitCount, Bool.false_eq_true,
      or_false, Bool.or_false, decide_eq_true_eq]
    split
    case isTrue => rfl
    case isFalse => exact .inl rfl

/-- A sleeper wakes up, which the other may have done at the `complete` before. -/
theorem SameLoops.follow_wake (h : SameLoops d s v) (hp : s.phase = .asleep)
    (hawake : s.awake = true) : Followed d v .wake { s with phase := .clock } := by
  rcases h.at_phase hp with hv | hv
  · refine .one (.wake s.leader) { v with phase := .check } ?_ rfl
      ⟨h.data.move _ _ _ _, h.isTimeout, rfl⟩
    have hcond : awake d v s.leader := by
      simpa [awake, Timed.awake, h.data.waitCount] using hawake
    simp [waitStep, hv, hcond]
  · exact .stay rfl ⟨⟨h.data.request, h.data.waitCount, h.data.linearCounter, h.data.outIndex⟩,
      h.isTimeout, hv⟩

/-- A `complete`.  The one that reaches the threshold wakes the other up. -/
theorem SameLoops.follow_complete {err : ℤ} (h : SameLoops d s v)
    (hr : (s.request r).isCompleted = false) :
    Followed d v (.complete r err) (s.completeRequest (d.timed timeoutMs) r err) := by
  refine .one (.complete r err) (completeRequest d v r err) ?_ rfl
    ⟨h.data.completeRequest timeoutMs r err, h.isTimeout, ?_⟩
  · simp [waitStep, h.data.request, hr]
  · have hphase := h.phase
    rw [show (s.completeRequest (d.timed timeoutMs) r err).phase = s.phase from rfl]
    rcases completeRequest_phase d v r err with hsame | ⟨hv, hwoken⟩
    · rwa [hsame]
    · rw [hv] at hphase
      rw [hwoken]
      cases hp : s.phase with
      | asleep => exact .inr rfl
      | verdict | returned =>
        rw [hp] at hphase
        obtain ⟨_, hphase⟩ := hphase
        cases hphase
      | _ =>
        rw [hp] at hphase
        cases hphase

/-- **The same loops**, without a time limit. -/
theorem unlimited_follows (hlimit : timeoutMs < 0) :
    Follows (timedStep (d.timed timeoutMs)) (waitStep d) TimedAction.completion
      WaitAction.completion (SameLoops d) := by
  intro s v a t h ht
  cases a with
  | setUp => exact h.follow_setUp ht
  | check => exact h.follow_check ht
  | cleanUp => exact h.follow_cleanUp ht
  | load => cases ht
  | recheck => cases ht
  | lead =>
    simp only [timedStep] at ht
    split at ht
    case h_1 => cases ht
    case h_2 =>
      obtain rfl := Option.some.inj ht
      exact CanShow.stay rfl ⟨h.data.move _ _ _ _, h.isTimeout, h.phase⟩
  | progress =>
    simp only [timedStep, Option.ite_none_right_eq_some, Option.some.injEq] at ht
    obtain ⟨⟨hp, -⟩, rfl⟩ := ht
    have hv : v.phase = .body := h.at_phase hp
    refine Followed.one .progress { v with phase := .check } ?_ rfl
      ⟨h.data.move _ _ _ _, h.isTimeout, rfl⟩
    simp [waitStep, hv]
  | elapsed ms =>
    simp only [timedStep, Option.ite_none_right_eq_some] at ht
    exact absurd ht.1.2.2 (Int.not_le.2 hlimit)
  | sleep =>
    simp only [timedStep, Option.ite_none_right_eq_some, Option.some.injEq] at ht
    obtain ⟨⟨hp, hlead, -⟩, rfl⟩ := ht
    exact h.follow_sleep hp hlead
  | wake =>
    simp only [timedStep, Option.ite_none_right_eq_some, Option.some.injEq] at ht
    obtain ⟨⟨hp, hawake⟩, rfl⟩ := ht
    exact h.follow_wake hp (hawake.resolve_left (Int.not_le.2 hlimit))
  | clock ms =>
    simp only [timedStep, Option.ite_none_right_eq_some, Option.some.injEq] at ht
    obtain ⟨hp, rfl⟩ := ht
    have hv : v.phase = .check := h.at_phase hp
    have hover : checkTimeout timeoutMs ms = false :=
      decide_eq_false fun hover => absurd hover.1 (Int.not_le.2 hlimit)
    exact CanShow.stay rfl ⟨h.data.move _ _ _ _,
      by rw [h.isTimeout, Bool.false_or]; exact hover, hv⟩
  | complete r err =>
    obtain ⟨-, hr, rfl⟩ := timedStep_complete ht
    exact h.follow_complete hr
  | verdict =>
    simp only [timedStep, Option.ite_none_right_eq_some, Option.some.injEq] at ht
    obtain ⟨hp, rfl⟩ := ht
    have hv : ∃ first, v.phase = .returned first := h.at_phase hp
    exact CanShow.stay rfl ⟨h.data.move _ _ _ _, h.isTimeout, hv⟩
  | otherCall =>
    simp only [timedStep] at ht
    split at ht
    case h_1 => cases ht
    case h_2 =>
      obtain rfl := Option.some.inj ht
      refine Followed.one .otherCall _ rfl rfl
        ⟨⟨h.data.request, h.data.waitCount, ?_, h.data.outIndex⟩, h.isTimeout, h.phase⟩
      rw [← h.data.linearCounter]

/-! ### What the count counts -/

omit [DecidableEq ρ] in
/-- The call begins in both. -/
theorem TimedEntered.entered (h : TimedEntered (d.timed timeoutMs) s) :
    ∃ v, Entered d v ∧ SameLoops d s v :=
  ⟨⟨s.request, fun _ => s.waitCount, s.linearCounter, .setUp 0, s.outIndex, ∅⟩,
    ⟨rfl, h.waitCount, h.outIndex, rfl, h.unused⟩, ⟨rfl, rfl, rfl, rfl⟩, h.isTimeout,
    by rw [h.phase]; rfl⟩

omit [DecidableEq ρ] in
/-- Behind the set-up all the requests are registered. -/
theorem SameLoops.length_completed (h : SameLoops d s v) (hset : ∀ i, s.phase ≠ .setUp i) :
    (v.completed d).length = s.completed (d.timed timeoutMs) := by
  have hreg : registered d v.phase = d.requests := by
    cases hv : v.phase with
    | setUp i =>
      have hphase := h.phase
      rw [hv] at hphase
      cases hp : s.phase with
      | setUp j => exact absurd hp (hset j)
      | _ =>
        rw [hp] at hphase
        simp [SamePhase] at hphase
    | _ => rfl
  rw [Waiting.completed, hreg, ← List.countP_eq_length_filter, h.data.request]
  rfl

/-- **The count of the loops with the clock**, when there is no time limit: until the clean-up it
is `how_many` less the completed requests, and the call returns with the threshold reached, an
index, and no request that refers to its `wait_struct`. -/
theorem unlimited_counts {s₀ : Timed ρ} {as : List (TimedAction ρ)} (hlimit : timeoutMs < 0)
    (h₀ : TimedEntered (d.timed timeoutMs) s₀)
    (hs : exec (timedStep (d.timed timeoutMs)) s₀ as = some s) :
    (s.phase = .check ∨ s.phase = .body ∨ s.phase = .asleep ∨ s.phase = .clock →
      s.waitCount = (d.howMany : ℤ) - s.completed (d.timed timeoutMs)) ∧
    ∀ ret, s.phase = .returned ret → ret = s.outIndex ∧
      d.howMany ≤ s.completed (d.timed timeoutMs) ∧
      ∀ r, (s.request r).sharedWaitStruct ≠ some d.frame := by
  obtain ⟨v₀, hv₀, hloops₀⟩ := h₀.entered
  obtain ⟨bs, v, hv, -, hloops⟩ := (unlimited_follows hlimit).exec hloops₀ hs
  have hinv : WaitInv d v := .reachable ⟨v₀, bs, hv₀, hv⟩
  refine ⟨fun hp => ?_, fun ret hp => ?_⟩
  · have hleft : ¬ v.phase.Left := by
      have hv : v.phase = .check ∨ v.phase = .body ∨ v.phase = .asleep := by
        rcases hp with hp | hp | hp | hp
        · exact .inl (hloops.at_phase hp)
        · exact .inr (.inl (hloops.at_phase hp))
        · exact (hloops.at_phase hp).symm.imp_right .inr
        · exact .inl (hloops.at_phase hp)
      rcases hv with hv | hv | hv <;> rw [hv] <;> exact id
    have hset : ∀ i, s.phase ≠ .setUp i := by
      rintro i hi
      simp [hi] at hp
    rw [← hloops.data.waitCount, hinv.waitCount_eq hleft, hloops.length_completed hset]
  · obtain ⟨first, hfirst⟩ := hloops.at_phase hp
    have hret : ReturnInv s := TimedRun.returnInv ⟨h₀, hs, hp⟩
    refine ⟨?_, ?_, fun r hr => ?_⟩
    · rw [hret.2 ret hp, hloops.isTimeout]
      rfl
    · rw [← hloops.length_completed fun i hi => by simp [hi] at hp]
      exact hinv.returned hfirst
    · rw [← hloops.data.request, hinv.attached, hfirst] at hr
      exact hr

end Unlimited

end Wait
end Lfi
