/-
# Accepting with a timeout

`socket::accept_timeout` of `src/src/impl/socket.cpp` polls until a connection comes.  A signal
interrupts the poll, and it is called again with less time:

    while (current_timeout_ms > 0) {
        int ret = poll(fds, 1, current_timeout_ms);
        if (ret < 0) {
            if (errno == EINTR) {
                current_timeout_ms -= duration_cast<milliseconds>(now() - start).count();
                if (current_timeout_ms <= 0) return -1;
                continue;
            }
            return -1;
        }

`start` is never moved, so the time up to one interruption is taken off again at the next.  All
is well as long as what is taken off twice is less than a millisecond
(`accept_waits_iff`).
-/

import Lfi.Impl.FtManager
import Lfi.Runs.Basic

namespace Lfi
namespace Socket

open Runs Impl

/-! ### The function -/

/-- What `poll` returns with: `EINTR`, another error, no event in time, or an event, which is
`POLLIN` or not. -/
inductive PollAnswer where
  | interrupted
  | failed
  | timeout
  | ready (pollin : Bool)
  deriving DecidableEq, Repr

/-- A return from `poll`; `now` is the time then, in nanoseconds. -/
structure PollReturn where
  answer : PollAnswer
  now : ℤ
  deriving DecidableEq, Repr

/-- Where `accept_timeout` is: in `poll`, or returned with -1 because the time is over or
because of an error, or gone on to `accept`. -/
inductive AcceptOutcome where
  | polling
  | timedOut (now : ℤ)
  | failed
  | accepting
  deriving DecidableEq, Repr

/-- `accept_timeout`; `called` is when the last `poll` was called. -/
structure AcceptTimeout where
  start : ℤ
  currentTimeoutMs : ℤ
  called : ℤ
  outcome : AcceptOutcome
  deriving DecidableEq, Repr

/-- Up to the first `poll`.  Without a timeout there is none. -/
def AcceptTimeout.begin (timeoutMs start : ℤ) : AcceptTimeout where
  start := start
  currentTimeoutMs := timeoutMs
  called := start
  outcome := if timeoutMs = 0 then .accepting else if 0 < timeoutMs then .polling
    else .timedOut start

/-- What is left after an interruption. -/
def AcceptTimeout.leftMs (s : AcceptTimeout) (now : ℤ) : ℤ :=
  toInt32 (s.currentTimeoutMs - elapsedMs now s.start)

/-- One `poll` returns.  It returns without an event no earlier than it was told to. -/
def acceptStep (s : AcceptTimeout) (a : PollReturn) : Option AcceptTimeout :=
  if s.outcome = .polling ∧ s.called ≤ a.now then
    match a.answer with
    | .interrupted =>
        if s.leftMs a.now ≤ 0 then
          some { s with currentTimeoutMs := s.leftMs a.now, outcome := .timedOut a.now }
        else some { s with currentTimeoutMs := s.leftMs a.now, called := a.now }
    | .failed => some { s with outcome := .failed }
    | .timeout =>
        if s.called + s.currentTimeoutMs * 1000000 ≤ a.now then
          some { s with outcome := .timedOut a.now }
        else none
    | .ready pollin => some { s with outcome := if pollin then .accepting else .failed }
  else none

/-! ### The time it should wait -/

/-- When the time is over. -/
def deadline (timeoutMs start : ℤ) : ℤ := start + timeoutMs * 1000000

/-- The milliseconds from `now` until then, rounded up. -/
def remainingMs (timeoutMs start now : ℤ) : ℤ := -((now - deadline timeoutMs start) / 1000000)

/-- **Every `poll` gets the time that remains**, and a timeout is not reported before the time
is over. -/
def FullTime (timeoutMs : ℤ) (s : AcceptTimeout) : Prop :=
  match s.outcome with
  | .polling => s.currentTimeoutMs = remainingMs timeoutMs s.start s.called
  | .timedOut now => deadline timeoutMs s.start ≤ now
  | .failed | .accepting => True

instance (timeoutMs : ℤ) : DecidablePred (FullTime timeoutMs)
  | ⟨_, _, _, .polling⟩ => inferInstanceAs (Decidable (_ = _))
  | ⟨_, _, _, .timedOut _⟩ => inferInstanceAs (Decidable (_ ≤ _))
  | ⟨_, _, _, .failed⟩ | ⟨_, _, _, .accepting⟩ => .isTrue trivial

/-- The times of the interruptions. -/
def interruptions (as : List PollReturn) : List ℤ :=
  as.filterMap fun a => if a.answer = .interrupted then some a.now else none

/-- An interruption comes in time. -/
def InTime (timeoutMs : ℤ) (s : AcceptTimeout) (a : PollReturn) : Prop :=
  a.answer = .interrupted → a.now < deadline timeoutMs s.start

/-- The `poll` that is interrupted was called in the first millisecond. -/
def Early (s : AcceptTimeout) (a : PollReturn) : Prop :=
  a.answer = .interrupted → s.called < s.start + 1000000

/-! ### What remains -/

variable {timeoutMs start now : ℤ} {s t : AcceptTimeout} {a : PollReturn}

theorem remainingMs_eq (h : start ≤ now) :
    remainingMs timeoutMs start now = timeoutMs - elapsedMs now start := by
  have hpos : 0 ≤ now - start := by omega
  rw [remainingMs, deadline, elapsedMs, Int.tdiv_eq_ediv_of_nonneg hpos]
  omega

/-- A `poll` that gets the time that remains lasts until it is over. -/
theorem deadline_le (timeoutMs start now : ℤ) :
    deadline timeoutMs start ≤ now + remainingMs timeoutMs start now * 1000000 := by
  rw [remainingMs]
  omega

/-- Less than a millisecond has passed. -/
theorem elapsedMs_eq_zero_iff (h : start ≤ now) :
    elapsedMs now start = 0 ↔ now < start + 1000000 := by
  have hpos : 0 ≤ now - start := by omega
  rw [elapsedMs, Int.tdiv_eq_ediv_of_nonneg hpos]
  omega

theorem elapsedMs_nonneg (h : start ≤ now) : 0 ≤ elapsedMs now start :=
  Int.tdiv_nonneg (by omega) (by decide)

/-- Before the deadline less than the timeout has passed. -/
theorem elapsedMs_lt (h : start ≤ now) (hnow : now < deadline timeoutMs start) :
    elapsedMs now start < timeoutMs := by
  have hpos : 0 ≤ now - start := by omega
  rw [deadline] at hnow
  rw [elapsedMs, Int.tdiv_eq_ediv_of_nonneg hpos]
  omega

/-- An `int` stays what it is. -/
theorem toInt32_eq {x : ℤ} (hlow : -2 ^ 31 ≤ x) (hhigh : x < 2 ^ 31) : toInt32 x = x := by
  have hmod := Int.bmod_def x (2 ^ 32)
  rw [toInt32, hmod]
  split <;> omega

/-! ### One return from `poll` -/

/-- What a return from `poll` does: an interruption ends the wait or begins another one, and
everything else ends it. -/
theorem acceptStep_cases (h : acceptStep s a = some t) : s.outcome = .polling ∧ s.called ≤ a.now ∧
    ((a.answer = .interrupted ∧ s.leftMs a.now ≤ 0 ∧
        t = { s with currentTimeoutMs := s.leftMs a.now, outcome := .timedOut a.now }) ∨
      (a.answer = .interrupted ∧ 0 < s.leftMs a.now ∧
        t = { s with currentTimeoutMs := s.leftMs a.now, called := a.now }) ∨
      (a.answer ≠ .interrupted ∧ ∃ outcome, t = { s with outcome := outcome } ∧
        outcome ≠ .polling ∧ ∀ ended, outcome = .timedOut ended →
          s.called + s.currentTimeoutMs * 1000000 ≤ ended)) := by
  unfold acceptStep at h
  split at h
  case isFalse => cases h
  case isTrue hpoll =>
    refine ⟨hpoll.1, hpoll.2, ?_⟩
    cases hans : a.answer with
    | interrupted =>
        simp only [hans] at h
        split at h <;> obtain rfl := Option.some.inj h
        case isTrue hleft => exact .inl ⟨rfl, hleft, rfl⟩
        case isFalse hleft => exact .inr (.inl ⟨rfl, Int.not_le.1 hleft, rfl⟩)
    | failed =>
        simp only [hans] at h
        exact .inr (.inr ⟨nofun, _, (Option.some.inj h).symm, nofun, nofun⟩)
    | timeout =>
        simp only [hans] at h
        split at h
        case isTrue hover =>
          refine .inr (.inr ⟨nofun, _, (Option.some.inj h).symm, nofun, fun ended h => ?_⟩)
          obtain rfl := AcceptOutcome.timedOut.inj h
          exact hover
        case isFalse => cases h
    | ready pollin =>
        simp only [hans] at h
        refine .inr (.inr ⟨nofun, _, (Option.some.inj h).symm, ?_, fun ended h => ?_⟩)
        · cases pollin <;> nofun
        · cases pollin <;> cases h

/-- The calls of `poll` are made before the deadline, by a clock that does not go back. -/
structure Waiting (timeoutMs : ℤ) (s : AcceptTimeout) : Prop where
  called : s.start ≤ s.called
  before : s.called < deadline timeoutMs s.start

theorem waiting_begin (h : 0 < timeoutMs) : Waiting timeoutMs (.begin timeoutMs start) := by
  refine ⟨le_rfl, ?_⟩
  show start < start + timeoutMs * 1000000
  omega

/-- Only interruptions move the calls. -/
theorem Waiting.step (h : Waiting timeoutMs s) (hin : InTime timeoutMs s a)
    (hs : acceptStep s a = some t) : Waiting timeoutMs t := by
  obtain ⟨-, hcalled, ⟨-, -, rfl⟩ | ⟨hans, -, rfl⟩ | ⟨-, _, rfl, -, -⟩⟩ := acceptStep_cases hs
  · exact ⟨h.called, h.before⟩
  · exact ⟨h.called.trans hcalled, hin hans⟩
  · exact ⟨h.called, h.before⟩

/-- What is left when the time was right so far: the time up to the call is taken off too. -/
theorem leftMs_eq (hmax : timeoutMs < 2 ^ 31) (h : Waiting timeoutMs s)
    (hcurrent : s.currentTimeoutMs = remainingMs timeoutMs s.start s.called)
    (hcalled : s.called ≤ now) (hnow : now < deadline timeoutMs s.start) :
    s.leftMs now = remainingMs timeoutMs s.start now - elapsedMs s.called s.start := by
  have hle := h.called.trans hcalled
  have hbefore := elapsedMs_lt h.called h.before
  have hcalledPos := elapsedMs_nonneg h.called
  have hlt := elapsedMs_lt hle hnow
  have hpos := elapsedMs_nonneg hle
  rw [AcceptTimeout.leftMs, hcurrent, remainingMs_eq h.called, remainingMs_eq hle,
    toInt32_eq (by omega) (by omega)]
  omega

/-- **One return from `poll`** keeps the times right, unless it is an interruption and time had
passed before the call. -/
theorem fullTime_step_iff (hmax : timeoutMs < 2 ^ 31) (h : Waiting timeoutMs s)
    (hin : InTime timeoutMs s a) (hfull : FullTime timeoutMs s) (hs : acceptStep s a = some t) :
    FullTime timeoutMs t ↔ Early s a := by
  obtain ⟨hpolling, hcalled, hcases⟩ := acceptStep_cases hs
  have hcurrent : s.currentTimeoutMs = remainingMs timeoutMs s.start s.called := by
    rw [FullTime, hpolling] at hfull
    exact hfull
  rcases hcases with ⟨hans, hleft, rfl⟩ | ⟨hans, -, rfl⟩ | ⟨hans, outcome, rfl, hend, htime⟩
  · -- the time is over too early, so something was taken off twice
    have hlt := elapsedMs_lt (h.called.trans hcalled) (hin hans)
    rw [leftMs_eq hmax h hcurrent hcalled (hin hans),
      remainingMs_eq (h.called.trans hcalled)] at hleft
    rw [Early, imp_iff_right hans, ← elapsedMs_eq_zero_iff h.called]
    exact iff_of_false (Int.not_le.2 (hin hans)) (by omega)
  · rw [Early, imp_iff_right hans, ← elapsedMs_eq_zero_iff h.called, FullTime, hpolling]
    show s.leftMs a.now = remainingMs timeoutMs s.start a.now ↔ _
    rw [leftMs_eq hmax h hcurrent hcalled (hin hans)]
    omega
  · refine iff_of_true ?_ fun h => absurd h hans
    cases outcome with
    | polling => exact absurd rfl hend
    | timedOut ended =>
        have hover := htime ended rfl
        rw [hcurrent] at hover
        exact (deadline_le timeoutMs s.start s.called).trans hover
    | failed => trivial
    | accepting => trivial

/-! ### Runs -/

theorem interruptions_cons (a : PollReturn) (as : List PollReturn) : interruptions (a :: as) =
    if a.answer = .interrupted then a.now :: interruptions as else interruptions as := by
  unfold interruptions
  split <;> simp [*]

/-- Nothing is called after the end. -/
theorem nil_of_ended {as : List PollReturn} (hend : s.outcome ≠ .polling)
    (h : exec acceptStep s as = some t) : as = [] := by
  cases as with
  | nil => rfl
  | cons a as =>
      obtain ⟨u, hu, -⟩ := Option.bind_eq_some_iff.1 h
      exact absurd (acceptStep_cases hu).1 hend

/-- The calls that are interrupted are the first one and those after the interruptions but the
last. -/
theorem meets_early_iff {as : List PollReturn} (h : exec acceptStep s as = some t) :
    Meets acceptStep Early s as ↔
      ∀ n ∈ (s.called :: interruptions as).dropLast, n < s.start + 1000000 := by
  induction as generalizing s with
  | nil => simp [Meets, interruptions]
  | cons a as ih =>
      obtain ⟨u, hu, hrest⟩ := Option.bind_eq_some_iff.1 h
      obtain ⟨-, -, ⟨hans, -, rfl⟩ | ⟨hans, -, rfl⟩ | ⟨hans, _, rfl, hend, -⟩⟩ :=
        acceptStep_cases hu
      · obtain rfl := nil_of_ended (by simp) hrest
        simp [Meets, interruptions, hans, Early]
      · rw [interruptions_cons, if_pos hans, List.dropLast_cons_cons]
        simp only [Meets, hu, Option.some.injEq, forall_eq', ih hrest, List.forall_mem_cons, Early,
          imp_iff_right hans]
      · obtain rfl := nil_of_ended hend hrest
        simp [Meets, interruptions, hans, Early]

/-- Interruptions before the deadline. -/
theorem meets_inTime {as : List PollReturn} (h : exec acceptStep s as = some t)
    (hin : ∀ n ∈ interruptions as, n < deadline timeoutMs s.start) :
    Meets acceptStep (InTime timeoutMs) s as := by
  induction as generalizing s with
  | nil => trivial
  | cons a as ih =>
      obtain ⟨u, hu, hrest⟩ := Option.bind_eq_some_iff.1 h
      have hstart : u.start = s.start := by
        obtain ⟨-, -, ⟨-, -, rfl⟩ | ⟨-, -, rfl⟩ | ⟨-, _, rfl, -, -⟩⟩ := acceptStep_cases hu <;> rfl
      rw [interruptions_cons] at hin
      refine ⟨fun hans => ?_, fun v hv => ?_⟩
      · rw [if_pos hans] at hin
        exact hin a.now List.mem_cons_self
      · obtain rfl := Option.some.inj (hu.symm.trans hv)
        refine ih hrest fun n hn => ?_
        rw [hstart]
        split at hin
        · exact hin n (List.mem_cons_of_mem _ hn)
        · exact hin n hn

/-- **Accept waits its full time** exactly when all interruptions but the last come in the first
millisecond.  Then every `poll` gets the time that remains, however many there are, and a
timeout is not reported before the time is over. -/
theorem accept_waits_iff {as : List PollReturn} (hpos : 0 < timeoutMs) (hmax : timeoutMs < 2 ^ 31)
    (hrun : exec acceptStep (.begin timeoutMs start) as = some t)
    (hin : ∀ n ∈ interruptions as, n < deadline timeoutMs start) :
    Always acceptStep (FullTime timeoutMs) (.begin timeoutMs start) as ↔
      ∀ n ∈ (interruptions as).dropLast, n < start + 1000000 := by
  have hfull : FullTime timeoutMs (.begin timeoutMs start) := by
    rw [FullTime, AcceptTimeout.begin, if_neg hpos.ne', if_pos hpos]
    show timeoutMs = remainingMs timeoutMs start start
    rw [remainingMs_eq le_rfl, (elapsedMs_eq_zero_iff le_rfl).2 (by omega), Int.sub_zero]
  rw [always_iff_meets_of (I := Waiting timeoutMs) (H := InTime timeoutMs) (G := Early)
    (fun _ _ _ h hin _ hs _ => h.step hin hs)
    (fun _ _ _ h hin hfull hs => fullTime_step_iff hmax h hin hfull hs) (waiting_begin hpos) hfull
    hrun (meets_inTime hrun hin), meets_early_iff hrun]
  show (∀ n ∈ (start :: interruptions as).dropLast, n < start + 1000000) ↔ _
  cases interruptions as with
  | nil => simp
  | cons n ns =>
      rw [List.dropLast_cons_cons, List.forall_mem_cons]
      exact and_iff_right (by omega)

/-- A second of timeout with two signals, one right after the start. -/
theorem accept_waits_second :
    Always acceptStep (FullTime 1000) (.begin 1000 0)
      [⟨.interrupted, 200000⟩, ⟨.interrupted, 600000000⟩, ⟨.timeout, 1000000000⟩] :=
  (accept_waits_iff (by decide) (by decide) rfl (by decide)).2 (by decide)

/-- Two signals after 400 and 500 milliseconds, and the wait is over after 600. -/
theorem accept_too_early : ¬ ∀ (timeoutMs start : ℤ) (as : List PollReturn) (t : AcceptTimeout),
    0 < timeoutMs → timeoutMs < 2 ^ 31 →
    exec acceptStep (.begin timeoutMs start) as = some t →
    (∀ n ∈ interruptions as, n < deadline timeoutMs start) →
    Always acceptStep (FullTime timeoutMs) (.begin timeoutMs start) as := by
  intro h
  have hall := h 1000 0
    [⟨.interrupted, 400000000⟩, ⟨.interrupted, 500000000⟩, ⟨.timeout, 600000000⟩] _
    (by decide) (by decide) rfl (by decide)
  exact absurd (hall.last rfl) (by decide)

end Socket
end Lfi
