/-
# Elapsed time

Three decisions of `src/src/impl` compare the milliseconds between two readings of the clock
with a limit: `wait_check_timeout` of `wait.cpp`, and in `process_comm` of `ft_manager.cpp`
whether an idle communicator is due for a heartbeat and whether to give up on one.  The count
has 64 bits and goes into an `int32_t` before it is compared:

    int32_t elapsed_ms_req = std::chrono::duration_cast<std::chrono::milliseconds>(...).count();

After `2^31` milliseconds, not quite 25 days, it is negative.  The limit of the last two is the
configured time in seconds multiplied as an `int`.  `elapsed_decisions_iff` says when the
decisions are right all the same.
-/

import Lfi.Wait.Timeout
import Lfi.Impl.FtManager

namespace Lfi
namespace Wait

open Impl

/-! ### The arithmetic -/

/-- The result of an operation on `int`; one that does not fit is undefined. -/
def int32 (x : ℤ) : Option ℤ := if -2 ^ 31 ≤ x ∧ x < 2 ^ 31 then some x else none

/-- The result of an operation on `int64_t`. -/
def int64 (x : ℤ) : Option ℤ := if -2 ^ 63 ≤ x ∧ x < 2 ^ 63 then some x else none

/-- `duration_cast<milliseconds>(now - start).count()`. -/
def countMs (now start : ℤ) : Option ℤ := (int64 (now - start)).map (·.tdiv 1000000)

/-- `std::max(0, LFI_fault_tolerance_time * 1000)`. -/
def configuredMs (seconds : ℤ) : Option ℤ := (int32 (seconds * 1000)).map (max 0)

/-! ### The decisions -/

/-- `wait_check_timeout(timeout_ms, start)`. -/
def waitCheckTimeout (timeoutMs now start : ℤ) : Option Bool :=
  if timeoutMs < 0 then some false
  else (countMs now start).map fun ms => timeoutMs ≤ toInt32 ms

/-- `elapsed_ms_req >= ft_ms`. -/
def dueForHeartbeat (seconds now lastRequest : ℤ) : Option Bool :=
  (configuredMs seconds).bind fun ftMs =>
    (countMs now lastRequest).map fun ms => ftMs ≤ toInt32 ms

/-- `elapsed_ms_pp > std::max(ft_ms, 1000)`. -/
def givesUp (seconds now timePoint : ℤ) : Option Bool :=
  (configuredMs seconds).bind fun ftMs =>
    (countMs now timePoint).map fun ms => max ftMs 1000 < toInt32 ms

/-- The milliseconds that have passed. -/
def trueMs (now start : ℤ) : ℤ := (now - start) / 1000000

/-- The narrowed count is on the side of the limit where the count is. -/
def SameSide (limit ms : ℤ) : Prop := ms < limit ∨ (ms % 2 ^ 32 < 2 ^ 31 ∧ limit ≤ ms % 2 ^ 32)

instance (limit ms : ℤ) : Decidable (SameSide limit ms) := inferInstanceAs (Decidable (_ ∨ _))

/-! ### They are those of the calls -/

theorem waitCheckTimeout_eq {now start ms : ℤ} (h : countMs now start = some ms)
    (timeoutMs : ℤ) : waitCheckTimeout timeoutMs now start = some (checkTimeout timeoutMs ms) := by
  rw [waitCheckTimeout, h, checkTimeout]
  split
  case isTrue hneg => simp [Int.not_le.2 hneg]
  case isFalse hpos =>
    rw [Option.map_some, Option.some_inj, decide_eq_decide, toInt32]
    exact (and_iff_right (Int.not_lt.1 hpos)).symm

theorem countMs_eq {now start ms : ℤ} (h : countMs now start = some ms) :
    elapsedMs now start = ms := by
  unfold countMs int64 at h
  split at h
  case isTrue => exact Option.some.inj h
  case isFalse => cases h

theorem configuredMs_eq {env : Env} {ft : ℤ}
    (h : configuredMs env.faultToleranceTime = some ft) : ftMs env = ft := by
  unfold configuredMs int32 at h
  split at h
  case isTrue => exact Option.some.inj h
  case isFalse => cases h

/-- When nothing overflows, `process_comm` decides so. -/
theorem dueForHeartbeat_eq {env : Env} {comm : LfiComm} {now ft ms : ℤ}
    (hft : configuredMs env.faultToleranceTime = some ft)
    (hms : countMs now comm.ftLastRequestTime = some ms) :
    dueForHeartbeat env.faultToleranceTime now comm.ftLastRequestTime =
      some (decide (Due env comm now)) := by
  simp only [dueForHeartbeat, hft, hms, Due, configuredMs_eq hft, countMs_eq hms, Option.bind_some,
    Option.map_some]

theorem givesUp_eq {env : Env} {comm : LfiComm} {now ft ms : ℤ}
    (hft : configuredMs env.faultToleranceTime = some ft)
    (hms : countMs now comm.ftHeartbeatTimePoint = some ms) :
    givesUp env.faultToleranceTime now comm.ftHeartbeatTimePoint =
      some (decide (Overdue env comm now)) := by
  simp only [givesUp, hft, hms, Overdue, configuredMs_eq hft, countMs_eq hms, Option.bind_some,
    Option.map_some]

/-! ### When they are right -/

/-- The count is there when the difference fits. -/
theorem countMs_of_le {now start : ℤ} (h : start ≤ now) :
    countMs now start = if now - start < 2 ^ 63 then some (trueMs now start) else none := by
  have hpos : 0 ≤ now - start := by omega
  rw [countMs, int64, trueMs]
  split
  case isTrue hfits =>
    rw [if_pos hfits.2, Option.map_some, Int.tdiv_eq_ediv_of_nonneg hpos]
  case isFalse hfits =>
    rw [if_neg (by omega)]
    rfl

/-- A decision about the count. -/
theorem countMs_decides_iff {now start : ℤ} (h : start ≤ now) (p : ℤ → Prop) [DecidablePred p]
    (q : Prop) [Decidable q] :
    ((countMs now start).map fun ms => decide (p ms)) = some (decide q) ↔
      now - start < 2 ^ 63 ∧ (p (trueMs now start) ↔ q) := by
  rw [countMs_of_le h]
  split
  case isTrue hfits =>
    rw [Option.map_some, Option.some_inj, decide_eq_decide, and_iff_right hfits]
  case isFalse hfits => exact iff_of_false nofun fun hright => hfits hright.1

/-- A decision about the configured time. -/
theorem configuredMs_decides_iff (seconds : ℤ) (f : ℤ → Option Bool) (b : Bool) :
    (configuredMs seconds).bind f = some b ↔
      (-2147483 ≤ seconds ∧ seconds ≤ 2147483) ∧ f (max 0 (1000 * seconds)) = some b := by
  rw [configuredMs, int32]
  split
  case isTrue hfits =>
    rw [Option.map_some, Option.bind_some, Int.mul_comm, and_iff_right (by omega)]
  case isFalse hfits => exact iff_of_false nofun fun hright => hfits (by omega)

theorem le_toInt32_iff {limit ms : ℤ} (hlimit : 0 ≤ limit) (hms : 0 ≤ ms) :
    (limit ≤ toInt32 ms ↔ limit ≤ ms) ↔ SameSide limit ms := by
  have hmod := Int.bmod_def ms (2 ^ 32)
  unfold toInt32 SameSide
  split at hmod <;> omega

theorem lt_toInt32_iff {limit ms : ℤ} (hlimit : 0 ≤ limit) (hms : 0 ≤ ms) :
    (limit < toInt32 ms ↔ limit < ms) ↔ SameSide (limit + 1) ms :=
  le_toInt32_iff (by omega) hms

theorem trueMs_nonneg {now start : ℤ} (h : start ≤ now) : 0 ≤ trueMs now start :=
  Int.ediv_nonneg (by omega) (by decide)

/-- **Elapsed-time decisions.**  Each is right exactly when the clock readings are less than
`2^63` nanoseconds apart, the configured time has at most 2147483 seconds, and the count of
milliseconds, cut to 32 bits, is on the same side of the limit. -/
theorem elapsed_decisions_iff {now start : ℤ} (h : start ≤ now) :
    (∀ timeoutMs, 0 ≤ timeoutMs →
      (waitCheckTimeout timeoutMs now start = some (decide (timeoutMs ≤ trueMs now start)) ↔
        now - start < 2 ^ 63 ∧ SameSide timeoutMs (trueMs now start))) ∧
    ∀ seconds,
      (dueForHeartbeat seconds now start =
          some (decide (max 0 (1000 * seconds) ≤ trueMs now start)) ↔
        (-2147483 ≤ seconds ∧ seconds ≤ 2147483) ∧ now - start < 2 ^ 63 ∧
          SameSide (max 0 (1000 * seconds)) (trueMs now start)) ∧
      (givesUp seconds now start =
          some (decide (max (max 0 (1000 * seconds)) 1000 < trueMs now start)) ↔
        (-2147483 ≤ seconds ∧ seconds ≤ 2147483) ∧ now - start < 2 ^ 63 ∧
          SameSide (max (max 0 (1000 * seconds)) 1000 + 1) (trueMs now start)) := by
  have hms := trueMs_nonneg h
  refine ⟨fun timeoutMs htimeout => ?_, fun seconds => ⟨?_, ?_⟩⟩
  · rw [waitCheckTimeout, if_neg (Int.not_lt.2 htimeout), countMs_decides_iff h,
      le_toInt32_iff htimeout hms]
  · rw [dueForHeartbeat, configuredMs_decides_iff, countMs_decides_iff h,
      le_toInt32_iff (Int.le_max_left 0 _) hms]
  · rw [givesUp, configuredMs_decides_iff, countMs_decides_iff h, lt_toInt32_iff (by omega) hms]

/-- A day after the start everything is decided as it should be. -/
theorem elapsed_decisions_day :
    waitCheckTimeout 5000 86400000000000 0 = some true ∧
      dueForHeartbeat 5 86400000000000 0 = some true ∧
      givesUp 5 86400000000000 0 = some true := by
  have hday : (0 : ℤ) ≤ 86400000000000 := by decide
  obtain ⟨hwait, hrest⟩ := elapsed_decisions_iff hday
  obtain ⟨hdue, hgives⟩ := hrest 5
  exact ⟨(hwait 5000 (by decide)).2 (by decide), hdue.2 (by decide), hgives.2 (by decide)⟩

/-- After `2^31` milliseconds nothing is over, due or given up. -/
theorem elapsed_decisions_wrap :
    (¬ ∀ timeoutMs now start : ℤ, start ≤ now → 0 ≤ timeoutMs →
      waitCheckTimeout timeoutMs now start = some (decide (timeoutMs ≤ trueMs now start))) ∧
    (¬ ∀ seconds now start : ℤ, start ≤ now → dueForHeartbeat seconds now start =
      some (decide (max 0 (1000 * seconds) ≤ trueMs now start))) ∧
    ¬ ∀ seconds now start : ℤ, start ≤ now → givesUp seconds now start =
      some (decide (max (max 0 (1000 * seconds)) 1000 < trueMs now start)) := by
  refine ⟨fun h => ?_, fun h => ?_, fun h => ?_⟩
  · exact absurd (h 5000 2147483648000000 0 (by decide) (by decide)) (by decide)
  · exact absurd (h 5 2147483648000000 0 (by decide)) (by decide)
  · exact absurd (h 5 2147483648000000 0 (by decide)) (by decide)

end Wait
end Lfi
