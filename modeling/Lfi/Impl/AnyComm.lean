/-
# Failure detection for any-comm receives

While a receive from anybody is outstanding, every peer of the endpoint matters, and
`one_loop` walks all communicators: one that has been silent for the fault-tolerance
time should get a heartbeat, and one whose heartbeat stays unanswered should fail and
be reported (`Detects`).  `process_comm` returns early on a communicator without
requests of its own, and it compares times that it has narrowed to `int32_t`.
`detects_iff` says that a run detects everything exactly if neither gets in the way.
-/

import Lfi.Impl.Reporting

namespace Lfi
namespace Impl

open Runs

/-- What a pass owes the communicator `c`, from `s` to `t`: a heartbeat when it is
idle and nothing has succeeded on it for the fault-tolerance time; and when its
heartbeat is overdue and unanswered, that it fails and is reported or waits to be. -/
def Detected (env : Env) (now : ℤ) (s t : State) (c : CommId) : Prop :=
  ((s.ft.comm c).ftCurrentStatus = .idle →
    ftMs env ≤ elapsedMs now (s.ft.comm c).ftLastRequestTime →
    (t.ft.comm c).ftCurrentStatus = .heartbeat) ∧
  ((s.ft.comm c).ftCurrentStatus = .heartbeat → ¬ Answered s c →
    max (ftMs env) 1000 < elapsedMs now (s.ft.comm c).ftHeartbeatTimePoint →
    c ∈ t.ft.failed ∧ (c ∈ t.ft.ftPendingFailedComms ∨ s.core.reports c < t.core.reports c))

/-- **Failure detection.**  A pass past its rate limit, with a request outstanding on an
any-comm, gives every other communicator of the endpoint what it owes it. -/
def Detects (env : Env) (s : State) : EngineAction → Prop
  | .oneLoop input =>
      PastRateLimit input s → (∃ r c, s.core.onComm r = some c ∧ isAnyComm c = true) →
        ∀ c ∈ s.ft.commIds, isAnyComm c = false →
          Detected env input.now s (oneLoop env input s) c
  | _ => True

/-- `process_comm` does not get in the way: a communicator that is due has requests of
its own, and its times are past their bounds as `int32_t` too. -/
def Probed (env : Env) (s : State) : EngineAction → Prop
  | .oneLoop input =>
      PastRateLimit input s → (∃ r c, s.core.onComm r = some c ∧ isAnyComm c = true) →
        ∀ c ∈ s.ft.commIds, isAnyComm c = false →
          ((s.ft.comm c).ftCurrentStatus = .idle →
            ftMs env ≤ elapsedMs input.now (s.ft.comm c).ftLastRequestTime →
            (s.ft.comm c).ftRequests.size ≠ 0 ∧ Due env (s.ft.comm c) input.now) ∧
          ((s.ft.comm c).ftCurrentStatus = .heartbeat → ¬ Answered s c →
            max (ftMs env) 1000 < elapsedMs input.now (s.ft.comm c).ftHeartbeatTimePoint →
            (s.ft.comm c).ftRequests.size ≠ 0 ∧ Overdue env (s.ft.comm c) input.now)
  | _ => True

/-- Nothing arrives from the fabric while a pass cancels an any-comm receive. -/
def QuietStep (env : Env) (s : State) : EngineAction → Prop
  | .oneLoop input => Quiet env input s
  | _ => True

instance (env : Env) (s : State) : DecidablePred (QuietStep env s) := fun a => by
  cases a <;> unfold QuietStep <;> infer_instance

variable {env : Env} {s t : State} {c : CommId}

/-- Between passes the code and the user agree on whether an any-comm request is
outstanding. -/
theorem Between.any_iff (h : Between s) : s.ft.ftAnyCommRequests.Nonempty ↔
    ∃ r c, s.core.onComm r = some c ∧ isAnyComm c = true := by
  refine exists_congr fun r => ?_
  rw [h.inv.anys.mem r, h.toCancel]
  simp

/-- **One pass.**  It gives a communicator what it owes it exactly if `process_comm`
does not get in the way. -/
theorem detected_iff (h : Between s) (hft : env.faultTolerance = true) {input : PassInput}
    (hwalks : input.Walks s.ft) (hquiet : Quiet env input s)
    (hany : s.ft.ftAnyCommRequests.Nonempty) (hc : c ∈ s.ft.commIds) (hpeer : isAnyComm c = false) :
    Detected env input.now s (pass env input (setCount s 0)) c ↔
      ((s.ft.comm c).ftCurrentStatus = .idle →
        ftMs env ≤ elapsedMs input.now (s.ft.comm c).ftLastRequestTime →
        (s.ft.comm c).ftRequests.size ≠ 0 ∧ Due env (s.ft.comm c) input.now) ∧
      ((s.ft.comm c).ftCurrentStatus = .heartbeat → ¬ Answered s c →
        max (ftMs env) 1000 < elapsedMs input.now (s.ft.comm c).ftHeartbeatTimePoint →
        (s.ft.comm c).ftRequests.size ≠ 0 ∧ Overdue env (s.ft.comm c) input.now) := by
  obtain ⟨cs, -, hwalk, -, hfailed, hreported, -⟩ := pass_spec (h.setCount 0) hft hwalks
    (t := pass env input (setCount s 0)) rfl
  obtain ⟨n, pending, -, -, hpending, hreports⟩ := hreported hany
  obtain ⟨-, hgiven, hnext⟩ := hwalk.any hany
  have hst : ((pass env input (setCount s 0)).ft.comm c).ftCurrentStatus =
      nextStatus env input.now s c := hnext c hc hpeer
  refine and_congr (imp_congr_right fun hidle => imp_congr_right fun _ => ?_)
    (imp_congr_right fun hheart => imp_congr_right fun hans => imp_congr_right fun _ => ?_)
  · rw [hst, nextStatus, hidle]
    split
    case isTrue hsize => simp [hsize]
    case isFalse hsize => by_cases hdue : Due env (s.ft.comm c) input.now <;> simp [hsize, hdue]
  · constructor
    · rintro ⟨hmem, -⟩
      rw [hfailed] at hmem
      rcases List.mem_append.1 hmem with hold | hnew
      · have := h.inv.gaveUp c hold
        rw [hheart] at this; cases this
      · obtain ⟨-, -, hsize, -, -, hover⟩ := (hgiven c).1 hnew
        exact ⟨hsize, hover⟩
    · rintro ⟨hsize, hover⟩
      have hnew : c ∈ cs := (hgiven c).2 ⟨hc, hpeer, hsize, hheart, hans, hover⟩
      refine ⟨by rw [hfailed]; exact List.mem_append_right _ hnew, ?_⟩
      have hboth : c ∈ pending ++ cs := List.mem_append_right _ hnew
      rw [← List.take_append_drop n (pending ++ cs), List.mem_append] at hboth
      rcases hboth with htake | hdrop
      · refine .inr ?_
        rw [hreports hquiet c]
        exact Nat.lt_add_of_pos_right (List.count_pos_iff.2 htake)
      · exact .inl ((hpending c).2 hdrop)

/-- **When failures are detected.**  In a run in which nothing arrives while a pass
cancels an any-comm receive, every pass detects what it should if and only if
`process_comm` never gets in the way: the communicators that are due have requests of
their own, and their times are past their bounds as `int32_t` too. -/
theorem detects_iff (env : Env) (s₀ s : State) (h₀ : Fresh s₀) (as : List EngineAction)
    (hs : exec (engineStep env) s₀ as = some s)
    (hquiet : Meets (engineStep env) (QuietStep env) s₀ as) :
    Meets (engineStep env) (Detects env) s₀ as ↔ Meets (engineStep env) (Probed env) s₀ as := by
  refine meets_congr (I := fun s => env.faultTolerance = true → Between s)
    (fun s a t h ht hft => (h hft).engineStep hft ht) (fun s a t h hq ht => ?_)
    (fun _ => h₀.between) hs hquiet
  cases a with
  | oneLoop input =>
      simp only [engineStep] at ht
      split at ht
      case isFalse => cases ht
      case isTrue hen =>
        obtain ⟨hft, hwalks⟩ := hen
        refine imp_congr_right fun hpast => imp_congr_right fun hany => forall_congr' fun c =>
          imp_congr_right fun hc => imp_congr_right fun hpeer => ?_
        rw [((oneLoop_cases env input s).resolve_right fun h => h.1 hpast).2]
        exact detected_iff (h hft) hft hwalks hq ((h hft).any_iff.2 hany) hc hpeer
  | _ => exact Iff.rfl

/-- A peer and the any-comm, on which the user's first request is; the next progress
step runs a pass. -/
def anyAndPeer : State :=
  freshState {0, anyCommPeer} (fun k => if k = 0 then anyCommPeer else 0) 99

/-- A pass five seconds after the last success, in which nothing arrives. -/
def latePass : PassInput :=
  ⟨5000000000, fun _ => 5000000000, [0, anyCommPeer], [.user 0], [], fun _ => []⟩

/-- An any-comm receive and a send to the peer are outstanding. -/
def busyPeer : List EngineAction :=
  [.post 0 (.recv 7 8 1 false false), .post 1 (.send 9 8 1 false false), .oneLoop latePass]

/-- Only the any-comm receive is outstanding. -/
def silentPeer : List EngineAction := [.post 0 (.recv 7 8 1 false false), .oneLoop latePass]

/-- Where a run from `anyAndPeer` leads. -/
def anyAndPeerEnd (as : List EngineAction)
    (h : (exec (engineStep Env.default) anyAndPeer as).isSome) : State :=
  (exec (engineStep Env.default) anyAndPeer as).get h

/-- `detects_iff` at a peer that has a request of its own. -/
theorem detects_busyPeer :
    Meets (engineStep Env.default) (Detects Env.default) anyAndPeer busyPeer ↔
      Meets (engineStep Env.default) (Probed Env.default) anyAndPeer busyPeer :=
  detects_iff Env.default anyAndPeer (anyAndPeerEnd busyPeer (by decide)) (fresh_freshState ..)
    busyPeer (Option.some_get _).symm (by decide)

/-- **A silent peer is not probed.**  A receive from anybody is outstanding and the peer
has been silent for the fault-tolerance time, yet the pass leaves it idle. -/
theorem detects_silentPeer :
    ¬ ∀ (env : Env) (s₀ s : State) (as : List EngineAction), Fresh s₀ →
      exec (engineStep env) s₀ as = some s → Meets (engineStep env) (Detects env) s₀ as := by
  intro h
  have hall := h Env.default anyAndPeer (anyAndPeerEnd silentPeer (by decide)) silentPeer
    (fresh_freshState ..) (Option.some_get _).symm
  have hpass := (hall.2 (anyAndPeerEnd [.post 0 (.recv 7 8 1 false false)] (by decide))
    (Option.some_get _).symm).1
  have hidle := (hpass (by decide) ⟨.user 0, anyCommPeer, by decide, by decide⟩ 0 (by decide)
    (by decide)).1 (by decide) (by decide)
  revert hidle
  decide

end Impl
end Lfi
