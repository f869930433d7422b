/-
# The order in which the calls lock

What a thread may hold at each operation of the endpoint (`ok`), and that every call keeps
to it (`lockOrder`).  Of two mutexes one is taken under the other in these ways only:
`request`, `commFt`, `pendingOps` when an operation is posted; `pendingOps`, then `commFt`
and `endpointFt`, and `pendingOps`, then `request`, when `post_pending_ops` completes a
request; `commFt`, `endpointFt`; `endpointFt`, `request` when a failure is reported;
`request`, `waiters` in `test`; and `waiters`, `request` when leadership is handed on.
-/

import Lfi.Locks.Calls

namespace Lfi
namespace Locks

open Impl (ReqId CommId isAnyComm)

/-- The request that the operation completes. -/
@[simp] def completes? : LOp → Option ReqId
  | .call (.complete r) => some r
  | .call (.effect (.setCompleted r)) => some r
  | _ => none

/-- The request whose operation is queued. -/
def queues? : LOp → Option ReqId
  | .call (.effect (.push r _)) => some r
  | _ => none

/-- When the mutex `m` may be locked: what is held then, and what follows. -/
@[simp] def okLock (S : Setting) (held : List Mutex) (rest : List LOp) : Mutex → Prop
  | .comms => False
  | .request r =>
      (held = [] ∧ rest.head? ≠ some (.lock .waiters)) ∨
      (held = [.pendingOps] ∧
        .call (.effect (.setCompleted r)) ∈ before (.unlock .pendingOps) rest) ∨
      (held = [.endpointFt] ∧ .call (.effect (.setFailed r)) ∈ rest) ∨
      (held = [.waiters] ∧ .call (.effect (.notify r)) ∈ before (.unlock .waiters) rest) ∨
      ∃ q, held = [.waiters, .request q] ∧
        .call (.effect (.notify r)) ∈ before (.unlock .waiters) rest ∧
        .call (.effect (.notify r)) ∈ before (.unlock (.request q)) rest
  | .commFt c =>
      held = [] ∨
      (∃ r, held = [.request r] ∧ S.commOf r = c ∧ .call (.effect (.check r)) ∈ rest) ∨
      ∃ r, held = [.pendingOps] ∧ S.commOf r = c ∧
        .call (.effect (.setCompleted r)) ∈ before (.unlock .pendingOps) rest
  | .pendingOps =>
      (held = [] ∧ ∀ op ∈ before (.unlock .pendingOps) rest, completes? op = none) ∨
      ∃ r q, held = [.commFt (S.commOf r), .request r] ∧
        .call (.effect (.push r q)) ∈ rest
  | .endpointFt => held = [] ∨ ∃ c, held = [.commFt c] ∨ held = [.commFt c, .pendingOps]
  | .waiters =>
      (held = [] ∨ ∃ r, held = [.request r]) ∧
        ∀ r, .call (.effect (.notify r)) ∉ before (.unlock .waiters) rest

/-- When the call `f` may be made. -/
@[simp] def okCall (S : Setting) (held : List Mutex) (rest : List LOp) : Call → Prop
  | .effect _ => True
  | .eraseWaiter _ => True
  | .registerRequest r => held = [.commFt (S.commOf r)]
  | .processQueue _ => held = [.pendingOps]
  | .complete _ => held = [] ∨ held = [.pendingOps]
  | .onRequestComplete r =>
      held = [] ∨ (held = [.pendingOps] ∧
        .call (.effect (.setCompleted r)) ∈ before (.unlock .pendingOps) rest)
  | .ftComms => held = [.endpointFt]
  | .cancelRequests c => held = [.commFt c]
  | .reportToAny => held = [.endpointFt]
  | .report _ => held = [.endpointFt]
  | .guard _ => held = [] ∨ ∃ r, held = [.request r]
  | .unguard _ => held = [] ∨ ∃ r, held = [.request r]
  | .transferLeader => held = [.waiters] ∨ ∃ r, held = [.waiters, .request r]
  | .waitLoop r => held = [.request r]
  | _ => held = []

/-- When an operation may be reached. -/
@[simp] def ok (S : Setting) (held : List Mutex) (op : LOp) (rest : List LOp) : Prop :=
  match op with
  | .lock m => okLock S held rest m
  | .unlock m => m ∈ held
  | .lockShared m => m = .comms
  | .unlockShared _ => True
  | .call f => okCall S held rest f

variable {S : Setting} {d d' : LockData} {held : List Mutex} {rest b : List LOp} {i : Branch}

/-! ### Every call keeps to it

For each function: with what may be held at the call, what it expands to keeps to the order, if
what follows the call does. -/

theorem asyncPost_fits {r : ReqId} {q : Queue} (h : asyncPost S r q i = some b)
    (hrest : Fits (ok S) [] rest) : Fits (ok S) [] (b ++ rest) := by
  cases i <;> cases h
  all_goals simp [hrest]

theorem registerRequest_fits {r : ReqId} (h : registerRequest S r i = some b)
    (hrest : Fits (ok S) [.commFt (S.commOf r)] rest) :
    Fits (ok S) [.commFt (S.commOf r)] (b ++ rest) := by
  cases i <;> simp only [registerRequest, reduceCtorEq] at h
  all_goals
    split at h
    all_goals cases h
  all_goals simp [hrest]

theorem progress_fits (h : progress i = some b) (hrest : Fits (ok S) [] rest) :
    Fits (ok S) [] (b ++ rest) := by
  cases i <;> cases h
  simp [hrest]

theorem readCq_fits (h : readCq i = some b) (hrest : Fits (ok S) [] rest) :
    Fits (ok S) [] (b ++ rest) := by
  cases i <;> cases h
  all_goals simp [hrest]

theorem postPendingOps_fits (h : postPendingOps i = some b) (hrest : Fits (ok S) [] rest) :
    Fits (ok S) [] (b ++ rest) := by
  cases i <;> cases h
  simp [before, hrest]

theorem processQueue_fits {q : Queue} (h : processQueue d q i = some b)
    (hrest : Fits (ok S) [.pendingOps] rest) : Fits (ok S) [.pendingOps] (b ++ rest) := by
  cases i <;> simp only [processQueue, reduceCtorEq] at h
  all_goals
    split at h
    all_goals cases h
  all_goals simp [hrest]

/-- `complete` is called with `pendingOps` held when the post was refused. -/
theorem complete_fits {r : ReqId} (h : complete r i = some b)
    (hheld : held = [] ∨ held = [.pendingOps]) (hrest : Fits (ok S) held rest) :
    Fits (ok S) held (b ++ rest) := by
  cases i <;> cases h
  case returns => exact hrest
  case continues =>
    rcases hheld with rfl | rfl
    all_goals simp [before, hrest]

theorem onRequestComplete_fits {r : ReqId} (h : onRequestComplete S r i = some b)
    (hcall : okCall S held rest (.onRequestComplete r)) (hrest : Fits (ok S) held rest) :
    Fits (ok S) held (b ++ rest) := by
  cases i <;> cases h
  all_goals
    unfold eraseAnyComm
    split
    all_goals
      rcases hcall with rfl | ⟨rfl, hr⟩
      all_goals simp [before_cons_of_ne, hrest]
  all_goals exact ⟨r, rfl, hr⟩

theorem oneLoop_fits (h : oneLoop i = some b) (hrest : Fits (ok S) [] rest) :
    Fits (ok S) [] (b ++ rest) := by
  cases i <;> cases h
  all_goals simp [hrest]

theorem processComms_fits (h : processComms i = some b) (hrest : Fits (ok S) [] rest) :
    Fits (ok S) [] (b ++ rest) := by
  cases i <;> cases h
  all_goals simp [hrest]

theorem ftComms_fits (h : ftComms i = some b) (hrest : Fits (ok S) [.endpointFt] rest) :
    Fits (ok S) [.endpointFt] (b ++ rest) := by
  cases i <;> cases h
  all_goals simp [hrest]

theorem processComm_fits {c : CommId} (h : processComm c i = some b)
    (hrest : Fits (ok S) [] rest) : Fits (ok S) [] (b ++ rest) := by
  cases i <;> cases h
  all_goals simp [hrest]

theorem cancelComms_fits (h : cancelComms i = some b) (hrest : Fits (ok S) [] rest) :
    Fits (ok S) [] (b ++ rest) := by
  cases i <;> cases h
  all_goals simp [hrest]

theorem cancelComm_fits {c : CommId} (h : cancelComm c i = some b)
    (hrest : Fits (ok S) [] rest) : Fits (ok S) [] (b ++ rest) := by
  cases i <;> cases h
  all_goals simp [hrest]

theorem cancelRequests_fits {c : CommId} (h : cancelRequests c i = some b)
    (hrest : Fits (ok S) [.commFt c] rest) : Fits (ok S) [.commFt c] (b ++ rest) := by
  cases i <;> cases h
  all_goals simp [hrest]

theorem freeRequest_fits {r : ReqId} (h : freeRequest r i = some b)
    (hrest : Fits (ok S) [] rest) : Fits (ok S) [] (b ++ rest) := by
  cases i <;> cases h
  all_goals simp [hrest]

theorem cancel_fits {r : ReqId} (h : cancel r i = some b) (hrest : Fits (ok S) [] rest) :
    Fits (ok S) [] (b ++ rest) := by
  cases i <;> cases h
  all_goals simp [before, hrest]

theorem handleAnyCommReports_fits (h : handleAnyCommReports i = some b)
    (hrest : Fits (ok S) [] rest) : Fits (ok S) [] (b ++ rest) := by
  cases i <;> cases h
  all_goals simp [hrest]

theorem reportToAny_fits (h : reportToAny d i = some b)
    (hrest : Fits (ok S) [.endpointFt] rest) : Fits (ok S) [.endpointFt] (b ++ rest) := by
  cases i <;> simp only [reportToAny, reduceCtorEq] at h
  case returns => cases h; exact hrest
  case request r =>
    split at h
    all_goals cases h
    simp [hrest]

theorem report_fits {r : ReqId} (h : report r i = some b)
    (hrest : Fits (ok S) [.endpointFt] rest) : Fits (ok S) [.endpointFt] (b ++ rest) := by
  cases i <;> cases h
  simp [hrest]

theorem cancelReported_fits (h : cancelReported d i = some b) (hrest : Fits (ok S) [] rest) :
    Fits (ok S) [] (b ++ rest) := by
  cases i <;> simp only [cancelReported, reduceCtorEq] at h
  case returns => cases h; exact ⟨trivial, hrest⟩
  case request r =>
    split at h
    all_goals cases h
    simp [hrest]

theorem protectedProgress_fits (h : protectedProgress S i = some b)
    (hrest : Fits (ok S) [] rest) : Fits (ok S) [] (b ++ rest) := by
  cases i <;> simp only [protectedProgress, reduceCtorEq] at h
  case returns =>
    split at h
    all_goals cases h
    simp [hrest]
  case continues =>
    cases h
    simp [hrest]

theorem guard_fits {k : Option ReqId} (h : guard S k i = some b)
    (hheld : held = [] ∨ ∃ r, held = [.request r]) (hrest : Fits (ok S) held rest) :
    Fits (ok S) held (b ++ rest) := by
  cases i <;> simp only [guard, reduceCtorEq] at h
  split at h
  all_goals cases h
  case continues.isFalse => exact hrest
  case continues.isTrue =>
    rcases hheld with rfl | ⟨r, rfl⟩
    all_goals simp [before, hrest]

theorem unguard_fits {k : Option ReqId} (h : unguard S k i = some b)
    (hheld : held = [] ∨ ∃ r, held = [.request r]) (hrest : Fits (ok S) held rest) :
    Fits (ok S) held (b ++ rest) := by
  cases i <;> simp only [unguard, reduceCtorEq] at h
  all_goals
    split at h
    all_goals cases h
  case returns.isFalse => exact hrest
  case continues.isFalse => exact hrest
  all_goals
    rcases hheld with rfl | ⟨r, rfl⟩
    all_goals simp [before, hrest]

theorem transferLeader_fits (h : transferLeader d i = some b)
    (hheld : held = [.waiters] ∨ ∃ r, held = [.waiters, .request r])
    (hrest : Fits (ok S) held rest) : Fits (ok S) held (b ++ rest) := by
  cases i <;> simp only [transferLeader, reduceCtorEq] at h
  split at h
  all_goals cases h
  case h_2 => exact hrest
  case h_1 =>
    rcases hheld with rfl | ⟨r, rfl⟩
    all_goals simp [before, hrest]

theorem test_fits {r : ReqId} (h : test r i = some b) (hrest : Fits (ok S) [] rest) :
    Fits (ok S) [] (b ++ rest) := by
  cases i <;> cases h
  all_goals simp [hrest]

theorem wait_fits {r : ReqId} (h : wait r i = some b) (hrest : Fits (ok S) [] rest) :
    Fits (ok S) [] (b ++ rest) := by
  cases i <;> cases h
  simp [hrest]

theorem waitLoop_fits {r : ReqId} (h : waitLoop r i = some b)
    (hrest : Fits (ok S) [.request r] rest) : Fits (ok S) [.request r] (b ++ rest) := by
  cases i <;> cases h
  all_goals simp [hrest]

theorem progresses_fits (h : progresses i = some b) (hrest : Fits (ok S) [] rest) :
    Fits (ok S) [] (b ++ rest) := by
  cases i <;> cases h
  all_goals simp [hrest]

theorem of_map_pair {o : Option (List LOp)} (h : o.map (·, d) = some (b, d')) : o = some b := by
  obtain ⟨b', hb, hbd⟩ := Option.map_eq_some_iff.1 h
  cases hbd
  exact hb

/-- Whichever function it is. -/
theorem body_fits {f : Call} (h : body S d f i = some (b, d')) (hcall : okCall S held rest f)
    (hrest : Fits (ok S) held rest) : Fits (ok S) held (b ++ rest) := by
  cases f with
  | effect e => cases h; exact hrest
  | eraseWaiter k =>
      obtain ⟨d'', -, hbd⟩ := Option.map_eq_some_iff.1 h
      cases hbd
      exact hrest
  | asyncPost r q => cases hcall; exact asyncPost_fits (of_map_pair h) hrest
  | registerRequest r => cases hcall; exact registerRequest_fits (of_map_pair h) hrest
  | progress => cases hcall; exact progress_fits (of_map_pair h) hrest
  | readCq => cases hcall; exact readCq_fits (of_map_pair h) hrest
  | postPendingOps => cases hcall; exact postPendingOps_fits (of_map_pair h) hrest
  | processQueue q => cases hcall; exact processQueue_fits (of_map_pair h) hrest
  | complete r => exact complete_fits (of_map_pair h) hcall hrest
  | onRequestComplete r => exact onRequestComplete_fits (of_map_pair h) hcall hrest
  | oneLoop => cases hcall; exact oneLoop_fits (of_map_pair h) hrest
  | processComms => cases hcall; exact processComms_fits (of_map_pair h) hrest
  | ftComms => cases hcall; exact ftComms_fits (of_map_pair h) hrest
  | processComm c => cases hcall; exact processComm_fits (of_map_pair h) hrest
  | cancelComms => cases hcall; exact cancelComms_fits (of_map_pair h) hrest
  | cancelComm c => cases hcall; exact cancelComm_fits (of_map_pair h) hrest
  | cancelRequests c => cases hcall; exact cancelRequests_fits (of_map_pair h) hrest
  | freeRequest r => cases hcall; exact freeRequest_fits (of_map_pair h) hrest
  | cancel r => cases hcall; exact cancel_fits (of_map_pair h) hrest
  | handleAnyCommReports => cases hcall; exact handleAnyCommReports_fits (of_map_pair h) hrest
  | reportToAny => cases hcall; exact reportToAny_fits (of_map_pair h) hrest
  | report r => cases hcall; exact report_fits (of_map_pair h) hrest
  | cancelReported => cases hcall; exact cancelReported_fits (of_map_pair h) hrest
  | protectedProgress => cases hcall; exact protectedProgress_fits (of_map_pair h) hrest
  | guard k => exact guard_fits (of_map_pair h) hcall hrest
  | unguard k => exact unguard_fits (of_map_pair h) hcall hrest
  | transferLeader => exact transferLeader_fits (of_map_pair h) hcall hrest
  | test r => cases hcall; exact test_fits (of_map_pair h) hrest
  | wait r => cases hcall; exact wait_fits (of_map_pair h) hrest
  | waitLoop r => cases hcall; exact waitLoop_fits (of_map_pair h) hrest
  | progresses => cases hcall; exact progresses_fits (of_map_pair h) hrest

/-- A thread holds nothing when it enters. -/
theorem okCall_of_isEntry {f : Call} (h : isEntry f = true) : okCall S [] [] f := by
  cases f <;> first | cases h; done | rfl

/-- **The order in which the calls lock.** -/
def lockOrder (S : Setting) : Discipline (endpointProgram S) where
  ok := ok S
  sharedOnly m := m = .comms
  lock h hm := by subst hm; exact h
  lockShared h := h
  entry h := okCall_of_isEntry h
  body h hcall hrest := body_fits h hcall hrest

/-! ### Whose operations they are -/

/-- What it says of the call `f` that it does the operation. -/
def Emits (d : LockData) (f : Call) : LOp → Prop
  | .call (.effect (.setCompleted r)) => f = .complete r
  | .call (.effect (.setFailed r)) => f = .report r
  | .call (.effect (.push r q)) => f = .asyncPost r q
  | .call (.effect (.check r)) => ∃ q, f = .asyncPost r q
  | .call (.effect (.notify r)) =>
      f = .transferLeader ∧ ∃ waiters, d.waitersList = some r :: waiters
  | .lock .waiters => ∃ k, f = .guard k ∨ f = .unguard k
  | _ => True

/-- Each of these operations is done by one function. -/
theorem body_emits {f : Call} (h : body S d f i = some (b, d')) : ∀ op ∈ b, Emits d f op := by
  cases f
  case effect e => cases h; simp
  case eraseWaiter k =>
      obtain ⟨d'', -, hbd⟩ := Option.map_eq_some_iff.1 h
      cases hbd
      simp
  case registerRequest r =>
    cases i <;> simp only [body, registerRequest, reduceCtorEq, Option.map_none] at h
    all_goals
      split at h
      all_goals cases h
      all_goals simp [Emits]
  case processQueue q =>
    cases i <;> simp only [body, processQueue, reduceCtorEq, Option.map_none] at h
    all_goals
      split at h
      all_goals cases h
      all_goals simp [Emits]
  case onRequestComplete r =>
    have hany : ∀ op ∈ eraseAnyComm S r, Emits d (.onRequestComplete r) op := by
      unfold eraseAnyComm
      split
      all_goals simp [Emits]
    cases i <;> cases h
    all_goals simpa [Emits, or_imp, forall_and] using hany
  case reportToAny =>
    cases i <;> simp only [body, reportToAny, reduceCtorEq, Option.map_none] at h
    case returns => cases h; simp
    case request r =>
      split at h
      all_goals cases h
      simp [Emits]
  case cancelReported =>
    cases i <;> simp only [body, cancelReported, reduceCtorEq, Option.map_none] at h
    case returns => cases h; simp [Emits]
    case request r =>
      split at h
      all_goals cases h
      simp [Emits]
  case protectedProgress =>
    cases i <;> simp only [body, protectedProgress, reduceCtorEq, Option.map_none] at h
    case returns =>
      split at h
      all_goals cases h
      simp [Emits]
    case continues => cases h; simp [Emits]
  case guard k =>
    cases i <;> simp only [body, guard, reduceCtorEq, Option.map_none] at h
    split at h
    all_goals cases h
    all_goals simp [Emits]
  case unguard k =>
    cases i <;> simp only [body, unguard, reduceCtorEq, Option.map_none] at h
    all_goals
      split at h
      all_goals cases h
      all_goals simp [Emits]
  case transferLeader =>
    cases i <;> simp only [body, transferLeader, reduceCtorEq, Option.map_none] at h
    split at h
    case h_1 r waiters hw => cases h; simp [Emits, hw]
    case h_2 => cases h; simp
  all_goals
    cases i <;> cases h
    all_goals simp [Emits]

end Locks
end Lfi
