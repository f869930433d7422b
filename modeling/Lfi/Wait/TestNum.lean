/-
# The polling calls

`LFI::test` and `LFI::test_num` of `src/src/impl/wait.cpp`, over the two endpoints.
`test_num` goes over its requests with one counter, lets the endpoints progress and, when
the counter has not come down to zero, goes over the requests again with the counter as the
first pass left it.  A request the first pass counted is counted a second time.

`loopRequests_waitCount` says where a pass leaves the counter, for any counter it starts
with: a pass stops looking at requests once so many are missing that the rest cannot reach
the threshold, and what it has counted by then is `counted`.  From it `testNum_eq_zero`
tells when the call returns 0, and `testNum_sound_iff` when that is right.
-/

import Lfi.Impl.Freed

namespace Lfi
namespace Wait

open Impl

/-- `LFI_TIMEOUT`. -/
def lfiTimeout : ℤ := 2

/-! ### A pass over the requests -/

section Pass

variable {ρ : Type*} (isShm done : ρ → Bool)

/-- What `loop_requests` writes: `wait_count`, `need_progress_in_shm` and
`need_progress_in_peer`. -/
structure Polled where
  waitCount : ℤ
  needShm : Bool
  needPeer : Bool
  deriving DecidableEq, Repr

/-- The endpoint of a request that is not completed is to progress. -/
def Polled.need (p : Polled) (shm : Bool) : Polled :=
  if shm then { p with needShm := true } else { p with needPeer := true }

@[simp] theorem Polled.need_waitCount (p : Polled) (shm : Bool) :
    (p.need shm).waitCount = p.waitCount := by
  unfold Polled.need
  split <;> rfl

/-- `loop_requests` from some request on. -/
def loopRequests : List ρ → Polled → Polled
  | [], p => p
  | r :: rs, p =>
      let remaining : ℤ := rs.length + 1
      if p.waitCount > remaining ∧ p.needShm ∧ p.needPeer then p
      else if p.waitCount ≤ remaining ∧ done r then
        let p := { p with waitCount := p.waitCount - 1 }
        if p.waitCount ≤ 0 then p else loopRequests rs p
      else loopRequests rs (p.need (isShm r))

/-- The completed requests of a list that come before more than `slack` others are
missing. -/
def counted : ℕ → List ρ → ℕ
  | _, [] => 0
  | slack, r :: rs =>
      if done r then counted slack rs + 1
      else match slack with
        | 0 => 0
        | slack + 1 => counted slack rs

variable {isShm done}

theorem counted_le_countP (slack : ℕ) (l : List ρ) : counted done slack l ≤ l.countP done := by
  induction l generalizing slack with
  | nil => exact le_rfl
  | cons r rs ih =>
      cases hr : done r with
      | true =>
          have := ih slack
          simp only [counted, hr, List.countP_cons, if_true]
          omega
      | false =>
          cases slack with
          | zero => simp [counted, hr]
          | succ slack =>
              have := ih slack
              simp only [counted, hr, List.countP_cons]
              simpa using this

/-- With no more than `slack` requests missing, every completed one is counted. -/
theorem counted_eq_countP {slack : ℕ} {l : List ρ} (h : l.length ≤ l.countP done + slack) :
    counted done slack l = l.countP done := by
  induction l generalizing slack with
  | nil => rfl
  | cons r rs ih =>
      cases hr : done r with
      | true =>
          simp only [List.length_cons, List.countP_cons, hr, if_true] at h
          simp only [counted, hr, List.countP_cons, if_true]
          rw [ih (by omega)]
      | false =>
          simp only [List.length_cons, List.countP_cons, hr] at h
          cases slack with
          | zero =>
              have := List.countP_le_length (p := done) (l := rs)
              simp at h
              omega
          | succ slack =>
              simp only [counted, hr, List.countP_cons]
              simpa using @ih slack (by simp at h; omega)

/-- A pass whose counter is above what remains counts nothing. -/
theorem loopRequests_of_length_lt {l : List ρ} {p : Polled} (h : (l.length : ℤ) < p.waitCount) :
    (loopRequests isShm done l p).waitCount = p.waitCount := by
  induction l generalizing p with
  | nil => rfl
  | cons r rs ih =>
      simp only [List.length_cons] at h
      have hne : ¬ (p.waitCount ≤ (rs.length : ℤ) + 1 ∧ done r = true) := by
        rintro ⟨hle, -⟩
        omega
      simp only [loopRequests, if_neg hne]
      split
      case isTrue => rfl
      case isFalse =>
        rw [ih (by simp only [Polled.need_waitCount]; omega), Polled.need_waitCount]

/-- **A pass.**  It takes the completed requests off the counter that it comes to before too
many are missing, and stops at zero. -/
theorem loopRequests_waitCount {l : List ρ} {p : Polled} {slack : ℕ} (hpos : 0 < p.waitCount)
    (hlen : p.waitCount + slack = l.length) :
    (loopRequests isShm done l p).waitCount =
      max 0 (p.waitCount - counted done slack l) := by
  induction l generalizing p slack with
  | nil =>
      simp only [List.length_nil] at hlen
      omega
  | cons r rs ih =>
      simp only [List.length_cons] at hlen
      have hin : ¬ (p.waitCount > (rs.length : ℤ) + 1 ∧ p.needShm = true ∧ p.needPeer = true) := by
        rintro ⟨hgt, -⟩
        omega
      have hle : p.waitCount ≤ (rs.length : ℤ) + 1 := by omega
      cases hr : done r with
      | true =>
          simp only [loopRequests, if_neg hin, hr, and_true, if_pos hle, counted, if_true]
          split
          case isTrue h =>
            change p.waitCount - 1 = _
            omega
          case isFalse h =>
            rw [@ih { p with waitCount := p.waitCount - 1 } slack (by simp only; omega)
              (by simp only; omega)]
            push_cast
            congr 1
            omega
      | false =>
          simp only [loopRequests, if_neg hin, hr, Bool.false_eq_true, and_false, if_false]
          cases slack with
          | zero =>
              -- the rest is one too short, and nothing more is looked at
              rw [loopRequests_of_length_lt (by simp only [Polled.need_waitCount]; omega),
                Polled.need_waitCount]
              simp only [counted, hr]
              simp
              omega
          | succ slack =>
              rw [@ih (p.need (isShm r)) slack (by simpa using hpos)
                (by simp only [Polled.need_waitCount]; omega), Polled.need_waitCount]
              simp [counted, hr]

/-- A pass brings the counter to zero when at least so many requests are completed, and only
then. -/
theorem loopRequests_eq_zero {l : List ρ} {p : Polled} (hpos : 0 < p.waitCount)
    (hle : p.waitCount ≤ l.length) :
    (loopRequests isShm done l p).waitCount = 0 ↔ p.waitCount ≤ l.countP done := by
  obtain ⟨slack, hslack⟩ := Int.eq_ofNat_of_zero_le (Int.sub_nonneg_of_le hle)
  have hsum : p.waitCount + slack = l.length := by omega
  rw [loopRequests_waitCount hpos hsum]
  have hsub := @counted_le_countP ρ done slack l
  by_cases hall : l.length ≤ l.countP done + slack
  · rw [counted_eq_countP hall]
    omega
  · have : counted done slack l ≤ l.countP done := hsub
    omega

end Pass

/-! ### The two endpoints -/

/-- An endpoint with what is fixed about it. -/
structure Endpoint where
  env : Env
  state : State

/-- `shm_ep` and `peer_ep`. -/
structure Endpoints where
  shm : Endpoint
  peer : Endpoint

/-- An element of an array of requests: the user's request `k` of the endpoint that
`m_endpoint` refers to. -/
structure RequestRef where
  isShm : Bool
  k : ℕ
  deriving DecidableEq, Repr

/-- What a call of `progress` meets: the events of the fabric, and what `one_loop` cannot
know. -/
structure ProgressInput where
  events : List FabricEvent
  pass : PassInput

/-- What `leader()` answers for the guard of each endpoint, with what the call of `progress`
meets there when it is true. -/
structure Leads where
  shm : Option ProgressInput
  peer : Option ProgressInput

/-- `progress(true)` as far as the requests go; the callbacks it calls are the user's. -/
def Endpoint.progress (e : Endpoint) (input : ProgressInput) : Endpoint :=
  let s := Impl.progress e.env input.events e.state
  { e with state := if e.env.faultTolerance then oneLoop e.env input.pass s else s }

/-- `if (guard.leader()) ep.progress(true);`. -/
def Endpoint.lead (e : Endpoint) : Option ProgressInput → Endpoint
  | some input => e.progress input
  | none => e

/-- `is_completed()`. -/
def Endpoint.isCompleted (e : Endpoint) (k : ℕ) : Bool :=
  (e.state.core.onComm (.user k)).isNone

namespace Endpoints

variable (e : Endpoints) (leads : Leads)

def isCompleted (r : RequestRef) : Bool :=
  if r.isShm then e.shm.isCompleted r.k else e.peer.isCompleted r.k

/-- Both endpoints after the progress calls of a polling call. -/
def lead : Endpoints := ⟨e.shm.lead leads.shm, e.peer.lead leads.peer⟩

/-- `test(request)`: the endpoint of the request progresses. -/
def test (r : RequestRef) : ℤ × Endpoints :=
  let e : Endpoints :=
    if r.isShm then { e with shm := e.shm.lead leads.shm }
    else { e with peer := e.peer.lead leads.peer }
  (if e.isCompleted r then lfiSuccess else -lfiTimeout, e)

/-- `test_num(requests, n_requests, how_many)`. -/
def testNum (requests : List RequestRef) (howMany : ℤ) : ℤ × Endpoints :=
  match requests, decide (howMany = 1) with
  | [r], true => e.test leads r
  | _, _ =>
      let first := loopRequests RequestRef.isShm e.isCompleted requests ⟨howMany, false, false⟩
      if first.waitCount = 0 then (0, e)
      else
        let e := e.lead leads
        let second := loopRequests RequestRef.isShm e.isCompleted requests first
        (if second.waitCount = 0 then 0 else -lfiTimeout, e)

end Endpoints

/-! ### What the progress calls do -/

section Lead

variable {e : Endpoints} {leads : Leads}

/-- A request that is completed stays so in a progress step. -/
theorem onComm_progressed {s t : State} {r : ReqId} (h : s.core.onComm r = none)
    (hp : Progressed s t) : t.core.onComm r = none := by
  rcases hp.onComm r with heq | hnone
  · rw [heq, h]
  · exact hnone

/-- One of the user stays so in a pass. -/
theorem oneLoop_completed {env : Env} {s : State} {k : ℕ} (h : s.core.onComm (.user k) = none)
    (input : PassInput) : (oneLoop env input s).core.onComm (.user k) = none := by
  refine oneLoop_induction (P := fun s => s.core.onComm (.user k) = none) (fun s c h => ?_)
    (fun s c h => ?_) (fun s r c h => ?_) (fun s r h => ?_) (fun _ _ _ _ _ _ _ h => h) h
  · rw [Core.onComm_congr (processComm_user _ _ s c k)]
    exact h
  · obtain ⟨u, hprog, heq, -⟩ := cancelComm_eq env (passEvents env input) s c
    have hu : u.core.onComm (.user k) = none := onComm_progressed (s := markCanceled s c) h hprog
    rw [heq]
    exact hu
  · rw [reportTo_onComm]
    exact h
  · exact onComm_progressed h (cancel_progressed r _)

theorem Endpoint.lead_isCompleted {e : Endpoint} {k : ℕ} (h : e.isCompleted k = true)
    (input : Option ProgressInput) : (e.lead input).isCompleted k = true := by
  simp only [Endpoint.isCompleted, Option.isNone_iff_eq_none] at h ⊢
  cases input with
  | none => exact h
  | some input =>
      have hevents := onComm_progressed h (@progress_progressed e.env _ input.events)
      simp only [Endpoint.lead, Endpoint.progress]
      split
      case isTrue => exact oneLoop_completed hevents input.pass
      case isFalse => exact hevents

/-- **Completed requests stay completed.** -/
theorem Endpoints.lead_isCompleted {r : RequestRef} (h : e.isCompleted r = true) :
    (e.lead leads).isCompleted r = true := by
  unfold Endpoints.isCompleted at h ⊢
  split at h
  case isTrue hshm =>
    rw [if_pos hshm]
    exact Endpoint.lead_isCompleted h leads.shm
  case isFalse hshm =>
    rw [if_neg hshm]
    exact Endpoint.lead_isCompleted h leads.peer

theorem countP_lead (requests : List RequestRef) :
    requests.countP e.isCompleted ≤ requests.countP (e.lead leads).isCompleted :=
  List.countP_mono_left fun _ _ h => Endpoints.lead_isCompleted h

/-- `test` sees its request as it is when both endpoints have progressed. -/
theorem test_isCompleted (r : RequestRef) :
    (e.test leads r).2.isCompleted r = (e.lead leads).isCompleted r := by
  unfold Endpoints.test Endpoints.isCompleted Endpoints.lead
  cases r.isShm <;> simp

theorem test_ret (r : RequestRef) :
    (e.test leads r).1 = if (e.lead leads).isCompleted r then lfiSuccess else -lfiTimeout := by
  rw [← test_isCompleted]
  rfl

end Lead

/-! ### The result -/

section Result

variable {e : Endpoints} {leads : Leads} {requests : List RequestRef} {howMany : ℕ}

/-- The completed requests that the first pass of `test_num` counts: those before which no
more than `n - how_many` are missing. -/
def Endpoints.seen (e : Endpoints) (requests : List RequestRef) (howMany : ℕ) : ℕ :=
  counted e.isCompleted (requests.length - howMany) requests

theorem testNum_single (r : RequestRef) :
    e.testNum leads [r] 1 = e.test leads r := rfl

theorem testNum_eq (h : ¬ (howMany = 1 ∧ requests.length = 1)) :
    e.testNum leads requests howMany =
      if (loopRequests RequestRef.isShm e.isCompleted requests
          ⟨howMany, false, false⟩).waitCount = 0 then (0, e)
      else (if (loopRequests RequestRef.isShm (e.lead leads).isCompleted requests
          (loopRequests RequestRef.isShm e.isCompleted requests
            ⟨howMany, false, false⟩)).waitCount = 0 then 0 else -lfiTimeout, e.lead leads) := by
  unfold Endpoints.testNum
  split
  next r hr =>
    have hone : howMany = 1 := by exact_mod_cast of_decide_eq_true hr
    exact absurd ⟨hone, rfl⟩ h
  next => rfl

/-- **What `test_num` returns.**  It adds to the requests completed after the progress calls
those that its first pass counted. -/
theorem testNum_eq_zero (hpos : 1 ≤ howMany) (hle : howMany ≤ requests.length) :
    (e.testNum leads requests howMany).1 = 0 ↔
      howMany ≤ e.seen requests howMany + requests.countP (e.lead leads).isCompleted := by
  by_cases hone : howMany = 1 ∧ requests.length = 1
  · obtain ⟨rfl, hlen⟩ := hone
    obtain ⟨r, rfl⟩ := List.length_eq_one_iff.1 hlen
    have hkept := @countP_lead e leads [r]
    have hseen := @counted_le_countP _ e.isCompleted 0 [r]
    have htest := @test_isCompleted e leads r
    simp only [Endpoints.seen, List.length_singleton, Nat.sub_self] at hseen ⊢
    rw [show ((1 : ℕ) : ℤ) = 1 from rfl, testNum_single]
    unfold Endpoints.test at htest ⊢
    dsimp only at htest ⊢
    rw [htest]
    cases hr : (e.lead leads).isCompleted r
    · have hnone : [r].countP (e.lead leads).isCompleted = 0 := by simp [hr]
      exact iff_of_false (by decide) (by omega)
    · simp [hr, lfiSuccess]
  · rw [testNum_eq hone]
    have hsum : (howMany : ℤ) + (requests.length - howMany : ℕ) = requests.length := by omega
    have hfirst := @loopRequests_waitCount _ RequestRef.isShm e.isCompleted requests
      ⟨howMany, false, false⟩ _ (by simp only; omega) hsum
    simp only at hfirst
    rw [← Endpoints.seen] at hfirst
    split
    case isTrue hzero =>
      rw [hfirst] at hzero
      exact iff_of_true rfl (by omega)
    case isFalse hzero =>
      rw [hfirst] at hzero
      have hsecond := @loopRequests_eq_zero _ RequestRef.isShm (e.lead leads).isCompleted requests
        (loopRequests RequestRef.isShm e.isCompleted requests ⟨howMany, false, false⟩)
        (by omega) (by omega)
      rw [hfirst] at hsecond
      simp only [hsecond]
      split
      case isTrue h => exact iff_of_true rfl (by omega)
      case isFalse h => exact iff_of_false (by decide) (by omega)

/-- With no call of `progress`, the requests completed on entry are enough. -/
theorem testNum_completed (hpos : 1 ≤ howMany) (hle : howMany ≤ requests.length) :
    howMany ≤ requests.countP (e.testNum leads requests howMany).2.isCompleted ↔
      howMany ≤ requests.countP (e.lead leads).isCompleted := by
  by_cases hone : howMany = 1 ∧ requests.length = 1
  · obtain ⟨rfl, hlen⟩ := hone
    obtain ⟨r, rfl⟩ := List.length_eq_one_iff.1 hlen
    rw [show ((1 : ℕ) : ℤ) = 1 from rfl, testNum_single]
    simp [test_isCompleted]
  · rw [testNum_eq hone]
    have hsum : (howMany : ℤ) + (requests.length - howMany : ℕ) = requests.length := by omega
    have hfirst := @loopRequests_waitCount _ RequestRef.isShm e.isCompleted requests
      ⟨howMany, false, false⟩ _ (by simp only; omega) hsum
    have hseen := @counted_le_countP _ e.isCompleted (requests.length - howMany) requests
    have hkept := @countP_lead e leads requests
    split
    case isTrue hzero =>
      rw [hfirst] at hzero
      simp only at hzero ⊢
      omega
    case isFalse => exact Iff.rfl

/-- **When polling is sound.**  For a threshold in range, `test_num` returns 0 only with so many
requests completed, and returns it whenever so many are completed on entry, exactly when the
requests of the first pass do not make up for those that are missing in the end. -/
theorem testNum_sound_iff (e : Endpoints) (leads : Leads) (requests : List RequestRef)
    (howMany : ℕ) (hpos : 1 ≤ howMany) (hle : howMany ≤ requests.length) :
    (((e.testNum leads requests howMany).1 = 0 →
        howMany ≤ requests.countP (e.testNum leads requests howMany).2.isCompleted) ∧
      (howMany ≤ requests.countP e.isCompleted → (e.testNum leads requests howMany).1 = 0)) ↔
    ¬ (requests.countP (e.lead leads).isCompleted < howMany ∧
      howMany ≤ e.seen requests howMany + requests.countP (e.lead leads).isCompleted) := by
  have hkept := @countP_lead e leads requests
  rw [testNum_eq_zero hpos hle, testNum_completed hpos hle]
  constructor
  · rintro ⟨hsound, -⟩ ⟨hmissing, hsum⟩
    exact absurd (hsound hsum) (by omega)
  · intro hnot
    exact ⟨fun hsum => by omega, fun hentry => by omega⟩

end Result

/-- Two receives handed to the fabric, the first of them completed. -/
def oneReceived : Endpoint where
  env := Env.default
  state :=
    let s := freshState {0} (fun _ => 0) 0
    let s := (asyncPost Env.default s (.user 0) (.recv 7 8 1 false false)).2
    let s := (asyncPost Env.default s (.user 1) (.recv 7 8 1 false false)).2
    Impl.progress Env.default [.postPendingOps [0, 0] 0, .success 0 8 1 0] s

/-- The two receives of `oneReceived`, polled for both. -/
theorem testNum_sound_iff_oneReceived :
    let e : Endpoints := ⟨oneReceived, oneReceived⟩
    let requests : List RequestRef := [⟨false, 0⟩, ⟨false, 1⟩]
    ((e.testNum ⟨none, none⟩ requests 2).1 = 0 →
        2 ≤ requests.countP (e.testNum ⟨none, none⟩ requests 2).2.isCompleted) ∧
      (2 ≤ requests.countP e.isCompleted → (e.testNum ⟨none, none⟩ requests 2).1 = 0) ↔
    ¬ (requests.countP (e.lead ⟨none, none⟩).isCompleted < 2 ∧
      2 ≤ e.seen requests 2 + requests.countP (e.lead ⟨none, none⟩).isCompleted) :=
  testNum_sound_iff ⟨oneReceived, oneReceived⟩ ⟨none, none⟩ [⟨false, 0⟩, ⟨false, 1⟩] 2
    (by decide) (by decide)

/-- Polled for both, they count as done: the first is counted twice. -/
theorem testNum_countsTwice :
    ¬ ∀ (e : Endpoints) (leads : Leads) (requests : List RequestRef) (howMany : ℕ),
      requests.Nodup → 1 ≤ howMany → howMany ≤ requests.length →
        ((e.testNum leads requests howMany).1 = 0 →
          howMany ≤ requests.countP (e.testNum leads requests howMany).2.isCompleted) ∧
        (howMany ≤ requests.countP e.isCompleted →
          (e.testNum leads requests howMany).1 = 0) := by
  intro hall
  have hsound := (hall ⟨oneReceived, oneReceived⟩ ⟨none, none⟩ [⟨false, 0⟩, ⟨false, 1⟩] 2
    (by decide) (by decide) (by decide)).1 (by decide +kernel)
  exact absurd hsound (by decide +kernel)

end Wait
end Lfi
