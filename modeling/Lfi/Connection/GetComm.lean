/-
# Waiting for a connection

`get_comm_internal` of `src/src/impl/comm.cpp`, and `lfi_client_create_t` and
`lfi_server_accept_t` of `src/src/lfi.cpp`, for one identifier that `reserve_comm` has
put into `m_comms`.  The handshake runs on its own, in a future with
`LFI_async_connection` and otherwise in the thread that creates the communicator; any
number of threads call `get_comm` meanwhile.

A call holds `m_comms_mutex` shared, except while it waits for the future or sleeps on
`m_fut_wait_cv`; `init_comm` needs it exclusively.  The first call that finds the future
takes it and wakes the others when the handshake has ended.

A call is to get the communicator only when its status is `READY`, and nobody is to wait
when the handshake has ended (`Good`).  `good_of_careful` says which steps put an end to
that.
-/

import Lfi.Connection.Handshake
import Lfi.Runs.Basic

namespace Lfi
namespace Connection

open Runs

/-- How the handshake ended. -/
inductive Outcome where
  | succeeded
  | failed
  deriving DecidableEq, Repr

/-- A call of `get_comm_internal`, by what it does next.  `testing` is the test before
the wait and the predicate of the wait, which are the same, and `entering` goes to sleep
after a test that said no.  A call returns null or the communicator, here with the
status it has at that moment. -/
inductive Call where
  | extracting
  | testing
  | entering
  | blocked
  | holding
  | finishing
  | returned (comm : Option CommStatus)
  deriving DecidableEq, Repr

/-- The call holds `m_comms_mutex` shared. -/
def Call.holdsLock : Call → Bool
  | .extracting | .testing | .entering | .finishing => true
  | _ => false

/-- One identifier: its place in `m_comms`, whether its future is still to be put into
`m_fut_comms` and whether it is there, the steps the handshake has still to do and how
it ended, and the calls. -/
structure ReservedComm where
  entry : Option CommStatus
  toEmplace : Bool
  fut : Bool
  rest : List HandshakeStep
  outcome : Option Outcome
  calls : List Call
  deriving DecidableEq

/-- After `reserve_comm`. -/
def start (role : Role) (faultTolerance asyncConnection : Bool) : ReservedComm :=
  ⟨none, asyncConnection, false, handshake role faultTolerance, none, []⟩

/-- What can happen.  `wake` is a wake-up that is not for this identifier, of which all
share the condition variable, or a spurious one. -/
inductive Action where
  | emplace
  | advance
  | fail
  | getComm
  | step (k : ℕ)
  | wake (k : ℕ)
  deriving DecidableEq

/-- The first check: the communicator is there and its status is not `NOT_READY`. -/
def firstCheck (entry : Option CommStatus) : Call :=
  match entry with
  | none | some .notReady => .extracting
  | some status => .returned (some status)

/-- `m_fut_wait_cv.notify_all()`. -/
def notifyAll (calls : List Call) : List Call :=
  calls.map fun call => if call = .blocked then .testing else call

/-- The next step of the call `k`. -/
def callStep (s : ReservedComm) (k : ℕ) : Option ReservedComm :=
  match s.calls[k]? with
  | some .extracting =>
      if s.fut then some { s with fut := false, calls := s.calls.set k .holding }
      else some { s with calls := s.calls.set k .testing }
  | some .testing =>
      if s.entry = some .ready then some { s with calls := s.calls.set k (.returned s.entry) }
      else some { s with calls := s.calls.set k .entering }
  | some .entering => some { s with calls := s.calls.set k .blocked }
  | some .holding =>
      -- `fut.get()` returns
      if s.outcome ≠ none then some { s with calls := s.calls.set k .finishing } else none
  | some .finishing => some { s with calls := notifyAll (s.calls.set k (.returned s.entry)) }
  | some .blocked | some (.returned _) | none => none

/-- One action. -/
def connStep (s : ReservedComm) : Action → Option ReservedComm
  | .emplace => if s.toEmplace then some { s with toEmplace := false, fut := true } else none
  | .advance =>
      match s.outcome, s.rest with
      | some _, _ => none
      | none, [] => some { s with outcome := some .succeeded }
      | none, step :: rest =>
          if step = .initComm ∧ s.calls.any Call.holdsLock then none
          else some { s with entry := step.effect s.entry, rest := rest }
  | .fail =>
      match s.outcome, s.rest with
      | none, step :: _ => if step.canFail then some { s with outcome := some .failed } else none
      | _, _ => none
  | .getComm => some { s with calls := s.calls ++ [firstCheck s.entry] }
  | .step k => callStep s k
  | .wake k =>
      if s.calls[k]? = some .blocked then some { s with calls := s.calls.set k .testing }
      else none

/-- No call can go on by itself. -/
def Quiescent (s : ReservedComm) : Prop := ∀ k, callStep s k = none

/-- **What `get_comm` promises.**  It returns null or a communicator that is `READY`;
when the handshake has ended and no call can go on, none is asleep; and when the
handshake failed all calls get null. -/
structure Good (s : ReservedComm) : Prop where
  ready : ∀ status, .returned (some status) ∈ s.calls → status = .ready
  nobodyWaits : s.outcome ≠ none → Quiescent s → .blocked ∉ s.calls
  null : s.outcome = some .failed → ∀ comm, .returned comm ∈ s.calls → comm = none

/-- The steps that go right: no call makes its first check while the status is
`READY_INTERNAL`; a call sleeps only while another one has the future and has not yet
woken the others; and the call with the future of a failed handshake finds no
communicator. -/
def Careful (s : ReservedComm) : Action → Prop
  | .getComm => s.entry ≠ some .readyInternal
  | .step k =>
      (s.calls[k]? = some .entering → .holding ∈ s.calls ∨ .finishing ∈ s.calls) ∧
        (s.calls[k]? = some .finishing → s.outcome = some .failed → s.entry = none)
  | _ => True

instance (s : ReservedComm) : DecidablePred (Careful s) := fun a => by
  cases a <;> unfold Careful <;> infer_instance

/-! ### The calls of a state -/

variable {s t : ReservedComm} {calls : List Call} {call new : Call} {k : ℕ}

/-- A call that is not the `k`-th keeps its place. -/
theorem mem_set_of_ne {old : Call} (hold : calls[k]? = some old) (h : call ∈ calls)
    (hne : call ≠ old) : call ∈ calls.set k new := by
  obtain ⟨j, hj⟩ := List.mem_iff_getElem?.1 h
  refine List.mem_iff_getElem?.2 ⟨j, ?_⟩
  have hkj : k ≠ j := by
    rintro rfl
    exact hne (Option.some.inj (hj.symm.trans hold))
  rw [List.getElem?_set_ne hkj, hj]

/-- The new `k`-th call is one of the calls. -/
theorem mem_set_self {old : Call} (hold : calls[k]? = some old) : new ∈ calls.set k new := by
  obtain ⟨hk, -⟩ := List.getElem?_eq_some_iff.1 hold
  exact List.mem_set hk new

theorem mem_notifyAll : call ∈ notifyAll calls ↔
    (call ∈ calls ∧ call ≠ .blocked) ∨ (call = .testing ∧ .blocked ∈ calls) := by
  unfold notifyAll
  rw [List.mem_map]
  constructor
  · rintro ⟨old, hold, rfl⟩
    split
    case isTrue hb => exact .inr ⟨rfl, hb ▸ hold⟩
    case isFalse hb => exact .inl ⟨hold, hb⟩
  · rintro (⟨h, hne⟩ | ⟨rfl, h⟩)
    · exact ⟨call, h, if_neg hne⟩
    · exact ⟨_, h, if_pos rfl⟩

/-! ### The invariant -/

/-- What careful steps keep: the steps to come determine `m_comms`; who got the
communicator found it `READY`; and whoever sleeps has somebody to wake him. -/
structure ConnInv (role : Role) (faultTolerance : Bool) (s : ReservedComm) : Prop where
  suffix : s.rest <:+ handshake role faultTolerance
  entry : s.entry = statusAt s.rest
  succeeded : s.outcome = some .succeeded → s.rest = []
  failed : s.outcome = some .failed → s.entry ≠ some .ready
  returned : ∀ status, .returned (some status) ∈ s.calls →
    status = .ready ∧ s.entry = some .ready
  awake : .blocked ∈ s.calls → .holding ∈ s.calls ∨ .finishing ∈ s.calls
  ended : .finishing ∈ s.calls → s.outcome ≠ none

theorem connInv_start (role : Role) (faultTolerance asyncConnection : Bool) :
    ConnInv role faultTolerance (start role faultTolerance asyncConnection) where
  suffix := List.suffix_refl _
  entry := (statusAt_handshake role faultTolerance).symm
  succeeded := nofun
  failed := nofun
  returned := nofun
  awake := nofun
  ended := nofun

namespace ConnInv

variable {role : Role} {faultTolerance : Bool}

/-- The calls change and nothing else does. -/
theorem setCalls (h : ConnInv role faultTolerance s) {fut : Bool} {calls : List Call}
    (hreturned : ∀ status, .returned (some status) ∈ calls →
      status = .ready ∧ s.entry = some .ready)
    (hawake : .blocked ∈ calls → .holding ∈ calls ∨ .finishing ∈ calls)
    (hended : .finishing ∈ calls → s.outcome ≠ none) :
    ConnInv role faultTolerance { s with fut := fut, calls := calls } :=
  { h with returned := hreturned, awake := hawake, ended := hended }

/-- The call `k` goes on from `old` to `new`, and nobody who could wake is lost. -/
theorem setCall (h : ConnInv role faultTolerance s) {fut : Bool} {old : Call}
    (hold : s.calls[k]? = some old)
    (hreturned : ∀ status, new = .returned (some status) → status = .ready ∧ s.entry = some .ready)
    (hblocked : new = .blocked → .holding ∈ s.calls ∨ .finishing ∈ s.calls)
    (hholding : old = .holding → new = .finishing) (hfinishing : old ≠ .finishing)
    (hended : new = .finishing → s.outcome ≠ none) :
    ConnInv role faultTolerance { s with fut := fut, calls := s.calls.set k new } := by
  have hkeep : .holding ∈ s.calls ∨ .finishing ∈ s.calls →
      .holding ∈ s.calls.set k new ∨ .finishing ∈ s.calls.set k new := by
    rintro (hmem | hmem)
    · by_cases hh : old = .holding
      · exact .inr (hholding hh ▸ mem_set_self hold)
      · exact .inl (mem_set_of_ne hold hmem (Ne.symm hh))
    · exact .inr (mem_set_of_ne hold hmem hfinishing.symm)
  refine h.setCalls (fun status hmem => ?_) (fun hmem => ?_) fun hmem => ?_ <;>
    rcases List.mem_or_eq_of_mem_set hmem with hmem | heq
  · exact h.returned status hmem
  · exact hreturned status heq.symm
  · exact hkeep (h.awake hmem)
  · exact hkeep (hblocked heq.symm)
  · exact h.ended hmem
  · exact hended heq.symm

/-- A step of a call. -/
theorem callStep (h : ConnInv role faultTolerance s) (hG : Careful s (.step k))
    (ht : callStep s k = some t) : ConnInv role faultTolerance t := by
  unfold Connection.callStep at ht
  split at ht
  case h_1 hk =>
    split at ht <;> obtain rfl := Option.some.inj ht
    · exact h.setCall hk nofun nofun nofun nofun nofun
    · exact h.setCall hk nofun nofun nofun nofun nofun
  case h_2 hk =>
    split at ht <;> obtain rfl := Option.some.inj ht
    case isTrue hready =>
      refine h.setCall hk (fun status heq => ?_) nofun nofun nofun nofun
      rw [hready] at heq
      exact ⟨(Option.some.inj (Call.returned.inj heq)).symm, hready⟩
    case isFalse => exact h.setCall hk nofun nofun nofun nofun nofun
  case h_3 hk =>
    obtain rfl := Option.some.inj ht
    exact h.setCall hk nofun (fun _ => hG.1 hk) nofun nofun nofun
  case h_4 hk =>
    split at ht
    case isTrue hend =>
      obtain rfl := Option.some.inj ht
      exact h.setCall hk nofun nofun (fun _ => rfl) nofun fun _ => hend
    case isFalse => cases ht
  case h_5 hk =>
    obtain rfl := Option.some.inj ht
    have hend := h.ended (List.mem_of_getElem? hk)
    refine h.setCalls (fun status hmem => ?_) (fun hmem => ?_) fun _ => hend
    · obtain ⟨hmem, -⟩ | ⟨heq, -⟩ := mem_notifyAll.1 hmem
      · rcases List.mem_or_eq_of_mem_set hmem with hmem | heq
        · exact h.returned status hmem
        · -- the handshake has ended, and it has not failed with a communicator left over
          have hentry : s.entry = some status := (Call.returned.inj heq).symm
          cases hout : s.outcome with
          | none => exact absurd hout hend
          | some outcome =>
              cases outcome with
              | failed =>
                  rw [hG.2 hk hout] at hentry
                  cases hentry
              | succeeded =>
                  have hready : s.entry = some .ready := by
                    rw [h.entry, h.succeeded hout]
                    rfl
                  exact ⟨Option.some.inj (hentry.symm.trans hready), hready⟩
      · cases heq
    · obtain ⟨-, hne⟩ | ⟨heq, -⟩ := mem_notifyAll.1 hmem
      · exact absurd rfl hne
      · cases heq
  case h_6 => cases ht
  case h_7 => cases ht
  case h_8 => cases ht

/-- A step of the handshake leaves what belongs to the steps after it. -/
theorem advance (h : ConnInv role faultTolerance s) {step : HandshakeStep}
    {rest : List HandshakeStep} (hrest : s.rest = step :: rest) (hout : s.outcome = none) :
    ConnInv role faultTolerance { s with entry := step.effect s.entry, rest := rest } := by
  have hsuffix := hrest ▸ h.suffix
  obtain ⟨heffect, -⟩ := HandshakeStep.effect_statusAt hsuffix
  refine { h with
    suffix := (List.suffix_cons step rest).trans hsuffix
    entry := by rw [h.entry, hrest, heffect]
    succeeded := fun hs => ?_
    failed := fun hf => ?_
    returned := fun status hmem => ?_ }
  · rw [show s.outcome = none from hout] at hs; cases hs
  · rw [show s.outcome = none from hout] at hf; cases hf
  · -- `READY` is the last status
    obtain ⟨hready, hentry⟩ := h.returned status hmem
    refine ⟨hready, ?_⟩
    rw [hentry]
    cases step <;> first | rfl | skip
    all_goals
      rw [h.entry, hrest] at hentry
      simp [statusAt] at hentry

/-- One careful action. -/
theorem step (h : ConnInv role faultTolerance s) {a : Action} (hG : Careful s a)
    (ht : connStep s a = some t) : ConnInv role faultTolerance t := by
  cases a with
  | emplace =>
      simp only [connStep] at ht
      split at ht
      case isTrue =>
        obtain rfl := Option.some.inj ht
        exact { h with }
      case isFalse => cases ht
  | advance =>
      simp only [connStep] at ht
      split at ht
      case h_1 => cases ht
      case h_2 hout hrest =>
        obtain rfl := Option.some.inj ht
        exact { h with succeeded := fun _ => hrest, failed := nofun, ended := fun _ => nofun }
      case h_3 hout hrest =>
        split at ht
        case isTrue => cases ht
        case isFalse =>
          obtain rfl := Option.some.inj ht
          exact h.advance hrest hout
  | fail =>
      simp only [connStep] at ht
      split at ht
      case h_1 hout hrest =>
        split at ht
        case isTrue hfail =>
          obtain rfl := Option.some.inj ht
          refine { h with succeeded := nofun, failed := fun _ => ?_, ended := fun _ => nofun }
          rw [show s.entry = statusAt s.rest from h.entry, hrest]
          exact (HandshakeStep.effect_statusAt (hrest ▸ h.suffix)).2 hfail
        case isFalse => cases ht
      case h_2 => cases ht
  | getComm =>
      obtain rfl := Option.some.inj ht
      have hnew : ∀ call ∈ s.calls ++ [firstCheck s.entry], call ∈ s.calls ∨
          call = .extracting ∨ (call = .returned (some .ready) ∧ s.entry = some .ready) := by
        intro call hmem
        rcases List.mem_append.1 hmem with hmem | hmem
        · exact .inl hmem
        · have heq := List.mem_singleton.1 hmem
          rcases hentry : s.entry with - | status
          · exact .inr (.inl (by rw [heq, hentry]; rfl))
          · cases status with
            | notReady => exact .inr (.inl (by rw [heq, hentry]; rfl))
            | readyInternal => exact absurd hentry hG
            | ready => exact .inr (.inr ⟨by rw [heq, hentry]; rfl, rfl⟩)
      refine h.setCalls (fun status hmem => ?_) (fun hmem => ?_) fun hmem => ?_ <;>
        rcases hnew _ hmem with hmem | heq | ⟨heq, hentry⟩ <;> try cases heq
      · exact h.returned status hmem
      · exact ⟨rfl, hentry⟩
      · exact (h.awake hmem).imp (List.mem_append_left _) (List.mem_append_left _)
      · exact h.ended hmem
  | step k => exact h.callStep hG ht
  | wake k =>
      simp only [connStep] at ht
      split at ht
      case isTrue hk =>
        obtain rfl := Option.some.inj ht
        exact h.setCall hk nofun nofun nofun nofun nofun
      case isFalse => cases ht

/-- The invariant makes `get_comm` keep its promise. -/
theorem good (h : ConnInv role faultTolerance s) : Good s where
  ready status hmem := (h.returned status hmem).1
  nobodyWaits hend hquiet hmem := by
    rcases h.awake hmem with hmem | hmem <;> obtain ⟨k, hk⟩ := List.mem_iff_getElem?.1 hmem <;>
      have hstep := hquiet k <;> simp [Connection.callStep, hk] at hstep
    exact hend hstep
  null hfail comm hmem := by
    cases comm with
    | none => rfl
    | some status => exact absurd (h.returned status hmem).2 (h.failed hfail)

end ConnInv

/-! ### Runs -/

/-- **When `get_comm` keeps its promise.**  On either side, with fault tolerance and
`LFI_async_connection` on or off, every run whose steps are all careful keeps it in every
state. -/
theorem good_of_careful (role : Role) (faultTolerance asyncConnection : Bool) (as : List Action)
    (h : Meets connStep Careful (start role faultTolerance asyncConnection) as) :
    Always connStep Good (start role faultTolerance asyncConnection) as :=
  (always_of_meets (fun _ _ _ hs hG ht => ConnInv.step hs hG ht)
    (connInv_start role faultTolerance asyncConnection) h).mono fun _ hs => hs.good

/-- A call takes the future, a second one sleeps, and the handshake of the server
succeeds; then both get the communicator. -/
def connected : List Action :=
  [.emplace, .getComm, .step 0, .getComm, .step 1, .step 1, .step 1] ++
    List.replicate 22 .advance ++ [.step 0, .step 0, .step 1]

/-- A call takes the future, and the handshake of the server fails right after
`init_comm`. -/
def halfBuilt : List Action :=
  [.emplace, .getComm, .step 0] ++ List.replicate 5 .advance ++ [.fail, .step 0, .step 0]

/-- `good_of_careful` at a call that has to wait. -/
theorem good_connected : Always connStep Good (start .server true true) connected :=
  good_of_careful .server true true connected (by decide)

/-- **A failed handshake hands out its communicator.**  The call that waited for the
future gets one that is `NOT_READY`. -/
theorem good_halfBuilt :
    ¬ ∀ (role : Role) (faultTolerance asyncConnection : Bool) (as : List Action)
      (s : ReservedComm), exec connStep (start role faultTolerance asyncConnection) as = some s →
      Good s := by
  intro h
  have hgood := h .server true true halfBuilt
    ((exec connStep (start .server true true) halfBuilt).get (by decide)) (Option.some_get _).symm
  exact absurd (hgood.ready .notReady (by decide)) (by decide)

end Connection
end Lfi
