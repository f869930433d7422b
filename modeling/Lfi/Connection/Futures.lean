/-
# The futures of the connections

With `LFI_async_connection` the handshake of a connection runs in a future.
`lfi_client_create_t` and `lfi_server_accept_t` put it into `m_fut_comms`, and the first
`get_comm_internal` that finds the communicator not yet ready takes it out again
(`src/src/lfi.cpp`, `src/src/impl/comm.cpp`).  A communicator that is ready at the first
lookup is returned at once, and its future stays.

Here are all connections of a process together, with the lookups of any number of threads,
of which some belong to a `close_comm`.  `noStale_iff` says when no future outlives its
communicator.
-/

import Lfi.Connection.GetComm

namespace Lfi
namespace Connection

open Runs

/-- An entry of `m_comms`: null, or a communicator with the handshake that built it, which
an any-comm has none of. -/
inductive CommSlot where
  | null
  | comm (builder : Option ℕ) (status : CommStatus)
  deriving DecidableEq, Repr

/-- Where a future is: its handshake is not launched yet; its creator is launching it, with
`m_fut_comms_mutex` locked; it is in `m_fut_comms`; or a lookup has taken it. -/
inductive FuturePlace where
  | toLaunch
  | launching
  | stored
  | taken
  deriving DecidableEq, Repr

/-- A handshake and its future. -/
structure FutureTask where
  id : BitVec 32
  rest : List HandshakeStep
  outcome : Option Outcome
  place : FuturePlace
  deriving DecidableEq

/-- A call of `get_comm_internal`, the future it holds, and whether it was made by
`close_comm`. -/
structure Lookup where
  id : BitVec 32
  closing : Bool
  call : Call
  future : Option ℕ
  deriving DecidableEq

/-- The tables `m_comms` and `m_fut_comms`, the handshakes and the lookups.  `closed` is
history: a `close_comm` of the identifier has returned 0, and it was not reserved since. -/
structure Process where
  rankCounter : BitVec 32
  comms : BitVec 32 → Option CommSlot
  futComms : BitVec 32 → Option ℕ
  tasks : List FutureTask
  lookups : List Lookup
  closed : BitVec 32 → Bool

/-- What can happen: the two halves of a creation, a step or the failure of a handshake, a
lookup with its steps and its wake-ups, and the second half of `close_comm`. -/
inductive ProcessAction where
  | create (role : Role)
  | launch (k : ℕ)
  | emplace (k : ℕ)
  | advance (k : ℕ)
  | fail (k : ℕ)
  | lookup (id : BitVec 32) (closing : Bool)
  | step (j : ℕ)
  | wake (j : ℕ)
  | erase (j : ℕ)
  deriving DecidableEq

/-- The communicator that `m_comms` has under the identifier, by its status. -/
def Process.status (s : Process) (id : BitVec 32) : Option CommStatus :=
  match s.comms id with
  | some (.comm _ status) => some status
  | _ => none

/-- A lookup holds `m_comms_mutex`. -/
def Process.locked (s : Process) : Bool := s.lookups.any fun l => l.call.holdsLock

/-- A creator holds `m_fut_comms_mutex`. -/
def Process.futLocked (s : Process) : Bool := s.tasks.any fun task => task.place == .launching

/-- `reserve_comm`, and the handshake to come. -/
def create (faultTolerance : Bool) (s : Process) (role : Role) : Process :=
  let id := s.rankCounter
  { s with
    rankCounter := s.rankCounter + 1
    comms := if s.comms id = none then Function.update s.comms id (some .null) else s.comms
    tasks := s.tasks ++ [⟨id, handshake role faultTolerance, none, .toLaunch⟩]
    closed := Function.update s.closed id false }

/-- `m_fut_comms.emplace(out, …)`: where there is a future already the new one is dropped. -/
def emplace (s : Process) (k : ℕ) (task : FutureTask) : Process :=
  if s.futComms task.id = none then
    { s with
      futComms := Function.update s.futComms task.id (some k)
      tasks := s.tasks.set k { task with place := .stored } }
  else { s with tasks := s.tasks.set k { task with place := .taken } }

/-- What a step of the handshake `k` does to `m_comms`.  Its communicator may be gone;
`init_comm` ends the process when the identifier is not reserved. -/
def stepEffect (s : Process) (k : ℕ) (id : BitVec 32) (step : HandshakeStep) :
    Option (BitVec 32 → Option CommSlot) :=
  match step with
  | .initComm =>
      if s.comms id = some .null then
        some (Function.update s.comms id (some (.comm (some k) .notReady)))
      else none
  | step =>
      match s.comms id with
      | some (.comm (some builder) status) =>
          if builder = k then
            some (Function.update s.comms id
              ((step.effect (some status)).map fun status => .comm (some k) status))
          else some s.comms
      | _ => some s.comms

/-- The next step of the handshake `k`. -/
def advanceTask (s : Process) (k : ℕ) (task : FutureTask) : Option Process :=
  match task.outcome, task.rest with
  | some _, _ => none
  | none, [] => some { s with tasks := s.tasks.set k { task with outcome := some .succeeded } }
  | none, step :: rest =>
      if step = .initComm ∧ s.locked then none
      else (stepEffect s k task.id step).map fun comms =>
        { s with comms := comms, tasks := s.tasks.set k { task with rest := rest } }

/-- The next step of the handshake `k` fails. -/
def fail (s : Process) (k : ℕ) (task : FutureTask) : Option Process :=
  match task.outcome, task.rest with
  | none, step :: _ =>
      if step.canFail then
        some { s with tasks := s.tasks.set k { task with outcome := some .failed } }
      else none
  | _, _ => none

/-- The first check of `get_comm_internal`, with the search before it. -/
def firstLookup (s : Process) (id : BitVec 32) : Call :=
  if s.comms id = none then .returned none else firstCheck (s.status id)

/-- `m_fut_wait_cv.notify_all()`. -/
def wakeAll (lookups : List Lookup) : List Lookup :=
  lookups.map fun l => if l.call = .blocked then { l with call := .testing } else l

/-- The next step of the lookup `j`. -/
def lookupStep (s : Process) (j : ℕ) (l : Lookup) : Option Process :=
  match l.call with
  | .extracting =>
      if s.futLocked then none
      else
        match s.futComms l.id with
        | some k => some { s with
            futComms := Function.update s.futComms l.id none
            tasks := s.tasks.modify k fun task => { task with place := .taken }
            lookups := s.lookups.set j { l with call := .holding, future := some k } }
        | none => some { s with lookups := s.lookups.set j { l with call := .testing } }
  | .testing =>
      if s.status l.id = some .ready then
        some { s with lookups := s.lookups.set j { l with call := .returned (s.status l.id) } }
      else some { s with lookups := s.lookups.set j { l with call := .entering } }
  | .entering => some { s with lookups := s.lookups.set j { l with call := .blocked } }
  | .holding =>
      -- `fut.get()` returns
      if ((l.future.bind fun k => s.tasks[k]?).bind FutureTask.outcome) ≠ none then
        some { s with lookups := s.lookups.set j { l with call := .finishing } }
      else none
  | .finishing =>
      some { s with
        lookups := wakeAll (s.lookups.set j { l with call := .returned (s.status l.id) }) }
  | .blocked | .returned _ => none

/-- The second half of `close_comm`: `m_comms.erase(id)`, when the lookup has returned a
communicator. -/
def eraseComm (s : Process) (j : ℕ) (l : Lookup) : Option Process :=
  match l.closing, l.call with
  | true, .returned (some _) =>
      if s.locked then none
      else some { s with
        comms := Function.update s.comms l.id none
        lookups := s.lookups.set j { l with closing := false }
        closed := Function.update s.closed l.id true }
  | _, _ => none

/-- One action. -/
def processStep (faultTolerance : Bool) (s : Process) : ProcessAction → Option Process
  | .create role => if s.locked then none else some (create faultTolerance s role)
  | .launch k =>
      match s.tasks[k]? with
      | some task =>
          if task.place = .toLaunch ∧ s.futLocked = false then
            some { s with tasks := s.tasks.set k { task with place := .launching } }
          else none
      | none => none
  | .emplace k =>
      match s.tasks[k]? with
      | some task => if task.place = .launching then some (emplace s k task) else none
      | none => none
  | .advance k =>
      match s.tasks[k]? with
      | some task => if task.place = .toLaunch then none else advanceTask s k task
      | none => none
  | .fail k =>
      match s.tasks[k]? with
      | some task => if task.place = .toLaunch then none else fail s k task
      | none => none
  | .lookup id closing =>
      some { s with lookups := s.lookups ++ [⟨id, closing, firstLookup s id, none⟩] }
  | .step j =>
      match s.lookups[j]? with
      | some l => lookupStep s j l
      | none => none
  | .wake j =>
      match s.lookups[j]? with
      | some l =>
          if l.call = .blocked then
            some { s with lookups := s.lookups.set j { l with call := .testing } }
          else none
      | none => none
  | .erase j =>
      match s.lookups[j]? with
      | some l => eraseComm s j l
      | none => none

/-- After the constructor of `LFI`: the two any-comms. -/
def processStart : Process where
  rankCounter := 0
  comms id :=
    if id = 0xFFFFFFFE#32 ∨ id = 0xFFFFFFFD#32 then some (.comm none .ready) else none
  futComms _ := none
  tasks := []
  lookups := []
  closed _ := false

/-- **No stale future.**  An identifier with an entry in `m_fut_comms` has one in `m_comms`,
and one that was closed has none in either. -/
structure NoStale (s : Process) : Prop where
  inTable : ∀ id, s.futComms id ≠ none → s.comms id ≠ none
  closed : ∀ id, s.closed id = true → s.comms id = none ∧ s.futComms id = none

/-- The steps that leave none behind: a lookup has taken the future of a communicator before
`close_comm` erases it, and nobody closes an identifier before its future is put in. -/
def Tidy (s : Process) : ProcessAction → Prop
  | .erase j => ∀ l ∈ s.lookups[j]?, ∀ task ∈ s.tasks, task.id = l.id → task.place ≠ .stored
  | .emplace k => ∀ task ∈ s.tasks[k]?, s.comms task.id ≠ none
  | _ => True

instance (s : Process) : DecidablePred (Tidy s) := fun a => by
  cases a <;> unfold Tidy <;> infer_instance

variable {faultTolerance : Bool} {s t : Process} {k j : ℕ} {task : FutureTask} {l : Lookup}

/-! ### What is in `m_fut_comms` -/

/-- `m_fut_comms` has the futures that were put in and not taken. -/
def FutsStored (s : Process) : Prop :=
  ∀ id k, s.futComms id = some k ↔
    ∃ task, s.tasks[k]? = some task ∧ task.id = id ∧ task.place = .stored

theorem futsStored_start : FutsStored processStart := fun id k => by simp [processStart]

/-- The tasks after one of them was replaced. -/
theorem getElem?_set_of_some (hk : s.tasks[k]? = some task) (new : FutureTask) (i : ℕ) :
    (s.tasks.set k new)[i]? = if i = k then some new else s.tasks[i]? := by
  split
  case isTrue hik => rw [hik, List.getElem?_set_self', hk]; rfl
  case isFalse hik => exact List.getElem?_set_ne (Ne.symm hik)

namespace FutsStored

/-- A handshake goes on. -/
theorem setTask (h : FutsStored s) (hk : s.tasks[k]? = some task) (new : FutureTask)
    (hid : new.id = task.id) (hplace : new.place = .stored ↔ task.place = .stored)
    (comms : BitVec 32 → Option CommSlot) :
    FutsStored { s with comms := comms, tasks := s.tasks.set k new } := by
  intro id i
  refine (h id i).trans ?_
  show _ ↔ ∃ other, (s.tasks.set k new)[i]? = some other ∧ _
  rw [getElem?_set_of_some hk]
  split
  case isTrue hik =>
    subst hik
    simp only [hk, Option.some.injEq, exists_eq_left', hid, hplace]
  case isFalse => exact Iff.rfl

/-- Changes elsewhere. -/
theorem congr (h : FutsStored s) (hfut : t.futComms = s.futComms) (htasks : t.tasks = s.tasks) :
    FutsStored t := by
  intro id k
  rw [hfut, htasks]
  exact h id k

/-- A new handshake. -/
theorem create (h : FutsStored s) (role : Role) : FutsStored (create faultTolerance s role) := by
  intro id i
  refine (h id i).trans ?_
  show _ ↔ ∃ other, (s.tasks ++ [_])[i]? = some other ∧ _
  rw [List.getElem?_append]
  split
  case isTrue => exact Iff.rfl
  case isFalse hle =>
    refine iff_of_false ?_ ?_
    · rintro ⟨other, hother, -⟩
      exact hle (List.getElem?_eq_some_iff.1 hother).1
    · rintro ⟨other, hother, -, hplace⟩
      rw [List.mem_singleton.1 (List.mem_of_getElem? hother)] at hplace
      cases hplace

/-- A future is put in. -/
theorem emplace (h : FutsStored s) (hk : s.tasks[k]? = some task)
    (hplace : task.place = .launching) : FutsStored (emplace s k task) := by
  unfold Connection.emplace
  split
  case isFalse =>
    exact h.setTask hk { task with place := .taken } rfl (by simp [hplace]) s.comms
  case isTrue hnone =>
    intro id i
    show Function.update s.futComms task.id (some k) id = some i ↔
      ∃ other, (s.tasks.set k _)[i]? = some other ∧ _
    rw [getElem?_set_of_some hk, Function.update_apply]
    by_cases hik : i = k
    · subst hik
      by_cases hid : id = task.id
      · simp [hid]
      · have hnot : s.futComms id ≠ some i := fun hsome => by
          obtain ⟨other, hother, -, hstored⟩ := (h id i).1 hsome
          rw [hk] at hother
          rw [← Option.some.inj hother, hplace] at hstored
          cases hstored
        simp [hid, hnot, Ne.symm hid]
    · rw [if_neg hik, ← h id i]
      by_cases hid : id = task.id
      · subst hid
        simp [hnone, Ne.symm hik]
      · rw [if_neg hid]

/-- A lookup takes a future. -/
theorem take (h : FutsStored s) {id : BitVec 32} (hk : s.futComms id = some k)
    (lookups : List Lookup) :
    FutsStored { s with
      futComms := Function.update s.futComms id none
      tasks := s.tasks.modify k fun task => { task with place := .taken }
      lookups := lookups } := by
  obtain ⟨task, htask, htid, hstored⟩ := (h id k).1 hk
  intro id' i
  show Function.update s.futComms id none id' = some i ↔
    ∃ other, (s.tasks.modify k _)[i]? = some other ∧ _
  rw [Function.update_apply]
  by_cases hik : i = k
  · subst hik
    have hnot : id' ≠ id → s.futComms id' ≠ some i := fun hne hsome => by
      obtain ⟨other, hother, hoid, -⟩ := (h id' i).1 hsome
      rw [htask] at hother
      rw [← Option.some.inj hother, htid] at hoid
      exact hne hoid.symm
    by_cases hid : id' = id <;> simp [hid, htask, hnot]
  · have hold : (s.tasks.modify k fun task => { task with place := .taken })[i]? = s.tasks[i]? := by
      simp [Ne.symm hik]
    rw [hold]
    by_cases hid : id' = id
    · subst hid
      have hnot : ¬ ∃ other, s.tasks[i]? = some other ∧ other.id = id' ∧ other.place = .stored := by
        rw [← h id' i, hk]
        exact fun heq => hik (Option.some.inj heq).symm
      simpa using hnot
    · rw [if_neg hid, h id' i]

end FutsStored

/-! ### The steps -/

/-- No future is put in, and no entry of `m_comms` goes away. -/
structure Quiet (s t : Process) : Prop where
  comms : ∀ id, s.comms id ≠ none → t.comms id ≠ none
  reserved : ∀ id, t.comms id ≠ none → s.comms id ≠ none ∨ t.closed id = false
  futComms : ∀ id, t.futComms id ≠ none → s.futComms id ≠ none
  closed : ∀ id, t.closed id = true → s.closed id = true

theorem NoStale.quiet (h : NoStale s) (hq : Quiet s t) : NoStale t where
  inTable id hfut := hq.comms id (h.inTable id (hq.futComms id hfut))
  closed id hclosed := by
    obtain ⟨hcomm, hfut⟩ := h.closed id (hq.closed id hclosed)
    constructor
    · by_contra hsome
      rcases hq.reserved id hsome with hold | hopen
      · exact hold hcomm
      · rw [hclosed] at hopen
        cases hopen
    · by_contra hsome
      exact hq.futComms id hsome hfut

/-- Nothing happens to the tables. -/
theorem Quiet.of_eq (hcomms : t.comms = s.comms)
    (hfut : ∀ id, t.futComms id ≠ none → s.futComms id ≠ none) (hclosed : t.closed = s.closed) :
    Quiet s t where
  comms id := by rw [hcomms]; exact fun h => h
  reserved id := by rw [hcomms]; exact .inl
  futComms := hfut
  closed id := by rw [hclosed]; exact fun h => h

/-- A step of a handshake adds and removes no entry. -/
theorem stepEffect_comms {id : BitVec 32} {step : HandshakeStep}
    {comms : BitVec 32 → Option CommSlot} (h : stepEffect s k id step = some comms)
    (i : BitVec 32) : comms i ≠ none ↔ s.comms i ≠ none := by
  have hupdate : ∀ x : Option CommSlot, x ≠ none → s.comms id ≠ none →
      (Function.update s.comms id x i ≠ none ↔ s.comms i ≠ none) := by
    intro x hx hid
    by_cases hi : i = id
    · subst hi
      rw [Function.update_self]
      exact iff_of_true hx hid
    · rw [Function.update_of_ne hi]
  unfold stepEffect at h
  split at h
  case h_1 =>
    split at h
    case isFalse => cases h
    case isTrue hnull =>
      obtain rfl := Option.some.inj h
      exact hupdate _ nofun (by rw [hnull]; nofun)
  case h_2 hstep =>
    split at h
    case h_2 => exact Option.some.inj h ▸ Iff.rfl
    case h_1 builder status hcomm =>
      split at h
      case isFalse => exact Option.some.inj h ▸ Iff.rfl
      case isTrue =>
        obtain rfl := Option.some.inj h
        refine hupdate _ ?_ (by rw [hcomm]; nofun)
        cases step <;> simp [HandshakeStep.effect]

theorem advanceTask_quiet (h : FutsStored s) (hk : s.tasks[k]? = some task)
    (ht : advanceTask s k task = some t) : FutsStored t ∧ Quiet s t := by
  unfold advanceTask at ht
  split at ht
  case h_1 => cases ht
  case h_2 =>
    obtain rfl := Option.some.inj ht
    exact ⟨h.setTask hk { task with outcome := some .succeeded } rfl Iff.rfl s.comms,
      .of_eq rfl (fun _ h => h) rfl⟩
  case h_3 step rest hout hrest =>
    split at ht
    case isTrue => cases ht
    case isFalse =>
      obtain ⟨comms, hcomms, rfl⟩ := Option.map_eq_some_iff.1 ht
      have hiff := stepEffect_comms hcomms
      exact ⟨h.setTask hk { task with rest := rest } rfl Iff.rfl comms, fun id => (hiff id).2,
        fun id hid => .inl ((hiff id).1 hid), fun _ h => h, fun _ h => h⟩

theorem fail_quiet (h : FutsStored s) (hk : s.tasks[k]? = some task)
    (ht : fail s k task = some t) : FutsStored t ∧ Quiet s t := by
  unfold fail at ht
  split at ht
  case h_2 => cases ht
  case h_1 =>
    split at ht
    case isFalse => cases ht
    case isTrue =>
      obtain rfl := Option.some.inj ht
      exact ⟨h.setTask hk { task with outcome := some .failed } rfl Iff.rfl s.comms,
        .of_eq rfl (fun _ h => h) rfl⟩

theorem lookupStep_quiet (h : FutsStored s) (ht : lookupStep s j l = some t) :
    FutsStored t ∧ Quiet s t := by
  -- a step that changes the lookups only
  have hsame : ∀ lookups : List Lookup, FutsStored { s with lookups := lookups } ∧
      Quiet s { s with lookups := lookups } := fun lookups =>
    ⟨h.congr rfl rfl, .of_eq rfl (fun _ h => h) rfl⟩
  unfold lookupStep at ht
  split at ht
  case h_1 =>
    split at ht
    case isTrue => cases ht
    case isFalse =>
      split at ht
      case h_2 => exact Option.some.inj ht ▸ hsame _
      case h_1 k hfut =>
        obtain rfl := Option.some.inj ht
        refine ⟨h.take hfut _, .of_eq rfl (fun id hid => ?_) rfl⟩
        have hfuts : Function.update s.futComms l.id none id ≠ none := hid
        by_cases hil : id = l.id
        · exact absurd (by rw [hil, Function.update_self]) hfuts
        · rwa [Function.update_of_ne hil] at hfuts
  case h_2 => split at ht <;> exact Option.some.inj ht ▸ hsame _
  case h_3 => exact Option.some.inj ht ▸ hsame _
  case h_4 =>
    split at ht
    case isTrue => exact Option.some.inj ht ▸ hsame _
    case isFalse => cases ht
  case h_5 => exact Option.some.inj ht ▸ hsame _
  case h_6 => cases ht
  case h_7 => cases ht

/-- A creation keeps what is there. -/
theorem create_quiet (role : Role) : Quiet s (create faultTolerance s role) := by
  have hcomms : ∀ id, id ≠ s.rankCounter ∨ s.comms id ≠ none →
      (create faultTolerance s role).comms id = s.comms id := by
    intro id hid
    show (if s.comms s.rankCounter = none then
      Function.update s.comms s.rankCounter (some .null) else s.comms) id = _
    split
    case isFalse => rfl
    case isTrue hnone =>
      refine Function.update_of_ne (hid.elim (fun hne => hne) fun hsome heq => hsome ?_) ..
      rw [heq, hnone]
  refine ⟨fun id hid => ?_, fun id hid => ?_, fun _ h => h, fun id hid => ?_⟩
  · rwa [hcomms id (.inr hid)]
  · by_cases hne : id = s.rankCounter
    · exact .inr (by subst hne; exact Function.update_self ..)
    · exact .inl (by rwa [hcomms id (.inl hne)] at hid)
  · by_cases hne : id = s.rankCounter
    · subst hne
      rw [show (create faultTolerance s role).closed s.rankCounter = false from
        Function.update_self ..] at hid
      cases hid
    · rwa [show (create faultTolerance s role).closed id = s.closed id from
        Function.update_of_ne hne ..] at hid

/-- Putting in a future leaves none behind when the identifier is still in `m_comms`. -/
theorem emplace_noStale (h : NoStale s) (k : ℕ) (task : FutureTask) :
    NoStale (emplace s k task) ↔ s.comms task.id ≠ none := by
  unfold emplace
  split
  case isFalse hsome =>
    refine iff_of_true (h.quiet (.of_eq rfl (fun _ h => h) rfl)) (h.inTable task.id hsome)
  case isTrue hnone =>
    constructor
    · intro ht
      exact ht.inTable task.id (by
        show Function.update s.futComms task.id (some k) task.id ≠ none
        rw [Function.update_self]
        nofun)
    · intro hcomm
      have hother : ∀ id, id ≠ task.id →
          Function.update s.futComms task.id (some k) id = s.futComms id :=
        fun id hne => Function.update_of_ne hne ..
      refine ⟨fun id hid => ?_, fun id hid => ?_⟩
      · by_cases hne : id = task.id
        · exact hne ▸ hcomm
        · exact h.inTable id ((hother id hne) ▸ hid)
      · have hne : id ≠ task.id := fun heq => hcomm (heq ▸ (h.closed id hid).1)
        exact ⟨(h.closed id hid).1, (hother id hne).trans (h.closed id hid).2⟩

/-- An identifier has no future when those of its handshakes are taken, or not put in yet. -/
theorem FutsStored.futComms_eq_none (h : FutsStored s) {id : BitVec 32} :
    s.futComms id = none ↔ ∀ task ∈ s.tasks, task.id = id → task.place ≠ .stored := by
  constructor
  · intro hnone task hmem hid hstored
    obtain ⟨k, hk⟩ := List.mem_iff_getElem?.1 hmem
    have hsome := (h id k).2 ⟨task, hk, hid, hstored⟩
    rw [hnone] at hsome
    cases hsome
  · intro hall
    by_contra hsome
    obtain ⟨k, hk⟩ := Option.ne_none_iff_exists'.1 hsome
    obtain ⟨task, htask, hid, hstored⟩ := (h id k).1 hk
    exact hall task (List.mem_of_getElem? htask) hid hstored

/-- Closing a communicator leaves no future behind when the futures of its handshakes are
taken. -/
theorem erase_noStale (h : NoStale s) (hf : FutsStored s) (ht : eraseComm s j l = some t) :
    FutsStored t ∧ (NoStale t ↔ ∀ task ∈ s.tasks, task.id = l.id → task.place ≠ .stored) := by
  unfold eraseComm at ht
  split at ht
  case h_2 => cases ht
  case h_1 =>
    split at ht
    case isTrue => cases ht
    case isFalse =>
      obtain rfl := Option.some.inj ht
      refine ⟨hf.congr rfl rfl, ?_⟩
      rw [← hf.futComms_eq_none]
      constructor
      · intro ht
        exact (ht.closed l.id (Function.update_self ..)).2
      · intro hnone
        refine ⟨fun id hid => ?_, fun id hid => ?_⟩
        · have hne : id ≠ l.id := fun heq => hid (heq ▸ hnone)
          show Function.update s.comms l.id none id ≠ none
          rw [Function.update_of_ne hne]
          exact h.inTable id hid
        · by_cases hne : id = l.id
          · exact ⟨by subst hne; exact Function.update_self .., hne ▸ hnone⟩
          · have hclosed : Function.update s.closed l.id true id = true := hid
            rw [Function.update_of_ne hne] at hclosed
            exact ⟨(Function.update_of_ne hne ..).trans (h.closed id hclosed).1,
              (h.closed id hclosed).2⟩

/-- **One action** keeps the account of the futures, and leaves none behind exactly when it is
tidy. -/
theorem processStep_noStale (hf : FutsStored s) (h : NoStale s) {a : ProcessAction}
    (ht : processStep faultTolerance s a = some t) :
    FutsStored t ∧ (NoStale t ↔ Tidy s a) := by
  have hquiet : FutsStored t ∧ Quiet s t → Tidy s a → FutsStored t ∧ (NoStale t ↔ Tidy s a) :=
    fun hq htidy => ⟨hq.1, iff_of_true (h.quiet hq.2) htidy⟩
  cases a with
  | create role =>
      simp only [processStep] at ht
      split at ht
      case isTrue => cases ht
      case isFalse =>
        obtain rfl := Option.some.inj ht
        exact hquiet ⟨hf.create role, create_quiet role⟩ trivial
  | launch k =>
      simp only [processStep] at ht
      split at ht
      case h_2 => cases ht
      case h_1 task hk =>
        split at ht
        case isFalse => cases ht
        case isTrue hplace =>
          obtain rfl := Option.some.inj ht
          exact hquiet ⟨hf.setTask hk { task with place := .launching } rfl
              (by simp [hplace.1]) s.comms, .of_eq rfl (fun _ h => h) rfl⟩ trivial
  | emplace k =>
      simp only [processStep] at ht
      split at ht
      case h_2 => cases ht
      case h_1 task hk =>
        split at ht
        case isFalse => cases ht
        case isTrue hplace =>
          obtain rfl := Option.some.inj ht
          refine ⟨hf.emplace hk hplace, (emplace_noStale h k task).trans ?_⟩
          simp [Tidy, hk]
  | advance k =>
      simp only [processStep] at ht
      split at ht
      case h_2 => cases ht
      case h_1 task hk =>
        split at ht
        case isTrue => cases ht
        case isFalse => exact hquiet (advanceTask_quiet hf hk ht) trivial
  | fail k =>
      simp only [processStep] at ht
      split at ht
      case h_2 => cases ht
      case h_1 task hk =>
        split at ht
        case isTrue => cases ht
        case isFalse => exact hquiet (fail_quiet hf hk ht) trivial
  | lookup id closing =>
      obtain rfl := Option.some.inj ht
      exact hquiet ⟨hf.congr rfl rfl, .of_eq rfl (fun _ h => h) rfl⟩ trivial
  | step j =>
      simp only [processStep] at ht
      split at ht
      case h_2 => cases ht
      case h_1 l hl => exact hquiet (lookupStep_quiet hf ht) trivial
  | wake j =>
      simp only [processStep] at ht
      split at ht
      case h_2 => cases ht
      case h_1 l hl =>
        split at ht
        case isFalse => cases ht
        case isTrue =>
          obtain rfl := Option.some.inj ht
          exact hquiet ⟨hf.congr rfl rfl, .of_eq rfl (fun _ h => h) rfl⟩ trivial
  | erase j =>
      simp only [processStep] at ht
      split at ht
      case h_2 => cases ht
      case h_1 l hl =>
        obtain ⟨hstored, hiff⟩ := erase_noStale h hf ht
        exact ⟨hstored, hiff.trans (by simp [Tidy, hl])⟩

/-! ### Runs -/

/-- **When no future is stale.**  With fault tolerance on or off, a run keeps
`m_fut_comms` within `m_comms`, and leaves nothing of a closed communicator, in every
state, if and only if all its steps are tidy. -/
theorem noStale_iff (faultTolerance : Bool) (as : List ProcessAction) (s : Process)
    (h : exec (processStep faultTolerance) processStart as = some s) :
    Always (processStep faultTolerance) NoStale processStart as ↔
      Meets (processStep faultTolerance) Tidy processStart as :=
  always_iff_meets (fun _ _ _ hf hs ht _ => (processStep_noStale hf hs ht).1)
    (fun _ _ _ hf hs ht => (processStep_noStale hf hs ht).2) futsStored_start
    ⟨nofun, nofun⟩ h

/-- A connection that is looked up while its handshake runs, and then closed. -/
def lookedUp : List ProcessAction :=
  [.create .client, .launch 0, .emplace 0, .lookup 0 false, .step 0] ++
    List.replicate 22 (.advance 0) ++ [.step 0, .step 0, .lookup 0 true, .erase 1]

/-- A connection that is ready before anybody looks it up, and then closed. -/
def closedUnused : List ProcessAction :=
  [.create .client, .launch 0, .emplace 0] ++
    List.replicate 22 (.advance 0) ++ [.lookup 0 true, .erase 0]

theorem noStale_lookedUp : Always (processStep true) NoStale processStart lookedUp :=
  (noStale_iff true lookedUp _
    (Option.some_get (x := exec (processStep true) processStart lookedUp)
      (by decide +kernel)).symm).2 (by decide +kernel)

/-- **The future of a connection that was ready at once stays** when it is closed. -/
theorem noStale_closedUnused :
    ¬ ∀ (faultTolerance : Bool) (as : List ProcessAction) (s : Process),
      exec (processStep faultTolerance) processStart as = some s → NoStale s := by
  intro hall
  have hstale := hall true closedUnused
    ((exec (processStep true) processStart closedUnused).get (by decide +kernel))
    (Option.some_get _).symm
  exact absurd (hstale.closed 0 (by decide +kernel)).2 (by decide +kernel)

end Connection
end Lfi
