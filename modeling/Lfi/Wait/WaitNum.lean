/-
# Waiting for some of several requests

`LFI::wait_num` of `src/src/impl/wait.cpp` without a time limit, for two requests or more,
with the requests completing at any moment: one thread goes through the set-up loop, the
wait loop and the clean-up loop, and whoever drives an endpoint takes the requests through
`complete`.  What the thread does under the mutex of a request is one step, and so is a
`complete`, which holds that mutex from the context to the count.

`wait_count` is a count of something: the requests that the set-up found completed or that
were completed while they referred to the `wait_struct`.  `counted` keeps them, and
`WaitInv` says that nothing is missing from it and nothing is in it twice.  Until the
clean-up these are the completed requests among those already set up.  What completes
behind the clean-up is not counted any more.

`Lfi.Wait.Timeout` has the loops with the clock, and `Lfi.Wait.Unlimited` the two together.
-/

import Lfi.Wait.TestNum

namespace Lfi
namespace Wait

open Impl Runs

/-- A call of `wait_num` that comes to its loops.  `frame` is the address of its
`wait_struct`. -/
structure WaitCall (ρ : Type*) where
  requests : List ρ
  howMany : ℕ
  frame : ℕ
  nodup : requests.Nodup
  two : 2 ≤ requests.length
  pos : 1 ≤ howMany
  le : howMany ≤ requests.length

/-- How far the thread is: in the set-up loop, at the head of the wait loop, in its body,
waiting on `wait_cv`, in the clean-up loop that starts at `first`, back in the caller. -/
inductive WaitPhase where
  | setUp (i : ℕ)
  | check
  | body
  | asleep
  | cleanUp (first i : ℕ)
  | returned (first : ℕ)
  deriving DecidableEq, Repr

/-- The requests and what `wait_num` works with: the `wait_count` of each `wait_struct`,
`linear_counter` and `out_index`.  `counted` is history: the requests taken off the
count. -/
structure Waiting (ρ : Type*) where
  request : ρ → LfiRequest
  waitCount : ℕ → ℤ
  linearCounter : ℕ
  phase : WaitPhase
  outIndex : ℤ
  counted : Finset ρ

/-- The steps of the thread, a `complete` of a request, and another call that takes a number
from `linear_counter`. -/
inductive WaitAction (ρ : Type*) where
  | setUp
  | check
  | progress
  | wait (leader : Bool)
  | wake (leader : Bool)
  | cleanUp
  | complete (r : ρ) (err : ℤ)
  | otherCall

section Steps

variable {ρ : Type*} [DecidableEq ρ] (c : WaitCall ρ) (s : Waiting ρ)

/-- The state with the request `r` replaced. -/
def Waiting.setRequest (r : ρ) (q : LfiRequest) : Waiting ρ :=
  { s with request := Function.update s.request r q }

/-- `wait_count--` for the request `r`. -/
def Waiting.count (w : ℕ) (r : ρ) : Waiting ρ :=
  { s with
    waitCount := Function.update s.waitCount w (s.waitCount w - 1)
    counted := if w = c.frame then insert r s.counted else s.counted }

/-- What the set-up loop does under the mutex of the request `r`. -/
def setUpRequest (r : ρ) : Waiting ρ :=
  let q := { s.request r with sharedWaitStruct := some c.frame }
  if q.isCompleted then (s.setRequest r q).count c c.frame r
  else if q.error = -lfiTimeout then s.setRequest r { q with error := lfiSuccess }
  else s.setRequest r q

/-- What the clean-up loop does under the mutex of the request at `index`. -/
def cleanUpRequest (r : ρ) (index : ℕ) : Waiting ρ :=
  let q := { s.request r with sharedWaitStruct := none }
  if q.isCompleted then
    { s.setRequest r q with outIndex := if s.outIndex = -1 then index else s.outIndex }
  else if q.error = lfiSuccess then s.setRequest r { q with error := -lfiTimeout }
  else s.setRequest r q

/-- `notify_all` on `wait_cv`: who sleeps looks at the predicate again. -/
def Waiting.notify : Waiting ρ :=
  if s.phase = .asleep ∧ s.waitCount c.frame ≤ 0 then { s with phase := .check } else s

/-- The body of `complete(err)` under the mutex of the request. -/
def completeRequest (r : ρ) (err : ℤ) : Waiting ρ :=
  let q := s.request r
  let s := s.setRequest r { q with error := err, waitContext := none }
  match q.sharedWaitStruct with
  | some w => if w = c.frame then (s.count c w r).notify c else s.count c w r
  | none => s

/-- The predicate of the wait: `wait_count <= 0` or one of the guards leads. -/
def awake (leader : Bool) : Prop := s.waitCount c.frame ≤ 0 ∨ leader = true

instance (leader : Bool) : Decidable (awake c s leader) := inferInstanceAs (Decidable (_ ∨ _))

/-- The index the clean-up loop looks at, an `int` sum. -/
def rotated (first i n : ℕ) : Option ℕ :=
  if first + i < 2 ^ 31 then some ((first + i) % n) else none

/-- One action. -/
def waitStep : WaitAction ρ → Option (Waiting ρ)
  | .setUp =>
      match s.phase with
      | .setUp i =>
          match c.requests[i]? with
          | some r => some { setUpRequest c s r with phase := .setUp (i + 1) }
          | none => some { s with phase := .check }
      | _ => none
  | .check =>
      if s.phase = .check then
        if s.waitCount c.frame > 0 then some { s with phase := .body }
        else some { s with
          linearCounter := (s.linearCounter + 1) % 2 ^ 32
          phase := .cleanUp (s.linearCounter % c.requests.length) 0 }
      else none
  | .progress => if s.phase = .body then some { s with phase := .check } else none
  | .wait leader =>
      if s.phase = .body then
        some { s with phase := if awake c s leader then .check else .asleep }
      else none
  | .wake leader =>
      if s.phase = .asleep then
        some { s with phase := if awake c s leader then .check else .asleep }
      else none
  | .cleanUp =>
      match s.phase with
      | .cleanUp first i =>
          if i < c.requests.length then
            (rotated first i c.requests.length).bind fun index =>
              c.requests[index]?.map fun r =>
                { cleanUpRequest s r index with phase := .cleanUp first (i + 1) }
          else some { s with phase := .returned first }
      | _ => none
  | .complete r err =>
      if (s.request r).isCompleted then none else some (completeRequest c s r err)
  | .otherCall => some { s with linearCounter := (s.linearCounter + 1) % 2 ^ 32 }

/-- The call has just made its `wait_struct`, and no request refers to it. -/
structure Entered : Prop where
  phase : s.phase = .setUp 0
  waitCount : s.waitCount c.frame = c.howMany
  outIndex : s.outIndex = -1
  counted : s.counted = ∅
  unused : ∀ r, (s.request r).sharedWaitStruct ≠ some c.frame

/-! ### What a step does to one request -/

variable {c s} {t : Waiting ρ} {r : ρ}

theorem setUpRequest_spec (c : WaitCall ρ) (s : Waiting ρ) (r : ρ) :
    ∃ q, q.sharedWaitStruct = some c.frame ∧ q.isCompleted = (s.request r).isCompleted ∧
      (setUpRequest c s r).request = Function.update s.request r q ∧
      if (s.request r).isCompleted = true then
        (setUpRequest c s r).waitCount c.frame = s.waitCount c.frame - 1 ∧
          (setUpRequest c s r).counted = insert r s.counted
      else
        (setUpRequest c s r).waitCount c.frame = s.waitCount c.frame ∧
          (setUpRequest c s r).counted = s.counted := by
  unfold setUpRequest
  dsimp only
  split
  case isTrue hq =>
    change (s.request r).isCompleted = true at hq
    refine ⟨{ s.request r with sharedWaitStruct := some c.frame }, rfl, rfl, rfl, ?_⟩
    rw [if_pos hq]
    exact ⟨Function.update_self .., if_pos rfl⟩
  case isFalse hq =>
    change ¬ (s.request r).isCompleted = true at hq
    rw [if_neg hq]
    split
    case isTrue =>
      exact ⟨{ s.request r with sharedWaitStruct := some c.frame, error := lfiSuccess }, rfl, rfl,
        rfl, rfl, rfl⟩
    case isFalse =>
      exact ⟨{ s.request r with sharedWaitStruct := some c.frame }, rfl, rfl, rfl, rfl, rfl⟩

theorem cleanUpRequest_spec (s : Waiting ρ) (r : ρ) (index : ℕ) :
    ∃ q, q.sharedWaitStruct = none ∧ q.isCompleted = (s.request r).isCompleted ∧
      (cleanUpRequest s r index).request = Function.update s.request r q ∧
      (cleanUpRequest s r index).waitCount = s.waitCount ∧
      (cleanUpRequest s r index).counted = s.counted ∧
      (cleanUpRequest s r index).outIndex =
        if (s.request r).isCompleted = true ∧ s.outIndex = -1 then (index : ℤ)
        else s.outIndex := by
  unfold cleanUpRequest
  dsimp only
  split
  case isTrue hq =>
    change (s.request r).isCompleted = true at hq
    refine ⟨{ s.request r with sharedWaitStruct := none }, rfl, rfl, rfl, rfl, rfl, ?_⟩
    simp [hq]
  case isFalse hq =>
    change ¬ (s.request r).isCompleted = true at hq
    have hout : ¬ ((s.request r).isCompleted = true ∧ s.outIndex = -1) := fun h => hq h.1
    simp only [if_neg hout]
    split
    case isTrue =>
      exact ⟨{ s.request r with sharedWaitStruct := none, error := -lfiTimeout }, rfl, rfl, rfl,
        rfl, rfl, rfl⟩
    case isFalse =>
      exact ⟨{ s.request r with sharedWaitStruct := none }, rfl, rfl, rfl, rfl, rfl, rfl⟩

/-- `complete` takes an attached request off the count, and wakes who sleeps when it was the
last one missing. -/
theorem completeRequest_attached (h : (s.request r).sharedWaitStruct = some c.frame) (err : ℤ) :
    (completeRequest c s r err).waitCount c.frame = s.waitCount c.frame - 1 ∧
      (completeRequest c s r err).counted = insert r s.counted ∧
      (completeRequest c s r err).phase =
        if s.phase = .asleep ∧ s.waitCount c.frame - 1 ≤ 0 then .check else s.phase := by
  unfold completeRequest
  simp only [h, if_true, Waiting.notify, Waiting.count, Waiting.setRequest, Function.update_self]
  split <;> simp

/-- One that is not attached is of no concern to the call. -/
theorem completeRequest_other (h : (s.request r).sharedWaitStruct ≠ some c.frame) (err : ℤ) :
    (completeRequest c s r err).waitCount c.frame = s.waitCount c.frame ∧
      (completeRequest c s r err).counted = s.counted ∧
      (completeRequest c s r err).phase = s.phase := by
  unfold completeRequest
  dsimp only
  cases hw : (s.request r).sharedWaitStruct with
  | none => exact ⟨rfl, rfl, rfl⟩
  | some w =>
      have hne : w ≠ c.frame := fun heq => h (heq ▸ hw)
      simp [hne, hne.symm, Waiting.count, Waiting.setRequest]

theorem completeRequest_request (c : WaitCall ρ) (s : Waiting ρ) (r : ρ) (err : ℤ) :
    (completeRequest c s r err).request =
      Function.update s.request r { s.request r with error := err, waitContext := none } ∧
    (completeRequest c s r err).outIndex = s.outIndex := by
  unfold completeRequest
  dsimp only
  split
  case h_1 =>
    split
    case isTrue =>
      unfold Waiting.notify
      split <;> exact ⟨rfl, rfl⟩
    case isFalse => exact ⟨rfl, rfl⟩
  case h_2 => exact ⟨rfl, rfl⟩

omit [DecidableEq ρ] in
theorem rotated_eq {first i n index : ℕ} (h : rotated first i n = some index) :
    index = (first + i) % n := by
  unfold rotated at h
  split at h
  case isTrue => exact (Option.some.inj h).symm
  case isFalse => cases h

/-- Where the thread can go without touching a request. -/
inductive Moves (c : WaitCall ρ) (s : Waiting ρ) : WaitPhase → Prop where
  | setUpDone {i : ℕ} (hp : s.phase = .setUp i) (hi : c.requests.length ≤ i) : Moves c s .check
  | turn (hp : s.phase = .check) (hcount : 0 < s.waitCount c.frame) : Moves c s .body
  | leave (hp : s.phase = .check) (hcount : s.waitCount c.frame ≤ 0) :
      Moves c s (.cleanUp (s.linearCounter % c.requests.length) 0)
  | again (hp : s.phase = .body ∨ s.phase = .asleep) : Moves c s .check
  | sleep (hp : s.phase = .body ∨ s.phase = .asleep) (hcount : 0 < s.waitCount c.frame) :
      Moves c s .asleep
  | back {first i : ℕ} (hp : s.phase = .cleanUp first i) (hi : c.requests.length ≤ i) :
      Moves c s (.returned first)
  | stay : Moves c s s.phase

omit [DecidableEq ρ] in
/-- A turn of the wait on `wait_cv`. -/
theorem moves_awake (hp : s.phase = .body ∨ s.phase = .asleep) (leader : Bool) :
    Moves c s (if awake c s leader then .check else .asleep) := by
  split
  case isTrue => exact .again hp
  case isFalse hawake =>
    have : ¬ s.waitCount c.frame ≤ 0 := fun hle => hawake (.inl hle)
    exact .sleep hp (by omega)

/-- **What an action can do.**  It takes one request through its set-up, its clean-up or its
completion, or moves the thread on. -/
theorem waitStep_cases {a : WaitAction ρ} (ht : waitStep c s a = some t) :
    (∃ i r, s.phase = .setUp i ∧ c.requests[i]? = some r ∧
      t = { setUpRequest c s r with phase := .setUp (i + 1) }) ∨
    (∃ first i r, s.phase = .cleanUp first i ∧ i < c.requests.length ∧
      c.requests[(first + i) % c.requests.length]? = some r ∧
      t = { cleanUpRequest s r ((first + i) % c.requests.length) with
        phase := .cleanUp first (i + 1) }) ∨
    (∃ r err, ¬ (s.request r).isCompleted = true ∧ t = completeRequest c s r err) ∨
    ∃ phase n, Moves c s phase ∧ t = { s with phase := phase, linearCounter := n } := by
  cases a with
  | setUp =>
      simp only [waitStep] at ht
      split at ht
      case h_2 => cases ht
      case h_1 i hp =>
        cases hi : c.requests[i]? with
        | some r =>
            rw [hi] at ht
            exact .inl ⟨i, r, hp, hi, (Option.some.inj ht).symm⟩
        | none =>
            rw [hi] at ht
            exact .inr (.inr (.inr ⟨_, s.linearCounter,
              .setUpDone hp (List.getElem?_eq_none_iff.1 hi), (Option.some.inj ht).symm⟩))
  | check =>
      simp only [waitStep] at ht
      split at ht
      case isFalse => cases ht
      case isTrue hp =>
        split at ht <;> obtain rfl := Option.some.inj ht
        case isTrue hcount => exact .inr (.inr (.inr ⟨_, s.linearCounter, .turn hp hcount, rfl⟩))
        case isFalse hcount => exact .inr (.inr (.inr ⟨_, _, .leave hp (by omega), rfl⟩))
  | progress =>
      simp only [waitStep] at ht
      split at ht
      case isFalse => cases ht
      case isTrue hp =>
        exact .inr (.inr (.inr ⟨_, s.linearCounter, .again (.inl hp), (Option.some.inj ht).symm⟩))
  | wait leader =>
      simp only [waitStep] at ht
      split at ht
      case isFalse => cases ht
      case isTrue hp =>
        exact .inr (.inr (.inr ⟨_, s.linearCounter, moves_awake (.inl hp) leader,
          (Option.some.inj ht).symm⟩))
  | wake leader =>
      simp only [waitStep] at ht
      split at ht
      case isFalse => cases ht
      case isTrue hp =>
        exact .inr (.inr (.inr ⟨_, s.linearCounter, moves_awake (.inr hp) leader,
          (Option.some.inj ht).symm⟩))
  | cleanUp =>
      simp only [waitStep] at ht
      split at ht
      case h_2 => cases ht
      case h_1 first i hp =>
        split at ht
        case isTrue hlt =>
          obtain ⟨index, hindex, ht⟩ := Option.bind_eq_some_iff.1 ht
          obtain ⟨r, hr, rfl⟩ := Option.map_eq_some_iff.1 ht
          obtain rfl := rotated_eq hindex
          exact .inr (.inl ⟨first, i, r, hp, hlt, hr, rfl⟩)
        case isFalse hlt =>
          exact .inr (.inr (.inr ⟨_, s.linearCounter, .back hp (by omega),
            (Option.some.inj ht).symm⟩))
  | complete r err =>
      simp only [waitStep] at ht
      split at ht
      case isTrue => cases ht
      case isFalse hr => exact .inr (.inr (.inl ⟨r, err, hr, (Option.some.inj ht).symm⟩))
  | otherCall => exact .inr (.inr (.inr ⟨_, _, .stay, (Option.some.inj ht).symm⟩))

/-! ### The invariant -/

/-- The requests the set-up loop has come to. -/
def registered (c : WaitCall ρ) : WaitPhase → List ρ
  | .setUp i => c.requests.take i
  | _ => c.requests

/-- The requests that refer to the `wait_struct` of the call. -/
def Attached (c : WaitCall ρ) : WaitPhase → ρ → Prop
  | .cleanUp first i, r =>
      r ∈ c.requests ∧ ∀ j < i, c.requests[(first + j) % c.requests.length]? ≠ some r
  | .returned _, _ => False
  | phase, r => r ∈ registered c phase

/-- What holds of the count besides. -/
def CountInv (c : WaitCall ρ) (count : ℤ) : WaitPhase → Prop
  | .asleep => 0 < count
  | .cleanUp first i => count ≤ 0 ∧ first < c.requests.length ∧ i ≤ c.requests.length
  | .returned _ => count ≤ 0
  | _ => True

/-- **Every completion is counted once.**  The count is `how_many` less the requests
counted.  Those are completed, and of the requests that refer to the `wait_struct` they are
all that are. -/
structure WaitInv (c : WaitCall ρ) (s : Waiting ρ) : Prop where
  counter : s.waitCount c.frame = (c.howMany : ℤ) - s.counted.card
  attached : ∀ r, (s.request r).sharedWaitStruct = some c.frame ↔ Attached c s.phase r
  counts : ∀ r, Attached c s.phase r → (s.request r).isCompleted = true → r ∈ s.counted
  counted : ∀ r ∈ s.counted, r ∈ registered c s.phase ∧ (s.request r).isCompleted = true
  count : CountInv c (s.waitCount c.frame) s.phase

omit [DecidableEq ρ] in
/-- The requests that refer to the `wait_struct` are among those set up. -/
theorem Attached.registered {phase : WaitPhase} (h : Attached c phase r) :
    r ∈ registered c phase := by
  cases phase with
  | returned first => exact h.elim
  | cleanUp first i => exact h.1
  | setUp i => exact h
  | check => exact h
  | body => exact h
  | asleep => exact h

omit [DecidableEq ρ] in
theorem Entered.inv (h : Entered c s) : WaitInv c s where
  counter := by rw [h.waitCount, h.counted]; simp
  attached r := by
    rw [h.phase]
    exact iff_of_false (h.unused r) (by simp [Attached, registered])
  counts r hr := by
    rw [h.phase] at hr
    simp [Attached, registered] at hr
  counted r hr := by
    rw [h.counted] at hr
    simp at hr
  count := by rw [h.phase]; exact trivial

/-- **One request is touched.**  The invariant stays when the request is attached as the new
phase has it, and is either left as counted as it was, or counted for the first time. -/
theorem WaitInv.touch {q : LfiRequest} (h : WaitInv c s)
    (hreq : t.request = Function.update s.request r q)
    (hdone : (s.request r).isCompleted = true → q.isCompleted = true)
    (hself : q.sharedWaitStruct = some c.frame ↔ Attached c t.phase r)
    (hother : ∀ r', r' ≠ r → (Attached c t.phase r' ↔ Attached c s.phase r'))
    (hreg : ∀ r' ∈ registered c s.phase, r' ∈ registered c t.phase)
    (hcount : CountInv c (t.waitCount c.frame) t.phase)
    (hbooks : (t.waitCount c.frame = s.waitCount c.frame ∧ t.counted = s.counted ∧
        (Attached c t.phase r → q.isCompleted = true → r ∈ s.counted)) ∨
      (t.waitCount c.frame = s.waitCount c.frame - 1 ∧ t.counted = insert r s.counted ∧
        r ∉ s.counted ∧ r ∈ registered c t.phase ∧ q.isCompleted = true)) :
    WaitInv c t := by
  refine ⟨?_, fun r' => ?_, fun r' hatt hdone' => ?_, fun r' hr' => ?_, hcount⟩
  · rcases hbooks with ⟨hc, hs, -⟩ | ⟨hc, hs, hnew, -, -⟩
    · rw [hc, hs, h.counter]
    · rw [hc, hs, Finset.card_insert_of_notMem hnew, h.counter]
      omega
  · by_cases hr : r' = r
    · subst hr
      rw [hreq, Function.update_self]
      exact hself
    · rw [hreq, Function.update_of_ne hr, h.attached r', hother r' hr]
  · by_cases hr : r' = r
    · subst hr
      rw [hreq, Function.update_self] at hdone'
      rcases hbooks with ⟨-, hs, hold⟩ | ⟨-, hs, -⟩ <;> rw [hs]
      · exact hold hatt hdone'
      · exact Finset.mem_insert_self ..
    · rw [hreq, Function.update_of_ne hr] at hdone'
      have hold := h.counts r' ((hother r' hr).1 hatt) hdone'
      rcases hbooks with ⟨-, hs, -⟩ | ⟨-, hs, -⟩ <;> rw [hs]
      · exact hold
      · exact Finset.mem_insert_of_mem hold
  · by_cases hr : r' = r
    · subst hr
      rw [hreq, Function.update_self]
      rcases hbooks with ⟨-, hs, -⟩ | ⟨-, -, -, hmem, hq⟩
      · obtain ⟨hold, holddone⟩ := h.counted r' (hs ▸ hr')
        exact ⟨hreg r' hold, hdone holddone⟩
      · exact ⟨hmem, hq⟩
    · rw [hreq, Function.update_of_ne hr]
      have hmem : r' ∈ s.counted := by
        rcases hbooks with ⟨-, hs, -⟩ | ⟨-, hs, -⟩ <;> rw [hs] at hr'
        · exact hr'
        · exact (Finset.mem_insert.1 hr').resolve_left hr
      obtain ⟨hold, holddone⟩ := h.counted r' hmem
      exact ⟨hreg r' hold, holddone⟩

omit [DecidableEq ρ] in
/-- The next request of the set-up loop was not set up before. -/
theorem notMem_take {l : List ρ} (hl : l.Nodup) {i : ℕ} (hi : l[i]? = some r) :
    r ∉ l.take i := by
  intro hmem
  obtain ⟨j, hj, hjr⟩ := List.mem_take_iff_getElem.1 hmem
  obtain ⟨hlt, hir⟩ := List.getElem?_eq_some_iff.1 hi
  have : j = i := (hl.getElem_inj_iff).1 (hjr.trans hir.symm)
  omega

/-- The set-up of a request. -/
theorem WaitInv.setUp {i : ℕ} (h : WaitInv c s) (hp : s.phase = .setUp i)
    (hi : c.requests[i]? = some r) :
    WaitInv c { setUpRequest c s r with phase := .setUp (i + 1) } := by
  have hnew := notMem_take c.nodup hi
  have htake : ∀ r', r' ∈ c.requests.take (i + 1) ↔ r' ∈ c.requests.take i ∨ r' = r := by
    intro r'
    rw [List.take_add_one, hi]
    simp
  have hcounted : r ∉ s.counted := by
    intro hr
    have := (h.counted r hr).1
    rw [hp] at this
    exact hnew this
  obtain ⟨q, hshared, hdone, hreq, hcount⟩ := setUpRequest_spec c s r
  refine h.touch (r := r) (q := q) hreq (fun hq => hdone.trans hq)
    (iff_of_true hshared ((htake r).2 (.inr rfl))) (fun r' hr => ?_) (fun r' hr' => ?_) trivial ?_
  · rw [hp]
    simp only [Attached, registered, htake]
    simp [hr]
  · rw [hp] at hr'
    exact (htake r').2 (.inl hr')
  · split at hcount
    case isTrue hq =>
      exact .inr ⟨hcount.1, hcount.2, hcounted, (htake r).2 (.inr rfl), hdone.trans hq⟩
    case isFalse hq =>
      exact .inl ⟨hcount.1, hcount.2, fun _ hq' => absurd (hdone.symm.trans hq') hq⟩

omit [DecidableEq ρ] in
/-- A phase that keeps the references. -/
theorem WaitInv.setPhase (h : WaitInv c s) {phase : WaitPhase} {n : ℕ}
    (hatt : ∀ r, Attached c phase r ↔ Attached c s.phase r)
    (hreg : ∀ r, r ∈ registered c phase ↔ r ∈ registered c s.phase)
    (hcount : CountInv c (s.waitCount c.frame) phase) :
    WaitInv c { s with phase := phase, linearCounter := n } where
  counter := h.counter
  attached r := (h.attached r).trans (hatt r).symm
  counts r hr := h.counts r ((hatt r).1 hr)
  counted r hr := ⟨(hreg r).2 (h.counted r hr).1, (h.counted r hr).2⟩
  count := hcount

/-- A request is completed. -/
theorem WaitInv.complete (h : WaitInv c s) (hr : ¬ (s.request r).isCompleted = true) (err : ℤ) :
    WaitInv c (completeRequest c s r err) := by
  obtain ⟨hreq, -⟩ := completeRequest_request c s r err
  have hcounted : r ∉ s.counted := fun hmem => hr (h.counted r hmem).2
  by_cases hshared : (s.request r).sharedWaitStruct = some c.frame
  · have hatt := (h.attached r).1 hshared
    obtain ⟨hcount, hc, hphase⟩ := completeRequest_attached hshared err
    -- the phase is the same, but for a thread that wakes up
    have hsame : (∀ r', Attached c (completeRequest c s r err).phase r' ↔ Attached c s.phase r') ∧
        (∀ r', r' ∈ registered c (completeRequest c s r err).phase ↔
          r' ∈ registered c s.phase) ∧
        CountInv c (s.waitCount c.frame - 1) (completeRequest c s r err).phase := by
      rw [hphase]
      split
      case isTrue hw =>
        rw [hw.1]
        exact ⟨fun _ => Iff.rfl, fun _ => Iff.rfl, trivial⟩
      case isFalse hw =>
        refine ⟨fun _ => Iff.rfl, fun _ => Iff.rfl, ?_⟩
        have hold := h.count
        cases hp : s.phase with
        | asleep =>
            have : ¬ s.waitCount c.frame - 1 ≤ 0 := fun hle => hw ⟨hp, hle⟩
            show 0 < s.waitCount c.frame - 1
            omega
        | cleanUp first i =>
            rw [hp] at hold
            exact ⟨by have := hold.1; omega, hold.2⟩
        | returned first =>
            rw [hp] at hold
            have : s.waitCount c.frame ≤ 0 := hold
            show s.waitCount c.frame - 1 ≤ 0
            omega
        | setUp i => exact trivial
        | check => exact trivial
        | body => exact trivial
    refine h.touch hreq (fun _ => rfl) (iff_of_true hshared ((hsame.1 r).2 hatt))
      (fun r' _ => hsame.1 r') (fun r' hr' => (hsame.2.1 r').2 hr')
      (by rw [hcount]; exact hsame.2.2)
      (.inr ⟨hcount, hc, hcounted, (hsame.2.1 r).2 hatt.registered, rfl⟩)
  · have hatt : ¬ Attached c s.phase r := fun hatt => hshared ((h.attached r).2 hatt)
    obtain ⟨hcount, hc, hphase⟩ := completeRequest_other hshared err
    refine h.touch hreq (fun _ => rfl) (iff_of_false hshared (by rwa [hphase]))
      (fun _ _ => by rw [hphase]) (fun _ hr' => by rwa [hphase])
      (by rw [hcount, hphase]; exact h.count) (.inl ⟨hcount, hc, fun hatt' => ?_⟩)
    rw [hphase] at hatt'
    exact absurd hatt' hatt

/-- The clean-up of a request. -/
theorem WaitInv.cleanUp {first i : ℕ} (h : WaitInv c s) (hp : s.phase = .cleanUp first i)
    (hlt : i < c.requests.length)
    (hr : c.requests[(first + i) % c.requests.length]? = some r) (index : ℕ) :
    WaitInv c { cleanUpRequest s r index with phase := .cleanUp first (i + 1) } := by
  obtain ⟨q, hshared, hdone, hreq, hcount, hc, -⟩ := cleanUpRequest_spec s r index
  have hold := h.count
  rw [hp] at hold
  have hgone : ¬ Attached c (.cleanUp first (i + 1)) r := fun hatt =>
    hatt.2 i (Nat.lt_succ_self i) hr
  refine h.touch (r := r) (q := q) hreq (fun hq => hdone.trans hq)
    (iff_of_false (by rw [hshared]; exact nofun) hgone) (fun r' hr' => ?_) (fun r' hr' => ?_) ?_
    (.inl ⟨congrFun hcount _, hc, fun hatt _ => absurd hatt hgone⟩)
  · rw [hp]
    simp only [Attached]
    refine and_congr_right fun _ => ⟨fun hall j hj => hall j (by omega), fun hall j hj => ?_⟩
    rcases Nat.lt_succ_iff_lt_or_eq.1 hj with hj | rfl
    · exact hall j hj
    · rw [hr]
      exact fun heq => hr' (Option.some.inj heq).symm
  · rw [hp] at hr'
    exact hr'
  · rw [show ({ cleanUpRequest s r index with phase := .cleanUp first (i + 1) } :
      Waiting ρ).waitCount = s.waitCount from hcount]
    exact ⟨hold.1, hold.2.1, hlt⟩

/-- The clean-up loop comes to every request. -/
theorem exists_rotated {first k n : ℕ} (hfirst : first < n) (hk : k < n) :
    ∃ j < n, (first + j) % n = k := by
  by_cases hle : first ≤ k
  · exact ⟨k - first, by omega, by rw [Nat.add_sub_cancel' hle, Nat.mod_eq_of_lt hk]⟩
  · refine ⟨k + n - first, by omega, ?_⟩
    rw [show first + (k + n - first) = k + n by omega, Nat.add_mod_right, Nat.mod_eq_of_lt hk]

omit [DecidableEq ρ] in
/-- The thread moves on. -/
theorem WaitInv.moves (h : WaitInv c s) {phase : WaitPhase} (hm : Moves c s phase) (n : ℕ) :
    WaitInv c { s with phase := phase, linearCounter := n } := by
  have hold := h.count
  cases hm with
  | stay => exact h.setPhase (fun _ => Iff.rfl) (fun _ => Iff.rfl) hold
  | setUpDone hp hi =>
      refine h.setPhase (fun r => ?_) (fun r => ?_) trivial <;> rw [hp]
      · simp only [Attached, registered, List.take_of_length_le hi]
      · simp only [registered, List.take_of_length_le hi]
  | turn hp =>
      exact h.setPhase (by rw [hp]; exact fun _ => Iff.rfl) (by rw [hp]; exact fun _ => Iff.rfl)
        trivial
  | leave hp hcount =>
      refine h.setPhase (fun r => ?_) (by rw [hp]; exact fun _ => Iff.rfl)
        ⟨hcount, Nat.mod_lt _ (by have := c.two; omega), Nat.zero_le _⟩
      rw [hp]
      exact and_iff_left fun j hj => absurd hj (Nat.not_lt_zero j)
  | again hp =>
      rcases hp with hp | hp <;>
        exact h.setPhase (by rw [hp]; exact fun _ => Iff.rfl) (by rw [hp]; exact fun _ => Iff.rfl)
          trivial
  | sleep hp hcount =>
      rcases hp with hp | hp <;>
        exact h.setPhase (by rw [hp]; exact fun _ => Iff.rfl) (by rw [hp]; exact fun _ => Iff.rfl)
          hcount
  | @back first i hp hi =>
      rw [hp] at hold
      refine h.setPhase (fun r => ?_) (by rw [hp]; exact fun _ => Iff.rfl) hold.1
      rw [hp]
      refine iff_of_false id fun hatt => ?_
      obtain ⟨k, hk, hkr⟩ := List.mem_iff_getElem.1 hatt.1
      obtain ⟨j, hj, hjk⟩ := exists_rotated hold.2.1 hk
      refine hatt.2 j (by omega) ?_
      rw [hjk, ← hkr]
      exact List.getElem?_eq_getElem hk

/-- **One action.** -/
theorem WaitInv.step (h : WaitInv c s) {a : WaitAction ρ} (ht : waitStep c s a = some t) :
    WaitInv c t := by
  rcases waitStep_cases ht with ⟨i, r, hp, hi, rfl⟩ | ⟨first, i, r, hp, hlt, hr, rfl⟩ |
    ⟨r, err, hr, rfl⟩ | ⟨phase, n, hm, rfl⟩
  · exact h.setUp hp hi
  · exact h.cleanUp hp hlt hr _
  · exact h.complete hr err
  · exact h.moves hm n

theorem WaitInv.reachable (h : Reachable (waitStep c) (Entered c) s) : WaitInv c s :=
  h.invariant (fun _ hs => hs.inv) fun _ _ _ hs ht => hs.step ht

/-! ### What the count counts -/

/-- The completed requests among those set up. -/
def Waiting.completed (c : WaitCall ρ) (s : Waiting ρ) : List ρ :=
  (registered c s.phase).filter fun r => (s.request r).isCompleted

/-- The clean-up loop has started. -/
def WaitPhase.Left : WaitPhase → Prop
  | .cleanUp _ _ => True
  | .returned _ => True
  | _ => False

omit [DecidableEq ρ] in
theorem completed_nodup (c : WaitCall ρ) (s : Waiting ρ) : (s.completed c).Nodup := by
  refine List.Nodup.filter _ ?_
  cases s.phase with
  | setUp i => exact c.nodup.sublist (List.take_sublist ..)
  | _ => exact c.nodup

omit [DecidableEq ρ] in
/-- Before the clean-up, what is set up refers to the `wait_struct`. -/
theorem attached_iff {phase : WaitPhase} (hleft : ¬ phase.Left) :
    Attached c phase r ↔ r ∈ registered c phase := by
  cases phase with
  | cleanUp first i => exact absurd trivial hleft
  | returned first => exact absurd trivial hleft
  | setUp i => exact Iff.rfl
  | check => exact Iff.rfl
  | body => exact Iff.rfl
  | asleep => exact Iff.rfl

/-- What is counted is completed. -/
theorem WaitInv.counted_subset (h : WaitInv c s) : s.counted ⊆ (s.completed c).toFinset := by
  intro r hr
  simpa [Waiting.completed] using h.counted r hr

/-- Before the clean-up, what is completed is counted. -/
theorem WaitInv.counted_eq (h : WaitInv c s) (hleft : ¬ s.phase.Left) :
    s.counted = (s.completed c).toFinset := by
  refine Finset.Subset.antisymm h.counted_subset fun r hr => ?_
  simp only [Waiting.completed, List.mem_toFinset, List.mem_filter] at hr
  exact h.counts r ((attached_iff hleft).2 hr.1) hr.2

theorem WaitInv.waitCount_eq (h : WaitInv c s) (hleft : ¬ s.phase.Left) :
    s.waitCount c.frame = (c.howMany : ℤ) - (s.completed c).length := by
  rw [h.counter, h.counted_eq hleft, List.toFinset_card_of_nodup (completed_nodup c s)]

/-- The thread returns with the threshold reached. -/
theorem WaitInv.returned (h : WaitInv c s) {first : ℕ} (hp : s.phase = .returned first) :
    c.howMany ≤ (s.completed c).length := by
  have hcard := Finset.card_le_card h.counted_subset
  rw [List.toFinset_card_of_nodup (completed_nodup c s)] at hcard
  have hcounter := h.counter
  have hcount : s.waitCount c.frame ≤ 0 := by
    have := h.count
    rwa [hp] at this
  omega

theorem completeRequest_phase (c : WaitCall ρ) (s : Waiting ρ) (r : ρ) (err : ℤ) :
    (completeRequest c s r err).phase = s.phase ∨
      (s.phase = .asleep ∧ (completeRequest c s r err).phase = .check) := by
  by_cases hshared : (s.request r).sharedWaitStruct = some c.frame
  · rw [(completeRequest_attached hshared err).2.2]
    split
    case isTrue hw => exact .inr ⟨hw.1, rfl⟩
    case isFalse => exact .inl rfl
  · exact .inl (completeRequest_other hshared err).2.2

/-- With the threshold reached the thread does not sleep, and no step takes it there or into
another turn of the loop. -/
theorem WaitInv.leaves (h : WaitInv c s) (hreached : c.howMany ≤ (s.completed c).length) :
    s.phase ≠ .asleep ∧ ∀ a t, waitStep c s a = some t →
      t.phase ≠ .asleep ∧ (t.phase = .body → s.phase = .body) := by
  have hcount : ¬ s.phase.Left → s.waitCount c.frame ≤ 0 := fun hleft => by
    have := h.waitCount_eq hleft
    omega
  have hasleep : s.phase ≠ .asleep := by
    intro hp
    have hpos := h.count
    rw [hp] at hpos
    have hle := hcount (by rw [hp]; exact id)
    exact absurd (show 0 < s.waitCount c.frame from hpos) (by omega)
  refine ⟨hasleep, fun a t ht => ?_⟩
  rcases waitStep_cases ht with ⟨i, r, -, -, rfl⟩ | ⟨first, i, r, -, -, -, rfl⟩ |
    ⟨r, err, -, rfl⟩ | ⟨phase, n, hm, rfl⟩
  · exact ⟨nofun, nofun⟩
  · exact ⟨nofun, nofun⟩
  · rcases completeRequest_phase c s r err with hp | ⟨hp, -⟩
    · rw [hp]
      exact ⟨hasleep, id⟩
    · exact absurd hp hasleep
  · cases hm with
    | turn hp hpos =>
        have := hcount (by rw [hp]; exact id)
        omega
    | sleep hp hpos =>
        have := hcount (by rcases hp with hp | hp <;> rw [hp] <;> exact id)
        omega
    | stay => exact ⟨hasleep, id⟩
    | setUpDone => exact ⟨nofun, nofun⟩
    | leave => exact ⟨nofun, nofun⟩
    | again => exact ⟨nofun, nofun⟩
    | back => exact ⟨nofun, nofun⟩

/-- **`wait_num` counts each completion once.**  In every interleaving, the call returns only
with `how_many` requests completed.  The count is `how_many` less the requests counted:
completed ones, and of those that refer to the `wait_struct` all that are.  Before the clean-up
loop these are the completed requests among those set up, and with the threshold reached the
wait loop is left.  When the call has returned no request refers to its `wait_struct`. -/
theorem waitNum_counts (c : WaitCall ρ) (s : Waiting ρ)
    (h : Reachable (waitStep c) (Entered c) s) :
    ((∃ first, s.phase = .returned first) → c.howMany ≤ (s.completed c).length) ∧
      (s.waitCount c.frame = (c.howMany : ℤ) - s.counted.card ∧
        s.counted ⊆ (s.completed c).toFinset ∧
        ∀ r, (s.request r).sharedWaitStruct = some c.frame → (s.request r).isCompleted = true →
          r ∈ s.counted) ∧
      (¬ s.phase.Left → s.waitCount c.frame = (c.howMany : ℤ) - (s.completed c).length) ∧
      (c.howMany ≤ (s.completed c).length → s.phase ≠ .asleep ∧ ∀ a t, waitStep c s a = some t →
        t.phase ≠ .asleep ∧ (t.phase = .body → s.phase = .body)) ∧
      ((∃ first, s.phase = .returned first) →
        ∀ r, (s.request r).sharedWaitStruct ≠ some c.frame) := by
  have hinv := WaitInv.reachable h
  refine ⟨fun ⟨_, hp⟩ => hinv.returned hp,
    ⟨hinv.counter, hinv.counted_subset, fun r hr => ?_⟩, hinv.waitCount_eq, hinv.leaves,
    fun ⟨_, hp⟩ r hr => ?_⟩
  · exact hinv.counts r ((hinv.attached r).1 hr)
  · have hatt := (hinv.attached r).1 hr
    rw [hp] at hatt
    exact hatt

end Steps

/-! ### The requests of an endpoint -/

/-- What the call sees of the requests and counts of an endpoint. -/
structure Sees (k : Core) (s : Waiting ReqId) : Prop where
  request : ∀ r q, k.requests r = some q → s.request r = q
  waitCount : k.waitCount = s.waitCount

/-- `completeRequest` is what the body of `complete` does to them. -/
theorem Sees.completeBody {c : WaitCall ReqId} {k : Core} {s : Waiting ReqId} {r : ReqId}
    {q : LfiRequest} (h : Sees k s) (hq : k.requests r = some q) (err : ℤ) :
    Sees (completeBody k r err) (completeRequest c s r err) := by
  have hsq := h.request r q hq
  have hrequests : (Impl.completeBody k r err).requests =
      Function.update k.requests r (some { q with error := err, waitContext := none }) := by
    unfold Impl.completeBody unassign
    simp only [hq]
    cases q.waitContext <;> cases q.sharedWaitStruct <;> cases q.callback <;> rfl
  have hcounts : (Impl.completeBody k r err).waitCount = match q.sharedWaitStruct with
      | some w => Function.update k.waitCount w (k.waitCount w - 1)
      | none => k.waitCount := by
    unfold Impl.completeBody unassign
    simp only [hq]
    cases q.waitContext <;> cases q.sharedWaitStruct <;> cases q.callback <;> rfl
  refine ⟨fun r' q' hq' => ?_, ?_⟩
  · rw [(completeRequest_request c s r err).1]
    rw [hrequests] at hq'
    by_cases hr : r' = r
    · subst hr
      rw [Function.update_self] at hq' ⊢
      rw [hsq]
      exact Option.some.inj hq'
    · rw [Function.update_of_ne hr] at hq' ⊢
      exact h.request r' q' hq'
  · rw [hcounts, h.waitCount]
    unfold completeRequest
    simp only [hsq]
    cases q.sharedWaitStruct with
    | none => rfl
    | some w =>
        simp only
        split
        case isTrue =>
          unfold Waiting.notify
          split <;> rfl
        case isFalse => rfl

/-- A call for one of two requests. -/
def firstOfTwo : WaitCall ℕ := ⟨[0, 1], 1, 0, by decide, by decide, by decide, by decide⟩

/-- It finds the request 0 completed. -/
def oneCompleted : Waiting ℕ where
  request r := { LfiRequest.new 0 with waitContext := if r = 0 then none else some r }
  waitCount _ := 1
  linearCounter := 0
  phase := .setUp 0
  outIndex := -1
  counted := ∅

theorem entered_oneCompleted : Entered firstOfTwo oneCompleted :=
  ⟨rfl, rfl, rfl, rfl, fun _ => nofun⟩

/-- The call goes through its loops, and then the request 1 completes. -/
def lateCompletion : List (WaitAction ℕ) :=
  [.setUp, .setUp, .setUp, .check, .cleanUp, .cleanUp, .complete 1 0]

/-- The state after it. -/
def completedLate : Waiting ℕ :=
  (exec (waitStep firstOfTwo) oneCompleted lateCompletion).get (by decide +kernel)

theorem reachable_completedLate :
    Reachable (waitStep firstOfTwo) (Entered firstOfTwo) completedLate :=
  ⟨oneCompleted, lateCompletion, entered_oneCompleted, (Option.some_get _).symm⟩

theorem waitNum_counts_completedLate :
    completedLate.waitCount firstOfTwo.frame =
      (firstOfTwo.howMany : ℤ) - completedLate.counted.card :=
  (waitNum_counts firstOfTwo completedLate reachable_completedLate).2.1.1

/-- What completes behind the clean-up is not counted: neither the completed requests set up,
nor those of them that still refer to the `wait_struct`, are what the count says. -/
theorem waitNum_uncounted :
    (¬ ∀ (c : WaitCall ℕ) (s : Waiting ℕ), Reachable (waitStep c) (Entered c) s →
      ((∃ first, s.phase = .returned first) → c.howMany ≤ (s.completed c).length) ∧
        s.waitCount c.frame = (c.howMany : ℤ) - (s.completed c).length ∧
        ((∃ first, s.phase = .returned first) →
          ∀ r, (s.request r).sharedWaitStruct ≠ some c.frame)) ∧
    ¬ ∀ (c : WaitCall ℕ) (s : Waiting ℕ), Reachable (waitStep c) (Entered c) s →
      ((∃ first, s.phase = .returned first) → c.howMany ≤ (s.completed c).length) ∧
        s.waitCount c.frame = (c.howMany : ℤ) - ((s.completed c).filter fun r =>
          (s.request r).sharedWaitStruct = some c.frame).length ∧
        ((∃ first, s.phase = .returned first) →
          ∀ r, (s.request r).sharedWaitStruct ≠ some c.frame) := by
  constructor
  · intro hall
    exact absurd (hall _ _ reachable_completedLate).2.1 (by decide +kernel)
  · intro hall
    exact absurd (hall _ _ reachable_completedLate).2.1 (by decide +kernel)

end Wait
end Lfi
