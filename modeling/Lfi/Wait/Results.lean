/-
# What the completion calls answer

`lfi_wait_any`, `lfi_wait_all`, `lfi_test_any`, `lfi_test_all` and the three queries of a
request, `src/src/lfi_async.cpp`.  The four calls go through `wait_num` and `test_num`, whose
conventions are not theirs: `wait_num` returns the index of a completed request whatever the
threshold, and `test_num` returns 0.  The array's size is a `size_t` on one side and an `int`
on the other.

`results_iff` says of every call when its answer keeps what `src/include/lfi_async.h`
promises.
-/

import Lfi.Wait.WaitNum

namespace Lfi
namespace Wait

open Impl Runs

/-- `LFI_NOT_COMPLETED`. -/
def lfiNotCompleted : ℤ := 7

/-! ### The index `wait_num` returns -/

section Index

variable {ρ : Type*} [DecidableEq ρ] {c : WaitCall ρ} {s t : Waiting ρ} {r : ρ}

/-- `out_index` is none, or the index of a completed request. -/
def Shown (c : WaitCall ρ) (s : Waiting ρ) : Prop :=
  s.outIndex = -1 ∨ ∃ (k : ℕ) (r : ρ), s.outIndex = k ∧ c.requests[k]? = some r ∧
    (s.request r).isCompleted = true

/-- What holds of `out_index` when the call is as far as `phase`.  A call that waits for all
its requests shows the one its clean-up starts with. -/
def IndexInv (c : WaitCall ρ) (s : Waiting ρ) : WaitPhase → Prop
  | .cleanUp first i =>
      Shown c s ∧ (c.howMany = c.requests.length → s.outIndex = if i = 0 then -1 else (first : ℤ))
  | .returned first => Shown c s ∧ (c.howMany = c.requests.length → s.outIndex = first)
  | _ => s.outIndex = -1

/-- Completed requests stay completed. -/
theorem waitStep_isCompleted {a : WaitAction ρ} (ht : waitStep c s a = some t)
    (hr : (s.request r).isCompleted = true) : (t.request r).isCompleted = true := by
  have hupdate : ∀ {r' : ρ} {q : LfiRequest} {f : ρ → LfiRequest},
      ((s.request r').isCompleted = true → q.isCompleted = true) →
      f = Function.update s.request r' q → (f r).isCompleted = true := by
    rintro r' q f hq rfl
    by_cases hrr : r = r'
    · subst hrr
      rw [Function.update_self]
      exact hq hr
    · rwa [Function.update_of_ne hrr]
  rcases waitStep_cases ht with ⟨i, r', -, -, rfl⟩ | ⟨first, i, r', -, -, -, rfl⟩ |
    ⟨r', err, -, rfl⟩ | ⟨phase, n, -, rfl⟩
  · obtain ⟨q, -, hdone, hreq, -⟩ := setUpRequest_spec c s r'
    exact hupdate (fun h => hdone.trans h) hreq
  · obtain ⟨q, -, hdone, hreq, -⟩ :=
      cleanUpRequest_spec s r' ((first + i) % c.requests.length)
    exact hupdate (fun h => hdone.trans h) hreq
  · exact hupdate (fun _ => rfl) (completeRequest_request c s r' err).1
  · exact hr

/-- What is shown stays shown. -/
theorem Shown.step (h : Shown c s) {a : WaitAction ρ} (ht : waitStep c s a = some t)
    (hout : t.outIndex = s.outIndex) : Shown c t := by
  rcases h with hnone | ⟨k, r, hk, hr, hdone⟩
  · exact .inl (hout.trans hnone)
  · exact .inr ⟨k, r, hout.trans hk, hr, waitStep_isCompleted ht hdone⟩

/-- A call for all its requests finds them all completed in its clean-up. -/
theorem WaitInv.all_completed (h : WaitInv c s) (hall : c.howMany = c.requests.length)
    (hcount : s.waitCount c.frame ≤ 0) (hr : r ∈ c.requests) :
    (s.request r).isCompleted = true := by
  have hsub : s.counted ⊆ c.requests.toFinset := fun r' hr' => by
    have hmem := (h.counted r' hr').1
    refine List.mem_toFinset.2 ?_
    cases hp : s.phase with
    | setUp i => exact List.mem_of_mem_take (by rw [hp] at hmem; exact hmem)
    | _ => rw [hp] at hmem; exact hmem
  have hcard : c.requests.toFinset.card ≤ s.counted.card := by
    have hcounter := h.counter
    rw [List.toFinset_card_of_nodup c.nodup]
    omega
  have heq := Finset.eq_of_subset_of_card_le hsub hcard
  exact (h.counted r (heq ▸ List.mem_toFinset.2 hr)).2

theorem setUpRequest_outIndex (c : WaitCall ρ) (s : Waiting ρ) (r : ρ) :
    (setUpRequest c s r).outIndex = s.outIndex := by
  unfold setUpRequest
  dsimp only
  split
  case isTrue => rfl
  case isFalse => split <;> rfl

/-- A step that leaves the phase and `out_index`. -/
theorem IndexInv.same {phase : WaitPhase} (h : IndexInv c s phase) {a : WaitAction ρ}
    (ht : waitStep c s a = some t) (hout : t.outIndex = s.outIndex) : IndexInv c t phase := by
  cases phase with
  | cleanUp first i => exact ⟨h.1.step ht hout, fun hall => hout.trans (h.2 hall)⟩
  | returned first => exact ⟨h.1.step ht hout, fun hall => hout.trans (h.2 hall)⟩
  | setUp i => exact hout.trans h
  | check => exact hout.trans h
  | body => exact hout.trans h
  | asleep => exact hout.trans h

/-- The clean-up of a request. -/
theorem IndexInv.cleanUp {first i : ℕ} (h : IndexInv c s (.cleanUp first i)) (hinv : WaitInv c s)
    (hp : s.phase = .cleanUp first i)
    (hr : c.requests[(first + i) % c.requests.length]? = some r) {a : WaitAction ρ}
    (ht : waitStep c s a = some { cleanUpRequest s r ((first + i) % c.requests.length) with
      phase := .cleanUp first (i + 1) }) :
    IndexInv c { cleanUpRequest s r ((first + i) % c.requests.length) with
      phase := .cleanUp first (i + 1) } (.cleanUp first (i + 1)) := by
  have hcount := hinv.count
  rw [hp] at hcount
  obtain ⟨q, -, hdone, hreq, -, -, hout⟩ :=
    cleanUpRequest_spec s r ((first + i) % c.requests.length)
  split at hout
  case isTrue hnew =>
    refine ⟨.inr ⟨_, r, hout, hr, ?_⟩, fun hall => hout.trans ?_⟩
    · show ((cleanUpRequest s r _).request r).isCompleted = true
      rw [hreq, Function.update_self, hdone]
      exact hnew.1
    · have hstart := h.2 hall
      rw [hnew.2] at hstart
      split at hstart
      case isTrue hi =>
        rw [if_neg (Nat.succ_ne_zero i), hi, Nat.add_zero, Nat.mod_eq_of_lt hcount.2.1]
      case isFalse => omega
  case isFalse hold =>
    refine ⟨h.1.step ht hout, fun hall => ?_⟩
    have hstart := h.2 hall
    have hcompleted := hinv.all_completed hall hcount.1 (List.mem_of_getElem? hr)
    split at hstart
    case isTrue => exact absurd ⟨hcompleted, hstart⟩ hold
    case isFalse => exact (hout.trans hstart).trans (if_neg (Nat.succ_ne_zero i)).symm

/-- One action. -/
theorem IndexInv.step (h : IndexInv c s s.phase) (hinv : WaitInv c s) {a : WaitAction ρ}
    (ht : waitStep c s a = some t) : IndexInv c t t.phase := by
  rcases waitStep_cases ht with ⟨i, r, hp, hi, rfl⟩ | ⟨first, i, r, hp, hlt, hr, rfl⟩ |
    ⟨r, err, hr, rfl⟩ | ⟨phase, n, hm, rfl⟩
  · rw [hp] at h
    exact (setUpRequest_outIndex c s r).trans h
  · rw [hp] at h
    exact h.cleanUp hinv hp hr ht
  · rcases completeRequest_phase c s r err with heq | ⟨hp, hcheck⟩
    · rw [heq]
      exact h.same ht (completeRequest_request c s r err).2
    · rw [hp] at h
      rw [hcheck]
      exact (completeRequest_request c s r err).2.trans h
  · cases hm with
    | stay => exact h.same ht rfl
    | setUpDone hp => rw [hp] at h; exact h
    | turn hp => rw [hp] at h; exact h
    | leave hp =>
        rw [hp] at h
        exact ⟨.inl h, fun _ => h⟩
    | again hp => rcases hp with hp | hp <;> rw [hp] at h <;> exact h
    | sleep hp => rcases hp with hp | hp <;> rw [hp] at h <;> exact h
    | @back first i hp hi =>
        have hne : i ≠ 0 := by have := c.two; omega
        rw [hp] at h
        exact ⟨h.1.step ht rfl, fun hall => (h.2 hall).trans (if_neg hne)⟩

/-- What a call returns: the index of a completed request, and if it waited for all of them
the one its clean-up started with. -/
theorem returned_outIndex (h : Reachable (waitStep c) (Entered c) s) {first : ℕ}
    (hp : s.phase = .returned first) :
    Shown c s ∧ (c.howMany = c.requests.length → s.outIndex = first) := by
  have hs := h.invariant (P := fun s => WaitInv c s ∧ IndexInv c s s.phase)
    (fun s hs => ⟨hs.inv, by rw [hs.phase]; exact hs.outIndex⟩)
    fun s a t hs ht => ⟨hs.1.step ht, hs.2.step hs.1 ht⟩
  have hindex := hs.2
  rw [hp] at hindex
  exact hindex

end Index

/-! ### The calls -/

section Calls

variable {ρ : Type*} [DecidableEq ρ]

/-- `n_requests`: the `size` of the array as an `int`. -/
def nRequests (requests : List ρ) : ℤ := toInt32 requests.length

/-- The requests that `wait_num` and `test_num` go over. -/
def passed (requests : List ρ) : List ρ := requests.take (nRequests requests).toNat

/-- `lfi_wait_wrapper(reqs, size, how_many)` returns a value in a state: the guard of `wait_num`
refuses the arguments, `wait` returns with its request completed, or the loops of `wait_num`
are over. -/
inductive WaitReturns (requests : List ρ) (howMany : ℕ) : Waiting ρ → ℤ → Prop where
  | invalid {s : Waiting ρ} (h : toInt32 howMany > nRequests requests ∨ toInt32 howMany ≤ 0 ∨
      nRequests requests = 0) : WaitReturns requests howMany s (-1)
  | single {s : Waiting ρ} {r : ρ} (hmany : toInt32 howMany = 1) (hn : nRequests requests = 1)
      (hr : requests[0]? = some r) (hdone : (s.request r).isCompleted = true) :
      WaitReturns requests howMany s lfiSuccess
  | loops {c : WaitCall ρ} {s : Waiting ρ} {first : ℕ} (hreqs : c.requests = passed requests)
      (hmany : toInt32 howMany = c.howMany) (h : Reachable (waitStep c) (Entered c) s)
      (hp : s.phase = .returned first) : WaitReturns requests howMany s s.outIndex

end Calls

/-- `lfi_test_wrapper(reqs, size, how_many)`. -/
def testWrapper (e : Endpoints) (leads : Leads) (requests : List RequestRef) (howMany : ℕ) :
    ℤ × Endpoints :=
  e.testNum leads (passed requests) (toInt32 howMany)

/-- `lfi_test_any(reqs, size)`. -/
def lfiTestAny (e : Endpoints) (leads : Leads) (requests : List RequestRef) : ℤ × Endpoints :=
  testWrapper e leads requests 1

/-- `lfi_test_all(reqs, size)`. -/
def lfiTestAll (e : Endpoints) (leads : Leads) (requests : List RequestRef) : ℤ × Endpoints :=
  testWrapper e leads requests requests.length

/-- `lfi_request_size(req)`. -/
def lfiRequestSize (q : LfiRequest) : ℤ :=
  if q.isCompleted then
    if q.error ≠ 0 then q.error else (q.size : ℤ).bmod (2 ^ 64)
  else -lfiNotCompleted

/-- `lfi_request_source(req)`.  One branch is a `uint32_t`, and the other becomes one. -/
def lfiRequestSource (q : LfiRequest) : ℤ :=
  (if q.isCompleted then (q.source : ℤ) else -lfiNotCompleted) % 2 ^ 32

/-- `lfi_request_error(req)`. -/
def lfiRequestError (q : LfiRequest) : ℤ :=
  if q.isCompleted then q.error else -lfiNotCompleted

/-- A call of the interface, with what it meets.  The waiting calls come with the state they
return in and what they return. -/
inductive ResultCall where
  | waitAny (requests : List RequestRef) (s : Waiting RequestRef) (ret : ℤ)
  | waitAll (requests : List RequestRef) (s : Waiting RequestRef) (ret : ℤ)
  | testAny (requests : List RequestRef) (e : Endpoints) (leads : Leads)
  | testAll (requests : List RequestRef) (e : Endpoints) (leads : Leads)
  | size (q : LfiRequest)
  | source (q : LfiRequest)
  | error (q : LfiRequest)

/-- What the interface promises: the `any` calls return the index of a completed request or
something negative, the `all` calls 0 when all requests are completed, the queries something
negative for a request that is not. -/
def ResultCall.Promise : ResultCall → Prop
  | .waitAny requests s ret => WaitReturns requests 1 s ret →
      0 ≤ ret → ∃ r, requests[ret.toNat]? = some r ∧ (s.request r).isCompleted = true
  | .waitAll requests s ret => WaitReturns requests requests.length s ret →
      (∀ r ∈ requests, (s.request r).isCompleted = true) → ret = 0
  | .testAny requests e leads => 0 ≤ (lfiTestAny e leads requests).1 →
      ∃ r, requests[(lfiTestAny e leads requests).1.toNat]? = some r ∧
        (lfiTestAny e leads requests).2.isCompleted r = true
  | .testAll requests e leads =>
      (∀ r ∈ requests, (lfiTestAll e leads requests).2.isCompleted r = true) →
        (lfiTestAll e leads requests).1 = 0
  | .size q => ¬ q.isCompleted = true → lfiRequestSize q < 0
  | .source q => ¬ q.isCompleted = true → lfiRequestSource q < 0
  | .error q => ¬ q.isCompleted = true → lfiRequestError q < 0

/-- The state a call of `lfi_test_any` answers from: the one on entry when a request is
completed there, and the one after the progress calls otherwise. -/
def answered (e : Endpoints) (leads : Leads) (l : List RequestRef) : Endpoints :=
  if l.any e.isCompleted then e else e.lead leads

/-- When it keeps the promise. -/
def ResultCall.Keeps : ResultCall → Prop
  | .waitAll requests s ret => WaitReturns requests requests.length s ret →
      (∀ r ∈ requests, (s.request r).isCompleted = true) →
        nRequests requests = 1 ∨ (1 < nRequests requests ∧ s.phase = .returned 0)
  | .testAny requests e leads =>
      (∃ r ∈ passed requests, (answered e leads (passed requests)).isCompleted r = true) →
        ∃ r, requests[0]? = some r ∧ (answered e leads (passed requests)).isCompleted r = true
  | .testAll requests e leads =>
      (∀ r ∈ requests, (e.lead leads).isCompleted r = true) → 0 ≤ nRequests requests
  | .source q => q.isCompleted = true
  | _ => True

/-! ### The arrays -/

section Arrays

variable {ρ : Type*} {requests : List ρ} {r : ρ}

theorem toInt32_le (n : ℕ) : toInt32 n ≤ n := by
  unfold toInt32
  have h := Int.bmod_def (n : ℤ) (2 ^ 32)
  split at h <;> omega

theorem toInt32_one : toInt32 1 = 1 := by decide

theorem length_passed (h : 0 ≤ nRequests requests) :
    ((passed requests).length : ℤ) = nRequests requests := by
  have hle : nRequests requests ≤ requests.length := toInt32_le _
  rw [passed, List.length_take]
  omega

theorem getElem?_of_passed {k : ℕ} (h : (passed requests)[k]? = some r) :
    requests[k]? = some r := by
  obtain ⟨hlt, hr⟩ := List.getElem?_eq_some_iff.1 h
  rw [← h, passed, List.getElem?_take_of_lt]
  exact lt_of_lt_of_le hlt (List.length_take_le ..)

theorem passed_zero (h : 0 < nRequests requests) : (passed requests)[0]? = requests[0]? := by
  rw [passed, List.getElem?_take_of_lt (by omega)]

end Arrays

/-! ### The waiting calls -/

section Waits

variable {requests : List RequestRef} {s : Waiting RequestRef} {ret : ℤ}

theorem waitAny_promise (h : WaitReturns requests 1 s ret) (hret : 0 ≤ ret) :
    ∃ r, requests[ret.toNat]? = some r ∧ (s.request r).isCompleted = true := by
  cases h with
  | invalid => exact absurd hret (by decide)
  | single _ _ hr hdone => exact ⟨_, hr, hdone⟩
  | @loops c _ first hreqs hmany h hp =>
      rcases (returned_outIndex h hp).1 with hnone | ⟨k, r, hk, hr, hdone⟩
      · rw [hnone] at hret
        exact absurd hret (by decide)
      · rw [hk]
        rw [hreqs] at hr
        exact ⟨r, getElem?_of_passed hr, hdone⟩

/-- `lfi_wait_all` returns the index its clean-up starts with. -/
theorem waitAll_promise (h : WaitReturns requests requests.length s ret) :
    ret = 0 ↔ nRequests requests = 1 ∨ (1 < nRequests requests ∧ s.phase = .returned 0) := by
  cases h with
  | invalid h =>
      have : nRequests requests ≤ 0 := by
        rcases h with h | h | h
        · exact absurd h (lt_irrefl _)
        · exact h
        · exact h.le
      exact iff_of_false (by decide) (by omega)
  | single _ hn => exact iff_of_true rfl (.inl hn)
  | @loops c _ first hreqs hmany h hp =>
      have htwo := c.two
      have hn : nRequests requests = c.howMany := hmany
      have hlen := @length_passed _ requests (by omega)
      rw [← hreqs] at hlen
      rw [(returned_outIndex h hp).2 (by omega), hp]
      constructor
      · intro hzero
        exact .inr ⟨by omega, by rw [show first = 0 by omega]⟩
      · rintro (hone | ⟨-, hfirst⟩)
        · omega
        · cases hfirst
          rfl

end Waits

/-! ### The polling calls -/

section Tests

variable {requests : List RequestRef} {e : Endpoints} {leads : Leads}

/-- `test_num` returns 0 or `-LFI_TIMEOUT`. -/
theorem testNum_ret (e : Endpoints) (leads : Leads) (l : List RequestRef) (howMany : ℤ) :
    (e.testNum leads l howMany).1 = 0 ∨ (e.testNum leads l howMany).1 = -lfiTimeout := by
  unfold Endpoints.testNum
  split
  next =>
    rw [test_ret]
    split
    case isTrue => exact .inl rfl
    case isFalse => exact .inr rfl
  next =>
    dsimp only
    split
    case isTrue => exact .inl rfl
    case isFalse =>
      split
      case isTrue => exact .inl rfl
      case isFalse => exact .inr rfl

/-- Asked for one request, `test_num` looks for a completed one. -/
theorem testNum_any {l : List RequestRef} (hl : 1 ≤ l.length) :
    ((e.testNum leads l 1).1 = 0 ↔ ∃ r ∈ l, (answered e leads l).isCompleted r = true) ∧
      ∀ r ∈ l, (e.testNum leads l 1).2.isCompleted r = (answered e leads l).isCompleted r := by
  by_cases hone : l.length = 1
  · obtain ⟨r, rfl⟩ := List.length_eq_one_iff.1 hone
    have hans : (answered e leads [r]).isCompleted r = (e.lead leads).isCompleted r := by
      unfold answered
      split
      case isTrue hany =>
        have hr : e.isCompleted r = true := by simpa using hany
        rw [hr, Endpoints.lead_isCompleted hr]
      case isFalse => rfl
    rw [testNum_single, test_ret]
    simp [hans, test_isCompleted, lfiSuccess, lfiTimeout]
  · have heq := @testNum_eq e leads l 1 (by omega)
    have hfirst := @loopRequests_eq_zero _ RequestRef.isShm e.isCompleted l ⟨1, false, false⟩
      (by decide) (by simp only; omega)
    have hzero := @testNum_eq_zero e leads l 1 le_rfl hl
    rw [show ((1 : ℕ) : ℤ) = 1 from rfl] at heq hzero
    have hany : l.any e.isCompleted = true ↔ 1 ≤ l.countP e.isCompleted := by
      rw [List.any_eq_true, Nat.one_le_iff_ne_zero, ← Nat.pos_iff_ne_zero, List.countP_pos_iff]
    unfold answered
    by_cases hentry : l.any e.isCompleted = true
    · rw [if_pos hentry, heq, if_pos (hfirst.2 (Int.ofNat_le.2 (hany.1 hentry)))]
      exact ⟨iff_of_true rfl (List.any_eq_true.1 hentry), fun _ _ => rfl⟩
    · have hnone : l.countP e.isCompleted = 0 := by
        have := mt hany.2 hentry
        omega
      have hseen := @counted_le_countP _ e.isCompleted (l.length - 1) l
      rw [if_neg hentry]
      refine ⟨?_, fun r _ => ?_⟩
      · rw [hzero, Endpoints.seen, ← List.countP_pos_iff]
        omega
      · rw [heq, if_neg]
        rw [hfirst, hnone]
        decide

/-- With no requests there is nothing to find. -/
theorem testNum_nil (e : Endpoints) (leads : Leads) (howMany : ℤ) :
    e.testNum leads [] howMany = if howMany = 0 then (0, e) else (-lfiTimeout, e.lead leads) := by
  simp only [Endpoints.testNum, loopRequests]
  by_cases h : howMany = 0 <;> simp [h]

/-- `lfi_test_any` returns 0 when a request is completed, whichever it is. -/
theorem testAny_promise :
    (0 ≤ (lfiTestAny e leads requests).1 →
      ∃ r, requests[(lfiTestAny e leads requests).1.toNat]? = some r ∧
        (lfiTestAny e leads requests).2.isCompleted r = true) ↔
    ((∃ r ∈ passed requests, (answered e leads (passed requests)).isCompleted r = true) →
      ∃ r, requests[0]? = some r ∧ (answered e leads (passed requests)).isCompleted r = true) := by
  unfold lfiTestAny testWrapper
  rw [show ((1 : ℕ) : ℤ) = 1 from rfl, toInt32_one]
  by_cases hlen : 1 ≤ (passed requests).length
  · obtain ⟨hzero, hstate⟩ := @testNum_any e leads _ hlen
    have hhead : (passed requests)[0]? = requests[0]? := by
      rw [passed, List.length_take] at hlen
      exact passed_zero (by omega)
    rcases testNum_ret e leads (passed requests) 1 with hret | hret
    · rw [hret]
      refine ⟨fun h _ => ?_, fun h _ => ?_⟩
      · obtain ⟨r, hr, hdone⟩ := h le_rfl
        have hmem := List.mem_of_getElem? (hhead.trans hr)
        exact ⟨r, hr, (hstate r hmem).symm.trans hdone⟩
      · obtain ⟨r, hr, hdone⟩ := h (hzero.1 hret)
        have hmem := List.mem_of_getElem? (hhead.trans hr)
        exact ⟨r, hr, (hstate r hmem).trans hdone⟩
    · rw [hret]
      refine iff_of_true (fun h => absurd h (by decide)) fun h => ?_
      exact absurd (hret.symm.trans (hzero.2 h)) (by decide)
  · have hnil : passed requests = [] := List.eq_nil_of_length_eq_zero (by omega)
    rw [hnil, testNum_nil, if_neg one_ne_zero]
    exact iff_of_true (fun h => absurd h (show ¬ (0 : ℤ) ≤ -lfiTimeout by decide)) (by simp)

/-- `lfi_test_all` returns 0 when all are, but for a size that is a negative `int`. -/
theorem testAll_promise :
    ((∀ r ∈ requests, (lfiTestAll e leads requests).2.isCompleted r = true) →
      (lfiTestAll e leads requests).1 = 0) ↔
    ((∀ r ∈ requests, (e.lead leads).isCompleted r = true) → 0 ≤ nRequests requests) := by
  unfold lfiTestAll testWrapper
  rw [← nRequests]
  by_cases hpos : 1 ≤ nRequests requests
  · have hlen := @length_passed _ requests (by omega)
    refine iff_of_true (fun hall => ?_) fun _ => by omega
    have hcount : (passed requests).countP
        (e.testNum leads (passed requests) (nRequests requests)).2.isCompleted =
        (passed requests).length :=
      List.countP_eq_length.2 fun r hr => hall r (List.mem_of_mem_take hr)
    rw [← hlen] at hcount ⊢
    have hdone := (@testNum_completed e leads (passed requests) _ (by omega) le_rfl).1 hcount.ge
    exact (testNum_eq_zero (by omega) le_rfl).2 (by omega)
  · have hnil : passed requests = [] := by
      rw [passed, Int.toNat_eq_zero.2 (by omega), List.take_zero]
    rw [hnil, testNum_nil]
    split
    case isTrue hzero => exact iff_of_true (fun _ => rfl) fun _ => hzero.ge
    case isFalse hneg =>
      exact imp_congr_right fun _ =>
        iff_of_false (show ¬ -lfiTimeout = 0 by decide) (by omega)

end Tests

/-! ### The queries -/

theorem lfiRequestSize_neg {q : LfiRequest} (h : ¬ q.isCompleted = true) :
    lfiRequestSize q < 0 := by
  rw [lfiRequestSize, if_neg h]
  decide

theorem lfiRequestError_neg {q : LfiRequest} (h : ¬ q.isCompleted = true) :
    lfiRequestError q < 0 := by
  rw [lfiRequestError, if_neg h]
  decide

/-- `lfi_request_source` returns nothing negative. -/
theorem lfiRequestSource_nonneg (q : LfiRequest) : 0 ≤ lfiRequestSource q :=
  Int.emod_nonneg _ (by decide)

/-- **The promises of the completion interface.**  `lfi_wait_any`, `lfi_request_size` and
`lfi_request_error` keep theirs.  `lfi_wait_all` keeps it for one request, and for more when
its clean-up starts with the first; `lfi_test_any` when the first request is completed if any
is; `lfi_test_all` when the size is no negative `int`; `lfi_request_source` when the request is
completed. -/
theorem results_iff (call : ResultCall) : call.Promise ↔ call.Keeps := by
  cases call with
  | waitAny requests s ret => exact iff_of_true waitAny_promise trivial
  | waitAll requests s ret =>
      exact forall_congr' fun h => imp_congr_right fun _ => waitAll_promise h
  | testAny requests e leads => exact testAny_promise
  | testAll requests e leads => exact testAll_promise
  | size q => exact iff_of_true lfiRequestSize_neg trivial
  | source q =>
      refine ⟨fun h => ?_, fun h hnot => absurd h hnot⟩
      by_contra hnot
      exact absurd (h hnot) (not_lt.2 (lfiRequestSource_nonneg q))
  | error q => exact iff_of_true lfiRequestError_neg trivial

/-- A call of `lfi_wait_all` for two requests. -/
def bothRequests : WaitCall RequestRef :=
  ⟨[⟨false, 0⟩, ⟨false, 1⟩], 2, 0, by decide, by decide, by decide, by decide⟩

/-- They are completed; another call was made before. -/
def bothCompleted : Waiting RequestRef where
  request _ := LfiRequest.new 0
  waitCount _ := 2
  linearCounter := 1
  phase := .setUp 0
  outIndex := -1
  counted := ∅

/-- The state in which the call returns. -/
def bothWaited : Waiting RequestRef :=
  (exec (waitStep bothRequests) bothCompleted
    [.setUp, .setUp, .setUp, .check, .cleanUp, .cleanUp, .cleanUp]).get (by decide +kernel)

theorem reachable_bothWaited :
    Reachable (waitStep bothRequests) (Entered bothRequests) bothWaited :=
  ⟨bothCompleted, _, ⟨rfl, rfl, rfl, rfl, fun _ => nofun⟩, (Option.some_get _).symm⟩

/-- `lfi_wait_all` returns 1 for two completed requests, `lfi_test_any` returns 0 for the second
of two, and `lfi_request_source` 4294967289 for a request that is not completed. -/
theorem results_broken :
    ¬ (ResultCall.waitAll bothRequests.requests bothWaited bothWaited.outIndex).Promise ∧
      ¬ (ResultCall.testAny [⟨false, 1⟩, ⟨false, 0⟩] ⟨oneReceived, oneReceived⟩
        ⟨none, none⟩).Promise ∧
      ¬ (ResultCall.source { LfiRequest.new 0 with waitContext := some 0 }).Promise := by
  refine ⟨fun h => ?_, fun h => ?_, fun h => ?_⟩
  · have hret : WaitReturns bothRequests.requests bothRequests.requests.length bothWaited
        bothWaited.outIndex :=
      @WaitReturns.loops _ _ _ _ bothRequests _ 1 (by decide) (by decide) reachable_bothWaited
        (by decide +kernel)
    exact absurd (h hret (by decide +kernel)) (by decide +kernel)
  · obtain ⟨r, hr, hdone⟩ := h (by decide +kernel)
    have hfirst : r = ⟨false, 1⟩ := by
      have hzero : (lfiTestAny ⟨oneReceived, oneReceived⟩ ⟨none, none⟩
        [⟨false, 1⟩, ⟨false, 0⟩]).1.toNat = 0 := by decide +kernel
      rw [hzero] at hr
      exact (Option.some.inj hr).symm
    rw [hfirst] at hdone
    exact absurd hdone (by decide +kernel)
  · exact absurd (h (by decide)) (by decide)

end Wait
end Lfi
