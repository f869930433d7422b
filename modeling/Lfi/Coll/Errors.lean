/-
# What a collective returns when a request fails

`lfi_barrier`, `lfi_broadcast` and `lfi_allreduce` in `src/lfi_coll.cpp`, seen from one
process, over everything that can happen to its requests: a request cannot be created,
posting it fails, or it is posted and ends with an error, be it of its own or because it
was cancelled (`Answer`).  A posting call that fails takes the function to its label
`error`; after

    lfi_wait_all(requests.data(), requests.size());

nobody looks at what the requests ended with.  `honest_iff` says what becomes of the
promise of `lfi_coll.h`, 0 on success and a negative code on failure.
-/

import Lfi.Coll.Collectives
import Lfi.Impl.State

namespace Lfi
namespace Coll

open Runs

variable {n : ℕ}

/-- `LFI_NULL_REQUEST`. -/
def lfiNullRequest : ℤ := 8

/-- What becomes of one request: whether `lfi_request_create` gives one, what the
posting call returns, and the error of the request when the wait for it is over. -/
structure Answer where
  created : Bool
  ret : ℤ
  error : ℤ
  deriving DecidableEq, Repr

/-- What `lfi_tsend_async` or `lfi_trecv_async` returns. -/
def Answer.posting (a : Answer) : ℤ := if a.created then a.ret else -lfiNullRequest

/-- The request was posted, and so is waited for. -/
def Answer.Posted (a : Answer) : Prop := a.created = true ∧ 0 ≤ a.ret

instance (a : Answer) : Decidable a.Posted := inferInstanceAs (Decidable (_ ∧ _))

/-- What a phase or a whole call comes to: its `ret`, and the requests it made. -/
structure PostResult where
  ret : ℤ
  requests : List Answer
  deriving DecidableEq, Repr

/-- The posting loop of a phase, which stops at the first failure. -/
def postPhase (answer : Op (Fin n) ℕ → Answer) : List (Op (Fin n) ℕ) → PostResult
  | [] => ⟨0, []⟩
  | o :: ops =>
      let a := answer o
      if a.posting < 0 then ⟨a.posting, [a]⟩
      else
        let p := postPhase answer ops
        ⟨p.ret, a :: p.requests⟩

/-- The phases in order, from the `k`-th on. -/
def postPhases (answer : ℕ → Op (Fin n) ℕ → Answer) :
    ℕ → List (List (Op (Fin n) ℕ)) → PostResult
  | _, [] => ⟨0, []⟩
  | k, ops :: phases =>
      let p := postPhase (answer k) ops
      if p.ret < 0 then p
      else
        let q := postPhases answer (k + 1) phases
        ⟨q.ret, p.requests ++ q.requests⟩

/-- A collective with the given phases; `lfi_wait_all` does not survive a request that
could not be created. -/
def runCollective (answer : ℕ → Op (Fin n) ℕ → Answer) (phases : List (List (Op (Fin n) ℕ))) :
    Option ℤ :=
  let p := postPhases answer 0 phases
  if ∀ a ∈ p.requests, a.created = true then some p.ret else none

/-- `lfi_barrier(group)`. -/
def lfiBarrier (p : Fin n) (answer : ℕ → Op (Fin n) ℕ → Answer) : Option ℤ :=
  runCollective answer [barrierOps n p]

/-- `lfi_broadcast(group, root, data, size)`. -/
def lfiBroadcast (r p : Fin n) (answer : ℕ → Op (Fin n) ℕ → Answer) : Option ℤ :=
  runCollective answer [broadcastOps r p]

/-- `lfi_allreduce(group, data, type, op)`, for one of the five types. -/
def lfiAllreduce (p : Fin n) (answer : ℕ → Op (Fin n) ℕ → Answer) : Option ℤ :=
  runCollective answer [gatherOps p, scatterOps p]

/-- The three functions. -/
def Collective.run (p : Fin n) (answer : ℕ → Op (Fin n) ℕ → Answer) : Collective n → Option ℤ
  | .barrier => lfiBarrier p answer
  | .broadcast r => lfiBroadcast r p answer
  | .allreduce => lfiAllreduce p answer

/-- The requests a call makes, until a posting call fails. -/
def Collective.requests (p : Fin n) (answer : ℕ → Op (Fin n) ℕ → Answer) (call : Collective n) :
    List Answer :=
  (postPhases answer 0 (call.phases p)).requests

/-- **No hidden failure.**  The call returns 0 only if every request that was posted
completed with error 0, and a negative code if one completed with an error. -/
def Honest (p : Fin n) (answer : ℕ → Op (Fin n) ℕ → Answer) (call : Collective n) : Prop :=
  (call.run p answer = some 0 → ∀ a ∈ call.requests p answer, a.Posted → a.error = 0) ∧
    ((∃ a ∈ call.requests p answer, a.Posted ∧ a.error ≠ 0) →
      ∃ ret, call.run p answer = some ret ∧ ret < 0)

/-! ### The posting loops -/

variable {p : Fin n}

theorem Answer.posted_iff (a : Answer) : a.Posted ↔ 0 ≤ a.posting := by
  unfold Answer.Posted Answer.posting
  cases a.created <;> simp [lfiNullRequest]

/-- The posting loops end with 0 when everything was posted, and else with what the
last call returned, the only one that failed. -/
def PostResult.Sound (x : PostResult) : Prop :=
  ∃ posted : List Answer, (∀ a ∈ posted, a.Posted) ∧
    (x = ⟨0, posted⟩ ∨ ∃ a, a.posting < 0 ∧ x = ⟨a.posting, posted ++ [a]⟩)

/-- More requests before those of a sound result. -/
theorem PostResult.Sound.prepend {x : PostResult} (h : x.Sound) {before : List Answer}
    (hbefore : ∀ a ∈ before, a.Posted) : PostResult.Sound ⟨x.ret, before ++ x.requests⟩ := by
  obtain ⟨posted, hposted, hx⟩ := h
  refine ⟨before ++ posted, fun a ha => ?_, ?_⟩
  · exact (List.mem_append.1 ha).elim (hbefore a) (hposted a)
  · rcases hx with rfl | ⟨a, ha, rfl⟩
    · exact .inl rfl
    · exact .inr ⟨a, ha, by rw [List.append_assoc]⟩

theorem postPhase_sound (answer : Op (Fin n) ℕ → Answer) (ops : List (Op (Fin n) ℕ)) :
    (postPhase answer ops).Sound := by
  induction ops with
  | nil => exact ⟨[], by simp, .inl rfl⟩
  | cons o ops ih =>
      unfold postPhase
      dsimp only
      split
      case isTrue hneg => exact ⟨[], by simp, .inr ⟨_, hneg, rfl⟩⟩
      case isFalse hpos =>
        have hpre : ∀ a ∈ [answer o], a.Posted := fun a ha => by
          rw [List.mem_singleton.1 ha]
          exact (Answer.posted_iff _).2 (Int.not_lt.1 hpos)
        exact ih.prepend hpre

theorem postPhases_sound (answer : ℕ → Op (Fin n) ℕ → Answer) (k : ℕ)
    (phases : List (List (Op (Fin n) ℕ))) : (postPhases answer k phases).Sound := by
  induction phases generalizing k with
  | nil => exact ⟨[], by simp, .inl rfl⟩
  | cons ops phases ih =>
      unfold postPhases
      dsimp only
      split
      case isTrue => exact postPhase_sound _ _
      case isFalse hpos =>
        refine (ih (k + 1)).prepend ?_
        obtain ⟨posted, hposted, hx | ⟨a, ha, hx⟩⟩ := postPhase_sound (answer k) ops
        · rw [hx]
          exact hposted
        · exact absurd (by rw [hx]; exact ha) hpos

theorem Collective.run_eq (answer : ℕ → Op (Fin n) ℕ → Answer) (call : Collective n) :
    call.run p answer = runCollective answer (call.phases p) := by
  cases call <;> rfl

/-- **When a collective hides no failure.**  It keeps its promise if and only if a
posting call fails on a request that could be created, or every request that is posted
completes with error 0. -/
theorem honest_iff (p : Fin n) (answer : ℕ → Op (Fin n) ℕ → Answer) (call : Collective n) :
    Honest p answer call ↔
      (∃ a ∈ call.requests p answer, a.created = true ∧ a.ret < 0) ∨
        ∀ a ∈ call.requests p answer, a.Posted → a.error = 0 := by
  have hsound := postPhases_sound answer 0 (call.phases p)
  unfold Honest Collective.requests
  rw [call.run_eq]
  unfold runCollective
  generalize postPhases answer 0 (call.phases p) = x at hsound ⊢
  obtain ⟨posted, hposted, rfl | ⟨a, ha, rfl⟩⟩ := hsound
  · -- everything was posted, and the call returns 0
    dsimp only
    rw [if_pos fun a ha => (hposted a ha).1]
    constructor
    · exact fun h => .inr (h.1 rfl)
    · rintro (⟨a, ha, -, hneg⟩ | hgood)
      · exact absurd (hposted a ha).2 (by omega)
      · exact ⟨fun _ => hgood, fun ⟨a, ha, hp, herr⟩ => absurd (hgood a ha hp) herr⟩
  · dsimp only
    have hmem : a ∈ posted ++ [a] := by simp
    cases hcreated : a.created with
    | true =>
        -- the call that failed decides
        have hret : a.ret < 0 := by rwa [Answer.posting, if_pos hcreated] at ha
        refine iff_of_true ⟨fun h => ?_, fun _ => ?_⟩ (.inl ⟨a, hmem, hcreated, hret⟩) <;>
          have hall : ∀ b ∈ posted ++ [a], b.created = true := fun b hb => by
            rcases List.mem_append.1 hb with hb | hb
            · exact (hposted b hb).1
            · rw [List.mem_singleton.1 hb, hcreated]
        · rw [if_pos hall] at h
          exact absurd (Option.some.inj h) (by omega)
        · exact ⟨_, if_pos hall, ha⟩
    | false =>
        -- waiting for the request that is not there
        have hnot : ¬ ∀ b ∈ posted ++ [a], b.created = true := fun h => by
          rw [h a hmem] at hcreated
          cases hcreated
        rw [if_neg hnot]
        constructor
        · refine fun h => .inr fun b hb hp => ?_
          by_contra herr
          obtain ⟨ret, hret, -⟩ := h.2 ⟨b, hb, hp, herr⟩
          cases hret
        · rintro (⟨b, hb, hc, hneg⟩ | hgood)
          · rcases List.mem_append.1 hb with hb | hb
            · exact absurd (hposted b hb).2 (by omega)
            · rw [List.mem_singleton.1 hb, hcreated] at hc
              cases hc
          · exact ⟨nofun, fun ⟨b, hb, hp, herr⟩ => absurd (hgood b hb hp) herr⟩

/-- The peer of the receive of a broadcast is lost. -/
def peerLost : Answer := ⟨true, 0, -Impl.lfiBrokenComm⟩

/-- **A broadcast from a lost root succeeds.**  The receiver's only request completes
with `-LFI_BROKEN_COMM`, and the call returns 0. -/
theorem honest_peerLost :
    ¬ ∀ (n : ℕ) (p : Fin n) (answer : ℕ → Op (Fin n) ℕ → Answer) (call : Collective n),
      Honest p answer call := by
  intro h
  have hzero := (h 2 1 (fun _ _ => peerLost) (.broadcast 0)).1 (by decide)
  exact absurd (hzero peerLost (by decide) (by decide)) (by decide)

end Coll
end Lfi
