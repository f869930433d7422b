/-
# Exactly-once completion

`complete` looks at `is_completed()` without a lock, then runs
`on_request_complete` under the lock of the communicator, then the rest of its body
under the lock of the request.  Here several calls of `complete` for one request run
at the same time, each of these three parts a step of its own.  The leader of the
progress engine and a thread in `cancel` are two such calls.

Exactly one call should take effect.  `exactlyOnce_iff` says when it does: no call
makes its check while another one is between its check and its body.
-/

import Lfi.Impl.Contexts
import Lfi.Impl.Engine

namespace Lfi
namespace Impl

open Runs

/-! ### Calls in steps -/

/-- How far a call of `complete` is: it found the request outstanding, it has run
`on_request_complete`, it is through, or it found the request completed and
returned. -/
inductive CallState where
  | checked
  | erased
  | completed
  | returned
  deriving DecidableEq, Repr

/-- A call `complete(err)`, and what the clock reads in it. -/
structure CompleteCall where
  err : ℤ
  now : ℤ
  state : CallState
  deriving DecidableEq, Repr

/-- An endpoint and the calls of `complete` made so far for one of its requests. -/
structure Calls where
  state : State
  calls : List CompleteCall

/-- A new call makes its check, or the `i`-th call takes its next step. -/
inductive CallAction where
  | check (err now : ℤ)
  | onRequestComplete (i : ℕ)
  | body (i : ℕ)

/-- The second part of `complete(err)`. -/
def completeFt (env : Env) (s : State) (r : ReqId) (err now : ℤ) : Ft :=
  match s.core.requests r with
  | some q =>
      if env.faultTolerance then onRequestComplete s.ft r q.commId q.source err now else s.ft
  | none => s.ft

/-- One step of one call. -/
def callStep (env : Env) (r : ReqId) (x : Calls) : CallAction → Option Calls
  | .check err now =>
      let found := if x.state.core.onComm r = none then CallState.returned else .checked
      some { x with calls := x.calls ++ [⟨err, now, found⟩] }
  | .onRequestComplete i =>
      match x.calls[i]? with
      | some ⟨err, now, .checked⟩ =>
          some ⟨⟨x.state.core, completeFt env x.state r err now⟩,
            x.calls.set i ⟨err, now, .erased⟩⟩
      | _ => none
  | .body i =>
      match x.calls[i]? with
      | some ⟨err, now, .erased⟩ =>
          some ⟨⟨completeBody x.state.core r err, x.state.ft⟩,
            x.calls.set i ⟨err, now, .completed⟩⟩
      | _ => none

/-- Every call has returned. -/
def Calls.Done (x : Calls) : Prop := ∀ k ∈ x.calls, k.state = .completed ∨ k.state = .returned

instance (x : Calls) : Decidable x.Done := List.decidableBAll ..

/-! ### Exactly once -/

/-- `t` is the endpoint `s` after the request `r`, which was `q`, was completed once,
with `err`. -/
structure CompletedOnce (env : Env) (s t : State) (r : ReqId) (q : LfiRequest) (err : ℤ) :
    Prop where
  request : t.core.requests r = some { q with error := err, waitContext := none }
  callbacks : t.core.callbacks = s.core.callbacks ++ (q.callback.map fun f => (f, err)).toList
  waitCount : ∀ w, t.core.waitCount w =
    s.core.waitCount w - if q.sharedWaitStruct = some w then 1 else 0
  erased : env.faultTolerance = true →
    ∃ xs, Rep s.ft.reqNodes (s.ft.comm q.commId).ftRequests xs ∧ r ∈ xs ∧
      Rep t.ft.reqNodes (t.ft.comm q.commId).ftRequests (xs.erase r)

/-- **Exactly one call takes effect**, and its error is the one the request ends
with. -/
def ExactlyOnce (env : Env) (s : State) (r : ReqId) (x : Calls) : Prop :=
  ∃ k q, x.calls.filter (·.state = .completed) = [k] ∧ s.core.requests r = some q ∧
    CompletedOnce env s x.state r q k.err

/-- No call makes its check while another one is between its check and its body. -/
def Alone (x : Calls) : CallAction → Prop
  | .check _ _ => x.Done
  | _ => True

instance (x : Calls) : DecidablePred (Alone x) := fun a => by
  cases a <;> unfold Alone <;> infer_instance

variable {env : Env} {s t : State} {r : ReqId} {c : CommId}

/-! ### One call on its own -/

/-- What is left of the list of `c` after `on_request_complete`. -/
theorem onRequestComplete_list (s : Ft) (r : ReqId) (hc : c ∈ s.commIds) (source : CommId)
    (err now : ℤ) :
    (onRequestComplete s r c source err now).reqNodes = (eraseRequest s r c).reqNodes ∧
      ∀ d, ((onRequestComplete s r c source err now).comm d).ftRequests =
        ((eraseRequest s r c).comm d).ftRequests := by
  have hany : (eraseAnyRequest (eraseRequest s r c) r c).reqNodes = (eraseRequest s r c).reqNodes ∧
      (eraseAnyRequest (eraseRequest s r c) r c).comm = (eraseRequest s r c).comm := by
    unfold eraseAnyRequest
    split <;> exact ⟨rfl, rfl⟩
  unfold onRequestComplete
  rw [if_pos hc]
  split
  case isFalse => exact ⟨hany.1, fun d => by rw [hany.2]⟩
  case isTrue =>
    unfold touchComm
    dsimp only
    split
    case isFalse => exact ⟨hany.1, fun d => by rw [hany.2]⟩
    case isTrue =>
      refine ⟨hany.1, fun d => ?_⟩
      rw [Ft.setComm_comm, ← hany.2]
      split
      case isTrue hd => rw [hd]
      case isFalse => rfl

/-- `complete` of an outstanding request completes it once. -/
theorem completedOnce_complete (hs : env.faultTolerance = true → Tracked s)
    (hr : s.core.onComm r = some c) (err now : ℤ) :
    ∃ q, s.core.requests r = some q ∧ CompletedOnce env s (complete env s r err now) r q err := by
  obtain ⟨q, hq, rfl, -, heq⟩ := @complete_of_onComm_some env _ _ _ err now hr
  refine ⟨q, hq, ?_⟩
  rw [heq]
  constructor
  · rw [completeBody_requests, Function.update_self, hq, Option.map_some]
  · simp only [completeBody, hq]
    obtain ⟨contexts, hctx⟩ := unassign_eq s.core q.waitContext
    simp only [hctx]
    cases q.sharedWaitStruct <;> cases q.callback <;> simp [Core.setRequest]
  · intro w
    obtain ⟨contexts, hctx⟩ := unassign_eq s.core q.waitContext
    simp only [completeBody, hq, hctx]
    cases hw : q.sharedWaitStruct with
    | none => cases q.callback <;> simp [Core.setRequest]
    | some d =>
        by_cases hd : w = d
        · subst hd
          cases q.callback <;> simp [Core.setRequest]
        · cases q.callback <;> simp [Core.setRequest, hd, Ne.symm hd]
  · intro hft
    have htr := hs hft
    have hc := Tracks.there htr r _ hr
    obtain ⟨xs, hrep, hmem⟩ := htr.rep _ hc
    have hx : r ∈ xs := (hmem r).2 hr
    obtain ⟨hnodes, hlist⟩ := onRequestComplete_list s.ft r hc q.source err now
    refine ⟨xs, hrep, hx, ?_⟩
    simp only [hft, if_true]
    rw [hnodes, hlist, eraseRequest, Ft.setComm_comm, if_pos rfl]
    exact hrep.erase hx

/-- A call that runs alone on an outstanding request is `complete`. -/
theorem call_alone (hr : s.core.onComm r = some c) (err now : ℤ) :
    exec (callStep env r) ⟨s, []⟩ [.check err now, .onRequestComplete 0, .body 0] =
      some ⟨complete env s r err now, [⟨err, now, .completed⟩]⟩ := by
  obtain ⟨q, hq, rfl, -, heq⟩ := @complete_of_onComm_some env _ _ _ err now hr
  simp [callStep, hr, heq, completeFt, hq]

/-- A call on a completed request is `complete` too. -/
theorem call_completed (hr : s.core.onComm r = none) (err now : ℤ) :
    exec (callStep env r) ⟨s, []⟩ [.check err now] =
      some ⟨complete env s r err now, [⟨err, now, .returned⟩]⟩ := by
  simp [callStep, hr, complete_of_onComm_none hr]

/-! ### Calls that do not overlap -/

/-- How the calls stand as long as none makes its check while another one is under
way: the first one goes through its steps, and those after it return. -/
inductive Phase (env : Env) (s : State) (r : ReqId) (x : Calls) : Prop where
  | none (hstate : x.state = s) (hcalls : x.calls = [])
  | checked (err now : ℤ) (hstate : x.state = s) (hcalls : x.calls = [⟨err, now, .checked⟩])
  | erased (err now : ℤ) (hstate : x.state = ⟨s.core, completeFt env s r err now⟩)
      (hcalls : x.calls = [⟨err, now, .erased⟩])
  | completed (err now : ℤ) (ks : List CompleteCall)
      (hstate : x.state = complete env s r err now)
      (hcalls : x.calls = ⟨err, now, .completed⟩ :: ks) (hks : ∀ k ∈ ks, k.state = .returned)

/-- Two calls have found the request outstanding. -/
def Calls.Twice (x : Calls) : Prop := 2 ≤ x.calls.countP (·.state ≠ .returned)

/-- The calls that found the request outstanding stay such. -/
theorem Calls.Twice.step {x y : Calls} {a : CallAction} (h : x.Twice)
    (hy : callStep env r x a = some y) : y.Twice := by
  have hset : ∀ (i : ℕ) (k k' : CompleteCall), x.calls[i]? = some k → k.state ≠ .returned →
      k'.state ≠ .returned →
      (x.calls.set i k').countP (·.state ≠ .returned) = x.calls.countP (·.state ≠ .returned) := by
    intro i k k' hk hstate hstate'
    obtain ⟨hi, rfl⟩ := List.getElem?_eq_some_iff.1 hk
    have hpos : 0 < x.calls.countP (·.state ≠ .returned) :=
      List.countP_pos_iff.2 ⟨_, List.getElem_mem hi, by simpa using hstate⟩
    rw [List.countP_set hi]
    simp only [ne_eq, hstate, hstate', not_false_eq_true, decide_true, if_true] at hpos ⊢
    omega
  cases a with
  | check err now =>
      obtain rfl := Option.some.inj hy
      exact Nat.le_trans h (by simp [List.countP_append])
  | onRequestComplete i =>
      simp only [callStep] at hy
      split at hy
      case h_1 err now hk =>
        obtain rfl := Option.some.inj hy
        unfold Calls.Twice
        rw [hset i _ _ hk (by simp) (by simp)]
        exact h
      case h_2 => cases hy
  | body i =>
      simp only [callStep] at hy
      split at hy
      case h_1 err now hk =>
        obtain rfl := Option.some.inj hy
        unfold Calls.Twice
        rw [hset i _ _ hk (by simp) (by simp)]
        exact h
      case h_2 => cases hy

/-- At most one call has found the request outstanding. -/
theorem Phase.not_twice {x : Calls} (h : Phase env s r x) : ¬ x.Twice := by
  unfold Calls.Twice
  cases h with
  | none hstate hcalls => simp [hcalls]
  | checked err now hstate hcalls => simp [hcalls]
  | erased err now hstate hcalls => simp [hcalls]
  | completed err now ks hstate hcalls hks =>
      have : ks.countP (·.state ≠ .returned) = 0 :=
        List.countP_eq_zero.2 fun k hk => by simp [hks k hk]
      rw [hcalls, List.countP_cons, this]
      simp

/-- What one step does to calls that do not overlap: they still do not, unless it is a
check while another call is under way. -/
theorem Phase.step {x y : Calls} {a : CallAction} (h : Phase env s r x)
    (hr : s.core.onComm r = some c) (hy : callStep env r x a = some y) :
    (Alone x a ∧ Phase env s r y) ∨ (¬ Alone x a ∧ y.Twice) := by
  cases h with
  | none hstate hcalls =>
      cases a with
      | check err now =>
          obtain rfl := Option.some.inj hy
          exact .inl ⟨by simp [Alone, Calls.Done, hcalls],
            .checked err now hstate (by simp [hcalls, hstate, hr])⟩
      | onRequestComplete i => simp [callStep, hcalls] at hy
      | body i => simp [callStep, hcalls] at hy
  | checked err now hstate hcalls =>
      cases a with
      | check err' now' =>
          obtain rfl := Option.some.inj hy
          exact .inr ⟨by simp [Alone, Calls.Done, hcalls],
            by simp [Calls.Twice, hcalls, hstate, hr]⟩
      | onRequestComplete i =>
          cases i with
          | zero =>
              obtain rfl : _ = y := by simpa [callStep, hcalls] using hy
              exact .inl ⟨trivial, .erased err now (by simp [hstate]) rfl⟩
          | succ i => simp [callStep, hcalls] at hy
      | body i => cases i <;> simp [callStep, hcalls] at hy
  | erased err now hstate hcalls =>
      cases a with
      | check err' now' =>
          obtain rfl := Option.some.inj hy
          refine .inr ⟨by simp [Alone, Calls.Done, hcalls], ?_⟩
          simp [Calls.Twice, hcalls, hstate, hr]
      | onRequestComplete i => cases i <;> simp [callStep, hcalls] at hy
      | body i =>
          cases i with
          | zero =>
              obtain rfl : _ = y := by simpa [callStep, hcalls] using hy
              obtain ⟨q, hq, rfl, -, heq⟩ := @complete_of_onComm_some env _ _ _ err now hr
              refine .inl ⟨trivial, .completed err now [] ?_ rfl (by simp)⟩
              rw [heq]
              simp [hstate, completeFt, hq]
          | succ i => simp [callStep, hcalls] at hy
  | completed err now ks hstate hcalls hks =>
      have hdone : x.Done := by
        simp only [Calls.Done, hcalls, List.mem_cons, forall_eq_or_imp]
        exact ⟨.inl trivial, fun k hk => .inr (hks k hk)⟩
      cases a with
      | check err' now' =>
          obtain rfl := Option.some.inj hy
          refine .inl ⟨hdone, .completed err now (ks ++ [⟨err', now', .returned⟩]) hstate ?_ ?_⟩
          · simp [hcalls, hstate, complete_onComm]
          · intro k hk
            rcases List.mem_append.1 hk with hk | hk
            · exact hks k hk
            · rw [List.mem_singleton.1 hk]
      | onRequestComplete i =>
          simp only [callStep] at hy
          split at hy
          case h_1 hk => simpa using hdone _ (List.mem_of_getElem? hk)
          case h_2 => cases hy
      | body i =>
          simp only [callStep] at hy
          split at hy
          case h_1 hk => simpa using hdone _ (List.mem_of_getElem? hk)
          case h_2 => cases hy

/-- **When completion is exactly-once.**  One or more calls of `complete` for an outstanding
request run to their ends, in any interleaving.  Exactly one takes effect if and only
if no call makes its check while another one is between its check and its body. -/
theorem exactlyOnce_iff (env : Env) (s : State) (hs : Reachable (engineStep env) Fresh s)
    (r : ReqId) (c : CommId) (hr : s.core.onComm r = some c) (as : List CallAction) (x : Calls)
    (hx : exec (callStep env r) ⟨s, []⟩ as = some x) (hcalls : x.calls ≠ []) (hdone : x.Done) :
    ExactlyOnce env s r x ↔ Meets (callStep env r) Alone ⟨s, []⟩ as := by
  have hkeep : ∀ x a y, Phase env s r x → Alone x a → callStep env r x a = some y →
      Phase env s r y := fun x a y h hG hy => by
    rcases h.step hr hy with ⟨-, h'⟩ | ⟨hG', -⟩
    · exact h'
    · exact absurd hG hG'
  have hinit : Phase env s r ⟨s, []⟩ := .none rfl rfl
  have hiff := meets_iff_not hkeep
    (fun x a y h hG hy => ((h.step hr hy).resolve_left fun h' => hG h'.1).2)
    (fun x a y h hy => h.step hy) (fun x h => h.not_twice) hinit hx
  constructor
  · rintro ⟨k, q, hfilter, -, -⟩
    refine hiff.2 fun htwice => ?_
    -- every call that found the request outstanding is through
    have hsame : x.calls.countP (·.state ≠ .returned) = x.calls.countP (·.state = .completed) :=
      List.countP_congr fun l hl => by rcases hdone l hl with h | h <;> simp [h]
    rw [Calls.Twice, hsame, List.countP_eq_length_filter, hfilter] at htwice
    simp at htwice
  · intro hG
    have hphase := (always_of_meets hkeep hinit hG).last hx
    cases hphase with
    | none hstate hnil => exact absurd hnil hcalls
    | checked err now hstate hcalls =>
        simpa using hdone ⟨err, now, .checked⟩ (by simp [hcalls])
    | erased err now hstate hcalls =>
        simpa using hdone ⟨err, now, .erased⟩ (by simp [hcalls])
    | completed err now ks hstate hcalls hks =>
        obtain ⟨q, hq, honce⟩ := completedOnce_complete (fun hft => (reachable_tracked hft hs).1) hr
          err now
        refine ⟨⟨err, now, .completed⟩, q, ?_, hq, hstate ▸ honce⟩
        rw [hcalls, List.filter_cons_of_pos (by simp), List.filter_eq_nil_iff.2]
        exact fun k hk => by simp [hks k hk]

/-- A fresh endpoint with a peer; the user's requests have a callback and are waited
for. -/
def watchedPeer : State :=
  let s := freshState {7} (fun _ => 7) 0
  ⟨s.core.setRequest (.user 0)
    (some { LfiRequest.new 7 with sharedWaitStruct := some 3, callback := some 9 }), s.ft⟩

theorem fresh_watchedPeer : Fresh watchedPeer := by
  refine { fresh_freshState {7} (fun _ => 7) 0 with onComm := fun r => ?_, noHeartbeat := ?_ }
  · by_cases h : r = .user 0
    · subst h; rfl
    · exact (Core.onComm_congr (by simp [watchedPeer, Core.setRequest, h])).trans
        ((fresh_freshState {7} (fun _ => 7) 0).onComm r)
  · exact fun c => (fresh_freshState {7} (fun _ => 7) 0).noHeartbeat c

/-- A receive is posted on it. -/
def receiving : State :=
  (exec (engineStep Env.default) watchedPeer [.post 0 (.recv 5 8 1 false false)]).get (by decide)

theorem reachable_receiving : Reachable (engineStep Env.default) Fresh receiving :=
  ⟨watchedPeer, [.post 0 (.recv 5 8 1 false false)], fresh_watchedPeer, (Option.some_get _).symm⟩

/-- The leader completes the receive, and a cancel comes too late. -/
def lateCancel : List CallAction :=
  [.check 0 5, .onRequestComplete 0, .body 0, .check (-3) 0]

/-- The cancel makes its check before the leader is through. -/
def racingCancel : List CallAction :=
  [.check 0 5, .check (-3) 0, .onRequestComplete 0, .onRequestComplete 1, .body 0, .body 1]

/-- Where a run of calls leads. -/
def callsEnd (as : List CallAction)
    (h : (exec (callStep Env.default (.user 0)) ⟨receiving, []⟩ as).isSome) : Calls :=
  (exec (callStep Env.default (.user 0)) ⟨receiving, []⟩ as).get h

/-- `exactlyOnce_iff` at a cancel that comes too late. -/
theorem exactlyOnce_lateCancel :
    ExactlyOnce Env.default receiving (.user 0) (callsEnd lateCancel (by decide)) ↔
      Meets (callStep Env.default (.user 0)) Alone ⟨receiving, []⟩ lateCancel :=
  exactlyOnce_iff Env.default receiving reachable_receiving (.user 0) 7 (by decide) lateCancel
    (callsEnd lateCancel (by decide)) (Option.some_get _).symm (by decide) (by decide)

/-- **A racing cancel completes a second time.**  The callback is queued with both
errors. -/
theorem exactlyOnce_racingCancel :
    ¬ ∀ (env : Env) (s : State), Reachable (engineStep env) Fresh s → ∀ (r : ReqId) (c : CommId),
      s.core.onComm r = some c → ∀ (as : List CallAction) (x : Calls),
      exec (callStep env r) ⟨s, []⟩ as = some x → x.calls ≠ [] → x.Done →
      ExactlyOnce env s r x := by
  intro h
  obtain ⟨k, q, -, hq, honce⟩ := h Env.default receiving reachable_receiving (.user 0) 7 (by decide)
    racingCancel (callsEnd racingCancel (by decide)) (Option.some_get _).symm
    (by decide) (by decide)
  have htwo : (callsEnd racingCancel (by decide)).state.core.callbacks = [(9, 0), (9, -3)] := by
    decide
  have hlen := congrArg List.length honce.callbacks
  rw [htwo, List.length_append, show receiving.core.callbacks = [] by decide] at hlen
  cases hf : q.callback <;> simp [hf] at hlen

end Impl
end Lfi
