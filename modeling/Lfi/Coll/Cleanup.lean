/-
# Null pointers behind the label `error`

A collective that cannot create a request puts the null pointer into `requests` and lets the
posting call refuse it.  The call goes to `error`, `lfi_cancel` and `lfi_request_free` let the
null pointer pass, and `lfi_wait_all` between them does not.

Everything else is in order (`collective_safe`): behind `error` all requests are completed, be it
that they were never posted or that `lfi_cancel` has completed them, so the wait is over at once,
and each request is freed once.
-/

import Lfi.Coll.Labels
import Lfi.Impl.Cleared

namespace Lfi
namespace Coll

open Impl (PostCall asyncPost LfiRequest FabricEvent)
open Runs

variable {env : Bool → Impl.Env} {s t : CollState}

/-- **What is promised.**  No array with a null pointer gets to `wait_num` or `wait`; after a
failed posting call the call returns its negative code; requests are freed in the order in which
they were created, each of them once and all of them until the call returns, and each is
completed before. -/
structure Safe (s : CollState) : Prop where
  noNull : ∀ l ∈ s.passed, none ∉ l
  code : ∀ v, s.failed = some v → v < 0 ∧ ∀ ret, s.pc = .returned ret → ret = v
  once : s.freed.map Prod.fst <+: s.created
  all : ∀ ret, s.pc = .returned ret → s.freed.map Prod.fst = s.created
  completed : ∀ f ∈ s.freed, f.2 = true

/-- The communicator the next request is for. -/
def CollState.asks (s : CollState) : Option ℤ :=
  match s.pc with
  | .run (.post o :: _) => o.comm
  | _ => none

/-- `lfi_request_create` gives a request: the communicator is there, and so is the memory. -/
def Creates (s : CollState) : CollAction → Prop
  | .create k => ∀ id ∈ s.asks, s.lookup id ≠ none ∧ k ≠ none
  | _ => True

/-- Unless a posting call has failed, the number of requests fits the `int` of `wait_num`. -/
def Fits (s : CollState) : CollAction → Prop
  | .wait => s.failed = none → s.requests.length < 2 ^ 31
  | _ => True

instance (s : CollState) : DecidablePred (Creates s)
  | .create _ => inferInstanceAs (Decidable (∀ _ ∈ _, _))
  | .post | .jump | .cancel _ | .wait | .free _ | .others .. => .isTrue trivial

instance (s : CollState) : DecidablePred (Fits s)
  | .wait => inferInstanceAs (Decidable (_ → _))
  | .create _ | .post | .jump | .cancel _ | .free _ | .others .. => .isTrue trivial

/-! ### What a step does -/

/-- The steps of a call. -/
inductive CollMoves (env : Bool → Impl.Env) (s : CollState) : CollAction → CollState → Prop where
  | noRanks {o program k} (hp : s.pc = .run (.post o :: program)) (ho : o.comm = none) :
      CollMoves env s (.create k) { s with pc := .fault }
  | createNull {o program k id} (hp : s.pc = .run (.post o :: program)) (ho : o.comm = some id)
      (hnull : s.lookup id = none ∨ k = none) :
      CollMoves env s (.create k) { s with
        requests := s.requests ++ [none]
        pc := .post none o.call program }
  | create {o program k id shm} (hp : s.pc = .run (.post o :: program)) (ho : o.comm = some id)
      (hcomm : s.lookup id = some shm) (hfree : (s.ep shm).core.requests (.user k) = none) :
      CollMoves env s (.create (some k))
        { s.setEp shm ⟨(s.ep shm).core.setRequest (.user k)
            (some (LfiRequest.new (CollState.commId id))), (s.ep shm).ft⟩ with
          requests := s.requests ++ [some ⟨shm, k⟩]
          created := s.created ++ [⟨shm, k⟩]
          pc := .post (some ⟨shm, k⟩) o.call program }
  | refused {req call program} (hp : s.pc = .post req call program)
      (hret : (s.postAsync env req call).1 < 0) :
      CollMoves env s .post { s with
        failed := some (s.postAsync env req call).1
        pc := .cancel 0 (s.postAsync env req call).1 }
  | posted {h call program} (hp : s.pc = .post (some h) call program) :
      CollMoves env s .post
        { s.setEp h.shm (asyncPost (env h.shm) (s.ep h.shm) (.user h.req) call).2 with
          pc := .run program }
  | jump {pc} (hp : (∃ program, s.pc = .run program) ∧ ((∃ program, pc = .run program) ∨
        (∃ after, pc = .wait after) ∨ ∃ ret, pc = .cancel 0 ret)) :
      CollMoves env s .jump { s with pc := pc }
  | cancel {i ret req events} (hp : s.pc = .cancel i ret) (hreq : s.requests[i]? = some req) :
      CollMoves env s (.cancel events)
        { s.cancelRequest env req events with pc := .cancel (i + 1) ret }
  | cancelled {i ret events} (hp : s.pc = .cancel i ret) (hi : s.requests.length ≤ i) :
      CollMoves env s (.cancel events) { s with pc := .wait (.done ret) }
  | fault {after} (hp : s.pc = .wait after) (hnull : none ∈ s.awaited) :
      CollMoves env s .wait { s with passed := s.passed ++ [s.requests], pc := .fault }
  | waited {after} (hp : s.pc = .wait after) (hnull : none ∉ s.awaited)
      (hall : ∀ h ∈ s.awaited.reduceOption, s.isCompleted h = true) :
      CollMoves env s .wait { s with passed := s.passed ++ [s.requests], pc := .free 0 after }
  | free {i after req events} (hp : s.pc = .free i after) (hreq : s.requests[i]? = some req) :
      CollMoves env s (.free events)
        { s.freeRequest env req events with pc := .free (i + 1) after }
  | cleared {i program events} (hp : s.pc = .free i (.more program))
      (hi : s.requests.length ≤ i) :
      CollMoves env s (.free events) { s with requests := [], pc := .run program }
  | returned {i ret events} (hp : s.pc = .free i (.done ret)) (hi : s.requests.length ≤ i) :
      CollMoves env s (.free events) { s with pc := .returned ret }
  | others {shm ep} (h : ∀ h ∈ s.pending.reduceOption, h.shm = shm → Spares (s.ep shm) ep h.req) :
      CollMoves env s (.others shm ep) (s.setEp shm ep)

@[simp] theorem CollState.setEp_self (s : CollState) (shm : Bool) :
    s.setEp shm (s.ep shm) = s := by
  simp [CollState.setEp]

/-- A posting call that fails leaves everything as it is. -/
theorem CollState.postAsync_failed {req : Option Handle} {call : PostCall}
    (h : (s.postAsync env req call).1 < 0) : (s.postAsync env req call).2 = s := by
  cases req with
  | none => rfl
  | some h' =>
    simp only [postAsync] at h ⊢
    rcases Impl.asyncPost_cases (env h'.shm) (s.ep h'.shm) (.user h'.req) call with
      ⟨-, heq⟩ | ⟨_, _, _, _, -, -, -, -, -, heq⟩
    · rw [heq, setEp_self]
    · rw [heq] at h
      exact absurd h (by simp [Impl.lfiSuccess])

/-- **What a step can do.** -/
theorem collStep_cases {a : CollAction} (ht : collStep env s a = some t) : CollMoves env s a t := by
  cases a with
  | create k =>
    simp only [collStep] at ht
    split at ht
    case h_2 => cases ht
    case h_1 o program hp =>
      split at ht
      case h_1 ho => exact Option.some.inj ht ▸ .noRanks hp ho
      case h_2 id ho =>
        obtain ⟨p, hcreate, rfl⟩ := Option.map_eq_some_iff.1 ht
        cases hcomm : s.lookup id with
        | none =>
          simp only [CollState.requestCreate, hcomm] at hcreate
          exact Option.some.inj hcreate ▸ .createNull hp ho (.inl hcomm)
        | some shm =>
          cases k with
          | none =>
            simp only [CollState.requestCreate, hcomm] at hcreate
            exact Option.some.inj hcreate ▸ .createNull hp ho (.inr rfl)
          | some k =>
            simp only [CollState.requestCreate, hcomm] at hcreate
            obtain ⟨hfree, hcreate⟩ := Option.ite_none_right_eq_some.1 hcreate
            exact Option.some.inj hcreate ▸ .create hp ho hcomm hfree
  | post =>
    simp only [collStep] at ht
    split at ht
    case h_2 => cases ht
    case h_1 req call program hp =>
      obtain rfl := Option.some.inj ht
      split
      case isTrue hret =>
        rw [CollState.postAsync_failed hret]
        exact .refused hp hret
      case isFalse hret =>
        cases req with
        | none => exact absurd (show -lfiNullRequest < 0 by decide) hret
        | some h => exact .posted hp
  | jump =>
    simp only [collStep] at ht
    split at ht
    case h_1 hp => exact Option.some.inj ht ▸ .jump ⟨⟨_, hp⟩, .inr (.inl ⟨_, rfl⟩)⟩
    case h_2 hp => exact Option.some.inj ht ▸ .jump ⟨⟨_, hp⟩, .inr (.inl ⟨_, rfl⟩)⟩
    case h_3 hp => exact Option.some.inj ht ▸ .jump ⟨⟨_, hp⟩, .inl ⟨_, rfl⟩⟩
    case h_4 hp => exact Option.some.inj ht ▸ .jump ⟨⟨_, hp⟩, .inr (.inr ⟨_, rfl⟩)⟩
    case h_5 => cases ht
  | cancel events =>
    simp only [collStep] at ht
    split at ht
    case h_2 => cases ht
    case h_1 i ret hp =>
      split at ht
      case h_1 req hreq => exact Option.some.inj ht ▸ .cancel hp hreq
      case h_2 hi => exact Option.some.inj ht ▸ .cancelled hp (List.getElem?_eq_none_iff.1 hi)
  | wait =>
    simp only [collStep] at ht
    split at ht
    case h_2 => cases ht
    case h_1 after hp =>
      split at ht
      case isTrue hnull => exact Option.some.inj ht ▸ .fault hp hnull
      case isFalse hnull =>
        obtain ⟨hall, ht⟩ := Option.ite_none_right_eq_some.1 ht
        exact Option.some.inj ht ▸ .waited hp hnull hall
  | free events =>
    simp only [collStep] at ht
    split at ht
    case h_2 => cases ht
    case h_1 i after hp =>
      split at ht
      case h_1 req _ hreq => exact Option.some.inj ht ▸ .free hp hreq
      case h_2 hi => exact Option.some.inj ht ▸ .cleared hp (List.getElem?_eq_none_iff.1 hi)
      case h_3 hi => exact Option.some.inj ht ▸ .returned hp (List.getElem?_eq_none_iff.1 hi)
  | others shm ep =>
    obtain ⟨hspares, ht⟩ := Option.ite_none_right_eq_some.1 ht
    exact Option.some.inj ht ▸ .others hspares

/-! ### What happens to the requests -/

theorem completed_iff {s : Impl.State} {k : ℕ} :
    completed s k = true ↔
      s.core.requests (.user k) ≠ none ∧ s.core.onComm (.user k) = none := by
  unfold completed Impl.Core.onComm
  cases s.core.requests (.user k) with
  | none => simp
  | some q => simp

/-- A request that is left alone. -/
theorem spares_of_eq {s t : Impl.State} {k : ℕ}
    (h : t.core.requests (.user k) = s.core.requests (.user k)) : Spares s t k := by
  unfold Spares completed
  rw [h]
  exact ⟨id, id⟩

theorem Spares.trans {s t u : Impl.State} {k : ℕ} (h₁ : Spares s t k) (h₂ : Spares t u k) :
    Spares s u k :=
  ⟨fun hk => h₂.1 (h₁.1 hk), fun hk => h₂.2 (h₁.2 hk)⟩

section Endpoint

variable {e : Impl.Env} {s : Impl.State} {k : ℕ} {r : Impl.ReqId}

/-- What progress leaves there it spares. -/
theorem spares_of_progressed {t : Impl.State} (hstay : Impl.Stay s t) (hp : Impl.Progressed s t) :
    Spares s t k := by
  refine ⟨hstay (.user k), fun hdone => ?_⟩
  obtain ⟨hk, hon⟩ := completed_iff.1 hdone
  refine completed_iff.2 ⟨hstay _ hk, ?_⟩
  rcases hp.onComm (.user k) with h | h
  · rw [h, hon]
  · exact h

theorem spares_cancel (events : List FabricEvent) : Spares s (Impl.cancel e s r events) k :=
  spares_of_progressed (Impl.Stay.cancel (fun _ h => h) r events) (Impl.cancel_progressed r events)

/-- `lfi_cancel` completes a request that is there. -/
theorem cancel_completed (h : s.core.requests (.user k) ≠ none) (events : List FabricEvent) :
    completed (Impl.cancel e s (.user k) events) k = true :=
  completed_iff.2 ⟨(spares_cancel events).1 h, Impl.cancel_onComm _ events⟩

/-- Freeing a request spares the others. -/
theorem spares_requestFree (hr : r ≠ .user k) (events : List FabricEvent) :
    Spares s (Impl.requestFree e s r events) k :=
  Impl.requestFree_induction (P := fun t => Spares s t k)
    (fun _ h => h.trans (spares_cancel events))
    (fun _ _ h => h.trans (spares_of_eq (Function.update_of_ne hr.symm ..))) ⟨id, id⟩

/-- No post takes a request away. -/
theorem asyncPost_there (call : PostCall) (h : s.core.requests (.user k) ≠ none) :
    (asyncPost e s r call).2.core.requests (.user k) ≠ none := by
  by_cases hr : Impl.ReqId.user k = r
  · subst hr
    rcases Impl.asyncPost_cases e s (.user k) call with ⟨-, heq⟩ |
      ⟨q, f, o, priority, hq, -, -, -, -, heq⟩
    · rwa [heq]
    · obtain ⟨ctx, hctx⟩ := Impl.postCore_request hq f o priority
      rw [heq]
      show (Impl.postCore s.core (.user k) f o priority).requests (.user k) ≠ none
      rw [hctx]
      exact Option.some_ne_none _
  · rwa [Impl.asyncPost_requests_of_ne hr]

/-- The thread neither posts nor frees the request. -/
def Elsewhere (k : ℕ) : Impl.PartAction → Prop
  | .post k' _ => k' ≠ k
  | .free k' _ => k' ≠ k
  | _ => True

theorem spares_cancelComm (events : Impl.ReqId → List FabricEvent) (c : Impl.CommId) :
    Spares s (Impl.cancelComm e events s c) k := by
  have hmark : Spares s (Impl.markCanceled s c) k := spares_of_eq rfl
  have hloop : Spares (Impl.markCanceled s c) (Impl.cancelRequests e events c
      ((Impl.markCanceled s c).ft.comm c).ftRequests.size.toNat (Impl.markCanceled s c)) k :=
    spares_of_progressed (Impl.Stay.cancelRequests (fun _ h => h) events c _)
      (Impl.cancelRequests_progressed events c _)
  have hfree : Spares _ (Impl.cancelComm e events s c) k :=
    spares_requestFree (r := .heartbeat c) (fun h => by cases h) []
  exact (hmark.trans hloop).trans hfree

/-- **What other threads do spares the requests of the call.**  So `others` stands for each part
of their calls. -/
theorem spares_partStep {t : Impl.State} {a : Impl.PartAction} (ht : Impl.partStep e s a = some t)
    (ha : Elsewhere k a) : Spares s t k := by
  cases a with
  | post k' call =>
    obtain ⟨-, ht⟩ := Option.ite_none_right_eq_some.1 ht
    obtain rfl := Option.some.inj ht
    exact spares_of_eq (Impl.asyncPost_requests_of_ne (fun h => ha (by cases h; rfl)) call)
  | fabric event =>
    obtain rfl := Option.some.inj ht
    exact spares_of_progressed (Impl.Stay.fabricEvent (fun _ h => h) event)
      (Impl.fabricEvent_progressed event)
  | cancel r events =>
    obtain rfl := Option.some.inj ht
    exact spares_cancel events
  | free k' events =>
    obtain rfl := Option.some.inj ht
    exact spares_requestFree (fun h => ha (by cases h; rfl)) events
  | processComm now beat c =>
    obtain rfl := Option.some.inj ht
    exact spares_of_eq (Impl.processComm_user now beat s c k)
  | cancelComm c events =>
    obtain rfl := Option.some.inj ht
    exact spares_cancelComm events c
  | reportTo r c =>
    obtain rfl := Option.some.inj ht
    by_cases hr : Impl.ReqId.user k = r
    · subst hr
      unfold Spares completed Impl.reportTo Impl.Core.setRequest
      cases s.core.requests (.user k) <;> simp [LfiRequest.isCompleted]
    · exact spares_of_eq (Function.update_of_ne hr ..)
  | note pending canceled toCancel last count failed =>
    obtain rfl := Option.some.inj ht
    exact spares_of_eq rfl
  | closeComm c events =>
    obtain rfl := Option.some.inj ht
    unfold Impl.closeComm
    split
    case isFalse => exact ⟨id, id⟩
    case isTrue =>
      dsimp only
      split
      case isTrue => exact (spares_cancelComm events c).trans (spares_of_eq rfl)
      case isFalse => exact spares_of_eq rfl

end Endpoint

/-! ### Calls that create all their requests -/

/-- The request is there. -/
def CollState.There (s : CollState) (h : Handle) : Prop :=
  (s.ep h.shm).core.requests (.user h.req) ≠ none

/-- The requests that must be completed by now: those that were cancelled, all behind the label
`error`, and those that are to be freed. -/
def CollState.settled (s : CollState) : List (Option Handle) :=
  match s.pc with
  | .cancel i _ => s.requests.take i
  | .wait _ => if s.failed = none then [] else s.requests
  | .free i _ => s.requests.drop i
  | _ => []

/-- The call is behind `error`, and returns `v` in the end. -/
def ReturnsWith (v : ℤ) : CollPc → Prop
  | .cancel _ ret | .wait (.done ret) | .free _ (.done ret) | .returned ret => ret = v
  | _ => False

/-- What holds as long as every `lfi_request_create` gives a request.  The ledger says that a
request that was created is freed, or in `requests` and not there twice. -/
structure Orderly (s : CollState) : Prop where
  ledger : s.created = s.freed.map Prod.fst ++ s.pending.reduceOption
  there : ∀ h ∈ s.pending.reduceOption, s.There h
  nodup : s.pending.reduceOption.Nodup
  noNull : none ∉ s.requests
  passed : ∀ l ∈ s.passed, none ∉ l
  freed : ∀ f ∈ s.freed, f.2 = true
  settled : ∀ h ∈ s.settled.reduceOption, s.isCompleted h = true
  failed : ∀ v, s.failed = some v → v < 0 ∧ ReturnsWith v s.pc

theorem CollState.pending_eq {pc : CollPc} (hp : s.pc = pc) :
    s.pending = CollState.pending { s with pc := pc } := by
  rw [← hp]

theorem CollState.settled_eq {pc : CollPc} (hp : s.pc = pc) :
    s.settled = CollState.settled { s with pc := pc } := by
  rw [← hp]

theorem Orderly.returnsWith (h : Orderly s) {pc : CollPc} {v : ℤ} (hp : s.pc = pc)
    (hv : s.failed = some v) : ReturnsWith v pc := by
  rw [← hp]
  exact (h.failed v hv).2

theorem CollState.settled_subset (s : CollState) {h : Handle} (hh : h ∈ s.settled.reduceOption) :
    h ∈ s.pending.reduceOption := by
  rw [List.reduceOption_mem_iff] at hh ⊢
  unfold settled at hh
  unfold pending
  split at hh
  case h_1 hp => rw [hp]; exact List.mem_of_mem_take hh
  case h_2 hp =>
    rw [hp]
    split at hh
    case isTrue => cases hh
    case isFalse => exact hh
  case h_3 hp => rw [hp]; exact hh
  case h_4 => cases hh

theorem CollState.There.setEp {shm : Bool} {ep : Impl.State} {x : Handle} (hx : s.There x)
    (h : x.shm = shm → (s.ep shm).core.requests (.user x.req) ≠ none →
      ep.core.requests (.user x.req) ≠ none) : (s.setEp shm ep).There x := by
  show (Function.update s.ep shm ep x.shm).core.requests (.user x.req) ≠ none
  by_cases hside : x.shm = shm
  · subst hside
    rw [Function.update_self]
    exact h rfl hx
  · rw [Function.update_of_ne hside]
    exact hx

theorem CollState.isCompleted_setEp {shm : Bool} {ep : Impl.State} {x : Handle}
    (hx : s.isCompleted x = true)
    (h : x.shm = shm → completed (s.ep shm) x.req = true → completed ep x.req = true) :
    (s.setEp shm ep).isCompleted x = true := by
  show completed (Function.update s.ep shm ep x.shm) x.req = true
  by_cases hside : x.shm = shm
  · subst hside
    rw [Function.update_self]
    exact h rfl hx
  · rw [Function.update_of_ne hside]
    exact hx

/-- An endpoint changes under a call. -/
theorem Orderly.setEp (h : Orderly s) (shm : Bool) (ep : Impl.State)
    (hthere : ∀ x ∈ s.pending.reduceOption, x.shm = shm →
      (s.ep shm).core.requests (.user x.req) ≠ none → ep.core.requests (.user x.req) ≠ none)
    (hdone : ∀ x ∈ s.settled.reduceOption, x.shm = shm →
      completed (s.ep shm) x.req = true → completed ep x.req = true) :
    Orderly (s.setEp shm ep) where
  ledger := h.ledger
  there x hx := (h.there x hx).setEp (hthere x hx)
  nodup := h.nodup
  noNull := h.noNull
  passed := h.passed
  freed := h.freed
  settled x hx := CollState.isCompleted_setEp (h.settled x hx) (hdone x hx)
  failed := h.failed

/-- Every request of the call is spared. -/
theorem Orderly.spare (h : Orderly s) (shm : Bool) (ep : Impl.State)
    (hspares : ∀ x ∈ s.pending.reduceOption, x.shm = shm → Spares (s.ep shm) ep x.req) :
    Orderly (s.setEp shm ep) :=
  h.setEp shm ep (fun x hx hside => (hspares x hx hside).1)
    fun x hx hside => (hspares x (s.settled_subset hx) hside).2

/-- The call goes on somewhere else, with the same requests. -/
theorem Orderly.goto (h : Orderly s) {pc : CollPc}
    (hpending : CollState.pending { s with pc := pc } = s.pending)
    (hsettled : ∀ x ∈ (CollState.settled { s with pc := pc }).reduceOption,
      s.isCompleted x = true)
    (hfailed : ∀ v, s.failed = some v → ReturnsWith v pc) : Orderly { s with pc := pc } where
  ledger := by rw [hpending]; exact h.ledger
  there := by rw [hpending]; exact h.there
  nodup := by rw [hpending]; exact h.nodup
  noNull := h.noNull
  passed := h.passed
  freed := h.freed
  settled := hsettled
  failed v hv := ⟨(h.failed v hv).1, hfailed v hv⟩

/-- While the program runs no posting call has failed. -/
theorem Orderly.not_failed (h : Orderly s) (hp : ∀ v, ¬ ReturnsWith v s.pc) : s.failed = none := by
  cases hv : s.failed with
  | none => rfl
  | some v => exact absurd (h.failed v hv).2 (hp v)

/-- A number of requests that fits an `int` is the one `wait_num` gets. -/
theorem CollState.awaited_eq (h : s.requests.length < 2 ^ 31) : s.awaited = s.requests := by
  unfold awaited
  rw [Int.bmod_eq_of_le (by omega) (by omega), Int.toNat_natCast]
  exact List.take_length

/-- A new request, with its communicator there. -/
theorem Orderly.create (h : Orderly s) {o : Posting} {program : List CollInstr} {k : ℕ}
    {shm : Bool} {q : LfiRequest} (hp : s.pc = .run (.post o :: program))
    (hfree : (s.ep shm).core.requests (.user k) = none) :
    Orderly { s.setEp shm ⟨(s.ep shm).core.setRequest (.user k) (some q), (s.ep shm).ft⟩ with
      requests := s.requests ++ [some ⟨shm, k⟩]
      created := s.created ++ [⟨shm, k⟩]
      pc := .post (some ⟨shm, k⟩) o.call program } := by
  have hpending : s.pending = s.requests := CollState.pending_eq hp
  have hthere := h.there
  have hnodup := h.nodup
  have hledger := h.ledger
  rw [hpending] at hthere hnodup hledger
  have hnew : (⟨shm, k⟩ : Handle) ∉ s.requests.reduceOption := fun hmem => hthere _ hmem hfree
  refine ⟨?_, fun x hx => ?_, ?_, ?_, h.passed, h.freed, fun _ hx => (nomatch hx), fun v hv => ?_⟩
  · show s.created ++ _ =
      s.freed.map Prod.fst ++ (s.requests ++ [some (⟨shm, k⟩ : Handle)]).reduceOption
    rw [hledger, List.reduceOption_append, List.append_assoc]
    rfl
  · change x ∈ (s.requests ++ [some (⟨shm, k⟩ : Handle)]).reduceOption at hx
    rw [List.reduceOption_mem_iff, List.mem_append, List.mem_singleton] at hx
    rcases hx with hold | hx
    · refine (hthere x (List.reduceOption_mem_iff.2 hold)).setEp fun hside hs => ?_
      by_cases hk : x.req = k
      · simp [hk, Impl.Core.setRequest]
      · simpa [Impl.Core.setRequest, hk] using hs
    · obtain rfl := Option.some.inj hx
      simp [CollState.There, CollState.setEp, Impl.Core.setRequest]
  · show (s.requests ++ [some (⟨shm, k⟩ : Handle)]).reduceOption.Nodup
    rw [List.reduceOption_append]
    exact hnodup.append (List.nodup_singleton _) (List.disjoint_singleton.2 hnew)
  · show none ∉ s.requests ++ [some (⟨shm, k⟩ : Handle)]
    simpa using h.noNull
  · have hnone := h.not_failed (by simp [hp, ReturnsWith])
    change s.failed = some v at hv
    rw [hnone] at hv
    cases hv

/-- A request is cancelled. -/
theorem Orderly.cancel (h : Orderly s) {i : ℕ} {ret : ℤ} {x : Handle}
    (hp : s.pc = .cancel i ret) (hreq : s.requests[i]? = some (some x))
    (events : List FabricEvent) :
    Orderly { s.cancelRequest env (some x) events with pc := .cancel (i + 1) ret } := by
  have hsettled : s.settled = s.requests.take i := CollState.settled_eq hp
  have hpending : s.pending = s.requests := CollState.pending_eq hp
  have hx : x ∈ s.pending.reduceOption := by
    rw [hpending, List.reduceOption_mem_iff]
    exact List.mem_of_getElem? hreq
  have hset := h.spare x.shm (Impl.cancel (env x.shm) (s.ep x.shm) (.user x.req) events)
    fun y _ _ => spares_cancel events
  refine hset.goto (by simp [CollState.pending, CollState.setEp, hp]) (fun y hy => ?_)
    fun v hv => ?_
  · change y ∈ (s.requests.take (i + 1)).reduceOption at hy
    rw [List.take_add_one, hreq, List.reduceOption_append, List.mem_append] at hy
    rcases hy with hy | hy
    · refine hset.settled y ?_
      show y ∈ s.settled.reduceOption
      rw [hsettled]
      exact hy
    · obtain rfl := List.mem_singleton.1 hy
      show completed (Function.update s.ep y.shm _ y.shm) y.req = true
      rw [Function.update_self]
      exact cancel_completed (h.there y hx) events
  · have hret := h.returnsWith hp hv
    exact hret

/-- The wait is over: every request of the call is completed. -/
theorem Orderly.wait (h : Orderly s) {after : After} (hp : s.pc = .wait after)
    (hfits : s.failed = none → s.requests.length < 2 ^ 31)
    (hall : ∀ x ∈ s.awaited.reduceOption, s.isCompleted x = true) :
    Orderly { s with passed := s.passed ++ [s.requests], pc := .free 0 after } := by
  have hdone : ∀ x ∈ s.requests.reduceOption, s.isCompleted x = true := by
    cases hfailed : s.failed with
    | none =>
      rw [← CollState.awaited_eq (hfits hfailed)]
      exact hall
    | some v =>
      intro x hx
      refine h.settled x ?_
      simpa [CollState.settled, hp, hfailed] using hx
  have hpassed : Orderly { s with passed := s.passed ++ [s.requests] } := by
    refine ⟨h.ledger, h.there, h.nodup, h.noNull, fun l hl => ?_, h.freed, h.settled, h.failed⟩
    rcases List.mem_append.1 hl with hl | hl
    · exact h.passed l hl
    · rw [List.mem_singleton.1 hl]
      exact h.noNull
  refine hpassed.goto (by simp [CollState.pending, hp]) hdone fun v hv => ?_
  have hret := h.returnsWith hp hv
  cases after with
  | more program => exact hret
  | done ret => exact hret

/-- The next request to be freed. -/
theorem reduceOption_drop {l : List (Option Handle)} {i : ℕ} {x : Handle}
    (h : l[i]? = some (some x)) :
    (l.drop i).reduceOption = x :: (l.drop (i + 1)).reduceOption := by
  obtain ⟨hi, hx⟩ := List.getElem?_eq_some_iff.1 h
  rw [List.drop_eq_getElem_cons hi, hx, List.reduceOption_cons_of_some]

/-- A request is freed. -/
theorem Orderly.free (h : Orderly s) {i : ℕ} {after : After} {x : Handle}
    (hp : s.pc = .free i after) (hreq : s.requests[i]? = some (some x))
    (events : List FabricEvent) :
    Orderly { s.freeRequest env (some x) events with pc := .free (i + 1) after } := by
  have hpending : s.pending = s.requests.drop i := CollState.pending_eq hp
  have hsettled : s.settled = s.requests.drop i := CollState.settled_eq hp
  have hthere := h.there
  have hnodup := h.nodup
  have hledger := h.ledger
  have hdone := h.settled
  rw [hpending, reduceOption_drop hreq] at hthere hnodup hledger
  rw [hsettled, reduceOption_drop hreq] at hdone
  obtain ⟨hx, hrest⟩ := List.nodup_cons.1 hnodup
  have hspares : ∀ y ∈ (s.requests.drop (i + 1)).reduceOption, y.shm = x.shm →
      Spares (s.ep x.shm) (Impl.requestFree (env x.shm) (s.ep x.shm) (.user x.req) events)
        y.req := by
    intro y hy hside
    refine spares_requestFree (fun heq => hx ?_) events
    have hsame : x = y := by
      cases x
      cases y
      cases heq
      cases hside
      rfl
    rw [hsame]
    exact hy
  refine ⟨?_, fun y hy => ?_, hrest, h.noNull, h.passed, fun f hf => ?_, fun y hy => ?_,
    fun v hv => ?_⟩
  · show s.created = (s.freed ++ [(x, s.isCompleted x)]).map Prod.fst ++
      (s.requests.drop (i + 1)).reduceOption
    rw [hledger, List.map_append, List.append_assoc]
    rfl
  · change y ∈ (s.requests.drop (i + 1)).reduceOption at hy
    exact (hthere y (List.mem_cons_of_mem _ hy)).setEp fun hside => (hspares y hy hside).1
  · rcases List.mem_append.1 hf with hf | hf
    · exact h.freed f hf
    · rw [List.mem_singleton.1 hf]
      exact hdone x (List.mem_cons_self ..)
  · change y ∈ (s.requests.drop (i + 1)).reduceOption at hy
    exact CollState.isCompleted_setEp (hdone y (List.mem_cons_of_mem _ hy)) fun hside =>
      (hspares y hy hside).2
  · refine ⟨(h.failed v hv).1, ?_⟩
    have hret := h.returnsWith hp hv
    cases after with
    | more program => exact hret
    | done ret => exact hret

/-- **Every step keeps the order**, when requests are created and their number fits. -/
theorem Orderly.step (h : Orderly s) {a : CollAction} (hcreates : Creates s a) (hfits : Fits s a)
    (ht : collStep env s a = some t) : Orderly t := by
  cases collStep_cases ht with
  | noRanks hp ho =>
    have hnone := h.not_failed (by simp [hp, ReturnsWith])
    exact h.goto (by simp [CollState.pending, hp]) (fun _ hx => (nomatch hx)) (by simp [hnone])
  | @createNull o program k id hp ho hnull =>
    have hasks := hcreates id (by simp [CollState.asks, hp, ho])
    exact absurd hnull (not_or.2 hasks)
  | create hp ho hcomm hfree => exact h.create hp hfree
  | @refused req call program hp hret =>
    have hpending : s.pending = s.requests := CollState.pending_eq hp
    refine ⟨?_, ?_, ?_, h.noNull, h.passed, h.freed, fun _ hx => (nomatch hx), fun v hv => ?_⟩
    · exact hpending ▸ h.ledger
    · exact hpending ▸ h.there
    · exact hpending ▸ h.nodup
    · obtain rfl := Option.some.inj hv
      exact ⟨hret, rfl⟩
  | @posted x call program hp =>
    have hsettled : s.settled = [] := CollState.settled_eq hp
    have hnone := h.not_failed (by simp [hp, ReturnsWith])
    have hset := h.setEp x.shm (asyncPost (env x.shm) (s.ep x.shm) (.user x.req) call).2
      (fun y _ _ hy => asyncPost_there call hy) (by simp [hsettled])
    exact hset.goto (by simp [CollState.pending, CollState.setEp, hp]) (fun _ hx => (nomatch hx))
      (by simp [CollState.setEp, hnone])
  | @jump pc hp =>
    obtain ⟨⟨program, hp⟩, hpc⟩ := hp
    have hnone := h.not_failed (by simp [hp, ReturnsWith])
    rcases hpc with ⟨program', rfl⟩ | ⟨after, rfl⟩ | ⟨ret, rfl⟩
    · exact h.goto (by simp [CollState.pending, hp]) (fun _ hx => (nomatch hx)) (by simp [hnone])
    · exact h.goto (by simp [CollState.pending, hp]) (by simp [CollState.settled, hnone])
        (by simp [hnone])
    · exact h.goto (by simp [CollState.pending, hp]) (by simp [CollState.settled]) (by simp [hnone])
  | @cancel i ret req events hp hreq =>
    cases req with
    | none => exact absurd (List.mem_of_getElem? hreq) h.noNull
    | some x => exact h.cancel hp hreq events
  | @cancelled i ret events hp hi =>
    have hsettled : s.settled = s.requests.take i := CollState.settled_eq hp
    refine h.goto (by simp [CollState.pending, hp]) (fun x hx => ?_) fun v hv => ?_
    · refine h.settled x ?_
      rw [hsettled, List.take_of_length_le hi]
      simp only [CollState.settled] at hx
      split at hx
      case isTrue => cases hx
      case isFalse => exact hx
    · have hret := h.returnsWith hp hv
      exact hret
  | fault hp hnull => exact absurd (List.mem_of_mem_take hnull) h.noNull
  | @waited after hp hnull hall => exact h.wait hp hfits hall
  | @free i after req events hp hreq =>
    cases req with
    | none => exact absurd (List.mem_of_getElem? hreq) h.noNull
    | some x => exact h.free hp hreq events
  | @cleared i program events hp hi =>
    have hpending : s.pending = [] := by
      simp only [CollState.pending, hp]
      exact List.drop_eq_nil_of_le hi
    have hnone := h.not_failed (by simp [hp, ReturnsWith])
    have hledger := h.ledger
    rw [hpending] at hledger
    exact ⟨hledger, nofun, List.nodup_nil, List.not_mem_nil, h.passed, h.freed, nofun,
      by simp [hnone]⟩
  | @returned i ret events hp hi =>
    have hpending : s.pending = [] := by
      simp only [CollState.pending, hp]
      exact List.drop_eq_nil_of_le hi
    refine h.goto (by rw [hpending]; rfl) (fun _ hx => (nomatch hx)) fun v hv => ?_
    have hret := h.returnsWith hp hv
    exact hret
  | others hspares => exact h.spare _ _ hspares

theorem orderly_start (ep : Bool → Impl.State) (g : LfiGroup) (call : CollectiveCall) :
    Orderly (call.start ep g) := by
  have hpending : (call.start ep g).pending = [] := by
    unfold CollectiveCall.start CollState.pending
    dsimp only
    split <;> first | rfl | exact List.drop_nil
  have hsettled : (call.start ep g).settled = [] := by
    unfold CollectiveCall.start CollState.settled
    dsimp only
    split <;> simp
  refine ⟨?_, ?_, ?_, List.not_mem_nil, nofun, nofun, ?_, nofun⟩
  · rw [hpending]; rfl
  · simp [hpending]
  · simp [hpending]
  · simp [hsettled]

theorem Orderly.safe (h : Orderly s) : Safe s where
  noNull := h.passed
  code v hv := by
    exact ⟨(h.failed v hv).1, fun ret hp => h.returnsWith hp hv⟩
  once := ⟨_, h.ledger.symm⟩
  all ret hp := by
    have hledger := h.ledger
    rw [show s.pending = [] from CollState.pending_eq hp] at hledger
    simpa using hledger.symm
  completed := h.freed

/-! ### The way back -/

theorem CollState.cancelRequest_eq (s : CollState) (req : Option Handle)
    (events : List FabricEvent) :
    (s.cancelRequest env req events).requests = s.requests ∧
      (s.cancelRequest env req events).failed = s.failed ∧
      (s.cancelRequest env req events).passed = s.passed := by
  cases req <;> exact ⟨rfl, rfl, rfl⟩

theorem CollState.freeRequest_eq (s : CollState) (req : Option Handle)
    (events : List FabricEvent) :
    (s.freeRequest env req events).requests = s.requests ∧
      (s.freeRequest env req events).passed = s.passed := by
  cases req <;> exact ⟨rfl, rfl⟩

variable {v : ℤ}

/-- The call comes to its end by itself. -/
def Returns (env : Bool → Impl.Env) (s : CollState) (v : ℤ) : Prop :=
  ∃ as t, exec (collStep env) s as = some t ∧ t.pc = .returned v

theorem Returns.cons {a : CollAction} (ht : collStep env s a = some t) (h : Returns env t v) :
    Returns env s v := by
  obtain ⟨as, u, hu, hp⟩ := h
  exact ⟨a :: as, u, by rw [exec_cons, ht, Option.bind_some, hu], hp⟩

/-- The frees, on the number of requests that are left. -/
theorem returns_free (n : ℕ) {i : ℕ} (hp : s.pc = .free i (.done v))
    (hn : s.requests.length ≤ i + n) : Returns env s v := by
  induction n generalizing s i with
  | zero =>
    have hend : s.requests[i]? = none := List.getElem?_eq_none hn
    exact ⟨[.free []], { s with pc := .returned v }, by simp [collStep, hp, hend], rfl⟩
  | succ n ih =>
    cases hreq : s.requests[i]? with
    | none => exact ⟨[.free []], { s with pc := .returned v }, by simp [collStep, hp, hreq], rfl⟩
    | some req =>
      have ht : collStep env s (.free []) =
          some { s.freeRequest env req [] with pc := .free (i + 1) (.done v) } := by
        simp [collStep, hp, hreq]
      refine .cons ht (ih rfl ?_)
      show (s.freeRequest env req []).requests.length ≤ i + 1 + n
      rw [(CollState.freeRequest_eq s req []).1]
      omega

/-- The wait is over at once. -/
theorem Orderly.returns_wait (h : Orderly s) (hp : s.pc = .wait (.done v))
    (hfailed : s.failed ≠ none) : Returns env s v := by
  have hnull : none ∉ s.awaited := fun hmem => h.noNull (List.mem_of_mem_take hmem)
  have hall : ∀ x ∈ s.awaited.reduceOption, s.isCompleted x = true := by
    intro x hx
    refine h.settled x ?_
    rw [List.reduceOption_mem_iff] at hx ⊢
    simpa [CollState.settled, hp, hfailed] using List.mem_of_mem_take hx
  have ht : collStep env s .wait =
      some { s with passed := s.passed ++ [s.requests], pc := .free 0 (.done v) } := by
    simp only [collStep, hp]
    rw [if_neg hnull, if_pos hall]
  exact .cons ht (returns_free s.requests.length rfl (Nat.le_add_left ..))

/-- The end of the cancels. -/
theorem Orderly.returns_cancelled (h : Orderly s) {i : ℕ} (hp : s.pc = .cancel i v)
    (hfailed : s.failed ≠ none) (hend : s.requests[i]? = none) : Returns env s v := by
  have ht : collStep env s (.cancel []) = some { s with pc := .wait (.done v) } := by
    simp [collStep, hp, hend]
  exact .cons ht ((h.step (a := .cancel []) trivial trivial ht).returns_wait rfl hfailed)

/-- The cancels, on the number of requests that are left. -/
theorem Orderly.returns_cancel (n : ℕ) {i : ℕ} (h : Orderly s) (hp : s.pc = .cancel i v)
    (hfailed : s.failed ≠ none) (hn : s.requests.length ≤ i + n) : Returns env s v := by
  induction n generalizing s i with
  | zero => exact h.returns_cancelled hp hfailed (List.getElem?_eq_none hn)
  | succ n ih =>
    cases hreq : s.requests[i]? with
    | none => exact h.returns_cancelled hp hfailed hreq
    | some req =>
      have ht : collStep env s (.cancel []) =
          some { s.cancelRequest env req [] with pc := .cancel (i + 1) v } := by
        simp [collStep, hp, hreq]
      obtain ⟨hrequests, hsame, -⟩ := @CollState.cancelRequest_eq env s req []
      refine .cons ht (ih (h.step (a := .cancel []) trivial trivial ht) rfl ?_ ?_)
      · exact fun hnone => hfailed (hsame.symm.trans hnone)
      · show (s.cancelRequest env req []).requests.length ≤ i + 1 + n
        rw [hrequests]
        omega

/-- **Behind `error` the call depends on nobody.** -/
theorem Orderly.returns (h : Orderly s) (hv : s.failed = some v) : Returns env s v := by
  have hfailed : s.failed ≠ none := by simp [hv]
  cases hp : s.pc with
  | cancel i ret =>
    obtain rfl : ret = v := h.returnsWith hp hv
    exact h.returns_cancel s.requests.length hp hfailed (Nat.le_add_left ..)
  | wait after =>
    cases after with
    | more program => exact (h.returnsWith hp hv).elim
    | done ret =>
      obtain rfl : ret = v := h.returnsWith hp hv
      exact h.returns_wait hp hfailed
  | free i after =>
    cases after with
    | more program => exact (h.returnsWith hp hv).elim
    | done ret =>
      obtain rfl : ret = v := h.returnsWith hp hv
      exact returns_free s.requests.length hp (Nat.le_add_left ..)
  | returned ret =>
    obtain rfl : ret = v := h.returnsWith hp hv
    exact ⟨[], s, rfl, hp⟩
  | run program => exact (h.returnsWith hp hv).elim
  | post req call program => exact (h.returnsWith hp hv).elim
  | fault => exact (h.returnsWith hp hv).elim

/-! ### Null pointers -/

/-- There is no null pointer. -/
def NoNull (s : CollState) : Prop := none ∉ s.requests ∧ ∀ l ∈ s.passed, none ∉ l

/-- There is one, on its way to `lfi_wait_all` or already there. -/
def Doomed (s : CollState) : Prop :=
  (none ∈ s.requests ∧ ((∃ call program, s.pc = .post none call program) ∨
    (∃ i ret, s.pc = .cancel i ret) ∨ ∃ after, s.pc = .wait after)) ∨ ∃ l ∈ s.passed, none ∈ l

theorem NoNull.step (h : NoNull s) {a : CollAction} (hcreates : Creates s a)
    (ht : collStep env s a = some t) : NoNull t := by
  have hpassed : ∀ l ∈ s.passed ++ [s.requests], none ∉ l := fun l hl => by
    rcases List.mem_append.1 hl with hl | hl
    · exact h.2 l hl
    · rw [List.mem_singleton.1 hl]
      exact h.1
  cases collStep_cases ht with
  | @createNull o program k id hp ho hnull =>
    have hasks := hcreates id (by simp [CollState.asks, hp, ho])
    exact absurd hnull (not_or.2 hasks)
  | create hp ho hcomm hfree => exact ⟨by simpa using h.1, h.2⟩
  | @cancel i ret req events hp hreq =>
    obtain ⟨hrequests, -, hsame⟩ := @CollState.cancelRequest_eq env s req events
    unfold NoNull
    rw [hrequests, hsame]
    exact h
  | fault hp hnull => exact ⟨h.1, hpassed⟩
  | waited hp hnull hall => exact ⟨h.1, hpassed⟩
  | @free i after req events hp hreq =>
    obtain ⟨hrequests, hsame⟩ := @CollState.freeRequest_eq env s req events
    unfold NoNull
    rw [hrequests, hsame]
    exact h
  | cleared hp hi => exact ⟨List.not_mem_nil, h.2⟩
  | _ => exact h

/-- A request that is not created dooms the call. -/
theorem doomed_of_not_creates {a : CollAction} (hcreates : ¬ Creates s a)
    (ht : collStep env s a = some t) : Doomed t := by
  cases collStep_cases ht with
  | noRanks hp ho => exact absurd (by simp [Creates, CollState.asks, hp, ho]) hcreates
  | createNull hp ho hnull => exact .inl ⟨by simp, .inl ⟨_, _, rfl⟩⟩
  | create hp ho hcomm hfree =>
    refine absurd (fun id hid => ?_) hcreates
    rw [show s.asks = _ by simp only [CollState.asks, hp]; exact ho] at hid
    obtain rfl := Option.some.inj hid
    simp [hcomm]
  | _ => exact absurd trivial hcreates

theorem Doomed.step (h : Doomed s) {a : CollAction} (ht : collStep env s a = some t) :
    Doomed t := by
  have hmoves := collStep_cases ht
  rcases h with ⟨hnull, hp⟩ | ⟨l, hl, hnull⟩
  · cases hmoves with
    | refused => exact .inl ⟨hnull, .inr (.inl ⟨_, _, rfl⟩)⟩
    | @cancel i ret req events hp' hreq =>
      refine .inl ⟨?_, .inr (.inl ⟨_, _, rfl⟩)⟩
      show none ∈ (s.cancelRequest env req events).requests
      rw [(CollState.cancelRequest_eq s req events).1]
      exact hnull
    | cancelled => exact .inl ⟨hnull, .inr (.inr ⟨_, rfl⟩)⟩
    | fault => exact .inr ⟨s.requests, by simp, hnull⟩
    | waited => exact .inr ⟨s.requests, by simp, hnull⟩
    | others => exact .inl ⟨hnull, hp⟩
    | jump hp' =>
      obtain ⟨⟨program, hp'⟩, -⟩ := hp'
      simp [hp'] at hp
    | noRanks hp' => simp [hp'] at hp
    | createNull hp' => simp [hp'] at hp
    | create hp' => simp [hp'] at hp
    | posted hp' => simp [hp'] at hp
    | free hp' => simp [hp'] at hp
    | cleared hp' => simp [hp'] at hp
    | returned hp' => simp [hp'] at hp
  · refine .inr ⟨l, ?_, hnull⟩
    cases hmoves with
    | @cancel i ret req events hp hreq =>
      show l ∈ (s.cancelRequest env req events).passed
      rw [(CollState.cancelRequest_eq s req events).2.2]
      exact hl
    | @free i after req events hp hreq =>
      show l ∈ (s.freeRequest env req events).passed
      rw [(CollState.freeRequest_eq s req events).2]
      exact hl
    | fault => exact List.mem_append_left _ hl
    | waited => exact List.mem_append_left _ hl
    | _ => exact hl

/-- **When a collective cleans up.**  A run in which every `lfi_request_create` gives a request,
and in which the requests fit an `int` unless a posting call fails, keeps the promise; and once a
posting call has failed the call returns its code whatever other threads do.  Whoever looks at a
call that has ended finds that no null pointer got to `wait_num` or `wait` if and only if every
`lfi_request_create` gave a request. -/
theorem collective_safe (env : Bool → Impl.Env) (ep : Bool → Impl.State) (g : LfiGroup)
    (call : CollectiveCall) (as : List CollAction) (s : CollState)
    (h : exec (collStep env) (call.start ep g) as = some s) :
    (Meets (collStep env) (fun s a => Creates s a ∧ Fits s a) (call.start ep g) as →
      Safe s ∧ ∀ v, s.failed = some v → Returns env s v) ∧
    ((s.pc = .fault ∨ ∃ ret, s.pc = .returned ret) →
      ((∀ l ∈ s.passed, none ∉ l) ↔ Meets (collStep env) Creates (call.start ep g) as)) := by
  refine ⟨fun hmeets => ?_, fun hend => ?_⟩
  · have horderly : Orderly s := (always_of_meets
      (fun s a t hs hG ht => Orderly.step hs hG.1 hG.2 ht) (orderly_start ep g call) hmeets).last h
    exact ⟨horderly.safe, fun v hv => horderly.returns hv⟩
  · have hmeets : Meets (collStep env) Creates (call.start ep g) as ↔ ¬ Doomed s :=
      meets_iff_not (I := NoNull) (fun _ _ _ hs hG ht => hs.step hG ht)
        (fun _ _ _ _ hG ht => doomed_of_not_creates hG ht) (fun _ _ _ hs ht => hs.step ht)
        (fun _ hs hB => by
          rcases hB with ⟨hnull, -⟩ | ⟨l, hl, hnull⟩
          · exact hs.1 hnull
          · exact hs.2 l hl hnull)
        ⟨List.not_mem_nil, nofun⟩ h
    rw [hmeets]
    constructor
    · rintro hpassed (⟨-, hp⟩ | ⟨l, hl, hnull⟩)
      · rcases hend with hend | ⟨ret, hend⟩ <;> simp [hend] at hp
      · exact hpassed l hl hnull
    · exact fun hnot l hl hnull => hnot (.inr ⟨l, hl, hnull⟩)

/-- The communicator 5 is there and cancelled or not, and no request is. -/
def oneComm (canceled shm : Bool) : Impl.State :=
  let s := Impl.freshState (if shm then {5} else ∅) (fun _ => 5) 0
  ⟨{ s.core with requests := fun _ => none },
    s.ft.setComm 5 { s.ft.comm 5 with isCanceled := canceled }⟩

/-- The root of a broadcast finds its only communicator cancelled. -/
def brokenBroadcast : List CollAction :=
  [.create (some 0), .post, .cancel [], .cancel [], .wait, .free [], .free []]

theorem collective_safe_broken :
    ∃ s, exec (collStep fun _ => Impl.Env.default)
        (CollectiveCall.start (oneComm true) ⟨2, some [-1, 5], 0⟩ (.broadcast 0 100 8))
        brokenBroadcast = some s ∧
      Safe s ∧ s.failed = some (-Impl.lfiBrokenComm) ∧ s.pc = .returned (-Impl.lfiBrokenComm) ∧
      s.created.length = 1 ∧ ∀ l ∈ s.passed, none ∉ l := by
  have hrun := collective_safe (fun _ => Impl.Env.default) (oneComm true) ⟨2, some [-1, 5], 0⟩
    (.broadcast 0 100 8) brokenBroadcast _ (Option.some_get (by decide +kernel)).symm
  exact ⟨_, (Option.some_get _).symm, (hrun.1 (by decide +kernel)).1, by decide +kernel,
    by decide +kernel, by decide +kernel,
    (hrun.2 (.inr ⟨-Impl.lfiBrokenComm, by decide +kernel⟩)).2 (by decide +kernel)⟩

/-- The root of a barrier finds the second of two communicators gone. -/
def missingBarrier : List CollAction :=
  [.create (some 0), .post, .create (some 1), .post, .create none, .post, .cancel [], .cancel [],
    .cancel [], .cancel [], .wait]

/-- **A null pointer for `wait_num`.** -/
theorem collective_null :
    ¬ ∀ (env : Bool → Impl.Env) (ep : Bool → Impl.State) (g : LfiGroup) (call : CollectiveCall)
      (as : List CollAction) (s : CollState),
      exec (collStep env) (call.start ep g) as = some s → Safe s := by
  intro hall
  have hsafe := hall (fun _ => Impl.Env.default) (oneComm false) ⟨3, some [-1, 5, 7], 0⟩
    (.barrier 100) missingBarrier _ (Option.some_get (by decide +kernel)).symm
  exact absurd (hsafe.noNull [some ⟨true, 0⟩, some ⟨true, 1⟩, none] (by decide +kernel))
    (by decide)

end Coll
end Lfi
