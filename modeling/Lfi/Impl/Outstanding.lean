/-
# Outstanding requests

With fault tolerance on, the list `ft_requests` of a communicator holds exactly
the requests outstanding on it: `register_request` adds a request when it is
posted and `on_request_complete` takes it out when it completes (`Tracks`).  This
relation is between the two halves of the state, so it is stated for the function
`Core.onComm` that one half computes and for the lists of the other; `Tracked` puts
the halves together.
-/

import Lfi.Impl.FtManager

namespace Lfi
namespace Impl

variable {env : Env} {s : State}

/-! ### What the functions leave alone -/

theorem unassign_eq (s : Core) (w : Option ℕ) :
    ∃ contexts, unassign s w = { s with contexts := contexts } := by
  cases w <;> exact ⟨_, rfl⟩

/-- `reset` changes requests and contexts. -/
theorem reset_eq (s : Core) (r : ReqId) :
    ∃ requests contexts, reset s r = { s with requests := requests, contexts := contexts } := by
  unfold reset
  cases s.requests r with
  | none => exact ⟨_, _, rfl⟩
  | some q =>
      obtain ⟨contexts, h⟩ := unassign_eq s q.waitContext
      simp only [h]
      exact ⟨_, _, rfl⟩

/-- `complete` changes requests and contexts, and what is done with them. -/
theorem complete_core_eq (s : State) (r : ReqId) (err now : ℤ) :
    ∃ requests contexts waitCount callbacks completions,
      (complete env s r err now).core = { s.core with
        requests := requests
        contexts := contexts
        waitCount := waitCount
        callbacks := callbacks
        completions := completions } := by
  unfold complete
  cases hq : s.core.requests r with
  | none => exact ⟨_, _, _, _, _, rfl⟩
  | some q =>
      dsimp only
      split
      case isTrue => exact ⟨_, _, _, _, _, rfl⟩
      case isFalse =>
        obtain ⟨contexts, h⟩ := unassign_eq s.core q.waitContext
        simp only [completeBody, hq, h]
        cases q.sharedWaitStruct <;> cases q.callback <;> exact ⟨_, _, _, _, _, rfl⟩

/-- Queueing an operation changes a queue. -/
theorem pushOp_eq (s : Core) (priority : Bool) (op : LfiPendingOp) :
    ∃ priorityOps pendingOps,
      pushOp s priority op = { s with priorityOps := priorityOps, pendingOps := pendingOps } := by
  unfold pushOp
  split <;> exact ⟨_, _, rfl⟩

theorem createContext_eq (s : Core) (r : ReqId) :
    ∃ contexts pool created, (createContext s r).2 =
      { s with contexts := contexts, pool := pool, created := created } := by
  unfold createContext
  cases s.pool.getLast? <;> exact ⟨_, _, _, rfl⟩

/-- A post completes nothing and touches neither the fabric nor the callbacks. -/
theorem postCore_completions (s : Core) (r : ReqId) (f : RequestFields) (o : OpFields)
    (priority : Bool) : (postCore s r f o priority).completions = s.completions := by
  unfold postCore
  dsimp only
  obtain ⟨priorityOps, pendingOps, hpush⟩ := pushOp_eq _ priority _
  obtain ⟨contexts, pool, created, hcreate⟩ := createContext_eq (reset s r) r
  obtain ⟨requests, contexts', hreset⟩ := reset_eq s r
  rw [hpush, hcreate, hreset]
  rfl

/-! ### Completing -/

@[simp] theorem Core.setContext_requests (s : Core) (c : ℕ) (r : Option ReqId) :
    (s.setContext c r).requests = s.requests := rfl

@[simp] theorem unassign_requests (s : Core) (c : Option ℕ) :
    (unassign s c).requests = s.requests := by
  cases c <;> rfl

@[simp] theorem destroyContext_requests (s : Core) (c : ℕ) :
    (destroyContext s c).requests = s.requests := rfl

@[simp] theorem createContext_requests (s : Core) (r : ReqId) :
    (createContext s r).2.requests = s.requests := by
  unfold createContext
  cases s.pool.getLast? <;> rfl

/-- The requests after the body of `complete`. -/
theorem completeBody_requests (s : Core) (r : ReqId) (err : ℤ) :
    (completeBody s r err).requests = Function.update s.requests r
      ((s.requests r).map fun q => { q with error := err, waitContext := none }) := by
  unfold completeBody
  cases hr : s.requests r with
  | none => simp [hr]
  | some q =>
      simp only [Option.map_some]
      cases q.sharedWaitStruct <;> cases q.callback <;> simp [Core.setRequest]

theorem Core.onComm_congr {s t : Core} {r : ReqId} (h : t.requests r = s.requests r) :
    t.onComm r = s.onComm r := by
  rw [Core.onComm, h]; rfl

/-- The requests decide which are outstanding. -/
theorem Core.onComm_eq {s t : Core} (h : t.requests = s.requests) : t.onComm = s.onComm :=
  funext fun _ => Core.onComm_congr (congrFun h _)

theorem Core.onComm_eq_some {s : Core} {r : ReqId} {c : CommId} :
    s.onComm r = some c ↔ ∃ q, s.requests r = some q ∧ q.isCompleted = false ∧ q.commId = c := by
  unfold Core.onComm
  cases s.requests r with
  | none => simp
  | some q => cases hq : q.isCompleted <;> simp [hq]

theorem completeBody_onComm (s : Core) (r : ReqId) (err : ℤ) :
    (completeBody s r err).onComm = Function.update s.onComm r none := by
  funext r'
  by_cases h : r' = r
  · subst h
    unfold Core.onComm
    rw [completeBody_requests, Function.update_self, Function.update_self]
    cases s.requests r' <;> simp [LfiRequest.isCompleted]
  · rw [Function.update_of_ne h]
    exact Core.onComm_congr (by rw [completeBody_requests, Function.update_of_ne h])

/-- `complete` on a request that is not outstanding does nothing. -/
theorem complete_of_onComm_none {r : ReqId} {err now : ℤ} (h : s.core.onComm r = none) :
    complete env s r err now = s := by
  unfold complete
  cases hr : s.core.requests r with
  | none => rfl
  | some q =>
      cases hq : q.isCompleted with
      | true => simp [hq]
      | false => simp [Core.onComm, hr, hq] at h

/-- `complete` on an outstanding request. -/
theorem complete_of_onComm_some {r : ReqId} {c : CommId} {err now : ℤ}
    (h : s.core.onComm r = some c) :
    ∃ q, s.core.requests r = some q ∧ q.commId = c ∧ q.isCompleted = false ∧
      complete env s r err now = ⟨completeBody s.core r err,
        if env.faultTolerance then onRequestComplete s.ft r c q.source err now else s.ft⟩ := by
  obtain ⟨q, hr, hq, rfl⟩ := Core.onComm_eq_some.1 h
  exact ⟨q, hr, rfl, hq, by simp [complete, hr, hq]⟩

theorem complete_onComm (r : ReqId) (err now : ℤ) :
    (complete env s r err now).core.onComm = Function.update s.core.onComm r none := by
  cases h : s.core.onComm r with
  | none => rw [complete_of_onComm_none h, ← h, Function.update_eq_self]
  | some c =>
      obtain ⟨q, -, -, -, heq⟩ := @complete_of_onComm_some env _ _ _ err now h
      rw [heq]
      exact completeBody_onComm ..

/-- What `complete` does to an outstanding request. -/
theorem complete_request {r : ReqId} {q : LfiRequest} (hq : s.core.requests r = some q)
    (hout : q.isCompleted = false) (err now : ℤ) :
    (complete env s r err now).core.requests r =
      some { q with error := err, waitContext := none } := by
  simp [complete, hq, hout, completeBody_requests]

/-- `complete` changes its own request only. -/
theorem complete_requests_of_ne {r r' : ReqId} (h : r' ≠ r) (err now : ℤ) :
    (complete env s r' err now).core.requests r = s.core.requests r := by
  unfold complete
  cases s.core.requests r' with
  | none => rfl
  | some q =>
      dsimp only
      split
      case isTrue => rfl
      case isFalse => rw [completeBody_requests, Function.update_of_ne h.symm]

/-! ### The lists of outstanding requests -/

/-- The list `ft_requests` of every communicator has exactly the requests that `on`
places on it, and the others are in no list. -/
structure Tracks (on : ReqId → Option CommId) (s : Ft) : Prop where
  rep : ∀ c ∈ s.commIds, ∃ xs, Rep s.reqNodes (s.comm c).ftRequests xs ∧
    ∀ r, r ∈ xs ↔ on r = some c
  there : ∀ r c, on r = some c → c ∈ s.commIds
  free : ∀ r, on r = none → s.reqNodes r = Node.free

/-- Only the lists and the links count. -/
theorem Tracks.congr {on : ReqId → Option CommId} {s t : Ft} (h : Tracks on s)
    (hids : t.commIds = s.commIds) (hnodes : t.reqNodes = s.reqNodes)
    (hlists : ∀ c, (t.comm c).ftRequests = (s.comm c).ftRequests) : Tracks on t := by
  refine ⟨fun c hc => ?_, fun r c hr => ?_, fun r hr => ?_⟩
  · rw [hnodes, hlists]; exact h.rep c (hids ▸ hc)
  · rw [hids]; exact h.there r c hr
  · rw [hnodes]; exact h.free r hr

theorem Ft.setComm_comm (s : Ft) (c d : CommId) (x : LfiComm) :
    (s.setComm c x).comm d = if d = c then x else s.comm d := by
  simp only [Ft.setComm, Function.update_apply]

/-- What holds of every communicator holds of them after one has changed, if the new one keeps
it. -/
theorem Ft.setComm_of {P : CommId → LfiComm → Prop} {s : Ft} {c d : CommId} {x : LfiComm}
    (hx : P c (s.comm c) → P c x) (h : P d (s.comm d)) : P d ((s.setComm c x).comm d) := by
  rw [Ft.setComm_comm]
  split
  case isTrue hd => exact hd ▸ hx (hd ▸ h)
  case isFalse => exact h

/-- A part of a communicator that does not change. -/
theorem Ft.setComm_same {α : Sort*} (part : LfiComm → α) {s : Ft} {c : CommId} {x : LfiComm}
    (hx : part x = part (s.comm c)) (d : CommId) :
    part ((s.setComm c x).comm d) = part (s.comm d) :=
  setComm_of (P := fun d y => part y = part (s.comm d)) (fun _ => hx) rfl

/-- The list of a communicator is empty when nothing is outstanding on it. -/
theorem Tracks.size_eq_zero {on : ReqId → Option CommId} {s : Ft} (h : Tracks on s) {c : CommId}
    (hc : c ∈ s.commIds) : (s.comm c).ftRequests.size = 0 ↔ ∀ r, on r ≠ some c := by
  obtain ⟨xs, hrep, hmem⟩ := h.rep c hc
  rw [hrep.size_eq_zero, List.eq_nil_iff_forall_not_mem]
  exact forall_congr' fun r => not_congr (hmem r)

/-- A change of one list, all others keeping their nodes, changes what is
outstanding in that place only. -/
theorem Tracks.setList {on : ReqId → Option CommId} {s : Ft} (h : Tracks on s) {c : CommId}
    {r : ReqId} {o : Option CommId} {nodes : Nodes ReqId} {l : DoubleLinkedList ReqId}
    {xs : List ReqId} (hc : c ∈ s.commIds) (hron : ∀ d, on r = some d → d = c)
    (ho : ∀ d, o = some d → d = c) (hrep : Rep nodes l xs)
    (hxs : ∀ r', r' ∈ xs ↔ Function.update on r o r' = some c)
    (hframe : ∀ r', r' ≠ r → on r' ≠ some c → nodes r' = s.reqNodes r')
    (hfree : o = none → nodes r = Node.free) :
    Tracks (Function.update on r o)
      ({ s with reqNodes := nodes }.setComm c { s.comm c with ftRequests := l }) := by
  have hother : ∀ r' d, d ≠ c → Function.update on r o r' = some d → r' ≠ r ∧ on r' = some d := by
    intro r' d hd h'
    by_cases hr : r' = r
    · subst hr
      rw [Function.update_self] at h'
      exact absurd (ho d h') hd
    · rw [Function.update_of_ne hr] at h'
      exact ⟨hr, h'⟩
  refine ⟨fun d hd => ?_, fun r' d hr' => ?_, fun r' hr' => ?_⟩
  · rw [Ft.setComm_comm]
    by_cases hdc : d = c
    · subst hdc
      exact ⟨xs, by rw [if_pos rfl]; exact hrep, hxs⟩
    · rw [if_neg hdc]
      obtain ⟨ys, hys, hmem⟩ := h.rep d hd
      refine ⟨ys, hys.congr fun r' hr' => ?_, fun r' => ?_⟩
      · have hon := (hmem r').1 hr'
        refine hframe r' ?_ (by rw [hon]; simpa using hdc)
        rintro rfl
        exact hdc (hron d hon)
      · rw [hmem]
        constructor
        · intro hon
          rw [Function.update_of_ne, hon]
          rintro rfl
          exact hdc (hron d hon)
        · exact fun h' => (hother r' d hdc h').2
  · by_cases hdc : d = c
    · subst hdc; exact hc
    · exact h.there r' d (hother r' d hdc hr').2
  · by_cases hr : r' = r
    · subst hr
      exact hfree (by simpa using hr')
    · rw [Function.update_of_ne hr] at hr'
      exact (hframe r' hr (by rw [hr']; simp)).trans (h.free r' hr')

/-- A success moves a time only. -/
theorem Tracks.touchComm {on : ReqId → Option CommId} {s : Ft} (h : Tracks on s) {c : CommId}
    {now : ℤ} : Tracks on (touchComm s c now) := by
  unfold Impl.touchComm
  split
  case isTrue =>
    exact h.congr rfl rfl (Ft.setComm_same (·.ftRequests) rfl)
  case isFalse => exact h

/-- `register_request` adds a request that is not outstanding. -/
theorem Tracks.registerRequest {on : ReqId → Option CommId} {s : Ft} (h : Tracks on s)
    {r : ReqId} {c : CommId} (hc : c ∈ s.commIds) (hr : on r = none) :
    Tracks (Function.update on r (some c)) (registerRequest s r c) := by
  obtain ⟨xs, hrep, hmem⟩ := h.rep c hc
  have hfree := h.free r hr
  have hmain := h.setList (c := c) (r := r) (o := some c) hc (by simp [hr]) (by simp)
    (hrep.pushBack hfree) (fun r' => ?_) (fun r' hne hon => ?_) (by simp)
  · unfold Impl.registerRequest
    split
    case isTrue => exact hmain.congr rfl rfl fun _ => rfl
    case isFalse =>
      split
      case isTrue => exact hmain
      case isFalse => exact hmain.congr rfl rfl fun _ => rfl
  · by_cases hrr : r' = r
    · simp [hrr]
    · simp [hrr, hmem]
  · exact pushBack_frame hrep hne fun hx => hon ((hmem r').1 hx)

/-- `on_request_complete` takes an outstanding request out. -/
theorem Tracks.onRequestComplete {on : ReqId → Option CommId} {s : Ft} (h : Tracks on s)
    {r : ReqId} {c source : CommId} {err now : ℤ} (hr : on r = some c) :
    Tracks (Function.update on r none) (onRequestComplete s r c source err now) := by
  have hc := h.there r c hr
  obtain ⟨xs, hrep, hmem⟩ := h.rep c hc
  have hx : r ∈ xs := (hmem r).2 hr
  have hmain := h.setList (c := c) (r := r) (o := none) hc (by simp [hr, eq_comm]) (by simp)
    (hrep.erase hx) (fun r' => ?_) (fun r' hne hon => ?_) (by simp)
  · have herase :
        Tracks (Function.update on r none) (eraseAnyRequest (eraseRequest s r c) r c) := by
      unfold eraseAnyRequest
      split
      case isTrue => exact hmain.congr rfl rfl fun _ => rfl
      case isFalse => exact hmain
    unfold Impl.onRequestComplete
    rw [if_pos hc]
    split
    case isTrue => exact herase.touchComm
    case isFalse => exact herase
  · by_cases hrr : r' = r
    · subst hrr
      simpa using hrep.nodup.not_mem_erase
    · rw [List.mem_erase_of_ne hrr, hmem, Function.update_of_ne hrr]
  · exact erase_frame hrep hx fun hx' => hon ((hmem r').1 hx')

/-- With fault tolerance on, the lists follow the requests. -/
def Tracked (s : State) : Prop := Tracks s.core.onComm s.ft

/-- `complete` keeps the lists in step. -/
theorem Tracked.complete (h : Tracked s) (hft : env.faultTolerance = true) (r : ReqId)
    (err now : ℤ) : Tracked (complete env s r err now) := by
  cases hr : s.core.onComm r with
  | none => rw [complete_of_onComm_none hr]; exact h
  | some c =>
      obtain ⟨q, -, -, -, heq⟩ := @complete_of_onComm_some env _ _ _ err now hr
      unfold Tracked
      rw [complete_onComm, heq, if_pos hft]
      exact Tracks.onRequestComplete h hr

/-! ### Posting -/

theorem reset_onComm {s : Core} {r : ReqId} (h : s.onComm r = none) :
    (reset s r).onComm = s.onComm ∧
      ((reset s r).requests r).map (·.commId) = (s.requests r).map (·.commId) := by
  unfold reset
  cases hr : s.requests r with
  | none => simp [hr]
  | some q =>
      refine ⟨funext fun r' => ?_, by simp [Core.setRequest]⟩
      by_cases hrr : r' = r
      · subst hrr
        rw [h]
        simp [Core.onComm, Core.setRequest, LfiRequest.isCompleted]
      · exact Core.onComm_congr (by simp [Core.setRequest, hrr])

@[simp] theorem pushOp_requests (s : Core) (priority : Bool) (op : LfiPendingOp) :
    (pushOp s priority op).requests = s.requests := by
  unfold pushOp
  split <;> rfl

/-- A posted request is outstanding on its communicator. -/
theorem postCore_onComm {s : Core} {r : ReqId} {q : LfiRequest} (hr : s.requests r = some q)
    (h : s.onComm r = none) (f : RequestFields) (o : OpFields) (priority : Bool) :
    (postCore s r f o priority).onComm = Function.update s.onComm r (some q.commId) := by
  obtain ⟨hon, hid⟩ := reset_onComm h
  rw [hr, Option.map_some, Option.map_eq_some_iff] at hid
  obtain ⟨q', hq', hid⟩ := hid
  funext r'
  by_cases hrr : r' = r
  · subst hrr
    rw [Function.update_self, ← hid]
    simp [Core.onComm, postCore, Core.setRequest, hq', LfiRequest.isCompleted]
  · rw [Function.update_of_ne hrr, ← hon]
    exact Core.onComm_congr (by simp [postCore, Core.setRequest, hrr])

/-- A post leaves the other requests alone. -/
theorem postCore_requests_of_ne {s : Core} {r r' : ReqId} (h : r' ≠ r) (f : RequestFields)
    (o : OpFields) (priority : Bool) :
    (postCore s r f o priority).requests r' = s.requests r' := by
  have hreset : (reset s r).requests r' = s.requests r' := by
    unfold reset
    cases s.requests r <;> simp [Core.setRequest, h]
  simp [postCore, Core.setRequest, h, hreset]

/-- The request of a post. -/
theorem postCore_request {s : Core} {r : ReqId} {q : LfiRequest} (hr : s.requests r = some q)
    (f : RequestFields) (o : OpFields) (priority : Bool) :
    ∃ ctx, (postCore s r f o priority).requests r = some { q with
      error := 0
      waitContext := some ctx
      opType := f.opType
      size := f.size
      tag := f.tag
      source := f.source } := by
  refine ⟨(createContext (reset s r) r).1, ?_⟩
  simp [postCore, Core.setRequest, reset, hr]

theorem postCore_commId {s : Core} {r : ReqId} (h : s.onComm r = none) (f : RequestFields)
    (o : OpFields) (priority : Bool) (r' : ReqId) :
    ((postCore s r f o priority).requests r').map (·.commId) =
      (s.requests r').map (·.commId) := by
  by_cases hrr : r' = r
  · subst hrr
    rw [← (reset_onComm h).2]
    simp [postCore, Core.setRequest, Function.comp_def]
  · rw [postCore_requests_of_ne hrr]

theorem Tracked.post (h : Tracked s) (hft : env.faultTolerance = true) {r : ReqId}
    {q : LfiRequest} (hr : s.core.requests r = some q) (hc : q.commId ∈ s.ft.commIds)
    (hon : s.core.onComm r = none) (f : RequestFields) (o : OpFields) (priority : Bool) :
    Tracked (post env s r q.commId f o priority) := by
  unfold Tracked Impl.post
  rw [postCore_onComm hr hon, if_pos hft]
  exact Tracks.registerRequest h hc hon

/-- Nothing is outstanding on a fresh endpoint. -/
theorem Fresh.tracked (h : Fresh s) : Tracked s := by
  refine ⟨fun c _ => ⟨[], ?_, fun r => by simp [h.onComm]⟩, fun r c hr => ?_,
    fun r _ => h.reqNodes r⟩
  · rw [h.ftRequests]; exact rep_empty
  · rw [h.onComm] at hr; cases hr

end Impl
end Lfi
