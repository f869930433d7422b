/-
# What a progress step can do

A progress step of the endpoint, and with it a `cancel`, completes requests and
does nothing else that matters here (`Progressed`): what stays outstanding is as it
was, no communicator changes its status, and nothing the endpoint keeps about
failures moves.  `fabricEvent_induction` says what to check of a property to have it
kept by every event; `Progressed` itself and `Tracked` are its first two uses.
-/

import Lfi.Impl.Outstanding

namespace Lfi
namespace Impl

variable {env : Env} {s t u : State}

/-- What a progress step leaves of a communicator. -/
def LfiComm.fixed (x : LfiComm) : LfiComm :=
  { x with ftRequests := .empty, ftLastRequestTime := 0, ftValueHeartbeat := 0 }

/-- What a progress step leaves of the fault-tolerance state: everything but the
lists of outstanding requests, the times of the last success and the words read by
the heartbeats. -/
def Ft.fixed (s : Ft) : Ft :=
  { s with
    comm := fun c => (s.comm c).fixed
    reqNodes := fun _ => Node.free
    ftAnyCommRequests := ∅ }

/-- **What a progress step does.**  Requests complete; those that stay outstanding
are as they were. -/
structure Progressed (s t : State) : Prop where
  fixed : t.ft.fixed = s.ft.fixed
  onComm : ∀ r, t.core.onComm r = s.core.onComm r ∨ t.core.onComm r = none
  kept : ∀ r, t.core.onComm r ≠ none → t.core.requests r = s.core.requests r
  commId : ∀ r q', t.core.requests r = some q' →
    ∃ q, s.core.requests r = some q ∧ q.commId = q'.commId
  anys : t.ft.ftAnyCommRequests ⊆ s.ft.ftAnyCommRequests

theorem Progressed.refl (s : State) : Progressed s s :=
  ⟨rfl, fun _ => .inl rfl, fun _ _ => rfl, fun _ q hq => ⟨q, hq, rfl⟩, Finset.Subset.refl _⟩

theorem Progressed.trans (h₁ : Progressed s t) (h₂ : Progressed t u) : Progressed s u := by
  refine ⟨h₂.fixed.trans h₁.fixed, fun r => ?_, fun r hr => ?_, fun r q hq => ?_,
    h₂.anys.trans h₁.anys⟩
  · rcases h₂.onComm r with h | h
    · rw [h]; exact h₁.onComm r
    · exact .inr h
  · have ht : t.core.onComm r ≠ none := by
      rcases h₂.onComm r with h | h
      · rwa [← h]
      · exact absurd h hr
    rw [h₂.kept r hr, h₁.kept r ht]
  · obtain ⟨q', hq', hid'⟩ := h₂.commId r q hq
    obtain ⟨q'', hq'', hid''⟩ := h₁.commId r q' hq'
    exact ⟨q'', hq'', hid''.trans hid'⟩

/-- A change of the contexts, queues and the like is a progress step. -/
theorem progressed_core {c : Core} (h : c.requests = s.core.requests) :
    Progressed s { s with core := c } := by
  refine ⟨rfl, fun r => .inl ?_, fun r _ => ?_, fun r q hq => ?_, Finset.Subset.refl _⟩
  · exact Core.onComm_congr (congrFun h r)
  · exact congrFun h r
  · exact ⟨q, (congrFun h r).symm.trans hq, rfl⟩

@[simp] theorem touchComm_fixed (s : Ft) (c : CommId) (now : ℤ) :
    (touchComm s c now).fixed = s.fixed := by
  unfold touchComm
  split
  case isTrue =>
    simp only [Ft.fixed, Ft.setComm, Ft.mk.injEq, true_and, and_true]
    funext d
    by_cases hd : d = c
    · subst hd; simp [LfiComm.fixed]
    · simp [hd]
  case isFalse => rfl

@[simp] theorem eraseRequest_fixed (s : Ft) (r : ReqId) (c : CommId) :
    (eraseRequest s r c).fixed = s.fixed := by
  simp only [eraseRequest, Ft.fixed, Ft.setComm, Ft.mk.injEq, true_and, and_true]
  funext d
  by_cases hd : d = c
  · subst hd; simp [LfiComm.fixed]
  · simp [hd]

@[simp] theorem touchComm_anys (s : Ft) (c : CommId) (now : ℤ) :
    (touchComm s c now).ftAnyCommRequests = s.ftAnyCommRequests := by
  unfold touchComm
  split <;> rfl

@[simp] theorem eraseAnyRequest_fixed (s : Ft) (r : ReqId) (c : CommId) :
    (eraseAnyRequest s r c).fixed = s.fixed := by
  unfold eraseAnyRequest
  split <;> rfl

theorem eraseAnyRequest_anys (s : Ft) (r : ReqId) (c : CommId) :
    (eraseAnyRequest s r c).ftAnyCommRequests =
      if isAnyComm c = true then s.ftAnyCommRequests.erase r else s.ftAnyCommRequests := by
  unfold eraseAnyRequest
  split <;> rfl

theorem onRequestComplete_fixed (s : Ft) (r : ReqId) (c source : CommId) (err now : ℤ) :
    (onRequestComplete s r c source err now).fixed = s.fixed := by
  unfold onRequestComplete
  split
  case isTrue => split <;> simp
  case isFalse => rfl

/-- `on_request_complete` takes the request out of the any-comm receives too. -/
theorem onRequestComplete_anys {s : Ft} {c : CommId} (hc : c ∈ s.commIds) (r : ReqId)
    (source : CommId) (err now : ℤ) :
    (onRequestComplete s r c source err now).ftAnyCommRequests =
      if isAnyComm c = true then s.ftAnyCommRequests.erase r else s.ftAnyCommRequests := by
  have herase := eraseAnyRequest_anys (eraseRequest s r c) r c
  unfold onRequestComplete
  rw [if_pos hc]
  split
  case isTrue => rw [touchComm_anys]; exact herase
  case isFalse => exact herase

theorem onRequestComplete_anys_subset (s : Ft) (r : ReqId) (c source : CommId) (err now : ℤ) :
    (onRequestComplete s r c source err now).ftAnyCommRequests ⊆ s.ftAnyCommRequests := by
  by_cases hc : c ∈ s.commIds
  · rw [onRequestComplete_anys hc]
    split
    case isTrue => exact Finset.erase_subset ..
    case isFalse => exact Finset.Subset.refl _
  · unfold onRequestComplete
    rw [if_neg hc]

/-- `complete` is the step of which the others are made. -/
theorem complete_progressed (r : ReqId) (err now : ℤ) :
    Progressed s (complete env s r err now) := by
  cases hr : s.core.onComm r with
  | none => rw [complete_of_onComm_none hr]; exact .refl s
  | some c =>
      obtain ⟨q, hq, -, -, heq⟩ := @complete_of_onComm_some env _ _ _ err now hr
      have hon := @complete_onComm env s r err now
      refine ⟨?_, fun r' => ?_, fun r' hr' => ?_, fun r' q' hq' => ?_, ?_⟩
      · rw [heq]
        split
        case isTrue => exact onRequestComplete_fixed ..
        case isFalse => rfl
      · rw [hon]
        by_cases h : r' = r
        · exact .inr (by rw [h, Function.update_self])
        · exact .inl (Function.update_of_ne h ..)
      · rw [hon] at hr'
        have h : r' ≠ r := by rintro rfl; simp at hr'
        rw [heq, completeBody_requests, Function.update_of_ne h]
      · rw [heq, completeBody_requests] at hq'
        by_cases h : r' = r
        · subst h
          rw [Function.update_self, hq, Option.map_some] at hq'
          exact ⟨q, hq, by rw [← Option.some.inj hq']⟩
        · rw [Function.update_of_ne h] at hq'
          exact ⟨q', hq', rfl⟩
      · rw [heq]
        split
        case isTrue => exact onRequestComplete_anys_subset ..
        case isFalse => exact Finset.Subset.refl _

/-- No entry of the fabric says that the communicator is broken. -/
theorem cqErrorCode_ne (err : ℤ) : cqErrorCode err ≠ -lfiBrokenComm := by
  unfold cqErrorCode
  split
  case isTrue => decide
  case isFalse =>
    split
    case isTrue => decide
    case isFalse => split <;> decide

/-- A cancelled request has an error. -/
theorem cancelError_ne (s : Ft) (q : LfiRequest) : cancelError s q ≠ lfiSuccess := by
  unfold cancelError
  split <;> decide

/-- **Progress induction.**  What survives a change of contexts and queues, a
`complete` with an error a progress step gives and a receive survives an event, and a word
read by a heartbeat if the event is one. -/
theorem fabricEvent_induction_of {P : State → Prop} (e : FabricEvent)
    (hcore : ∀ (s : State) c, c.requests = s.core.requests →
      c.completions = s.core.completions → P s → P { s with core := c })
    (hcomplete : ∀ s r err now, err ≠ -lfiBrokenComm → P s → P (complete env s r err now))
    (hreceive : ∀ s r len tag now, P s → P (receive env s r len tag now))
    (hvalue : ∀ c value, e = .heartbeatValue c value →
      P { s with ft := s.ft.setComm c { s.ft.comm c with ftValueHeartbeat := value } })
    (hs : P s) : P (fabricEvent env s e) := by
  have hat : ∀ (s : State) ctx err now, err ≠ -lfiBrokenComm → P s →
      P (completeAt env s ctx err now) := by
    intro s ctx err now herr hs
    unfold completeAt
    cases s.core.contexts ctx with
    | none => exact hs
    | some r => exact hcomplete _ _ _ _ herr hs
  have hpost : ∀ (s : State) op ret now, P s → P (postOp env s op ret now) := by
    intro s op ret now hs
    unfold postOp
    split
    case isTrue => exact hat _ _ _ _ (by decide) hs
    case isFalse =>
      split
      case isTrue => exact hcore _ _ rfl rfl (hat _ _ _ _ (by decide) hs)
      case isFalse => exact hcore _ _ rfl rfl hs
  have hqueue : ∀ now ops answers (s : State),
      P s → P (processQueue env now ops answers s).2.2 := by
    intro now ops
    induction ops with
    | nil => intro answers s hs; exact hs
    | cons op ops ih =>
        intro answers s hs
        cases answers with
        | nil => exact hs
        | cons ret answers =>
            unfold processQueue
            split
            case isTrue => exact hs
            case isFalse => exact ih _ _ (hpost _ _ _ _ hs)
  cases e with
  | success ctx len tag now =>
      simp only [fabricEvent]
      split
      case isTrue =>
        have htake := hcore s (takeBack s.core ctx) rfl rfl hs
        refine hcore _ _ rfl rfl ?_
        unfold receiveAt
        cases (takeBack s.core ctx).contexts ctx with
        | none => exact htake
        | some r => exact hreceive _ r len tag now htake
      case isFalse => exact hs
  | error ctx err =>
      simp only [fabricEvent]
      split
      case isTrue =>
        exact hcore _ _ rfl rfl
          (hat _ ctx _ 0 (cqErrorCode_ne err) (hcore s (takeBack s.core ctx) rfl rfl hs))
      case isFalse => exact hs
  | heartbeatValue c value => exact hvalue c value rfl
  | postPendingOps answers now =>
      simp only [fabricEvent, postPendingOps]
      have hprio := hcore _ { (processQueue env now s.core.priorityOps answers s).2.2.core with
        priorityOps := (processQueue env now s.core.priorityOps answers s).1 } rfl rfl
        (hqueue now s.core.priorityOps answers s hs)
      split
      case isTrue => exact hcore _ _ rfl rfl (hqueue _ _ _ _ hprio)
      case isFalse => exact hprio

/-- The same of what survives a word read by a heartbeat. -/
theorem fabricEvent_induction {P : State → Prop}
    (hcore : ∀ (s : State) c, c.requests = s.core.requests →
      c.completions = s.core.completions → P s → P { s with core := c })
    (hcomplete : ∀ s r err now, err ≠ -lfiBrokenComm → P s → P (complete env s r err now))
    (hreceive : ∀ s r len tag now, P s → P (receive env s r len tag now))
    (hvalue : ∀ (s : State) c value, P s →
      P { s with ft := s.ft.setComm c { s.ft.comm c with ftValueHeartbeat := value } })
    (hs : P s) (e : FabricEvent) : P (fabricEvent env s e) :=
  fabricEvent_induction_of e hcore hcomplete hreceive (fun c value _ => hvalue s c value hs) hs

/-- The fields an entry sets do not decide who is outstanding. -/
theorem received_onComm (s : Core) (r : ReqId) (len tag : ℕ) :
    (s.setRequest r ((s.requests r).map fun q => q.received len tag)).onComm = s.onComm := by
  have hq : ∀ q : LfiRequest, (q.received len tag).isCompleted = q.isCompleted ∧
      (q.received len tag).commId = q.commId := fun q => by
    unfold LfiRequest.received LfiRequest.isCompleted
    split <;> exact ⟨rfl, rfl⟩
  funext r'
  simp only [Core.onComm, Core.setRequest]
  by_cases h : r' = r
  · subst h
    rw [Function.update_self]
    cases s.requests r' with
    | none => rfl
    | some q => simp [hq q]
  · rw [Function.update_of_ne h]

theorem receive_onComm (r : ReqId) (len tag : ℕ) (now : ℤ) :
    (receive env s r len tag now).core.onComm = Function.update s.core.onComm r none := by
  unfold receive
  rw [complete_onComm, received_onComm]

theorem receive_progressed (r : ReqId) (len tag : ℕ) (now : ℤ) :
    Progressed s (receive env s r len tag now) := by
  have h := @complete_progressed env ⟨s.core.setRequest r
    ((s.core.requests r).map fun q => q.received len tag), s.ft⟩ r lfiSuccess now
  refine ⟨h.fixed, fun r' => ?_, fun r' hr' => ?_, fun r' q' hq' => ?_, h.anys⟩
  · have hon := h.onComm r'
    rwa [received_onComm] at hon
  · have hne : r' ≠ r := by
      rintro rfl
      simp [receive_onComm] at hr'
    refine (h.kept r' hr').trans ?_
    simp [Core.setRequest, hne]
  · obtain ⟨q, hq, hid⟩ := h.commId r' q' hq'
    by_cases hr : r' = r
    · subst hr
      simp only [Core.setRequest, Function.update_self] at hq
      obtain ⟨p, hp, rfl⟩ := Option.map_eq_some_iff.1 hq
      refine ⟨p, hp, Eq.trans ?_ hid⟩
      unfold LfiRequest.received
      split <;> rfl
    · exact ⟨q, by simpa [Core.setRequest, hr] using hq, hid⟩

theorem heartbeatValue_progressed (c : CommId) (value : ℕ) :
    Progressed s
      { s with ft := s.ft.setComm c { s.ft.comm c with ftValueHeartbeat := value } } := by
  refine ⟨?_, fun _ => .inl rfl, fun _ _ => rfl, fun _ q hq => ⟨q, hq, rfl⟩,
    Finset.Subset.refl _⟩
  simp only [Ft.fixed, Ft.setComm, Ft.mk.injEq, true_and, and_true]
  funext d
  by_cases hd : d = c
  · subst hd; simp [LfiComm.fixed]
  · simp [hd]

theorem fabricEvent_progressed (e : FabricEvent) : Progressed s (fabricEvent env s e) :=
  fabricEvent_induction (P := Progressed s)
    (fun _ _ hc _ h => h.trans (progressed_core hc))
    (fun _ r err now _ h => h.trans (complete_progressed r err now))
    (fun _ r len tag now h => h.trans (receive_progressed r len tag now))
    (fun _ c value h => h.trans (heartbeatValue_progressed c value)) (.refl s) e

/-- What one event keeps a whole progress step keeps. -/
theorem progress_induction {P : State → Prop} (hevent : ∀ s e, P s → P (fabricEvent env s e))
    (hs : P s) (events : List FabricEvent) : P (progress env events s) := by
  induction events generalizing s with
  | nil => exact hs
  | cons e events ih => exact ih (hevent s e hs)

theorem progress_progressed (events : List FabricEvent) :
    Progressed s (progress env events s) :=
  progress_induction (P := Progressed s) (fun _ e h => h.trans (fabricEvent_progressed e))
    (.refl s) events

/-- **The parts of a `cancel`.**  It erases the operation of the request, makes a progress
step and completes the request with an error. -/
theorem cancel_parts {P : State → Prop} {r : ReqId} {events : List FabricEvent}
    (herase : ∀ q, s.core.requests r = some q → P ⟨eraseOps s.core q.waitContext, s.ft⟩)
    (hprogress : ∀ t, P t → P (progress env events t))
    (hcomplete : ∀ t err, err ≠ lfiSuccess → P t → P (complete env t r err 0)) (hs : P s) :
    P (cancel env s r events) := by
  cases hq : s.core.requests r with
  | none =>
      rw [cancel_of_none hq]
      exact hs
  | some q =>
      cases hdone : q.isCompleted with
      | true =>
          rw [cancel_of_completed hq hdone]
          exact herase q hq
      | false =>
          rw [cancel_of_outstanding hq hdone]
          exact hcomplete _ _ (cancelError_ne s.ft q) (hprogress _ (herase q hq))

/-- **Cancel induction.**  What survives a change of the queues, an event and a
`complete` of its request survives a `cancel`. -/
theorem cancel_induction {P : State → Prop} {r : ReqId}
    (hcore : ∀ (s : State) c, c.requests = s.core.requests →
      c.completions = s.core.completions → P s → P { s with core := c })
    (hevent : ∀ s e, P s → P (fabricEvent env s e))
    (hcomplete : ∀ s err now, P s → P (complete env s r err now)) (hs : P s)
    (events : List FabricEvent) : P (cancel env s r events) := by
  have herase : ∀ w, P ⟨eraseOps s.core w, s.ft⟩ := fun w =>
    hcore s _ (by cases w <;> rfl) (by cases w <;> rfl) hs
  exact cancel_parts (fun q _ => herase q.waitContext)
    (fun _ ht => progress_induction hevent ht events) (fun t err _ ht => hcomplete t err 0 ht) hs

/-- A `cancel` is a progress step too. -/
theorem cancel_progressed (r : ReqId) (events : List FabricEvent) :
    Progressed s (cancel env s r events) :=
  cancel_induction (P := Progressed s) (fun _ _ hc _ h => h.trans (progressed_core hc))
    (fun _ e h => h.trans (fabricEvent_progressed e))
    (fun _ err now h => h.trans (complete_progressed r err now)) (.refl s) events

/-- Nothing is outstanding of what is cancelled. -/
theorem cancel_onComm (r : ReqId) (events : List FabricEvent) :
    (cancel env s r events).core.onComm r = none := by
  cases hr : s.core.requests r with
  | none =>
      rw [cancel_of_none hr]
      simp [Core.onComm, hr]
  | some q =>
      cases hdone : q.isCompleted with
      | true =>
          have hsame : (eraseOps s.core q.waitContext).requests = s.core.requests := by
            cases q.waitContext <;> rfl
          rw [cancel_of_completed hr hdone, Core.onComm_congr (congrFun hsame r)]
          simp [Core.onComm, hr, hdone]
      | false => rw [cancel_of_outstanding hr hdone, complete_onComm, Function.update_self]

/-- **Free induction.**  Freeing a request cancels it if it is outstanding, and then
there is a completed request less. -/
theorem requestFree_induction {P : State → Prop} {r : ReqId} {events : List FabricEvent}
    (hcancel : ∀ s, P s → P (cancel env s r events))
    (hclear : ∀ s : State, s.core.onComm r = none → P s →
      P { s with core := s.core.setRequest r none }) (hs : P s) :
    P (requestFree env s r events) := by
  cases hr : s.core.requests r with
  | none =>
      rw [requestFree_of_none hr]
      exact hs
  | some q =>
      cases hdone : q.isCompleted with
      | true =>
          rw [requestFree_of_completed hr hdone]
          exact hclear s (by simp [Core.onComm, hr, hdone]) hs
      | false =>
          rw [requestFree_of_outstanding hr hdone]
          exact hclear _ (cancel_onComm r events) (hcancel s hs)

/-- A completed request is gone. -/
theorem clear_onComm {s : Core} {r : ReqId} (hr : s.onComm r = none) :
    (s.setRequest r none).onComm = s.onComm := by
  funext r'
  by_cases h : r' = r
  · subst h
    exact Eq.trans (by simp [Core.onComm, Core.setRequest]) hr.symm
  · exact Core.onComm_congr (by simp [Core.setRequest, h])

theorem clear_progressed {r : ReqId} (hr : s.core.onComm r = none) :
    Progressed s { s with core := s.core.setRequest r none } := by
  refine ⟨rfl, fun r' => .inl (congrFun (clear_onComm hr) r'), fun r' hr' => ?_,
    fun r' q' hq' => ?_, Finset.Subset.refl _⟩ <;> by_cases h : r' = r
  · subst h
    exact absurd (by rw [clear_onComm hr, hr]) hr'
  · simp [Core.setRequest, h]
  · simp [Core.setRequest, h] at hq'
  · exact ⟨q', by simpa [Core.setRequest, h] using hq', rfl⟩

/-- Freeing a request is a progress step. -/
theorem requestFree_progressed (r : ReqId) (events : List FabricEvent) :
    Progressed s (requestFree env s r events) :=
  requestFree_induction (P := Progressed s) (fun _ h => h.trans (cancel_progressed r events))
    (fun _ hr h => h.trans (clear_progressed hr)) (.refl s)

/-! ### The lists along a progress step -/

theorem Tracked.core (h : Tracked s) {c : Core} (hc : c.onComm = s.core.onComm) :
    Tracked { s with core := c } := by
  unfold Tracked
  rw [hc]
  exact h

theorem Tracked.receive (h : Tracked s) (hft : env.faultTolerance = true) (r : ReqId)
    (len tag : ℕ) (now : ℤ) : Tracked (receive env s r len tag now) := by
  unfold Impl.receive
  exact (h.core (received_onComm ..)).complete hft ..

theorem Tracked.fabricEvent (h : Tracked s) (hft : env.faultTolerance = true) (e : FabricEvent) :
    Tracked (fabricEvent env s e) := by
  refine fabricEvent_induction (P := Tracked) (fun s c hc _ hs => hs.core (Core.onComm_eq hc))
    (fun s r err now _ hs => hs.complete hft r err now)
    (fun s r len tag now hs => hs.receive hft r len tag now) (fun s c value hs => ?_) h e
  exact Tracks.congr hs rfl rfl (Ft.setComm_same (·.ftRequests) rfl)

/-- With fault tolerance the lists follow what is completed. -/
theorem Tracked.cancel (h : Tracked s) (hft : env.faultTolerance = true) (r : ReqId)
    (events : List FabricEvent) : Tracked (cancel env s r events) :=
  cancel_induction (P := Tracked) (fun _ _ hc _ hs => hs.core (Core.onComm_eq hc))
    (fun _ e hs => hs.fabricEvent hft e) (fun _ err now hs => hs.complete hft r err now) h events

theorem Tracked.requestFree (h : Tracked s) (hft : env.faultTolerance = true) (r : ReqId)
    (events : List FabricEvent) : Tracked (requestFree env s r events) :=
  requestFree_induction (P := Tracked) (fun _ hs => hs.cancel hft r events)
    (fun _ hr hs => hs.core (clear_onComm hr)) h

end Impl
end Lfi
