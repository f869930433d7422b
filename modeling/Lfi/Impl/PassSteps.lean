/-
# The steps of a monitoring pass

What `process_comm` and `cancel_comm` do, once for all properties of a pass.
`processComm_cases` and `startHeartbeat_cases` list the branches of `process_comm`.
`cancelComm_eq` says that `cancel_comm` marks its communicator, then takes progress
steps until nothing is outstanding on it, and takes it out of `ft_comms`.
-/

import Lfi.Impl.Progressed

namespace Lfi
namespace Impl

variable {env : Env} {s t : State} {c : CommId}

/-! ### What progress keeps of the communicators -/

theorem Progressed.commIds (h : Progressed s t) : t.ft.commIds = s.ft.commIds :=
  show t.ft.fixed.commIds = s.ft.fixed.commIds by rw [h.fixed]

theorem Progressed.commNodes (h : Progressed s t) : t.ft.commNodes = s.ft.commNodes :=
  show t.ft.fixed.commNodes = s.ft.fixed.commNodes by rw [h.fixed]

theorem Progressed.ftComms (h : Progressed s t) : t.ft.ftComms = s.ft.ftComms :=
  show t.ft.fixed.ftComms = s.ft.fixed.ftComms by rw [h.fixed]

theorem Progressed.ftPendingFailedComms (h : Progressed s t) :
    t.ft.ftPendingFailedComms = s.ft.ftPendingFailedComms :=
  show t.ft.fixed.ftPendingFailedComms = s.ft.fixed.ftPendingFailedComms by rw [h.fixed]

theorem Progressed.ftCanceledComs (h : Progressed s t) :
    t.ft.ftCanceledComs = s.ft.ftCanceledComs :=
  show t.ft.fixed.ftCanceledComs = s.ft.fixed.ftCanceledComs by rw [h.fixed]

theorem Progressed.ftRequestsToCancel (h : Progressed s t) :
    t.ft.ftRequestsToCancel = s.ft.ftRequestsToCancel :=
  show t.ft.fixed.ftRequestsToCancel = s.ft.fixed.ftRequestsToCancel by rw [h.fixed]

theorem Progressed.failed (h : Progressed s t) : t.ft.failed = s.ft.failed :=
  show t.ft.fixed.failed = s.ft.fixed.failed by rw [h.fixed]

theorem Progressed.comm (h : Progressed s t) (c : CommId) :
    (t.ft.comm c).fixed = (s.ft.comm c).fixed :=
  show t.ft.fixed.comm c = s.ft.fixed.comm c by rw [h.fixed]

theorem Progressed.isCanceled (h : Progressed s t) (c : CommId) :
    (t.ft.comm c).isCanceled = (s.ft.comm c).isCanceled :=
  show (t.ft.comm c).fixed.isCanceled = (s.ft.comm c).fixed.isCanceled by rw [h.comm]

theorem Progressed.ftCurrentStatus (h : Progressed s t) (c : CommId) :
    (t.ft.comm c).ftCurrentStatus = (s.ft.comm c).ftCurrentStatus :=
  show (t.ft.comm c).fixed.ftCurrentStatus = (s.ft.comm c).fixed.ftCurrentStatus by rw [h.comm]

theorem Progressed.onComm_some (h : Progressed s t) {r : ReqId} (hr : t.core.onComm r = some c) :
    s.core.onComm r = some c := by
  rcases h.onComm r with hr' | hr'
  · exact hr'.symm.trans hr
  · rw [hr'] at hr; cases hr

/-! ### Registering -/

/-- `register_request` changes the list of monitored communicators by a `push_back`
at most. -/
theorem registerRequest_fixed (s : Ft) (r : ReqId) (c : CommId) :
    (registerRequest s r c).fixed =
      if isAnyComm c = true ∨ (s.commNodes c).inserted = true then s.fixed
      else (pushComm s c).fixed := by
  have hpush : ∀ s : Ft, (pushRequest s r c).fixed = s.fixed := fun s => by
    simp only [pushRequest, Ft.fixed, Ft.setComm, Ft.mk.injEq, true_and, and_true]
    funext d
    by_cases hd : d = c
    · subst hd; simp [LfiComm.fixed]
    · simp [hd]
  unfold registerRequest
  rw [hpush]
  by_cases hany : isAnyComm c = true
  · simp [hany, Ft.fixed]
  · by_cases hins : (s.commNodes c).inserted = true <;> simp [hany, hins]

/-- `register_request` touches its communicator only. -/
theorem registerRequest_comm (s : Ft) (r : ReqId) {c d : CommId} (hd : d ≠ c) :
    (registerRequest s r c).comm d = s.comm d := by
  unfold registerRequest pushRequest
  dsimp only
  rw [Ft.setComm_comm, if_neg hd]
  split
  case isTrue => rfl
  case isFalse => split <;> rfl

/-- Only requests of the any-communicator are on its list. -/
theorem registerRequest_anys (s : Ft) (r : ReqId) (c : CommId) :
    (registerRequest s r c).ftAnyCommRequests =
      if isAnyComm c = true then insert r s.ftAnyCommRequests else s.ftAnyCommRequests := by
  unfold registerRequest
  dsimp only
  split
  case isTrue => rfl
  case isFalse => split <;> rfl

/-- The mark of a heartbeat and its registration do not meet. -/
theorem markHeartbeat_registerRequest (s : Ft) (r : ReqId) (c : CommId) (beat : ℤ) :
    markHeartbeat (registerRequest s r c) c beat =
      registerRequest (markHeartbeat s c beat) r c := by
  unfold registerRequest markHeartbeat pushRequest pushComm
  by_cases hany : isAnyComm c = true
  · simp [hany, Ft.setComm]
  · by_cases hins : (s.commNodes c).inserted = true <;> simp [hany, hins, Ft.setComm]

/-! ### Branches of `process_comm` -/

/-- The five branches of `process_comm`. -/
theorem processComm_cases (env : Env) (now : ℤ) (beat : CommId → ℤ) (s : State) (c : CommId) :
    ((s.ft.comm c).ftRequests.size = 0 ∧
      processComm env now beat s c = { s with ft := eraseComm s.ft c }) ∨
    ((s.ft.comm c).ftRequests.size ≠ 0 ∧ (s.ft.comm c).ftCurrentStatus = .idle ∧
      Due env (s.ft.comm c) now ∧
      processComm env now beat s c = startHeartbeat env s c (beat c)) ∨
    ((s.ft.comm c).ftRequests.size ≠ 0 ∧ (s.ft.comm c).ftCurrentStatus = .heartbeat ∧
      Answered s c ∧ processComm env now beat s c =
        { s with ft := s.ft.setComm c { s.ft.comm c with ftCurrentStatus := .idle } }) ∨
    ((s.ft.comm c).ftRequests.size ≠ 0 ∧ (s.ft.comm c).ftCurrentStatus = .heartbeat ∧
      ¬ Answered s c ∧ Overdue env (s.ft.comm c) now ∧
      processComm env now beat s c = { s with ft := giveUp s.ft c }) ∨
    ((s.ft.comm c).ftRequests.size ≠ 0 ∧
      ((s.ft.comm c).ftCurrentStatus = .idle → ¬ Due env (s.ft.comm c) now) ∧
      ((s.ft.comm c).ftCurrentStatus = .heartbeat →
        ¬ Answered s c ∧ ¬ Overdue env (s.ft.comm c) now) ∧
      processComm env now beat s c = s) := by
  by_cases hsize : (s.ft.comm c).ftRequests.size = 0
  · exact .inl ⟨hsize, processComm_of_empty hsize beat⟩
  · refine .inr ?_
    cases hst : (s.ft.comm c).ftCurrentStatus with
    | idle =>
        rw [processComm_of_idle hsize hst]
        by_cases hdue : Due env (s.ft.comm c) now
        · exact .inl ⟨hsize, rfl, hdue, if_pos hdue⟩
        · exact .inr (.inr (.inr ⟨hsize, fun _ => hdue, nofun, if_neg hdue⟩))
    | heartbeat =>
        rw [processComm_of_heartbeat hsize hst]
        by_cases hans : Answered s c
        · exact .inr (.inl ⟨hsize, rfl, hans, if_pos hans⟩)
        · rw [if_neg hans]
          by_cases hover : Overdue env (s.ft.comm c) now
          · exact .inr (.inr (.inl ⟨hsize, rfl, hans, hover, if_pos hover⟩))
          · exact .inr (.inr (.inr ⟨hsize, nofun, fun _ => ⟨hans, hover⟩, if_neg hover⟩))
    | error =>
        exact .inr (.inr (.inr ⟨hsize, nofun, nofun, processComm_of_error hsize hst beat⟩))

/-- The heartbeat request of a communicator is on that communicator. -/
def HeartbeatIds (s : Core) : Prop :=
  ∀ c q, s.requests (.heartbeat c) = some q → q.commId = c

/-- No step moves a heartbeat to another communicator. -/
theorem HeartbeatIds.progress (hids : HeartbeatIds s.core) (h : Progressed s t) :
    HeartbeatIds t.core := fun c q hq => by
  obtain ⟨q', hq', hid⟩ := h.commId _ q hq
  exact hid.symm.trans (hids c q' hq')

/-- A post leaves requests on their communicators. -/
theorem HeartbeatIds.postCore {s : Core} (hids : HeartbeatIds s) {r : ReqId}
    (hon : s.onComm r = none) (f : RequestFields) (o : OpFields) (priority : Bool) :
    HeartbeatIds (postCore s r f o priority) := fun d p hp => by
  have hmap := postCore_commId hon f o priority (.heartbeat d)
  rw [hp, Option.map_some, eq_comm, Option.map_eq_some_iff] at hmap
  obtain ⟨p', hp', hid⟩ := hmap
  exact hid.symm.trans (hids d p' hp')

theorem Fresh.heartbeatIds (h : Fresh s) : HeartbeatIds s.core := fun c q hq => by
  rw [h.noHeartbeat] at hq; cases hq

/-- What the pass asks of the heartbeat before it posts one. -/
theorem heartbeatFree_iff {s : Core} :
    heartbeatFree s c = true ↔ s.onComm (.heartbeat c) = none := by
  unfold heartbeatFree Core.onComm
  cases s.requests (.heartbeat c) with
  | none => simp
  | some q => cases hq : q.isCompleted <;> simp [hq]

/-- The heartbeat request before the read is posted: there, completed and reset. -/
theorem ensureHeartbeat_spec {s : Core} (hids : HeartbeatIds s) :
    (ensureHeartbeat s c).onComm = s.onComm ∧ HeartbeatIds (ensureHeartbeat s c) ∧
      (∀ r, r ≠ .heartbeat c → (ensureHeartbeat s c).requests r = s.requests r) ∧
      ∃ q, (ensureHeartbeat s c).requests (.heartbeat c) = some q ∧ q.commId = c := by
  unfold ensureHeartbeat
  cases hr : s.requests (.heartbeat c) with
  | none =>
      refine ⟨funext fun r => ?_, fun d q hq => ?_, fun r h => ?_, LfiRequest.new c, ?_, rfl⟩
      · by_cases h : r = .heartbeat c
        · subst h
          simp [Core.onComm, Core.setRequest, hr, LfiRequest.new, LfiRequest.isCompleted]
        · exact Core.onComm_congr (by simp [Core.setRequest, h])
      · by_cases hd : d = c
        · subst hd
          obtain rfl : LfiRequest.new d = q := by simpa [Core.setRequest] using hq
          rfl
        · exact hids d q (by simpa [Core.setRequest, hd] using hq)
      · simp [Core.setRequest, h]
      · simp [Core.setRequest]
  | some q => exact ⟨rfl, hids, fun _ _ => rfl, q, hr, hids c q hr⟩

/-- **What starting a heartbeat does.**  While the last one is outstanding, nothing;
on a communicator that is cancelled or not there it gives up; otherwise the read is
posted. -/
theorem startHeartbeat_cases (hids : HeartbeatIds s.core) (c : CommId) (beat : ℤ) :
    (s.core.onComm (.heartbeat c) ≠ none ∧ startHeartbeat env s c beat = s) ∨
    ∃ core, s.core.onComm (.heartbeat c) = none ∧ core.onComm = s.core.onComm ∧
      HeartbeatIds core ∧ (∀ r, r ≠ .heartbeat c → core.requests r = s.core.requests r) ∧
      core.completions = s.core.completions ∧
      (((c ∈ s.ft.commIds → (s.ft.comm c).isCanceled = true) ∧
          startHeartbeat env s c beat = ⟨core, giveUp (clearValue s.ft c) c⟩) ∨
        ∃ q f o, c ∈ s.ft.commIds ∧ (s.ft.comm c).isCanceled = false ∧
          core.requests (.heartbeat c) = some q ∧ q.commId = c ∧
          startHeartbeat env s c beat = ⟨postCore core (.heartbeat c) f o true,
            markHeartbeat (if env.faultTolerance then
              registerRequest (clearValue s.ft c) (.heartbeat c) c else clearValue s.ft c)
              c beat⟩) := by
  obtain ⟨hon, hids', hkeep, q, hq, hqc⟩ := ensureHeartbeat_spec (c := c) hids
  by_cases hfree : s.core.onComm (.heartbeat c) = none
  · have hfree' : heartbeatFree (ensureHeartbeat s.core c) c = true :=
      heartbeatFree_iff.2 (by rw [hon]; exact hfree)
    obtain ⟨hron, hrid⟩ := reset_onComm (s := ensureHeartbeat s.core c) (r := .heartbeat c)
      (by rw [hon]; exact hfree)
    have hrkeep : ∀ r, r ≠ .heartbeat c →
        (reset (ensureHeartbeat s.core c) (.heartbeat c)).requests r = s.core.requests r := by
      intro r h
      rw [← hkeep r h, reset, hq]
      simp [Core.setRequest, h]
    rw [hq, Option.map_some, Option.map_eq_some_iff] at hrid
    obtain ⟨q', hq', hid⟩ := hrid
    have hq'c : q'.commId = c := hid.trans hqc
    have hcompl : (reset (ensureHeartbeat s.core c) (.heartbeat c)).completions =
        s.core.completions := by
      obtain ⟨requests, contexts, hreset⟩ := reset_eq (ensureHeartbeat s.core c) (.heartbeat c)
      rw [hreset]
      unfold ensureHeartbeat
      cases s.core.requests (.heartbeat c) <;> rfl
    refine .inr ⟨reset (ensureHeartbeat s.core c) (.heartbeat c), hfree, hron.trans hon,
      fun d p hp => ?_, hrkeep, hcompl, ?_⟩
    · by_cases hd : d = c
      · subst hd
        rw [hq'] at hp
        rwa [← Option.some.inj hp]
      · rw [hrkeep _ (by simpa using hd)] at hp
        exact hids d p hp
    · have hcomm : ((clearValue s.ft c).comm c).isCanceled = (s.ft.comm c).isCanceled := by
        rw [clearValue, Ft.setComm_comm, if_pos rfl]
      unfold startHeartbeat
      simp only [hfree', if_true, asyncGet, withComm, hq', hq'c, hcomm]
      by_cases hin : c ∈ (clearValue s.ft c).commIds
      · rw [if_pos hin]
        cases hcan : (s.ft.comm c).isCanceled with
        | true => exact .inl ⟨fun _ => rfl, by simp [lfiBrokenComm]⟩
        | false => exact .inr ⟨q', _, _, hin, rfl, rfl, hq'c, rfl⟩
      · rw [if_neg hin]
        exact .inl ⟨fun h => absurd h hin, by simp [lfiCommNotFound]⟩
  · have hfree' : heartbeatFree (ensureHeartbeat s.core c) c = false := by
      rw [Bool.eq_false_iff, Ne, heartbeatFree_iff, hon]
      exact hfree
    have hens : ensureHeartbeat s.core c = s.core := by
      unfold ensureHeartbeat
      cases hr : s.core.requests (.heartbeat c) with
      | none => exact absurd (by simp [Core.onComm, hr]) hfree
      | some p => rfl
    refine .inl ⟨hfree, ?_⟩
    rw [hens] at hfree'
    unfold startHeartbeat
    simp [hfree', hens]

/-! ### `cancel_comm` -/

/-- The first assignment of `cancel_comm`. -/
def markCanceled (s : State) (c : CommId) : State :=
  { s with ft := s.ft.setComm c { s.ft.comm c with isCanceled := true } }

/-- **Induction on the loop of `cancel_comm`.**  What survives a `cancel` of the first
outstanding request survives the loop. -/
theorem cancelRequests_induction {P : State → Prop} {events : ReqId → List FabricEvent}
    {c : CommId} (hcancel : ∀ t r, (t.ft.comm c).ftRequests.head = some r → P t →
      P (cancel env t r (events r))) (hs : P s) (fuel : ℕ) :
    P (cancelRequests env events c fuel s) := by
  induction fuel generalizing s with
  | zero => exact hs
  | succ fuel ih =>
      cases hhead : (s.ft.comm c).ftRequests.head with
      | none =>
          rw [cancelRequests_of_head_none hhead]
          exact hs
      | some r =>
          rw [cancelRequests_of_head_some hhead]
          exact ih (hcancel s r hhead hs)

/-- The loop over the requests only completes them. -/
theorem cancelRequests_progressed (events : ReqId → List FabricEvent) (c : CommId) (fuel : ℕ) :
    Progressed s (cancelRequests env events c fuel s) :=
  cancelRequests_induction (P := Progressed s)
    (fun _ r _ h => h.trans (cancel_progressed r (events r))) (.refl s) fuel

theorem Tracked.cancelRequests (h : Tracked s) (hft : env.faultTolerance = true)
    (events : ReqId → List FabricEvent) (c : CommId) (fuel : ℕ) :
    Tracked (cancelRequests env events c fuel s) :=
  cancelRequests_induction (P := Tracked) (fun _ r _ h => h.cancel hft r (events r)) h fuel

/-- Each round of the loop completes a request of the communicator, so as many
rounds as it has requests leave none. -/
theorem cancelRequests_drains (h : Tracked s) (hft : env.faultTolerance = true)
    (hc : c ∈ s.ft.commIds) (events : ReqId → List FabricEvent) {fuel : ℕ}
    (hfuel : (s.ft.comm c).ftRequests.size.toNat ≤ fuel) (r : ReqId) :
    (cancelRequests env events c fuel s).core.onComm r ≠ some c := by
  induction fuel generalizing s with
  | zero =>
      obtain ⟨xs, hrep, -⟩ := h.rep c hc
      refine (Tracks.size_eq_zero h hc).1 ?_ r
      have := hrep.size_eq
      omega
  | succ fuel ih =>
      obtain ⟨xs, hrep, hmem⟩ := h.rep c hc
      cases hhead : (s.ft.comm c).ftRequests.head with
      | none =>
          rw [cancelRequests_of_head_none hhead]
          rw [hrep.head_eq_none] at hhead
          subst hhead
          exact fun hr => List.not_mem_nil ((hmem r).2 hr)
      | some x =>
          rw [cancelRequests_of_head_some hhead]
          have hprog := @cancel_progressed env s x (events x)
          refine ih (h.cancel hft x (events x)) (by rw [hprog.commIds]; exact hc) ?_
          -- the list after the round has the old members without `x`
          obtain ⟨ys, hys, hmem'⟩ := (h.cancel hft x (events x)).rep c
            (by rw [hprog.commIds]; exact hc)
          have hx : x ∈ xs := List.mem_of_mem_head? (hrep.head_eq ▸ hhead)
          have hsub : ys ⊆ xs.erase x := fun y hy => by
            have hon := (hmem' y).1 hy
            have hne : y ≠ x := by
              rintro rfl
              rw [cancel_onComm] at hon
              cases hon
            refine (List.mem_erase_of_ne hne).2 ((hmem y).2 ?_)
            rcases hprog.onComm y with hy' | hy'
            · rw [← hy', hon]
            · rw [hy'] at hon; cases hon
          have hlen := (List.subperm_of_subset hys.nodup hsub).length_le
          rw [List.length_erase_of_mem hx] at hlen
          have hpos := List.length_pos_of_mem hx
          rw [hrep.size_eq] at hfuel
          rw [hys.size_eq]
          omega

/-- **What `cancel_comm` does.**  It marks the communicator, takes progress steps
after which nothing is outstanding on it, and takes it out of `ft_comms`. -/
theorem cancelComm_eq (env : Env) (events : ReqId → List FabricEvent) (s : State) (c : CommId) :
    ∃ u, Progressed (markCanceled s c) u ∧
      cancelComm env events s c = { u with ft := eraseComm u.ft c } ∧
      (env.faultTolerance = true → Tracked s → Tracked u ∧
        (c ∈ s.ft.commIds → ∀ r, u.core.onComm r ≠ some c)) := by
  have hdrain := @cancelRequests_progressed env (markCanceled s c) events c
    ((markCanceled s c).ft.comm c).ftRequests.size.toNat
  have hfree := @requestFree_progressed env
    (cancelRequests env events c
      ((markCanceled s c).ft.comm c).ftRequests.size.toNat (markCanceled s c)) (.heartbeat c) []
  refine ⟨_, hdrain.trans hfree, rfl, fun hft h => ?_⟩
  have hmark : Tracked (markCanceled s c) :=
    Tracks.congr h rfl rfl (Ft.setComm_same (·.ftRequests) rfl)
  refine ⟨(hmark.cancelRequests hft events c _).requestFree hft _ _, fun hc r hr => ?_⟩
  have hnone := cancelRequests_drains hmark hft hc events (Nat.le_refl _) r
  rcases hfree.onComm r with hr' | hr'
  · exact hnone (hr'.symm.trans hr)
  · rw [hr'] at hr; cases hr

end Impl
end Lfi
