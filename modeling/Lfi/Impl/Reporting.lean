/-
# Cancelling and reporting

The second half of a pass.  The communicators given up are cancelled
(`cancelComms_spec`), and with an any-comm receive outstanding they are reported: a
report is the completion of a request on an any-comm with `-LFI_BROKEN_COMM` and the
failed communicator as its source.  Nothing but `handle_any_comm_reports` makes one
(`cancel_reports`), and `handleAnyCommReports_spec` says which ones it makes.
-/

import Lfi.Impl.PassInvariant

namespace Lfi
namespace Impl

variable {env : Env} {s t : State} {c : CommId} {r : ReqId}

/-! ### Reports -/

/-- The completion reports the communicator `c`. -/
def Completion.Reports (d : Completion) (c : CommId) : Prop :=
  isAnyComm d.commId = true ∧ d.error = -lfiBrokenComm ∧ d.source = c

instance (d : Completion) (c : CommId) : Decidable (d.Reports c) :=
  inferInstanceAs (Decidable (_ ∧ _))

/-- How many times `c` was reported. -/
def Core.reports (s : Core) (c : CommId) : ℕ := s.completions.countP fun d => d.Reports c

/-- A `complete` of an outstanding request is the last completion. -/
theorem complete_completions {q : LfiRequest} (hr : s.core.requests r = some q)
    (hq : q.isCompleted = false) (err now : ℤ) :
    (complete env s r err now).core.completions =
      s.core.completions ++ [⟨r, q.commId, err, q.source⟩] := by
  obtain ⟨contexts, hctx⟩ := unassign_eq s.core q.waitContext
  simp only [complete, completeBody, hr, hq, hctx]
  cases q.sharedWaitStruct <;> cases q.callback <;> simp [Core.setRequest]

/-- A `complete` that cannot be a report. -/
theorem complete_reports {err : ℤ} (h : err = -lfiBrokenComm →
      ∀ q, s.core.requests r = some q → q.isCompleted = false → isAnyComm q.commId = false)
    (now : ℤ) : (complete env s r err now).core.reports = s.core.reports := by
  funext c
  cases hr : s.core.onComm r with
  | none => rw [complete_of_onComm_none hr]
  | some d =>
      obtain ⟨q, hq, hqc, -⟩ := Core.onComm_eq_some.1 hr
      have hno : ¬ (⟨r, q.commId, err, q.source⟩ : Completion).Reports c := fun hrep => by
        have := h hrep.2.1 q hq hqc
        rw [show isAnyComm q.commId = true from hrep.1] at this
        cases this
      unfold Core.reports
      rw [complete_completions hq hqc, List.countP_append]
      simp [hno]

/-- The fabric reports no communicator. -/
theorem fabricEvent_reports (e : FabricEvent) :
    (fabricEvent env s e).core.reports = s.core.reports := by
  refine fabricEvent_induction (P := fun t => t.core.reports = s.core.reports)
    (fun u k _ hk hu => ?_) (fun u r err now herr hu => ?_) (fun u r len tag now hu => ?_)
    (fun u c value hu => hu) rfl e
  · refine Eq.trans ?_ hu
    unfold Core.reports
    rw [show ({ u with core := k } : State).core = k from rfl, hk]
  · exact (complete_reports (fun h => absurd h herr) now).trans hu
  · exact (complete_reports (s := ⟨_, u.ft⟩) (fun h => by cases h) now).trans hu

/-- **No report outside the report step.**  A `cancel` of a request that the pass has
not put up for cancelling is no report. -/
theorem cancel_reports (h : EngineInv s) (hr : r ∉ s.ft.ftRequestsToCancel)
    (events : List FabricEvent) : (cancel env s r events).core.reports = s.core.reports := by
  cases hq : s.core.requests r with
  | none => rw [cancel_of_none hq]
  | some q =>
      have herase : ∀ w, (eraseOps s.core w).reports = s.core.reports ∧
          (eraseOps s.core w).requests = s.core.requests := fun w => by
        cases w <;> exact ⟨rfl, rfl⟩
      cases hdone : q.isCompleted with
      | true =>
        rw [cancel_of_completed hq hdone]
        exact (herase _).1
      | false =>
        rw [cancel_of_outstanding hq hdone]
        have hprog := @progress_progressed env ⟨eraseOps s.core q.waitContext, s.ft⟩
          events
        have hsame := @progress_induction env ⟨eraseOps s.core q.waitContext, s.ft⟩
          (fun t => t.core.reports = s.core.reports)
          (fun u e hu => (fabricEvent_reports e).trans hu) (herase _).1 events
        refine (complete_reports (fun herr q' hq' hc' => ?_) 0).trans hsame
        -- the request is still as it was, so it is on a peer
        have hkept := hprog.kept r (by simp [Core.onComm, hq', hc'])
        rw [hq', show (eraseOps s.core q.waitContext).requests r = some q from
          (congrFun (herase _).2 r).trans hq] at hkept
        obtain rfl := Option.some.inj hkept
        by_contra hany
        rw [Bool.not_eq_false] at hany
        obtain ⟨-, herror⟩ := h.anys.plain r q' hq hc' hany
        rw [cancelError, if_neg] at herr
        · cases herr
        · rintro ⟨-, ⟨-, hcan⟩ | hbroken⟩
          · rw [h.anyOpen _ hany] at hcan; cases hcan
          · rcases herror with h0 | h0
            · rw [h0] at hbroken; cases hbroken
            · exact hr h0

/-- Freeing a request is no report either. -/
theorem requestFree_reports (h : EngineInv s) (hr : r ∉ s.ft.ftRequestsToCancel)
    (events : List FabricEvent) : (requestFree env s r events).core.reports = s.core.reports := by
  cases hq : s.core.requests r with
  | none => rw [requestFree_of_none hq]
  | some q =>
      cases hdone : q.isCompleted with
      | true =>
        rw [requestFree_of_completed hq hdone]
        rfl
      | false =>
        rw [requestFree_of_outstanding hq hdone]
        exact cancel_reports h hr events

/-! ### Cancelling communicators -/

/-- What cancelling leaves behind: the statuses and what the pass notes down are as
they were, except that the communicators `cs` have failed, and nothing was reported. -/
structure Settled (s t : State) (cs : List CommId) : Prop where
  inv : EngineInv t
  status : ∀ c, (t.ft.comm c).ftCurrentStatus = (s.ft.comm c).ftCurrentStatus
  commIds : t.ft.commIds = s.ft.commIds
  anys : t.ft.ftAnyCommRequests ⊆ s.ft.ftAnyCommRequests
  pending : t.ft.ftPendingFailedComms = s.ft.ftPendingFailedComms
  canceled : t.ft.ftCanceledComs = s.ft.ftCanceledComs
  toCancel : t.ft.ftRequestsToCancel = s.ft.ftRequestsToCancel
  failed : t.ft.failed = s.ft.failed ++ cs
  reports : t.core.reports = s.core.reports

/-- A progress step that keeps the invariant and reports nothing. -/
theorem Progressed.settled (hp : Progressed s t) (hinv : EngineInv t)
    (hrep : t.core.reports = s.core.reports) : Settled s t [] :=
  ⟨hinv, hp.ftCurrentStatus, hp.commIds, hp.anys, hp.ftPendingFailedComms, hp.ftCanceledComs,
    hp.ftRequestsToCancel, by rw [hp.failed, List.append_nil], hrep⟩

theorem Settled.trans {u : State} {cs ds : List CommId} (h₁ : Settled s t cs)
    (h₂ : Settled t u ds) : Settled s u (cs ++ ds) :=
  ⟨h₂.inv, fun c => (h₂.status c).trans (h₁.status c), h₂.commIds.trans h₁.commIds,
    h₂.anys.trans h₁.anys, h₂.pending.trans h₁.pending, h₂.canceled.trans h₁.canceled,
    h₂.toCancel.trans h₁.toCancel,
    by rw [h₂.failed, h₁.failed, List.append_assoc], h₂.reports.trans h₁.reports⟩

theorem cancelRequests_settled (h : EngineInv s) (hft : env.faultTolerance = true)
    (hto : s.ft.ftRequestsToCancel = []) (events : ReqId → List FabricEvent) (c : CommId)
    (fuel : ℕ) : Settled s (cancelRequests env events c fuel s) [] := by
  refine cancelRequests_induction (P := fun t => Settled s t []) (fun t r _ ht => ?_)
    ((Progressed.refl s).settled h rfl) fuel
  have hnone : r ∉ t.ft.ftRequestsToCancel := by
    rw [ht.toCancel, hto]
    exact List.not_mem_nil
  exact ht.trans ((cancel_progressed r (events r)).settled (ht.inv.cancel hft r _)
    (cancel_reports ht.inv hnone _))

/-- `cancel_comm` on a communicator given up. -/
theorem cancelComm_settled (h : EngineInv s) (hft : env.faultTolerance = true)
    (hto : s.ft.ftRequestsToCancel = []) (hc : (s.ft.comm c).ftCurrentStatus = .error)
    (hany : isAnyComm c = false) (events : ReqId → List FabricEvent) :
    Settled s (cancelComm env events s c) [] := by
  have hcomm : ∀ d, ((markCanceled s c).ft.comm d).ftCurrentStatus =
        (s.ft.comm d).ftCurrentStatus ∧
      ((markCanceled s c).ft.comm d).ftRequests = (s.ft.comm d).ftRequests ∧
      (d ≠ c → (markCanceled s c).ft.comm d = s.ft.comm d) := fun d => by
    rw [markCanceled, Ft.setComm_comm]
    split
    case isTrue hd => subst hd; exact ⟨rfl, rfl, fun h => absurd rfl h⟩
    case isFalse => exact ⟨rfl, rfl, fun _ => rfl⟩
  have hmark : Settled s (markCanceled s c) [] := by
    refine ⟨?_, fun d => (hcomm d).1, rfl, Finset.Subset.refl _, rfl, rfl, rfl,
      (List.append_nil _).symm, rfl⟩
    refine { h with
      tracked := h.tracked.congr rfl rfl rfl fun d => (hcomm d).2.1
      anys := h.anys.congr (fun _ => rfl) rfl rfl
      canceled := fun d hd => ?_
      idle := fun d hd => h.idle d ((hcomm d).1.symm.trans hd)
      anyOpen := fun d hd => ?_
      gaveUp := fun d hd => (hcomm d).1.trans (h.gaveUp d hd) }
    · rw [(hcomm d).1]
      by_cases hdc : d = c
      · rw [hdc, hc]
      · rw [(hcomm d).2.2 hdc] at hd
        exact h.canceled d hd
    · rw [(hcomm d).2.2 (by rintro rfl; rw [hany] at hd; cases hd)]
      exact h.anyOpen d hd
  have hdrain := hmark.trans (cancelRequests_settled hmark.inv hft hto events c
    ((markCanceled s c).ft.comm c).ftRequests.size.toNat)
  have hno : ReqId.heartbeat c ∉ (cancelRequests env events c
      ((markCanceled s c).ft.comm c).ftRequests.size.toNat
      (markCanceled s c)).ft.ftRequestsToCancel := by simp [hdrain.toCancel, hto]
  have hfree := hdrain.trans ((@requestFree_progressed env _ (.heartbeat c) []).settled
    (hdrain.inv.requestFree hft _ _) (requestFree_reports hdrain.inv hno _))
  exact { hfree with inv := hfree.inv.eraseComm c }

/-- A communicator is noted down as failed. -/
theorem Settled.fail (h : Settled s t []) (hc : (s.ft.comm c).ftCurrentStatus = .error) :
    Settled s ⟨t.core, { t.ft with failed := t.ft.failed ++ [c] }⟩ [c] := by
  have hfailed : t.ft.failed = s.ft.failed := h.failed.trans (List.append_nil _)
  refine { h with inv := ?_, failed := by rw [hfailed] }
  refine { h.inv with
    tracked := h.inv.tracked.congr rfl rfl rfl fun _ => rfl
    anys := h.inv.anys.congr (fun _ => rfl) rfl rfl
    gaveUp := fun d hd => ?_ }
  rcases List.mem_append.1 hd with hd | hd
  · exact h.inv.gaveUp d hd
  · rw [List.mem_singleton.1 hd]
    exact (h.status c).trans hc

/-- **The cancelling of a pass.**  All communicators given up have failed. -/
theorem cancelComms_settled (h : EngineInv s) (hft : env.faultTolerance = true)
    (hto : s.ft.ftRequestsToCancel = []) (input : PassInput)
    (hcs : ∀ c ∈ s.ft.ftCanceledComs, c ∈ s.ft.commIds ∧ isAnyComm c = false ∧
      (s.ft.comm c).ftCurrentStatus = .error) :
    Settled s (cancelComms env input s) s.ft.ftCanceledComs := by
  unfold cancelComms
  generalize s.ft.ftCanceledComs = cs at hcs ⊢
  induction cs generalizing s with
  | nil => exact (Progressed.refl s).settled h rfl
  | cons c cs ih =>
      obtain ⟨hc, hany, hst⟩ := hcs c (List.mem_cons_self ..)
      have hone := (cancelComm_settled h hft hto hst hany (passEvents env input)).fail hst
      rw [List.foldl_cons, if_pos hc]
      refine hone.trans (ih hone.inv (hone.toCancel.trans hto) fun d hd => ?_)
      obtain ⟨hd, hdany, hdst⟩ := hcs d (List.mem_cons_of_mem _ hd)
      exact ⟨hone.commIds ▸ hd, hdany, (hone.status d).trans hdst⟩

/-! ### Reporting -/

/-- The request `r` is outstanding on an any-comm and carries the report of `c`. -/
def Carries (s : State) (r : ReqId) (c : CommId) : Prop :=
  ∃ q, s.core.requests r = some q ∧ q.isCompleted = false ∧ isAnyComm q.commId = true ∧
    q.opType ≠ .inject ∧ q.error = -lfiBrokenComm ∧ q.source = c

/-- What reports leave: each request on the list carries its report, is no longer among
the any-comm requests and is put up for cancelling; the rest is as it was. -/
structure Reported (s t : State) (ps : List (ReqId × CommId)) : Prop where
  inv : EngineInv t
  carries : ∀ p ∈ ps, Carries t p.1 p.2
  requests : ∀ r, r ∉ ps.map Prod.fst → t.core.requests r = s.core.requests r
  toCancel : t.ft.ftRequestsToCancel = s.ft.ftRequestsToCancel ++ ps.map Prod.fst
  anys : ∀ r, r ∈ t.ft.ftAnyCommRequests ↔ r ∈ s.ft.ftAnyCommRequests ∧ r ∉ ps.map Prod.fst
  completions : t.core.completions = s.core.completions
  comm : t.ft.comm = s.ft.comm
  commIds : t.ft.commIds = s.ft.commIds
  canceled : t.ft.ftCanceledComs = s.ft.ftCanceledComs
  failed : t.ft.failed = s.ft.failed

theorem Reported.refl (h : EngineInv s) : Reported s s [] :=
  ⟨h, by simp, fun _ _ => rfl, by simp, by simp, rfl, rfl, rfl, rfl, rfl⟩

/-- One more report, to a request that is still among the any-comm requests. -/
theorem Reported.reportTo {ps : List (ReqId × CommId)} (h : Reported s t ps)
    (hr : r ∈ t.ft.ftAnyCommRequests) (c : CommId) :
    Reported s (reportTo t r c) (ps ++ [(r, c)]) := by
  obtain ⟨⟨d, hon, hd⟩, hnew⟩ := (h.inv.anys.mem r).1 hr
  obtain ⟨q, hq, hqc, rfl⟩ := Core.onComm_eq_some.1 hon
  have hother : ∀ r', r' ≠ r → (Impl.reportTo t r c).core.requests r' = t.core.requests r' :=
    fun r' hr' => by simp [Impl.reportTo, Core.setRequest, hr']
  have hself : (Impl.reportTo t r c).core.requests r =
      some { q with source := c, error := -lfiBrokenComm } := by
    simp [Impl.reportTo, Core.setRequest, hq]
  refine ⟨?_, fun p hp => ?_, fun r' hr' => ?_, ?_, fun r' => ?_, h.completions, h.comm,
    h.commIds, h.canceled, h.failed⟩
  · refine { h.inv with
      tracked := h.inv.tracked.congr (reportTo_onComm t r c) rfl rfl fun _ => rfl
      heartbeatIds := h.inv.heartbeatIds.reportTo r c
      anys := ⟨fun r' => ?_, fun r' q' hq' hc' hany' => ?_⟩
      idle := fun d hd => by rw [reportTo_onComm]; exact h.inv.idle d hd }
    · rw [reportTo_onComm]
      simp only [Impl.reportTo, Finset.mem_erase, List.mem_append, List.mem_singleton, not_or,
        h.inv.anys.mem r']
      tauto
    · by_cases hrr : r' = r
      · subst hrr
        obtain rfl := Option.some.inj (hself.symm.trans hq')
        exact ⟨(h.inv.anys.plain r' q hq hqc hd).1, .inr (by simp [Impl.reportTo])⟩
      · obtain ⟨hop, herr⟩ := h.inv.anys.plain r' q' ((hother r' hrr).symm.trans hq') hc' hany'
        exact ⟨hop, herr.imp_right fun hmem => List.mem_append_left _ hmem⟩
  · rcases List.mem_append.1 hp with hold | hlast
    · obtain ⟨q', hq', hrest⟩ := h.carries p hold
      refine ⟨q', (hother p.1 fun hpr => hnew ?_).trans hq', hrest⟩
      rw [h.toCancel, ← hpr]
      exact List.mem_append_right _ (List.mem_map_of_mem hold)
    · rw [List.mem_singleton.1 hlast]
      exact ⟨_, hself, hqc, hd, (h.inv.anys.plain r q hq hqc hd).1, rfl, rfl⟩
  · rw [List.map_append, List.mem_append, not_or] at hr'
    rw [hother r' (by simpa using hr'.2), h.requests r' hr'.1]
  · simp [Impl.reportTo, h.toCancel]
  · simp only [Impl.reportTo, Finset.mem_erase, h.anys r', List.map_append, List.mem_append]
    simp
    tauto

/-- `report_to_any`: the pairs of requests and communicators, as long as there are
both. -/
theorem Reported.reportToAny {ps : List (ReqId × CommId)} (h : Reported s t ps)
    {anys : List ReqId} (hnd : anys.Nodup) (hanys : ∀ r ∈ anys, r ∈ t.ft.ftAnyCommRequests)
    (errors : List CommId) : Reported s (reportToAny t anys errors) (ps ++ anys.zip errors) := by
  unfold Impl.reportToAny
  induction anys generalizing t ps errors with
  | nil => simpa using h
  | cons r anys ih =>
      cases errors with
      | nil => simpa using h
      | cons c errors =>
          obtain ⟨hr, hnd⟩ := List.nodup_cons.1 hnd
          have hone := h.reportTo (hanys r (List.mem_cons_self ..)) c
          have := ih hone hnd (fun r' hr' => ?_) errors
          · simpa using this
          · refine Finset.mem_erase.2 ⟨?_, hanys r' (List.mem_cons_of_mem _ hr')⟩
            rintro rfl
            exact hr hr'

/-- A note of the pass between the reports. -/
theorem Reported.note {ps : List (ReqId × CommId)} (h : Reported s t ps)
    (pending : Finset CommId) :
    Reported s ⟨t.core, { t.ft with ftPendingFailedComms := pending }⟩ ps :=
  { h with inv := h.inv.note pending _ _ _ }

/-- `report_to_any` leaves the waiting communicators to its caller. -/
theorem reportToAny_pending (s : State) (anys : List ReqId) (errors : List CommId) :
    (reportToAny s anys errors).ft.ftPendingFailedComms = s.ft.ftPendingFailedComms :=
  List.foldlRecOn
    (motive := fun t : State => t.ft.ftPendingFailedComms = s.ft.ftPendingFailedComms)
    (anys.zip errors) _ rfl fun _ h _ _ => h

/-! ### Completing the reported requests -/

/-- A request that carries a report is completed with it. -/
theorem cancel_carries (h : Carries s r c) :
    (∃ d, isAnyComm d = true ∧ (cancel env s r []).core.completions =
      s.core.completions ++ [⟨r, d, -lfiBrokenComm, c⟩]) ∧
    ∀ r', r' ≠ r → (cancel env s r []).core.requests r' = s.core.requests r' := by
  obtain ⟨q, hq, hqc, hany, hop, herr, rfl⟩ := h
  have herase : (eraseOps s.core q.waitContext).requests = s.core.requests ∧
      (eraseOps s.core q.waitContext).completions = s.core.completions := by
    cases q.waitContext <;> exact ⟨rfl, rfl⟩
  have hcancel : cancel env s r [] = complete env ⟨eraseOps s.core q.waitContext, s.ft⟩ r
      (-lfiBrokenComm) 0 := by
    simp [cancel, cancelWith, hq, hqc, progress, cancelError, hop, herr]
  rw [hcancel]
  refine ⟨⟨q.commId, hany, ?_⟩, fun r' hr' => ?_⟩
  · rw [complete_completions ((congrFun herase.1 r).trans hq) hqc, herase.2]
  · rw [complete_requests_of_ne (Ne.symm hr')]
    exact congrFun herase.1 r'

/-- The cancels of a pass are progress steps. -/
theorem foldl_cancel (h : EngineInv s) (hft : env.faultTolerance = true)
    (events : ReqId → List FabricEvent) (rs : List ReqId) :
    EngineInv (rs.foldl (fun s r => cancel env s r (events r)) s) ∧
      Progressed s (rs.foldl (fun s r => cancel env s r (events r)) s) ∧
      ∀ r ∈ rs, (rs.foldl (fun s r => cancel env s r (events r)) s).core.onComm r = none := by
  induction rs generalizing s with
  | nil => exact ⟨h, .refl s, by simp⟩
  | cons r rs ih =>
      obtain ⟨hinv, hprog, hdone⟩ := ih (h.cancel hft r (events r))
      refine ⟨hinv, (cancel_progressed r (events r)).trans hprog, fun r' hr' => ?_⟩
      rcases List.mem_cons.1 hr' with rfl | hr'
      · rcases hprog.onComm r' with h' | h'
        · exact h'.trans (cancel_onComm r' (events r'))
        · exact h'
      · exact hdone r' hr'

/-- **Every report is delivered**, when nothing arrives from the fabric meanwhile. -/
theorem foldl_cancel_reports {events : ReqId → List FabricEvent} {ps : List (ReqId × CommId)}
    (hnd : (ps.map Prod.fst).Nodup) (hps : ∀ p ∈ ps, Carries s p.1 p.2)
    (hquiet : ∀ p ∈ ps, events p.1 = []) (c : CommId) :
    ((ps.map Prod.fst).foldl (fun s r => cancel env s r (events r)) s).core.reports c =
      s.core.reports c + (ps.map Prod.snd).count c := by
  induction ps generalizing s with
  | nil => simp
  | cons p ps ih =>
      obtain ⟨hp, hnd⟩ := List.nodup_cons.1 hnd
      obtain ⟨⟨d, hd, hcompl⟩, hother⟩ := @cancel_carries env _ _ _ (hps p (List.mem_cons_self ..))
      have hone : (cancel env s p.1 []).core.reports c =
          s.core.reports c + if p.2 = c then 1 else 0 := by
        unfold Core.reports
        rw [hcompl, List.countP_append]
        simp [Completion.Reports, hd]
      rw [List.map_cons, List.foldl_cons, hquiet p (List.mem_cons_self ..),
        ih hnd (fun p' hp' => ?_) fun p' hp' => hquiet p' (List.mem_cons_of_mem _ hp'), hone,
        List.map_cons, List.count_cons]
      · simp only [beq_iff_eq]
        omega
      · obtain ⟨q, hq, hrest⟩ := hps p' (List.mem_cons_of_mem _ hp')
        refine ⟨q, (hother p'.1 fun heq => hp ?_).trans hq, hrest⟩
        rw [← heq]
        exact List.mem_map_of_mem hp'

/-- Nothing is put up for cancelling any more. -/
theorem EngineInv.clearToCancel (h : EngineInv s)
    (hdone : ∀ r ∈ s.ft.ftRequestsToCancel, s.core.onComm r = none) :
    EngineInv ⟨s.core, { s.ft with ftRequestsToCancel := [] }⟩ := by
  have hout : ∀ r c, s.core.onComm r = some c → r ∉ s.ft.ftRequestsToCancel := fun r c hr hmem => by
    rw [hdone r hmem] at hr; cases hr
  refine { h with
    tracked := h.tracked.congr rfl rfl rfl fun _ => rfl
    anys := ⟨fun r => ?_, fun r q hq hc hany => ?_⟩ }
  · rw [h.anys.mem r]
    simp only [List.not_mem_nil, not_false_eq_true, and_true, and_iff_left_iff_imp]
    rintro ⟨c, hr, -⟩
    exact hout r c hr
  · obtain ⟨hop, herr⟩ := h.anys.plain r q hq hc hany
    refine ⟨hop, .inl (herr.resolve_right (hout r q.commId ?_))⟩
    exact Core.onComm_eq_some.2 ⟨q, hq, hc, rfl⟩

/-! ### `handle_any_comm_reports` -/

/-- The pairs of `handle_any_comm_reports`: the receives `anys` with the waiting
communicators, and those left with the communicators of this pass. -/
def reportPairs (anys : List ReqId) (pending canceled : List CommId) : List (ReqId × CommId) :=
  anys.zip pending ++ (anys.drop pending.length).zip canceled

theorem zip_map_fst {α β : Type*} (xs : List α) (ys : List β) :
    (xs.zip ys).map Prod.fst = xs.take ys.length := by
  induction xs generalizing ys with
  | nil => simp
  | cons x xs ih => cases ys <;> simp [ih]

theorem zip_map_snd {α β : Type*} (xs : List α) (ys : List β) :
    (xs.zip ys).map Prod.snd = ys.take xs.length := by
  induction xs generalizing ys with
  | nil => simp
  | cons x xs ih => cases ys <;> simp [ih]

theorem reportPairs_fst {anys : List ReqId} {pending canceled : List CommId} :
    ((reportPairs anys pending canceled).map Prod.fst).Sublist anys := by
  rw [reportPairs, List.map_append, zip_map_fst, zip_map_fst]
  conv_rhs => rw [← List.take_append_drop pending.length anys]
  exact (List.Sublist.refl _).append (List.take_sublist ..)

theorem reportPairs_snd (anys : List ReqId) (pending canceled : List CommId) :
    (reportPairs anys pending canceled).map Prod.snd =
      (pending ++ canceled).take anys.length := by
  rw [reportPairs, List.map_append, zip_map_snd, zip_map_snd, List.length_drop, List.take_append]

/-- The first half of `handle_any_comm_reports`, before the cancels. -/
theorem handleAnyCommReports_reported (h : EngineInv s) (events : ReqId → List FabricEvent)
    {anys : List ReqId} (hanys : anys.Nodup) (hmem : ∀ r ∈ anys, r ∈ s.ft.ftAnyCommRequests)
    {pending : List CommId} (hpending : pending.Nodup)
    (hwait : ∀ c, c ∈ s.ft.ftPendingFailedComms ↔ c ∈ pending) :
    ∃ u, Reported s u (reportPairs anys pending s.ft.ftCanceledComs) ∧
      (∀ c, c ∈ u.ft.ftPendingFailedComms ↔
        c ∈ (pending ++ s.ft.ftCanceledComs).drop anys.length) ∧
      ∃ v, v = u.ft.ftRequestsToCancel.foldl (fun s r => cancel env s r (events r)) u ∧
        handleAnyCommReports env events anys pending s =
          ⟨v.core, { v.ft with ftRequestsToCancel := [] }⟩ := by
  have hfst := (Reported.refl h).reportToAny hanys hmem pending
  have hrest : ∀ r ∈ anys.drop pending.length,
      r ∈ (reportToAny s anys pending).ft.ftAnyCommRequests := by
    intro r hr
    refine (hfst.anys r).2 ⟨hmem r (List.mem_of_mem_drop hr), fun htake => ?_⟩
    rw [List.nil_append, zip_map_fst] at htake
    exact List.disjoint_take_drop hanys (Nat.le_refl _) htake hr
  have hsnd :=
    (hfst.note (s.ft.ftPendingFailedComms \ (pending.take anys.length).toFinset)).reportToAny
    (hanys.sublist (List.drop_sublist ..)) hrest s.ft.ftCanceledComs
  refine ⟨_, hsnd.note ((s.ft.ftPendingFailedComms \ (pending.take anys.length).toFinset) ∪
    (s.ft.ftCanceledComs.drop (anys.drop pending.length).length).toFinset), fun c => ?_, _, rfl, ?_⟩
  · rw [Finset.mem_union, Finset.mem_sdiff, List.mem_toFinset, List.mem_toFinset, hwait,
      List.length_drop, List.drop_append, List.mem_append]
    refine or_congr_left ⟨fun ⟨hc, hnot⟩ => ?_,
      fun hc => ⟨List.mem_of_mem_drop hc, fun htake => ?_⟩⟩
    · rw [← List.take_append_drop anys.length pending, List.mem_append] at hc
      exact hc.resolve_left hnot
    · exact List.disjoint_take_drop hpending (Nat.le_refl _) htake hc
  · unfold handleAnyCommReports
    dsimp only
    rw [reportToAny_pending, reportToAny_pending]

/-- **What `handle_any_comm_reports` does.**  Of the waiting communicators and those of
this pass, in this order, as many are reported as there are receives; the others
wait. -/
theorem handleAnyCommReports_spec (h : EngineInv s) (hft : env.faultTolerance = true)
    (hto : s.ft.ftRequestsToCancel = []) (events : ReqId → List FabricEvent) {anys : List ReqId}
    (hanys : anys.Nodup) (hmem : ∀ r ∈ anys, r ∈ s.ft.ftAnyCommRequests) {pending : List CommId}
    (hpending : pending.Nodup)
    (hwait : ∀ c, c ∈ s.ft.ftPendingFailedComms ↔ c ∈ pending) {t : State}
    (ht : t = handleAnyCommReports env events anys pending s) :
    EngineInv t ∧ (∀ c, (t.ft.comm c).ftCurrentStatus = (s.ft.comm c).ftCurrentStatus) ∧
      t.ft.commIds = s.ft.commIds ∧ t.ft.ftRequestsToCancel = [] ∧ t.ft.failed = s.ft.failed ∧
      (∀ c, c ∈ t.ft.ftPendingFailedComms ↔
        c ∈ (pending ++ s.ft.ftCanceledComs).drop anys.length) ∧
      ((∀ r ∈ anys, events r = []) → ∀ c, t.core.reports c =
        s.core.reports c + ((pending ++ s.ft.ftCanceledComs).take anys.length).count c) := by
  obtain ⟨u, hu, hupending, v, hv, heq⟩ := @handleAnyCommReports_reported env _ h events _
    hanys hmem _ hpending hwait
  have hulist : u.ft.ftRequestsToCancel =
      (reportPairs anys pending s.ft.ftCanceledComs).map Prod.fst := by
    rw [hu.toCancel, hto, List.nil_append]
  obtain ⟨hvinv, hprog, hdone⟩ := foldl_cancel hu.inv hft events u.ft.ftRequestsToCancel
  rw [← hv] at hvinv hprog hdone
  rw [heq] at ht
  subst ht
  refine ⟨hvinv.clearToCancel (by rw [hprog.ftRequestsToCancel]; exact hdone), fun c => ?_,
    hprog.commIds.trans hu.commIds, rfl, hprog.failed.trans hu.failed, fun c => ?_,
    fun hquiet c => ?_⟩
  · exact (hprog.ftCurrentStatus c).trans (by rw [hu.comm])
  · dsimp only
    rw [hprog.ftPendingFailedComms]
    exact hupending c
  · dsimp only
    rw [hv, hulist, foldl_cancel_reports (hanys.sublist reportPairs_fst) hu.carries
      (fun p hp => hquiet p.1 (reportPairs_fst.subset (List.mem_map_of_mem hp))), reportPairs_snd]
    unfold Core.reports
    rw [hu.completions]

/-! ### A pass -/

/-- An endpoint between two passes. -/
structure Between (s : State) : Prop where
  inv : EngineInv s
  canceled : s.ft.ftCanceledComs = []
  toCancel : s.ft.ftRequestsToCancel = []

/-- Nothing arrives from the fabric while the pass cancels an any-comm receive. -/
def Quiet (env : Env) (input : PassInput) (s : State) : Prop :=
  env.efficientProgress = true ∨ ∀ r ∈ s.ft.ftAnyCommRequests, input.events r = []

instance (env : Env) (input : PassInput) (s : State) : Decidable (Quiet env input s) :=
  inferInstanceAs (Decidable (_ ∨ _))

/-- The first half of a pass. -/
theorem processComms_walked (h : Between s) (hft : env.faultTolerance = true) {input : PassInput}
    (hwalks : input.Walks s.ft) : Walked s (processComms env input s) := by
  have hstart : Walked s s := ⟨h.inv, by simp [h.canceled], rfl, rfl, rfl, rfl, h.toCancel, rfl⟩
  unfold processComms
  split
  case isTrue =>
    refine (foldl_processComm hstart hft (hwalks.1.1.filter _) fun c hc => ?_).1
    simpa using List.of_mem_filter hc
  case isFalse =>
    exact hstart.walkFtComms hft _ fun c hc => (h.inv.links.head c hc).2

/-- With an any-comm request outstanding, the walk visits every communicator. -/
theorem processComms_any (h : Between s) (hft : env.faultTolerance = true) {input : PassInput}
    (hwalks : input.Walks s.ft) (hany : s.ft.ftAnyCommRequests.Nonempty) :
    (∀ c ∈ s.ft.commIds, isAnyComm c = false →
      ((processComms env input s).ft.comm c).ftCurrentStatus = nextStatus env input.now s c) ∧
    (processComms env input s).ft.ftCanceledComs.Nodup ∧
    ∀ c, c ∈ (processComms env input s).ft.ftCanceledComs ↔
      c ∈ s.ft.commIds ∧ isAnyComm c = false ∧ Unanswered env input.now s c := by
  have hstart : Walked s s := ⟨h.inv, by simp [h.canceled], rfl, rfl, rfl, rfl, h.toCancel, rfl⟩
  unfold processComms
  rw [if_pos hany]
  have hnd : (input.comms.filter fun c => c ∈ s.ft.commIds ∧ isAnyComm c = false).Nodup :=
    hwalks.1.1.filter _
  obtain ⟨-, hstatus, -, hcan⟩ := @foldl_processComm env _ _ input.now input.beat hstart
    hft _ hnd fun c hc => by simpa using List.of_mem_filter hc
  rw [h.canceled, List.nil_append] at hcan
  refine ⟨fun c hc hpeer => hstatus c ?_, ?_, fun c => ?_⟩
  · simpa [hc, hpeer] using hwalks.1.2 c hc
  · rw [hcan]
    exact hnd.filter _
  · rw [hcan]
    simp only [List.mem_filter, decide_eq_true_eq]
    constructor
    · rintro ⟨⟨-, hc, hpeer⟩, hun⟩
      exact ⟨hc, hpeer, hun⟩
    · rintro ⟨hc, hpeer, hun⟩
      exact ⟨⟨hwalks.1.2 c hc, hc, hpeer⟩, hun⟩

/-- With none outstanding, the walk of `ft_comms` decides whether somebody is given up. -/
theorem processComms_none (h : Between s) (hft : env.faultTolerance = true) {input : PassInput}
    (hany : ¬ s.ft.ftAnyCommRequests.Nonempty) :
    (processComms env input s).ft.ftCanceledComs = [] ↔
      ¬ WalkFails env input.now s s.ft.commIds.card s.ft.ftComms.head := by
  have hstart : Walked s s := ⟨h.inv, by simp [h.canceled], rfl, rfl, rfl, rfl, h.toCancel, rfl⟩
  obtain ⟨cs, hcs, hiff⟩ := @walkFtComms_canceled env _ _ input.now input.beat hstart hft
    s.ft.commIds.card _ fun c hc => (h.inv.links.head c hc).2
  unfold processComms
  rw [if_neg hany, hcs, h.canceled, List.nil_append, hiff]

/-- The walk of a pass from `s` gave up the communicators `cs` and left the statuses
`status`. -/
structure PassWalk (env : Env) (input : PassInput) (s : State) (cs : List CommId)
    (status : CommId → FtStatus) : Prop where
  failed : ∀ c ∈ cs, status c = .error ∧ c ∉ s.ft.failed
  any : s.ft.ftAnyCommRequests.Nonempty → cs.Nodup ∧
    (∀ c, c ∈ cs ↔ c ∈ s.ft.commIds ∧ isAnyComm c = false ∧ Unanswered env input.now s c) ∧
    ∀ c ∈ s.ft.commIds, isAnyComm c = false → status c = nextStatus env input.now s c
  noReceive : ¬ s.ft.ftAnyCommRequests.Nonempty →
    (cs = [] ↔ ¬ WalkFails env input.now s s.ft.commIds.card s.ft.ftComms.head)

/-- **What a pass does.**  The walk gives up the communicators `cs`, which then have
failed.  With an any-comm request outstanding at the start, as many of the waiting and
the new failures are reported as there are receives, and the others wait. -/
theorem pass_spec (h : Between s) (hft : env.faultTolerance = true) {input : PassInput}
    (hwalks : input.Walks s.ft) {t : State} (ht : t = pass env input s) :
    ∃ cs, Between t ∧ PassWalk env input s cs (fun c => (t.ft.comm c).ftCurrentStatus) ∧
      t.ft.commIds = s.ft.commIds ∧ t.ft.failed = s.ft.failed ++ cs ∧
      (s.ft.ftAnyCommRequests.Nonempty → ∃ (n : ℕ) (pending : List CommId), pending.Nodup ∧
        (∀ c, c ∈ s.ft.ftPendingFailedComms ↔ c ∈ pending) ∧
        (∀ c, c ∈ t.ft.ftPendingFailedComms ↔ c ∈ (pending ++ cs).drop n) ∧
        (Quiet env input s → ∀ c, t.core.reports c =
          s.core.reports c + ((pending ++ cs).take n).count c)) ∧
      (¬ s.ft.ftAnyCommRequests.Nonempty →
        t.ft.ftPendingFailedComms = s.ft.ftPendingFailedComms ∧
          t.core.reports = s.core.reports) := by
  subst ht
  unfold pass
  dsimp only
  have hnote : Between ⟨s.core, { s.ft with ftLastProgress := input.now }⟩ :=
    ⟨h.inv.note s.ft.ftPendingFailedComms s.ft.ftCanceledComs input.now s.ft.ftProgressCount,
      h.canceled, h.toCancel⟩
  have hwalk := processComms_walked hnote hft hwalks
  have hall := @processComms_any env _ hnote hft _ hwalks
  have hnone : ¬ s.ft.ftAnyCommRequests.Nonempty →
      ((processComms env input
          ⟨s.core, { s.ft with ftLastProgress := input.now }⟩).ft.ftCanceledComs = [] ↔
        ¬ WalkFails env input.now s s.ft.commIds.card s.ft.ftComms.head) := fun hany =>
    (processComms_none hnote hft hany).trans
      (not_congr (walkFails_note s input.now s.ft.ftProgressCount _ _))
  generalize processComms env input ⟨s.core, { s.ft with ftLastProgress := input.now }⟩ = w
    at hwalk hall hnone ⊢
  have hset := cancelComms_settled hwalk.inv hft hwalk.toCancel input fun c hc =>
    let ⟨hmem, hpeer, hst, _⟩ := hwalk.givenUp c hc
    ⟨hmem, hpeer, hst⟩
  have hrep : (cancelComms env input w).core.reports = s.core.reports := by
    rw [hset.reports]
    unfold Core.reports
    rw [hwalk.completions]
  generalize cancelComms env input w = z at hset hrep ⊢
  have hpw : ∀ t : State, (∀ c, (t.ft.comm c).ftCurrentStatus = (z.ft.comm c).ftCurrentStatus) →
      PassWalk env input s w.ft.ftCanceledComs fun c => (t.ft.comm c).ftCurrentStatus := by
    intro t ht
    have hst : ∀ c, (t.ft.comm c).ftCurrentStatus = (w.ft.comm c).ftCurrentStatus := fun c =>
      (ht c).trans (hset.status c)
    refine ⟨fun c hc => ?_, fun hany => ?_, hnone⟩
    · obtain ⟨-, -, herr, hnew⟩ := hwalk.givenUp c hc
      exact ⟨(hst c).trans herr, hwalk.failed ▸ hnew⟩
    obtain ⟨hnext, hnd, hmem⟩ := hall hany
    exact ⟨hnd, hmem, fun c hc hpeer => (hst c).trans (hnext c hc hpeer)⟩
  have hzids := hset.commIds.trans hwalk.commIds
  have hzpending := hset.pending.trans hwalk.pending
  have hzto := hset.toCancel.trans hwalk.toCancel
  have hzfailed : z.ft.failed = s.ft.failed ++ w.ft.ftCanceledComs := by
    rw [hset.failed, hwalk.failed]
  refine ⟨w.ft.ftCanceledComs, ?_⟩
  by_cases hany : s.ft.ftAnyCommRequests.Nonempty
  · simp only [hany, decide_true, if_true, true_imp_iff, not_true_eq_false, false_imp_iff, and_true]
    have hwait : ∀ c, c ∈ z.ft.ftPendingFailedComms ↔
        c ∈ input.pending.filter fun c => c ∈ z.ft.ftPendingFailedComms := fun c => by
      simp only [List.mem_filter, decide_eq_true_eq, iff_and_self]
      exact fun hc => hwalks.2.2.2 c (hzpending ▸ hc)
    have hanys : ∀ r ∈ input.anys.filter fun r => r ∈ z.ft.ftAnyCommRequests,
        r ∈ z.ft.ftAnyCommRequests := fun r hr => by simpa using List.of_mem_filter hr
    obtain ⟨hinv, hstatus, hids, hto, hfailed, hpending, hreports⟩ := handleAnyCommReports_spec
      hset.inv hft hzto (passEvents env input) (hwalks.2.1.1.filter _) hanys
      (hwalks.2.2.1.filter _) hwait rfl
    rw [hset.canceled] at hpending hreports
    refine ⟨⟨hinv.note _ [] _ _, rfl, hto⟩, hpw _ hstatus, hids.trans hzids,
      hfailed.trans hzfailed, _, _, hwalks.2.2.1.filter _,
      fun c => by rw [← hzpending]; exact hwait c, hpending, fun hquiet c => ?_⟩
    rw [← hrep]
    refine hreports (fun r hr => ?_) c
    unfold passEvents
    rcases hquiet with heff | hquiet
    · rw [if_pos heff]
    · split
      case isTrue => rfl
      case isFalse => exact hquiet r (hwalk.anys ▸ hset.anys (hanys r hr))
  · simp only [hany, decide_false, if_false, Bool.false_eq_true, false_imp_iff, true_imp_iff,
      not_false_eq_true, true_and]
    exact ⟨⟨hset.inv.note _ [] _ _, rfl, hzto⟩, hpw _ fun _ => rfl, hzids, hzfailed, hzpending,
      hrep⟩

/-! ### Runs -/

/-- `one_loop` gets past its rate limit. -/
def PastRateLimit (input : PassInput) (s : State) : Prop :=
  100 ≤ s.ft.ftProgressCount + 1 ∧ 10 ≤ elapsedMs input.now s.ft.ftLastProgress

instance (input : PassInput) (s : State) : Decidable (PastRateLimit input s) :=
  inferInstanceAs (Decidable (_ ∧ _))

/-- The state with another count of progress steps. -/
def setCount (s : State) (n : ℕ) : State := ⟨s.core, { s.ft with ftProgressCount := n }⟩

/-- `one_loop` runs a pass, or counts. -/
theorem oneLoop_cases (env : Env) (input : PassInput) (s : State) :
    (PastRateLimit input s ∧ oneLoop env input s = pass env input (setCount s 0)) ∨
      (¬ PastRateLimit input s ∧ ∃ n, oneLoop env input s = setCount s n) := by
  unfold oneLoop PastRateLimit
  dsimp only
  split
  case isTrue hcount => exact .inr ⟨fun h => absurd h.1 (by omega), _, rfl⟩
  case isFalse hcount =>
    split
    case isTrue hms => exact .inr ⟨fun h => absurd h.2 (by omega), _, rfl⟩
    case isFalse hms => exact .inl ⟨⟨by omega, by omega⟩, rfl⟩

theorem Fresh.between (h : Fresh s) : Between s := ⟨h.engineInv, h.canceled, h.toCancel⟩

theorem Between.setCount (h : Between s) (n : ℕ) : Between (setCount s n) :=
  ⟨h.inv.note s.ft.ftPendingFailedComms s.ft.ftCanceledComs s.ft.ftLastProgress n, h.canceled,
    h.toCancel⟩

theorem Between.progressed (h : Between s) (hp : Progressed s t) (ht : EngineInv t) : Between t :=
  ⟨ht, hp.ftCanceledComs.trans h.canceled, hp.ftRequestsToCancel.trans h.toCancel⟩

/-- **Every action keeps the invariant.** -/
theorem Between.engineStep (h : Between s) (hft : env.faultTolerance = true) {a : EngineAction}
    (ht : engineStep env s a = some t) : Between t := by
  cases a with
  | post k call =>
      simp only [Impl.engineStep, Option.ite_none_right_eq_some, Option.some.injEq] at ht
      obtain ⟨hon, rfl⟩ := ht
      rcases asyncPost_cases env s (.user k) call with ⟨-, heq⟩ |
        ⟨q, f, o, p, hq, hc, -, hinject, -, heq⟩ <;> rw [heq]
      · exact h
      · have hfixed : (post env s (.user k) q.commId f o p).ft.fixed =
            if isAnyComm q.commId = true ∨ (s.ft.commNodes q.commId).inserted = true
            then s.ft.fixed else (pushComm s.ft q.commId).fixed := by
          simp only [post, if_pos hft, registerRequest_fixed]
        refine ⟨h.inv.post hq hc hon hft (by simp [h.toCancel]) hinject (fun _ h => by cases h) o p,
          Eq.trans ?_ h.canceled, Eq.trans ?_ h.toCancel⟩
        · show (post env s (.user k) q.commId f o p).ft.fixed.ftCanceledComs = _
          rw [hfixed]
          split <;> rfl
        · show (post env s (.user k) q.commId f o p).ft.fixed.ftRequestsToCancel = _
          rw [hfixed]
          split <;> rfl
  | fabric e =>
      obtain rfl := Option.some.inj ht
      exact h.progressed (fabricEvent_progressed e) (h.inv.fabricEvent hft e)
  | cancel k events =>
      obtain rfl := Option.some.inj ht
      exact h.progressed (cancel_progressed _ events) (h.inv.cancel hft _ events)
  | free k events =>
      obtain rfl := Option.some.inj ht
      exact h.progressed (requestFree_progressed _ events) (h.inv.requestFree hft _ events)
  | oneLoop input =>
      simp only [Impl.engineStep, Option.ite_none_right_eq_some, Option.some.injEq] at ht
      obtain ⟨hwalks, rfl⟩ := ht
      rcases oneLoop_cases env input s with ⟨-, heq⟩ | ⟨-, n, heq⟩ <;> rw [heq]
      · obtain ⟨-, hbetween, -⟩ := pass_spec (h.setCount 0) hft hwalks.2 rfl
        exact hbetween
      · exact h.setCount n

end Impl
end Lfi
