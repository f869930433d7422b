/-
# A pass, step by step

What `process_comm` does to an endpoint that satisfies `EngineInv`
(`ProcessSpec`), what a whole walk over the communicators does, and what the second
half of a pass, which cancels and reports, does with the communicators given up.
-/

import Lfi.Impl.Invariant

namespace Lfi
namespace Impl

variable {env : Env} {s t u : State} {c : CommId} {now : ℤ} {beat : CommId → ℤ}

/-! ### `process_comm` -/

/-- The heartbeat of `c` has stayed unanswered for too long, and `process_comm` gives
`c` up. -/
def Unanswered (env : Env) (now : ℤ) (s : State) (c : CommId) : Prop :=
  (s.ft.comm c).ftRequests.size ≠ 0 ∧ (s.ft.comm c).ftCurrentStatus = .heartbeat ∧
    ¬ Answered s c ∧ Overdue env (s.ft.comm c) now

instance (env : Env) (now : ℤ) (s : State) (c : CommId) : Decidable (Unanswered env now s c) :=
  inferInstanceAs (Decidable (_ ∧ _))

/-- The status `process_comm` leaves. -/
def nextStatus (env : Env) (now : ℤ) (s : State) (c : CommId) : FtStatus :=
  if (s.ft.comm c).ftRequests.size = 0 then (s.ft.comm c).ftCurrentStatus
  else
    match (s.ft.comm c).ftCurrentStatus with
    | .idle => if Due env (s.ft.comm c) now then .heartbeat else .idle
    | .heartbeat =>
        if Answered s c then .idle
        else if Overdue env (s.ft.comm c) now then .error
        else .heartbeat
    | .error => .error

/-- **What `process_comm` does** from `s` to `t`: the communicator gets its next
status, and is noted down when it is given up. -/
structure ProcessSpec (env : Env) (now : ℤ) (s t : State) (c : CommId) : Prop where
  inv : EngineInv t
  status : (t.ft.comm c).ftCurrentStatus = nextStatus env now s c
  canceled : t.ft.ftCanceledComs =
    s.ft.ftCanceledComs ++ if Unanswered env now s c then [c] else []
  comm : ∀ d, d ≠ c → t.ft.comm d = s.ft.comm d
  requests : ∀ r, r ≠ .heartbeat c → t.core.requests r = s.core.requests r
  completions : t.core.completions = s.core.completions
  commIds : t.ft.commIds = s.ft.commIds
  anys : t.ft.ftAnyCommRequests = s.ft.ftAnyCommRequests
  pending : t.ft.ftPendingFailedComms = s.ft.ftPendingFailedComms
  toCancel : t.ft.ftRequestsToCancel = s.ft.ftRequestsToCancel
  failed : t.ft.failed = s.ft.failed
  nodes : (s.ft.comm c).ftRequests.size ≠ 0 → (s.ft.commNodes c).inserted = true →
    t.ft.commNodes = s.ft.commNodes

/-- A new status of a communicator, and nothing else. -/
theorem processSpec_setComm (h : EngineInv s) {x : LfiComm}
    (hx : x.ftRequests = (s.ft.comm c).ftRequests) (hcan : x.isCanceled = (s.ft.comm c).isCanceled)
    (hidle : x.ftCurrentStatus = .idle → s.core.onComm (.heartbeat c) = none)
    (herror : (s.ft.comm c).ftCurrentStatus = .error → x.ftCurrentStatus = .error)
    (hstatus : x.ftCurrentStatus = nextStatus env now s c) {l : List CommId}
    (hcoms : l = s.ft.ftCanceledComs ++ if Unanswered env now s c then [c] else []) :
    ProcessSpec env now s ⟨s.core, { s.ft.setComm c x with ftCanceledComs := l }⟩ c where
  inv := (h.setComm hx hcan hidle herror).note s.ft.ftPendingFailedComms l s.ft.ftLastProgress
    s.ft.ftProgressCount
  status := by rw [← hstatus]; simp [Ft.setComm]
  canceled := hcoms
  comm d hd := by simp [Ft.setComm, hd]
  requests _ _ := rfl
  completions := rfl
  commIds := rfl
  anys := rfl
  pending := rfl
  toCancel := rfl
  failed := rfl
  nodes _ _ := rfl

/-- `process_comm` on a communicator that is due: the heartbeat is posted. -/
theorem startHeartbeat_processSpec (h : EngineInv s) (hft : env.faultTolerance = true)
    (hto : s.ft.ftRequestsToCancel = []) (hc : c ∈ s.ft.commIds) (hany : isAnyComm c = false)
    (hsize : (s.ft.comm c).ftRequests.size ≠ 0)
    (hst : (s.ft.comm c).ftCurrentStatus = .idle) (hdue : Due env (s.ft.comm c) now) (beat : ℤ) :
    ProcessSpec env now s (startHeartbeat env s c beat) c := by
  have hfree := h.idle c hst
  have hcan : (s.ft.comm c).isCanceled ≠ true := fun hcan => by
    rw [h.canceled c hcan] at hst; cases hst
  rcases @startHeartbeat_cases env _ h.heartbeatIds c beat with ⟨hbusy, -⟩ |
    ⟨core, -, hon, hids, hkeep, hcompl, ⟨hcan', -⟩ | ⟨q, f, o, -, -, hq, hqc, h'⟩⟩
  · exact absurd hfree hbusy
  · exact absurd (hcan' hc) hcan
  · have hmark : EngineInv ⟨core, markHeartbeat (clearValue s.ft c) c beat⟩ := by
      have hclear := (h.heartbeatCore hon hids hfree hkeep).setComm (c := c)
        (x := { s.ft.comm c with ftValueHeartbeat := 0 }) rfl rfl
        (fun _ => hon ▸ hfree) id
      refine hclear.setComm rfl rfl nofun fun herr => ?_
      simp [Ft.setComm, hst] at herr
    have hpost := hmark.post hq (hqc ▸ hc) (hon ▸ hfree) hft
      (by simp [hto, markHeartbeat, clearValue, Ft.setComm])
      (f := f) (fun h' => by rw [hqc, hany] at h'; cases h')
      (fun d hd => by obtain rfl := ReqId.heartbeat.inj hd; simp [markHeartbeat, Ft.setComm])
      o true
    rw [hqc, post, if_pos hft, ← markHeartbeat_registerRequest] at hpost
    rw [h', if_pos hft]
    have hfixed : (registerRequest (clearValue s.ft c) (.heartbeat c) c).fixed =
      if isAnyComm c = true ∨ ((clearValue s.ft c).commNodes c).inserted = true
      then (clearValue s.ft c).fixed else (pushComm (clearValue s.ft c) c).fixed :=
      registerRequest_fixed ..
    have hkept : ∀ {β : Type} (f : Ft → β), f (pushComm (clearValue s.ft c) c).fixed =
        f (clearValue s.ft c).fixed →
        f (registerRequest (clearValue s.ft c) (.heartbeat c) c).fixed =
          f (clearValue s.ft c).fixed := fun f hf => by
      rw [hfixed]
      split
      case isTrue => rfl
      case isFalse => exact hf
    exact {
      inv := hpost
      status := by simp [markHeartbeat, Ft.setComm, nextStatus, hsize, hst, hdue]
      canceled := by
        have hno : ¬ Unanswered env now s c := fun h' => by rw [h'.2.1] at hst; cases hst
        rw [if_neg hno, List.append_nil]
        exact hkept (·.ftCanceledComs) rfl
      comm := fun d hd => by
        rw [markHeartbeat, Ft.setComm_comm, if_neg hd, registerRequest_comm _ _ hd, clearValue,
          Ft.setComm_comm, if_neg hd]
      requests := fun r hr => (postCore_requests_of_ne hr f o true).trans (hkeep r hr)
      completions := (postCore_completions ..).trans hcompl
      commIds := hkept (·.commIds) rfl
      anys := by
        refine (registerRequest_anys ..).trans ?_
        rw [hany]
        rfl
      pending := hkept (·.ftPendingFailedComms) rfl
      toCancel := hkept (·.ftRequestsToCancel) rfl
      failed := hkept (·.failed) rfl
      nodes := fun _ hins => by
        rw [if_pos (.inr hins)] at hfixed
        exact congrArg (·.commNodes) hfixed }

/-- `process_comm` on a communicator of the endpoint. -/
theorem processComm_processSpec (h : EngineInv s) (hft : env.faultTolerance = true)
    (hto : s.ft.ftRequestsToCancel = []) (hc : c ∈ s.ft.commIds) (hany : isAnyComm c = false) :
    ProcessSpec env now s (processComm env now beat s c) c := by
  rcases processComm_cases env now beat s c with ⟨hsize, heq⟩ | ⟨hsize, hst, hdue, heq⟩ |
    ⟨hsize, hst, hans, heq⟩ | ⟨hsize, hst, hans, hover, heq⟩ | ⟨hsize, hidle, hheart, heq⟩ <;>
    rw [heq]
  · exact {
      inv := h.eraseComm c
      status := by simp [nextStatus, hsize]; rfl
      canceled := by simp [Unanswered, hsize]; rfl
      comm := fun _ _ => rfl
      requests := fun _ _ => rfl
      completions := rfl
      commIds := rfl
      anys := rfl
      pending := rfl
      toCancel := rfl
      failed := rfl
      nodes := fun hs => absurd hsize hs }
  · exact startHeartbeat_processSpec h hft hto hc hany hsize hst hdue (beat c)
  · refine processSpec_setComm h (x := { s.ft.comm c with ftCurrentStatus := .idle })
      (l := s.ft.ftCanceledComs) rfl rfl (fun _ => heartbeatFree_iff.1 hans.1) (fun herr => ?_)
      ?_ ?_
    · rw [hst] at herr; cases herr
    · simp [nextStatus, hsize, hst, hans]
    · simp [Unanswered, hans]
  · refine processSpec_setComm h (x := { s.ft.comm c with ftCurrentStatus := .error })
      (l := s.ft.ftCanceledComs ++ [c]) rfl rfl (fun h => by cases h) (fun _ => rfl) ?_ ?_
    · simp [nextStatus, hsize, hst, hans, hover]
    · simp [Unanswered, hsize, hst, hans, hover]
  · have hno : ¬ Unanswered env now s c := fun h' => (hheart h'.2.1).2 h'.2.2.2
    exact {
      inv := h
      status := by
        simp only [nextStatus, if_neg hsize]
        cases hst : (s.ft.comm c).ftCurrentStatus with
        | idle => simp [hidle hst]
        | heartbeat => simp [hheart hst]
        | error => rfl
      canceled := by simp [hno]
      comm := fun _ _ => rfl
      requests := fun _ _ => rfl
      completions := rfl
      commIds := rfl
      anys := rfl
      pending := rfl
      toCancel := rfl
      failed := rfl
      nodes := fun _ _ => rfl }

/-! ### Walks -/

/-- What the next status of `c` depends on. -/
theorem nextStatus_congr (hcomm : t.ft.comm c = s.ft.comm c)
    (hreq : t.core.requests (.heartbeat c) = s.core.requests (.heartbeat c)) :
    nextStatus env now t c = nextStatus env now s c ∧
      (Unanswered env now t c ↔ Unanswered env now s c) := by
  have hans : Answered t c ↔ Answered s c := by
    unfold Answered heartbeatFree
    rw [hcomm, hreq]
  constructor
  · unfold nextStatus
    rw [hcomm]
    simp only [hans]
  · unfold Unanswered
    rw [hcomm, hans]

/-- What a walk leaves: an endpoint with the invariant, where the communicators given
up say so. -/
structure Walked (s t : State) : Prop where
  inv : EngineInv t
  givenUp : ∀ c ∈ t.ft.ftCanceledComs, c ∈ t.ft.commIds ∧ isAnyComm c = false ∧
    (t.ft.comm c).ftCurrentStatus = .error ∧ c ∉ t.ft.failed
  completions : t.core.completions = s.core.completions
  commIds : t.ft.commIds = s.ft.commIds
  anys : t.ft.ftAnyCommRequests = s.ft.ftAnyCommRequests
  pending : t.ft.ftPendingFailedComms = s.ft.ftPendingFailedComms
  toCancel : t.ft.ftRequestsToCancel = []
  failed : t.ft.failed = s.ft.failed

/-- One step of a walk. -/
theorem Walked.step (h : Walked s t) (hft : env.faultTolerance = true) (hc : c ∈ t.ft.commIds)
    (hany : isAnyComm c = false) : Walked s (processComm env now beat t c) := by
  have hp := @processComm_processSpec env _ _ now beat h.inv hft h.toCancel
    hc hany
  refine ⟨hp.inv, fun d hd => ?_, hp.completions.trans h.completions, hp.commIds.trans h.commIds,
    hp.anys.trans h.anys, hp.pending.trans h.pending, hp.toCancel.trans h.toCancel,
    hp.failed.trans h.failed⟩
  rw [hp.commIds, hp.failed]
  rw [hp.canceled, List.mem_append] at hd
  by_cases hdc : d = c
  · subst hdc
    rw [hp.status]
    rcases hd with hd | hd
    · obtain ⟨-, -, herr, hnew⟩ := h.givenUp d hd
      refine ⟨hc, hany, ?_, hnew⟩
      unfold nextStatus
      rw [herr]
      split <;> rfl
    · split at hd
      case isTrue hun =>
        obtain ⟨hsize, hst, hans, hover⟩ := hun
        refine ⟨hc, hany, by simp [nextStatus, hsize, hst, hans, hover], fun hmem => ?_⟩
        have herr := h.inv.gaveUp d hmem
        rw [hst] at herr
        cases herr
      case isFalse => cases hd
  · rw [hp.comm d hdc]
    rcases hd with hd | hd
    · exact h.givenUp d hd
    · split at hd
      case isTrue => exact absurd (List.mem_singleton.1 hd) hdc
      case isFalse => cases hd

/-- The walk of `ft_comms` visits members of the endpoint only. -/
theorem Walked.walkFtComms (h : Walked s t) (hft : env.faultTolerance = true) (fuel : ℕ)
    {o : Option CommId} (ho : ∀ c, o = some c → (t.ft.commNodes c).inserted = true) :
    Walked s (walkFtComms env now beat fuel o t) := by
  induction fuel generalizing t o with
  | zero => exact h
  | succ fuel ih =>
      cases o with
      | none => exact h
      | some c =>
          obtain ⟨hc, hany⟩ := h.inv.members c (ho c rfl)
          have hstep : Walked s (processComm env now beat t c) := h.step hft hc hany
          exact ih hstep fun d hd => hstep.inv.links.next_inserted hd

/-- The walk of `ft_comms` from the communicator `o` on gets to one whose heartbeat
stayed unanswered.  It ends at the first communicator without requests, which leaves
the list and with it its link to the next. -/
def WalkFails (env : Env) (now : ℤ) (s : State) : ℕ → Option CommId → Prop
  | 0, _ => False
  | _ + 1, none => False
  | fuel + 1, some c => Unanswered env now s c ∨
      ((s.ft.comm c).ftRequests.size ≠ 0 ∧ WalkFails env now s fuel (s.ft.commNodes c).next)

instance decidableWalkFails (env : Env) (now : ℤ) (s : State) :
    ∀ (fuel : ℕ) (o : Option CommId), Decidable (WalkFails env now s fuel o)
  | 0, _ => .isFalse id
  | _ + 1, none => .isFalse id
  | fuel + 1, some c =>
      have : Decidable (WalkFails env now s fuel (s.ft.commNodes c).next) :=
        decidableWalkFails env now s fuel (s.ft.commNodes c).next
      inferInstanceAs (Decidable (_ ∨ _))

/-- What the walk finds depends on the communicators it can get to. -/
theorem walkFails_congr {Q : CommId → Prop} (hnodes : t.ft.commNodes = s.ft.commNodes)
    (hnext : ∀ c d, Q c → (s.ft.commNodes c).next = some d → Q d)
    (hsame : ∀ d, Q d → t.ft.comm d = s.ft.comm d ∧
      t.core.requests (.heartbeat d) = s.core.requests (.heartbeat d)) (fuel : ℕ)
    {o : Option CommId} (ho : ∀ d, o = some d → Q d) :
    WalkFails env now t fuel o ↔ WalkFails env now s fuel o := by
  induction fuel generalizing o with
  | zero => exact Iff.rfl
  | succ fuel ih =>
      cases o with
      | none => exact Iff.rfl
      | some c =>
          obtain ⟨hcomm, hreq⟩ := hsame c (ho c rfl)
          unfold WalkFails
          rw [(nextStatus_congr hcomm hreq).2, hcomm, hnodes,
            ih fun d hd => hnext c d (ho c rfl) hd]

/-- What a pass notes down does not matter to the walk. -/
theorem walkFails_note (s : State) (last : ℤ) (count fuel : ℕ) (o : Option CommId) :
    WalkFails env now ⟨s.core, { s.ft with ftLastProgress := last, ftProgressCount := count }⟩
      fuel o ↔ WalkFails env now s fuel o :=
  walkFails_congr (s := s)
    (t := ⟨s.core, { s.ft with ftLastProgress := last, ftProgressCount := count }⟩)
    (Q := fun _ => True) rfl (fun _ _ _ _ => trivial) (fun _ _ => ⟨rfl, rfl⟩) fuel
    fun _ _ => trivial

/-- The walk of `ft_comms` gives somebody up exactly if it gets to somebody
unanswered. -/
theorem walkFtComms_canceled (h : Walked s t) (hft : env.faultTolerance = true) (fuel : ℕ)
    {o : Option CommId} (ho : ∀ c, o = some c → (t.ft.commNodes c).inserted = true) :
    ∃ cs, (walkFtComms env now beat fuel o t).ft.ftCanceledComs = t.ft.ftCanceledComs ++ cs ∧
      (cs = [] ↔ ¬ WalkFails env now t fuel o) := by
  induction fuel generalizing t o with
  | zero => exact ⟨[], (List.append_nil _).symm, by simp [WalkFails]⟩
  | succ fuel ih =>
      cases o with
      | none => exact ⟨[], (List.append_nil _).symm, by simp [WalkFails]⟩
      | some c =>
          obtain ⟨hc, hany⟩ := h.inv.members c (ho c rfl)
          have hp := @processComm_processSpec env _ _ now beat h.inv hft
            h.toCancel hc hany
          obtain ⟨cs, hcs, hiff⟩ := ih (h.step hft hc hany)
            (fun d hd => hp.inv.links.next_inserted hd)
          refine ⟨_, by rw [Impl.walkFtComms, hcs, hp.canceled, List.append_assoc], ?_⟩
          rw [List.append_eq_nil_iff, hiff, WalkFails, not_or]
          by_cases hun : Unanswered env now t c
          · simp [hun]
          rw [if_neg hun]
          refine and_congr (iff_of_true rfl hun) (not_congr ?_)
          by_cases hsize : (t.ft.comm c).ftRequests.size = 0
          · -- `c` is erased, and its link is gone
            have hnext : ((processComm env now beat t c).ft.commNodes c).next = none := by
              unfold processComm
              rw [if_pos hsize]
              show ((erase t.ft.commNodes t.ft.ftComms c).1 c).next = none
              rw [erase_self]
              rfl
            rw [hnext]
            cases fuel <;> simp [WalkFails, hsize]
          · obtain ⟨rank, hrank⟩ := h.inv.links.order
            have hnodes := hp.nodes hsize (ho c rfl)
            have hne : ∀ d, rank c < rank d → d ≠ c := fun d hd hdc =>
              Nat.lt_irrefl _ (hdc ▸ hd)
            rw [hnodes, walkFails_congr (Q := fun d => rank c < rank d) hnodes
              (fun d e hd he => Nat.lt_trans hd (hrank d e he))
              (fun d hd => ⟨hp.comm d (hne d hd), hp.requests _ (by simpa using hne d hd)⟩) fuel
              fun d hd => hrank c d hd]
            simp [hsize]

/-- **The walk of all communicators.**  Each one on the list gets its next status, and
the unanswered ones are given up. -/
theorem foldl_processComm (h : Walked s t) (hft : env.faultTolerance = true) {cs : List CommId}
    (hnd : cs.Nodup) (hcs : ∀ c ∈ cs, c ∈ t.ft.commIds ∧ isAnyComm c = false) :
    Walked s (cs.foldl (processComm env now beat) t) ∧
      (∀ c ∈ cs, ((cs.foldl (processComm env now beat) t).ft.comm c).ftCurrentStatus =
        nextStatus env now t c) ∧
      (∀ c, c ∉ cs → (cs.foldl (processComm env now beat) t).ft.comm c = t.ft.comm c) ∧
      (cs.foldl (processComm env now beat) t).ft.ftCanceledComs =
        t.ft.ftCanceledComs ++ cs.filter fun c => Unanswered env now t c := by
  induction cs generalizing t with
  | nil => exact ⟨h, by simp, by simp, by simp⟩
  | cons c cs ih =>
      obtain ⟨hcc, hnd⟩ := List.nodup_cons.1 hnd
      obtain ⟨hc, hany⟩ := hcs c (List.mem_cons_self ..)
      have hp := @processComm_processSpec env _ _ now beat h.inv hft
        h.toCancel hc hany
      obtain ⟨hwalk, hstatus, hother, hcan⟩ := ih (h.step hft hc hany) hnd fun d hd => by
        rw [hp.commIds]
        exact hcs d (List.mem_cons_of_mem _ hd)
      have hsame : ∀ d, d ≠ c → nextStatus env now (processComm env now beat t c) d =
          nextStatus env now t d ∧ (Unanswered env now (processComm env now beat t c) d ↔
            Unanswered env now t d) := fun d hd =>
        nextStatus_congr (hp.comm d hd) (hp.requests _ (by simpa using hd))
      refine ⟨hwalk, fun d hd => ?_, fun d hd => ?_, ?_⟩
      · rcases List.mem_cons.1 hd with rfl | hmem
        · rw [List.foldl_cons, hother d hcc, hp.status]
        · have hdc : d ≠ c := fun heq => hcc (heq ▸ hmem)
          rw [List.foldl_cons, hstatus d hmem, (hsame d hdc).1]
      · rw [List.mem_cons, not_or] at hd
        rw [List.foldl_cons, hother d hd.2, hp.comm d hd.1]
      · have hfilter : (cs.filter fun d => Unanswered env now (processComm env now beat t c) d) =
            cs.filter fun d => Unanswered env now t d := List.filter_congr fun d hd => by
          rw [decide_eq_decide]
          exact (hsame d fun heq => hcc (heq ▸ hd)).2
        rw [List.foldl_cons, hcan, hp.canceled, hfilter, List.append_assoc]
        by_cases hun : Unanswered env now t c <;> simp [hun]

end Impl
end Lfi
