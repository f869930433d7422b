/-
# A pass leaves a detached request alone

`one_loop` posts heartbeats, cancels communicators and reports them, and in all of this
it meets requests through the structures of the endpoint only.  So a request of the user
that is `Detached` keeps its memory, and the pass does not read it (`oneLoop_ignores`).
-/

import Lfi.Impl.Ignores

namespace Lfi
namespace Impl

variable {env : Env} {s t : State} {r r' : ReqId} {c : CommId}

/-! ### Posting other requests -/

theorem reset_setRequest (hr : r' ≠ r) (s : Core) (q : Option LfiRequest) :
    reset (s.setRequest r q) r' = (reset s r').setRequest r q := by
  unfold reset
  rw [Core.setRequest_of_ne hr]
  cases s.requests r' with
  | none => rfl
  | some p =>
      dsimp only
      rw [unassign_setRequest, Core.setRequest_comm hr]

theorem createContext_setRequest (s : Core) (r r' : ReqId) (q : Option LfiRequest) :
    createContext (s.setRequest r q) r' =
      ((createContext s r').1, (createContext s r').2.setRequest r q) := by
  unfold createContext
  rw [show (s.setRequest r q).pool = s.pool from rfl]
  cases s.pool.getLast? <;> rfl

theorem postCore_setRequest (hr : r' ≠ r) (s : Core) (f : RequestFields) (o : OpFields)
    (priority : Bool) (q : Option LfiRequest) :
    postCore (s.setRequest r q) r' f o priority = (postCore s r' f o priority).setRequest r q := by
  unfold postCore
  dsimp only
  rw [reset_setRequest hr, createContext_setRequest]
  dsimp only
  rw [Core.setRequest_of_ne hr, Core.setRequest_comm hr]
  cases priority <;> rfl

/-- A post adds a context of its own. -/
theorem postCore_contexts (s : Core) (r' : ReqId) (f : RequestFields) (o : OpFields)
    (priority : Bool) (c : ℕ) :
    (postCore s r' f o priority).contexts c = s.contexts c ∨
      (postCore s r' f o priority).contexts c = none ∨
      (postCore s r' f o priority).contexts c = some r' := by
  have hreset : (reset s r').contexts c = s.contexts c ∨ (reset s r').contexts c = none := by
    unfold reset
    cases s.requests r' with
    | none => exact .inl rfl
    | some p =>
        rw [show ((unassign s p.waitContext).setRequest r' _).contexts c =
          (unassign s p.waitContext).contexts c from rfl, ContextInv.unassign_contexts]
        split
        case isTrue => exact .inr rfl
        case isFalse => exact .inl rfl
  have hcreate : (createContext (reset s r') r').2.contexts c = (reset s r').contexts c ∨
      (createContext (reset s r') r').2.contexts c = some r' := by
    unfold createContext
    cases (reset s r').pool.getLast? with
    | none =>
        simp only [Core.setContext, Function.update_apply]
        split
        case isTrue => exact .inr rfl
        case isFalse => exact .inl rfl
    | some d =>
        simp only [Core.setContext, Function.update_apply]
        split
        case isTrue => exact .inr rfl
        case isFalse => exact .inl rfl
  have heq :
      (postCore s r' f o priority).contexts = (createContext (reset s r') r').2.contexts := by
    cases priority <;> rfl
  rw [heq]
  rcases hcreate with h | h
  · rcases hreset with h' | h'
    · exact .inl (h.trans h')
    · exact .inr (.inl (h.trans h'))
  · exact .inr (.inr h)

/-- Posting another request on a communicator that is there. -/
theorem post_ignores (h : Detached s r) (hr : r' ≠ r) (hc : c ∈ s.ft.commIds) (f : RequestFields)
    (o : OpFields) (priority : Bool) :
    IgnoresAt (fun s => post env s r' c f o priority) s r where
  detached := by
    refine detached_iff.2 ⟨fun d hd => ?_, ?_⟩
    · rcases postCore_contexts s.core r' f o priority d with heq | heq | heq
      · exact h.contexts d (heq.symm.trans hd)
      · cases heq.symm.trans hd
      · exact hr (Option.some.inj (heq.symm.trans hd))
    · show FtDetached (if env.faultTolerance then registerRequest s.ft r' c else s.ft) r
      split
      case isTrue => exact (detached_iff.1 h).2.registerRequest hr hc
      case isFalse => exact (detached_iff.1 h).2
  commIds := by
    show (if env.faultTolerance then registerRequest s.ft r' c else s.ft).commIds = _
    split
    case isTrue =>
      unfold registerRequest
      dsimp only
      split
      case isTrue => rfl
      case isFalse => split <;> rfl
    case isFalse => rfl
  put q := by
    show (⟨postCore (s.core.setRequest r q) r' f o priority, _⟩ : State) = _
    rw [postCore_setRequest hr]
    rfl

/-- `async_get` of another request: what it answers does not depend on `r` either. -/
theorem asyncGet_ignores (h : Detached s r) (hr : r' ≠ r) (buffer size addr : ℕ) (key : LfiMrKey)
    (priority : Bool) :
    IgnoresAt (fun s => (asyncGet env s r' buffer size addr key priority).2) s r ∧
      ∀ q, (asyncGet env (s.put r q) r' buffer size addr key priority).1 =
        (asyncGet env s r' buffer size addr key priority).1 := by
  have hput : ∀ q, (s.put r q).core.requests r' = s.core.requests r' := s.put_requests hr
  cases hp : s.core.requests r' with
  | none =>
      have hself : asyncGet env s r' buffer size addr key priority = (-lfiCommNotFound, s) :=
        withComm_of_none hp _
      have hother : ∀ q, asyncGet env (s.put r q) r' buffer size addr key priority =
          (-lfiCommNotFound, s.put r q) := fun q => withComm_of_none ((hput q).trans hp) _
      exact ⟨(IgnoresAt.id h).congr (by rw [hself]) fun q => by rw [hother], fun q => by
        rw [hself, hother]⟩
  | some p =>
      have heq : ∀ t : State, t.core.requests r' = some p → t.ft = s.ft →
          asyncGet env t r' buffer size addr key priority =
            if p.commId ∈ s.ft.commIds then
              if (s.ft.comm p.commId).isCanceled then (-lfiBrokenComm, t)
              else (lfiSuccess, post env t r' p.commId ⟨.get, size, 0, p.commId⟩
                ⟨.get, buffer, size, (s.ft.comm p.commId).fiAddr, addr, remoteKey env key⟩ priority)
            else (-lfiCommNotFound, t) := fun t ht hft => by
        rw [asyncGet, withComm_of_some ht, hft]
      have hself := heq s hp rfl
      have hother := fun q => heq (s.put r q) ((hput q).trans hp) rfl
      by_cases hc : p.commId ∈ s.ft.commIds
      case neg =>
        simp only [hc, if_false] at hself hother
        exact ⟨(IgnoresAt.id h).congr (by rw [hself]) fun q => by rw [hother], fun q => by
          rw [hself, hother]⟩
      case pos =>
        cases hcan : (s.ft.comm p.commId).isCanceled with
        | true =>
            simp only [hc, hcan, if_true] at hself hother
            exact ⟨(IgnoresAt.id h).congr (by rw [hself]) fun q => by rw [hother], fun q => by
              rw [hself, hother]⟩
        | false =>
            simp only [hc, hcan, if_true, Bool.false_eq_true, if_false] at hself hother
            have hpost := @post_ignores env _ _ _ _ h hr hc ⟨.get, size, 0, p.commId⟩
              ⟨.get, buffer, size, (s.ft.comm p.commId).fiAddr, addr, remoteKey env key⟩ priority
            exact ⟨hpost.congr (by rw [hself]) fun q => by rw [hother], fun q => by
              rw [hself, hother]⟩

/-! ### A pass -/

/-- A change of the bookkeeping alone. -/
theorem ft_ignores {k : Ft → Ft} (h : Detached s r) (hk : FtDetached (k s.ft) r)
    (hids : (k s.ft).commIds = s.ft.commIds) : IgnoresAt (fun s => ⟨s.core, k s.ft⟩) s r :=
  ⟨detached_iff.2 ⟨h.contexts, hk⟩, hids, fun _ => rfl⟩

theorem FtDetached.giveUp {s : Ft} (h : FtDetached s r) (c : CommId) : FtDetached (giveUp s c) r :=
  (h.setComm c (x := { s.comm c with ftCurrentStatus := .error }) rfl).congr rfl (fun _ => rfl)
    rfl rfl rfl

theorem ensureHeartbeat_setRequest (hr : r' ≠ r) (hc : r' = .heartbeat c) (s : Core)
    (q : Option LfiRequest) :
    ensureHeartbeat (s.setRequest r q) c = (ensureHeartbeat s c).setRequest r q := by
  subst hc
  unfold ensureHeartbeat
  rw [Core.setRequest_of_ne hr]
  cases s.requests (.heartbeat c) with
  | none => exact Core.setRequest_comm hr ..
  | some p => rfl

theorem reset_ignores (h : Detached s r) (hr : r' ≠ r) :
    IgnoresAt (fun s => ⟨reset s.core r', s.ft⟩) s r := by
  refine core_ignores (k := fun s => reset s r') h (fun d hd => ?_) fun q => reset_setRequest hr ..
  unfold reset at hd
  cases hp : s.core.requests r' with
  | none =>
      rw [hp] at hd
      exact h.contexts d hd
  | some p =>
      rw [hp] at hd
      dsimp only [Core.setRequest] at hd
      rw [ContextInv.unassign_contexts] at hd
      split at hd
      case isTrue => cases hd
      case isFalse => exact h.contexts d hd

/-- The heartbeat of a communicator is another request. -/
theorem startHeartbeat_ignores (h : Detached s r) (hr : ReqId.heartbeat c ≠ r) (beat : ℤ) :
    IgnoresAt (fun s => startHeartbeat env s c beat) s r := by
  have hensure : IgnoresAt (fun s => ⟨ensureHeartbeat s.core c, s.ft⟩) s r := by
    refine core_ignores (k := fun s => ensureHeartbeat s c) h (fun d => ?_)
      fun q => ensureHeartbeat_setRequest hr rfl s.core q
    unfold ensureHeartbeat
    cases s.core.requests (.heartbeat c) <;> exact h.contexts d
  -- the read of the heartbeat word, at the address the communicator gives
  have hpost : ∀ u : State, Detached u r → ∀ addr key, IgnoresAt (fun u =>
      let p := asyncGet env ⟨reset u.core (.heartbeat c), clearValue u.ft c⟩ (.heartbeat c) 0 8
        addr key true
      if p.1 < 0 then { p.2 with ft := giveUp p.2.ft c }
      else { p.2 with ft := markHeartbeat p.2.ft c beat }) u r := by
    intro u hu addr key
    have hreset := reset_ignores hu hr
    have hclear := ft_ignores (k := fun s => clearValue s c) hreset.detached
      ((detached_iff.1 hreset.detached).2.setComm c rfl) rfl
    have hready := hreset.comp hclear
    obtain ⟨hget, hsame⟩ := @asyncGet_ignores env _ _ _ hready.detached hr 0 8 addr key true
    have hrest : IgnoresAt (fun w =>
        if (asyncGet env w (.heartbeat c) 0 8 addr key true).1 < 0
        then ⟨(asyncGet env w (.heartbeat c) 0 8 addr key true).2.core,
          giveUp (asyncGet env w (.heartbeat c) 0 8 addr key true).2.ft c⟩
        else ⟨(asyncGet env w (.heartbeat c) 0 8 addr key true).2.core,
          markHeartbeat (asyncGet env w (.heartbeat c) 0 8 addr key true).2.ft c beat⟩)
        ⟨reset u.core (.heartbeat c), clearValue u.ft c⟩ r := by
      refine .ite (C := fun w => (asyncGet env w (.heartbeat c) 0 8 addr key true).1 < 0)
        (fun q => by rw [hsame q]) (fun _ => ?_) fun _ => ?_
      · exact hget.comp (ft_ignores (k := fun s => giveUp s c) hget.detached
          ((detached_iff.1 hget.detached).2.giveUp c) rfl)
      · exact hget.comp (ft_ignores (k := fun s => markHeartbeat s c beat) hget.detached
          ((detached_iff.1 hget.detached).2.setComm c rfl) rfl)
    exact hready.comp hrest
  have hbranch : IgnoresAt (fun u =>
      if heartbeatFree u.core c = true then
        let p := asyncGet env ⟨reset u.core (.heartbeat c), clearValue u.ft c⟩ (.heartbeat c) 0 8
          (s.ft.comm c).ftRemoteHeartbeatAddr (s.ft.comm c).ftRemoteHeartbeatKey true
        if p.1 < 0 then { p.2 with ft := giveUp p.2.ft c }
        else { p.2 with ft := markHeartbeat p.2.ft c beat }
      else u) ⟨ensureHeartbeat s.core c, s.ft⟩ r := by
    refine .ite (C := fun u => heartbeatFree u.core c = true)
      (fun q => ?_) (fun _ => ?_) fun _ => ?_
    · unfold heartbeatFree
      rw [show (State.put ⟨ensureHeartbeat s.core c, s.ft⟩ r q).core.requests (.heartbeat c) =
        (ensureHeartbeat s.core c).requests (.heartbeat c) from Core.setRequest_of_ne hr _ _]
    · exact hpost _ hensure.detached _ _
    · exact .id hensure.detached
  exact (hensure.comp hbranch).congr rfl fun q => rfl

/-- Whether the heartbeat is answered is not about another request. -/
theorem answered_put (hr : ReqId.heartbeat c ≠ r) (q : Option LfiRequest) :
    Answered (s.put r q) c ↔ Answered s c := by
  unfold Answered heartbeatFree
  rw [s.put_requests hr]
  rfl

/-- `process_comm`. -/
theorem processComm_ignores (h : Detached s r) (hr : ReqId.heartbeat c ≠ r) (now : ℤ)
    (beat : CommId → ℤ) : IgnoresAt (fun s => processComm env now beat s c) s r := by
  have hft := (detached_iff.1 h).2
  by_cases hsize : (s.ft.comm c).ftRequests.size = 0
  case pos =>
    exact (ft_ignores (k := fun s => eraseComm s c) h (hft.congr rfl (fun _ => rfl) rfl rfl rfl)
      rfl).congr (processComm_of_empty hsize beat) fun q =>
        processComm_of_empty (s := s.put r q) hsize beat
  case neg =>
    cases hst : (s.ft.comm c).ftCurrentStatus with
    | idle =>
        have hrest : IgnoresAt (fun t =>
            if Due env (s.ft.comm c) now then startHeartbeat env t c (beat c) else t) s r :=
          .ite (C := fun _ => Due env (s.ft.comm c) now) (fun _ => Iff.rfl)
            (fun _ => startHeartbeat_ignores h hr (beat c)) fun _ => .id h
        exact hrest.congr (processComm_of_idle hsize hst beat) fun q =>
          processComm_of_idle (s := s.put r q) hsize hst beat
    | heartbeat =>
        have hidle := ft_ignores
          (k := fun t => t.setComm c { t.comm c with ftCurrentStatus := .idle })
          h (hft.setComm c rfl) rfl
        have hlate : IgnoresAt (fun t : State =>
            if Overdue env (t.ft.comm c) now then ⟨t.core, giveUp t.ft c⟩ else t) s r :=
          .ite (C := fun t => Overdue env (t.ft.comm c) now) (fun _ => Iff.rfl)
            (fun _ => ft_ignores (k := fun s => giveUp s c) h (hft.giveUp c) rfl) fun _ => .id h
        have hrest := IgnoresAt.ite (C := fun t => Answered t c) (answered_put hr)
          (fun _ => hidle) fun _ => hlate
        exact hrest.congr (processComm_of_heartbeat hsize hst beat) fun q =>
          processComm_of_heartbeat (s := s.put r q) hsize hst beat
    | error =>
        exact (IgnoresAt.id h).congr (processComm_of_error hsize hst beat) fun q =>
          processComm_of_error (s := s.put r q) hsize hst beat

/-- `cancel_comm`: the requests on the list are others. -/
theorem cancelRequests_ignores (h : Detached s r) (hc : c ∈ s.ft.commIds)
    (events : ReqId → List FabricEvent) (fuel : ℕ) :
    IgnoresAt (fun s => cancelRequests env events c fuel s) s r := by
  induction fuel generalizing s with
  | zero => exact .id h
  | succ fuel ih =>
      cases hhead : (s.ft.comm c).ftRequests.head with
      | none =>
          exact (IgnoresAt.id h).congr (cancelRequests_of_head_none hhead _) fun q =>
            cancelRequests_of_head_none (s := s.put r q) hhead _
      | some r' =>
          have hr : r' ≠ r := fun hrr => (h.lists c hc).1 (hrr ▸ hhead)
          have hcancel := @cancel_ignores env _ _ _ h hr (events r')
          have hrest := ih hcancel.detached (by rw [hcancel.commIds]; exact hc)
          exact (hcancel.comp hrest).congr (cancelRequests_of_head_some hhead fuel) fun q =>
            cancelRequests_of_head_some (s := s.put r q) hhead fuel

theorem cancelComm_ignores (h : Detached s r) (hr : ReqId.heartbeat c ≠ r)
    (hc : c ∈ s.ft.commIds) (events : ReqId → List FabricEvent) :
    IgnoresAt (fun s => cancelComm env events s c) s r := by
  have hmark := ft_ignores (k := fun s => s.setComm c { s.comm c with isCanceled := true }) h
    ((detached_iff.1 h).2.setComm c rfl) rfl
  have hcancel := @cancelRequests_ignores env _ _ _ hmark.detached hc events
    ((s.ft.setComm c { s.ft.comm c with isCanceled := true }).comm c).ftRequests.size.toNat
  have hfree := @requestFree_ignores env _ _ _ hcancel.detached hr []
  have herase := ft_ignores (k := fun s => eraseComm s c) hfree.detached
    ((detached_iff.1 hfree.detached).2.congr rfl (fun _ => rfl) rfl rfl rfl) rfl
  exact (((hmark.comp hcancel).comp hfree).comp herase).congr rfl fun _ => rfl

theorem walkFtComms_ignores (hr : ∀ c, ReqId.heartbeat c ≠ r) (h : Detached s r) (now : ℤ)
    (beat : CommId → ℤ) (fuel : ℕ) (o : Option CommId) :
    IgnoresAt (fun s => walkFtComms env now beat fuel o s) s r := by
  induction fuel generalizing s o with
  | zero => exact .id h
  | succ fuel ih =>
      cases o with
      | none => exact .id h
      | some c =>
          have hproc := @processComm_ignores env _ _ _ h (hr c) now beat
          exact (hproc.comp (ih hproc.detached _)).congr rfl fun q => by
            rw [walkFtComms, hproc.put]
            rfl

theorem processComms_ignores (hr : ∀ c, ReqId.heartbeat c ≠ r) (h : Detached s r)
    (input : PassInput) : IgnoresAt (fun s => processComms env input s) s r :=
  .ite (C := fun s => s.ft.ftAnyCommRequests.Nonempty) (fun _ => Iff.rfl)
    (fun _ => (IgnoresAt.foldl (f := processComm env input.now input.beat) _
      (fun _ h c _ => processComm_ignores h (hr c) ..) h).congr rfl fun _ => rfl)
    fun _ => (walkFtComms_ignores hr h input.now input.beat s.ft.commIds.card
      s.ft.ftComms.head).congr rfl fun _ => rfl

theorem cancelComms_ignores (hr : ∀ c, ReqId.heartbeat c ≠ r) (h : Detached s r)
    (input : PassInput) : IgnoresAt (fun s => cancelComms env input s) s r := by
  refine (IgnoresAt.foldl s.ft.ftCanceledComs (fun s h c _ => ?_) h).congr rfl fun _ => rfl
  refine .ite (C := fun s => c ∈ s.ft.commIds) (fun _ => Iff.rfl) (fun hc => ?_) fun _ => .id h
  have hcancel := @cancelComm_ignores env _ _ _ h (hr c) hc (passEvents env input)
  exact hcancel.comp (ft_ignores (k := fun s => { s with failed := s.failed ++ [c] })
    hcancel.detached ((detached_iff.1 hcancel.detached).2.congr rfl (fun _ => rfl) rfl rfl rfl) rfl)

/-- A report to another request. -/
theorem reportTo_ignores (h : Detached s r) (hr : r' ≠ r) (c : CommId) :
    IgnoresAt (fun s => reportTo s r' c) s r := by
  have hmod := modify_ignores h hr fun p => p.map fun p =>
    { p with source := c, error := -lfiBrokenComm }
  have hft := (detached_iff.1 hmod.detached).2
  exact hmod.comp (ft_ignores (k := fun s => { s with
      ftAnyCommRequests := s.ftAnyCommRequests.erase r'
      ftRequestsToCancel := s.ftRequestsToCancel ++ [r'] }) hmod.detached
    ⟨hft.lists, hft.links, fun hmem => hft.anys (Finset.mem_of_mem_erase hmem), fun hmem =>
      (List.mem_append.1 hmem).elim hft.toCancel fun hmem =>
        hr (List.mem_singleton.1 hmem).symm⟩ rfl)

theorem reportToAny_ignores (h : Detached s r) {anys : List ReqId} (hany : r ∉ anys)
    (errors : List CommId) : IgnoresAt (fun s => reportToAny s anys errors) s r :=
  .foldl (f := fun s (p : ReqId × CommId) => reportTo s p.1 p.2) (anys.zip errors)
    (fun _ h p hp => reportTo_ignores h
      (fun heq => hany (heq ▸ (List.of_mem_zip (a := p.1) (b := p.2) hp).1)) p.2) h

/-- The requests to cancel are others. -/
theorem cancelReported_ignores (h : Detached s r) (events : ReqId → List FabricEvent) :
    IgnoresAt (fun s =>
      let t := s.ft.ftRequestsToCancel.foldl (fun s r => cancel env s r (events r)) s
      { t with ft := { t.ft with ftRequestsToCancel := [] } }) s r := by
  have hcancel : IgnoresAt (fun t =>
      s.ft.ftRequestsToCancel.foldl (fun s r => cancel env s r (events r)) t) s r :=
    .foldl _
      (fun t ht r' hr' => cancel_ignores ht (fun heq => h.toCancel (heq ▸ hr')) (events r')) h
  have hft := (detached_iff.1 hcancel.detached).2
  exact (hcancel.comp (ft_ignores (k := fun s => { s with ftRequestsToCancel := [] })
    hcancel.detached ⟨hft.lists, hft.links, hft.anys, List.not_mem_nil⟩ rfl)).congr rfl fun _ => rfl

theorem handleAnyCommReports_ignores (h : Detached s r) {anys : List ReqId} (hany : r ∉ anys)
    (events : ReqId → List FabricEvent) (pending : List CommId) :
    IgnoresAt (fun s => handleAnyCommReports env events anys pending s) s r := by
  have hold := reportToAny_ignores h hany pending
  have hsome := ft_ignores (k := fun s => { s with ftPendingFailedComms :=
      s.ftPendingFailedComms \ (pending.take anys.length).toFinset }) hold.detached
    ((detached_iff.1 hold.detached).2.congr rfl (fun _ => rfl) rfl rfl rfl) rfl
  have hnew := reportToAny_ignores hsome.detached
    (fun hmem => hany (List.mem_of_mem_drop hmem) : r ∉ anys.drop pending.length)
    s.ft.ftCanceledComs
  have hall := ft_ignores (k := fun t => { t with ftPendingFailedComms := t.ftPendingFailedComms ∪
      (s.ft.ftCanceledComs.drop (anys.drop pending.length).length).toFinset }) hnew.detached
    ((detached_iff.1 hnew.detached).2.congr rfl (fun _ => rfl) rfl rfl rfl) rfl
  have hready := ((hold.comp hsome).comp hnew).comp hall
  exact (hready.comp (@cancelReported_ignores env _ _ hready.detached events)).congr rfl
    fun _ => rfl

/-- A pass. -/
theorem pass_ignores (hr : ∀ c, ReqId.heartbeat c ≠ r) (h : Detached s r) (input : PassInput) :
    IgnoresAt (fun s => pass env input s) s r := by
  have hnote := ft_ignores (k := fun s => { s with ftLastProgress := input.now }) h
    ((detached_iff.1 h).2.congr rfl (fun _ => rfl) rfl rfl rfl) rfl
  have hproc := @processComms_ignores env _ _ hr hnote.detached input
  have hcancel := @cancelComms_ignores env _ _ hr hproc.detached input
  have hwalk := (hnote.comp hproc).comp hcancel
  have hend : ∀ t, Detached t r → IgnoresAt (fun t => { t with ft := { t.ft with
      ftCanceledComs := [] } }) t r := fun t ht =>
    ft_ignores (k := fun s => { s with ftCanceledComs := [] }) ht
      ((detached_iff.1 ht).2.congr rfl (fun _ => rfl) rfl rfl rfl) rfl
  by_cases hany : s.ft.ftAnyCommRequests.Nonempty
  case pos =>
    have hreport : ∀ t, Detached t r → IgnoresAt (fun t =>
        handleAnyCommReports env (passEvents env input)
          (input.anys.filter fun r => r ∈ t.ft.ftAnyCommRequests)
          (input.pending.filter fun c => c ∈ t.ft.ftPendingFailedComms) t) t r := fun t ht =>
      (@handleAnyCommReports_ignores env _ _ ht
        (input.anys.filter fun r => r ∈ t.ft.ftAnyCommRequests)
        (fun hmem => ht.anys (by simpa using List.of_mem_filter hmem)) (passEvents env input)
        (input.pending.filter fun c => c ∈ t.ft.ftPendingFailedComms)).congr rfl fun _ => rfl
    have hreported := hwalk.comp (hreport _ hwalk.detached)
    refine (hreported.comp (hend _ hreported.detached)).congr ?_ fun q => ?_
    · simp only [pass, hany, decide_true, if_true]
    · simp only [pass, State.put, hany, decide_true, if_true]
  case neg =>
    refine (hwalk.comp (hend _ hwalk.detached)).congr ?_ fun q => ?_
    · simp only [pass, hany, decide_false, Bool.false_eq_true, if_false]
    · simp only [pass, State.put, hany, decide_false, Bool.false_eq_true, if_false]

/-- `one_loop`. -/
theorem oneLoop_ignores (hr : ∀ c, ReqId.heartbeat c ≠ r) (h : Detached s r) (input : PassInput) :
    IgnoresAt (fun s => oneLoop env input s) s r := by
  have hcount : ∀ n, IgnoresAt (fun s => ⟨s.core, { s.ft with ftProgressCount := n }⟩) s r :=
    fun n => ft_ignores (k := fun s => { s with ftProgressCount := n }) h
      ((detached_iff.1 h).2.congr rfl (fun _ => rfl) rfl rfl rfl) rfl
  refine .ite (C := fun s => s.ft.ftProgressCount + 1 < 100) (fun _ => Iff.rfl)
    (fun _ => (hcount (s.ft.ftProgressCount + 1)).congr rfl fun _ => rfl) fun _ => ?_
  have hpass := @pass_ignores env _ _ hr (hcount 0).detached input
  exact .ite (C := fun s => elapsedMs input.now s.ft.ftLastProgress < 10) (fun _ => Iff.rfl)
    (fun _ => hcount 0) fun _ => (hcount 0).comp hpass

end Impl
end Lfi
