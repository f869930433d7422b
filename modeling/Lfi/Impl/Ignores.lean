/-
# What does not touch a request

Six structures hold pointers to requests: the contexts, the operations through their
contexts, `ft_requests` of the communicators, `ft_any_comm_requests`,
`ft_requests_to_cancel` and the links of other requests.  A request that none of them
holds is `Detached`.

A function that runs while a request is detached does not read the memory of the request
and does not write it, whatever it holds: the function commutes with a change of that
memory (`IgnoresAt.put`).  Nor does it make the request known to any of the structures
again.
-/

import Lfi.Impl.Contexts
import Lfi.Impl.Engine

namespace Lfi
namespace Impl

/-- The state with other contents in the memory of the request `r`. -/
def State.put (s : State) (r : ReqId) (q : Option LfiRequest) : State :=
  ⟨s.core.setRequest r q, s.ft⟩

/-- No structure of the endpoint holds a pointer to the request. -/
structure Detached (s : State) (r : ReqId) : Prop where
  contexts : ∀ c, s.core.contexts c ≠ some r
  lists : ∀ c ∈ s.ft.commIds,
    (s.ft.comm c).ftRequests.head ≠ some r ∧ (s.ft.comm c).ftRequests.tail ≠ some r
  links : ∀ x, (s.ft.reqNodes x).next ≠ some r ∧ (s.ft.reqNodes x).prev ≠ some r
  anys : r ∉ s.ft.ftAnyCommRequests
  toCancel : r ∉ s.ft.ftRequestsToCancel

/-- From the state `s` the function `f` leaves the request `r` alone. -/
structure IgnoresAt (f : State → State) (s : State) (r : ReqId) : Prop where
  detached : Detached (f s) r
  commIds : (f s).ft.commIds = s.ft.commIds
  put : ∀ q, f (s.put r q) = (f s).put r q

variable {env : Env} {s t : State} {r r' : ReqId} {c : CommId} {f g : State → State}

namespace Detached

/-- Only the contexts and the bookkeeping of fault tolerance count. -/
theorem congr (h : Detached s r) (hctx : t.core.contexts = s.core.contexts)
    (hft : t.ft = s.ft) : Detached t r := by
  refine ⟨?_, ?_, ?_, ?_, ?_⟩
  · rw [hctx]; exact h.contexts
  all_goals rw [hft]
  · exact h.lists
  · exact h.links
  · exact h.anys
  · exact h.toCancel

theorem put (h : Detached s r) (q : Option LfiRequest) : Detached (s.put r q) r :=
  h.congr rfl rfl

/-- A request that is detached is in no list of outstanding requests. -/
theorem not_mem (h : Detached s r) (hc : c ∈ s.ft.commIds) {xs : List ReqId}
    (hxs : Rep s.ft.reqNodes (s.ft.comm c).ftRequests xs) : r ∉ xs := by
  intro hr
  obtain ⟨ys, zs, rfl⟩ := List.append_of_mem hr
  rcases ys.eq_nil_or_concat with rfl | ⟨ys, x, rfl⟩
  · have hhead := hxs.head_eq
    exact (h.lists c hc).1 hhead
  · have hseg := hxs.seg
    rw [List.concat_eq_append, List.append_assoc, seg_append] at hseg
    have hx := hseg.2.1
    exact (h.links x).1 (by rw [hx]; rfl)

end Detached

namespace IgnoresAt

/-- One function after the other. -/
theorem comp (hf : IgnoresAt f s r) (hg : IgnoresAt g (f s) r) :
    IgnoresAt (fun s => g (f s)) s r where
  detached := hg.detached
  commIds := hg.commIds.trans hf.commIds
  put q := by
    show g (f (s.put r q)) = (g (f s)).put r q
    rw [hf.put, hg.put]

theorem id (h : Detached s r) : IgnoresAt (fun s => s) s r := ⟨h, rfl, fun _ => rfl⟩

/-- What a function does from this state, whatever the memory of the request holds. -/
theorem congr (hg : IgnoresAt g s r) (h : f s = g s) (hput : ∀ q, f (s.put r q) = g (s.put r q)) :
    IgnoresAt f s r where
  detached := h ▸ hg.detached
  commIds := h ▸ hg.commIds
  put q := by rw [hput, h, hg.put]

/-- A branch whose condition is not about the request. -/
theorem ite {C : State → Prop} [DecidablePred C] (hC : ∀ q, C (s.put r q) ↔ C s)
    (hf : C s → IgnoresAt f s r) (hg : ¬ C s → IgnoresAt g s r) :
    IgnoresAt (fun s => if C s then f s else g s) s r := by
  by_cases hs : C s
  · have hf := hf hs
    refine ⟨by simpa only [if_pos hs] using hf.detached, by simpa only [if_pos hs] using hf.commIds,
      fun q => ?_⟩
    simpa only [if_pos hs, if_pos ((hC q).2 hs)] using hf.put q
  · have hg := hg hs
    refine ⟨by simpa only [if_neg hs] using hg.detached, by simpa only [if_neg hs] using hg.commIds,
      fun q => ?_⟩
    simpa only [if_neg hs, if_neg (mt (hC q).1 hs)] using hg.put q

/-- A loop whose rounds leave the request alone. -/
theorem foldl {α : Type*} {f : State → α → State} (as : List α)
    (hf : ∀ s, Detached s r → ∀ a ∈ as, IgnoresAt (fun s => f s a) s r) (h : Detached s r) :
    IgnoresAt (fun s => as.foldl f s) s r := by
  induction as generalizing s with
  | nil => exact id h
  | cons a as ih =>
      have hfirst := hf s h a (List.mem_cons_self ..)
      have hrest := ih (fun s h a ha => hf s h a (List.mem_cons_of_mem _ ha)) hfirst.detached
      exact hfirst.comp hrest

end IgnoresAt

/-! ### Completing -/

theorem Core.setRequest_comm (h : r' ≠ r) (s : Core) (p q : Option LfiRequest) :
    (s.setRequest r q).setRequest r' p = (s.setRequest r' p).setRequest r q := by
  simp only [Core.setRequest]
  rw [Function.update_comm h.symm]

theorem Core.setRequest_of_ne (h : r' ≠ r) (s : Core) (q : Option LfiRequest) :
    (s.setRequest r q).requests r' = s.requests r' :=
  Function.update_of_ne h _ _

theorem unassign_setRequest (s : Core) (w : Option ℕ) (q : Option LfiRequest) :
    unassign (s.setRequest r q) w = (unassign s w).setRequest r q := by
  cases w <;> rfl

theorem completeBody_setRequest (h : r' ≠ r) (s : Core) (q : Option LfiRequest) (err : ℤ) :
    completeBody (s.setRequest r q) r' err = (completeBody s r' err).setRequest r q := by
  unfold completeBody
  rw [Core.setRequest_of_ne h]
  cases s.requests r' with
  | none => rfl
  | some p =>
      dsimp only
      rw [unassign_setRequest, Core.setRequest_comm h]
      cases p.sharedWaitStruct <;> cases p.callback <;> rfl

/-- No link of the requests leads to `r`. -/
def Unlinked (h : Nodes ReqId) (r : ReqId) : Prop :=
  ∀ x, (h x).next ≠ some r ∧ (h x).prev ≠ some r

/-- Neither end of the list is `r`. -/
def DoubleLinkedList.Lacks (l : DoubleLinkedList ReqId) (r : ReqId) : Prop :=
  l.head ≠ some r ∧ l.tail ≠ some r

theorem Unlinked.update {h : Nodes ReqId} (hl : Unlinked h r) {x : ReqId} {n : Node ReqId}
    (hn : n.next ≠ some r ∧ n.prev ≠ some r) : Unlinked (Function.update h x n) r := by
  intro y
  by_cases hy : y = x
  · subst hy
    rw [Function.update_self]
    exact hn
  · rw [Function.update_of_ne hy]
    exact hl y

theorem Unlinked.setNext {h : Nodes ReqId} (hl : Unlinked h r) (x : ReqId) {y : Option ReqId}
    (hy : y ≠ some r) : Unlinked (setNext h x y) r :=
  hl.update ⟨hy, (hl x).2⟩

theorem Unlinked.setPrev {h : Nodes ReqId} (hl : Unlinked h r) (x : ReqId) {y : Option ReqId}
    (hy : y ≠ some r) : Unlinked (setPrev h x y) r :=
  hl.update ⟨(hl x).1, hy⟩

/-- A request leaves its list. -/
theorem Unlinked.erase {h : Nodes ReqId} {l : DoubleLinkedList ReqId} (hl : Unlinked h r)
    (hends : l.Lacks r) (node : ReqId) :
    Unlinked (erase h l node).1 r ∧ (erase h l node).2.Lacks r := by
  have hfree : (Node.free : Node ReqId).next ≠ some r ∧ (Node.free : Node ReqId).prev ≠ some r :=
    ⟨Option.some_ne_none r |>.symm, Option.some_ne_none r |>.symm⟩
  unfold Impl.erase
  cases (h node).prev with
  | some p =>
      have hl₁ := hl.setNext p (hl node).1
      dsimp only
      cases (Impl.setNext h p (h node).next node).next with
      | some n => exact ⟨(hl₁.setPrev n (hl₁ node).2).update hfree, hends.1, hends.2⟩
      | none => exact ⟨hl₁.update hfree, hends.1, (hl₁ node).2⟩
  | none =>
      have hnext := (hl node).1
      have hprev := (hl node).2
      dsimp only
      cases hn : (h node).next with
      | some n => exact ⟨(hl.setPrev n hprev).update hfree, hn ▸ hnext, hends.2⟩
      | none => exact ⟨hl.update hfree, nofun, hprev⟩

/-- A request joins a list. -/
theorem Unlinked.pushBack {h : Nodes ReqId} {l : DoubleLinkedList ReqId} (hl : Unlinked h r)
    (hends : l.Lacks r) {node : ReqId} (hnode : node ≠ r) :
    Unlinked (pushBack h l node).1 r ∧ (pushBack h l node).2.Lacks r := by
  have hne : some node ≠ some r := fun heq => hnode (Option.some.inj heq)
  unfold Impl.pushBack
  cases htail : l.tail with
  | none => exact ⟨hl.update ⟨(hl node).1, (hl node).2⟩, hne, hne⟩
  | some tail =>
      have hset := (hl.setNext tail hne).setPrev node (htail ▸ hends.2)
      exact ⟨hset.update ⟨(hset node).1, (hset node).2⟩, hends.1, hne⟩

/-- The part of `Detached` that fault tolerance keeps. -/
structure FtDetached (s : Ft) (r : ReqId) : Prop where
  lists : ∀ c ∈ s.commIds, (s.comm c).ftRequests.Lacks r
  links : Unlinked s.reqNodes r
  anys : r ∉ s.ftAnyCommRequests
  toCancel : r ∉ s.ftRequestsToCancel

theorem detached_iff : Detached s r ↔ (∀ c, s.core.contexts c ≠ some r) ∧ FtDetached s.ft r :=
  ⟨fun h => ⟨h.contexts, h.lists, h.links, h.anys, h.toCancel⟩,
    fun h => ⟨h.1, h.2.lists, h.2.links, h.2.anys, h.2.toCancel⟩⟩

namespace FtDetached

/-- Replacing a communicator by one with another list, and the links. -/
theorem setList {s : Ft} (h : FtDetached s r) {nodes : Nodes ReqId} {x : LfiComm}
    (hnodes : Unlinked nodes r) (hx : x.ftRequests.Lacks r) (c : CommId) :
    FtDetached ({ s with reqNodes := nodes }.setComm c x) r := by
  refine ⟨fun d hd => ?_, hnodes, h.anys, h.toCancel⟩
  simp only [Ft.setComm_comm]
  split
  case isTrue => exact hx
  case isFalse => exact h.lists d hd

theorem setComm {s : Ft} (h : FtDetached s r) (c : CommId) {x : LfiComm}
    (hx : x.ftRequests = (s.comm c).ftRequests) : FtDetached (s.setComm c x) r := by
  refine ⟨fun d hd => ?_, h.links, h.anys, h.toCancel⟩
  rw [Ft.setComm_same (·.ftRequests) hx]
  exact h.lists d hd

/-- What does not concern requests. -/
theorem congr {s t : Ft} (h : FtDetached s r) (hids : t.commIds = s.commIds)
    (hlists : ∀ c, (t.comm c).ftRequests = (s.comm c).ftRequests)
    (hnodes : t.reqNodes = s.reqNodes) (hanys : t.ftAnyCommRequests = s.ftAnyCommRequests)
    (hto : t.ftRequestsToCancel = s.ftRequestsToCancel) : FtDetached t r :=
  ⟨fun c hc => hlists c ▸ h.lists c (hids ▸ hc), hnodes ▸ h.links, hanys ▸ h.anys, hto ▸ h.toCancel⟩

theorem onRequestComplete {s : Ft} (h : FtDetached s r) (r' : ReqId) (c source : CommId)
    (err now : ℤ) : FtDetached (onRequestComplete s r' c source err now) r := by
  unfold Impl.onRequestComplete
  split
  case isFalse => exact h
  case isTrue hc =>
    have herase : FtDetached (eraseAnyRequest (eraseRequest s r' c) r' c) r := by
      obtain ⟨hl, hends⟩ := h.links.erase (h.lists c hc) r'
      have hrest : FtDetached (eraseRequest s r' c) r := h.setList hl hends c
      unfold eraseAnyRequest
      split
      case isTrue => exact ⟨hrest.lists, hrest.links,
        fun hr => hrest.anys (Finset.mem_of_mem_erase hr),
        hrest.toCancel⟩
      case isFalse => exact hrest
    dsimp only
    split
    case isTrue =>
      unfold touchComm
      split
      case isTrue => exact herase.setComm _ rfl
      case isFalse => exact herase
    case isFalse => exact herase

theorem registerRequest {s : Ft} (h : FtDetached s r) (hr : r' ≠ r) {c : CommId}
    (hc : c ∈ s.commIds) : FtDetached (registerRequest s r' c) r := by
  have hfirst : ∀ t : Ft, FtDetached t r → c ∈ t.commIds → FtDetached (pushRequest t r' c) r := by
    intro t ht hc
    obtain ⟨hl, hends⟩ := ht.links.pushBack (ht.lists c hc) hr
    exact ht.setList hl hends c
  unfold Impl.registerRequest
  refine hfirst _ ?_ ?_
  · split
    case isTrue => exact ⟨h.lists, h.links, by simp [h.anys, hr.symm], h.toCancel⟩
    case isFalse =>
      split
      case isTrue => exact h
      case isFalse => exact h.congr rfl (fun _ => rfl) rfl rfl rfl
  · split
    case isTrue => exact hc
    case isFalse => split <;> exact hc

end FtDetached

theorem completeBody_contexts (s : Core) (r : ReqId) (err : ℤ) (c : ℕ) :
    (completeBody s r err).contexts c = s.contexts c ∨
      (completeBody s r err).contexts c = none := by
  cases hq : s.requests r with
  | none => exact .inl (by simp only [completeBody, hq])
  | some q =>
      have hun : (unassign s q.waitContext).contexts c = s.contexts c ∨
          (unassign s q.waitContext).contexts c = none := by
        rw [ContextInv.unassign_contexts]
        split
        case isTrue => exact .inr rfl
        case isFalse => exact .inl rfl
      have heq : (completeBody s r err).contexts = (unassign s q.waitContext).contexts := by
        simp only [completeBody, hq]
        cases q.sharedWaitStruct <;> cases q.callback <;> cases q.waitContext <;> rfl
      rw [heq]
      exact hun

/-- `complete` of another request. -/
theorem complete_ignores (h : Detached s r) (hr : r' ≠ r) (err now : ℤ) :
    IgnoresAt (fun s => complete env s r' err now) s r := by
  refine ⟨detached_iff.2 ⟨fun c hc => ?_, ?_⟩, (complete_progressed r' err now).commIds,
    fun q => ?_⟩
  · unfold complete at hc
    cases hq : s.core.requests r' with
    | none =>
        rw [hq] at hc
        exact h.contexts c hc
    | some p =>
        rw [hq] at hc
        dsimp only at hc
        split at hc
        case isTrue => exact h.contexts c hc
        case isFalse =>
          rcases completeBody_contexts s.core r' err c with heq | heq
          · exact h.contexts c (heq.symm.trans hc)
          · rw [show (completeBody s.core r' err).contexts c = some r from hc] at heq
            cases heq
  · unfold complete
    cases s.core.requests r' with
    | none => exact (detached_iff.1 h).2
    | some p =>
        dsimp only
        split
        case isTrue => exact (detached_iff.1 h).2
        case isFalse =>
          dsimp only
          split
          case isTrue => exact (detached_iff.1 h).2.onRequestComplete ..
          case isFalse => exact (detached_iff.1 h).2
  · show complete env (s.put r q) r' err now = (complete env s r' err now).put r q
    unfold complete State.put
    rw [Core.setRequest_of_ne hr]
    cases s.core.requests r' with
    | none => rfl
    | some p =>
        dsimp only
        split
        case isTrue => rfl
        case isFalse => rw [completeBody_setRequest hr]

/-- A change of contexts, queues and the like. -/
theorem core_ignores {k : Core → Core} (h : Detached s r)
    (hctx : ∀ c, (k s.core).contexts c ≠ some r)
    (hput : ∀ q, k (s.core.setRequest r q) = (k s.core).setRequest r q) :
    IgnoresAt (fun s => ⟨k s.core, s.ft⟩) s r where
  detached := detached_iff.2 ⟨hctx, (detached_iff.1 h).2⟩
  commIds := rfl
  put q := by
    show (⟨k (s.core.setRequest r q), s.ft⟩ : State) = _
    rw [hput]
    rfl

/-- A change of another request. -/
theorem modify_ignores (h : Detached s r) (hr : r' ≠ r)
    (k : Option LfiRequest → Option LfiRequest) :
    IgnoresAt (fun s => ⟨s.core.setRequest r' (k (s.core.requests r')), s.ft⟩) s r :=
  core_ignores (k := fun s => s.setRequest r' (k (s.requests r'))) h h.contexts fun q => by
    rw [Core.setRequest_of_ne hr, Core.setRequest_comm hr]

theorem destroyContext_ignores (h : Detached s r) (c : ℕ) :
    IgnoresAt (fun s => ⟨destroyContext s.core c, s.ft⟩) s r :=
  core_ignores (k := fun s => destroyContext s c) h (fun d hd => by
    by_cases hdc : d = c
    · subst hdc
      simp [destroyContext, Core.setContext] at hd
    · exact h.contexts d (by simpa [destroyContext, Core.setContext, hdc] using hd)) fun _ => rfl

/-- `receive` of another request. -/
theorem receive_ignores (h : Detached s r) (hr : r' ≠ r) (len tag : ℕ) (now : ℤ) :
    IgnoresAt (fun s => receive env s r' len tag now) s r := by
  have hmod := modify_ignores h hr fun p => p.map fun p => p.received len tag
  exact hmod.comp (g := fun s => complete env s r' lfiSuccess now)
    (complete_ignores hmod.detached hr lfiSuccess now)

/-- Completing the request a context points to. -/
theorem completeAt_ignores (h : Detached s r) (ctx : ℕ) (err now : ℤ) :
    IgnoresAt (fun s => completeAt env s ctx err now) s r := by
  cases hctx : s.core.contexts ctx with
  | none =>
      exact (IgnoresAt.id h).congr (completeAt_of_none hctx err now) fun q =>
        completeAt_of_none (s := s.put r q) hctx err now
  | some r' =>
      have hne : r' ≠ r := fun hr => h.contexts ctx (hr ▸ hctx)
      exact (complete_ignores h hne err now).congr (completeAt_of_some hctx err now) fun q =>
        completeAt_of_some (s := s.put r q) hctx err now

theorem receiveAt_ignores (h : Detached s r) (ctx len tag : ℕ) (now : ℤ) :
    IgnoresAt (fun s => receiveAt env s ctx len tag now) s r := by
  cases hctx : s.core.contexts ctx with
  | none =>
      exact (IgnoresAt.id h).congr (receiveAt_of_none hctx len tag now) fun q =>
        receiveAt_of_none (s := s.put r q) hctx len tag now
  | some r' =>
      have hne : r' ≠ r := fun hr => h.contexts ctx (hr ▸ hctx)
      exact (receive_ignores h hne len tag now).congr (receiveAt_of_some hctx len tag now) fun q =>
        receiveAt_of_some (s := s.put r q) hctx len tag now

/-! ### Progress -/

/-- An attempt of `post_pending_ops`. -/
theorem postOp_ignores (h : Detached s r) (op : LfiPendingOp) (ret now : ℤ) :
    IgnoresAt (fun s => postOp env s op ret now) s r := by
  unfold postOp
  split
  case isTrue => exact completeAt_ignores h ..
  case isFalse =>
    split
    case isTrue =>
      have hcomp := @completeAt_ignores env _ _ h op.context lfiSuccess now
      exact hcomp.comp (destroyContext_ignores hcomp.detached op.context)
    case isFalse =>
      exact core_ignores (k := fun s => { s with inFlight := s.inFlight ++ [op] }) h h.contexts
        fun _ => rfl

/-- `process_queue`. -/
theorem processQueue_ignores (h : Detached s r) (now : ℤ) (ops : List LfiPendingOp)
    (answers : List ℤ) :
    IgnoresAt (fun s => (processQueue env now ops answers s).2.2) s r ∧
      ∀ q, processQueue env now ops answers (s.put r q) =
        ((processQueue env now ops answers s).1, (processQueue env now ops answers s).2.1,
          (processQueue env now ops answers s).2.2.put r q) := by
  induction ops generalizing answers s with
  | nil => exact ⟨.id h, fun _ => rfl⟩
  | cons op ops ih =>
      cases answers with
      | nil => exact ⟨.id h, fun _ => rfl⟩
      | cons ret answers =>
          unfold processQueue
          split
          case isTrue => exact ⟨.id h, fun _ => rfl⟩
          case isFalse =>
            have hpost := @postOp_ignores env _ _ h op ret now
            obtain ⟨hrest, hsame⟩ := ih hpost.detached answers
            refine ⟨hpost.comp hrest, fun q => ?_⟩
            rw [hpost.put]
            exact hsame q

theorem postPendingOps_ignores (h : Detached s r) (answers : List ℤ) (now : ℤ) :
    IgnoresAt (fun s => postPendingOps env s answers now) s r := by
  obtain ⟨hfirst, hsame⟩ := @processQueue_ignores env _ _ h now s.core.priorityOps answers
  have hdet : Detached (processQueue env now s.core.priorityOps answers s).2.2 r := hfirst.detached
  have hids : (processQueue env now s.core.priorityOps answers s).2.2.ft.commIds =
    s.ft.commIds := hfirst.commIds
  -- the two queues in a row, for what is left of the first one
  have hput : ∀ q, postPendingOps env (s.put r q) answers now =
      (postPendingOps env s answers now).put r q := by
    intro q
    unfold postPendingOps
    rw [show (s.put r q).core.priorityOps = s.core.priorityOps from rfl, hsame q]
    generalize processQueue env now s.core.priorityOps answers s = p at hdet
    have hqueue : Detached ⟨{ p.2.2.core with priorityOps := p.1 }, p.2.2.ft⟩ r :=
      hdet.congr rfl rfl
    have hsecond := (@processQueue_ignores env _ _ hqueue now p.2.2.core.pendingOps p.2.1).2 q
    dsimp only
    split
    case isTrue =>
      rw [show (⟨{ (p.2.2.put r q).core with priorityOps := p.1 }, (p.2.2.put r q).ft⟩ : State) =
        State.put ⟨{ p.2.2.core with priorityOps := p.1 }, p.2.2.ft⟩ r q from rfl]
      rw [show (p.2.2.put r q).core.pendingOps = p.2.2.core.pendingOps from rfl, hsecond]
      rfl
    case isFalse => rfl
  have hend : Detached (postPendingOps env s answers now) r ∧
      (postPendingOps env s answers now).ft.commIds = s.ft.commIds := by
    unfold postPendingOps
    generalize processQueue env now s.core.priorityOps answers s = p at hdet hids
    have hqueue : Detached ⟨{ p.2.2.core with priorityOps := p.1 }, p.2.2.ft⟩ r :=
      hdet.congr rfl rfl
    have hsecond := (@processQueue_ignores env _ _ hqueue now p.2.2.core.pendingOps p.2.1).1
    dsimp only
    split
    case isTrue => exact ⟨hsecond.detached.congr rfl rfl, hsecond.commIds.trans hids⟩
    case isFalse => exact ⟨hqueue, hids⟩
  exact ⟨hend.1, hend.2, hput⟩

/-- An event of the fabric. -/
theorem fabricEvent_ignores (h : Detached s r) (e : FabricEvent) :
    IgnoresAt (fun s => fabricEvent env s e) s r := by
  have htake : ∀ ctx, IgnoresAt (fun s => ⟨takeBack s.core ctx, s.ft⟩) s r := fun ctx =>
    core_ignores (k := fun s => takeBack s ctx) h h.contexts fun _ => rfl
  cases e with
  | success ctx len tag now =>
      have hrecv := @receiveAt_ignores env _ _ (htake ctx).detached ctx len tag now
      exact .ite (C := fun s => ∃ op ∈ s.core.inFlight, op.context = ctx) (fun _ => Iff.rfl)
        (fun _ => ((htake ctx).comp hrecv).comp (destroyContext_ignores hrecv.detached ctx))
        fun _ => .id h
  | error ctx err =>
      have hcomp := @completeAt_ignores env _ _ (htake ctx).detached ctx (cqErrorCode err) 0
      exact .ite (C := fun s => ∃ op ∈ s.core.inFlight, op.context = ctx) (fun _ => Iff.rfl)
        (fun _ => ((htake ctx).comp hcomp).comp (destroyContext_ignores hcomp.detached ctx))
        fun _ => .id h
  | heartbeatValue c value =>
      exact ⟨detached_iff.2 ⟨h.contexts, (detached_iff.1 h).2.setComm c rfl⟩, rfl, fun _ => rfl⟩
  | postPendingOps answers now => exact postPendingOps_ignores h answers now

/-- A progress step. -/
theorem progress_ignores (h : Detached s r) (events : List FabricEvent) :
    IgnoresAt (fun s => progress env events s) s r :=
  .foldl (f := fabricEvent env) _ (fun _ h e _ => fabricEvent_ignores h e) h

/-! ### Cancelling and freeing other requests -/

theorem eraseOps_ignores (h : Detached s r) (w : Option ℕ) :
    IgnoresAt (fun s => ⟨eraseOps s.core w, s.ft⟩) s r := by
  cases w with
  | none => exact .id h
  | some c => exact core_ignores (k := fun s => eraseOps s (some c)) h h.contexts fun _ => rfl

/-- The memory of another request. -/
theorem State.put_requests (hr : r' ≠ r) (s : State) (q : Option LfiRequest) :
    (s.put r q).core.requests r' = s.core.requests r' :=
  Core.setRequest_of_ne hr _ _

/-- `cancel` of another request. -/
theorem cancel_ignores (h : Detached s r) (hr : r' ≠ r) (events : List FabricEvent) :
    IgnoresAt (fun s => cancel env s r' events) s r := by
  have hput : ∀ q, (s.put r q).core.requests r' = s.core.requests r' := s.put_requests hr
  cases hp : s.core.requests r' with
  | none =>
      exact (IgnoresAt.id h).congr (cancel_of_none hp events) fun q =>
        cancel_of_none ((hput q).trans hp) events
  | some p =>
      have herase := eraseOps_ignores h p.waitContext
      cases hdone : p.isCompleted with
      | true =>
          exact herase.congr (cancel_of_completed hp hdone events) fun q =>
            cancel_of_completed ((hput q).trans hp) hdone events
      | false =>
          have hprog := @progress_ignores env _ _ herase.detached events
          have hcomp := @complete_ignores env _ _ _ hprog.detached hr (cancelError s.ft p) 0
          exact ((herase.comp hprog).comp hcomp).congr (cancel_of_outstanding hp hdone events)
            fun q => cancel_of_outstanding ((hput q).trans hp) hdone events

/-- `~lfi_request` of another request. -/
theorem requestFree_ignores (h : Detached s r) (hr : r' ≠ r) (events : List FabricEvent) :
    IgnoresAt (fun s => requestFree env s r' events) s r := by
  have hput : ∀ q, (s.put r q).core.requests r' = s.core.requests r' := s.put_requests hr
  have hclear : ∀ s, Detached s r → IgnoresAt (fun s => ⟨s.core.setRequest r' none, s.ft⟩) s r :=
    fun s h => modify_ignores h hr fun _ => none
  cases hp : s.core.requests r' with
  | none =>
      exact (IgnoresAt.id h).congr (requestFree_of_none hp events) fun q =>
        requestFree_of_none ((hput q).trans hp) events
  | some p =>
      cases hdone : p.isCompleted with
      | true =>
          exact (hclear s h).congr (requestFree_of_completed hp hdone events) fun q =>
            requestFree_of_completed ((hput q).trans hp) hdone events
      | false =>
          have hcancel := @cancel_ignores env _ _ _ h hr events
          exact (hcancel.comp (hclear _ hcancel.detached)).congr
            (requestFree_of_outstanding hp hdone events) fun q =>
              requestFree_of_outstanding ((hput q).trans hp) hdone events

end Impl
end Lfi
