/-
# No cross-talk between operations

A completion entry carries the context of its operation, and contexts and requests
are used again.  `no_cross_talk` says that in every reachable state, whatever was
posted, completed, cancelled, freed and posted again before, an entry changes no
request but the one its operation was posted for, and that one only while this
operation is its current one.
-/

import Lfi.Impl.Contexts
import Lfi.Runs.Basic

namespace Lfi
namespace Impl

open Runs

/-- What happens to requests and operations.  `create` may use the place of a freed
request again. -/
inductive OpAction where
  | create (r : ReqId) (c : CommId)
  | post (r : ReqId) (call : PostCall)
  | fabric (e : FabricEvent)
  | cancel (r : ReqId) (events : List FabricEvent)
  | free (r : ReqId) (events : List FabricEvent)

/-- One action.  A request is created where there is none. -/
def opStep (env : Env) (s : State) : OpAction → Option State
  | .create r c =>
      if s.core.requests r = none then
        some ⟨s.core.setRequest r (some (LfiRequest.new c)), s.ft⟩
      else none
  | .post r call => some (asyncPost env s r call).2
  | .fabric e => some (fabricEvent env s e)
  | .cancel r events => some (Impl.cancel env s r events)
  | .free r events => some (requestFree env s r events)

variable {env : Env} {s t : Core} {ops ops' : List LfiPendingOp}

namespace ContextInv

/-! ### Completion entries and queues -/

/-- An operation is over, whose context points to no request any more. -/
theorem retire (h : ContextInv s ops) {op : LfiPendingOp} (hop : op ∈ ops)
    (hctx : s.contexts op.context = none) (hsub : ops'.Subperm ops)
    (hgone : ∀ op' ∈ ops', op'.context ≠ op.context) :
    ContextInv (Impl.destroyContext s op.context) ops' :=
  (h.subperm hsub).destroyContext hctx (h.opsMade op hop).1 (h.opsMade op hop).2 hgone

/-- What is left of the operations when the fabric gives one back. -/
theorem takeBack_ops (h : ContextInv s s.ops) {op : LfiPendingOp} (hop : op ∈ s.inFlight) :
    (takeBack s op.context).ops.Subperm s.ops ∧
      ∀ op' ∈ (takeBack s op.context).ops, op'.context ≠ op.context := by
  have hnd := h.opsNodup
  rw [Core.ops, List.map_append, List.nodup_append] at hnd
  refine ⟨((List.Sublist.refl _).append List.filter_sublist).subperm, fun op' hop' hc => ?_⟩
  rcases List.mem_append.1 hop' with hop' | hop'
  · exact hnd.2.2 _ (List.mem_map_of_mem hop') _ (List.mem_map_of_mem hop) hc
  · simpa [hc] using List.of_mem_filter hop'

/-- `complete` of the request a context points to. -/
theorem completeAt {s : State} (h : ContextInv s.core ops) (c : ℕ) (err now : ℤ) :
    ContextInv (completeAt env s c err now).core ops ∧
      (completeAt env s c err now).core.contexts c = none := by
  unfold Impl.completeAt
  cases hc : s.core.contexts c with
  | none => exact ⟨h, hc⟩
  | some r => exact ⟨h.complete r err now, h.complete_contexts err now hc⟩

/-- The fields an entry sets are not the context. -/
theorem received (h : ContextInv s ops) (r : ReqId) (len tag : ℕ) :
    ContextInv (s.setRequest r ((s.requests r).map fun q => q.received len tag)) ops := by
  have hq : ∀ q : LfiRequest, (q.received len tag).waitContext = q.waitContext := fun q => by
    unfold LfiRequest.received
    split <;> rfl
  refine h.congr (fun r' => ?_) rfl rfl rfl rfl
  by_cases hr : r' = r
  · subst hr
    simp [Core.setRequest, Function.comp_def, hq]
  · simp [Core.setRequest, hr]

/-- The request a success entry points to. -/
theorem receiveAt {s : State} (h : ContextInv s.core ops) (c len tag : ℕ) (now : ℤ) :
    ContextInv (receiveAt env s c len tag now).core ops ∧
      (receiveAt env s c len tag now).core.contexts c = none := by
  unfold Impl.receiveAt
  cases hc : s.core.contexts c with
  | none => exact ⟨h, hc⟩
  | some r =>
      have hset : ContextInv (⟨_, s.ft⟩ : State).core ops := h.received r len tag
      exact ⟨hset.complete r lfiSuccess now, hset.complete_contexts lfiSuccess now hc⟩

end ContextInv

/-- Neither `complete` nor a receive touches the queues and the fabric. -/
theorem complete_queues (s : State) (r : ReqId) (err now : ℤ) :
    (complete env s r err now).core.priorityOps = s.core.priorityOps ∧
      (complete env s r err now).core.pendingOps = s.core.pendingOps ∧
      (complete env s r err now).core.inFlight = s.core.inFlight := by
  obtain ⟨_, _, _, _, _, heq⟩ := @complete_core_eq env s r err now
  rw [heq]
  exact ⟨rfl, rfl, rfl⟩

theorem completeAt_queues (s : State) (c : ℕ) (err now : ℤ) :
    (completeAt env s c err now).core.priorityOps = s.core.priorityOps ∧
      (completeAt env s c err now).core.pendingOps = s.core.pendingOps ∧
      (completeAt env s c err now).core.inFlight = s.core.inFlight := by
  unfold completeAt
  cases s.core.contexts c with
  | none => exact ⟨rfl, rfl, rfl⟩
  | some r => exact complete_queues s r err now

theorem receiveAt_queues (s : State) (c len tag : ℕ) (now : ℤ) :
    (receiveAt env s c len tag now).core.priorityOps = s.core.priorityOps ∧
      (receiveAt env s c len tag now).core.pendingOps = s.core.pendingOps ∧
      (receiveAt env s c len tag now).core.inFlight = s.core.inFlight := by
  unfold receiveAt
  cases s.core.contexts c with
  | none => exact ⟨rfl, rfl, rfl⟩
  | some r => exact complete_queues _ r lfiSuccess now

theorem Core.ops_eq (h : t.priorityOps = s.priorityOps ∧ t.pendingOps = s.pendingOps ∧
    t.inFlight = s.inFlight) : t.ops = s.ops := by
  rw [Core.ops, h.1, h.2.1, h.2.2]; rfl

namespace ContextInv

/-- A success entry. -/
theorem cqSuccess {s : State} (h : ContextInv s.core s.core.ops) {op : LfiPendingOp}
    (hop : op ∈ s.core.inFlight) (len tag : ℕ) (now : ℤ) :
    ContextInv (cqSuccess env s op.context len tag now).core
      (cqSuccess env s op.context len tag now).core.ops := by
  obtain ⟨hsub, hgone⟩ := h.takeBack_ops hop
  have htake : ContextInv (takeBack s.core op.context) s.core.ops := h.moveOps _ _ _
  obtain ⟨hinv, hctx⟩ := @receiveAt env _ ⟨_, s.ft⟩ htake op.context len tag now
  have hret := hinv.retire (List.mem_append_right _ hop) hctx hsub hgone
  rwa [← Core.ops_eq (receiveAt_queues ⟨takeBack s.core op.context, s.ft⟩ ..)] at hret

/-- An error entry. -/
theorem cqError {s : State} (h : ContextInv s.core s.core.ops) {op : LfiPendingOp}
    (hop : op ∈ s.core.inFlight) (err : ℤ) :
    ContextInv (cqError env s op.context err).core (cqError env s op.context err).core.ops := by
  obtain ⟨hsub, hgone⟩ := h.takeBack_ops hop
  have htake : ContextInv (takeBack s.core op.context) s.core.ops := h.moveOps _ _ _
  obtain ⟨hinv, hctx⟩ := @completeAt env _ ⟨_, s.ft⟩ htake op.context
    (cqErrorCode err) 0
  have hret := hinv.retire (List.mem_append_right _ hop) hctx hsub hgone
  rwa [← Core.ops_eq (completeAt_queues ⟨takeBack s.core op.context, s.ft⟩ ..)] at hret

/-- An attempt to post an operation that is out of its queue: it goes into flight or
is over. -/
theorem postOp {s : State} {op : LfiPendingOp}
    (h : ContextInv s.core (op :: ops ++ s.core.inFlight))
    (ret now : ℤ) :
    ContextInv (postOp env s op ret now).core (ops ++ (postOp env s op ret now).core.inFlight) ∧
      (postOp env s op ret now).core.priorityOps = s.core.priorityOps ∧
      (postOp env s op ret now).core.pendingOps = s.core.pendingOps := by
  have hrest : (ops ++ s.core.inFlight).Subperm (op :: ops ++ s.core.inFlight) :=
    (List.sublist_cons_self ..).subperm
  have hgone : ∀ op' ∈ ops ++ s.core.inFlight, op'.context ≠ op.context := fun op' hop' hc => by
    have hnd := h.opsNodup
    rw [List.cons_append, List.map_cons, List.nodup_cons] at hnd
    exact hnd.1 (hc ▸ List.mem_map_of_mem hop')
  unfold Impl.postOp
  split
  case isTrue =>
    obtain ⟨hprio, hpend, hfly⟩ := @completeAt_queues env s op.context
      (-lfiLibfabricError) now
    refine ⟨?_, hprio, hpend⟩
    rw [hfly]
    exact (h.completeAt op.context _ now).1.subperm hrest
  case isFalse =>
    split
    case isTrue =>
      obtain ⟨hprio, hpend, hfly⟩ := @completeAt_queues env s op.context lfiSuccess now
      obtain ⟨hinv, hctx⟩ := @completeAt env _ _ h op.context lfiSuccess now
      refine ⟨?_, hprio, hpend⟩
      have hret := hinv.retire (List.mem_cons_self ..) hctx hrest hgone
      rwa [← hfly] at hret
    case isFalse =>
      refine ⟨?_, rfl, rfl⟩
      refine (h.moveOps _ _ (s.core.inFlight ++ [op])).perm ?_
      rw [← List.append_assoc]
      exact (List.perm_append_singleton op _).trans (by simp)

/-- `process_queue`, on a queue that is out of the state; `rest` are the operations
of the other queue. -/
theorem processQueue {s : State} {rest : List LfiPendingOp}
    (h : ContextInv s.core (ops ++ rest ++ s.core.inFlight)) (answers : List ℤ) (now : ℤ) :
    ContextInv (processQueue env now ops answers s).2.2.core
        ((processQueue env now ops answers s).1 ++ rest ++
          (processQueue env now ops answers s).2.2.core.inFlight) ∧
      (processQueue env now ops answers s).2.2.core.priorityOps = s.core.priorityOps ∧
      (processQueue env now ops answers s).2.2.core.pendingOps = s.core.pendingOps := by
  induction ops generalizing s answers with
  | nil => exact ⟨h, rfl, rfl⟩
  | cons op ops ih =>
      cases answers with
      | nil => exact ⟨h, rfl, rfl⟩
      | cons ret answers =>
          unfold Impl.processQueue
          split
          case isTrue => exact ⟨h, rfl, rfl⟩
          case isFalse =>
            obtain ⟨hinv, hprio, hpend⟩ := @postOp env (ops ++ rest) _ _ h ret now
            obtain ⟨hres, hprio', hpend'⟩ := ih hinv answers
            exact ⟨hres, hprio'.trans hprio, hpend'.trans hpend⟩

/-- `post_pending_ops`. -/
theorem postPendingOps {s : State} (h : ContextInv s.core s.core.ops) (answers : List ℤ) (now : ℤ) :
    ContextInv (postPendingOps env s answers now).core
      (postPendingOps env s answers now).core.ops := by
  obtain ⟨hprio, -, hpend⟩ := @processQueue env _ _ _ h answers now
  unfold Impl.postPendingOps
  generalize Impl.processQueue env now s.core.priorityOps answers s = p at hprio hpend
  rw [← hpend] at hprio
  dsimp only
  split
  case isTrue hnil =>
    rw [hnil] at hprio
    have hqueue : ContextInv (⟨{ p.2.2.core with priorityOps := p.1 }, p.2.2.ft⟩ : State).core
        (p.2.2.core.pendingOps ++ [] ++ p.2.2.core.inFlight) := by
      simpa using hprio.moveOps p.1 p.2.2.core.pendingOps p.2.2.core.inFlight
    obtain ⟨hres, hprio', -⟩ := @processQueue env _ _ _ hqueue p.2.1 now
    have hempty := hprio'.trans hnil
    refine (hres.moveOps _ _ _).perm ?_
    simp only [Core.ops]
    rw [hempty]
    simp
  case isFalse => exact hprio.moveOps _ _ _

/-! ### Actions -/

/-- An event of the fabric. -/
theorem fabricEvent {s : State} (h : ContextInv s.core s.core.ops) (e : FabricEvent) :
    ContextInv (fabricEvent env s e).core (fabricEvent env s e).core.ops := by
  cases e with
  | success ctx len tag now =>
      simp only [Impl.fabricEvent]
      split
      case isTrue hop =>
        obtain ⟨op, hop, rfl⟩ := hop
        exact h.cqSuccess hop len tag now
      case isFalse => exact h
  | error ctx err =>
      simp only [Impl.fabricEvent]
      split
      case isTrue hop =>
        obtain ⟨op, hop, rfl⟩ := hop
        exact h.cqError hop err
      case isFalse => exact h
  | heartbeatValue c value => exact h
  | postPendingOps answers now => exact h.postPendingOps answers now

/-- Taking operations out of their queues. -/
theorem eraseOps (h : ContextInv s s.ops) (w : Option ℕ) :
    ContextInv (eraseOps s w) (eraseOps s w).ops := by
  cases w with
  | none => exact h
  | some c =>
      exact (h.moveOps _ _ _).subperm ((List.filter_sublist.append List.filter_sublist).append
        (List.Sublist.refl _)).subperm

/-- `cancel`. -/
theorem cancel {s : State} (h : ContextInv s.core s.core.ops) (r : ReqId)
    (events : List FabricEvent) :
    ContextInv (cancel env s r events).core (cancel env s r events).core.ops := by
  unfold Impl.cancel cancelWith
  cases s.core.requests r with
  | none => exact h
  | some q =>
      dsimp only
      split
      case isTrue => exact h.eraseOps _
      case isFalse =>
        have hprog := @progress_induction env ⟨_, s.ft⟩ (fun s => ContextInv s.core s.core.ops)
          (fun _ e hs => hs.fabricEvent e) (h.eraseOps q.waitContext) events
        have hdone := @complete env _ _ hprog r (cancelError s.ft q) 0
        rwa [← Core.ops_eq (complete_queues ..)] at hdone

/-- A request that waits on no context is gone. -/
theorem clear (h : ContextInv s ops) {r : ReqId} (hr : s.onComm r = none) :
    ContextInv (s.setRequest r none) ops := by
  cases hq : s.requests r with
  | none =>
      refine h.congr (fun r' => ?_) rfl rfl rfl rfl
      simp only [Core.setRequest]
      rw [← hq, Function.update_eq_self]
  | some q =>
      have hw : q.waitContext = none := by
        simpa [Core.onComm, hq, LfiRequest.isCompleted] using hr
      exact h.leave hq (by simp [Core.setRequest]) (by simp [Core.setRequest])
        (by rw [hw]; rfl) rfl rfl rfl

/-- A new request waits on no context. -/
theorem new (h : ContextInv s ops) {r : ReqId} (hr : s.requests r = none) (c : CommId) :
    ContextInv (s.setRequest r (some (LfiRequest.new c))) ops := by
  have hon : s.onComm r = none := by simp [Core.onComm, hr]
  refine { h with sound := fun c' r' hc => ?_, back := fun r' q c' hq hw => ?_ }
  · have hne : r' ≠ r := fun h' => h.not_pointed hon c' (h' ▸ hc)
    simpa [Core.setRequest, hne] using h.sound c' r' hc
  · by_cases hrr : r' = r
    · subst hrr
      obtain rfl : LfiRequest.new c = q := by simpa [Core.setRequest] using hq
      cases hw
    · exact h.back r' q c' (by simpa [Core.setRequest, hrr] using hq) hw

/-- Freeing a request. -/
theorem requestFree {s : State} (h : ContextInv s.core s.core.ops) (r : ReqId)
    (events : List FabricEvent) :
    ContextInv (requestFree env s r events).core (requestFree env s r events).core.ops :=
  requestFree_induction (P := fun s => ContextInv s.core s.core.ops)
    (fun _ hs => hs.cancel r events) (fun _ hr hs => hs.clear hr) h

end ContextInv

/-- A fresh endpoint has nothing to mix up. -/
theorem Fresh.contextInv {s : State} (h : Fresh s) : ContextInv s.core s.core.ops := by
  have hops : s.core.ops = [] := by simp [Core.ops, h.priorityOps, h.pendingOps, h.inFlight]
  rw [hops]
  refine ⟨fun c r hc => ?_, fun r q c hq hw => ?_, fun c r hc => ?_, ?_, ?_, by simp, by simp,
    by simp⟩
  · rw [h.contexts] at hc; cases hc
  · have := h.onComm r
    simp [Core.onComm, hq, LfiRequest.isCompleted, hw] at this
  · rw [h.contexts] at hc; cases hc
  · rw [h.pool]; exact List.nodup_nil
  · simp [h.pool]

/-- Every action keeps the invariant. -/
theorem opStep_contextInv {s t : State} {a : OpAction} (h : ContextInv s.core s.core.ops)
    (hstep : opStep env s a = some t) : ContextInv t.core t.core.ops := by
  cases a with
  | create r c =>
      simp only [opStep] at hstep
      split at hstep
      case isFalse => cases hstep
      case isTrue hnone =>
        obtain rfl := Option.some.inj hstep
        exact h.new hnone c
  | post r call =>
      obtain rfl := Option.some.inj hstep
      rcases asyncPost_cases env s r call with ⟨-, heq⟩ | ⟨q, f, o, p, hq, -, -, -, -, heq⟩
      · rw [heq]; exact h
      · rw [heq]; exact h.postCore hq f o p
  | fabric e =>
      obtain rfl := Option.some.inj hstep
      exact h.fabricEvent e
  | cancel r events =>
      obtain rfl := Option.some.inj hstep
      exact h.cancel r events
  | free r events =>
      obtain rfl := Option.some.inj hstep
      exact h.requestFree r events

/-! ### Entries -/

/-- A completion entry for the context `ctx`. -/
def FabricEvent.EntryFor (ctx : ℕ) : FabricEvent → Prop
  | .success c _ _ _ => c = ctx
  | .error c _ => c = ctx
  | _ => False

/-- The operation `op` is what the request `r` waits for. -/
def Core.Current (s : Core) (op : LfiPendingOp) (r : ReqId) : Prop :=
  r = op.owner ∧ s.lastPost r = op.post ∧ s.onComm r ≠ none

instance (s : Core) (op : LfiPendingOp) (r : ReqId) : Decidable (s.Current op r) :=
  inferInstanceAs (Decidable (_ ∧ _))

/-- An entry changes no request but the one that waits for its operation. -/
theorem entry_requests {s : State} (h : ContextInv s.core s.core.ops) {op : LfiPendingOp}
    (hop : op ∈ s.core.inFlight) {e : FabricEvent}
    (he : e.EntryFor op.context) {r : ReqId} (hr : ¬ s.core.Current op r) :
    (fabricEvent env s e).core.requests r = s.core.requests r := by
  -- the request the context points to waits for the operation
  have hne : ∀ r', s.core.contexts op.context = some r' → r' ≠ r := by
    rintro r' hc rfl
    obtain ⟨howner, hpost⟩ := h.current op (List.mem_append_right _ hop) r' hc
    exact hr ⟨howner, hpost, fun hnone => h.not_pointed hnone _ hc⟩
  cases e with
  | success ctx len tag now =>
      obtain rfl : ctx = op.context := he
      simp only [fabricEvent]
      rw [if_pos ⟨op, hop, rfl⟩]
      change (receiveAt env ⟨takeBack s.core op.context, s.ft⟩ op.context len tag now).core.requests
        r = _
      unfold receiveAt
      cases hc : (takeBack s.core op.context).contexts op.context with
      | none => rfl
      | some r' =>
          refine (complete_requests_of_ne (hne r' hc) ..).trans ?_
          exact Function.update_of_ne (hne r' hc).symm ..
  | error ctx err =>
      obtain rfl : ctx = op.context := he
      simp only [fabricEvent]
      rw [if_pos ⟨op, hop, rfl⟩]
      change (completeAt env ⟨takeBack s.core op.context, s.ft⟩ op.context _ 0).core.requests r = _
      unfold completeAt
      cases hc : (takeBack s.core op.context).contexts op.context with
      | none => rfl
      | some r' => exact complete_requests_of_ne (hne r' hc) ..
  | heartbeatValue c value => exact he.elim
  | postPendingOps answers now => exact he.elim

/-- **No cross-talk between operations.**  In every reachable state a context
points to a request only while it is the request's `wait_context`; a context in the
pool points to no request and is there once; and a completion entry changes no
request but the one its operation was posted for, and that one only while it waits
for this very operation. -/
theorem no_cross_talk (env : Env) (s : State) (h : Reachable (opStep env) Fresh s) :
    (∀ c r, s.core.contexts c = some r →
      ∃ q, s.core.requests r = some q ∧ q.waitContext = some c) ∧
    (∀ c ∈ s.core.pool, s.core.contexts c = none) ∧ s.core.pool.Nodup ∧
    ∀ op ∈ s.core.inFlight, ∀ e : FabricEvent, e.EntryFor op.context → ∀ r,
      ¬ s.core.Current op r → (fabricEvent env s e).core.requests r = s.core.requests r := by
  have hinv : ContextInv s.core s.core.ops :=
    h.invariant (fun _ hs => hs.contextInv) fun _ _ _ hs ht => opStep_contextInv hs ht
  exact ⟨hinv.sound, fun c hc => (hinv.poolUnused c hc).1, hinv.poolNodup,
    fun op hop e he r hr => entry_requests hinv hop he hr⟩

/-- A send is handed to the fabric, cancelled and posted once more, so that the
fabric holds two operations of one request. -/
def repostedRun : List OpAction :=
  [.post (.user 0) (.send 0 8 1 false false), .fabric (.postPendingOps [0] 0),
    .cancel (.user 0) [], .post (.user 0) (.send 0 8 2 false false),
    .fabric (.postPendingOps [0] 0)]

/-- The state after `repostedRun`. -/
def reposted : State :=
  (exec (opStep Env.default) (freshState {7} (fun _ => 7) 0) repostedRun).get (by decide)

theorem no_cross_talk_reposted :
    ∃ op ∈ reposted.core.inFlight, op.owner = .user 0 ∧
      reposted.core.onComm (.user 0) = some 7 ∧
      (fabricEvent Env.default reposted (.success op.context 8 1 5)).core.requests (.user 0) =
        reposted.core.requests (.user 0) := by
  have hreach : Reachable (opStep Env.default) Fresh reposted :=
    ⟨_, repostedRun, fresh_freshState {7} (fun _ => 7) 0, (Option.some_get _).symm⟩
  obtain ⟨op, hop, howner, hcur⟩ : ∃ op ∈ reposted.core.inFlight, op.owner = .user 0 ∧
      ¬ reposted.core.Current op (.user 0) := by decide
  exact ⟨op, hop, howner, by decide,
    (no_cross_talk Env.default reposted hreach).2.2.2 op hop (.success op.context 8 1 5) rfl
      (.user 0) hcur⟩

end Impl
end Lfi
