/-
# Conservation of contexts

A context the factory has made is in its pool, with a queued operation, or with one the
fabric holds.  Two paths forget it.  `post_pending_ops` completes the request of an
operation the fabric refuses and drops the operation without `destroy`, which the branch
of an inject just below does call; and `cancel` takes a queued operation out of its queue,
after which no entry brings the context back.  `conserved_iff` says that these are the only
two: the contexts are conserved along a run if and only if no attempt is refused and
nothing queued is cancelled.

The count behind it is `Loses`: how many contexts more are in no place after a step than
before.
-/

import Lfi.Impl.Trace

namespace Lfi
namespace Impl

open Runs

/-- Every context is in exactly one place, and all are in the pool while there is no
operation. -/
structure Conserved (s : Core) : Prop where
  place : ∀ c < s.created, (s.pool ++ s.ops.map (·.context)).count c = 1
  pooled : s.ops = [] → ∀ c < s.created, c ∈ s.pool

/-- At every moment of the run, as many contexts have been made at most as there were
operations at some moment before. -/
def NoExcess (env : Env) (s : State) (as : List OpAction) : Prop :=
  ∀ bs u, bs <+: as → exec (opStep env) s bs = some u →
    ∃ cs v, cs <+: bs ∧ exec (opStep env) s cs = some v ∧ u.core.created ≤ v.core.ops.length

/-- The fabric refuses the operation. -/
def QueueEvent.refused : QueueEvent → Bool
  | .attempt a => a.ret ≠ 0 ∧ a.ret ≠ -fiEagain
  | _ => false

/-- The operations of both queues that `cancel` takes out, if it is a cancel. -/
def QueueEvent.erased (s : Core) : QueueEvent → List LfiPendingOp
  | .erase ctx => (s.priorityOps ++ s.pendingOps).filter (·.context == ctx)
  | _ => []

/-- The step has no operation refused, and cancels no request whose operation is queued. -/
def Lossless (env : Env) (s : State) (a : OpAction) : Prop :=
  ∀ e ∈ stepTrace env s a, e.refused = false ∧ e.erased s.core = []

instance (env : Env) (s : State) (a : OpAction) : Decidable (Lossless env s a) :=
  inferInstanceAs (Decidable (∀ e ∈ stepTrace env s a, _ ∧ _))

/-! ### Counting -/

/-- The contexts that are in some place. -/
def Core.placed (s : Core) : ℕ := s.pool.length + s.ops.length

/-- Between `s` and `t`, where none was made, `n` contexts got lost. -/
def Loses (n : ℕ) (s t : Core) : Prop := t.created = s.created ∧ t.placed + n = s.placed

/-- How many contexts the events lose. -/
def lost (s : Core) (es : List QueueEvent) : ℕ :=
  es.countP QueueEvent.refused + (es.flatMap (·.erased s)).length

/-- How many operations are refused. -/
def refusals (es : List QueueEvent) : ℕ := es.countP QueueEvent.refused

variable {env : Env} {s t : State}

theorem Loses.refl (s : Core) : Loses 0 s s := by simp [Loses]

theorem Loses.trans {s t u : Core} {n m : ℕ} (h₁ : Loses n s t) (h₂ : Loses m t u) :
    Loses (n + m) s u := by
  exact ⟨h₂.1.trans h₁.1, by have := h₁.2; have := h₂.2; omega⟩

/-- A change that leaves pool and operations alone loses nothing. -/
theorem loses_zero {s t : Core} (hpool : t.pool = s.pool) (hops : t.ops = s.ops)
    (hcreated : t.created = s.created) : Loses 0 s t := by
  simp [Loses, Core.placed, hpool, hops, hcreated]

theorem complete_loses (s : State) (r : ReqId) (err now : ℤ) :
    Loses 0 s.core (complete env s r err now).core := by
  obtain ⟨_, _, _, _, _, heq⟩ := @complete_core_eq env s r err now
  rw [heq]
  exact loses_zero rfl rfl rfl

/-- One operation of the list has the context. -/
theorem length_filter_context {ops : List LfiPendingOp} (h : (ops.map (·.context)).Nodup)
    {op : LfiPendingOp} (hop : op ∈ ops) :
    (ops.filter fun op' => op'.context != op.context).length + 1 = ops.length := by
  have hcount : (ops.map (·.context)).count op.context = 1 :=
    List.count_eq_one_of_mem h (List.mem_map_of_mem hop)
  rw [List.count, List.countP_map] at hcount
  have hsplit := List.length_eq_countP_add_countP (l := ops) fun op' => op'.context == op.context
  rw [← List.countP_eq_length_filter]
  simp only [Function.comp_def] at hcount
  rw [hcount] at hsplit
  have hbne : (fun op' : LfiPendingOp => op'.context != op.context) =
      fun op' => decide ¬ (op'.context == op.context) = true := by
    funext op'
    by_cases hc : op'.context = op.context <;> simp [hc]
  rw [hbne]
  omega

/-- A completion entry gives its context back. -/
theorem entry_loses (h : ContextInv s.core s.core.ops) {op : LfiPendingOp}
    (hop : op ∈ s.core.inFlight) {u : State} (hpool : u.core.pool = s.core.pool)
    (hcreated : u.core.created = s.core.created)
    (hops : u.core.ops = (takeBack s.core op.context).ops) :
    Loses 0 s.core (destroyContext u.core op.context) := by
  have hnd : (s.core.inFlight.map (·.context)).Nodup := by
    have := h.opsNodup
    rw [Core.ops, List.map_append] at this
    exact (List.nodup_append.1 this).2.1
  have hlen := length_filter_context hnd hop
  have hdestroy : (destroyContext u.core op.context).ops = u.core.ops := rfl
  refine ⟨hcreated, ?_⟩
  simp only [Core.placed, hdestroy, hops]
  simp only [destroyContext, Core.setContext, List.length_append, List.length_cons,
    List.length_nil, hpool, hcreated, Core.ops, takeBack]
  omega

/-- An attempt that is not stalled loses the context of a refused operation. -/
theorem postOp_counts (s : State) (op : LfiPendingOp) (ret now : ℤ) (hret : ret ≠ -fiEagain)
    (priority : Bool) :
    (postOp env s op ret now).core.created = s.core.created ∧
      (postOp env s op ret now).core.pool.length + (postOp env s op ret now).core.inFlight.length +
        refusals [.attempt ⟨priority, op, ret, s⟩] =
          s.core.pool.length + s.core.inFlight.length + 1 := by
  unfold postOp
  split
  case isTrue hne =>
    obtain ⟨_, _, _, _, _, heq⟩ := @completeAt_core_eq env s op.context (-lfiLibfabricError) now
    rw [heq]
    exact ⟨rfl, by simp [refusals, QueueEvent.refused, hne, hret]⟩
  case isFalse hzero =>
    rw [not_not] at hzero
    subst hzero
    split
    case isTrue =>
      obtain ⟨_, _, _, _, _, heq⟩ := @completeAt_core_eq env s op.context lfiSuccess now
      dsimp only
      rw [heq]
      refine ⟨rfl, ?_⟩
      simp only [destroyContext, Core.setContext, List.length_append, refusals]
      simp [QueueEvent.refused]
      omega
    case isFalse => exact ⟨rfl, by simp [refusals, QueueEvent.refused]; omega⟩

/-- `process_queue` loses the contexts of the refused operations. -/
theorem processQueue_counts (ops : List LfiPendingOp) (answers : List ℤ) (s : State) (now : ℤ)
    (priority : Bool) :
    (processQueue env now ops answers s).2.2.core.created = s.core.created ∧
      (processQueue env now ops answers s).1.length +
        (processQueue env now ops answers s).2.2.core.pool.length +
        (processQueue env now ops answers s).2.2.core.inFlight.length +
        refusals (queueTrace env now priority ops answers s) =
          ops.length + s.core.pool.length + s.core.inFlight.length := by
  induction ops generalizing answers s with
  | nil => exact ⟨rfl, by simp [processQueue, queueTrace, refusals]⟩
  | cons op ops ih =>
      cases answers with
      | nil => exact ⟨rfl, by simp [processQueue, queueTrace, refusals, QueueEvent.refused]⟩
      | cons ret answers =>
          unfold processQueue queueTrace
          split
          case isTrue heagain =>
            exact ⟨rfl, by simp [refusals, QueueEvent.refused, heagain]⟩
          case isFalse hret =>
            obtain ⟨hcreated, hcount⟩ := @postOp_counts env s op ret now hret priority
            obtain ⟨hcreated', hcount'⟩ := ih answers (postOp env s op ret now)
            refine ⟨hcreated'.trans hcreated, ?_⟩
            rw [refusals, List.countP_cons] at *
            simp only [List.countP_nil] at hcount hcount'
            simp only [List.length_cons]
            omega

theorem refusals_append (es es' : List QueueEvent) :
    refusals (es ++ es') = refusals es + refusals es' := List.countP_append ..

theorem postPendingOps_loses (s : State) (answers : List ℤ) (now : ℤ) :
    Loses (refusals (postTrace env s answers now)) s.core
      (postPendingOps env s answers now).core := by
  obtain ⟨hcreated, hcount⟩ :=
    @processQueue_counts env s.core.priorityOps answers s now true
  obtain ⟨hprio, hpend⟩ := @processQueue_queues env s.core.priorityOps answers s now
  unfold postPendingOps postTrace
  rw [refusals_append]
  generalize queueTrace env now true s.core.priorityOps answers s = es at hcount ⊢
  generalize processQueue env now s.core.priorityOps answers s = p at hcreated hcount hprio hpend ⊢
  dsimp only
  split
  case isTrue hnil =>
    obtain ⟨hcreated', hcount'⟩ := @processQueue_counts env p.2.2.core.pendingOps p.2.1
      ⟨{ p.2.2.core with priorityOps := p.1 }, p.2.2.ft⟩ now false
    obtain ⟨hprio', -⟩ := @processQueue_queues env p.2.2.core.pendingOps p.2.1
      ⟨{ p.2.2.core with priorityOps := p.1 }, p.2.2.ft⟩ now
    refine ⟨hcreated'.trans hcreated, ?_⟩
    simp only [Core.placed, Core.ops, List.length_append] at *
    have hlen : p.1.length = 0 := by rw [hnil]; rfl
    have hpendLen : p.2.2.core.pendingOps.length = s.core.pendingOps.length := by rw [hpend]
    rw [hprio']
    omega
  case isFalse =>
    refine ⟨hcreated, ?_⟩
    simp only [Core.placed, Core.ops, List.length_append, refusals, List.countP_nil] at *
    rw [hpend]
    omega

/-! ### Actions -/

theorem fabricEvent_loses (h : ContextInv s.core s.core.ops) (e : FabricEvent) :
    Loses (refusals (eventTrace env s e)) s.core (fabricEvent env s e).core := by
  cases e with
  | success ctx len tag now =>
      simp only [fabricEvent, eventTrace]
      split
      case isTrue hop =>
        obtain ⟨op, hop, rfl⟩ := hop
        obtain ⟨_, _, _, _, _, heq⟩ := @receiveAt_core_eq env
          ⟨takeBack s.core op.context, s.ft⟩ op.context len tag now
        exact entry_loses h hop (by rw [heq]; rfl) (by rw [heq]; rfl) (by rw [heq]; rfl)
      case isFalse => exact .refl _
  | error ctx err =>
      simp only [fabricEvent, eventTrace]
      split
      case isTrue hop =>
        obtain ⟨op, hop, rfl⟩ := hop
        obtain ⟨_, _, _, _, _, heq⟩ := @completeAt_core_eq env
          ⟨takeBack s.core op.context, s.ft⟩ op.context (cqErrorCode err) 0
        exact entry_loses h hop (by rw [heq]; rfl) (by rw [heq]; rfl) (by rw [heq]; rfl)
      case isFalse => exact .refl _
  | heartbeatValue c value => exact .refl _
  | postPendingOps answers now => exact postPendingOps_loses s answers now

theorem progress_loses (h : ContextInv s.core s.core.ops) (events : List FabricEvent) :
    Loses (refusals (progressTrace env events s)) s.core (progress env events s).core := by
  induction events generalizing s with
  | nil => exact .refl _
  | cons e events ih =>
      rw [progressTrace, refusals_append]
      exact (fabricEvent_loses h e).trans (ih (h.fabricEvent e))

/-- `eraseOps` loses the contexts of the operations it takes out. -/
theorem eraseOps_loses (s : Core) (ctx : ℕ) :
    Loses ((QueueEvent.erase ctx).erased s).length s (eraseOps s (some ctx)) := by
  have hlen : ∀ l : List LfiPendingOp, (l.filter fun op => op.context != ctx).length +
      (l.filter (·.context == ctx)).length = l.length := fun l => by
    induction l with
    | nil => rfl
    | cons op l ih => by_cases hc : op.context = ctx <;> simp [hc] <;> omega
  have hprio := hlen s.priorityOps
  have hpend := hlen s.pendingOps
  refine ⟨rfl, ?_⟩
  simp only [Core.placed, Core.ops, eraseOps, QueueEvent.erased, List.filter_append,
    List.length_append]
  omega

theorem lost_of_attempts {s : Core} {es : List QueueEvent} (h : ∀ e ∈ es, ∃ a, e = .attempt a) :
    lost s es = refusals es := by
  have hnil : es.flatMap (·.erased s) = [] := List.flatMap_eq_nil_iff.2 fun e he => by
    obtain ⟨a, rfl⟩ := h e he
    rfl
  simp [lost, refusals, hnil]

theorem cancel_loses (h : ContextInv s.core s.core.ops) (r : ReqId) (events : List FabricEvent) :
    Loses (lost s.core (cancelTrace env s r events)) s.core (cancel env s r events).core := by
  unfold cancel cancelWith cancelTrace
  cases hr : s.core.requests r with
  | none => exact .refl _
  | some q =>
      dsimp only
      cases hw : q.waitContext with
      | none =>
          have hq : q.isCompleted = true := by simp [LfiRequest.isCompleted, hw]
          simpa [hq, eraseOps, lost] using Loses.refl s.core
      | some ctx =>
          have hq : q.isCompleted = false := by simp [LfiRequest.isCompleted, hw]
          rw [if_neg (by simp [hq]), if_neg (by simp [hq])]
          have herase := eraseOps_loses s.core ctx
          have hinv : ContextInv (eraseOps s.core (some ctx)) (eraseOps s.core (some ctx)).ops :=
            h.eraseOps (some ctx)
          have hprog := @progress_loses env ⟨eraseOps s.core (some ctx), s.ft⟩ hinv events
          have hlost : lost s.core ((Option.map QueueEvent.erase (some ctx)).toList ++
              progressTrace env events ⟨eraseOps s.core (some ctx), s.ft⟩) =
              ((QueueEvent.erase ctx).erased s.core).length +
                refusals (progressTrace env events ⟨eraseOps s.core (some ctx), s.ft⟩) := by
            rw [← lost_of_attempts (s := s.core) fun e he => progressTrace_attempt he]
            simp [lost, QueueEvent.refused]
            omega
          rw [hlost]
          exact (herase.trans hprog).trans (complete_loses ..)

theorem requestFree_loses (h : ContextInv s.core s.core.ops) (r : ReqId)
    (events : List FabricEvent) :
    Loses (lost s.core (freeTrace env s r events)) s.core (requestFree env s r events).core := by
  unfold requestFree freeWith freeTrace
  cases hr : s.core.requests r with
  | none => exact .refl _
  | some q =>
      dsimp only
      split
      case isTrue => exact loses_zero rfl rfl rfl
      case isFalse => exact (cancel_loses h r events).trans (loses_zero rfl rfl rfl)

/-- A new context is one of the pool, or made when the pool is empty. -/
theorem createContext_counts (s : Core) (r : ReqId) :
    (createContext s r).2.pool.length + s.created + 1 =
        s.pool.length + (createContext s r).2.created ∧
      ((createContext s r).2.created = s.created ∨ (createContext s r).2.pool = []) := by
  unfold createContext
  cases hlast : s.pool.getLast? with
  | none =>
      have hnil : s.pool = [] := List.getLast?_eq_none_iff.1 hlast
      simp [Core.setContext, hnil]
  | some c =>
      have hpos : s.pool ≠ [] := fun hnil => by simp [hnil] at hlast
      have hlen := List.length_pos_of_ne_nil hpos
      refine ⟨?_, .inl rfl⟩
      simp only [Core.setContext, List.length_dropLast]
      omega

theorem postCore_fields (s : Core) (r : ReqId) (f : RequestFields) (o : OpFields)
    (priority : Bool) :
    (postCore s r f o priority).pool = (createContext (reset s r) r).2.pool ∧
      (postCore s r f o priority).created = (createContext (reset s r) r).2.created ∧
      (postCore s r f o priority).inFlight = s.inFlight := by
  unfold postCore
  dsimp only
  obtain ⟨priorityOps, pendingOps, hpush⟩ := pushOp_eq _ priority _
  obtain ⟨contexts, pool, created, hcreate⟩ := createContext_eq (reset s r) r
  obtain ⟨requests, contexts', hreset⟩ := reset_eq s r
  rw [hpush]
  refine ⟨rfl, rfl, ?_⟩
  simp only [Core.setRequest, hcreate]
  rw [hreset]

/-- A post takes its context out of the pool, or makes one. -/
theorem asyncPost_counts (s : State) (r : ReqId) (call : PostCall) :
    (asyncPost env s r call).2.core.placed +
          lost s.core (submitTrace s.core (asyncPost env s r call).2.core) + s.core.created =
        s.core.placed + (asyncPost env s r call).2.core.created ∧
      ((asyncPost env s r call).2.core.created = s.core.created ∨
        (asyncPost env s r call).2.core.pool = []) := by
  rcases asyncPost_trace env s r call with ⟨heq, htrace⟩ |
    ⟨q, f, o, priority, op, -, heq, -, -, -, hprio, hpend, htrace⟩
  · rw [htrace, heq]
    exact ⟨rfl, .inl rfl⟩
  · have hlost : lost s.core [.submit priority op] = 0 := rfl
    obtain ⟨hcount, hfresh⟩ := createContext_counts (reset s.core r) r
    obtain ⟨requests, contexts, hreset⟩ := reset_eq s.core r
    have hpool : (reset s.core r).pool = s.core.pool := by rw [hreset]
    have hmade : (reset s.core r).created = s.core.created := by rw [hreset]
    obtain ⟨hp, hc, hf⟩ := postCore_fields s.core r f o priority
    rw [hpool, hmade] at hcount
    rw [hmade] at hfresh
    have hcore : (asyncPost env s r call).2.core = postCore s.core r f o priority := by
      rw [heq]; rfl
    rw [← hcore] at hp hc hf
    have hlen : (if priority then [op] else []).length +
        (if priority then [] else [op]).length = 1 := by
      cases priority <;> rfl
    rw [htrace, hlost, hp, hc]
    refine ⟨?_, hfresh⟩
    simp only [Core.placed, Core.ops, List.length_append, hprio, hpend, hf, hp]
    omega

/-- **What a step loses** is what its events lose; a context is made only when the pool is
empty. -/
theorem opStep_loses (h : ContextInv s.core s.core.ops) {a : OpAction}
    (ht : opStep env s a = some t) :
    t.core.placed + lost s.core (stepTrace env s a) + s.core.created =
        s.core.placed + t.core.created ∧
      (t.core.created = s.core.created ∨ t.core.pool = []) := by
  have hloses : ∀ {n t}, Loses n s.core t →
      t.placed + n + s.core.created = s.core.placed + t.created ∧
        (t.created = s.core.created ∨ t.pool = []) := fun hn =>
    ⟨by rw [hn.1, hn.2], .inl hn.1⟩
  cases a with
  | create r c =>
      simp only [opStep] at ht
      split at ht
      case isFalse => cases ht
      case isTrue => cases ht; exact hloses (loses_zero rfl rfl rfl)
  | post r call => cases ht; exact asyncPost_counts s r call
  | fabric e =>
      cases ht
      simp only [stepTrace]
      rw [lost_of_attempts fun e' he => eventTrace_attempt he]
      exact hloses (fabricEvent_loses h e)
  | cancel r events => cases ht; exact hloses (cancel_loses h r events)
  | free r events => cases ht; exact hloses (requestFree_loses h r events)

theorem lost_eq_zero {s : Core} {es : List QueueEvent} :
    lost s es = 0 ↔ ∀ e ∈ es, e.refused = false ∧ e.erased s = [] := by
  simp only [lost, Nat.add_eq_zero_iff, List.countP_eq_zero, List.length_eq_zero_iff,
    List.flatMap_eq_nil_iff, Bool.not_eq_true]
  exact ⟨fun h e he => ⟨h.1 e he, h.2 e he⟩,
    fun h => ⟨fun e he => (h e he).1, fun e he => (h e he).2⟩⟩

/-! ### Runs -/

/-- The contexts are conserved when as many are in some place as were made. -/
theorem conserved_iff_placed {s : Core} (h : ContextInv s s.ops) :
    Conserved s ↔ s.placed = s.created := by
  have hnodup : (s.pool ++ s.ops.map (·.context)).Nodup := by
    refine List.nodup_append.2 ⟨h.poolNodup, h.opsNodup, ?_⟩
    rintro c hc d hd rfl
    obtain ⟨op, hop, rfl⟩ := List.mem_map.1 hd
    exact (h.opsMade op hop).1 hc
  have hsub : s.pool ++ s.ops.map (·.context) ⊆ List.range s.created := fun c hc => by
    rw [List.mem_range]
    rcases List.mem_append.1 hc with hc | hc
    · exact (h.poolUnused c hc).2
    · obtain ⟨op, hop, rfl⟩ := List.mem_map.1 hc
      exact (h.opsMade op hop).2
  have hlen : (s.pool ++ s.ops.map (·.context)).length = s.placed := by
    simp [Core.placed]
  constructor
  · intro hs
    have hperm : (s.pool ++ s.ops.map (·.context)).Perm (List.range s.created) :=
      (List.perm_ext_iff_of_nodup hnodup List.nodup_range).2 fun c => by
        refine ⟨fun hc => hsub hc, fun hc => ?_⟩
        have hone := hs.place c (List.mem_range.1 hc)
        exact List.count_pos_iff.1 (by rw [hone]; exact Nat.one_pos)
    rw [← hlen, hperm.length_eq, List.length_range]
  · intro hplaced
    have hperm : (s.pool ++ s.ops.map (·.context)).Perm (List.range s.created) :=
      (hnodup.subperm hsub).perm_of_length_le (by rw [List.length_range, hlen, hplaced])
    refine ⟨fun c hc => ?_, fun hops c hc => ?_⟩
    · exact List.count_eq_one_of_mem hnodup (hperm.mem_iff.2 (List.mem_range.2 hc))
    · have hmem := hperm.mem_iff.2 (List.mem_range.2 hc)
      rw [hops] at hmem
      simpa using hmem

/-- Where the contexts are conserved along a run, no more were made than there were
operations at some moment. -/
theorem noExcess_of_always {as : List OpAction} (hs : ContextInv s.core s.core.ops)
    (hnew : s.core.created = 0)
    (hall : Always (opStep env) (fun s => Conserved s.core) s as) : NoExcess env s as := by
  intro bs u hbs hu
  have hall := hall.take hbs
  clear hbs
  revert hall
  refine exec_snoc_induction
    (M := fun bs u => Always (opStep env) (fun s => Conserved s.core) s bs →
    ∃ cs v, cs <+: bs ∧ exec (opStep env) s cs = some v ∧ u.core.created ≤ v.core.ops.length)
    (fun _ => ⟨[], s, List.nil_prefix, rfl, by rw [hnew]; exact Nat.zero_le _⟩)
    (fun bs a u v hu ih hv hall => ?_) bs u hu
  have hinv : ContextInv u.core u.core.ops :=
    exec_invariant (P := fun s => ContextInv s.core s.core.ops)
      (fun _ _ _ hs ht => opStep_contextInv hs ht) hs hu
  rcases (opStep_loses hinv hv).2 with hsame | hnil
  · obtain ⟨cs, w, hcs, hw, hle⟩ := ih (hall.take (List.prefix_append bs [a]))
    exact ⟨cs, w, hcs.trans (List.prefix_append bs [a]), hw, hsame ▸ hle⟩
  · -- all contexts are with an operation now
    have hrun := exec_snoc.2 ⟨u, hu, hv⟩
    have hplaced := (conserved_iff_placed (opStep_contextInv hinv hv)).1 (hall.last hrun)
    refine ⟨bs ++ [a], v, List.prefix_rfl, hrun, ?_⟩
    simp only [Core.placed, hnil, List.length_nil, Nat.zero_add] at hplaced
    exact hplaced.ge

/-- **Conservation of contexts.**  In a run from a fresh endpoint every context is in one
place at every moment, and the factory makes no more contexts than there are operations at
some moment, if and only if no operation is refused and no queued operation is cancelled. -/
theorem conserved_iff (env : Env) {s t : State} {as : List OpAction} (hs : Fresh s)
    (hnew : s.core.created = 0) (h : exec (opStep env) s as = some t) :
    (Always (opStep env) (fun s => Conserved s.core) s as ∧ NoExcess env s as) ↔
      Meets (opStep env) (Lossless env) s as := by
  have hstart : Conserved s.core := by
    rw [conserved_iff_placed hs.contextInv]
    simp [Core.placed, Core.ops, hs.pool, hs.priorityOps, hs.pendingOps, hs.inFlight, hnew]
  have hiff := always_iff_meets (I := fun s => ContextInv s.core s.core.ops)
    (P := fun s => Conserved s.core) (G := Lossless env)
    (fun _ _ _ hinv _ ht _ => opStep_contextInv hinv ht)
    (fun u a v hinv hu ht => by
      have hloses := (opStep_loses hinv ht).1
      rw [conserved_iff_placed hinv] at hu
      rw [conserved_iff_placed (opStep_contextInv hinv ht), Lossless, ← lost_eq_zero]
      omega) hs.contextInv hstart h
  rw [← hiff]
  exact ⟨fun hall => hall.1, fun hall => ⟨hall, noExcess_of_always hs.contextInv hnew hall⟩⟩

/-- A send is stalled, taken by the fabric and delivered, and its context used again. -/
def deliveredRun : List OpAction :=
  [.post (.user 0) (.send 0 8 1 false false), .fabric (.postPendingOps [-fiEagain] 0),
    .fabric (.postPendingOps [0] 0), .fabric (.success 0 8 1 5),
    .post (.user 1) (.recv 0 8 1 false false), .fabric (.postPendingOps [0] 0),
    .cancel (.user 1) [], .fabric (.error 0 125)]

theorem conserved_delivered :
    Always (opStep Env.default) (fun s => Conserved s.core) (freshState {7} (fun _ => 7) 0)
        deliveredRun ∧
      NoExcess Env.default (freshState {7} (fun _ => 7) 0) deliveredRun :=
  have hrun : exec (opStep Env.default) (freshState {7} (fun _ => 7) 0) deliveredRun =
      some ((exec (opStep Env.default) (freshState {7} (fun _ => 7) 0) deliveredRun).get
        (by decide)) := (Option.some_get _).symm
  (conserved_iff Env.default (fresh_freshState {7} (fun _ => 7) 0) rfl hrun).2 (by decide)

/-- The fabric refuses a send. -/
def refusedRun : List OpAction :=
  [.post (.user 0) (.send 0 8 1 false false), .fabric (.postPendingOps [-5] 0)]

/-- **A context gets lost.**  The request is completed and its context is nowhere. -/
theorem conserved_refused :
    ¬ Always (opStep Env.default) (fun s => Conserved s.core) (freshState {7} (fun _ => 7) 0)
      refusedRun := by
  intro h
  have hrun : exec (opStep Env.default) (freshState {7} (fun _ => 7) 0) refusedRun =
      some ((exec (opStep Env.default) (freshState {7} (fun _ => 7) 0) refusedRun).get
        (by decide)) := (Option.some_get _).symm
  exact absurd ((h.last hrun).place 0 (by decide)) (by decide)

end Impl
end Lfi
