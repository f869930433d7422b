/-
# What completing leaves alone

An entry and an attempt complete one request at most, the one their context points to.  What
any of them leaves is said once here: the numbers of posts and every completed request
(`Settles`), and, for the context of another operation, this context and the request it points
to (`Elsewhere`).  A property of operations that `Elsewhere` keeps holds of every operation
after it (`Survives`).
-/

import Lfi.Impl.Posting

namespace Lfi
namespace Impl

variable {env : Env} {s t u : Core} {ops rest : List LfiPendingOp}

/-- What completing requests leaves: the numbers of posts and every completed request. -/
structure Settles (s t : Core) : Prop where
  posts : t.posts = s.posts
  lastPost : t.lastPost = s.lastPost
  completed : ∀ r, s.onComm r = none → t.requests r = s.requests r

theorem Settles.refl (s : Core) : Settles s s := ⟨rfl, rfl, fun _ _ => rfl⟩

theorem Settles.trans (h₁ : Settles s t) (h₂ : Settles t u) : Settles s u where
  posts := h₂.posts.trans h₁.posts
  lastPost := h₂.lastPost.trans h₁.lastPost
  completed r hr := by
    have ht := h₁.completed r hr
    exact (h₂.completed r ((Core.onComm_congr ht).trans hr)).trans ht

/-- The context `c` and the request it points to are left alone too. -/
structure Elsewhere (c : ℕ) (s t : Core) : Prop extends Settles s t where
  context : t.contexts c = s.contexts c
  request : ∀ r, s.contexts c = some r → t.requests r = s.requests r

theorem Elsewhere.refl (c : ℕ) (s : Core) : Elsewhere c s s := ⟨.refl s, rfl, fun _ _ => rfl⟩

theorem Elsewhere.trans {c : ℕ} (h₁ : Elsewhere c s t) (h₂ : Elsewhere c t u) :
    Elsewhere c s u where
  toSettles := h₁.toSettles.trans h₂.toSettles
  context := h₂.context.trans h₁.context
  request r hr := (h₂.request r (h₁.context.trans hr)).trans (h₁.request r hr)

/-- `complete` of an outstanding request that does not wait on `c`. -/
theorem elsewhere_complete {s : State} {r : ReqId} {c : ℕ} (h : ContextInv s.core ops)
    (hr : s.core.onComm r ≠ none) (hc : s.core.contexts c ≠ some r) (err now : ℤ) :
    Elsewhere c s.core (complete env s r err now).core := by
  obtain ⟨_, _, _, _, _, heq⟩ := @complete_core_eq env s r err now
  have hposts : (complete env s r err now).core.posts = s.core.posts := by rw [heq]
  have hlast : (complete env s r err now).core.lastPost = s.core.lastPost := by rw [heq]
  refine ⟨⟨hposts, hlast, fun r' hr' => ?_⟩, ?_, fun r' hr' => ?_⟩
  · have hne : r' ≠ r := fun h' => hr (h' ▸ hr')
    exact complete_requests_of_ne hne.symm err now
  · exact complete_contexts_of_ne (fun q hq hw => hc (h.back r q c hq hw)) err now
  · have hne : r' ≠ r := fun h' => hc (h' ▸ hr')
    exact complete_requests_of_ne hne.symm err now

/-- A context points to an outstanding request. -/
theorem ContextInv.outstanding (h : ContextInv s ops) {c : ℕ} {r : ReqId}
    (hc : s.contexts c = some r) : s.onComm r ≠ none := fun hr => h.not_pointed hr c hc

theorem elsewhere_completeAt {s : State} {ctx c : ℕ} (h : ContextInv s.core ops) (hne : c ≠ ctx)
    (err now : ℤ) : Elsewhere c s.core (completeAt env s ctx err now).core := by
  unfold completeAt
  cases hctx : s.core.contexts ctx with
  | none => exact .refl c _
  | some r =>
      refine elsewhere_complete h (h.outstanding hctx) (fun hc => ?_) err now
      obtain ⟨q, hq, hw⟩ := h.sound ctx r hctx
      exact h.waits_on hctx hne q hq ((h.contexts_iff hq c).1 hc)

/-- The fields an entry sets are those of another request. -/
theorem elsewhere_receiveAt {s : State} {ctx c : ℕ} (h : ContextInv s.core ops) (hne : c ≠ ctx)
    (len tag : ℕ) (now : ℤ) :
    Elsewhere c s.core (receiveAt env s ctx len tag now).core := by
  unfold receiveAt
  cases hctx : s.core.contexts ctx with
  | none => exact .refl c _
  | some r =>
      have hset := h.received r len tag
      have hr := h.outstanding hctx
      have hc : s.core.contexts c ≠ some r := fun hc => by
        obtain ⟨q, hq, hw⟩ := h.sound ctx r hctx
        exact h.waits_on hctx hne q hq ((h.contexts_iff hq c).1 hc)
      have hsame : ∀ r', r' ≠ r → (s.core.setRequest r
          ((s.core.requests r).map fun q => q.received len tag)).requests r' =
            s.core.requests r' := fun r' hr' => Function.update_of_ne hr' ..
      have hfirst : Elsewhere c s.core (s.core.setRequest r
          ((s.core.requests r).map fun q => q.received len tag)) :=
        ⟨⟨rfl, rfl, fun r' hr' => hsame r' fun h' => hr (h' ▸ hr')⟩, rfl,
          fun r' hr' => hsame r' fun h' => hc (h' ▸ hr')⟩
      have hout : (s.core.setRequest r
          ((s.core.requests r).map fun q => q.received len tag)).onComm r ≠ none :=
        hset.outstanding (c := ctx) hctx
      exact hfirst.trans (elsewhere_complete (s := ⟨_, s.ft⟩) hset hout hc lfiSuccess now)

theorem elsewhere_destroyContext {ctx c : ℕ} (hne : c ≠ ctx) :
    Elsewhere c s (destroyContext s ctx) :=
  ⟨⟨rfl, rfl, fun _ _ => rfl⟩, destroyContext_contexts_of_ne hne, fun _ _ => rfl⟩

/-- Where the operations are kept does not matter. -/
theorem elsewhere_moveOps (c : ℕ) (priorityOps pendingOps inFlight : List LfiPendingOp) :
    Elsewhere c s { s with
      priorityOps := priorityOps
      pendingOps := pendingOps
      inFlight := inFlight } :=
  ⟨⟨rfl, rfl, fun _ _ => rfl⟩, rfl, fun _ _ => rfl⟩

/-- An attempt. -/
theorem elsewhere_postOp {s : State} {op : LfiPendingOp} {c : ℕ} (h : ContextInv s.core ops)
    (hne : c ≠ op.context) (ret now : ℤ) :
    Elsewhere c s.core (postOp env s op ret now).core := by
  unfold postOp
  split
  case isTrue => exact elsewhere_completeAt h hne _ now
  case isFalse =>
    split
    case isTrue =>
      exact (elsewhere_completeAt h hne lfiSuccess now).trans (elsewhere_destroyContext hne)
    case isFalse => exact elsewhere_moveOps ..

/-- A success entry, for another context. -/
theorem elsewhere_cqSuccess {s : State} {ctx c : ℕ} (h : ContextInv s.core ops) (hne : c ≠ ctx)
    (len tag : ℕ) (now : ℤ) : Elsewhere c s.core (cqSuccess env s ctx len tag now).core := by
  have htake : ContextInv (takeBack s.core ctx) ops := h.moveOps _ _ _
  have hread := @elsewhere_receiveAt env ops ⟨takeBack s.core ctx, s.ft⟩ ctx c htake hne len tag now
  exact ((elsewhere_moveOps ..).trans hread).trans (elsewhere_destroyContext hne)

/-- An error entry, for another context. -/
theorem elsewhere_cqError {s : State} {ctx c : ℕ} (h : ContextInv s.core ops) (hne : c ≠ ctx)
    (err : ℤ) : Elsewhere c s.core (cqError env s ctx err).core := by
  have htake : ContextInv (takeBack s.core ctx) ops := h.moveOps _ _ _
  have hread := @elsewhere_completeAt env ops ⟨takeBack s.core ctx, s.ft⟩ ctx c htake hne
    (cqErrorCode err) 0
  exact ((elsewhere_moveOps ..).trans hread).trans (elsewhere_destroyContext hne)

theorem settles_postOp {s : State} (hinv : ContextInv s.core ops) (op : LfiPendingOp)
    (ret now : ℤ) : Settles s.core (postOp env s op ret now).core :=
  (elsewhere_postOp hinv (Nat.succ_ne_self op.context) ret now).toSettles

/-! ### Rounds of `post_pending_ops` -/

/-- What survives every attempt survives `process_queue`; `rest` are the operations of the other
queue. -/
theorem processQueue_induction {P : Core → Prop} {rest : List LfiPendingOp} {s : State}
    (hinv : ContextInv s.core (ops ++ rest ++ s.core.inFlight))
    (hpost : ∀ (t : State) (all : List LfiPendingOp) (op : LfiPendingOp) (ret now : ℤ), op ∈ ops →
      ContextInv t.core all → P t.core → P (postOp env t op ret now).core)
    (hs : P s.core) (answers : List ℤ) (now : ℤ) :
    P (processQueue env now ops answers s).2.2.core := by
  induction ops generalizing s answers with
  | nil => exact hs
  | cons op ops ih =>
    cases answers with
    | nil => exact hs
    | cons ret answers =>
      unfold processQueue
      split
      case isTrue => exact hs
      case isFalse =>
        obtain ⟨hinv', -⟩ := @ContextInv.postOp env (ops ++ rest) _ _ hinv ret now
        exact ih hinv' (fun t all op' ret' now' hop => hpost t all op' ret' now'
          (List.mem_cons_of_mem _ hop)) (hpost s _ op ret now (List.mem_cons_self ..) hinv hs)
          answers

/-- And `post_pending_ops`, when it does not matter where the operations are kept. -/
theorem postPendingOps_induction {P : Core → Prop} {s : State}
    (hinv : ContextInv s.core s.core.ops)
    (hmove : ∀ (t : Core) (priorityOps pendingOps inFlight : List LfiPendingOp), P t → P { t with
      priorityOps := priorityOps
      pendingOps := pendingOps
      inFlight := inFlight })
    (hpost : ∀ (t : State) (all : List LfiPendingOp) (op : LfiPendingOp) (ret now : ℤ),
      op ∈ s.core.queued → ContextInv t.core all → P t.core → P (postOp env t op ret now).core)
    (hs : P s.core) (answers : List ℤ) (now : ℤ) : P (postPendingOps env s answers now).core := by
  obtain ⟨hctx, -, hpend⟩ := @ContextInv.processQueue env _ _ _ hinv answers now
  have hfirst := @processQueue_induction env s.core.priorityOps P _ s hinv
    (fun t all op ret now hop => hpost t all op ret now (List.mem_append_left _ hop)) hs answers now
  unfold postPendingOps
  generalize processQueue env now s.core.priorityOps answers s = p at *
  rw [← hpend] at hctx
  have hmoved := hmove _ p.1 p.2.2.core.pendingOps p.2.2.core.inFlight hfirst
  dsimp only
  split
  case isFalse => exact hmoved
  case isTrue hnil =>
    rw [hnil] at hctx
    have hqueue : ContextInv (⟨{ p.2.2.core with priorityOps := p.1 }, p.2.2.ft⟩ : State).core
        (p.2.2.core.pendingOps ++ [] ++ p.2.2.core.inFlight) := by
      simpa using hctx.moveOps p.1 p.2.2.core.pendingOps p.2.2.core.inFlight
    exact hmove _ _ _ _ (processQueue_induction hqueue
      (fun t all op ret now hop => hpost t all op ret now
        (List.mem_append_right _ (hpend ▸ hop))) hmoved p.2.1 now)

/-! ### What survives elsewhere -/

/-- What happens elsewhere does not matter to the property of an operation. -/
def Survives (Φ : Core → LfiPendingOp → Prop) : Prop :=
  ∀ ⦃s t op⦄, Φ s op → Elsewhere op.context s t → Φ t op

variable {Φ : Core → LfiPendingOp → Prop}

/-- An attempt to post an operation that is out of its queue. -/
theorem Survives.postOp (hΦ : Survives Φ) {s : State} {op : LfiPendingOp}
    (hinv : ContextInv s.core (op :: ops ++ s.core.inFlight))
    (h : ∀ op' ∈ op :: ops ++ s.core.inFlight, Φ s.core op') (ret now : ℤ) :
    ∀ op' ∈ ops ++ (Impl.postOp env s op ret now).core.inFlight,
      Φ (Impl.postOp env s op ret now).core op' := by
  have hold : ∀ op' ∈ ops ++ s.core.inFlight, Φ (Impl.postOp env s op ret now).core op' := by
    intro op' hop'
    have hne : op'.context ≠ op.context := fun hsame => by
      have hnd := hinv.opsNodup
      rw [List.cons_append, List.map_cons, List.nodup_cons] at hnd
      exact hnd.1 (hsame ▸ List.mem_map_of_mem hop')
    exact hΦ (h op' (List.mem_cons_of_mem _ hop')) (elsewhere_postOp hinv hne ret now)
  intro op' hop'
  rcases List.mem_append.1 hop' with hop' | hfly
  · exact hold op' (List.mem_append_left _ hop')
  · by_cases hflight : ret = 0 ∧ op.type ≠ .inject
    case neg =>
      refine hold op' (List.mem_append_right _ ?_)
      have hkept : (Impl.postOp env s op ret now).core.inFlight = s.core.inFlight := by
        unfold Impl.postOp
        split
        case isTrue => exact (completeAt_queues ..).2.2
        case isFalse hret =>
          have hinject : op.type = .inject := by
            by_contra hno
            exact hflight ⟨not_not.1 hret, hno⟩
          rw [if_pos hinject]
          exact (completeAt_queues ..).2.2
      rwa [← hkept]
    case pos =>
      have heq : Impl.postOp env s op ret now =
          ⟨{ s.core with inFlight := s.core.inFlight ++ [op] }, s.ft⟩ := by
        rw [Impl.postOp, if_neg (not_not.2 hflight.1), if_neg hflight.2]
      rw [heq] at hfly ⊢
      have hmem : op' ∈ op :: ops ++ s.core.inFlight := by
        rcases List.mem_append.1 hfly with hfly | hnew
        · exact List.mem_append_right _ hfly
        · rw [List.mem_singleton.1 hnew]
          exact List.mem_cons_self ..
      exact hΦ (h op' hmem) (elsewhere_moveOps ..)

/-- `process_queue`; `rest` are the operations of the other queue. -/
theorem Survives.processQueue (hΦ : Survives Φ) {s : State}
    (hinv : ContextInv s.core (ops ++ rest ++ s.core.inFlight))
    (h : ∀ op ∈ ops ++ rest ++ s.core.inFlight, Φ s.core op) (answers : List ℤ) (now : ℤ) :
    (∀ op ∈ (Impl.processQueue env now ops answers s).1 ++ rest ++
        (Impl.processQueue env now ops answers s).2.2.core.inFlight,
      Φ (Impl.processQueue env now ops answers s).2.2.core op) ∧
      Settles s.core (Impl.processQueue env now ops answers s).2.2.core := by
  induction ops generalizing s answers with
  | nil => exact ⟨h, .refl _⟩
  | cons op ops ih =>
      cases answers with
      | nil => exact ⟨h, .refl _⟩
      | cons ret answers =>
          unfold Impl.processQueue
          split
          case isTrue => exact ⟨h, .refl _⟩
          case isFalse =>
            obtain ⟨hinv', -⟩ := @ContextInv.postOp env (ops ++ rest) _ _ hinv ret now
            obtain ⟨hres, hsettles⟩ := ih hinv' (hΦ.postOp hinv h ret now) answers
            exact ⟨hres, (settles_postOp hinv op ret now).trans hsettles⟩

/-- `post_pending_ops`. -/
theorem Survives.postPendingOps (hΦ : Survives Φ) {s : State} (hinv : ContextInv s.core s.core.ops)
    (h : ∀ op ∈ s.core.ops, Φ s.core op) (answers : List ℤ) (now : ℤ) :
    (∀ op ∈ (Impl.postPendingOps env s answers now).core.ops,
      Φ (Impl.postPendingOps env s answers now).core op) ∧
      Settles s.core (Impl.postPendingOps env s answers now).core := by
  obtain ⟨hctx, -, hpend⟩ := @ContextInv.processQueue env _ _ _ hinv answers now
  obtain ⟨hfirst, hsettles⟩ := @Survives.processQueue env _ _ _ hΦ _ hinv h answers now
  unfold Impl.postPendingOps
  generalize Impl.processQueue env now s.core.priorityOps answers s = p at *
  rw [← hpend] at hctx hfirst
  dsimp only
  split
  case isFalse =>
    exact ⟨fun op hop => hΦ (hfirst op hop) (elsewhere_moveOps ..), hsettles.posts,
      hsettles.lastPost, hsettles.completed⟩
  case isTrue hnil =>
    rw [hnil] at hctx hfirst
    have hqueue : ContextInv (⟨{ p.2.2.core with priorityOps := p.1 }, p.2.2.ft⟩ : State).core
        (p.2.2.core.pendingOps ++ [] ++ p.2.2.core.inFlight) := by
      simpa using hctx.moveOps p.1 p.2.2.core.pendingOps p.2.2.core.inFlight
    have hheld : ∀ op ∈ p.2.2.core.pendingOps ++ [] ++ p.2.2.core.inFlight,
        Φ (⟨{ p.2.2.core with priorityOps := p.1 }, p.2.2.ft⟩ : State).core op := by
      intro op hop
      rw [List.append_nil] at hop
      exact hΦ (hfirst op (by simpa using hop)) (elsewhere_moveOps ..)
    obtain ⟨hsecond, hsettles'⟩ := @Survives.processQueue env _ _ _ hΦ _ hqueue hheld p.2.1 now
    obtain ⟨hprio, -⟩ := @processQueue_queues env p.2.2.core.pendingOps p.2.1
      ⟨{ p.2.2.core with priorityOps := p.1 }, p.2.2.ft⟩ now
    obtain ⟨hposts, hlast, hdone⟩ := hsettles.trans
      ⟨hsettles'.posts, hsettles'.lastPost, hsettles'.completed⟩
    refine ⟨fun op hop => ?_, hposts, hlast, hdone⟩
    refine hΦ (hsecond op ?_) (elsewhere_moveOps ..)
    simpa [Core.ops, hprio.trans hnil] using hop

/-- An entry gives its operation back and leaves the contexts of the others alone. -/
theorem Survives.entry (hΦ : Survives Φ) {s : State} {op : LfiPendingOp}
    (hinv : ContextInv s.core s.core.ops)
    (h : ∀ op ∈ s.core.ops, Φ s.core op) (hop : op ∈ s.core.inFlight)
    (hother : ∀ c ≠ op.context, Elsewhere c s.core t)
    (hops : t.ops = (takeBack s.core op.context).ops) :
    (∀ op' ∈ t.ops, Φ t op') ∧ Settles s.core t := by
  obtain ⟨hsub, hgone⟩ := hinv.takeBack_ops hop
  refine ⟨fun op' hop' => ?_, (hother _ (Nat.succ_ne_self op.context)).toSettles⟩
  rw [hops] at hop'
  exact hΦ (h op' (hsub.subset hop')) (hother _ (hgone op' hop'))

/-- An event of the fabric. -/
theorem Survives.fabricEvent (hΦ : Survives Φ) {s : State} (hinv : ContextInv s.core s.core.ops)
    (h : ∀ op ∈ s.core.ops, Φ s.core op) (e : FabricEvent) :
    (∀ op ∈ (Impl.fabricEvent env s e).core.ops, Φ (Impl.fabricEvent env s e).core op) ∧
      Settles s.core (Impl.fabricEvent env s e).core := by
  cases e with
  | heartbeatValue c value => exact ⟨h, .refl _⟩
  | postPendingOps answers now => exact hΦ.postPendingOps hinv h answers now
  | success ctx len tag now =>
      simp only [Impl.fabricEvent]
      split
      case isFalse => exact ⟨h, .refl _⟩
      case isTrue hop =>
        obtain ⟨op, hop, rfl⟩ := hop
        exact hΦ.entry hinv h hop (fun c hne => elsewhere_cqSuccess hinv hne len tag now)
          (Core.ops_eq (receiveAt_queues ⟨takeBack s.core op.context, s.ft⟩ ..))
  | error ctx err =>
      simp only [Impl.fabricEvent]
      split
      case isFalse => exact ⟨h, .refl _⟩
      case isTrue hop =>
        obtain ⟨op, hop, rfl⟩ := hop
        exact hΦ.entry hinv h hop (fun c hne => elsewhere_cqError hinv hne err)
          (Core.ops_eq (completeAt_queues ⟨takeBack s.core op.context, s.ft⟩ ..))

/-- Taking operations out of their queues. -/
theorem Survives.eraseOps (hΦ : Survives Φ) (h : ∀ op ∈ s.ops, Φ s op) (w : Option ℕ) :
    (∀ op ∈ (Impl.eraseOps s w).ops, Φ (Impl.eraseOps s w) op) ∧
      (Impl.eraseOps s w).posts = s.posts := by
  cases w with
  | none => exact ⟨h, rfl⟩
  | some c =>
      refine ⟨fun op hop => hΦ (h op ?_) (elsewhere_moveOps ..), rfl⟩
      exact ((List.filter_sublist.append List.filter_sublist).append
        (List.Sublist.refl _)).subset hop

end Impl
end Lfi
