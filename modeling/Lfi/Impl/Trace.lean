/-
# What happens to the queues

The events at the two queues of an endpoint, read off its actions: an operation is
submitted, attempted, or taken out by `cancel`.  An attempt records the answer of the
fabric and the state it is made in.  The order is that of the source: a cancel takes the
operation of its request out first and then runs its progress step, and `post_pending_ops`
goes through the priority queue and then, if that is empty, through the other.
-/

import Lfi.Impl.CrossTalk

namespace Lfi
namespace Impl

open Runs

/-- One call of `fi_tsend` and the like: the queue (`priority`), the operation at its
head, the answer, and the state before. -/
structure Attempt where
  priority : Bool
  op : LfiPendingOp
  ret : ℤ
  before : State

/-- An event at the queues. -/
inductive QueueEvent where
  /-- `queue.push` -/
  | submit (priority : Bool) (op : LfiPendingOp)
  /-- one round of `process_queue` -/
  | attempt (a : Attempt)
  /-- the two `erase_if` of `cancel`, for a context -/
  | erase (ctx : ℕ)

/-- The attempts of `process_queue` on the queue `ops`. -/
def queueTrace (env : Env) (now : ℤ) (priority : Bool) :
    List LfiPendingOp → List ℤ → State → List QueueEvent
  | [], _, _ => []
  | op :: _, [], s => [.attempt ⟨priority, op, -fiEagain, s⟩]
  | op :: ops, ret :: answers, s =>
      .attempt ⟨priority, op, ret, s⟩ ::
        if ret = -fiEagain then []
        else queueTrace env now priority ops answers (postOp env s op ret now)

/-- The attempts of `post_pending_ops`. -/
def postTrace (env : Env) (s : State) (answers : List ℤ) (now : ℤ) : List QueueEvent :=
  let p := processQueue env now s.core.priorityOps answers s
  let s' := { p.2.2 with core := { p.2.2.core with priorityOps := p.1 } }
  queueTrace env now true s.core.priorityOps answers s ++
    if p.1 = [] then queueTrace env now false s'.core.pendingOps p.2.1 s' else []

def eventTrace (env : Env) (s : State) : FabricEvent → List QueueEvent
  | .postPendingOps answers now => postTrace env s answers now
  | _ => []

def progressTrace (env : Env) : List FabricEvent → State → List QueueEvent
  | [], _ => []
  | e :: events, s => eventTrace env s e ++ progressTrace env events (fabricEvent env s e)

def cancelTrace (env : Env) (s : State) (r : ReqId) (events : List FabricEvent) :
    List QueueEvent :=
  match s.core.requests r with
  | none => []
  | some q =>
      (q.waitContext.map QueueEvent.erase).toList ++
        if q.isCompleted then []
        else progressTrace env events { s with core := eraseOps s.core q.waitContext }

def freeTrace (env : Env) (s : State) (r : ReqId) (events : List FabricEvent) :
    List QueueEvent :=
  match s.core.requests r with
  | none => []
  | some q => if q.isCompleted then [] else cancelTrace env s r events

/-- What a post has put at the end of the queues. -/
def submitTrace (s t : Core) : List QueueEvent :=
  (t.priorityOps.drop s.priorityOps.length).map (QueueEvent.submit true) ++
    (t.pendingOps.drop s.pendingOps.length).map (QueueEvent.submit false)

/-- The events of an action. -/
def stepTrace (env : Env) (s : State) : OpAction → List QueueEvent
  | .create _ _ => []
  | .post r call => submitTrace s.core (asyncPost env s r call).2.core
  | .fabric e => eventTrace env s e
  | .cancel r events => cancelTrace env s r events
  | .free r events => freeTrace env s r events

/-- The events of a run. -/
def runTrace (env : Env) : State → List OpAction → List QueueEvent
  | _, [] => []
  | s, a :: as =>
      match opStep env s a with
      | none => []
      | some t => stepTrace env s a ++ runTrace env t as

theorem runTrace_snoc {env : Env} {s t u : State} {as : List OpAction} {a : OpAction}
    (h : exec (opStep env) s as = some t) (ha : opStep env t a = some u) :
    runTrace env s (as ++ [a]) = runTrace env s as ++ stepTrace env t a := by
  induction as generalizing s with
  | nil =>
      obtain rfl := Option.some.inj h
      simp [runTrace, ha]
  | cons b as ih =>
      obtain ⟨s', hs', h⟩ := Option.bind_eq_some_iff.1 h
      simp only [List.cons_append, runTrace, hs', ih h, List.append_assoc]

/-! ### Attempts -/

variable {env : Env} {s t : State}

/-- A progress step submits nothing and takes nothing out. -/
theorem queueTrace_attempt {now : ℤ} {priority : Bool} {ops : List LfiPendingOp}
    {answers : List ℤ} {e : QueueEvent} (he : e ∈ queueTrace env now priority ops answers s) :
    ∃ a, e = .attempt a := by
  induction ops generalizing answers s with
  | nil => cases he
  | cons op ops ih =>
      cases answers with
      | nil => exact ⟨_, List.mem_singleton.1 he⟩
      | cons ret answers =>
          rcases List.mem_cons.1 he with rfl | he
          · exact ⟨_, rfl⟩
          · split at he
            case isTrue => cases he
            case isFalse => exact ih he

theorem eventTrace_attempt {e : FabricEvent} {e' : QueueEvent} (he : e' ∈ eventTrace env s e) :
    ∃ a, e' = .attempt a := by
  cases e with
  | postPendingOps answers now =>
      rcases List.mem_append.1 he with he | he
      · exact queueTrace_attempt he
      · split at he
        case isTrue => exact queueTrace_attempt he
        case isFalse => cases he
  | _ => cases he

theorem progressTrace_attempt {events : List FabricEvent} {e : QueueEvent}
    (he : e ∈ progressTrace env events s) : ∃ a, e = .attempt a := by
  induction events generalizing s with
  | nil => cases he
  | cons e' events ih =>
      rcases List.mem_append.1 he with he | he
      · exact eventTrace_attempt he
      · exact ih he

/-- What completing a request changes. -/
theorem completeAt_core_eq (s : State) (ctx : ℕ) (err now : ℤ) :
    ∃ requests contexts waitCount callbacks completions,
      (completeAt env s ctx err now).core = { s.core with
        requests := requests
        contexts := contexts
        waitCount := waitCount
        callbacks := callbacks
        completions := completions } := by
  unfold completeAt
  cases s.core.contexts ctx with
  | none => exact ⟨_, _, _, _, _, rfl⟩
  | some r => exact complete_core_eq s r err now

theorem receiveAt_core_eq (s : State) (ctx len tag : ℕ) (now : ℤ) :
    ∃ requests contexts waitCount callbacks completions,
      (receiveAt env s ctx len tag now).core = { s.core with
        requests := requests
        contexts := contexts
        waitCount := waitCount
        callbacks := callbacks
        completions := completions } := by
  unfold receiveAt
  cases s.core.contexts ctx with
  | none => exact ⟨_, _, _, _, _, rfl⟩
  | some r =>
      obtain ⟨_, _, _, _, _, heq⟩ := @complete_core_eq env ⟨s.core.setRequest r
        ((s.core.requests r).map fun q => q.received len tag), s.ft⟩ r lfiSuccess now
      exact ⟨_, _, _, _, _, heq⟩

/-- `process_queue` leaves both queues of the state as they are. -/
theorem processQueue_queues (ops : List LfiPendingOp) (answers : List ℤ) (s : State) (now : ℤ) :
    (processQueue env now ops answers s).2.2.core.priorityOps = s.core.priorityOps ∧
      (processQueue env now ops answers s).2.2.core.pendingOps = s.core.pendingOps := by
  have hpost : ∀ (s : State) op ret, (postOp env s op ret now).core.priorityOps =
      s.core.priorityOps ∧ (postOp env s op ret now).core.pendingOps = s.core.pendingOps := by
    intro s op ret
    unfold postOp
    split
    case isTrue =>
      have := @completeAt_queues env s op.context (-lfiLibfabricError) now
      exact ⟨this.1, this.2.1⟩
    case isFalse =>
      split
      case isTrue =>
        have := @completeAt_queues env s op.context lfiSuccess now
        exact ⟨this.1, this.2.1⟩
      case isFalse => exact ⟨rfl, rfl⟩
  induction ops generalizing answers s with
  | nil => exact ⟨rfl, rfl⟩
  | cons op ops ih =>
      cases answers with
      | nil => exact ⟨rfl, rfl⟩
      | cons ret answers =>
          unfold processQueue
          split
          case isTrue => exact ⟨rfl, rfl⟩
          case isFalse =>
            obtain ⟨hprio, hpend⟩ := ih answers (postOp env s op ret now)
            exact ⟨hprio.trans (hpost s op ret).1, hpend.trans (hpost s op ret).2⟩

/-- A post submits the operation it is for, or fails. -/
theorem asyncPost_trace (env : Env) (s : State) (r : ReqId) (call : PostCall) :
    ((asyncPost env s r call).2 = s ∧ submitTrace s.core (asyncPost env s r call).2.core = []) ∨
      ∃ q f o priority op, s.core.requests r = some q ∧
        (asyncPost env s r call).2 = post env s r q.commId f o priority ∧
        op.owner = r ∧ op.post = s.core.posts ∧
        op.context = (createContext (reset s.core r) r).1 ∧
        (asyncPost env s r call).2.core.priorityOps =
          s.core.priorityOps ++ (if priority then [op] else []) ∧
        (asyncPost env s r call).2.core.pendingOps =
          s.core.pendingOps ++ (if priority then [] else [op]) ∧
        submitTrace s.core (asyncPost env s r call).2.core = [.submit priority op] := by
  rcases asyncPost_cases env s r call with ⟨-, heq⟩ | ⟨q, f, o, priority, hq, -, -, -, -, heq⟩
  · exact .inl (by simp [heq, submitTrace])
  · refine .inr ⟨q, f, o, priority, ⟨o.type, o.buf, o.len, o.addr, o.tagRemoteAddr,
      o.ignoreRemoteKey, (createContext (reset s.core r) r).1, r, s.core.posts⟩, hq,
      by rw [heq], rfl, rfl, rfl, ?_⟩
    rw [heq]
    obtain ⟨contexts, pool, created, hcreate⟩ := createContext_eq (reset s.core r) r
    obtain ⟨requests, contexts', hreset⟩ := reset_eq s.core r
    have hprio : (createContext (reset s.core r) r).2.priorityOps = s.core.priorityOps := by
      rw [hcreate, hreset]
    have hpend : (createContext (reset s.core r) r).2.pendingOps = s.core.pendingOps := by
      rw [hcreate, hreset]
    have hposts : (createContext (reset s.core r) r).2.posts = s.core.posts := by
      rw [hcreate, hreset]
    cases priority with
    | true =>
        simp [post, postCore, pushOp, Core.setRequest, hprio, hpend, hposts, submitTrace]
    | false =>
        simp [post, postCore, pushOp, Core.setRequest, hprio, hpend, hposts, submitTrace]

end Impl
end Lfi
