/-
# Reading the completion queue

`lfi_endpoint::progress` reads the completion queue of the fabric in batches:

    do {
        ret = fi_cq_read(this->cq, comp, MAX_COMP_COUNT);
        if (ret == -FI_EAGAIN) ...
        else if (ret == -FI_EAVAIL) { fi_cq_readerr(this->cq, &err, 0); ... }
        else if (ret > 0) { for (int i = 0; i < ret; i++) ... }
    } while (ret == MAX_COMP_COUNT || ret == -FI_EAVAIL);

`fi_cq_read` and `fi_cq_readerr` are not in the repository.  Here they are what a provider makes
of its queue (`FiCq`), of which only what is documented is assumed: a read returns entries of
completed operations, `MAX_COMP_COUNT` at most, or `-FI_EAVAIL` when there is one of a failed
operation, which `fi_cq_readerr` then returns, or `-FI_EAGAIN` when there is none.  Neither an
order nor the size of the batches is promised.

The rest of the development takes the entries one by one (`Lfi.Impl.Endpoint`).  That is what the
loop does (`polled_refines`): each entry is handled once, whatever the batches and whatever
arrives while it runs.

The loop also ends after a batch that is not full, even if more is there.  That waits for the next
call of `progress`, and no entry waits for ever (`progress_drains`).

A call of `progress` is whole here, with `post_pending_ops`, `one_loop` and the callbacks after
the loop, in the configurations without fault tolerance and those with `LFI_efficient_progress`
(`PassesLed`).  In the others a `cancel` in the pass of `one_loop` would read the queue as well.
What a callback does is left out: its calls are actions of their own.
-/

import Lfi.Impl.Conservation
import Lfi.Impl.Nested
import Mathlib.Data.List.TakeWhile

namespace Lfi
namespace Impl

open Runs

/-! ### The queue -/

/-- What `fi_cq_read` and `fi_cq_readerr` return of an entry; `now` is what the clock reads when
it completes a request. -/
inductive CqEntry where
  | done (ctx len tag : ℕ) (now : ℤ)
  | failed (ctx : ℕ) (err : ℤ)
  deriving DecidableEq, Repr

/-- `op_context`. -/
def CqEntry.ctx : CqEntry → ℕ
  | .done ctx _ _ _ => ctx
  | .failed ctx _ => ctx

/-- It says that the operation is done. -/
def CqEntry.isDone : CqEntry → Bool
  | .done .. => true
  | .failed .. => false

/-- The entry as an event. -/
def CqEntry.event : CqEntry → FabricEvent
  | .done ctx len tag now => .success ctx len tag now
  | .failed ctx err => .error ctx err

def maxCompCount : ℕ := 8

/-- What a call of `fi_cq_read` comes to: `-FI_EAGAIN`; `-FI_EAVAIL`, with the entry that
`fi_cq_readerr` returns after it; or entries.  The rest is still in the queue. -/
inductive CqRead where
  | eagain
  | eavail (ctx : ℕ) (err : ℤ) (rest : List CqEntry)
  | entries (comp rest : List CqEntry)

/-- The completion queue of a provider: `fiCqRead k cq` is what the read with the number `k` makes
of the entries `cq`. -/
structure FiCq where
  fiCqRead : ℕ → List CqEntry → CqRead
  /-- There is nothing to read. -/
  eagain : ∀ {k cq}, fiCqRead k cq = .eagain → cq = []
  /-- There is an entry of a failed operation. -/
  eavail : ∀ {k cq ctx err rest}, fiCqRead k cq = .eavail ctx err rest →
    cq.Perm (.failed ctx err :: rest)
  /-- There are entries of completed operations, up to `MAX_COMP_COUNT`. -/
  entries : ∀ {k cq comp rest}, fiCqRead k cq = .entries comp rest →
    cq.Perm (comp ++ rest) ∧ comp ≠ [] ∧ comp.length ≤ maxCompCount ∧
      ∀ e ∈ comp, e.isDone = true

/-! ### The loop -/

/-- The body of the loop for one entry. -/
def handleEntry (env : Env) (s : State) : CqEntry → State
  | .done ctx len tag now => cqSuccess env s ctx len tag now
  | .failed ctx err => cqError env s ctx err

/-- An endpoint with its completion queue and the number of its reads so far. -/
structure Polled where
  state : State
  cq : List CqEntry
  reads : ℕ

/-- The loop.  Before each read come those of `arrivals`; what is left of these when it ends
arrives after it.  It returns `ret`. -/
def cqLoop (fi : FiCq) (env : Env) (s : Polled) (arrivals : List (List CqEntry)) : Polled × ℤ :=
  match _hread : fi.fiCqRead s.reads (s.cq ++ arrivals.headD []) with
  | .eagain => (⟨s.state, arrivals.tail.flatten, s.reads + 1⟩, lfiSuccess)
  | .eavail ctx err rest =>
      cqLoop fi env ⟨cqError env s.state ctx err, rest, s.reads + 1⟩ arrivals.tail
  | .entries comp rest =>
      let t := comp.foldl (handleEntry env) s.state
      if comp.length = maxCompCount then cqLoop fi env ⟨t, rest, s.reads + 1⟩ arrivals.tail
      else (⟨t, rest ++ arrivals.tail.flatten, s.reads + 1⟩, comp.length)
  termination_by s.cq.length + arrivals.flatten.length
  decreasing_by
    · have hlen := (fi.eavail _hread).length_eq
      cases arrivals <;> simp at hlen ⊢ <;> omega
    · obtain ⟨hperm, hne, -⟩ := fi.entries _hread
      have hlen := hperm.length_eq
      have hpos := List.length_pos_iff.2 hne
      cases arrivals <;> simp at hlen ⊢ <;> omega

/-! ### `progress` -/

/-- `LFI_efficient_progress`, where there are passes: the cancels in them make no progress step. -/
def PassesLed (env : Env) : Prop := env.faultTolerance = true → env.efficientProgress = true

/-- What a call of `progress` meets: what arrives before each of its reads, the answers of the
fabric to `post_pending_ops`, the clock then, and what `one_loop` meets. -/
structure ProgressInput where
  arrivals : List (List CqEntry)
  answers : List ℤ
  now : ℤ
  pass : PassInput

/-- `callbacks.swap(swap_callbacks)`. -/
def swapCallbacks (s : State) : State := { s with core := { s.core with callbacks := [] } }

/-- What `progress` does after its loop, apart from what the callbacks do. -/
def afterLoop (env : Env) (i : ProgressInput) (callCallbacks : Bool) (s : State) : State :=
  let s := postPendingOps env s i.answers i.now
  let s := if env.faultTolerance then oneLoop env i.pass s else s
  if callCallbacks then swapCallbacks s else s

/-- `progress(call_callbacks)`. -/
def progressCall (fi : FiCq) (env : Env) (s : Polled) (i : ProgressInput)
    (callCallbacks : Bool) : Polled :=
  let p := (cqLoop fi env s i.arrivals).1
  { p with state := afterLoop env i callCallbacks p.state }

/-- `protected_progress(false)`; there is no `i` while somebody else leads. -/
def protectedProgress (fi : FiCq) (env : Env) (s : Polled) : Option ProgressInput → Polled
  | none => s
  | some i => progressCall fi env s i false

/-- What arrives in the meantime. -/
def arrivalsOf (i : Option ProgressInput) : List CqEntry := (i.map (·.arrivals.flatten)).getD []

/-- `cancel()`. -/
def cancelCall (fi : FiCq) (env : Env) (s : Polled) (r : ReqId) (i : Option ProgressInput) :
    Polled :=
  match s.state.core.requests r with
  | none => { s with cq := s.cq ++ arrivalsOf i }
  | some q =>
      let t : State := { s.state with core := eraseOps s.state.core q.waitContext }
      if q.isCompleted then { s with state := t, cq := s.cq ++ arrivalsOf i }
      else
        let p := protectedProgress fi env { s with state := t } i
        { p with state := complete env p.state r (cancelError s.state.ft q) 0 }

/-- `lfi_request_free(r)`. -/
def freeCall (fi : FiCq) (env : Env) (s : Polled) (r : ReqId) (i : Option ProgressInput) :
    Polled :=
  match s.state.core.requests r with
  | none => { s with cq := s.cq ++ arrivalsOf i }
  | some q =>
      let p := if q.isCompleted then { s with cq := s.cq ++ arrivalsOf i }
        else cancelCall fi env s r i
      { p with state := { p.state with core := p.state.core.setRequest r none } }

/-- What happens to requests and operations, with the completion queue.  The fabric puts an entry
into it, or a value into the memory of a heartbeat; `progress` is called by itself or by
`cancel`. -/
inductive PolledAction where
  | create (r : ReqId) (c : CommId)
  | post (r : ReqId) (call : PostCall)
  | enqueue (e : CqEntry)
  | heartbeatValue (c : CommId) (value : ℕ)
  | progress (i : ProgressInput) (callCallbacks : Bool)
  | cancel (r : ReqId) (i : Option ProgressInput)
  | free (r : ReqId) (i : Option ProgressInput)

/-- The entries that the fabric puts into the queue in an action. -/
def PolledAction.enqueued : PolledAction → List CqEntry
  | .create .. | .post .. | .heartbeatValue .. => []
  | .enqueue e => [e]
  | .progress i _ => i.arrivals.flatten
  | .cancel _ i => arrivalsOf i
  | .free _ i => arrivalsOf i

/-- The fabric reports each operation it has accepted once. -/
def Awaited (s : Core) (cq : List CqEntry) : Prop :=
  (cq.map CqEntry.ctx).Nodup ∧ ∀ e ∈ cq, ∃ op ∈ s.inFlight, op.context = e.ctx

instance (s : Core) (cq : List CqEntry) : Decidable (Awaited s cq) :=
  inferInstanceAs (Decidable (_ ∧ _))

/-- One action, with the queue polled. -/
def polledStep (fi : FiCq) (env : Env) (s : Polled) (a : PolledAction) : Option Polled :=
  if Awaited s.state.core (s.cq ++ a.enqueued) then
    match a with
    | .create r c => (opStep env s.state (.create r c)).map fun t => { s with state := t }
    | .post r call => some { s with state := (asyncPost env s.state r call).2 }
    | .enqueue e => some { s with cq := s.cq ++ [e] }
    | .heartbeatValue c value =>
        some { s with state := fabricEvent env s.state (.heartbeatValue c value) }
    | .progress i callCallbacks => some (progressCall fi env s i callCallbacks)
    | .cancel r i => some (cancelCall fi env s r i)
    | .free r i => some (freeCall fi env s r i)
  else none

/-! ### The entries one by one -/

/-- The same without a completion queue: the fabric reports one operation after the other.  A
`cancel` makes a progress step as in `Lfi.Impl.Nested`. -/
inductive EntryAction where
  | create (r : ReqId) (c : CommId)
  | post (r : ReqId) (call : PostCall)
  | fabric (e : FabricEvent)
  | oneLoop (input : PassInput)
  | callCallbacks
  | cancel (r : ReqId) (step : Nested)
  | free (r : ReqId) (step : Nested)

/-- One action, with the entries coming as events. -/
def entryStep (env : Env) (s : State) : EntryAction → Option State
  | .create r c => opStep env s (.create r c)
  | .post r call => some (asyncPost env s r call).2
  | .fabric e => some (fabricEvent env s e)
  | .oneLoop input => if env.faultTolerance then some (oneLoop env input s) else none
  | .callCallbacks => some (swapCallbacks s)
  | .cancel r step => some ((cancelC env (nestedC env step) r).run s)
  | .free r step => some ((freeC env (nestedC env step) r).run s)

/-- The event is a completion entry. -/
def FabricEvent.isEntry : FabricEvent → Bool
  | .success .. | .error .. => true
  | .heartbeatValue .. | .postPendingOps .. => false

/-- The completion entries of a progress step. -/
def Nested.entries : Nested → List FabricEvent
  | .led => []
  | .leads events .. => events.filter FabricEvent.isEntry

/-- The entries of an action. -/
def EntryAction.entries : EntryAction → List FabricEvent
  | .create .. | .post .. | .oneLoop .. | .callCallbacks => []
  | .fabric e => [e].filter FabricEvent.isEntry
  | .cancel _ step | .free _ step => step.entries

/-! ### What the loop takes -/

section Loop

variable {fi : FiCq} {env : Env} {s t : State} {p : Polled} {cq cq' : List CqEntry} {e : CqEntry}

theorem headD_append_flatten_tail (arrivals : List (List CqEntry)) :
    arrivals.headD [] ++ arrivals.tail.flatten = arrivals.flatten := by
  cases arrivals <;> rfl

/-- **The loop takes entries out of the queue**, and the rest stays. -/
theorem cqLoop_takes (fi : FiCq) (env : Env) (p : Polled) (arrivals : List (List CqEntry)) :
    ∃ taken rest reads ret,
      cqLoop fi env p arrivals = (⟨taken.foldl (handleEntry env) p.state, rest, reads⟩, ret) ∧
      (taken ++ rest).Perm (p.cq ++ arrivals.flatten) := by
  have harrivals : ∀ (p : Polled) (arrivals : List (List CqEntry)),
      p.cq ++ arrivals.flatten = (p.cq ++ arrivals.headD []) ++ arrivals.tail.flatten :=
    fun p arrivals => by rw [List.append_assoc, headD_append_flatten_tail]
  induction p, arrivals using cqLoop.induct fi env with
  | case1 p arrivals hread =>
      refine ⟨[], arrivals.tail.flatten, p.reads + 1, lfiSuccess, ?_, ?_⟩
      · rw [cqLoop, hread]
        rfl
      · rw [harrivals, fi.eagain hread]
  | case2 p arrivals ctx err rest hread ih =>
      obtain ⟨taken, left, reads, ret, heq, hperm⟩ := ih
      refine ⟨.failed ctx err :: taken, left, reads, ret, ?_, ?_⟩
      · rw [cqLoop, hread]
        exact heq
      · rw [harrivals]
        exact (hperm.cons _).trans ((fi.eavail hread).symm.append_right _)
  | case3 p arrivals comp rest hread t hfull ih =>
      obtain ⟨taken, left, reads, ret, heq, hperm⟩ := ih
      refine ⟨comp ++ taken, left, reads, ret, ?_, ?_⟩
      · rw [cqLoop, hread, List.foldl_append]
        simp only [if_pos hfull]
        exact heq
      · rw [harrivals, List.append_assoc]
        refine (hperm.append_left comp).trans ?_
        rw [← List.append_assoc]
        exact (fi.entries hread).1.symm.append_right _
  | case4 p arrivals comp rest hread hfull =>
      refine ⟨comp, rest ++ arrivals.tail.flatten, p.reads + 1, comp.length, ?_, ?_⟩
      · rw [cqLoop, hread]
        simp only [if_neg hfull]
      · rw [harrivals, ← List.append_assoc]
        exact (fi.entries hread).1.symm.append_right _

/-- **Where nothing arrives** the loop takes one entry at least. -/
theorem cqLoop_length_lt (fi : FiCq) (env : Env) (p : Polled) (h : p.cq ≠ []) :
    (cqLoop fi env p []).1.cq.length < p.cq.length := by
  have hle : ∀ p : Polled, (cqLoop fi env p []).1.cq.length ≤ p.cq.length := fun p => by
    obtain ⟨taken, rest, reads, ret, heq, hperm⟩ := cqLoop_takes fi env p []
    have hlen := hperm.length_eq
    rw [List.length_append, List.flatten_nil, List.append_nil] at hlen
    rw [heq, ← hlen]
    exact Nat.le_add_left ..
  rw [cqLoop]
  cases hread : fi.fiCqRead p.reads (p.cq ++ List.headD [] []) with
  | eagain =>
      have hnil := fi.eagain hread
      rw [List.headD_nil, List.append_nil] at hnil
      exact absurd hnil h
  | eavail ctx err rest =>
      have hlen := (fi.eavail hread).length_eq
      rw [List.headD_nil, List.append_nil, List.length_cons] at hlen
      exact Nat.lt_of_le_of_lt (hle _) (hlen ▸ Nat.lt_succ_self _)
  | entries comp rest =>
      obtain ⟨hperm, hne, -⟩ := fi.entries hread
      have hlen := hperm.length_eq
      have hpos := List.length_pos_iff.2 hne
      rw [List.headD_nil, List.append_nil, List.length_append] at hlen
      have hshorter : rest.length < p.cq.length := by omega
      dsimp only
      split
      case isTrue => exact Nat.lt_of_le_of_lt (hle _) hshorter
      case isFalse =>
        rw [List.tail_nil, List.flatten_nil, List.append_nil]
        exact hshorter

/-- **No entry waits for ever.**  Where nothing more arrives, as many calls of `progress` as there
are entries empty the queue, however small the batches. -/
theorem progress_drains (fi : FiCq) (env : Env) (p : Polled) (calls : List (ProgressInput × Bool))
    (hquiet : ∀ call ∈ calls, call.1.arrivals = []) (h : p.cq.length ≤ calls.length) :
    (calls.foldl (fun p call => progressCall fi env p call.1 call.2) p).cq = [] := by
  induction calls generalizing p with
  | nil => exact List.length_eq_zero_iff.1 (Nat.le_zero.1 h)
  | cons call calls ih =>
      refine ih _ (fun call hcall => hquiet call (List.mem_cons_of_mem _ hcall)) ?_
      have hleft : (progressCall fi env p call.1 call.2).cq = (cqLoop fi env p []).1.cq := by
        rw [progressCall, hquiet call List.mem_cons_self]
      rw [List.length_cons] at h
      rw [hleft]
      by_cases hcq : p.cq = []
      · obtain ⟨taken, rest, reads, ret, heq, hperm⟩ := cqLoop_takes fi env p []
        rw [hcq] at hperm
        rw [heq, (List.append_eq_nil_iff.1 hperm.eq_nil).2]
        exact Nat.zero_le _
      · have hlt := cqLoop_length_lt fi env p hcq
        omega

/-! ### The entries that it takes -/

/-- An entry takes its operation off those in flight. -/
theorem handleEntry_inFlight (env : Env) (s : State) (e : CqEntry) :
    (handleEntry env s e).core.inFlight =
      s.core.inFlight.filter fun op => op.context != e.ctx := by
  cases e with
  | done ctx len tag now =>
      exact (receiveAt_queues { s with core := takeBack s.core ctx } ctx len tag now).2.2
  | failed ctx err =>
      exact (completeAt_queues { s with core := takeBack s.core ctx } ctx (cqErrorCode err) 0).2.2

/-- An entry of an operation that the fabric has is an event. -/
theorem handleEntry_eq (env : Env) (h : ∃ op ∈ s.core.inFlight, op.context = e.ctx) :
    handleEntry env s e = fabricEvent env s e.event := by
  cases e with
  | done ctx len tag now => exact (if_pos h).symm
  | failed ctx err => exact (if_pos h).symm

theorem Awaited.perm {s : Core} (h : Awaited s cq) (hperm : cq.Perm cq') : Awaited s cq' :=
  ⟨(hperm.map CqEntry.ctx).nodup_iff.1 h.1, fun e he => h.2 e (hperm.mem_iff.2 he)⟩

/-- The entries behind it are awaited still. -/
theorem Awaited.handle (env : Env) (h : Awaited s.core (e :: cq)) :
    Awaited (handleEntry env s e).core cq := by
  obtain ⟨hnodup, hflight⟩ := h
  rw [List.map_cons, List.nodup_cons] at hnodup
  refine ⟨hnodup.2, fun e' he' => ?_⟩
  obtain ⟨op, hop, hctx⟩ := hflight e' (List.mem_cons_of_mem _ he')
  refine ⟨op, ?_, hctx⟩
  rw [handleEntry_inFlight, List.mem_filter]
  refine ⟨hop, ?_⟩
  have hne : op.context ≠ e.ctx := fun heq =>
    hnodup.1 (List.mem_map.2 ⟨e', he', hctx.symm.trans heq⟩)
  simpa using hne

/-- The entries that the loop takes are events, one after the other. -/
theorem Awaited.foldl (env : Env) {taken rest : List CqEntry}
    (h : Awaited s.core (taken ++ rest)) :
    taken.foldl (handleEntry env) s = progress env (taken.map CqEntry.event) s ∧
      Awaited (taken.foldl (handleEntry env) s).core rest := by
  induction taken generalizing s with
  | nil => exact ⟨rfl, h⟩
  | cons e taken ih =>
      have hone := handleEntry_eq env (h.2 e List.mem_cons_self)
      obtain ⟨hrest, hreports⟩ := ih (h.handle env)
      refine ⟨?_, hreports⟩
      rw [List.foldl_cons, hrest, hone]
      rfl

/-! ### What keeps the operations of the fabric -/

theorem Awaited.keeps {s t : Core} (h : Awaited s cq)
    (hkeep : ∀ op ∈ s.inFlight, op ∈ t.inFlight) : Awaited t cq :=
  ⟨h.1, fun e he => by
    obtain ⟨op, hop, hctx⟩ := h.2 e he
    exact ⟨op, hkeep op hop, hctx⟩⟩

theorem Awaited.congr {s t : Core} (h : Awaited s cq) (hflight : t.inFlight = s.inFlight) :
    Awaited t cq :=
  h.keeps fun _ hop => hflight ▸ hop

/-- What the fabric has, `post_pending_ops` leaves with it. -/
theorem postPendingOps_keeps (env : Env) (s : State) (answers : List ℤ) (now : ℤ)
    {op : LfiPendingOp} (hop : op ∈ s.core.inFlight) :
    op ∈ (postPendingOps env s answers now).core.inFlight := by
  have hpost : ∀ (s : State) (a : LfiPendingOp) (ret : ℤ), op ∈ s.core.inFlight →
      op ∈ (postOp env s a ret now).core.inFlight := by
    intro s a ret hop
    unfold postOp
    split
    case isTrue =>
      rw [(completeAt_queues s a.context (-lfiLibfabricError) now).2.2]
      exact hop
    case isFalse =>
      split
      case isTrue =>
        have hflight := (@completeAt_queues env s a.context lfiSuccess now).2.2
        exact hflight ▸ hop
      case isFalse => exact List.mem_append_left _ hop
  have hqueue : ∀ (ops : List LfiPendingOp) (answers : List ℤ) (s : State), op ∈ s.core.inFlight →
      op ∈ (processQueue env now ops answers s).2.2.core.inFlight := by
    intro ops
    induction ops with
    | nil => exact fun _ _ h => h
    | cons a ops ih =>
        intro answers s hop
        cases answers with
        | nil => exact hop
        | cons ret answers =>
            unfold processQueue
            split
            case isTrue => exact hop
            case isFalse => exact ih answers _ (hpost s a ret hop)
  unfold postPendingOps
  have hfirst := hqueue s.core.priorityOps answers s hop
  dsimp only
  split
  case isTrue => exact hqueue _ _ _ hfirst
  case isFalse => exact hfirst

/-- A post hands nothing to the fabric. -/
theorem asyncPost_inFlight (env : Env) (s : State) (r : ReqId) (call : PostCall) :
    (asyncPost env s r call).2.core.inFlight = s.core.inFlight := by
  rcases asyncPost_cases env s r call with ⟨-, heq⟩ | ⟨q, f, o, priority, -, -, -, -, -, heq⟩
  · rw [heq]
  · rw [heq]
    exact (postCore_fields s.core r f o priority).2.2

/-- `cancel` takes operations out of the queues only. -/
theorem eraseOps_inFlight (s : Core) (c : Option ℕ) : (eraseOps s c).inFlight = s.inFlight := by
  cases c <;> rfl

/-- A `cancel` without a progress step. -/
theorem cancel_inFlight (env : Env) (s : State) (r : ReqId) :
    (cancel env s r []).core.inFlight = s.core.inFlight :=
  cancel_parts (P := fun t => t.core.inFlight = s.core.inFlight)
    (fun q _ => eraseOps_inFlight s.core q.waitContext) (fun _ ht => ht)
    (fun t err _ ht => (complete_queues t r err 0).2.2.trans ht) rfl

/-- A communicator is looked at, and its heartbeat perhaps posted to the queue. -/
theorem processComm_inFlight (env : Env) (now : ℤ) (beat : CommId → ℤ) (s : State) (c : CommId) :
    (processComm env now beat s c).core.inFlight = s.core.inFlight := by
  rcases processComm_cases env now beat s c with ⟨-, heq⟩ | ⟨-, -, -, heq⟩ | ⟨-, -, -, heq⟩ |
    ⟨-, -, -, -, heq⟩ | ⟨-, -, -, heq⟩ <;> rw [heq]
  -- a heartbeat is posted
  have hensure : (ensureHeartbeat s.core c).inFlight = s.core.inFlight := by
    unfold ensureHeartbeat
    split <;> rfl
  have hreset : (reset (ensureHeartbeat s.core c) (.heartbeat c)).inFlight = s.core.inFlight := by
    obtain ⟨_, _, heq⟩ := reset_eq (ensureHeartbeat s.core c) (.heartbeat c)
    rw [heq]
    exact hensure
  have hget := (asyncPost_inFlight env
    ⟨reset (ensureHeartbeat s.core c) (.heartbeat c), clearValue s.ft c⟩ (.heartbeat c)
    (.get 0 8 (s.ft.comm c).ftRemoteHeartbeatAddr (s.ft.comm c).ftRemoteHeartbeatKey true)).trans
    hreset
  unfold startHeartbeat
  dsimp only
  split
  case isTrue => split <;> exact hget
  case isFalse => exact hensure

/-- A pass hands nothing to the fabric, if the cancels in it make no progress step. -/
theorem oneLoop_inFlight (h : env.efficientProgress = true) (input : PassInput) (s : State) :
    (oneLoop env input s).core.inFlight = s.core.inFlight := by
  have hevents : passEvents env input = fun _ => [] := if_pos h
  refine oneLoop_induction (P := fun t => t.core.inFlight = s.core.inFlight)
    (fun t c ht => (processComm_inFlight env input.now input.beat t c).trans ht)
    (fun t c ht => ?_) (fun _ _ _ ht => ht) (fun t r ht => ?_) (fun _ _ _ _ _ _ _ ht => ht) rfl
  · have hloop : (cancelRequests env (fun _ => []) c
        ((markCanceled t c).ft.comm c).ftRequests.size.toNat (markCanceled t c)).core.inFlight =
          s.core.inFlight :=
      cancelRequests_induction (P := fun u => u.core.inFlight = s.core.inFlight)
        (s := markCanceled t c)
        (fun u r _ hu => (cancel_inFlight env u r).trans hu) ht _
    have hfree : (requestFree env (cancelRequests env (fun _ => []) c
        ((markCanceled t c).ft.comm c).ftRequests.size.toNat (markCanceled t c))
          (.heartbeat c) []).core.inFlight = s.core.inFlight :=
      requestFree_induction (P := fun u => u.core.inFlight = s.core.inFlight)
        (fun u hu => (cancel_inFlight env u _).trans hu) (fun _ _ hu => hu) hloop
    rw [hevents]
    exact hfree
  · rw [hevents]
    exact (cancel_inFlight env t r).trans ht

/-! ### The refinement -/

/-- What follows the loop takes nothing off the operations in flight. -/
theorem afterLoop_keeps (hled : PassesLed env) (i : ProgressInput) (b : Bool)
    {op : LfiPendingOp} (hop : op ∈ s.core.inFlight) :
    op ∈ (afterLoop env i b s).core.inFlight := by
  have hpost := postPendingOps_keeps env s i.answers i.now hop
  have hpass : op ∈ (if env.faultTolerance then oneLoop env i.pass
      (postPendingOps env s i.answers i.now) else
      postPendingOps env s i.answers i.now).core.inFlight := by
    split
    case isTrue hft => rwa [oneLoop_inFlight (hled hft)]
    case isFalse => exact hpost
  unfold afterLoop
  dsimp only
  split
  case isTrue => exact hpass
  case isFalse => exact hpass

/-- **A call of `progress`** handles the entries it takes one by one. -/
theorem progressCall_takes (hled : PassesLed env) (fi : FiCq) (i : ProgressInput) (b : Bool)
    (h : Awaited p.state.core (p.cq ++ i.arrivals.flatten)) :
    ∃ taken : List CqEntry,
      (taken ++ (progressCall fi env p i b).cq).Perm (p.cq ++ i.arrivals.flatten) ∧
      (progressCall fi env p i b).state =
        afterLoop env i b (progress env (taken.map CqEntry.event) p.state) ∧
      Awaited (progressCall fi env p i b).state.core (progressCall fi env p i b).cq := by
  obtain ⟨taken, rest, reads, ret, heq, hperm⟩ := cqLoop_takes fi env p i.arrivals
  obtain ⟨hfold, hreports⟩ := (h.perm hperm.symm).foldl env
  rw [progressCall, heq]
  exact ⟨taken, hperm, congrArg (afterLoop env i b) hfold,
    hreports.keeps fun op hop => afterLoop_keeps hled i b hop⟩

/-- The progress step of a `cancel` that handles the entries `taken`. -/
def ProgressInput.step (i : ProgressInput) (taken : List CqEntry) : Nested :=
  .leads (taken.map CqEntry.event ++ [.postPendingOps i.answers i.now]) i.pass.now i.pass.beat
    i.pass.comms i.pass.anys i.pass.pending fun _ => .led

theorem filter_isEntry_event (l : List CqEntry) :
    (l.map CqEntry.event).filter FabricEvent.isEntry = l.map CqEntry.event := by
  refine List.filter_eq_self.2 fun e he => ?_
  obtain ⟨e', -, rfl⟩ := List.mem_map.1 he
  cases e' <;> rfl

theorem ProgressInput.step_entries (i : ProgressInput) (taken : List CqEntry) :
    (i.step taken).entries = taken.map CqEntry.event := by
  rw [ProgressInput.step, Nested.entries, List.filter_append, filter_isEntry_event]
  exact List.append_nil _

/-- The progress step of a `cancel` is the loop's entries and what follows them. -/
theorem ProgressInput.step_run (hled : PassesLed env) (i : ProgressInput) (taken : List CqEntry)
    (s : State) : (nestedC env (i.step taken)).run s =
      afterLoop env i false (progress env (taken.map CqEntry.event) s) := by
  have hposted : progress env (taken.map CqEntry.event ++ [.postPendingOps i.answers i.now]) s =
      postPendingOps env (progress env (taken.map CqEntry.event) s) i.answers i.now :=
    List.foldl_append ..
  rw [ProgressInput.step, nestedC, Checked.seq_run, Checked.act_run, hposted, afterLoop]
  cases hft : env.faultTolerance with
  | false => rfl
  | true =>
      have heff := hled hft
      simp only [heff, if_true, Bool.false_eq_true, if_false]
      exact oneLoopC_run heff i.pass _

/-- The progress step of a `cancel`. -/
theorem protectedProgress_takes (hled : PassesLed env) (fi : FiCq) (i : Option ProgressInput)
    (h : Awaited p.state.core (p.cq ++ arrivalsOf i)) :
    ∃ (taken : List CqEntry) (step : Nested), step.entries = taken.map CqEntry.event ∧
      (taken ++ (protectedProgress fi env p i).cq).Perm (p.cq ++ arrivalsOf i) ∧
      (protectedProgress fi env p i).state = (nestedC env step).run p.state ∧
      Awaited (protectedProgress fi env p i).state.core (protectedProgress fi env p i).cq := by
  cases i with
  | none =>
      rw [arrivalsOf, Option.map_none, Option.getD_none, List.append_nil] at h ⊢
      exact ⟨[], .led, rfl, .rfl, rfl, h⟩
  | some i =>
      obtain ⟨taken, hperm, hstate, hrest⟩ := progressCall_takes hled fi i false h
      exact ⟨taken, i.step taken, i.step_entries taken, hperm,
        hstate.trans (i.step_run hled taken p.state).symm, hrest⟩

/-- `cancel`. -/
theorem cancelCall_takes (hled : PassesLed env) (fi : FiCq) (r : ReqId) (i : Option ProgressInput)
    (h : Awaited p.state.core (p.cq ++ arrivalsOf i)) :
    ∃ (taken : List CqEntry) (step : Nested), step.entries = taken.map CqEntry.event ∧
      (taken ++ (cancelCall fi env p r i).cq).Perm (p.cq ++ arrivalsOf i) ∧
      (cancelCall fi env p r i).state = (cancelC env (nestedC env step) r).run p.state ∧
      Awaited (cancelCall fi env p r i).state.core (cancelCall fi env p r i).cq := by
  simp only [cancelC_run]
  unfold cancelCall cancelWith
  cases hq : p.state.core.requests r with
  | none => exact ⟨[], .led, rfl, .rfl, rfl, h⟩
  | some q =>
      have herased : Awaited (eraseOps p.state.core q.waitContext) (p.cq ++ arrivalsOf i) :=
        h.congr (eraseOps_inFlight ..)
      dsimp only
      split
      case isTrue => exact ⟨[], .led, rfl, .rfl, rfl, herased⟩
      case isFalse =>
        obtain ⟨taken, step, hentries, hperm, hstate, hrest⟩ := protectedProgress_takes hled fi i
          (p := { p with state := { p.state with core := eraseOps p.state.core q.waitContext } })
          herased
        exact ⟨taken, step, hentries, hperm, congrArg (complete env · r _ 0) hstate,
          hrest.congr (complete_queues _ r _ 0).2.2⟩

/-- `lfi_request_free`. -/
theorem freeCall_takes (hled : PassesLed env) (fi : FiCq) (r : ReqId) (i : Option ProgressInput)
    (h : Awaited p.state.core (p.cq ++ arrivalsOf i)) :
    ∃ (taken : List CqEntry) (step : Nested), step.entries = taken.map CqEntry.event ∧
      (taken ++ (freeCall fi env p r i).cq).Perm (p.cq ++ arrivalsOf i) ∧
      (freeCall fi env p r i).state = (freeC env (nestedC env step) r).run p.state ∧
      Awaited (freeCall fi env p r i).state.core (freeCall fi env p r i).cq := by
  simp only [freeC_run]
  unfold freeCall freeWith
  cases hq : p.state.core.requests r with
  | none => exact ⟨[], .led, rfl, .rfl, rfl, h⟩
  | some q =>
      dsimp only
      split
      case isTrue => exact ⟨[], .led, rfl, .rfl, rfl, h⟩
      case isFalse =>
        obtain ⟨taken, step, hentries, hperm, hstate, hrest⟩ := cancelCall_takes hled fi r i h
        rw [cancelC_run] at hstate
        exact ⟨taken, step, hentries, hperm, by rw [hstate], hrest⟩

theorem exec_events (events : List FabricEvent) (s : State) :
    exec (entryStep env) s (events.map .fabric) = some (progress env events s) := by
  induction events generalizing s with
  | nil => rfl
  | cons e events ih => exact ih _

theorem entries_events (events : List FabricEvent) :
    (events.map EntryAction.fabric).flatMap EntryAction.entries =
      events.filter FabricEvent.isEntry := by
  induction events with
  | nil => rfl
  | cons e events ih =>
      rw [List.map_cons, List.flatMap_cons, ih, EntryAction.entries, ← List.filter_append]
      rfl

/-- What follows the loop is no entry. -/
theorem exec_afterLoop (env : Env) (i : ProgressInput) (b : Bool) (s : State) :
    ∃ bs, exec (entryStep env) s bs = some (afterLoop env i b s) ∧
      bs.flatMap EntryAction.entries = [] := by
  refine ⟨[.fabric (.postPendingOps i.answers i.now)] ++
    ((if env.faultTolerance then [.oneLoop i.pass] else []) ++
      if b then [.callCallbacks] else []), ?_, ?_⟩
  · simp only [exec_append, afterLoop]
    cases hft : env.faultTolerance <;> cases b <;>
      simp [exec, entryStep, hft, fabricEvent]
  · cases env.faultTolerance <;> cases b <;> rfl

/-- **A step with the completion queue is one without**, or some. -/
theorem polledStep_follows (hled : PassesLed env) {p p' : Polled} {a : PolledAction}
    (h : polledStep fi env p a = some p') :
    ∃ bs, exec (entryStep env) p.state bs = some p'.state ∧
      (bs.flatMap EntryAction.entries ++ p'.cq.map CqEntry.event).Perm
        ((p.cq ++ a.enqueued).map CqEntry.event) := by
  unfold polledStep at h
  split at h
  case isFalse => cases h
  case isTrue hreports =>
    have hone : ∀ {taken : List CqEntry} {step : Nested} {p' : Polled},
        step.entries = taken.map CqEntry.event → (taken ++ p'.cq).Perm (p.cq ++ a.enqueued) →
        (([step.entries] : List (List FabricEvent)).flatten ++ p'.cq.map CqEntry.event).Perm
          ((p.cq ++ a.enqueued).map CqEntry.event) := by
      intro taken step p' hentries hperm
      rw [List.flatten_singleton, hentries, ← List.map_append]
      exact hperm.map _
    cases a with
    | create r c =>
        obtain ⟨u, hu, rfl⟩ := Option.map_eq_some_iff.1 h
        refine ⟨[.create r c], by rw [exec_cons, entryStep, hu]; rfl, ?_⟩
        simp [EntryAction.entries, PolledAction.enqueued]
    | post r call =>
        obtain rfl := Option.some.inj h
        exact ⟨[.post r call], rfl, by simp [EntryAction.entries, PolledAction.enqueued]⟩
    | enqueue e =>
        obtain rfl := Option.some.inj h
        exact ⟨[], rfl, .rfl⟩
    | heartbeatValue c value =>
        obtain rfl := Option.some.inj h
        exact ⟨[.fabric (.heartbeatValue c value)], rfl, by
          simp [EntryAction.entries, FabricEvent.isEntry, PolledAction.enqueued]⟩
    | progress i b =>
        obtain rfl := Option.some.inj h
        obtain ⟨taken, hperm, hstate, -⟩ := progressCall_takes hled fi i b hreports
        obtain ⟨bs, hbs, hnone⟩ :=
          exec_afterLoop env i b (progress env (taken.map CqEntry.event) p.state)
        refine ⟨(taken.map CqEntry.event).map .fabric ++ bs, ?_, ?_⟩
        · rw [exec_append, exec_events, hstate]
          exact hbs
        · rw [List.flatMap_append, entries_events, filter_isEntry_event, hnone, List.append_nil,
            ← List.map_append]
          exact hperm.map _
    | cancel r i =>
        obtain rfl := Option.some.inj h
        obtain ⟨taken, step, hentries, hperm, hstate, -⟩ := cancelCall_takes hled fi r i hreports
        exact ⟨[.cancel r step], congrArg some hstate.symm, hone hentries hperm⟩
    | free r i =>
        obtain rfl := Option.some.inj h
        obtain ⟨taken, step, hentries, hperm, hstate, -⟩ := freeCall_takes hled fi r i hreports
        exact ⟨[.free r step], congrArg some hstate.symm, hone hentries hperm⟩

/-- **The loop refines the entries one by one.**  Whatever a provider makes of its reads, every
run with the completion queue is a run in which the entries are handled one by one, each once;
what is not handled is still in the queue. -/
theorem polled_refines (fi : FiCq) (env : Env) (hled : PassesLed env) (s₀ : State)
    {as : List PolledAction} {p : Polled} (h : exec (polledStep fi env) ⟨s₀, [], 0⟩ as = some p) :
    ∃ bs, exec (entryStep env) s₀ bs = some p.state ∧
      (bs.flatMap EntryAction.entries ++ p.cq.map CqEntry.event).Perm
        ((as.flatMap PolledAction.enqueued).map CqEntry.event) := by
  have hrun : ∀ as p, exec (polledStep fi env) ⟨s₀, [], 0⟩ as = some p →
      ∃ bs, exec (entryStep env) s₀ bs = some p.state ∧
        (bs.flatMap EntryAction.entries ++ p.cq.map CqEntry.event).Perm
          ((as.flatMap PolledAction.enqueued).map CqEntry.event) := by
    refine exec_snoc_induction ⟨[], rfl, .rfl⟩ ?_
    rintro as a p p' - ⟨bs, hbs, hentries⟩ ht
    obtain ⟨cs, hcs, hnext⟩ := polledStep_follows hled ht
    refine ⟨bs ++ cs, by rw [exec_append, hbs]; exact hcs, ?_⟩
    rw [List.map_append] at hnext
    rw [List.flatMap_append, List.append_assoc, List.flatMap_append, List.flatMap_singleton,
      List.map_append]
    refine (hnext.append_left _).trans ?_
    rw [← List.append_assoc]
    exact hentries.append_right _
  exact hrun as p h

end Loop

/-! ### A queue in order -/

/-- Entries up to the first of a failed operation. -/
def readInOrder (_ : ℕ) : List CqEntry → CqRead
  | [] => .eagain
  | .failed ctx err :: rest => .eavail ctx err rest
  | .done ctx len tag now :: rest =>
      let more := (rest.takeWhile CqEntry.isDone).take (maxCompCount - 1)
      .entries (.done ctx len tag now :: more) (rest.drop more.length)

/-- A provider with one queue, which gives as much as it may. -/
def inOrder : FiCq where
  fiCqRead := readInOrder
  eagain {k cq} h := by
    unfold readInOrder at h
    split at h
    case h_1 => rfl
    case h_2 => cases h
    case h_3 => cases h
  eavail {k cq ctx err rest} h := by
    unfold readInOrder at h
    split at h
    case h_1 => cases h
    case h_2 =>
      obtain ⟨rfl, rfl, rfl⟩ := CqRead.eavail.inj h
      exact .rfl
    case h_3 => cases h
  entries {k cq comp rest} h := by
    unfold readInOrder at h
    split at h
    case h_1 => cases h
    case h_2 => cases h
    case h_3 ctx len tag now tl =>
      obtain ⟨rfl, rfl⟩ := CqRead.entries.inj h
      have hsplit : (tl.takeWhile CqEntry.isDone).take (maxCompCount - 1) ++
          tl.drop ((tl.takeWhile CqEntry.isDone).take (maxCompCount - 1)).length = tl :=
        (List.prefix_iff_eq_append.1 ((List.take_prefix _ _).trans (List.takeWhile_prefix _)))
      refine ⟨by rw [List.cons_append, hsplit], List.cons_ne_nil _ _, ?_, fun e he => ?_⟩
      · have hlen := List.length_take_le (maxCompCount - 1) (tl.takeWhile CqEntry.isDone)
        exact Nat.succ_le_succ hlen
      · rcases List.mem_cons.1 he with rfl | he
        · rfl
        · exact List.mem_takeWhile_imp (List.mem_of_mem_take he)

/-- A send and a receive; the receive is done, the send fails. -/
def failedSend : List PolledAction :=
  let i : ProgressInput := ⟨[], [0, 0], 0, ⟨0, fun _ => 0, [], [], [], fun _ => []⟩⟩
  [.post (.user 0) (.send 10 2 1 true false), .post (.user 1) (.recv 20 8 1 false true),
    .progress i true, .enqueue (.done 1 8 1 5),
    .progress { i with arrivals := [[.failed 0 5]], answers := [], now := 6 } true]

def failedSendEnd : Polled :=
  (exec (polledStep inOrder Env.default) ⟨freshState {0} (fun _ => 0) 0, [], 0⟩ failedSend).get
    (by decide +kernel)

/-- The second call of `progress` has left the entry of the send in the queue. -/
theorem polled_refines_failedSend :
    failedSendEnd.cq = [.failed 0 5] ∧
      ∃ bs, exec (entryStep Env.default) (freshState {0} (fun _ => 0) 0) bs =
          some failedSendEnd.state ∧
        (bs.flatMap EntryAction.entries ++ failedSendEnd.cq.map CqEntry.event).Perm
          [.success 1 8 1 5, .error 0 5] :=
  ⟨by decide +kernel, polled_refines inOrder Env.default (fun _ => rfl) _ (Option.some_get _).symm⟩

/-- The next call takes it. -/
theorem progress_drains_failedSend :
    ([(⟨[], [], 7, ⟨7, fun _ => 7, [], [], [], fun _ => []⟩⟩, true)].foldl
      (fun p call => progressCall inOrder Env.default p call.1 call.2) failedSendEnd).cq = [] :=
  progress_drains inOrder Env.default failedSendEnd _ (by simp) (by decide +kernel)

end Impl
end Lfi
