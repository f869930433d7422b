/-
# From post to match

Two processes and the wire between them.  What the one posts with `async_send` goes through
its queues to the fabric (`Lfi.Impl.Trace`), which carries messages in order (`FI_ORDER_SAS`,
set in `set_hints`) and matches them at the other end with the receives that this one has
handed over from its queues (`Lfi.Runs.TagMatching`).

For one communicator and one tag all this is a single channel that is first in, first out:
the `k`-th message posted completes the `k`-th receive posted (`posts_match_in_order`),
whatever other posts, cancels, refusals and messages of third processes there are.  That is
what `Lfi.Runs.Batches` takes for granted of the channels of the collectives.

Of the fabric it is assumed that it is reliable and keeps the order between two endpoints, as
asked for by `FI_ORDER_SAS` (`Link.wire` is one queue), and that it matches as in
`Lfi.Runs.TagMatching`.  No third process sends under the value of the channel (`Undisturbed`):
that value has the rank of the sender in it.
-/

import Lfi.Impl.Posting
import Lfi.Impl.Tags
import Lfi.Runs.TagMatching

namespace Lfi
namespace Impl

open Runs Data

/-! ### A class of operations goes through the queues -/

/-- The operations the fabric has accepted, of both queues. -/
def accepted (es : List QueueEvent) : List LfiPendingOp :=
  es.filterMap fun e => match e with
    | .attempt a => if a.ret = 0 then some a.op else none
    | _ => none

/-- The operations put into either queue. -/
def submits (es : List QueueEvent) : List LfiPendingOp :=
  es.filterMap fun e => match e with
    | .submit _ op => some op
    | _ => none

/-- The event leaves the class `C` in its order: what is put into a queue goes to one of the
two, the fabric refuses none, and none of those in `ops` is cancelled. -/
def QueueEvent.Smooth (C : LfiPendingOp → Bool) (priority : Bool) (ops : List LfiPendingOp) :
    QueueEvent → Prop
  | .submit p op => C op = true → p = priority
  | .attempt a => C a.op = true → a.ret = 0 ∨ a.ret = -fiEagain
  | .erase ctx => ∀ op ∈ ops, C op = true → op.context ≠ ctx

instance (C : LfiPendingOp → Bool) (priority : Bool) (ops : List LfiPendingOp) :
    DecidablePred (QueueEvent.Smooth C priority ops)
  | .submit _ _ => inferInstanceAs (Decidable (_ → _))
  | .attempt _ => inferInstanceAs (Decidable (_ → _))
  | .erase _ => inferInstanceAs (Decidable (∀ op ∈ ops, _))

section Class

variable {env : Env} {C : LfiPendingOp → Bool} {b : Bool} {ops : List LfiPendingOp}
  {es : List QueueEvent} {q q' : Queues} {s t : State}

/-- What the fabric has accepted of the class, and what is left in the queue, is what was in
the queue and what was put into it. -/
structure Queues.Passes (C : LfiPendingOp → Bool) (b : Bool) (q q' : Queues)
    (es : List QueueEvent) : Prop where
  through : (accepted es).filter C ++ (q' b).toList.filter C =
    (q b).toList.filter C ++ (submits es).filter C
  other : (q' !b).toList.filter C = []
  within : ∀ op ∈ (q' b).toList, op ∈ (q b).toList ∨ op ∈ submits es

/-- A filter that takes none of a class. -/
theorem filter_filter_of_imp {p : LfiPendingOp → Bool} {l : List LfiPendingOp}
    (h : ∀ op ∈ l, C op = true → p op = true) : (l.filter p).filter C = l.filter C := by
  rw [List.filter_filter]
  refine List.filter_congr fun op hop => ?_
  cases hC : C op with
  | false => rfl
  | true => simpa using h op hop hC

theorem filter_singleton_of_not {op : LfiPendingOp} (h : ¬ C op = true) : [op].filter C = [] := by
  simpa using h

theorem Queues.holds_toList (hq : ∀ p, (q p).Wf) : q.Holds fun priority => (q priority).toList :=
  fun priority => ⟨hq priority, rfl⟩

theorem Queues.passes_submit {priority : Bool} {op : LfiPendingOp}
    (h : q.play (.submit priority op) = some q') (hq : ∀ p, (q p).Wf)
    (hother : (q !b).toList.filter C = []) (hs : C op = true → priority = b) :
    q.Passes C b q' [.submit priority op] ∧ ∀ p, (q' p).Wf := by
  obtain ⟨p, hp, hholds⟩ := (holds_toList hq).submit priority op
  obtain rfl := Option.some.inj (h.symm.trans hp)
  have hlist := fun priority => (hholds priority).2
  refine ⟨?_, fun priority => (hholds priority).1⟩
  have hacc : accepted [.submit priority op] = [] := rfl
  have hsub : submits [.submit priority op] = [op] := rfl
  by_cases hprio : priority = b
  · subst hprio
    have hb := hlist priority
    have hnb := hlist !priority
    rw [Function.update_self] at hb
    rw [Function.update_of_ne (Bool.not_ne_self priority)] at hnb
    refine ⟨?_, hnb ▸ hother, fun x hx => ?_⟩
    · rw [hacc, hsub, hb, List.filter_append, List.filter_nil, List.nil_append]
    · rw [hb] at hx
      exact List.mem_append.1 hx
  · -- an operation of another class
    have hC : ¬ C op = true := fun hC => hprio (hs hC)
    obtain rfl : priority = !b := Bool.eq_not_of_ne hprio
    have hb := hlist b
    have hnb := hlist !b
    rw [Function.update_of_ne (Bool.not_ne_self b).symm] at hb
    rw [Function.update_self] at hnb
    refine ⟨?_, ?_, fun x hx => .inl (hb ▸ hx)⟩
    · rw [hacc, hsub, hb, filter_singleton_of_not hC, List.append_nil, List.filter_nil,
        List.nil_append]
    · rw [hnb, List.filter_append, hother, filter_singleton_of_not hC]
      rfl

theorem Queues.passes_erase {ctx : ℕ} (h : q.play (.erase ctx) = some q') (hq : ∀ p, (q p).Wf)
    (hother : (q !b).toList.filter C = [])
    (hs : ∀ op ∈ (q b).toList, C op = true → op.context ≠ ctx) :
    q.Passes C b q' [.erase ctx] ∧ ∀ p, (q' p).Wf := by
  obtain ⟨p, hp, hholds⟩ := (holds_toList hq).erase ctx
  obtain rfl := Option.some.inj (h.symm.trans hp)
  have hlist := fun priority => (hholds priority).2
  refine ⟨⟨?_, ?_, fun x hx => .inl ?_⟩, fun priority => (hholds priority).1⟩
  · have hkeep : (q' b).toList.filter C = (q b).toList.filter C := by
      rw [hlist]
      exact filter_filter_of_imp fun op hop hC => by simpa using hs op hop hC
    rw [hkeep]
    exact (List.append_nil _).symm
  · rw [hlist, List.filter_comm, hother]
    rfl
  · rw [hlist] at hx
    exact List.mem_of_mem_filter hx

/-- What an attempt has at the front of its queue. -/
theorem Queues.play_attempt {a : Attempt} (h : q.play (.attempt a) = some q')
    (hq : ∀ p, (q p).Wf) : ∃ rest, (q a.priority).toList = a.op :: rest ∧
      q'.Holds (Function.update (fun p => (q p).toList) a.priority
        (if a.ret = -fiEagain then a.op :: rest else rest)) := by
  have hcond := h
  simp only [play] at hcond
  split at hcond
  case isFalse => cases hcond
  case isTrue hfront =>
    obtain ⟨hne, hfront, hprio⟩ := hfront
    have hnil : (q a.priority).toList ≠ [] := fun hnil => by
      rw [VectorQueue.toList_eq_nil.1 hnil] at hne
      cases hne
    have hhead := (hq a.priority).front hnil
    rw [hfront] at hhead
    have hlist := (List.cons_head?_tail hhead).symm
    obtain ⟨p, hp, hholds⟩ := (holds_toList hq).attempt (a := a) hlist fun hf =>
      VectorQueue.toList_eq_nil.2 (hprio hf)
    obtain rfl := Option.some.inj (h.symm.trans hp)
    exact ⟨_, hlist, hholds⟩

theorem Queues.passes_attempt {a : Attempt} (h : q.play (.attempt a) = some q')
    (hq : ∀ p, (q p).Wf) (hother : (q !b).toList.filter C = [])
    (hs : C a.op = true → a.ret = 0 ∨ a.ret = -fiEagain) :
    q.Passes C b q' [.attempt a] ∧ ∀ p, (q' p).Wf := by
  obtain ⟨rest, hfront, hholds⟩ := Queues.play_attempt h hq
  have hlist := fun priority => (hholds priority).2
  refine ⟨?_, fun priority => (hholds priority).1⟩
  have hsub : (submits [.attempt a]).filter C = [] := rfl
  by_cases hstall : a.ret = -fiEagain
  · -- the queue is as before
    have hsame : ∀ priority, (q' priority).toList = (q priority).toList := fun priority => by
      rw [hlist, if_pos hstall, ← hfront, Function.update_eq_self]
    have hacc : accepted [.attempt a] = [] := by simp [accepted, hstall, fiEagain]
    refine ⟨?_, (hsame !b).symm ▸ hother, fun x hx => .inl (hsame b ▸ hx)⟩
    rw [hacc, hsub, hsame, List.append_nil]
    rfl
  · simp only [if_neg hstall] at hlist
    have hacc : (accepted [.attempt a]).filter C = [a.op].filter C := by
      by_cases hC : C a.op = true
      · simp [accepted, (hs hC).resolve_right hstall]
      · by_cases h0 : a.ret = 0
        · simp [accepted, h0]
        · simp [accepted, h0, hC]
    by_cases hprio : a.priority = b
    · subst hprio
      have hb := hlist a.priority
      have hnb := hlist !a.priority
      rw [Function.update_self] at hb
      rw [Function.update_of_ne (Bool.not_ne_self _)] at hnb
      refine ⟨?_, hnb ▸ hother, fun x hx => .inl ?_⟩
      · rw [hacc, hsub, hb, hfront, List.append_nil, ← List.filter_append, List.singleton_append]
      · rw [hfront]
        exact List.mem_cons_of_mem _ (hb ▸ hx)
    · -- the front of the other queue is of another class
      have hprio := Bool.eq_not_of_ne hprio
      rw [hprio] at hfront hlist
      have hb := hlist b
      have hnb := hlist !b
      rw [Function.update_of_ne (Bool.not_ne_self b).symm] at hb
      rw [Function.update_self] at hnb
      rw [hfront] at hother
      have hC : ¬ C a.op = true := fun hC => by
        rw [List.filter_cons_of_pos hC] at hother
        cases hother
      rw [List.filter_cons_of_neg hC] at hother
      refine ⟨?_, hnb ▸ hother, fun x hx => .inl (hb ▸ hx)⟩
      rw [hacc, hsub, hb, filter_singleton_of_not hC, List.append_nil, List.nil_append]

/-- An event at the queues that leaves the class in order. -/
theorem Queues.passes_event {e : QueueEvent} (h : q.play e = some q') (hq : ∀ p, (q p).Wf)
    (hother : (q !b).toList.filter C = []) (hs : e.Smooth C b ops)
    (hops : ∀ op ∈ (q b).toList, op ∈ ops) : q.Passes C b q' [e] ∧ ∀ p, (q' p).Wf := by
  cases e with
  | submit priority op => exact passes_submit h hq hother hs
  | attempt a => exact passes_attempt h hq hother hs
  | erase ctx => exact passes_erase h hq hother fun op hop => hs op (hops op hop)

/-- **What is put into the queue comes out in the same order**, or is still there. -/
theorem Queues.passes (h : exec Queues.play q es = some q') (hq : ∀ p, (q p).Wf)
    (hother : (q !b).toList.filter C = []) (hs : ∀ e ∈ es, e.Smooth C b ops)
    (hops : ∀ op ∈ (q b).toList ++ submits es, op ∈ ops) : q.Passes C b q' es := by
  induction es generalizing q with
  | nil =>
      obtain rfl := Option.some.inj h
      exact ⟨(List.append_nil _).symm, hother, fun _ => .inl⟩
  | cons e es ih =>
      obtain ⟨p, hp, hexec⟩ := Option.bind_eq_some_iff.1 h
      have hacc : accepted (e :: es) = accepted [e] ++ accepted es :=
        List.filterMap_append (l := [e]) ..
      have hsub : submits (e :: es) = submits [e] ++ submits es :=
        List.filterMap_append (l := [e]) ..
      rw [hsub] at hops
      obtain ⟨hone, hwf⟩ := passes_event hp hq hother (hs e (List.mem_cons_self ..)) fun op hop =>
        hops op (List.mem_append_left _ hop)
      have hrest := ih hexec hwf hone.other (fun e' he' => hs e' (List.mem_cons_of_mem _ he'))
        fun op hop => hops op (by
          rcases List.mem_append.1 hop with hop | hop
          · rcases hone.within op hop with hop | hop
            · exact List.mem_append_left _ hop
            · exact List.mem_append_right _ (List.mem_append_left _ hop)
          · exact List.mem_append_right _ (List.mem_append_right _ hop))
      refine ⟨?_, hrest.other, fun op hop => ?_⟩
      · rw [hacc, hsub, List.filter_append, List.filter_append, List.append_assoc, hrest.through,
          ← List.append_assoc, hone.through, List.append_assoc]
      · rw [hsub]
        rcases hrest.within op hop with hop | hop
        · exact (hone.within op hop).imp_right (List.mem_append_left _)
        · exact .inr (List.mem_append_right _ hop)

/-- Every content of the queues is that of two ring buffers. -/
theorem Queues.exists_holds (ops : Bool → List LfiPendingOp) : ∃ q : Queues, q.Holds ops := by
  have hone : ∀ xs : List LfiPendingOp, ∃ v : VectorQueue LfiPendingOp,
      v.Wf ∧ v.toList = xs := by
    intro xs
    induction xs using List.reverseRecOn with
    | nil => exact ⟨VectorQueue.new 64, VectorQueue.wf_new (by decide), VectorQueue.toList_new 64⟩
    | append_singleton xs op ih =>
        obtain ⟨v, hv, hlist⟩ := ih
        exact ⟨v.push op, (hv.push op).1, hlist ▸ (hv.push op).2⟩
  choose f hf using hone
  exact ⟨fun priority => f (ops priority), fun priority => hf (ops priority)⟩

/-- An action that cancels submits nothing. -/
theorem submits_of_erase {a : OpAction} {ctx : ℕ} (h : .erase ctx ∈ stepTrace env s a) :
    submits (stepTrace env s a) = [] := by
  have hnone : (∀ e ∈ stepTrace env s a, ∀ p op, e ≠ .submit p op) →
      submits (stepTrace env s a) = [] := fun hno => by
    refine List.filterMap_eq_nil_iff.2 fun e he => ?_
    cases e with
    | submit p op => exact absurd rfl (hno _ he p op)
    | attempt a => rfl
    | erase ctx => rfl
  cases a with
  | create r c => rfl
  | post r call =>
      rcases asyncPost_trace env s r call with ⟨-, htrace⟩ |
        ⟨q, f, o, priority, op, -, -, -, -, -, -, -, htrace⟩
      · rw [stepTrace, htrace] at h
        cases h
      · rw [stepTrace, htrace] at h
        cases List.mem_singleton.1 h
  | fabric e =>
      obtain ⟨a, ha⟩ := eventTrace_attempt h
      cases ha
  | cancel r events => exact hnone (cancelTrace_submits s r events)
  | free r events =>
      refine hnone ?_
      rw [stepTrace, freeTrace]
      cases s.core.requests r with
      | none => exact fun e he => absurd he List.not_mem_nil
      | some q =>
          dsimp only
          split
          case isTrue => exact fun e he => absurd he List.not_mem_nil
          case isFalse => exact cancelTrace_submits s r events

/-- **What an action does to a class.**  The fabric gets it in the order of the posts, and what
it has not got is still in the queue. -/
theorem opStep_class {a : OpAction} (ht : opStep env s a = some t)
    (hother : (s.core.queue !b).filter C = [])
    (hs : ∀ e ∈ stepTrace env s a, e.Smooth C b s.core.ops) :
    (accepted (stepTrace env s a)).filter C ++ (t.core.queue b).filter C =
        (s.core.queue b).filter C ++ (submits (stepTrace env s a)).filter C ∧
      (t.core.queue !b).filter C = [] := by
  obtain ⟨q, hq⟩ := Queues.exists_holds s.core.queue
  obtain ⟨q', hplay, hq'⟩ := hq.opStep ht
  have hqueue : ∀ op ∈ s.core.queue b, op ∈ s.core.ops := by
    intro op hop
    unfold Core.queue at hop
    split at hop
    · exact List.mem_append_left _ (List.mem_append_left _ hop)
    · exact List.mem_append_left _ (List.mem_append_right _ hop)
  -- what is submitted need not be among the operations: an action that cancels submits nothing
  have hops : ∀ op ∈ (q b).toList ++ submits (stepTrace env s a),
      op ∈ s.core.ops ++ submits (stepTrace env s a) := by
    intro op hop
    rw [(hq b).2] at hop
    rcases List.mem_append.1 hop with hop | hop
    · exact List.mem_append_left _ (hqueue op hop)
    · exact List.mem_append_right _ hop
  have hsmooth : ∀ e ∈ stepTrace env s a,
      e.Smooth C b (s.core.ops ++ submits (stepTrace env s a)) := by
    intro e he
    cases e with
    | submit p op => exact hs _ he
    | attempt a => exact hs _ he
    | erase ctx =>
        rw [submits_of_erase he, List.append_nil]
        exact hs _ he
  have hclass := Queues.passes hplay (fun p => (hq p).1) ((hq _).2.symm ▸ hother) hsmooth hops
  have hthrough := hclass.through
  have hrest := hclass.other
  rw [(hq b).2, (hq' b).2] at hthrough
  rw [(hq' !b).2] at hrest
  exact ⟨hthrough, hrest⟩

end Class

/-! ### Two processes and a wire -/

/-- `fi_tsend`, `fi_tsendv` and `fi_tinject`. -/
def PendingType.sends : PendingType → Bool
  | .send | .sendv | .inject => true
  | .recv | .recvv | .put | .get => false

/-- `fi_trecv` and `fi_trecvv`. -/
def PendingType.receives : PendingType → Bool
  | .recv | .recvv => true
  | .send | .sendv | .inject | .put | .get => false

instance : DecidableRel TagMatches := fun _ _ => inferInstanceAs (Decidable (_ = _))

/-- The sender, the receiver, the messages between them and what the fabric has matched for
the receiver.  The last two fields are history: what was put into the queues of either. -/
structure Link where
  sender : State
  receiver : State
  wire : List LfiPendingOp
  engine : Matcher LfiPendingOp LfiPendingOp
  sent : List LfiPendingOp
  wanted : List LfiPendingOp

/-- An action of either process, a message that arrives, or one of a third process. -/
inductive LinkAction where
  | sender (a : OpAction)
  | receiver (a : OpAction)
  | arrive
  | foreign (m : LfiPendingOp)

/-- Which environments the two have, and the address of the receiver. -/
structure LinkConfig where
  senderEnv : Env
  receiverEnv : Env
  addr : ℕ

/-- Something reaches the fabric of the receiver. -/
def Link.reach (s : Link) (a : Arrival LfiPendingOp LfiPendingOp) : Link :=
  { s with engine := s.engine.step (fun m r => decide (TagMatches m r)) a }

/-- One step.  The sends to the receiver that the fabric accepts are on the wire in that
order; the receives it accepts are posted. -/
def linkStep (cfg : LinkConfig) (s : Link) : LinkAction → Option Link
  | .sender a =>
      (opStep cfg.senderEnv s.sender a).map fun t =>
        let es := stepTrace cfg.senderEnv s.sender a
        { s with
          sender := t
          wire := s.wire ++ (accepted es).filter fun op => op.type.sends && op.addr == cfg.addr
          sent := s.sent ++ submits es }
  | .receiver a =>
      (opStep cfg.receiverEnv s.receiver a).map fun t =>
        let es := stepTrace cfg.receiverEnv s.receiver a
        ((accepted es).filter fun op => op.type.receives).foldl
          (fun s r => s.reach (.receive r))
          { s with receiver := t, wanted := s.wanted ++ submits es }
  | .arrive =>
      match s.wire with
      | [] => none
      | m :: wire => some ({ s with wire := wire }.reach (.message m))
  | .foreign m => some (s.reach (.message m))

/-- Nothing is under way between the two. -/
structure Link.Start (s : Link) : Prop where
  sender : Fresh s.sender
  receiver : Fresh s.receiver
  rest : s.wire = [] ∧ s.engine = Matcher.empty ∧ s.sent = [] ∧ s.wanted = []

section Channel

variable (cfg : LinkConfig) (x : BitVec 64)

/-- The tag of the 64 bits is `x`. -/
def LfiPendingOp.tagged (op : LfiPendingOp) : Bool := BitVec.ofNat 64 op.tagRemoteAddr == x

/-- A message to the receiver with the tag `x`. -/
def channelSend (op : LfiPendingOp) : Bool :=
  (op.type.sends && op.addr == cfg.addr) && op.tagged x

/-- A receive with the tag `x` of which nothing is ignored. -/
def channelRecv (op : LfiPendingOp) : Bool :=
  op.type.receives && (op.ignoreRemoteKey == 0 && op.tagged x)

/-- A receive that is exact, or does not accept the tag `x`. -/
def Apart (op : LfiPendingOp) : Prop :=
  op.ignoreRemoteKey = 0 ∨
    x &&& ~~~BitVec.ofNat 64 op.ignoreRemoteKey ≠
      BitVec.ofNat 64 op.tagRemoteAddr &&& ~~~BitVec.ofNat 64 op.ignoreRemoteKey

instance (op : LfiPendingOp) : Decidable (Apart x op) := inferInstanceAs (Decidable (_ ∨ _))

/-- Nothing is done to the channel but posts: what is posted on it goes to one queue at each
end, nothing of it is refused or cancelled, nobody else sends under its tag, and no receive
from any communicator has its tag. -/
def Undisturbed (sendQueue recvQueue : Bool) (s : Link) : LinkAction → Prop
  | .sender a =>
      ∀ e ∈ stepTrace cfg.senderEnv s.sender a,
        e.Smooth (channelSend cfg x) sendQueue s.sender.core.ops
  | .receiver a =>
      (∀ e ∈ stepTrace cfg.receiverEnv s.receiver a,
          e.Smooth (channelRecv x) recvQueue s.receiver.core.ops) ∧
        ∀ op ∈ accepted (stepTrace cfg.receiverEnv s.receiver a), op.type.receives = true →
          Apart x op
  | .arrive => True
  | .foreign m => m.tagged x = false

instance (sendQueue recvQueue : Bool) (s : Link) :
    DecidablePred (Undisturbed cfg x sendQueue recvQueue s)
  | .sender _ => inferInstanceAs (Decidable (∀ e ∈ _, _))
  | .receiver _ => inferInstanceAs (Decidable (_ ∧ _))
  | .arrive => inferInstanceAs (Decidable True)
  | .foreign _ => inferInstanceAs (Decidable (_ = _))

/-- With nothing ignored the tags are equal. -/
theorem tagMatches_of_exact {m r : LfiPendingOp} (h : r.ignoreRemoteKey = 0) :
    TagMatches m r ↔ BitVec.ofNat 64 m.tagRemoteAddr = BitVec.ofNat 64 r.tagRemoteAddr := by
  have hzero : ~~~(0 : BitVec 64) = BitVec.allOnes 64 := rfl
  rw [TagMatches, h, show BitVec.ofNat 64 0 = 0 from rfl, hzero, BitVec.and_allOnes,
    BitVec.and_allOnes]

/-- What a post submits. -/
theorem submitTrace_post (env : Env) (s : State) (r : ReqId) (c : CommId) (f : RequestFields)
    (o : OpFields) (priority : Bool) :
    ∃ op, submitTrace s.core (post env s r c f o priority).core = [.submit priority op] ∧
      op.type = o.type ∧ op.addr = o.addr ∧ op.tagRemoteAddr = o.tagRemoteAddr ∧
      op.ignoreRemoteKey = o.ignoreRemoteKey := by
  refine ⟨⟨o.type, o.buf, o.len, o.addr, o.tagRemoteAddr, o.ignoreRemoteKey,
    (createContext (reset s.core r) r).1, r, s.core.posts⟩, ?_, rfl, rfl, rfl, rfl⟩
  obtain ⟨contexts, pool, created, hcreate⟩ := createContext_eq (reset s.core r) r
  obtain ⟨requests, contexts', hreset⟩ := reset_eq s.core r
  have hprio : (createContext (reset s.core r) r).2.priorityOps = s.core.priorityOps := by
    rw [hcreate, hreset]
  have hpend : (createContext (reset s.core r) r).2.pendingOps = s.core.pendingOps := by
    rw [hcreate, hreset]
  have hposts : (createContext (reset s.core r) r).2.posts = s.core.posts := by
    rw [hcreate, hreset]
  cases priority with
  | true => simp [post, postCore, pushOp, Core.setRequest, hprio, hpend, hposts, submitTrace]
  | false => simp [post, postCore, pushOp, Core.setRequest, hprio, hpend, hposts, submitTrace]

theorem address_bits_inj {c d t u : BitVec 32} :
    BitVec.ofNat 64 (address c t) = BitVec.ofNat 64 (address d u) ↔ c = d ∧ t = u := by
  rw [← BitVec.toNat_inj, BitVec.toNat_ofNat, BitVec.toNat_ofNat,
    Nat.mod_eq_of_lt (address_lt c t), Nat.mod_eq_of_lt (address_lt d u), address_inj]

/-- **A send is on the channel of its communicator and its tag**, and on no other. -/
theorem send_on_channel {env : Env} {s : State} {r : ReqId} {q : LfiRequest} {buffer size : ℕ}
    {k t : BitVec 32} {vector priority : Bool} (hq : s.core.requests r = some q)
    (hrank : (s.ft.comm q.commId).rankSelfInPeer = k.toNat)
    (haddr : (s.ft.comm q.commId).fiAddr = cfg.addr)
    (h : (asyncPost env s r (.send buffer size t.toNat vector priority)).1 = lfiSuccess) :
    ∃ op, stepTrace env s (.post r (.send buffer size t.toNat vector priority)) =
        [.submit priority op] ∧
      ∀ d u : BitVec 32, channelSend cfg (BitVec.ofNat 64 (address d u)) op = true ↔
        k = d ∧ t = u := by
  have hpost := withComm_success hq h
  simp only [stepTrace, asyncPost, asyncSend] at h hpost ⊢
  rw [hpost] at h ⊢
  by_cases hany : isAnyComm q.commId = true
  · rw [if_pos hany] at h
    exact absurd h (show -lfiSendAnyComm ≠ lfiSuccess by decide)
  · rw [if_neg hany] at h ⊢
    split at h
    case isTrue => exact absurd h (show -lfiIovLimit ≠ lfiSuccess by decide)
    case isFalse hiov =>
      rw [if_neg hiov]
      obtain ⟨op, htrace, htype, hop, htag, -⟩ := submitTrace_post env s r q.commId
        ⟨if env.useInject ∧ vector = false ∧ size ≤ env.injectSize then .inject else .send, size,
          t.toNat, q.commId⟩
        ⟨if env.useInject ∧ vector = false ∧ size ≤ env.injectSize then .inject
          else if vector then .sendv else .send, buffer, size, (s.ft.comm q.commId).fiAddr,
          ((s.ft.comm q.commId).rankSelfInPeer <<< maskRankBytes) ||| t.toNat, 0⟩ priority
      refine ⟨op, htrace, fun d u => ?_⟩
      have hsends : op.type.sends = true := by
        rw [htype]
        dsimp only
        split_ifs <;> rfl
      have hbits : op.tagRemoteAddr = address k t := by rw [htag, hrank, address]
      rw [channelSend, hsends, hop, haddr, LfiPendingOp.tagged, hbits]
      simpa using address_bits_inj

/-- **A receive on a communicator is on the channel of the two**, one from any communicator on
none. -/
theorem recv_on_channel {env : Env} {s : State} {r : ReqId} {q : LfiRequest} {buffer size : ℕ}
    {c t : BitVec 32} {vector priority : Bool} (hq : s.core.requests r = some q)
    (hcomm : q.commId = c.toNat)
    (h : (asyncPost env s r (.recv buffer size t.toNat vector priority)).1 = lfiSuccess) :
    ∃ op, stepTrace env s (.post r (.recv buffer size t.toNat vector priority)) =
        [.submit priority op] ∧
      ∀ d u : BitVec 32, channelRecv (BitVec.ofNat 64 (address d u)) op = true ↔
        isAnyComm q.commId = false ∧ c = d ∧ t = u := by
  have hpost := withComm_success hq h
  simp only [stepTrace, asyncPost, asyncRecv] at h hpost ⊢
  rw [hpost] at h ⊢
  split at h
  case isTrue => exact absurd h (show -lfiIovLimit ≠ lfiSuccess by decide)
  case isFalse hiov =>
    rw [if_neg hiov]
    obtain ⟨op, htrace, htype, -, htag, hignore⟩ := submitTrace_post env s r q.commId
      ⟨.recv, size, t.toNat, q.commId⟩
      ⟨if vector then .recvv else .recv, buffer, size, (s.ft.comm q.commId).fiAddr,
        (q.commId <<< maskRankBytes) ||| t.toNat, if isAnyComm q.commId then maskRank else 0⟩
      priority
    refine ⟨op, htrace, fun d u => ?_⟩
    have hrecv : op.type.receives = true := by
      rw [htype]
      cases vector <;> rfl
    have hbits : op.tagRemoteAddr = address c t := by rw [htag, hcomm, address]
    rw [channelRecv, hrecv, hignore, LfiPendingOp.tagged, hbits]
    cases isAnyComm q.commId with
    | true => simp [maskRank]
    | false => simpa using address_bits_inj

/-- The messages and receives of the channel are a class of their own. -/
def channelClass : Class fun (m r : LfiPendingOp) => decide (TagMatches m r) where
  message m := m.tagged x
  receive r := r.ignoreRemoteKey == 0 && r.tagged x
  occurs _ := True
  posts r := Apart x r
  accepts_iff m r _ hr h := by
    simp only [LfiPendingOp.tagged, decide_eq_true_iff, Bool.and_eq_true, beq_iff_eq] at h ⊢
    by_cases hexact : r.ignoreRemoteKey = 0
    · rw [tagMatches_of_exact hexact]
      rcases h with rfl | ⟨-, rfl⟩
      · exact ⟨fun h => ⟨rfl, hexact, h.symm⟩, fun h => h.2.2.symm⟩
      · exact ⟨fun h => ⟨h, hexact, rfl⟩, fun h => h.1⟩
    · obtain rfl := h.resolve_right fun h => hexact h.1
      exact iff_of_false (hr.resolve_left hexact) fun h => hexact h.2.1

variable {cfg : LinkConfig} {x : BitVec 64} {p b : Bool} {s t : Link}

/-- What was put into the queues of the two is, for the channel, what has reached the matching
engine, what is on the wire and what is still in the queues. -/
structure LinkInv (cfg : LinkConfig) (x : BitVec 64) (p b : Bool) (s : Link)
    (ms rs : List LfiPendingOp) : Prop where
  fifo : Fifo (channelClass x) s.engine ms rs
  wire : ∀ m ∈ s.wire, (m.type.sends && m.addr == cfg.addr) = true
  sent : s.sent.filter (channelSend cfg x) =
    ms ++ s.wire.filter (·.tagged x) ++ (s.sender.core.queue p).filter (channelSend cfg x)
  wanted : s.wanted.filter (channelRecv x) =
    rs ++ (s.receiver.core.queue b).filter (channelRecv x)
  senderOther : (s.sender.core.queue !p).filter (channelSend cfg x) = []
  receiverOther : (s.receiver.core.queue !b).filter (channelRecv x) = []

theorem queue_of_fresh {s : State} (h : Fresh s) (priority : Bool) :
    s.core.queue priority = [] := by
  cases priority
  · exact h.pendingOps
  · exact h.priorityOps

theorem Link.Start.inv (h : s.Start) : LinkInv cfg x p b s [] [] where
  fifo := by
    rw [h.rest.2.1]
    exact fifo_empty _
  wire := by
    rw [h.rest.1]
    exact fun _ hm => absurd hm List.not_mem_nil
  sent := by rw [h.rest.2.2.1, h.rest.1, queue_of_fresh h.sender]; rfl
  wanted := by rw [h.rest.2.2.2, queue_of_fresh h.receiver]; rfl
  senderOther := by rw [queue_of_fresh h.sender]; rfl
  receiverOther := by rw [queue_of_fresh h.receiver]; rfl

/-- The receives that reach the engine one after the other. -/
theorem reach_foldl (l : List LfiPendingOp) (s : Link) :
    l.foldl (fun s r => s.reach (.receive r)) s =
      { s with engine := (l.foldl (fun s r => s.reach (.receive r)) s).engine } := by
  induction l generalizing s with
  | nil => rfl
  | cons r l ih => rw [List.foldl_cons, ih]; rfl

theorem fifo_receives {l : List LfiPendingOp} {ms rs : List LfiPendingOp} {s : Link}
    (h : Fifo (channelClass x) s.engine ms rs) (hl : ∀ r ∈ l, Apart x r) :
    Fifo (channelClass x) (l.foldl (fun s r => s.reach (.receive r)) s).engine ms
      (rs ++ l.filter (channelClass x).receive) := by
  induction l generalizing s rs with
  | nil => simpa using h
  | cons r l ih =>
      have hone := h.step (a := .receive r) (hl r (List.mem_cons_self ..))
      rw [Class.messages, List.append_nil, Class.receives] at hone
      have hrest := ih (s := s.reach (.receive r)) hone fun x hx => hl x (List.mem_cons_of_mem _ hx)
      rw [List.append_assoc] at hrest
      rw [List.foldl_cons, List.filter_cons]
      split at hrest
      case isTrue hr => rw [if_pos hr]; exact hrest
      case isFalse hr => rw [if_neg hr]; exact hrest

theorem filter_channelSend (l : List LfiPendingOp) :
    (l.filter fun op => op.type.sends && op.addr == cfg.addr).filter (·.tagged x) =
      l.filter (channelSend cfg x) := by
  rw [List.filter_filter]
  exact List.filter_congr fun op _ => Bool.and_comm ..

theorem filter_channelRecv (l : List LfiPendingOp) :
    (l.filter fun op => op.type.receives).filter (channelClass x).receive =
      l.filter (channelRecv x) := by
  rw [List.filter_filter]
  exact List.filter_congr fun op _ => Bool.and_comm ..

/-- **A step that does not disturb the channel keeps its order.** -/
theorem LinkInv.step {ms rs : List LfiPendingOp} (h : LinkInv cfg x p b s ms rs) {a : LinkAction}
    (hG : Undisturbed cfg x p b s a) (ht : linkStep cfg s a = some t) :
    ∃ ms' rs', LinkInv cfg x p b t ms' rs' := by
  cases a with
  | sender a =>
      obtain ⟨u, hu, rfl⟩ := Option.map_eq_some_iff.1 ht
      obtain ⟨hqueue, hother⟩ := opStep_class hu h.senderOther hG
      refine ⟨ms, rs, h.fifo, fun m hm => ?_, ?_, h.wanted, hother, h.receiverOther⟩
      · rcases List.mem_append.1 hm with hm | hm
        · exact h.wire m hm
        · exact (List.mem_filter.1 hm).2
      · dsimp only
        rw [List.filter_append, h.sent, List.filter_append, filter_channelSend,
          List.append_assoc _ (List.filter _ (s.sender.core.queue p)), ← hqueue]
        simp only [List.append_assoc]
  | receiver a =>
      obtain ⟨u, hu, rfl⟩ := Option.map_eq_some_iff.1 ht
      obtain ⟨hqueue, hother⟩ := opStep_class hu h.receiverOther hG.1
      have hfifo := fifo_receives (s := { s with
          receiver := u
          wanted := s.wanted ++ submits (stepTrace cfg.receiverEnv s.receiver a) })
        (l := (accepted (stepTrace cfg.receiverEnv s.receiver a)).filter fun op =>
          op.type.receives) h.fifo fun r hr =>
            hG.2 r (List.mem_of_mem_filter hr) (List.mem_filter.1 hr).2
      rw [filter_channelRecv] at hfifo
      rw [reach_foldl]
      refine ⟨ms, _, hfifo, h.wire, h.sent, ?_, h.senderOther, hother⟩
      dsimp only
      rw [List.filter_append, h.wanted, List.append_assoc, ← hqueue, List.append_assoc]
  | arrive =>
      simp only [linkStep] at ht
      split at ht
      case h_1 => cases ht
      case h_2 m wire hwire =>
        obtain rfl := Option.some.inj ht
        have hfifo := h.fifo.step (a := .message m) trivial
        rw [Class.receives, List.append_nil] at hfifo
        have hsent := h.sent
        have hin := h.wire
        rw [hwire] at hsent hin
        refine ⟨_, rs, hfifo, fun m' hm' => hin m' (List.mem_cons_of_mem _ hm'), ?_, h.wanted,
          h.senderOther, h.receiverOther⟩
        dsimp only [Link.reach]
        rw [hsent, Class.messages]
        show _ = ms ++ (if m.tagged x = true then [m] else []) ++ _ ++ _
        cases hm : m.tagged x with
        | true => simp [hm]
        | false => simp [hm]
  | foreign m =>
      obtain rfl := Option.some.inj ht
      have hfifo := h.fifo.step (a := .message m) trivial
      have hm : (channelClass x).message m = false := hG
      rw [Class.receives, List.append_nil, Class.messages, hm] at hfifo
      simp only [Bool.false_eq_true, if_false, List.append_nil] at hfifo
      exact ⟨ms, rs, hfifo, h.wire, h.sent, h.wanted, h.senderOther, h.receiverOther⟩

/-- **Posts match in order.**  In every run in which nothing but posts is done to a channel, and no
third process sends under its value, what was matched on it is its first message with its first
receive and so on, in the order in which the two processes posted them; what of either is left
over is on the wire or in its queue. -/
theorem posts_match_in_order (cfg : LinkConfig) (x : BitVec 64) (sendQueue recvQueue : Bool)
    {s₀ s : Link} (h₀ : s₀.Start) {as : List LinkAction} (h : exec (linkStep cfg) s₀ as = some s)
    (hG : Meets (linkStep cfg) (Undisturbed cfg x sendQueue recvQueue) s₀ as) :
    ∃ ms rs,
      ms ++ s.wire.filter (·.tagged x) ++
          (s.sender.core.queue sendQueue).filter (channelSend cfg x) =
        s.sent.filter (channelSend cfg x) ∧
      rs ++ (s.receiver.core.queue recvQueue).filter (channelRecv x) =
        s.wanted.filter (channelRecv x) ∧
      s.engine.matched.filter (fun e => e.1.tagged x) = ms.zip rs ∧
      ∀ e ∈ s.engine.matched, e.1.tagged x = (e.2.ignoreRemoteKey == 0 && e.2.tagged x) := by
  have hinv : ∃ ms rs, LinkInv cfg x sendQueue recvQueue s ms rs :=
    (always_of_meets (P := fun s => ∃ ms rs, LinkInv cfg x sendQueue recvQueue s ms rs)
      (fun s a t hs hg ht => by
        obtain ⟨ms, rs, hs⟩ := hs
        exact hs.step hg ht) ⟨[], [], h₀.inv⟩ hG).last h
  obtain ⟨ms, rs, hinv⟩ := hinv
  exact ⟨ms, rs, hinv.sent.symm, hinv.wanted.symm, hinv.fifo.matched, hinv.fifo.paired⟩

end Channel

/-- The address of the receiver is 0. -/
def toZero : LinkConfig := ⟨Env.default, Env.default, 0⟩

def quietLink : Link :=
  ⟨freshState {0} (fun _ => 0) 0, freshState {0} (fun _ => 0) 0, [], Matcher.empty, [], []⟩

/-- Two messages, the first of which the fabric stalls once, another tag between them, and the
receives, one before and one after the messages have arrived. -/
def twoMessages : List LinkAction :=
  [.sender (.post (.user 0) (.send 10 2 1 true false)),
    .sender (.fabric (.postPendingOps [-fiEagain] 0)),
    .sender (.post (.user 1) (.send 11 2 2 true true)),
    .sender (.post (.user 2) (.send 12 2 1 true false)),
    .receiver (.post (.user 0) (.recv 20 64 1 false false)),
    .receiver (.fabric (.postPendingOps [0] 0)),
    .sender (.fabric (.postPendingOps [0, 0, 0] 0)), .arrive, .arrive, .arrive,
    .receiver (.post (.user 1) (.recv 21 64 1 false false)),
    .receiver (.fabric (.postPendingOps [0] 0))]

def twoMessagesEnd : Link := (exec (linkStep toZero) quietLink twoMessages).get (by decide)

/-- Both messages are with their receives. -/
theorem posts_match_in_order_twice :
    ∃ ms rs,
      ms ++ twoMessagesEnd.wire.filter (·.tagged 1) ++
          (twoMessagesEnd.sender.core.queue false).filter (channelSend toZero 1) =
        twoMessagesEnd.sent.filter (channelSend toZero 1) ∧
      rs ++ (twoMessagesEnd.receiver.core.queue false).filter (channelRecv 1) =
        twoMessagesEnd.wanted.filter (channelRecv 1) ∧
      twoMessagesEnd.engine.matched.filter (fun e => e.1.tagged 1) = ms.zip rs ∧
      ∀ e ∈ twoMessagesEnd.engine.matched,
        e.1.tagged 1 = (e.2.ignoreRemoteKey == 0 && e.2.tagged 1) :=
  posts_match_in_order toZero 1 false false
    ⟨fresh_freshState .., fresh_freshState .., rfl, rfl, rfl, rfl⟩ (Option.some_get _).symm
    (by decide)

end Impl
end Lfi
