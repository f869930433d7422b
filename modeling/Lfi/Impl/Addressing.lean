/-
# Operations to a peer carry its address

The handshakes of `src/src/impl/connection.cpp` as far as the address of the peer goes,
`register_addr` of `src/src/impl/address.cpp`, and the posts on the communicators they
make.  A communicator starts with `FI_ADDR_UNSPEC`; the any-comms keep it, and so does one
whose handshake fails before `register_addr` or whose address `fi_av_insert` does not
take.  `register_addr` answers that with the number of addresses inserted, 0, and both
handshakes look for a negative number.

A put or a get is posted on whatever communicator its request has, and a send on whatever
is no any-comm, so that an operation may be queued with no address to go to.
`peered_iff` says in which runs that does not happen.
-/

import Lfi.Impl.AllOrNothing
import Lfi.Impl.Posting

namespace Lfi
namespace Impl

open Runs

/-- `FI_ADDR_UNSPEC`. -/
def fiAddrUnspec : ℕ := 2 ^ 64 - 1

/-- `lfi_comm(endpoint)`. -/
def LfiComm.new (now : ℤ) : LfiComm :=
  ⟨0, fiAddrUnspec, .empty, 0, now, .idle, 0, 0, ⟨-1, -1⟩, false⟩

/-- `register_addr(lfi_comm, addr)`: what it returns, and the communicator.  `fi_av_insert`
is asked to insert one address and returns how many it has inserted; `inserted` is the
`fi_addr` it writes when that is one. -/
def registerAddr (inserted : Option ℕ) (x : LfiComm) : ℤ × LfiComm :=
  match inserted with
  | some addr => (1, { x with fiAddr := addr })
  | none => (0, x)

/-- How far the handshake of a communicator is: before `register_addr`, behind it, over, or
given up.  `get_comm` hands the communicator out in the last three. -/
inductive HandshakeStage where
  | connecting
  | addressed
  | ready
  | failed
  deriving DecidableEq, Repr

/-- An endpoint with the handshakes on it.  `stored` and `postedOn` are history: the address
that a successful `register_addr` stored for a communicator, and the communicator of a
post. -/
structure Addressed where
  ep : State
  stage : CommId → Option HandshakeStage
  stored : CommId → Option ℕ
  postedOn : ℕ → CommId

/-- The steps of the handshakes, and what happens to requests and operations. -/
inductive AddrAction where
  | initComm (c : CommId) (now : ℤ)
  | registerAddr (c : CommId) (inserted : Option ℕ)
  | finish (c : CommId)
  | fail (c : CommId)
  | op (a : OpAction)

/-- The communicator of a request. -/
def Core.commOf (s : Core) (r : ReqId) : CommId :=
  match s.requests r with
  | some q => q.commId
  | none => uninitializedComm

/-- A post waits in `get_comm` while its communicator is in its handshake. -/
def Addressed.waits (s : Addressed) : OpAction → Bool
  | .post r _ => s.stage (s.ep.core.commOf r) = some .connecting
  | _ => false

/-- The number of the next post belongs to the communicator of the request. -/
def Addressed.record (s : Addressed) : OpAction → ℕ → CommId
  | .post r _ => Function.update s.postedOn s.ep.core.posts (s.ep.core.commOf r)
  | _ => s.postedOn

/-- One action.  Each communicator has one handshake, and `fi_av_insert` never gives out
`FI_ADDR_UNSPEC`. -/
def addrStep (env : Env) (s : Addressed) : AddrAction → Option Addressed
  | .initComm c now =>
      if s.stage c = none then
        some { s with
          ep := ⟨s.ep.core, { s.ep.ft.setComm c (LfiComm.new now) with
            commIds := insert c s.ep.ft.commIds }⟩
          stage := Function.update s.stage c (some .connecting) }
      else none
  | .registerAddr c inserted =>
      if s.stage c = some .connecting ∧ inserted ≠ some fiAddrUnspec then
        let p := registerAddr inserted (s.ep.ft.comm c)
        some { s with
          ep := ⟨s.ep.core, s.ep.ft.setComm c p.2⟩
          stage := Function.update s.stage c (some (if p.1 < 0 then .failed else .addressed))
          stored := Function.update s.stored c inserted }
      else none
  | .finish c =>
      if s.stage c = some .addressed then
        some { s with stage := Function.update s.stage c (some .ready) }
      else none
  | .fail c =>
      if s.stage c = some .connecting ∨ s.stage c = some .addressed then
        some { s with stage := Function.update s.stage c (some .failed) }
      else none
  | .op a =>
      if s.waits a then none
      else (opStep env s.ep a).map fun ep => { s with ep := ep, postedOn := s.record a }

/-- An endpoint with no communicators but the any-comms. -/
structure AddrStart (s : Addressed) : Prop where
  fresh : Fresh s.ep
  anys : ∀ c ∈ s.ep.ft.commIds, isAnyComm c = true ∧ (s.ep.ft.comm c).fiAddr = fiAddrUnspec
  stage : ∀ c, s.stage c = if isAnyComm c then some .ready else none
  stored : ∀ c, s.stored c = none

/-- The operation goes to one peer. -/
def PendingType.Directed : PendingType → Prop
  | .recv | .recvv => False
  | _ => True

instance : DecidablePred PendingType.Directed := fun type => by
  cases type <;> unfold PendingType.Directed <;> infer_instance

/-- So does the post. -/
def PostCall.Directed : PostCall → Prop
  | .recv .. => False
  | _ => True

instance : DecidablePred PostCall.Directed := fun call => by
  cases call <;> unfold PostCall.Directed <;> infer_instance

/-- **Every operation to a peer has one.**  What is queued to go to a peer carries the address
that `register_addr` stored for its communicator, which is no any-comm. -/
def Peered (s : Addressed) : Prop :=
  ∀ op ∈ s.ep.core.queued, op.type.Directed →
    s.stored (s.postedOn op.post) = some op.addr ∧ op.addr ≠ fiAddrUnspec ∧
      isAnyComm (s.postedOn op.post) = false

instance (s : Addressed) : Decidable (Peered s) :=
  inferInstanceAs (Decidable (∀ op ∈ s.ep.core.queued, _ → _))

/-- The checks that a post makes of its request. -/
def Accepts (env : Env) (s : State) (q : LfiRequest) (call : PostCall) : Prop :=
  q.commId ∈ s.ft.commIds ∧ (s.ft.comm q.commId).isCanceled = false ∧
    match call with
    | .send _ size _ vector _ =>
        isAnyComm q.commId = false ∧ ¬ (vector = true ∧ env.iovLimit < size)
    | .recv _ size _ vector _ => ¬ (vector = true ∧ env.iovLimit < size)
    | .put .. => True
    | .get .. => True

instance (env : Env) (s : State) (q : LfiRequest) (call : PostCall) :
    Decidable (Accepts env s q call) := by
  unfold Accepts
  cases call <;> infer_instance

/-- A post to a peer that passes its checks is on a communicator whose address is stored, and
on no any-comm. -/
def Addresses (env : Env) (s : Addressed) : AddrAction → Prop
  | .op (.post r call) => ∀ q, s.ep.core.requests r = some q → call.Directed →
      Accepts env s.ep q call → isAnyComm q.commId = false ∧ s.stored q.commId ≠ none
  | _ => True

instance (env : Env) (s : Addressed) : DecidablePred (Addresses env s)
  | .op (.post r call) =>
      match h : s.ep.core.requests r with
      | none => .isTrue fun _ hq => nomatch h.symm.trans hq
      | some q => decidable_of_iff (call.Directed → Accepts env s.ep q call →
          isAnyComm q.commId = false ∧ s.stored q.commId ≠ none) (by simp [Addresses, h])
  | .op (.create ..) | .op (.fabric _) | .op (.cancel ..) | .op (.free ..) => .isTrue trivial
  | .initComm .. | .registerAddr .. | .finish _ | .fail _ => .isTrue trivial

variable {env : Env} {s t : Addressed} {c : CommId}

/-! ### What a post queues -/

/-- What the checks all four begin with let through. -/
theorem withComm_eq {s : State} {r : ReqId} {q : LfiRequest} (hq : s.core.requests r = some q)
    (k : LfiRequest → LfiComm → ℤ × State) :
    (¬ (q.commId ∈ s.ft.commIds ∧ (s.ft.comm q.commId).isCanceled = false) ∧
      (withComm s r k).2 = s) ∨
    (q.commId ∈ s.ft.commIds ∧ (s.ft.comm q.commId).isCanceled = false ∧
      withComm s r k = k q (s.ft.comm q.commId)) := by
  rw [withComm_of_some hq]
  by_cases hc : q.commId ∈ s.ft.commIds
  · cases hcan : (s.ft.comm q.commId).isCanceled with
    | true => exact .inl ⟨fun h => Bool.noConfusion h.2, by simp [hc]⟩
    | false => exact .inr ⟨hc, rfl, by simp [hc]⟩
  · exact .inl ⟨fun h => hc h.1, by simp [hc]⟩

/-- A post that fails its checks changes nothing; one that passes them queues an operation with
the address of the communicator. -/
theorem asyncPost_accepts {s : State} {r : ReqId} {q : LfiRequest} (hq : s.core.requests r = some q)
    (call : PostCall) :
    (¬ Accepts env s q call ∧ (asyncPost env s r call).2 = s) ∨
    (Accepts env s q call ∧ ∃ f o, asyncPost env s r call =
      (lfiSuccess, post env s r q.commId f o call.priority) ∧
      o.addr = (s.ft.comm q.commId).fiAddr ∧ (o.type.Directed ↔ call.Directed) ∧
      (¬ o.type.Directed → f.opType = .recv)) := by
  cases call with
  | send b n tag vector priority =>
      simp only [asyncPost, asyncSend, Accepts]
      rcases withComm_eq hq _ with ⟨hnot, heq⟩ | ⟨hc, hcan, heq⟩
      · exact .inl ⟨fun h => hnot ⟨h.1, h.2.1⟩, heq⟩
      · rw [heq]
        by_cases hany : isAnyComm q.commId = true
        · exact .inl ⟨fun h => by simp [hany] at h, by simp [hany]⟩
        · by_cases hiov : vector = true ∧ env.iovLimit < n
          · exact .inl ⟨fun h => h.2.2.2 hiov, by simp [hany, hiov]⟩
          · rw [if_neg hany, if_neg hiov]
            refine .inr ⟨⟨hc, hcan, by simpa using hany, hiov⟩, _, _, rfl, rfl, ?_⟩
            refine ⟨iff_of_true ?dir trivial, fun hnot => absurd ?dir hnot⟩
            dsimp only
            split
            case isTrue => exact trivial
            case isFalse => split <;> exact trivial
  | recv b n tag vector priority =>
      simp only [asyncPost, asyncRecv, Accepts]
      rcases withComm_eq hq _ with ⟨hnot, heq⟩ | ⟨hc, hcan, heq⟩
      · exact .inl ⟨fun h => hnot ⟨h.1, h.2.1⟩, heq⟩
      · rw [heq]
        by_cases hiov : vector = true ∧ env.iovLimit < n
        · exact .inl ⟨fun h => h.2.2 hiov, by simp [hiov]⟩
        · rw [if_neg hiov]
          refine .inr ⟨⟨hc, hcan, hiov⟩, ⟨.recv, n, tag, q.commId⟩, _, rfl, rfl, ?_⟩
          refine ⟨iff_of_false ?_ id, fun _ => rfl⟩
          dsimp only
          split <;> exact id
  | put b n addr key priority =>
      simp only [asyncPost, asyncPut, Accepts]
      rcases withComm_eq hq _ with ⟨hnot, heq⟩ | ⟨hc, hcan, heq⟩
      · exact .inl ⟨fun h => hnot ⟨h.1, h.2.1⟩, heq⟩
      · exact .inr ⟨⟨hc, hcan, trivial⟩, _, _, heq, rfl, iff_of_true trivial trivial,
          fun hnot => absurd trivial hnot⟩
  | get b n addr key priority =>
      simp only [asyncPost, asyncGet, Accepts]
      rcases withComm_eq hq _ with ⟨hnot, heq⟩ | ⟨hc, hcan, heq⟩
      · exact .inl ⟨fun h => hnot ⟨h.1, h.2.1⟩, heq⟩
      · exact .inr ⟨⟨hc, hcan, trivial⟩, _, _, heq, rfl, iff_of_true trivial trivial,
          fun hnot => absurd trivial hnot⟩

/-- The queues after a post. -/
theorem mem_queued_postCore {s : Core} {r : ReqId} (f : RequestFields) (o : OpFields)
    (priority : Bool) {op : LfiPendingOp} :
    op ∈ (postCore s r f o priority).queued ↔ op ∈ s.queued ∨
      op = ⟨o.type, o.buf, o.len, o.addr, o.tagRemoteAddr, o.ignoreRemoteKey,
        (createContext (reset s r) r).1, r, s.posts⟩ := by
  obtain ⟨hqueue, hother⟩ := postCore_queue (r := r) s f o priority
  unfold Core.queued
  cases priority <;> simp only [Core.queue, if_true, Bool.not_true, Bool.not_false,
    Bool.false_eq_true, if_false] at hqueue hother <;>
    rw [hqueue, hother] <;> simp [or_assoc, or_comm]

theorem postCore_posts (s : Core) (r : ReqId) (f : RequestFields) (o : OpFields)
    (priority : Bool) : (postCore s r f o priority).posts = s.posts + 1 := by
  obtain ⟨contexts, pool, created, hcreate⟩ := createContext_eq (reset s r) r
  obtain ⟨requests, contexts', hreset⟩ := reset_eq s r
  have hposts : (createContext (reset s r) r).2.posts = s.posts := by rw [hcreate, hreset]
  unfold postCore pushOp
  dsimp only
  split <;> exact congrArg (· + 1) hposts

/-! ### What leaves the queues -/

theorem cancel_queued (s : State) (r : ReqId) (events : List FabricEvent) :
    (cancel env s r events).core.queued.Sublist s.core.queued := by
  refine cancel_parts (P := fun t => t.core.queued.Sublist s.core.queued) (fun q _ => ?_)
    (fun _ h => (progress_queued events).trans h) (fun t err _ h => ?_) (List.Sublist.refl _)
  · cases q.waitContext with
    | none => exact List.Sublist.refl _
    | some c => exact List.filter_sublist.append List.filter_sublist
  · obtain ⟨hprio, hpend, -⟩ := @complete_queues env t r err 0
    rw [Core.queued, hprio, hpend]
    exact h

theorem requestFree_queued (s : State) (r : ReqId) (events : List FabricEvent) :
    (requestFree env s r events).core.queued.Sublist s.core.queued :=
  requestFree_induction (P := fun t => t.core.queued.Sublist s.core.queued)
    (fun t h => (cancel_queued t r events).trans h) (fun _ _ h => h) (List.Sublist.refl _)

theorem requestFree_posts (s : State) (r : ReqId) (events : List FabricEvent) :
    (requestFree env s r events).core.posts = s.core.posts :=
  requestFree_induction (P := fun t => t.core.posts = s.core.posts)
    (fun t h => (cancel_posts t r events).trans h) (fun _ _ h => h) rfl

/-! ### The addresses -/

/-- The address of a communicator is what was stored, and none was stored before
`register_addr` or for an any-comm. -/
structure AddrInv (s : Addressed) : Prop where
  addr : ∀ c ∈ s.ep.ft.commIds, (s.ep.ft.comm c).fiAddr = (s.stored c).getD fiAddrUnspec
  stored : ∀ c a, s.stored c = some a →
    a ≠ fiAddrUnspec ∧ isAnyComm c = false ∧ s.stage c ≠ none ∧ s.stage c ≠ some .connecting
  ids : ∀ c ∈ s.ep.ft.commIds, s.stage c ≠ none
  anys : ∀ c, isAnyComm c = true → s.stage c = some .ready
  posts : ∀ op ∈ s.ep.core.queued, op.post < s.ep.core.posts

theorem AddrStart.inv (h : AddrStart s) : AddrInv s where
  addr c hc := by rw [h.stored, (h.anys c hc).2]; rfl
  stored c a ha := by rw [h.stored] at ha; cases ha
  ids c hc := by rw [h.stage, if_pos (h.anys c hc).1]; exact nofun
  anys c hc := by rw [h.stage, if_pos hc]
  posts op hop := by
    rw [Core.queued, h.fresh.priorityOps, h.fresh.pendingOps] at hop
    cases hop

theorem AddrStart.peered (h : AddrStart s) : Peered s := fun op hop => by
  rw [Core.queued, h.fresh.priorityOps, h.fresh.pendingOps] at hop
  cases hop

/-- A new state of the endpoint with the same addresses, and nothing new in the queues. -/
structure Drained (s t : State) : Prop where
  commIds : t.ft.commIds = s.ft.commIds
  fiAddr : ∀ c, (t.ft.comm c).fiAddr = (s.ft.comm c).fiAddr
  posts : t.core.posts = s.core.posts
  queued : t.core.queued ⊆ s.core.queued

theorem Progressed.drained {s t : State} (h : Progressed s t) (hposts : t.core.posts = s.core.posts)
    (hqueued : t.core.queued.Sublist s.core.queued) : Drained s t where
  commIds := h.commIds
  fiAddr c := show (t.ft.comm c).fixed.fiAddr = (s.ft.comm c).fixed.fiAddr by rw [h.comm]
  posts := hposts
  queued := hqueued.subset

theorem AddrInv.drained (h : AddrInv s) {ep : State} (hd : Drained s.ep ep) :
    AddrInv { s with ep := ep } where
  addr c hc := by
    rw [hd.commIds] at hc
    exact (hd.fiAddr c).trans (h.addr c hc)
  stored := h.stored
  ids c hc := h.ids c (hd.commIds ▸ hc)
  anys := h.anys
  posts op hop := by
    rw [hd.posts]
    exact h.posts op (hd.queued hop)

theorem Peered.drained (h : Peered s) {ep : State} (hd : Drained s.ep ep) :
    Peered { s with ep := ep } := fun op hop => h op (hd.queued hop)

/-- What happens to requests and operations, a post apart, drains the queues. -/
theorem opStep_drained {s t : State} {a : OpAction} (ha : ∀ r call, a ≠ .post r call)
    (ht : opStep env s a = some t) : Drained s t := by
  cases a with
  | create r c =>
      simp only [opStep, Option.ite_none_right_eq_some, Option.some.injEq] at ht
      obtain ⟨-, rfl⟩ := ht
      exact ⟨rfl, fun _ => rfl, rfl, fun _ h => h⟩
  | post r call => exact absurd rfl (ha r call)
  | fabric e =>
      obtain rfl := Option.some.inj ht
      exact (fabricEvent_progressed e).drained (fabricEvent_posts e) (fabricEvent_queued e)
  | cancel r events =>
      obtain rfl := Option.some.inj ht
      exact (cancel_progressed r events).drained (cancel_posts s r events)
        (cancel_queued s r events)
  | free r events =>
      obtain rfl := Option.some.inj ht
      exact (requestFree_progressed r events).drained (requestFree_posts s r events)
        (requestFree_queued s r events)

theorem registerRequest_addr (s : Ft) (r : ReqId) (c : CommId) :
    (registerRequest s r c).commIds = s.commIds ∧
      ∀ d, ((registerRequest s r c).comm d).fiAddr = (s.comm d).fiAddr := by
  have hfixed := registerRequest_fixed s r c
  constructor
  · show (registerRequest s r c).fixed.commIds = _
    rw [hfixed]
    split <;> rfl
  · intro d
    show ((registerRequest s r c).fixed.comm d).fiAddr = _
    rw [hfixed]
    split <;> rfl

theorem post_addr (env : Env) (s : State) (r : ReqId) (c : CommId) (f : RequestFields)
    (o : OpFields) (priority : Bool) :
    (post env s r c f o priority).ft.commIds = s.ft.commIds ∧
      ∀ d, ((post env s r c f o priority).ft.comm d).fiAddr = (s.ft.comm d).fiAddr := by
  simp only [post]
  split
  case isTrue => exact registerRequest_addr s.ft r c
  case isFalse => exact ⟨rfl, fun _ => rfl⟩

section Post

variable {r : ReqId} {q : LfiRequest} {f : RequestFields} {o : OpFields} {priority : Bool}

/-- The state after a post on the communicator `c`. -/
theorem AddrInv.post (h : AddrInv s) (c : CommId) :
    AddrInv { s with
      ep := post env s.ep r c f o priority
      postedOn := Function.update s.postedOn s.ep.core.posts c } where
  addr d hd := by
    obtain ⟨hids, haddr⟩ := post_addr env s.ep r c f o priority
    have hd' : d ∈ s.ep.ft.commIds := hids ▸ hd
    exact (haddr d).trans (h.addr d hd')
  stored := h.stored
  ids d hd := h.ids d ((post_addr env s.ep r c f o priority).1 ▸ hd)
  anys := h.anys
  posts op hop := by
    show op.post < (postCore s.ep.core r f o priority).posts
    rw [postCore_posts]
    rcases (mem_queued_postCore f o priority).1 hop with hold | rfl
    · exact Nat.lt_succ_of_lt (h.posts op hold)
    · exact Nat.lt_succ_self _

/-- What is queued stays right when the new operation is. -/
theorem peered_post (h : AddrInv s) (hp : Peered s) {c : CommId} (hc : c ∈ s.ep.ft.commIds)
    (haddr : o.addr = (s.ep.ft.comm c).fiAddr) :
    Peered { s with
      ep := post env s.ep r c f o priority
      postedOn := Function.update s.postedOn s.ep.core.posts c } ↔
    (o.type.Directed → isAnyComm c = false ∧ s.stored c ≠ none) := by
  constructor
  · intro hall hdir
    have hnew := hall _ ((mem_queued_postCore f o priority).2 (.inr rfl)) hdir
    simp only [Function.update_self] at hnew
    exact ⟨hnew.2.2, by rw [hnew.1]; exact nofun⟩
  · intro hok op hop hdir
    rcases (mem_queued_postCore f o priority).1 hop with hold | rfl
    · have hsame : Function.update s.postedOn s.ep.core.posts c op.post = s.postedOn op.post :=
        Function.update_of_ne (h.posts op hold).ne ..
      simp only [hsame]
      exact hp op hold hdir
    · obtain ⟨hany, hsome⟩ := hok hdir
      obtain ⟨a, ha⟩ := Option.ne_none_iff_exists'.1 hsome
      have haddr' : o.addr = a := by rw [haddr, h.addr c hc, ha]; rfl
      simp only [Function.update_self]
      rw [ha, haddr']
      exact ⟨rfl, (h.stored c a ha).1, hany⟩

omit env in
/-- A post that is refused leaves its number to the next. -/
theorem refused (h : AddrInv s) (hp : Peered s) (c : CommId) :
    AddrInv { s with postedOn := Function.update s.postedOn s.ep.core.posts c } ∧
      Peered { s with postedOn := Function.update s.postedOn s.ep.core.posts c } := by
  refine ⟨⟨h.addr, h.stored, h.ids, h.anys, h.posts⟩, fun op hop hdir => ?_⟩
  have hsame : Function.update s.postedOn s.ep.core.posts c op.post = s.postedOn op.post :=
    Function.update_of_ne (h.posts op hop).ne ..
  simp only [hsame]
  exact hp op hop hdir

end Post

/-- What happens to requests and operations. -/
theorem op_spec (h : AddrInv s) (hp : Peered s) {a : OpAction} {ep : State}
    (ht : opStep env s.ep a = some ep) :
    AddrInv { s with ep := ep, postedOn := s.record a } ∧
      (Peered { s with ep := ep, postedOn := s.record a } ↔ Addresses env s (.op a)) := by
  by_cases ha : ∀ r call, a ≠ .post r call
  · have hd := opStep_drained ha ht
    have hrecord : s.record a = s.postedOn := by
      cases a with
      | post r call => exact absurd rfl (ha r call)
      | _ => rfl
    rw [hrecord]
    refine ⟨h.drained hd, iff_of_true (hp.drained hd) ?_⟩
    cases a with
    | post r call => exact absurd rfl (ha r call)
    | _ => exact trivial
  · push Not at ha
    obtain ⟨r, call, rfl⟩ := ha
    obtain rfl := Option.some.inj ht
    simp only [Addressed.record, Addresses]
    cases hq : s.ep.core.requests r with
    | none =>
        have hsame : (asyncPost env s.ep r call).2 = s.ep := by
          rcases asyncPost_spec env s.ep r call with ⟨-, heq⟩ | ⟨q, -, -, hsome, -⟩
          · exact heq
          · exact nomatch hq.symm.trans hsome
        rw [hsame]
        have hrefused := refused h hp (s.ep.core.commOf r)
        exact ⟨hrefused.1, iff_of_true hrefused.2 (fun _ h => nomatch h)⟩
    | some q =>
        have hcomm : s.ep.core.commOf r = q.commId := by rw [Core.commOf, hq]
        rw [hcomm]
        rcases @asyncPost_accepts env _ _ _ hq call with ⟨hnot, heq⟩ |
          ⟨hacc, f, o, heq, haddr, hdir, -⟩
        · rw [heq]
          have hrefused := refused h hp q.commId
          refine ⟨hrefused.1, iff_of_true hrefused.2 fun q' hq' _ hacc => ?_⟩
          exact absurd (Option.some.inj hq' ▸ hacc) hnot
        · rw [heq]
          refine ⟨h.post q.commId, (peered_post h hp hacc.1 haddr).trans ?_⟩
          rw [hdir]
          simp only [Option.some.injEq, forall_eq']
          exact imp_congr_right fun _ => (imp_iff_right hacc).symm

/-- The handshake of a communicator goes on or is given up. -/
theorem AddrInv.setStage (h : AddrInv s) (hc : s.stage c ≠ some .ready) {stage : HandshakeStage}
    (hstage : stage ≠ .connecting) :
    AddrInv { s with stage := Function.update s.stage c (some stage) } where
  addr := h.addr
  stored d a ha := by
    obtain ⟨hne, hany, hnone, hconn⟩ := h.stored d a ha
    refine ⟨hne, hany, ?_⟩
    by_cases hd : d = c
    · subst hd
      simp only [Function.update_self]
      exact ⟨nofun, fun heq => hstage (Option.some.inj heq)⟩
    · simp only [Function.update_of_ne hd]
      exact ⟨hnone, hconn⟩
  ids d hd := by
    by_cases hdc : d = c
    · subst hdc
      simp
    · simpa [Function.update_of_ne hdc] using h.ids d hd
  anys d hd := by
    have hdc : d ≠ c := by
      rintro rfl
      exact hc (h.anys d hd)
    simpa [Function.update_of_ne hdc] using h.anys d hd
  posts := h.posts

/-- A communicator is new. -/
theorem AddrInv.initComm (h : AddrInv s) (hc : s.stage c = none) (now : ℤ) :
    AddrInv { s with
      ep := ⟨s.ep.core, { s.ep.ft.setComm c (LfiComm.new now) with
        commIds := insert c s.ep.ft.commIds }⟩
      stage := Function.update s.stage c (some .connecting) } where
  addr d hd := by
    have hnone : s.stored c = none := by
      cases hs : s.stored c with
      | none => rfl
      | some a => exact absurd hc (h.stored c a hs).2.2.1
    show ((s.ep.ft.setComm c (LfiComm.new now)).comm d).fiAddr = _
    rw [Ft.setComm_comm]
    split
    case isTrue hdc =>
      rw [hdc, hnone]
      rfl
    case isFalse hdc => exact h.addr d ((Finset.mem_insert.1 hd).resolve_left hdc)
  stored d a ha := by
    obtain ⟨hne, hany, hnone, hconn⟩ := h.stored d a ha
    have hdc : d ≠ c := by
      rintro rfl
      exact hnone hc
    simp only [Function.update_of_ne hdc]
    exact ⟨hne, hany, hnone, hconn⟩
  ids d hd := by
    by_cases hdc : d = c
    · subst hdc
      simp
    · simpa [Function.update_of_ne hdc] using h.ids d ((Finset.mem_insert.1 hd).resolve_left hdc)
  anys d hd := by
    have hdc : d ≠ c := by
      rintro rfl
      exact nomatch hc.symm.trans (h.anys d hd)
    simpa [Function.update_of_ne hdc] using h.anys d hd
  posts := h.posts

/-- `register_addr` stores what it inserted. -/
theorem registerAddr_fiAddr (inserted : Option ℕ) (x : LfiComm) (hx : x.fiAddr = fiAddrUnspec) :
    (registerAddr inserted x).2.fiAddr = inserted.getD fiAddrUnspec := by
  cases inserted with
  | none => exact hx
  | some addr => rfl

/-- It returns nothing negative, so that no handshake ends with it. -/
theorem registerAddr_nonneg (inserted : Option ℕ) (x : LfiComm) :
    ¬ (registerAddr inserted x).1 < 0 := by
  cases inserted with
  | none => exact lt_irrefl _
  | some addr => exact Int.not_lt.2 Int.one_nonneg

/-- An address is registered. -/
theorem AddrInv.registerAddr (h : AddrInv s) (hc : s.stage c = some .connecting)
    {inserted : Option ℕ} (hins : inserted ≠ some fiAddrUnspec) :
    AddrInv { s with
      ep := ⟨s.ep.core, s.ep.ft.setComm c (registerAddr inserted (s.ep.ft.comm c)).2⟩
      stage := Function.update s.stage c (some .addressed)
      stored := Function.update s.stored c inserted } where
  addr d hd := by
    show ((s.ep.ft.setComm c _).comm d).fiAddr = (Function.update s.stored c inserted d).getD _
    rw [Ft.setComm_comm]
    split
    case isTrue hdc =>
      subst hdc
      have hnone : s.stored d = none := by
        cases hs : s.stored d with
        | none => rfl
        | some a => exact absurd hc (h.stored d a hs).2.2.2
      have hold : (s.ep.ft.comm d).fiAddr = fiAddrUnspec := by
        rw [h.addr d hd, hnone]
        rfl
      rw [Function.update_self]
      exact registerAddr_fiAddr inserted _ hold
    case isFalse hdc =>
      rw [Function.update_of_ne hdc]
      exact h.addr d hd
  stored d a ha := by
    by_cases hdc : d = c
    · subst hdc
      simp only [Function.update_self] at ha ⊢
      refine ⟨fun heq => hins (by rw [ha, heq]), ?_, nofun, nofun⟩
      cases hany : isAnyComm d with
      | false => rfl
      | true => exact nomatch hc.symm.trans (h.anys d hany)
    · simp only [Function.update_of_ne hdc] at ha ⊢
      exact h.stored d a ha
  ids d hd := by
    by_cases hdc : d = c
    · subst hdc
      simp
    · simpa [Function.update_of_ne hdc] using h.ids d hd
  anys d hd := by
    have hdc : d ≠ c := by
      rintro rfl
      exact nomatch hc.symm.trans (h.anys d hd)
    simpa [Function.update_of_ne hdc] using h.anys d hd
  posts := h.posts

/-- It touches nothing that is queued: no address was stored for the communicator. -/
theorem Peered.registerAddr (hp : Peered s) (h : AddrInv s) (hc : s.stage c = some .connecting)
    (inserted : Option ℕ) {ft : Ft} {stage : CommId → Option HandshakeStage} :
    Peered { s with
      ep := ⟨s.ep.core, ft⟩
      stage := stage
      stored := Function.update s.stored c inserted } := fun op hop hdir => by
  have hold := hp op hop hdir
  have hdc : s.postedOn op.post ≠ c := by
    rintro rfl
    exact (h.stored _ _ hold.1).2.2.2 hc
  simp only [Function.update_of_ne hdc]
  exact hold

/-- **One action.**  It keeps the addresses right, and what is queued exactly if it `Addresses`. -/
theorem addrStep_spec (h : AddrInv s) (hp : Peered s) {a : AddrAction}
    (ht : addrStep env s a = some t) : AddrInv t ∧ (Peered t ↔ Addresses env s a) := by
  cases a with
  | initComm c now =>
      simp only [addrStep, Option.ite_none_right_eq_some, Option.some.injEq] at ht
      obtain ⟨hc, rfl⟩ := ht
      exact ⟨h.initComm hc now, iff_of_true hp trivial⟩
  | registerAddr c inserted =>
      simp only [addrStep, Option.ite_none_right_eq_some, Option.some.injEq] at ht
      obtain ⟨hc, rfl⟩ := ht
      rw [if_neg (registerAddr_nonneg inserted _)]
      exact ⟨h.registerAddr hc.1 hc.2, iff_of_true (hp.registerAddr h hc.1 inserted) trivial⟩
  | finish c =>
      simp only [addrStep, Option.ite_none_right_eq_some, Option.some.injEq] at ht
      obtain ⟨hc, rfl⟩ := ht
      exact ⟨h.setStage (by rw [hc]; exact nofun) nofun, iff_of_true hp trivial⟩
  | fail c =>
      simp only [addrStep, Option.ite_none_right_eq_some, Option.some.injEq] at ht
      obtain ⟨hc, rfl⟩ := ht
      have hready : s.stage c ≠ some .ready := by
        rcases hc with hc | hc <;> rw [hc] <;> exact nofun
      exact ⟨h.setStage hready nofun, iff_of_true hp trivial⟩
  | op a =>
      simp only [addrStep] at ht
      split at ht
      case isTrue => cases ht
      case isFalse =>
        obtain ⟨ep, hep, rfl⟩ := Option.map_eq_some_iff.1 ht
        exact op_spec h hp hep

/-- **Operations to a peer have one.**  Along a run of handshakes and posts, everything queued
for a peer carries the address stored for its communicator, no any-comm, exactly when every
post to a peer that passes its checks is on such a communicator. -/
theorem peered_iff (env : Env) (as : List AddrAction) (s t : Addressed) (hs : AddrStart s)
    (h : exec (addrStep env) s as = some t) :
    Always (addrStep env) Peered s as ↔ Meets (addrStep env) (Addresses env) s as :=
  always_iff_meets (I := AddrInv) (fun _ _ _ hI hP ht _ => (addrStep_spec hI hP ht).1)
    (fun _ _ _ hI hP ht => (addrStep_spec hI hP ht).2) hs.inv hs.peered h

/-- An endpoint with `LFI_ANY_COMM_PEER`; the user's request 0 is on it, the others on the
communicator 0. -/
def addressedStart : Addressed where
  ep :=
    let s := freshState {anyCommPeer} (fun k => if k = 0 then anyCommPeer else 0) 0
    ⟨s.core, { s.ft with comm := fun _ => LfiComm.new 0 }⟩
  stage c := if isAnyComm c then some .ready else none
  stored _ := none
  postedOn _ := 0

theorem addrStart_addressedStart : AddrStart addressedStart where
  fresh := by
    constructor <;> intros <;> first | rfl | skip
    next r => cases r <;> rfl
  anys c hc := by
    have hc' : c = anyCommPeer := Finset.mem_singleton.1 hc
    subst hc'
    exact ⟨by decide, rfl⟩
  stage _ := rfl
  stored _ := rfl

/-- A connection and a send on it. -/
def connectedSend : List AddrAction :=
  [.initComm 0 0, .registerAddr 0 (some 5), .finish 0,
    .op (.post (.user 1) (.send 7 8 1 false false))]

theorem peered_connectedSend :
    Always (addrStep Env.default) Peered addressedStart connectedSend :=
  (peered_iff Env.default connectedSend addressedStart _ addrStart_addressedStart
    (Option.some_get (x := exec (addrStep Env.default) addressedStart connectedSend)
      (by decide +kernel)).symm).2 (by decide +kernel)

/-- A put to anybody. -/
def anyPut : List AddrAction := [.op (.post (.user 0) (.put 7 8 0 ⟨0, 0⟩ false))]

/-- `fi_av_insert` inserts no address, and the handshake goes on. -/
def unregisteredSend : List AddrAction :=
  [.initComm 0 0, .registerAddr 0 none, .finish 0,
    .op (.post (.user 1) (.send 7 8 1 false false))]

/-- Both queue an operation with `FI_ADDR_UNSPEC`. -/
theorem peered_unspec :
    ¬ Always (addrStep Env.default) Peered addressedStart anyPut ∧
      ¬ Always (addrStep Env.default) Peered addressedStart unregisteredSend := by
  constructor
  · intro h
    have hlast := h.last (Option.some_get (x := exec (addrStep Env.default) addressedStart anyPut)
      (by decide +kernel)).symm
    exact absurd hlast (by decide +kernel)
  · intro h
    have hlast := h.last (Option.some_get (x := exec (addrStep Env.default) addressedStart
      unregisteredSend) (by decide +kernel)).symm
    exact absurd hlast (by decide +kernel)

end Impl
end Lfi
