/-
# Tag addressing

The 64 bits the fabric matches a message by are a communicator and a tag: a send puts in
front of the tag the number the peer has for the communicator, `rank_self_in_peer`, a
receive puts there the communicator's own identifier, and a receive from any communicator
has those bits ignored.  When the message is there, `progress` takes both apart again.

The numbers come from the handshake (`Lfi.Connection.Registry`), so what one process sends
on a communicator is received on the communicator of the other that the same handshake
has made, under the same tag, and on no other.
-/

import Lfi.Connection.Registry
import Lfi.Impl.Post

namespace Lfi
namespace Impl

open Connection Runs

/-- The operation a post has put at the end of its queue. -/
def lastQueued (s : State) (priority : Bool) : Option LfiPendingOp :=
  (if priority then s.core.priorityOps else s.core.pendingOps).getLast?

/-- The fabric matches a message and a posted receive on the bits that are not ignored. -/
def TagMatches (message posted : LfiPendingOp) : Prop :=
  BitVec.ofNat 64 message.tagRemoteAddr &&& ~~~BitVec.ofNat 64 posted.ignoreRemoteKey =
    BitVec.ofNat 64 posted.tagRemoteAddr &&& ~~~BitVec.ofNat 64 posted.ignoreRemoteKey

/-- A communicator and a tag in 64 bits. -/
def address (c t : BitVec 32) : ℕ := (c.toNat <<< maskRankBytes) ||| t.toNat

/-! ### The encoders -/

theorem lastQueued_pushOp (s : Core) (ft : Ft) (priority : Bool) (op : LfiPendingOp) :
    lastQueued ⟨pushOp s priority op, ft⟩ priority = some op := by
  cases priority <;> exact List.getLast?_concat ..

theorem lastQueued_post (env : Env) (s : State) (r : ReqId) (c : CommId) (f : RequestFields)
    (o : OpFields) (priority : Bool) : ∃ op, lastQueued (post env s r c f o priority) priority =
      some op ∧ op.tagRemoteAddr = o.tagRemoteAddr ∧ op.ignoreRemoteKey = o.ignoreRemoteKey :=
  ⟨_, lastQueued_pushOp .., rfl, rfl⟩

/-- A post that succeeds has found its communicator. -/
theorem withComm_success {s : State} {r : ReqId} {k : LfiRequest → LfiComm → ℤ × State}
    {q : LfiRequest} (hq : s.core.requests r = some q) (h : (withComm s r k).1 = lfiSuccess) :
    withComm s r k = k q (s.ft.comm q.commId) := by
  rcases withComm_cases s r k with hfail | ⟨q', hq', -, -, heq⟩
  · rw [h] at hfail
    exact absurd hfail.1 (by decide)
  · obtain rfl := Option.some.inj (hq.symm.trans hq')
    exact heq

/-- **What a send puts into its tag.** -/
theorem asyncSend_tag {env : Env} {s : State} {r : ReqId} {b n t : ℕ} {v priority : Bool}
    {q : LfiRequest} {op : LfiPendingOp} (hq : s.core.requests r = some q)
    (h : (asyncSend env s r b n t v priority).1 = lfiSuccess)
    (hop : lastQueued (asyncSend env s r b n t v priority).2 priority = some op) :
    op.tagRemoteAddr = ((s.ft.comm q.commId).rankSelfInPeer <<< maskRankBytes) ||| t := by
  unfold asyncSend at h hop
  have hcomm := withComm_success hq h
  rw [hcomm] at h hop
  by_cases hany : isAnyComm q.commId = true
  · rw [if_pos hany] at h
    exact absurd h (show -lfiSendAnyComm ≠ lfiSuccess by decide)
  · rw [if_neg hany] at h hop
    split at hop
    case isTrue hiov =>
      rw [if_pos hiov] at h
      exact absurd h (show -lfiIovLimit ≠ lfiSuccess by decide)
    case isFalse =>
      obtain ⟨op', hop', htag, -⟩ := lastQueued_post env s r q.commId _ _ priority
      obtain rfl := Option.some.inj (hop.symm.trans hop')
      exact htag

/-- **What a receive puts into its tag, and what it has ignored.** -/
theorem asyncRecv_tag {env : Env} {s : State} {r : ReqId} {b n t : ℕ} {v priority : Bool}
    {q : LfiRequest} {op : LfiPendingOp} (hq : s.core.requests r = some q)
    (h : (asyncRecv env s r b n t v priority).1 = lfiSuccess)
    (hop : lastQueued (asyncRecv env s r b n t v priority).2 priority = some op) :
    op.tagRemoteAddr = (q.commId <<< maskRankBytes) ||| t ∧
      op.ignoreRemoteKey = if isAnyComm q.commId then maskRank else 0 := by
  unfold asyncRecv at h hop
  have hcomm := withComm_success hq h
  rw [hcomm] at h hop
  split at hop
  case isTrue hiov =>
    rw [if_pos hiov] at h
    exact absurd h (show -lfiIovLimit ≠ lfiSuccess by decide)
  case isFalse =>
    obtain ⟨op', hop', htag, hignore⟩ := lastQueued_post env s r q.commId _ _ priority
    obtain rfl := Option.some.inj (hop.symm.trans hop')
    exact ⟨htag, hignore⟩

/-! ### The 64 bits -/

theorem address_eq (c t : BitVec 32) : address c t = c.toNat * 2 ^ 32 + t.toNat := by
  rw [address, maskRankBytes, ← Nat.shiftLeft_add_eq_or_of_lt t.isLt, Nat.shiftLeft_eq]

theorem address_lt (c t : BitVec 32) : address c t < 2 ^ 64 := by
  have hc := c.isLt
  have ht := t.isLt
  rw [address_eq]
  omega

/-- Two communicators and tags differ in their 64 bits. -/
theorem address_inj {c d t u : BitVec 32} : address c t = address d u ↔ c = d ∧ t = u := by
  have ht := t.isLt
  have hu := u.isLt
  rw [address_eq, address_eq, ← BitVec.toNat_inj, ← BitVec.toNat_inj]
  omega

/-- With the communicator ignored, the tag is left. -/
theorem address_and_maskTag (c t : BitVec 32) : address c t &&& maskTag = t.toNat := by
  have ht := t.isLt
  rw [show maskTag = 2 ^ 32 - 1 from rfl, Nat.and_two_pow_sub_one_eq_mod, address_eq]
  omega

/-- The front of the 64 bits is the communicator. -/
theorem address_and_maskRank (c t : BitVec 32) :
    (address c t &&& maskRank) >>> maskRankBytes = c.toNat := by
  have hc := c.isLt
  have ht := t.isLt
  rw [Nat.shiftRight_and_distrib, show maskRank >>> maskRankBytes = 2 ^ 32 - 1 by decide,
    Nat.and_two_pow_sub_one_eq_mod, address_eq, maskRankBytes, Nat.shiftRight_eq_div_pow]
  omega

/-- The any-comms have identifiers of 32 bits. -/
theorem isAnyComm_toNat {c : CommId} (h : isAnyComm c = true) : ∃ d : BitVec 32, c = d.toNat := by
  rw [isAnyComm, Bool.or_eq_true, beq_iff_eq, beq_iff_eq] at h
  rcases h with rfl | rfl
  · exact ⟨BitVec.ofNat 32 anyCommShm, by decide⟩
  · exact ⟨BitVec.ofNat 32 anyCommPeer, by decide⟩

/-- Nothing ignored. -/
theorem tagMatches_exact {c d t u : BitVec 32} {m p : LfiPendingOp}
    (hm : m.tagRemoteAddr = address c t) (hp : p.tagRemoteAddr = address d u)
    (hi : p.ignoreRemoteKey = 0) : TagMatches m p ↔ c = d ∧ t = u := by
  have hzero : ~~~(0 : BitVec 64) = BitVec.allOnes 64 := rfl
  rw [TagMatches, hm, hp, hi, show BitVec.ofNat 64 0 = 0 from rfl, hzero, BitVec.and_allOnes,
    BitVec.and_allOnes, ← BitVec.toNat_inj, BitVec.toNat_ofNat, BitVec.toNat_ofNat,
    Nat.mod_eq_of_lt (address_lt c t), Nat.mod_eq_of_lt (address_lt d u), address_inj]

/-- The communicator ignored. -/
theorem tagMatches_any {c d t u : BitVec 32} {m p : LfiPendingOp}
    (hm : m.tagRemoteAddr = address c t) (hp : p.tagRemoteAddr = address d u)
    (hi : p.ignoreRemoteKey = maskRank) : TagMatches m p ↔ t = u := by
  have hmask : ~~~BitVec.ofNat 64 maskRank = BitVec.ofNat 64 maskTag := by decide
  have hand : ∀ e v : BitVec 32,
      (BitVec.ofNat 64 (address e v) &&& BitVec.ofNat 64 maskTag).toNat = v.toNat := by
    intro e v
    rw [BitVec.toNat_and, BitVec.toNat_ofNat, BitVec.toNat_ofNat,
      Nat.mod_eq_of_lt (address_lt e v), Nat.mod_eq_of_lt (by decide), address_and_maskTag]
  rw [TagMatches, hm, hp, hi, hmask, ← BitVec.toNat_inj, hand, hand, BitVec.toNat_inj]

/-- **Tag addressing.**  What the peer of a connected communicator `c` sends on it with the
tag `t` matches a receive on a connected communicator `d` with the tag `u` exactly if `c` is
`d` and `t` is `u`, and a receive from any communicator exactly if `t` is `u`.  What
`progress` says about it is that it came on `c` and has the tag `t`. -/
theorem tag_addressing {p : Registry} (hp : Reachable registryStep (· = registryStart) p)
    {c k : BitVec 32} (hc : p.comms c = some .connected) (hk : Handshaken c k)
    -- the send of the peer
    {env : Env} {s : State} {r : ReqId} {q : LfiRequest} {b n : ℕ} {t : BitVec 32}
    {v priority : Bool} {message : LfiPendingOp} (hq : s.core.requests r = some q)
    (hrank : (s.ft.comm q.commId).rankSelfInPeer = k.toNat)
    (hsend : (asyncSend env s r b n t.toNat v priority).1 = lfiSuccess)
    (hmessage : lastQueued (asyncSend env s r b n t.toNat v priority).2 priority = some message)
    -- a receive of the process
    {env' : Env} {s' : State} {r' : ReqId} {q' : LfiRequest} {b' n' : ℕ} {u : BitVec 32}
    {v' priority' : Bool} {posted : LfiPendingOp} (hq' : s'.core.requests r' = some q')
    (hrecv : (asyncRecv env' s' r' b' n' u.toNat v' priority').1 = lfiSuccess)
    (hposted : lastQueued (asyncRecv env' s' r' b' n' u.toNat v' priority').2 priority' =
      some posted) :
    (∀ d : BitVec 32, q'.commId = d.toNat → p.comms d = some .connected →
      (TagMatches message posted ↔ c = d ∧ t = u)) ∧
    (isAnyComm q'.commId = true → (TagMatches message posted ↔ t = u)) ∧
    ∀ (x : LfiRequest) (len : ℕ), x.opType = .recv →
      (x.received len message.tagRemoteAddr).source = c.toNat ∧
      (x.received len message.tagRemoteAddr).tag = t.toNat := by
  obtain rfl := rankSelfInPeer_eq hk
  have hm : message.tagRemoteAddr = address k t := by
    rw [asyncSend_tag hq hsend hmessage, hrank, address]
  obtain ⟨htag, hignore⟩ := asyncRecv_tag hq' hrecv hposted
  refine ⟨fun d hd hcon => ?_, fun hany => ?_, fun x len hx => ⟨?_, ?_⟩⟩
  · rw [hd, connected_ne_any hp hcon] at hignore
    exact tagMatches_exact hm (by rw [htag, hd, address]) hignore
  · obtain ⟨d, hd⟩ := isAnyComm_toNat hany
    rw [hany] at hignore
    exact tagMatches_any hm (by rw [htag, hd, address]) hignore
  · rw [LfiRequest.received, if_pos hx, hm]
    exact address_and_maskRank k t
  · rw [LfiRequest.received, if_pos hx, hm]
    exact address_and_maskTag k t

/-- The peer of `twoHosts`: its communicator 5 is the 3 of the other process. -/
def peerState : State :=
  { freshState {5} (fun _ => 5) 0 with
    ft := (freshState {5} (fun _ => 5) 0).ft.setComm 5
      ⟨3, 0, .empty, 0, 0, .idle, 0, 0, ⟨-1, -1⟩, false⟩ }

/-- A receive with the tag 1 on the communicator 3. -/
def recvOnThree : ℤ × State :=
  asyncRecv .default (freshState {3} (fun _ => 3) 0) (.user 0) 0 8 (1 : BitVec 32).toNat false false

/-- A send with the tag 1 on the communicator 5 of the peer. -/
def sendOnFive : ℤ × State :=
  asyncSend .default peerState (.user 0) 0 8 (1 : BitVec 32).toNat false true

/-- The process has reserved the identifiers up to 3 and connected the last. -/
def fourReserved : List RegistryAction :=
  [.reserveComm, .reserveComm, .reserveComm, .reserveComm, .initComm 3]

/-- The handshake of `twoHosts` makes the 3 of the server the 3 of the client. -/
theorem handshaken_twoHosts : Handshaken 3 3 :=
  ⟨twoHosts, true,
    (exec (exchangeStep twoHosts) (Exchange.start true) (untilReady true)).get (by decide +kernel),
    .server, rfl, ⟨_, untilReady true, rfl, (Option.some_get _).symm⟩,
    ⟨by decide +kernel, by decide +kernel⟩, ⟨by decide +kernel, by decide +kernel⟩, rfl,
    by decide +kernel⟩

/-- `tag_addressing` for a message between `twoHosts`. -/
theorem tag_addressing_twoHosts :
    TagMatches ((lastQueued sendOnFive.2 true).get (by decide))
      ((lastQueued recvOnThree.2 false).get (by decide)) ↔
        (3 : BitVec 32) = 3 ∧ (1 : BitVec 32) = 1 :=
  (tag_addressing (p := (exec registryStep registryStart fourReserved).get (by decide))
    ⟨_, fourReserved, rfl, (Option.some_get _).symm⟩ (by decide) handshaken_twoHosts
    (s := peerState) (r := .user 0) (q := LfiRequest.new 5) rfl rfl (by decide)
    (Option.some_get _).symm rfl (by decide) (Option.some_get _).symm).1 3 rfl (by decide)

end Impl
end Lfi
