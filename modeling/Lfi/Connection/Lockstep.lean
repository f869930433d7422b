/-
# What each side of a handshake writes and knows

What each side writes is known from the start (`out`), and the steps that read are the
steps that write of the other side, in the same order (`lockstep`).  A step needs others
done before it (`needs`), and with them done it writes what is expected of it and learns
what it should (`perform_spec`).
-/

import Lfi.Connection.Exchange
import Mathlib.Data.List.Infix
import Mathlib.Tactic.NormNum

namespace Lfi
namespace Connection

open Data HandshakeStep

variable (host : Role → Host)

/-- The endpoint both sides choose. -/
def chosen : EndpointKind :=
  initCommEndpoint (host .server).useShm ((host .server).hostId == (host .client).hostId)

/-- What a step of a side writes. -/
def out (r : Role) : HandshakeStep → Bytes
  | sendHostIdSize => toBytes 8 (host r).hostId.length
  | sendHostId => (host r).hostId
  | sendRankPeer => encode 4 (host r).commId
  | sendHostAddrSize => toBytes 8 ((host r).address (chosen host)).length
  | sendHostAddr => (host r).address (chosen host)
  | sendHeartbeatAddr => encode 8 (host r).localHeartbeat
  | sendHeartbeatKey =>
      encode 8 (host r).heartbeatKey.shmKey ++ encode 8 (host r).heartbeatKey.peerKey
  | _ => []

/-- The step of the other side that writes what this one reads. -/
def partner : HandshakeStep → Option HandshakeStep
  | recvPeerIdSize => some sendHostIdSize
  | recvPeerId => some sendHostId
  | recvRankSelfInPeer => some sendRankPeer
  | recvPeerAddrSize => some sendHostAddrSize
  | recvPeerAddr => some sendHostAddr
  | recvHeartbeatAddr => some sendHeartbeatAddr
  | recvHeartbeatKey => some sendHeartbeatKey
  | _ => none

/-- The step writes to the socket. -/
def writes : HandshakeStep → Bool
  | sendHostIdSize | sendHostId | sendRankPeer | sendHostAddrSize | sendHostAddr
  | sendHeartbeatAddr | sendHeartbeatKey => true
  | _ => false

/-! ### The functions -/

/-- **What one side reads, the other writes, in the same order.** -/
theorem lockstep (r : Role) (ft : Bool) :
    (handshake r ft).filterMap partner = (handshake r.other ft).filter writes := by
  cases r <;> cases ft <;> decide

/-- Each side sends and receives one message through the fabric. -/
theorem count_fabric (r : Role) (ft : Bool) :
    (handshake r ft).count .send = 1 ∧ (handshake r ft).count .recv = 1 := by
  cases r <;> cases ft <;> decide

/-- A side with the steps `l` to go has read all there is, when the other side has the
steps `l'` to go. -/
def stuck (l l' : List HandshakeStep) : Bool :=
  match l with
  | [] => false
  | step :: _ =>
      ((partner step).isSome &&
        decide ((l.filterMap partner).length ≤ (l'.filter writes).length)) ||
      (step == recv && decide (l.count recv ≤ l'.count send))

/-- **No two places wait for each other.** -/
theorem not_stuck (ft : Bool) : ∀ l ∈ (handshake .server ft).tails,
    ∀ l' ∈ (handshake .client ft).tails, ¬ (stuck l l' = true ∧ stuck l' l = true) := by
  cases ft <;> decide +kernel

/-- What a step needs done before it. -/
def needs : HandshakeStep → List HandshakeStep
  | recvPeerId => [recvPeerIdSize]
  | initComm => [recvPeerId]
  | sendRankPeer | getAddr => [initComm]
  | sendHostAddrSize | sendHostAddr => [getAddr]
  | recvPeerAddr => [recvPeerAddrSize]
  | registerAddr => [recvPeerAddr]
  | _ => []

/-- A step has done before it what it needs. -/
theorem needs_done {r : Role} {ft : Bool} {step : HandshakeStep} {rest : List HandshakeStep}
    (h : step :: rest <:+ handshake r ft) :
    ∀ p ∈ needs step, p ∈ handshake r ft ∧ p ∉ step :: rest := by
  have hall : ∀ l ∈ (handshake r ft).tails, ∀ step ∈ l.head?, ∀ p ∈ needs step,
      p ∈ handshake r ft ∧ p ∉ l := by
    cases r <;> cases ft <;> decide +kernel
  exact hall _ ((List.mem_tails _ _).2 h) step rfl

/-! ### What a side knows -/

/-- What a side holds after a step. -/
def Holds (r : Role) (x : Side) : HandshakeStep → Prop
  | recvPeerIdSize => x.peerIdSize = (host r.other).hostId.length
  | recvPeerId => x.peerId = (host r.other).hostId
  | initComm => x.endpoint = some (chosen host) ∧ x.rankPeer = (host r).commId
  | recvRankSelfInPeer => x.rankSelfInPeer = (host r.other).commId
  | getAddr => x.hostAddr = (host r).address (chosen host)
  | recvPeerAddrSize => x.peerAddrSize = ((host r.other).address (chosen host)).length
  | recvPeerAddr => x.peerAddr = (host r.other).address (chosen host)
  | registerAddr => x.registered = some ((host r.other).address (chosen host))
  | recvHeartbeatAddr => x.ftRemoteHeartbeatAddr = (host r.other).localHeartbeat
  | recvHeartbeatKey => x.ftRemoteHeartbeatKey = (host r.other).heartbeatKey
  | _ => True

/-- What a side holds while the steps `rest` are to come. -/
def Known (ft : Bool) (r : Role) (rest : List HandshakeStep) (x : Side) : Prop :=
  ∀ p ∈ handshake r ft, p ∉ rest → Holds host r x p

variable {host}

/-- A step adds what it is for and leaves the rest. -/
theorem Known.step {ft : Bool} {r : Role} {step : HandshakeStep} {rest : List HandshakeStep}
    {x y : Side} (hk : Known host ft r (step :: rest) x)
    (keep : ∀ p, p ≠ step → Holds host r x p → Holds host r y p) (new : Holds host r y step) :
    Known host ft r rest y := by
  intro p hp hrest
  by_cases hps : p = step
  · exact hps ▸ new
  · exact keep p hps (hk p hp fun h => (List.mem_cons.1 h).elim hps hrest)

theorem length_out_pos (r : Role) {step : HandshakeStep} (h : writes step = true) :
    0 < (out host r step).length := by
  cases step <;> try cases h
  · rw [out, length_toBytes]; decide
  · exact (host r).hostId_pos
  · rw [out, length_encode]; decide
  · rw [out, length_toBytes]; decide
  · exact (host r).address_pos _
  · rw [out, length_encode]; decide
  · rw [out, List.length_append, length_encode, length_encode]; decide

theorem length_out_lt (r : Role) (step : HandshakeStep) :
    (out host r step).length < 0x80000000 := by
  cases step <;> try exact (by decide : 0 < 0x80000000)
  · rw [out, length_toBytes]; decide
  · exact (host r).hostId_lt
  · rw [out, length_encode]; decide
  · rw [out, length_toBytes]; decide
  · exact (host r).address_lt _
  · rw [out, length_encode]; decide
  · rw [out, List.length_append, length_encode, length_encode]; decide

/-- A length that fits `l` is `l`. -/
theorem socketLeft_of_lt {len : ℕ} (h : len < 0x80000000) (moved : ℕ) :
    socketLeft len moved = (len : ℤ) - moved := by
  have hl : (len : ℤ).bmod 0x100000000 = len :=
    Int.bmod_eq_of_le_mul_two (by omega) (by omega)
  exact congrArg (· - (moved : ℤ)) hl

/-- A size comes over as it is. -/
theorem ofBytes_size {n : ℕ} (h : n < 0x80000000) : ofBytes (toBytes 8 n) = n :=
  ofBytes_toBytes_of_lt (lt_of_lt_of_le h (by norm_num))

/-- Both sides choose the same endpoint. -/
theorem chosen_eq (hshm : (host .server).useShm = (host .client).useShm) (r : Role) :
    initCommEndpoint (host r).useShm ((host r).hostId == (host r.other).hostId) =
      chosen host := by
  cases r
  · rfl
  · rw [chosen, hshm, show Role.other .client = .server from rfl, Bool.beq_comm]

/-- A step changes only what it is for. -/
theorem Holds.of_perform {r : Role} {step p : HandshakeStep} {x y : Side}
    (h : (∃ len store bs, perform (host r) x step = .read len store ∧ y = store bs) ∨
      perform (host r) x step = .inside y)
    (hp : p ≠ step) (hx : Holds host r x p) : Holds host r y p := by
  rcases h with ⟨len, store, bs, h, rfl⟩ | h
  · cases step <;> cases h <;> cases p <;> first | exact absurd rfl hp | exact hx
  · cases step <;> cases h <;> cases p <;> first | exact absurd rfl hp | exact hx

/-- **What a step does**, for a side that knows what it should: it writes what is expected
of it, or reads what its partner writes, and in the end knows what it should. -/
theorem perform_spec (hshm : (host .server).useShm = (host .client).useShm) {ft : Bool}
    {r : Role} {step : HandshakeStep} {rest : List HandshakeStep} {x : Side}
    (hsuf : step :: rest <:+ handshake r ft) (hk : Known host ft r (step :: rest) x) :
    match perform (host r) x step with
    | .write bytes => writes step = true ∧ bytes = out host r step ∧ Known host ft r rest x
    | .read len store => ∃ p, partner step = some p ∧ writes p = true ∧
        len = (out host r.other p).length ∧ Known host ft r rest (store (out host r.other p))
    | .fabricSend => step = .send ∧ Known host ft r rest x
    | .fabricRecv => step = .recv ∧ Known host ft r rest x
    | .inside after => partner step = none ∧ writes step = false ∧ step ≠ .send ∧
        step ≠ .recv ∧ Known host ft r rest after := by
  have hneeds : ∀ p ∈ needs step, Holds host r x p := fun p hp =>
    hk p (needs_done hsuf p hp).1 (needs_done hsuf p hp).2
  have hkeep := fun p (_ : p ≠ step) (h : Holds host r x p) => h
  have hread : ∀ len store bs, perform (host r) x step = .read len store →
      Holds host r (store bs) step → Known host ft r rest (store bs) := fun len store bs hr =>
    hk.step fun _ => Holds.of_perform (.inl ⟨len, store, bs, hr, rfl⟩)
  have hinside : ∀ y, perform (host r) x step = .inside y → Holds host r y step →
      Known host ft r rest y := fun y hr => hk.step fun _ => Holds.of_perform (.inr hr)
  cases step
  case sendHostIdSize | sendHostId | sendHeartbeatAddr | sendHeartbeatKey =>
    exact ⟨rfl, rfl, hk.step hkeep trivial⟩
  case sendRankPeer =>
    refine ⟨rfl, ?_, hk.step hkeep trivial⟩
    rw [out, (hneeds initComm (by decide)).2]
  case sendHostAddrSize =>
    refine ⟨rfl, ?_, hk.step hkeep trivial⟩
    rw [out, show x.hostAddr = _ from hneeds getAddr (by decide)]
  case sendHostAddr =>
    refine ⟨rfl, ?_, hk.step hkeep trivial⟩
    rw [out, show x.hostAddr = _ from hneeds getAddr (by decide)]
  case send | recv => exact ⟨rfl, hk.step hkeep trivial⟩
  case setReadyInternal | setReady =>
    exact ⟨rfl, rfl, nofun, nofun, hinside _ rfl trivial⟩
  case recvPeerIdSize =>
    refine ⟨sendHostIdSize, rfl, rfl, (length_toBytes ..).symm,
      hread _ (fun bs => { x with peerIdSize := ofBytes bs }) _ rfl ?_⟩
    dsimp only [Holds, out]
    exact ofBytes_size (host r.other).hostId_lt
  case recvPeerId =>
    exact ⟨sendHostId, rfl, rfl, hneeds recvPeerIdSize (by decide),
      hread _ (fun bs => { x with peerId := bs }) _ rfl rfl⟩
  case initComm =>
    refine ⟨rfl, rfl, nofun, nofun, hinside _ rfl ⟨congrArg some ?_, rfl⟩⟩
    rw [show x.peerId = _ from hneeds recvPeerId (by decide)]
    exact chosen_eq hshm r
  case recvRankSelfInPeer =>
    refine ⟨sendRankPeer, rfl, rfl, (length_encode ..).symm,
      hread _ (fun bs => { x with rankSelfInPeer := decode 4 bs }) _ rfl ?_⟩
    dsimp only [Holds, out]
    exact decode_encode 4 _
  case recvPeerAddrSize =>
    refine ⟨sendHostAddrSize, rfl, rfl, (length_toBytes ..).symm,
      hread _ (fun bs => { x with peerAddrSize := ofBytes bs }) _ rfl ?_⟩
    dsimp only [Holds, out]
    exact ofBytes_size ((host r.other).address_lt _)
  case recvPeerAddr =>
    exact ⟨sendHostAddr, rfl, rfl, hneeds recvPeerAddrSize (by decide),
      hread _ (fun bs => { x with peerAddr := bs }) _ rfl rfl⟩
  case registerAddr =>
    exact ⟨rfl, rfl, nofun, nofun,
      hinside _ rfl (congrArg some (hneeds recvPeerAddr (by decide)))⟩
  case getAddr =>
    refine ⟨rfl, rfl, nofun, nofun, hinside _ rfl ?_⟩
    rw [Holds, (hneeds initComm (by decide)).1]
    rfl
  case recvHeartbeatAddr =>
    refine ⟨sendHeartbeatAddr, rfl, rfl, (length_encode ..).symm,
      hread _ (fun bs => { x with ftRemoteHeartbeatAddr := decode 8 bs }) _ rfl ?_⟩
    dsimp only [Holds, out]
    exact decode_encode 8 _
  case recvHeartbeatKey =>
    refine ⟨sendHeartbeatKey, rfl, rfl, ?_,
      hread _ (fun bs => { x with
        ftRemoteHeartbeatKey := ⟨decode 8 (bs.take 8), decode 8 (bs.drop 8)⟩ }) _ rfl ?_⟩
    · rw [out, List.length_append, length_encode, length_encode]
    · rw [Holds, out, List.take_left' (length_encode ..), List.drop_left' (length_encode ..)]
      simp only [decode_encode]

end Connection
end Lfi
