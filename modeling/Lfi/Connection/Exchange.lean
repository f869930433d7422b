/-
# The handshake of two processes

`init_server` on one end of a socket and `init_client` on the other.  Each step of
`Lfi.Connection.Handshake` gets its meaning here (`perform`): the bytes it writes, the
bytes it reads and where it keeps them, or what it does without the socket.

`socket::send` and `socket::recv` (`src/src/impl/socket.cpp`) repeat the system call
until all is transferred, so one step can take any number of calls, each for as many
bytes as the kernel likes:

    int l = len;
    do {
        r = PROXY(recv)(socket, buffer, l, 0);
        if (r < 0) return r;
        l = l - r;
        buffer = buffer + r;
    } while ((l > 0) && (r >= 0));

A length from 0x80000000 on does not fit `l`; a `Host` has none.  The last two steps, the
`send` and `recv` some providers need, go through the fabric and not the socket.
-/

import Lfi.Connection.Handshake
import Lfi.Data.Bytes
import Lfi.Runs.Basic
import Mathlib.Logic.Function.Basic

namespace Lfi
namespace Connection

open Data HandshakeStep

/-- The other side. -/
def Role.other : Role → Role
  | .server => .client
  | .client => .server

@[simp] theorem Role.other_other (r : Role) : r.other.other = r := by cases r <;> rfl

theorem Role.other_ne (r : Role) : r.other ≠ r := by cases r <;> nofun

theorem Role.eq_other {r q : Role} (h : q ≠ r) : q = r.other := by
  cases r <;> cases q <;> first | rfl | exact absurd rfl h

/-- The two endpoints of a process, `shm_ep` and `peer_ep`. -/
inductive EndpointKind where
  | shm
  | peer
  deriving DecidableEq, Repr

/-- `lfi_mr_key`, as it lies in memory. -/
structure MrKey where
  shmKey : BitVec 64
  peerKey : BitVec 64
  deriving DecidableEq, Repr

/-- What a process brings to the handshake: `host_id`, `comm_id`, `LFI_USE_SHM`, the
address `get_addr` returns for each endpoint, the address of `m_local_heartbeat` and
`m_heartbeat_key`. -/
structure Host where
  hostId : Bytes
  commId : BitVec 32
  useShm : Bool
  address : EndpointKind → Bytes
  localHeartbeat : BitVec 64
  heartbeatKey : MrKey
  hostId_pos : 0 < hostId.length
  hostId_lt : hostId.length < 0x80000000
  address_pos : ∀ e, 0 < (address e).length
  address_lt : ∀ e, (address e).length < 0x80000000

/-- The variables of the function, its communicator among them; `registered` are the bytes
`fi_av_insert` took.  `moved` bytes of the current socket call are transferred, and
`buffer` is what it has read. -/
structure Side where
  rest : List HandshakeStep
  failed : Bool
  moved : ℕ
  buffer : Bytes
  peerIdSize : ℕ
  peerId : Bytes
  hostAddr : Bytes
  peerAddrSize : ℕ
  peerAddr : Bytes
  status : Option CommStatus
  endpoint : Option EndpointKind
  rankPeer : BitVec 32
  rankSelfInPeer : BitVec 32
  registered : Option Bytes
  ftRemoteHeartbeatAddr : BitVec 64
  ftRemoteHeartbeatKey : MrKey

/-- Before the first step. -/
def Side.start (role : Role) (faultTolerance : Bool) : Side where
  rest := handshake role faultTolerance
  failed := false
  moved := 0
  buffer := []
  peerIdSize := 0
  peerId := []
  hostAddr := []
  peerAddrSize := 0
  peerAddr := []
  status := none
  endpoint := none
  rankPeer := 0
  rankSelfInPeer := 0
  registered := none
  ftRemoteHeartbeatAddr := 0
  ftRemoteHeartbeatKey := ⟨-1, -1⟩

/-- `init_comm(is_shm, comm_id)` takes the endpoint for shared memory only with
`LFI_USE_SHM`. -/
def initCommEndpoint (useShm isShm : Bool) : EndpointKind :=
  if isShm && useShm then .shm else .peer

/-- What a step does: it writes bytes, reads some and keeps them, or needs the socket for
nothing. -/
inductive Effect where
  | write (bytes : Bytes)
  | read (len : ℕ) (store : Bytes → Side)
  | fabricSend
  | fabricRecv
  | inside (after : Side)

/-- The meaning of the steps. -/
def perform (x : Host) (s : Side) : HandshakeStep → Effect
  | sendHostIdSize => .write (toBytes 8 x.hostId.length)
  | sendHostId => .write x.hostId
  | recvPeerIdSize => .read 8 fun bs => { s with peerIdSize := ofBytes bs }
  | recvPeerId => .read s.peerIdSize fun bs => { s with peerId := bs }
  | initComm => .inside { s with
      endpoint := some (initCommEndpoint x.useShm (x.hostId == s.peerId))
      rankPeer := x.commId
      status := initComm.effect s.status }
  | sendRankPeer => .write (encode 4 s.rankPeer)
  | recvRankSelfInPeer => .read 4 fun bs => { s with rankSelfInPeer := decode 4 bs }
  | sendHostAddrSize => .write (toBytes 8 s.hostAddr.length)
  | sendHostAddr => .write s.hostAddr
  | recvPeerAddrSize => .read 8 fun bs => { s with peerAddrSize := ofBytes bs }
  | recvPeerAddr => .read s.peerAddrSize fun bs => { s with peerAddr := bs }
  | registerAddr => .inside { s with registered := some s.peerAddr }
  | getAddr => .inside { s with hostAddr := s.endpoint.elim [] x.address }
  | setReadyInternal => .inside { s with status := setReadyInternal.effect s.status }
  | sendHeartbeatAddr => .write (encode 8 x.localHeartbeat)
  | sendHeartbeatKey => .write (encode 8 x.heartbeatKey.shmKey ++ encode 8 x.heartbeatKey.peerKey)
  | recvHeartbeatAddr => .read 8 fun bs => { s with ftRemoteHeartbeatAddr := decode 8 bs }
  | recvHeartbeatKey => .read 16 fun bs =>
      { s with ftRemoteHeartbeatKey := ⟨decode 8 (bs.take 8), decode 8 (bs.drop 8)⟩ }
  | send => .fabricSend
  | recv => .fabricRecv
  | setReady => .inside { s with status := setReady.effect s.status }

/-- Both functions with the socket between them: what each has written and read so far,
and how many messages each has sent and received through the fabric. -/
structure Exchange where
  side : Role → Side
  written : Role → Bytes
  consumed : Role → Bytes
  sent : Role → ℕ
  received : Role → ℕ

/-- Before the first step. -/
def Exchange.start (faultTolerance : Bool) : Exchange where
  side r := .start r faultTolerance
  written _ := []
  consumed _ := []
  sent _ := 0
  received _ := 0

/-- What is on its way to a side. -/
def Exchange.inFlight (s : Exchange) (r : Role) : Bytes :=
  (s.written r.other).drop (s.consumed r).length

/-- `l`, after `moved` bytes. -/
def socketLeft (len moved : ℕ) : ℤ := (len : ℤ).bmod 0x100000000 - moved

/-- The side with the current step done. -/
def Side.next (x : Side) (rest : List HandshakeStep) : Side :=
  { x with rest := rest, moved := 0, buffer := [] }

/-- The exchange with a side replaced. -/
def Exchange.setSide (s : Exchange) (r : Role) (x : Side) : Exchange :=
  { s with side := Function.update s.side r x }

/-- One system call of a side, for `n` bytes; a step that needs no socket; a failure. -/
inductive ExchangeAction where
  | transfer (r : Role) (n : ℕ)
  | advance (r : Role)
  | fail (r : Role)
  deriving DecidableEq

/-- A system call for `n` bytes. -/
def transfer (host : Role → Host) (s : Exchange) (r : Role) (n : ℕ) (step : HandshakeStep)
    (rest : List HandshakeStep) : Option Exchange :=
  let x := s.side r
  match perform (host r) x step with
  | .write bytes =>
      let left := socketLeft bytes.length x.moved
      if n ≤ left then
        let s := { s with
          written := Function.update s.written r (s.written r ++ (bytes.drop x.moved).take n) }
        some (s.setSide r (if left - n ≤ 0 then x.next rest else { x with moved := x.moved + n }))
      else none
  | .read len store =>
      let left := socketLeft len x.moved
      if n ≤ left ∧ n ≤ (s.inFlight r).length then
        let got := (s.inFlight r).take n
        let s := { s with consumed := Function.update s.consumed r (s.consumed r ++ got) }
        some (s.setSide r
          (if left - n ≤ 0 then (store (x.buffer ++ got)).next rest
          else { x with moved := x.moved + n, buffer := x.buffer ++ got }))
      else none
  | _ => none

/-- A step that needs no socket. -/
def advance (host : Role → Host) (s : Exchange) (r : Role) (step : HandshakeStep)
    (rest : List HandshakeStep) : Option Exchange :=
  let x := s.side r
  match perform (host r) x step with
  | .fabricSend =>
      some ({ s with sent := Function.update s.sent r (s.sent r + 1) }.setSide r (x.next rest))
  | .fabricRecv =>
      if s.received r < s.sent r.other then
        some ({ s with received := Function.update s.received r (s.received r + 1) }.setSide r
          (x.next rest))
      else none
  | .inside after => some (s.setSide r (after.next rest))
  | _ => none

/-- One action. -/
def exchangeStep (host : Role → Host) (s : Exchange) (a : ExchangeAction) : Option Exchange :=
  let r := match a with | .transfer r _ | .advance r | .fail r => r
  match (s.side r).failed, (s.side r).rest with
  | false, step :: rest =>
      match a with
      | .transfer _ n => transfer host s r n step rest
      | .advance _ => advance host s r step rest
      | .fail _ =>
          if step.canFail then some (s.setSide r { s.side r with failed := true }) else none
  | _, _ => none

/-- A side has a system call or a fabric receive to make that nothing has come for. -/
def Exchange.Waits (host : Role → Host) (s : Exchange) (r : Role) : Prop :=
  (s.side r).failed = false ∧ ∃ step rest, (s.side r).rest = step :: rest ∧
    match perform (host r) (s.side r) step with
    | .read _ _ => s.inFlight r = []
    | .fabricRecv => s.sent r.other ≤ s.received r
    | _ => False

/-- The function has returned without an error. -/
def Exchange.Succeeded (s : Exchange) (r : Role) : Prop :=
  (s.side r).failed = false ∧ (s.side r).rest = []

/-- What the two sides agree on: the ranks, the kind of endpoint, the addresses and, with
`LFI_FAULT_TOLERANCE`, the heartbeats. -/
structure Exchange.Agree (host : Role → Host) (faultTolerance : Bool) (s : Exchange) : Prop where
  rank : ∀ r, (s.side r).rankSelfInPeer = (s.side r.other).rankPeer
  endpoint : (s.side .server).endpoint = (s.side .client).endpoint
  address : ∀ r, ∃ e, (s.side r.other).endpoint = some e ∧
    (s.side r).registered = some ((host r.other).address e)
  heartbeatAddr : faultTolerance = true → ∀ r,
    (s.side r).ftRemoteHeartbeatAddr = (host r.other).localHeartbeat
  heartbeatKey : faultTolerance = true → ∀ r,
    (s.side r).ftRemoteHeartbeatKey = (host r.other).heartbeatKey

/-- **What the handshake promises.**  What a side reads is what the other one wrote, in
order; the two never both wait to receive; and when both functions succeed, nothing is
left unread and the two agree. -/
structure Exchange.InStep (host : Role → Host) (faultTolerance : Bool) (s : Exchange) : Prop where
  inOrder : ∀ r, s.consumed r <+: s.written r.other
  notBothWaiting : ¬ (s.Waits host .server ∧ s.Waits host .client)
  allRead : s.Succeeded .server → s.Succeeded .client →
    ∀ r, s.consumed r = s.written r.other ∧ s.received r = s.sent r.other
  agree : s.Succeeded .server → s.Succeeded .client → s.Agree host faultTolerance

end Connection
end Lfi
