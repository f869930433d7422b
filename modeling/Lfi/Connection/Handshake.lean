/-
# The connection handshake

`init_server` and `init_client` of `src/src/impl/connection.cpp`: a sequence of steps,
of which any that talks to the peer or to the fabric can fail and so end the handshake.
On the way `init_comm` puts the communicator into `m_comms`, and its `is_ready` goes
from `NOT_READY` over `READY_INTERNAL`, with which the handshake itself sends and
receives, to `READY`.

`HandshakeStep.effect_statusAt` says that the steps still to come determine what
`m_comms` holds.
-/

import Mathlib.Data.List.Infix

namespace Lfi
namespace Connection

/-- `lfi_comm::comm_status`. -/
inductive CommStatus where
  | notReady
  | readyInternal
  | ready
  deriving DecidableEq, Repr

/-- The steps of both functions, named by the value they send, receive or set. -/
inductive HandshakeStep where
  | sendHostIdSize
  | sendHostId
  | recvPeerIdSize
  | recvPeerId
  | initComm
  | sendRankPeer
  | recvRankSelfInPeer
  | sendHostAddrSize
  | sendHostAddr
  | recvPeerAddrSize
  | recvPeerAddr
  | registerAddr
  | getAddr
  | setReadyInternal
  | sendHeartbeatAddr
  | sendHeartbeatKey
  | recvHeartbeatAddr
  | recvHeartbeatKey
  | send
  | recv
  | setReady
  deriving DecidableEq, Repr

open HandshakeStep

/-- `init_server(socket, comm_id)`. -/
def initServer (faultTolerance : Bool) : List HandshakeStep :=
  [sendHostIdSize, sendHostId, recvPeerIdSize, recvPeerId, initComm, recvRankSelfInPeer,
    sendRankPeer, recvPeerAddrSize, recvPeerAddr, registerAddr, getAddr, sendHostAddrSize,
    sendHostAddr, setReadyInternal] ++
  (if faultTolerance then
    [sendHeartbeatAddr, sendHeartbeatKey, recvHeartbeatAddr, recvHeartbeatKey] else []) ++
  [send, recv, setReady]

/-- `init_client(socket, comm_id)`. -/
def initClient (faultTolerance : Bool) : List HandshakeStep :=
  [recvPeerIdSize, recvPeerId, sendHostIdSize, sendHostId, initComm, sendRankPeer,
    recvRankSelfInPeer, getAddr, sendHostAddrSize, sendHostAddr, recvPeerAddrSize, recvPeerAddr,
    registerAddr, setReadyInternal] ++
  (if faultTolerance then
    [recvHeartbeatAddr, recvHeartbeatKey, sendHeartbeatAddr, sendHeartbeatKey] else []) ++
  [recv, send, setReady]

/-- The side a process is on: it accepted the connection, or made it. -/
inductive Role where
  | server
  | client
  deriving DecidableEq, Repr

/-- The handshake of one side. -/
def handshake (role : Role) (faultTolerance : Bool) : List HandshakeStep :=
  match role with
  | .server => initServer faultTolerance
  | .client => initClient faultTolerance

/-- Whether the step can fail.  `init_comm` cannot on an identifier that is reserved. -/
def HandshakeStep.canFail : HandshakeStep → Bool
  | initComm | setReadyInternal | setReady => false
  | _ => true

/-- What the step leaves in `m_comms`: null, or the communicator with its status. -/
def HandshakeStep.effect : HandshakeStep → Option CommStatus → Option CommStatus
  | initComm, _ => some .notReady
  | setReadyInternal, _ => some .readyInternal
  | setReady, _ => some .ready
  | _, entry => entry

/-- What `m_comms` holds while the steps `rest` are still to come. -/
def statusAt (rest : List HandshakeStep) : Option CommStatus :=
  if initComm ∈ rest then none
  else if setReadyInternal ∈ rest then some .notReady
  else if setReady ∈ rest then some .readyInternal
  else some .ready

theorem statusAt_handshake (role : Role) (faultTolerance : Bool) :
    statusAt (handshake role faultTolerance) = none := by
  cases role <;> cases faultTolerance <;> decide

/-- Every step leaves what belongs to the steps after it, and one that can fail comes
before the communicator is `READY`. -/
theorem HandshakeStep.effect_statusAt {role : Role} {faultTolerance : Bool} {step : HandshakeStep}
    {rest : List HandshakeStep} (h : step :: rest <:+ handshake role faultTolerance) :
    step.effect (statusAt (step :: rest)) = statusAt rest ∧
      (step.canFail = true → statusAt (step :: rest) ≠ some .ready) := by
  have hall : ∀ l ∈ (handshake role faultTolerance).tails, ∀ step ∈ l.head?,
      step.effect (statusAt l) = statusAt l.tail ∧
        (step.canFail = true → statusAt l ≠ some .ready) := by
    cases role <;> cases faultTolerance <;> decide
  exact hall _ ((List.mem_tails _ _).2 h) step rfl

end Connection
end Lfi
