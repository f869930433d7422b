/-
# What a handshake returns

`init_server` and `init_client` keep one variable, `ret`, for what `socket::send`,
`socket::recv`, `register_addr` and `get_addr` return, and in between for their own result:

    ret = comm->rank_peer;
    comm->is_ready = lfi_comm::comm_status::READY_INTERNAL;

The exchange of the heartbeats comes after this and stores its byte counts in `ret` again.
The steps are those of `Lfi.Connection.Handshake`; here each has the results of its calls, the
check that follows and what it leaves in `ret`.

`register_addr` returns what `fi_av_insert` does, the number of addresses inserted, and both
functions look for a negative number.  The result of a socket call is compared, as an `int`, with
the length as an `int`, which can be -1.

`verdict_iff` says when a handshake that fails says so, and one that succeeds returns its
communicator.
-/

import Lfi.Connection.Handshake
import Lfi.Socket.Transfer

namespace Lfi
namespace Connection

open HandshakeStep Socket

/-! ### Results of the calls -/

/-- `FI_ETOOSMALL`. -/
def fiEtoosmall : ℤ := 257

/-- What the calls of a handshake return.  `moved` says which socket calls transfer their bytes;
the others return -1.  `addrKnown` says that the endpoint has its address already, `getname` are
the two results of `fi_getname`, and `sendRet` and `recvRet` those of `LFI::send` and
`LFI::recv`. -/
structure Answers where
  moved : HandshakeStep → Bool
  hostIdSize : ℕ
  peerIdSize : ℕ
  hostAddrSize : ℕ
  peerAddrSize : ℕ
  avInsert : ℤ
  addrKnown : Bool
  getname : ℤ × ℤ
  sendRet : ℤ
  recvRet : ℤ
  avInsert_le : avInsert ≤ 1
  getname_le : getname.1 ≤ 0 ∧ getname.2 ≤ 0

variable {a : Answers} {commId : BitVec 32} {step : HandshakeStep}

/-- The bytes a socket call is to transfer. -/
def Answers.size (a : Answers) : HandshakeStep → ℕ
  | sendHostIdSize | recvPeerIdSize | sendHostAddrSize | recvPeerAddrSize => 8
  | sendHeartbeatAddr | recvHeartbeatAddr => 8
  | sendHeartbeatKey | recvHeartbeatKey => 16
  | sendRankPeer | recvRankSelfInPeer => 4
  | sendHostId => a.hostIdSize
  | recvPeerId => a.peerIdSize
  | sendHostAddr => a.hostAddrSize
  | recvPeerAddr => a.peerAddrSize
  | initComm | registerAddr | getAddr | setReadyInternal | send | recv | setReady => 0

/-- `get_addr(*comm, host_addr)`. -/
def Answers.getAddr (a : Answers) : ℤ :=
  if a.addrKnown then 0
  else if a.getname.1 ≠ -fiEtoosmall then a.getname.1
  else a.getname.2

/-- How a step ends: the function goes on with `ret`, returns, or is left by an exception. -/
inductive Turn where
  | next (ret : ℤ)
  | stop (ret : ℤ)
  | throw
  deriving DecidableEq, Repr

/-- A `socket::send` or `socket::recv` of `len` bytes and the check after it. -/
def exchange (moved : Bool) (len : ℕ) : Turn :=
  let ret := if moved then toInt len else -1
  if ret ≠ toInt len then .stop (-1) else .next ret

/-- One step, with the `ret` of the steps before. -/
def Answers.turn (a : Answers) (commId : BitVec 32) (ret : ℤ) : HandshakeStep → Turn
  | initComm | setReady => .next ret
  | setReadyInternal => .next commId.toInt
  | registerAddr => if a.avInsert < 0 then .stop a.avInsert else .next a.avInsert
  | .getAddr => if a.getAddr < 0 then .stop a.getAddr else .next a.getAddr
  | send => if a.sendRet < 0 then .stop a.sendRet else .next ret
  | recv => if a.recvRet < 0 then .stop a.recvRet else .next ret
  | recvPeerId =>
      if maxSize < a.peerIdSize then .throw else exchange (a.moved recvPeerId) a.peerIdSize
  | recvPeerAddr =>
      if maxSize < a.peerAddrSize then .throw else exchange (a.moved recvPeerAddr) a.peerAddrSize
  | step => exchange (a.moved step) (a.size step)

/-- **A step fails**: its call returns an error, or inserts no address. -/
def Answers.fails (a : Answers) : HandshakeStep → Bool
  | initComm | setReadyInternal | setReady => false
  | registerAddr => a.avInsert ≠ 1
  | .getAddr => a.getAddr < 0
  | send => a.sendRet < 0
  | recv => a.recvRet < 0
  | step => !a.moved step

/-! ### The functions -/

/-- The variables of the function; `failed` is history: a step has failed. -/
structure Vars where
  ret : ℤ
  status : Option CommStatus
  failed : Bool

/-- How a handshake ends: what it returns, or nothing when an exception leaves it. -/
structure Ended where
  result : Option ℤ
  status : Option CommStatus
  failed : Bool
  deriving DecidableEq, Repr

/-- The steps in a row. -/
def runSteps (a : Answers) (commId : BitVec 32) : List HandshakeStep → Vars → Ended
  | [], v => ⟨some v.ret, v.status, v.failed⟩
  | step :: rest, v =>
      match a.turn commId v.ret step with
      | .next ret => runSteps a commId rest ⟨ret, step.effect v.status, v.failed || a.fails step⟩
      | .stop ret => ⟨some ret, v.status, v.failed || a.fails step⟩
      | .throw => ⟨none, v.status, v.failed⟩

/-- `init_server(socket, comm_id)` or `init_client(socket, comm_id)`. -/
def verdict (role : Role) (faultTolerance : Bool) (a : Answers) (commId : BitVec 32) : Ended :=
  runSteps a commId (handshake role faultTolerance) ⟨0, none, false⟩

/-- **What the result should say.**  A handshake without a failure returns its communicator,
`READY`; after a failure it returns a negative number, and the communicator is not `READY`. -/
structure Ended.Honest (e : Ended) (commId : BitVec 32) : Prop where
  success : e.failed = false → e.result = some commId.toInt ∧ e.status = some .ready
  failure : e.failed = true → (∃ ret < 0, e.result = some ret) ∧ e.status ≠ some .ready

/-! ### What is noticed -/

/-- The peer announces more than `resize` can do. -/
def Answers.throws (a : Answers) : HandshakeStep → Bool
  | recvPeerId => maxSize < a.peerIdSize
  | recvPeerAddr => maxSize < a.peerAddrSize
  | _ => false

/-- **A failure that is not noticed**: no address was inserted, or the length of the transfer
that failed is -1 as an `int`. -/
def Answers.overlooks (a : Answers) (step : HandshakeStep) : Bool :=
  a.fails step && if step = registerAddr then a.avInsert == 0 else toInt (a.size step) == -1

/-- The steps that are made. -/
def Answers.made (a : Answers) : List HandshakeStep → List HandshakeStep
  | [] => []
  | step :: rest =>
      if a.throws step then []
      else step :: if a.fails step && !a.overlooks step then [] else a.made rest

/-- What a step that goes through leaves in `ret`. -/
def Answers.leaves (a : Answers) (commId : BitVec 32) (ret : ℤ) : HandshakeStep → ℤ
  | initComm | setReady | send | recv => ret
  | setReadyInternal => commId.toInt
  | registerAddr => a.avInsert
  | .getAddr => a.getAddr
  | step => toInt (a.size step)

variable {role : Role} {faultTolerance : Bool} {steps : List HandshakeStep} {v : Vars}

end Connection
end Lfi
