/-
# The state of an endpoint

One endpoint with its communicators and requests, as `src/src/impl` keeps them.
The state has two halves.  `Core` is what a request goes through: the requests,
the contexts that tie them to operations, the queues of operations not yet handed
to the fabric and those the fabric holds.  `Ft` is what fault tolerance adds: the
communicators with the requests outstanding on each, the list of those it
monitors, and the bookkeeping of a pass.  A function that touches one half has its
type, so that it leaves the other alone.

Pointers are names: a communicator is its id, a context or a callback a number, a
request a `ReqId`, whose heartbeat case is the `ft_heartbeat_req` of a
communicator.  The reads of the clock and what the fabric does are arguments of
the functions that depend on them.  Every communicator here is past its handshake.
-/

import Lfi.Impl.DoubleLinkedList
import Mathlib.Data.Finset.Card

namespace Lfi
namespace Impl

/-! ### Names and constants -/

/-- `rank_peer`, the id of a communicator. -/
abbrev CommId := ℕ

/-- `LFI_ANY_COMM_SHM`. -/
def anyCommShm : CommId := 0xFFFFFFFF - 1

/-- `LFI_ANY_COMM_PEER`. -/
def anyCommPeer : CommId := 0xFFFFFFFF - 2

/-- `UNINITIALIZED_COMM`. -/
def uninitializedComm : CommId := 0xFFFFFFFF

/-- `rank_peer == ANY_COMM_SHM || rank_peer == ANY_COMM_PEER`. -/
def isAnyComm (c : CommId) : Bool := c == anyCommShm || c == anyCommPeer

/-- A request: one the user created, or the `ft_heartbeat_req` of a communicator. -/
inductive ReqId where
  | user (k : ℕ)
  | heartbeat (c : CommId)
  deriving DecidableEq, Repr

/-- `LFI_SUCCESS`. -/
def lfiSuccess : ℤ := 0
/-- `LFI_CANCELED`. -/
def lfiCanceled : ℤ := 3
/-- `LFI_BROKEN_COMM`. -/
def lfiBrokenComm : ℤ := 4
/-- `LFI_COMM_NOT_FOUND`. -/
def lfiCommNotFound : ℤ := 5
/-- `LFI_PEEK_NO_MSG`. -/
def lfiPeekNoMsg : ℤ := 6
/-- `LFI_SEND_ANY_COMM`. -/
def lfiSendAnyComm : ℤ := 9
/-- `LFI_ETRUN_RECV`. -/
def lfiEtrunRecv : ℤ := 10
/-- `LFI_LIBFABRIC_ERROR`. -/
def lfiLibfabricError : ℤ := 11
/-- `LFI_IOV_LIMIT`. -/
def lfiIovLimit : ℤ := 16

/-- `FI_EAGAIN`. -/
def fiEagain : ℤ := 11
/-- `FI_ECANCELED`. -/
def fiEcanceled : ℕ := 125
/-- `FI_ENOMSG`. -/
def fiEnomsg : ℕ := 42
/-- `FI_ETRUNC`. -/
def fiEtrunc : ℕ := 265

/-- `MASK_RANK`. -/
def maskRank : ℕ := 0xFFFFFFFF00000000
/-- `MASK_RANK_BYTES`. -/
def maskRankBytes : ℕ := 32
/-- `MASK_TAG`. -/
def maskTag : ℕ := 0x00000000FFFFFFFF

/-- `HEARBEAT_CODE`. -/
def hearbeatCode : ℕ := 0xBAADC0DEDEAD11FE

/-- What stays fixed: the environment variables (`faultToleranceTime` in seconds),
`is_shm` of the endpoint and the limits of its provider. -/
structure Env where
  faultTolerance : Bool
  faultToleranceTime : ℤ
  efficientProgress : Bool
  useInject : Bool
  isShm : Bool
  injectSize : ℕ
  iovLimit : ℕ

/-- The values the environment variables have unless they are set, with the limits
of some provider. -/
def Env.default : Env where
  faultTolerance := true
  faultToleranceTime := 5
  efficientProgress := true
  useInject := false
  isShm := false
  injectSize := 64
  iovLimit := 4

/-- `lfi_mr_key`. -/
structure LfiMrKey where
  shmKey : ℤ
  peerKey : ℤ
  deriving DecidableEq, Repr

/-! ### Requests and operations -/

/-- `lfi_request::OpType`. -/
inductive OpType where
  | none
  | send
  | inject
  | put
  | get
  | recv
  deriving DecidableEq, Repr

/-- `lfi_request`.  `waitContext` is `wait_context`, and `callback` names
`callback` with its `callback_ctx`. -/
structure LfiRequest where
  commId : CommId
  error : ℤ
  waitContext : Option ℕ
  opType : OpType
  size : ℕ
  tag : ℕ
  source : CommId
  sharedWaitStruct : Option ℕ
  callback : Option ℕ
  deriving DecidableEq, Repr

/-- `lfi_request(endpoint, comm)`. -/
def LfiRequest.new (c : CommId) : LfiRequest :=
  ⟨c, 0, none, .none, 0, 0, uninitializedComm, none, none⟩

/-- `is_completed()`. -/
def LfiRequest.isCompleted (q : LfiRequest) : Bool := q.waitContext.isNone

/-- `lfi_pending_op::Type`. -/
inductive PendingType where
  | send
  | sendv
  | recv
  | recvv
  | inject
  | put
  | get
  deriving DecidableEq, Repr

/-- `lfi_pending_op`.  The last two fields are history: the request the operation
was posted for, and the number of that post. -/
structure LfiPendingOp where
  type : PendingType
  buf : ℕ
  len : ℕ
  addr : ℕ
  tagRemoteAddr : ℕ
  ignoreRemoteKey : ℕ
  context : ℕ
  owner : ReqId
  post : ℕ
  deriving DecidableEq, Repr

/-- A finished `complete`: the request with its communicator, the error it was
completed with and its source. -/
structure Completion where
  req : ReqId
  commId : CommId
  error : ℤ
  source : CommId
  deriving DecidableEq, Repr

/-- What requests go through.  `pool` is the `m_queue` of the context factory and
`created` its `m_stat_created`, the next context `new` returns; `inFlight` holds
the operations the fabric accepted and has not reported on.  The last three fields
are history: the number of posts, the last post of each request and every
completion. -/
structure Core where
  requests : ReqId → Option LfiRequest
  contexts : ℕ → Option ReqId
  pool : List ℕ
  created : ℕ
  priorityOps : List LfiPendingOp
  pendingOps : List LfiPendingOp
  inFlight : List LfiPendingOp
  callbacks : List (ℕ × ℤ)
  waitCount : ℕ → ℤ
  posts : ℕ
  lastPost : ReqId → ℕ
  completions : List Completion

/-! ### Communicators -/

/-- `lfi_comm::ft_status`. -/
inductive FtStatus where
  | idle
  | heartbeat
  | error
  deriving DecidableEq, Repr

/-- `lfi_comm`, its links apart. -/
structure LfiComm where
  rankSelfInPeer : ℕ
  fiAddr : ℕ
  ftRequests : DoubleLinkedList ReqId
  ftHeartbeatTimePoint : ℤ
  ftLastRequestTime : ℤ
  ftCurrentStatus : FtStatus
  ftValueHeartbeat : ℕ
  ftRemoteHeartbeatAddr : ℕ
  ftRemoteHeartbeatKey : LfiMrKey
  isCanceled : Bool

/-- What fault tolerance keeps.  `commIds` and `comm` are `m_comms`, restricted to
the endpoint; `commNodes` and `reqNodes` are the links of the communicators and of
the requests.  `failed` is history: the communicators `one_loop` has cancelled. -/
structure Ft where
  commIds : Finset CommId
  comm : CommId → LfiComm
  commNodes : Nodes CommId
  reqNodes : Nodes ReqId
  ftComms : DoubleLinkedList CommId
  ftAnyCommRequests : Finset ReqId
  ftPendingFailedComms : Finset CommId
  ftCanceledComs : List CommId
  ftRequestsToCancel : List ReqId
  ftLastProgress : ℤ
  ftProgressCount : ℕ
  failed : List CommId

/-- An endpoint. -/
structure State where
  core : Core
  ft : Ft

/-- The state with the communicator `c` replaced. -/
def Ft.setComm (s : Ft) (c : CommId) (x : LfiComm) : Ft :=
  { s with comm := Function.update s.comm c x }

/-- The state with the request `r` replaced. -/
def Core.setRequest (s : Core) (r : ReqId) (q : Option LfiRequest) : Core :=
  { s with requests := Function.update s.requests r q }

/-- The communicator an outstanding request is on; none when the request is
completed or is not there. -/
def Core.onComm (s : Core) (r : ReqId) : Option CommId :=
  match s.requests r with
  | some q => if q.isCompleted then none else some q.commId
  | none => none

/-! ### Fresh endpoints -/

/-- An endpoint on which nothing was posted yet: requests and communicators are
there, no request is outstanding and nothing is linked. -/
structure Fresh (s : State) : Prop where
  onComm : ∀ r, s.core.onComm r = none
  noHeartbeat : ∀ c, s.core.requests (.heartbeat c) = none
  contexts : ∀ c, s.core.contexts c = none
  pool : s.core.pool = []
  priorityOps : s.core.priorityOps = []
  pendingOps : s.core.pendingOps = []
  inFlight : s.core.inFlight = []
  completions : s.core.completions = []
  ftRequests : ∀ c, (s.ft.comm c).ftRequests = .empty
  idle : ∀ c, (s.ft.comm c).ftCurrentStatus = .idle
  notCanceled : ∀ c, (s.ft.comm c).isCanceled = false
  commNodes : ∀ c, s.ft.commNodes c = Node.free
  reqNodes : ∀ r, s.ft.reqNodes r = Node.free
  ftComms : s.ft.ftComms = .empty
  anys : s.ft.ftAnyCommRequests = ∅
  pending : s.ft.ftPendingFailedComms = ∅
  canceled : s.ft.ftCanceledComs = []
  toCancel : s.ft.ftRequestsToCancel = []
  failed : s.ft.failed = []

/-- The fresh endpoint with the communicators `ids`, the user's `k`-th request
created on `on k`, and `count` progress steps done since the last pass. -/
def freshState (ids : Finset CommId) (on : ℕ → CommId) (count : ℕ) : State where
  core :=
    { requests := fun r => match r with
        | .user k => some (LfiRequest.new (on k))
        | .heartbeat _ => none
      contexts := fun _ => none
      pool := []
      created := 0
      priorityOps := []
      pendingOps := []
      inFlight := []
      callbacks := []
      waitCount := fun _ => 0
      posts := 0
      lastPost := fun _ => 0
      completions := [] }
  ft :=
    { commIds := ids
      comm := fun _ => ⟨0, 0, .empty, 0, 0, .idle, 0, 0, ⟨-1, -1⟩, false⟩
      commNodes := fun _ => Node.free
      reqNodes := fun _ => Node.free
      ftComms := .empty
      ftAnyCommRequests := ∅
      ftPendingFailedComms := ∅
      ftCanceledComs := []
      ftRequestsToCancel := []
      ftLastProgress := 0
      ftProgressCount := count
      failed := [] }

theorem fresh_freshState (ids : Finset CommId) (on : ℕ → CommId) (count : ℕ) :
    Fresh (freshState ids on count) := by
  constructor <;> intros <;> first | rfl | skip
  next r => cases r <;> rfl

end Impl
end Lfi
