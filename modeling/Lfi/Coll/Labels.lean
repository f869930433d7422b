/-
# The labels of a collective

`lfi_barrier`, `lfi_broadcast` and `lfi_allreduce` in `src/lfi_coll.cpp` end the same way:

    error:
        for (auto &&req : requests) {
            lfi_cancel(req);
        }
    cleanup:
        lfi_wait_all(requests.data(), requests.size());
        for (auto &&req : requests) {
            lfi_request_free(req);
        }

What comes before is a list of instructions (`CollectiveCall.program`), and `collStep` runs it
in a process with both endpoints.  Between its steps other threads do to the endpoints and their
communicators what they want, except to post or to free the requests of the call, to which they
have no pointer.
-/

import Lfi.Coll.Errors
import Lfi.Coll.Lifecycle
import Lfi.Coll.Reduce
import Lfi.Impl.Endpoint
import Lfi.Impl.Post
import Mathlib.Data.List.ReduceOption

namespace Lfi
namespace Coll

open Impl (PostCall asyncPost LfiRequest FabricEvent)

/-! ### The three functions -/

/-- A request, and the call that posts it; `comm` is `group->ranks[i]`, none when the array is
not there. -/
structure Posting where
  comm : Option ℤ
  call : PostCall
  deriving DecidableEq

/-- What a collective does before its labels.  `flush` is the wait and the frees between the
phases of `lfi_allreduce`, `reduce` the `switch` over the type. -/
inductive CollInstr where
  | post (o : Posting)
  | flush
  | reduce (known : Bool)
  deriving DecidableEq

/-- The arguments of a call beside the group.  `dummy`, `data` and `gather` are addresses, and a
type is none when it is not one of the five. -/
inductive CollectiveCall where
  | barrier (dummy : ℕ)
  | broadcast (root : ℤ) (data size : ℕ)
  | allreduce (data gather : ℕ) (type : Option OpType)
  deriving DecidableEq

section Programs

variable (g : LfiGroup)

/-- The `i` a loop over the group goes through: `static_cast<int>(i) != root`. -/
def LfiGroup.others (root : ℤ) : List ℕ :=
  (List.range g.size).filter fun i => (i : ℤ).bmod (2 ^ 32) ≠ root

/-- In a group of at most `2 ^ 31` processes the conversion changes nothing, and
`Lfi.Coll.Lifecycle` goes without it. -/
theorem LfiGroup.others_eq_peers {root : ℤ} (hsize : g.size ≤ 2147483648) (hroot : g.rank = root) :
    g.others root = g.peers root := by
  rw [others, peers, if_pos hroot]
  refine List.filter_congr fun i hi => ?_
  have hlt := List.mem_range.1 hi
  have hmod : (i : ℤ).bmod (2 ^ 32) = i := by
    rw [Int.bmod_def]
    omega
  rw [hmod]

/-- A request for `group->ranks[i]` that `lfi_tsend_async` posts. -/
def LfiGroup.send (i buffer size tag : ℕ) : CollInstr :=
  .post ⟨g.rankAt i, .send buffer size tag false false⟩

/-- The same of `lfi_trecv_async`. -/
def LfiGroup.recv (i buffer size tag : ℕ) : CollInstr :=
  .post ⟨g.rankAt i, .recv buffer size tag false false⟩

/-- `lfi_barrier(group)`. -/
def barrierProgram (dummy : ℕ) : List CollInstr :=
  let root := 0
  if g.rank = root then
    (g.others root).flatMap fun i =>
      [g.recv i dummy 0 lfiTagBarrier, g.send i dummy 0 lfiTagBarrier]
  else [g.recv root.toNat dummy 0 lfiTagBarrier, g.send root.toNat dummy 0 lfiTagBarrier]

/-- `lfi_broadcast(group, root, data, size)`. -/
def broadcastProgram (root : ℤ) (data size : ℕ) : List CollInstr :=
  if g.rank = root then (g.others root).map fun i => g.send i data size lfiTagBroadcast
  else [g.recv root.toNat data size lfiTagBroadcast]

/-- `lfi_allreduce(group, data, type, op)`; `gather` is where `gather_buffers` begins, and
`type_size` has a 0 for any other type. -/
def allreduceProgram (data gather : ℕ) (type : Option OpType) : List CollInstr :=
  let root := 0
  let size := (type.map typeSize).getD 0
  if g.rank = root then
    ((g.others root).zipIdx.map fun p => g.recv p.1 (gather + 8 * p.2) size lfiTagAllreduce) ++
      [.flush, .reduce type.isSome] ++
      (g.others root).map fun i => g.send i data size lfiTagAllreduce
  else
    [g.send root.toNat data size lfiTagAllreduce, .flush,
      g.recv root.toNat data size lfiTagAllreduce]

/-- What a call runs. -/
def CollectiveCall.program : CollectiveCall → List CollInstr
  | .barrier dummy => barrierProgram g dummy
  | .broadcast root data size => broadcastProgram g root data size
  | .allreduce data gather type => allreduceProgram g data gather type

end Programs

/-! ### A process in a call -/

/-- A pointer to a request that is not null: `shm_ep` or `peer_ep`, and its name there. -/
structure Handle where
  shm : Bool
  req : ℕ
  deriving DecidableEq, Repr

/-- Where a wait and its frees lead: to the rest of the program, or to the end of the call. -/
inductive After where
  | more (program : List CollInstr)
  | done (ret : ℤ)
  deriving DecidableEq

/-- How far the call is.  `post` is behind `lfi_request_create`, `cancel` at the label `error`,
and `wait` before `lfi_wait_all`; `fault` is an access through a null pointer. -/
inductive CollPc where
  | run (program : List CollInstr)
  | post (req : Option Handle) (call : PostCall) (program : List CollInstr)
  | cancel (i : ℕ) (ret : ℤ)
  | wait (after : After)
  | free (i : ℕ) (after : After)
  | fault
  | returned (ret : ℤ)
  deriving DecidableEq

/-- The process: `shm_ep` and `peer_ep`, the vector `requests` with its null pointers, and the
call.  The rest is history: the requests created, those freed with what `is_completed()` said
then, the arrays that `lfi_wait_all` got, and what the first posting call that failed returned. -/
structure CollState where
  ep : Bool → Impl.State
  requests : List (Option Handle)
  pc : CollPc
  created : List Handle
  freed : List (Handle × Bool)
  passed : List (List (Option Handle))
  failed : Option ℤ

/-- What happens: the steps of the call, and those of other threads.  `k` is the name of a new
request, none when `new` fails. -/
inductive CollAction where
  | create (k : Option ℕ)
  | post
  | jump
  | cancel (events : List FabricEvent)
  | wait
  | free (events : List FabricEvent)
  | others (shm : Bool) (ep : Impl.State)

/-- `is_completed()` of a request that is there. -/
def completed (s : Impl.State) (k : ℕ) : Bool :=
  (s.core.requests (.user k)).any LfiRequest.isCompleted

/-- Others leave a request where it is, and completed if it is. -/
def Spares (s t : Impl.State) (k : ℕ) : Prop :=
  (s.core.requests (.user k) ≠ none → t.core.requests (.user k) ≠ none) ∧
    (completed s k = true → completed t k = true)

instance (s t : Impl.State) (k : ℕ) : Decidable (Spares s t k) :=
  inferInstanceAs (Decidable ((_ → _) ∧ (_ → _)))

namespace CollState

variable (env : Bool → Impl.Env) (s : CollState)

def setEp (shm : Bool) (t : Impl.State) : CollState :=
  { s with ep := Function.update s.ep shm t }

def isCompleted (h : Handle) : Bool := completed (s.ep h.shm) h.req

/-- `int id` as the `uint32_t` that `m_comms` is asked for. -/
def commId (id : ℤ) : Impl.CommId := (id % 2 ^ 32).toNat

/-- The endpoint of the communicator, if it is in `m_comms`. -/
def lookup (id : ℤ) : Option Bool :=
  if commId id ∈ (s.ep true).ft.commIds then some true
  else if commId id ∈ (s.ep false).ft.commIds then some false
  else none

/-- `requests.emplace_back(lfi_request_create(id))`, with the pointer it gives. -/
def requestCreate (id : ℤ) (k : Option ℕ) : Option (Option Handle × CollState) :=
  match s.lookup id, k with
  | some shm, some k =>
      let ep := s.ep shm
      if ep.core.requests (.user k) = none then
        let h : Handle := ⟨shm, k⟩
        let q := LfiRequest.new (commId id)
        some (some h, { s.setEp shm ⟨ep.core.setRequest (.user k) (some q), ep.ft⟩ with
          requests := s.requests ++ [some h]
          created := s.created ++ [h] })
      else none
  | _, _ => some (none, { s with requests := s.requests ++ [none] })

/-- `lfi_tsend_async` or `lfi_trecv_async`. -/
def postAsync (req : Option Handle) (call : PostCall) : ℤ × CollState :=
  match req with
  | none => (-lfiNullRequest, s)
  | some h =>
      let p := asyncPost (env h.shm) (s.ep h.shm) (.user h.req) call
      (p.1, s.setEp h.shm p.2)

/-- `lfi_cancel`. -/
def cancelRequest (req : Option Handle) (events : List FabricEvent) : CollState :=
  match req with
  | none => s
  | some h => s.setEp h.shm (Impl.cancel (env h.shm) (s.ep h.shm) (.user h.req) events)

/-- `lfi_request_free`. -/
def freeRequest (req : Option Handle) (events : List FabricEvent) : CollState :=
  match req with
  | none => s
  | some h =>
      { s.setEp h.shm (Impl.requestFree (env h.shm) (s.ep h.shm) (.user h.req) events) with
        freed := s.freed ++ [(h, s.isCompleted h)] }

/-- The requests that `wait_num` reads and waits for; it takes their number as an `int`. -/
def awaited : List (Option Handle) :=
  s.requests.take ((s.requests.length : ℤ).bmod (2 ^ 32)).toNat

/-- The pointers the call still has to free. -/
def pending : List (Option Handle) :=
  match s.pc with
  | .free i _ => s.requests.drop i
  | .returned _ => []
  | _ => s.requests

end CollState

/-- One step.  `lfi_wait_all` has no time limit, so it goes on when the requests it waits for are
completed. -/
def collStep (env : Bool → Impl.Env) (s : CollState) : CollAction → Option CollState
  | .create k =>
      match s.pc with
      | .run (.post o :: program) =>
          match o.comm with
          | none => some { s with pc := .fault }
          | some id =>
              (s.requestCreate id k).map fun p => { p.2 with pc := .post p.1 o.call program }
      | _ => none
  | .post =>
      match s.pc with
      | .post req call program =>
          let p := s.postAsync env req call
          some (if p.1 < 0 then { p.2 with failed := some p.1, pc := .cancel 0 p.1 }
            else { p.2 with pc := .run program })
      | _ => none
  | .jump =>
      match s.pc with
      | .run [] => some { s with pc := .wait (.done 0) }
      | .run (.flush :: program) => some { s with pc := .wait (.more program) }
      | .run (.reduce true :: program) => some { s with pc := .run program }
      | .run (.reduce false :: _) => some { s with pc := .cancel 0 (-1) }
      | _ => none
  | .cancel events =>
      match s.pc with
      | .cancel i ret =>
          match s.requests[i]? with
          | some req => some { s.cancelRequest env req events with pc := .cancel (i + 1) ret }
          | none => some { s with pc := .wait (.done ret) }
      | _ => none
  | .wait =>
      match s.pc with
      | .wait after =>
          let t := { s with passed := s.passed ++ [s.requests] }
          if none ∈ s.awaited then some { t with pc := .fault }
          else if ∀ h ∈ s.awaited.reduceOption, s.isCompleted h = true then
            some { t with pc := .free 0 after }
          else none
      | _ => none
  | .free events =>
      match s.pc with
      | .free i after =>
          match s.requests[i]?, after with
          | some req, _ => some { s.freeRequest env req events with pc := .free (i + 1) after }
          | none, .more program => some { s with requests := [], pc := .run program }
          | none, .done ret => some { s with pc := .returned ret }
      | _ => none
  | .others shm t =>
      if ∀ h ∈ s.pending.reduceOption, h.shm = shm → Spares (s.ep shm) t h.req then
        some (s.setEp shm t)
      else none

/-- The call begins; a group of size 0 is turned away. -/
def CollectiveCall.start (ep : Bool → Impl.State) (g : LfiGroup) (call : CollectiveCall) :
    CollState :=
  ⟨ep, [], if g.size = 0 then .returned (-1) else .run (call.program g), [], [], [], none⟩

end Coll
end Lfi
