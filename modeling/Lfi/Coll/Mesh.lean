/-
# The full mesh of `lfi_group_create`

`lfi_group_create` in `src/lfi_coll.cpp` builds a group in phases.  The
coordination phase gives every process a rank and the table of the ports of
all mesh servers; phase 4 then connects every pair of processes: the process of
rank `my_rank` runs

    for (size_t j = 0; j < n_hosts; j++) {
        if (static_cast<int>(j) == my_rank) continue;
        if (static_cast<int>(j) < my_rank)
            out_group->ranks[j] = lfi_client_create_t(hostnames[j], port_table[j], timeout_ms);
        else
            out_group->ranks[j] = lfi_server_accept_t(mesh_server_fd, timeout_ms);
    }

`lfi_client_create_t` and `lfi_server_accept_t` (`src/lfi.cpp`) reserve a fresh
communicator id and run the handshake over the socket they opened, so a
communicator has at its other end the communicator the peer reserved for the
same TCP connection.  The connecting process names its peer; the accepting one
does not: it takes the connection that reached its mesh server first, whoever
made it, and stores it in the slot its loop counter is at.

The model is of the runs in which every call succeeds.  `meshStep_cases` says
what a step can do; the invariant is in `Lfi.Coll.MeshInvariant` and the
condition under which every slot names the process it is connected to in
`Lfi.Coll.MeshIdentity`.
-/

import Lfi.Runs.Basic
import Mathlib.Data.List.Nodup
import Mathlib.Logic.Function.Basic

namespace Lfi
namespace Coll

open Runs

/-- What every process holds after the coordination phase: the list of host
names the group was created with and the port of each rank's mesh server.  Two
mesh servers of one host have different ports, since both are bound. -/
structure PortTable where
  hostnames : List String
  ports : List ℕ
  length_ports : ports.length = hostnames.length
  nodup_addrs : (hostnames.zip ports).Nodup

/-- `n_hosts`. -/
def PortTable.nHosts (tbl : PortTable) : ℕ := tbl.hostnames.length

/-- The rank whose mesh server listens at the address. -/
def PortTable.listener (tbl : PortTable) (host : String) (port : ℕ) : Option ℕ :=
  (tbl.hostnames.zip tbl.ports).findIdx? (· == (host, port))

/-- One end of a connection: the rank of a process and the communicator id it
reserved for it. -/
structure CommEnd where
  rank : ℕ
  comm : ℕ
  deriving DecidableEq, Repr

/-- A process in phase 4: its loop counter, `out_group->ranks` (`none` is `-1`)
and the counter `reserve_comm` takes ids from. -/
structure Proc where
  j : ℕ
  ranks : ℕ → Option ℕ
  rankCounter : ℕ

/-- A mesh server: the connections that reached it, in order of arrival, each
named by its connecting end, and how many of them were accepted. -/
structure MeshServer where
  arrived : List CommEnd
  accepted : ℕ

/-- All processes of the group in phase 4.  `inFlight` holds the connections on
the way to a mesh server, `links` the two ends of every handshake, the
connecting one first. -/
structure MeshState where
  procs : ℕ → Proc
  servers : ℕ → MeshServer
  inFlight : List (ℕ × CommEnd)
  links : List (CommEnd × CommEnd)

/-- A step of phase 4: a process runs one iteration of its loop, or a
connection reaches the mesh server of rank `i`. -/
inductive MeshAction where
  | iter (p : ℕ)
  | arrive (i : ℕ) (e : CommEnd)
  deriving DecidableEq, Repr

/-- Phase 4 begins: nothing is connected, and the processes may have reserved
communicators before. -/
def meshInit (counter : ℕ → ℕ) : MeshState where
  procs p := ⟨0, fun _ => none, counter p⟩
  servers _ := ⟨[], 0⟩
  inFlight := []
  links := []

/-- The process after `out_group->ranks[j] = reserve_comm()`, one iteration on. -/
def Proc.store (q : Proc) : Proc :=
  ⟨q.j + 1, Function.update q.ranks q.j (some q.rankCounter), q.rankCounter + 1⟩

/-- `lfi_client_create_t(hostnames[j], port_table[j], timeout_ms)` by `p`: the
connection is on its way to whoever listens at that address. -/
def clientCreate (tbl : PortTable) (s : MeshState) (p : ℕ) : Option MeshState :=
  let q := s.procs p
  match tbl.hostnames[q.j]?, tbl.ports[q.j]? with
  | some host, some port =>
      (tbl.listener host port).map fun d =>
        { s with
          procs := Function.update s.procs p q.store
          inFlight := s.inFlight ++ [(d, ⟨p, q.rankCounter⟩)] }
  | _, _ => none

/-- `lfi_server_accept_t(mesh_server_fd, timeout_ms)` by `p`: the next arrived
connection, and the handshake over it.  The process waits while there is none. -/
def serverAccept (s : MeshState) (p : ℕ) : Option MeshState :=
  let q := s.procs p
  let srv := s.servers p
  srv.arrived[srv.accepted]?.map fun e =>
    { s with
      procs := Function.update s.procs p q.store
      servers := Function.update s.servers p ⟨srv.arrived, srv.accepted + 1⟩
      links := s.links ++ [(e, ⟨p, q.rankCounter⟩)] }

/-- One step of the group. -/
def meshStep (tbl : PortTable) (s : MeshState) : MeshAction → Option MeshState
  | .iter p =>
      let q := s.procs p
      if p < tbl.nHosts ∧ q.j < tbl.nHosts then
        if q.j = p then
          some { s with procs := Function.update s.procs p { q with j := q.j + 1 } }
        else if q.j < p then clientCreate tbl s p
        else serverAccept s p
      else none
  | .arrive i e =>
      if (i, e) ∈ s.inFlight then
        some { s with
          inFlight := s.inFlight.erase (i, e)
          servers := Function.update s.servers i
            ⟨(s.servers i).arrived ++ [e], (s.servers i).accepted⟩ }
      else none

/-- The loop of `p` is over and its `lfi_group_create` returns `LFI_SUCCESS`. -/
def Returned (tbl : PortTable) (s : MeshState) (p : ℕ) : Prop :=
  (s.procs p).j = tbl.nHosts

/-- The two ends belong to one connection. -/
def Linked (s : MeshState) (a b : CommEnd) : Prop :=
  (a, b) ∈ s.links ∨ (b, a) ∈ s.links

/-- **Mesh identity.**  For all ranks `i ≠ j` the communicator in `ranks[j]` of
process `i` has one other end, and it is the communicator in `ranks[i]` of
process `j`. -/
def MeshIdentity (tbl : PortTable) (s : MeshState) : Prop :=
  ∀ i j, i < tbl.nHosts → j < tbl.nHosts → i ≠ j →
    ∃ a b, (s.procs i).ranks j = some a ∧ (s.procs j).ranks i = some b ∧
      ∀ e, Linked s ⟨i, a⟩ e ↔ e = ⟨j, b⟩

/-- The ranks whose connections reached the mesh server of rank `i`, in the
order they did. -/
def arrivalOrder (as : List MeshAction) (i : ℕ) : List ℕ :=
  as.filterMap fun a => match a with
    | .arrive d e => if d = i then some e.rank else none
    | .iter _ => none

/-! ### What a step does -/

/-- The address of rank `j` leads to rank `j`. -/
theorem PortTable.listener_eq (tbl : PortTable) {j : ℕ} {host : String} {port : ℕ}
    (hh : tbl.hostnames[j]? = some host) (hp : tbl.ports[j]? = some port) :
    tbl.listener host port = some j := by
  obtain ⟨hjh, rfl⟩ := List.getElem?_eq_some_iff.1 hh
  obtain ⟨hjp, rfl⟩ := List.getElem?_eq_some_iff.1 hp
  have hj : j < (tbl.hostnames.zip tbl.ports).length := by
    rw [List.length_zip]; omega
  have hget : (tbl.hostnames.zip tbl.ports)[j] = (tbl.hostnames[j], tbl.ports[j]) :=
    List.getElem_zip
  rw [PortTable.listener, List.findIdx?_eq_some_iff_getElem]
  refine ⟨hj, by rw [hget]; exact beq_self_eq_true _, fun k hk hkj => ?_⟩
  rw [beq_iff_eq, ← hget] at hkj
  have := (tbl.nodup_addrs.getElem_inj_iff).1 hkj
  omega

/-- The steps of phase 4, one case for each: `continue`, connect to the lower
rank `j`, accept a connection into the slot `j` of a higher one, arrival. -/
theorem meshStep_cases {tbl : PortTable} {s t : MeshState} {a : MeshAction}
    (h : meshStep tbl s a = some t) :
    (∃ p, a = .iter p ∧ (s.procs p).j < tbl.nHosts ∧ (s.procs p).j = p ∧
      t = { s with procs := Function.update s.procs p { s.procs p with j := p + 1 } }) ∨
    (∃ p, a = .iter p ∧ p < tbl.nHosts ∧ (s.procs p).j < p ∧
      t = { s with
        procs := Function.update s.procs p (s.procs p).store
        inFlight := s.inFlight ++ [((s.procs p).j, ⟨p, (s.procs p).rankCounter⟩)] }) ∨
    (∃ p e, a = .iter p ∧ p < (s.procs p).j ∧ (s.procs p).j < tbl.nHosts ∧
      (s.servers p).arrived[(s.servers p).accepted]? = some e ∧
      t = { s with
        procs := Function.update s.procs p (s.procs p).store
        servers := Function.update s.servers p
          ⟨(s.servers p).arrived, (s.servers p).accepted + 1⟩
        links := s.links ++ [(e, ⟨p, (s.procs p).rankCounter⟩)] }) ∨
    (∃ i e, a = .arrive i e ∧ (i, e) ∈ s.inFlight ∧
      t = { s with
        inFlight := s.inFlight.erase (i, e)
        servers := Function.update s.servers i
          ⟨(s.servers i).arrived ++ [e], (s.servers i).accepted⟩ }) := by
  cases a with
  | iter p =>
      simp only [meshStep] at h
      split at h
      case isFalse => cases h
      case isTrue hlt =>
        split at h
        case isTrue hj =>
          refine .inl ⟨p, rfl, hlt.2, hj, ?_⟩
          rw [← Option.some.inj h, hj]
        case isFalse hj =>
          split at h
          case isTrue hjp =>
            refine .inr (.inl ⟨p, rfl, hlt.1, hjp, ?_⟩)
            have hjn : (s.procs p).j < tbl.ports.length := by
              rw [tbl.length_ports]; exact hlt.2
            simp only [clientCreate, List.getElem?_eq_getElem hlt.2,
              List.getElem?_eq_getElem hjn] at h
            rw [tbl.listener_eq (List.getElem?_eq_getElem hlt.2)
              (List.getElem?_eq_getElem hjn), Option.map_some] at h
            exact (Option.some.inj h).symm
          case isFalse hjp =>
            simp only [serverAccept] at h
            obtain ⟨e, he, rfl⟩ := Option.map_eq_some_iff.1 h
            exact .inr (.inr (.inl ⟨p, e, rfl, by omega, hlt.2, he, rfl⟩))
  | arrive i e =>
      simp only [meshStep] at h
      split at h
      case isTrue hmem => exact .inr (.inr (.inr ⟨i, e, rfl, hmem, (Option.some.inj h).symm⟩))
      case isFalse => cases h

end Coll
end Lfi
