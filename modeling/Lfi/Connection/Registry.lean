/-
# The identifiers of a process

`m_comms` of `src/src/impl/comm.cpp`: the communicators of a process under their
identifiers.  The constructor of `LFI` puts the two any-comms there (`create_any_comm`),
`reserve_comm` an entry that is still null under the next number, `init_comm` the
communicator itself, and `close_comm` removes it.  The numbers are 32 bits wide and start
again from 0 when they are used up; `init_comm` ends the process on an entry that is not
null.

So a connected communicator never has the identifier of an any-comm
(`connected_ne_any`), and its peer knows it by the identifier it has
(`rankSelfInPeer_eq`).
-/

import Lfi.Connection.Agreement
import Lfi.Impl.State

namespace Lfi
namespace Connection

open HandshakeStep Runs

/-- An entry of `m_comms`: null, the communicator, or an any-comm. -/
inductive Entry where
  | reserved
  | connected
  | anyComm
  deriving DecidableEq, Repr

/-- `m_rank_counter` and `m_comms`. -/
structure Registry where
  rankCounter : BitVec 32
  comms : BitVec 32 → Option Entry

/-- `lfi_client_create` and `lfi_server_accept` reserve an identifier and give it to the
handshake; `lfi_client_close` takes that of a client. -/
inductive RegistryAction where
  | reserveComm
  | initComm (id : BitVec 32)
  | closeComm (id : BitVec 32)
  deriving DecidableEq

/-- `m_comms` with the entry of an identifier replaced. -/
def Registry.set (p : Registry) (id : BitVec 32) (e : Option Entry) : Registry :=
  { p with comms := Function.update p.comms id e }

/-- `create_any_comm`: nothing is replaced. -/
def createAnyComm (p : Registry) (id : BitVec 32) : Registry :=
  if p.comms id = none then p.set id (some .anyComm) else p

/-- The constructor of `LFI`. -/
def registryStart : Registry :=
  createAnyComm (createAnyComm ⟨0, fun _ => none⟩ (BitVec.ofNat 32 Impl.anyCommPeer))
    (BitVec.ofNat 32 Impl.anyCommShm)

/-- `reserve_comm`: nothing is replaced. -/
def reserveComm (p : Registry) : Registry :=
  let p' := { p with rankCounter := p.rankCounter + 1 }
  if p.comms p.rankCounter = none then p'.set p.rankCounter (some .reserved) else p'

/-- One action; `init_comm` calls `std::terminate` where there is none. -/
def registryStep (p : Registry) : RegistryAction → Option Registry
  | .reserveComm => some (reserveComm p)
  | .initComm id =>
      if p.comms id = some .reserved then some (p.set id (some .connected)) else none
  | .closeComm id => if p.comms id = some .connected then some (p.set id none) else none

/-- The any-comms stay where they are. -/
def AnyCommsKept (p : Registry) : Prop :=
  ∀ id : BitVec 32, Impl.isAnyComm id.toNat = true → p.comms id = some .anyComm

theorem Registry.set_comms (p : Registry) (id i : BitVec 32) (e : Option Entry) :
    (p.set id e).comms i = if i = id then e else p.comms i := by
  simp only [Registry.set, Function.update_apply]

/-- Replacing an entry that is not an any-comm keeps them. -/
theorem AnyCommsKept.set {p : Registry} (hp : AnyCommsKept p) {id : BitVec 32}
    (hid : p.comms id ≠ some .anyComm) (e : Option Entry) : AnyCommsKept (p.set id e) := by
  intro i hi
  rw [Registry.set_comms]
  split
  case isTrue h => exact absurd (h ▸ hp i hi) hid
  case isFalse => exact hp i hi

theorem anyCommsKept_start : AnyCommsKept registryStart := by
  intro id hid
  have hcases : id = BitVec.ofNat 32 Impl.anyCommShm ∨ id = BitVec.ofNat 32 Impl.anyCommPeer := by
    rw [Impl.isAnyComm, Bool.or_eq_true, beq_iff_eq, beq_iff_eq] at hid
    refine hid.imp ?_ ?_ <;> intro h <;> exact BitVec.eq_of_toNat_eq (h.trans (by decide))
  rcases hcases with rfl | rfl <;> decide

/-- **The any-comms stay.** -/
theorem AnyCommsKept.step {p q : Registry} (hp : AnyCommsKept p) {a : RegistryAction}
    (h : registryStep p a = some q) : AnyCommsKept q := by
  cases a with
  | reserveComm =>
      obtain rfl := Option.some.inj h
      unfold reserveComm
      dsimp only
      split
      case isTrue hfree => exact hp.set (by rw [hfree]; nofun) _
      case isFalse => exact hp
  | initComm id =>
      simp only [registryStep, Option.ite_none_right_eq_some, Option.some.injEq] at h
      rw [← h.2]
      exact hp.set (by rw [h.1]; nofun) _
  | closeComm id =>
      simp only [registryStep, Option.ite_none_right_eq_some, Option.some.injEq] at h
      rw [← h.2]
      exact hp.set (by rw [h.1]; nofun) _

/-- **No connected communicator has the identifier of an any-comm.** -/
theorem connected_ne_any {p : Registry} (hp : Reachable registryStep (· = registryStart) p)
    {id : BitVec 32} (hid : p.comms id = some .connected) : Impl.isAnyComm id.toNat = false := by
  have hkept : AnyCommsKept p :=
    hp.invariant (by rintro p rfl; exact anyCommsKept_start) fun _ _ _ hs ht => hs.step ht
  by_contra hany
  have := hkept id (Bool.not_eq_false _ ▸ hany)
  rw [hid] at this
  cases this

/-! ### The identifier the peer has -/

/-- A handshake that succeeded on both sides has given the peer of the communicator `id`
the number `k` for it. -/
def Handshaken (id k : BitVec 32) : Prop :=
  ∃ (host : Role → Host) (ft : Bool) (s : Exchange) (r : Role),
    (host .server).useShm = (host .client).useShm ∧
    Reachable (exchangeStep host) (· = Exchange.start ft) s ∧
    s.Succeeded .server ∧ s.Succeeded .client ∧
    (host r).commId = id ∧ (s.side r.other).rankSelfInPeer = k

/-- **The peer knows a communicator by its identifier.** -/
theorem rankSelfInPeer_eq {id k : BitVec 32} (h : Handshaken id k) : k = id := by
  obtain ⟨host, ft, s, r, hshm, hs, hserver, hclient, rfl, rfl⟩ := h
  have hinv := sideInv_of_run host hshm ft hs
  have hdone : ∀ q, (s.side q).rest = [] := fun q => by
    cases q
    · exact hserver.2
    · exact hclient.2
  have hrank : (s.side r.other).rankSelfInPeer = (host r.other.other).commId :=
    (hinv r.other).holds (hdone _) (p := recvRankSelfInPeer) (by cases r <;> cases ft <;> decide)
  rwa [Role.other_other] at hrank

end Connection
end Lfi
