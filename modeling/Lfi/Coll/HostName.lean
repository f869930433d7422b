/-
# Host names on their way to the master

A worker of `lfi_group_create` fills a `rank_info` on its stack, which has what was there
before, and sends it whole:

    struct rank_info {
        char host[HOST_NAME_MAX];
        int port;
    };

    rank_info my_info;
    std::strncpy(my_info.host, my_hostname.c_str(), HOST_NAME_MAX - 1);
    my_info.port = my_ephemeral_port;

The master reads the name with `std::string(info.host)`, up to the first NUL.  The count leaves
room for a NUL that nobody writes.  A name of `HOST_NAME_MAX - 1` bytes, the longest that
`gethostname` gives, is followed by the byte the stack had there (`host_name_survives_iff`).
With any other byte than NUL there the master reads on, into the port and past it, and refuses
the worker (`refused_of_lost`).
-/

import Lfi.Coll.Ranks
import Lfi.Data.CString
import Lfi.Socket.Strings

namespace Lfi
namespace Coll

open Data

/-- `HOST_NAME_MAX`. -/
def hostNameMax : ℕ := 64

/-! ### The name -/

/-- What `get_host_name` can return. -/
structure HostName where
  bytes : Bytes
  length_lt : bytes.length < hostNameMax
  noNul : 0 ∉ bytes

/-- `hostname` after a successful `gethostname(hostname, HOST_NAME_MAX)`. -/
structure HostBuffer where
  bytes : Bytes
  length_eq : bytes.length = hostNameMax
  terminated : 0 ∈ bytes

/-- The name in the buffer. -/
theorem HostBuffer.string_valid (buffer : HostBuffer) :
    ((cString buffer.bytes).getD []).length < hostNameMax ∧
      0 ∉ (cString buffer.bytes).getD [] := by
  obtain ⟨s, hs⟩ := exists_cString buffer.terminated
  obtain ⟨hnul, rest, hbytes⟩ := cString_eq_some_iff.1 hs
  have hlen := buffer.length_eq
  rw [hbytes, List.length_append, List.length_cons] at hlen
  rw [hs, Option.getD_some]
  exact ⟨by omega, hnul⟩

/-- `ns::get_host_name()`, by the buffer that `gethostname` filled; `none` when it failed. -/
def getHostName : Option HostBuffer → HostName
  | some buffer =>
      ⟨(cString buffer.bytes).getD [], buffer.string_valid.1, buffer.string_valid.2⟩
  | none => ⟨[], by decide, List.not_mem_nil⟩

/-- Every name of this kind can be the host's. -/
theorem exists_getHostName (name : HostName) :
    ∃ buffer, (getHostName (some buffer)).bytes = name.bytes := by
  have hlen := name.length_lt
  refine ⟨⟨name.bytes ++ 0 :: List.replicate (hostNameMax - name.bytes.length - 1) 0, ?_,
    by simp⟩, ?_⟩
  · rw [List.length_append, List.length_cons, List.length_replicate]
    omega
  · have hread := (cString_append_cons name.noNul
      (List.replicate (hostNameMax - name.bytes.length - 1) 0)).2 rfl
    simp only [getHostName, hread, Option.getD_some]

/-! ### The record -/

/-- Where `port` is in a `rank_info`. -/
def portOffset : ℕ := hostNameMax

/-- The memory of a `rank_info`. -/
structure RankInfoMemory where
  bytes : Bytes
  length_eq : bytes.length = 68

/-- `my_info` as the worker sends it; `stack` is what its memory had before. -/
def register (stack : RankInfoMemory) (name : HostName) (port : BitVec 32) : RankInfoMemory where
  bytes := Socket.overwrite (strncpy stack.bytes name.bytes (hostNameMax - 1)) portOffset
    (encode 4 port)
  length_eq := by
    have hlen := stack.length_eq
    have hcopy : (strncpy stack.bytes name.bytes (hostNameMax - 1)).length = 68 := by
      rw [length_strncpy (by rw [hlen]; decide), hlen]
    rw [Socket.overwrite, List.length_append, List.length_append, List.length_take,
      List.length_drop, hcopy, length_encode]
    rfl

namespace RankInfoMemory

/-- `std::string(info.host)`; `beyond` is the memory of the master after its `info`. -/
def host (info : RankInfoMemory) (beyond : Bytes) : Option Bytes := cString (info.bytes ++ beyond)

/-- The bytes that are read for it. -/
def hostReads (info : RankInfoMemory) (beyond : Bytes) : Option ℕ :=
  (strlen (info.bytes ++ beyond)).map (· + 1)

/-- `info.port`. -/
def port (info : RankInfoMemory) : BitVec 32 := decode 4 ((info.bytes.drop portOffset).take 4)

/-- The worker as the master sees it; `text` is how bytes are written as a `String`. -/
def decoded (text : Bytes → String) (info : RankInfoMemory) (beyond : Bytes) : Option RankInfo :=
  (info.host beyond).map fun host => ⟨text host, info.port.toNat⟩

end RankInfoMemory

/-- **The registration arrives**: the name is read back, from the field alone, and so is the
port. -/
structure Survives (name : HostName) (port : BitVec 32) (info : RankInfoMemory)
    (beyond : Bytes) : Prop where
  host : info.host beyond = some name.bytes
  reads : ∃ n, info.hostReads beyond = some n ∧ n ≤ hostNameMax
  port : info.port = port

variable {stack : RankInfoMemory} {name : HostName} {port : BitVec 32} {beyond : Bytes}

/-- The port arrives in any case. -/
theorem port_register : (register stack name port).port = port := by
  have hlen := stack.length_eq
  have htake : ((strncpy stack.bytes name.bytes (hostNameMax - 1)).take portOffset).length =
      portOffset := by
    rw [List.length_take, length_strncpy (by rw [hlen]; decide), hlen]
    rfl
  simp only [RankInfoMemory.port, register, Socket.overwrite, List.append_assoc]
  rw [List.drop_left' htake, List.take_left' (length_encode 4 port), decode_encode]

/-- The byte after the name: the NUL that `strncpy` fills up with, or the last byte of the field
as it was. -/
theorem register_eq_append (stack : RankInfoMemory) (name : HostName) (port : BitVec 32) :
    ∃ b rest, (register stack name port).bytes = name.bytes ++ b :: rest ∧
      (b = 0 ↔ name.bytes.length < hostNameMax - 1 ∨ stack.bytes[hostNameMax - 1]? = some 0) := by
  have hlen := stack.length_eq
  have hname : name.bytes.length ≤ hostNameMax - 1 := Nat.le_sub_one_of_lt name.length_lt
  have hlast : hostNameMax - 1 < stack.bytes.length := by rw [hlen]; decide
  obtain ⟨b, rest, hcopy, hb⟩ := strncpy_eq_append hname hlast
  obtain ⟨k, hk⟩ : ∃ k, portOffset - name.bytes.length = k + 1 :=
    Nat.exists_eq_add_one.2 (Nat.sub_pos_of_lt name.length_lt)
  have hfits : name.bytes.length ≤ portOffset := Nat.le_of_lt name.length_lt
  have hfield : (name.bytes ++ b :: rest).take portOffset = name.bytes ++ b :: rest.take k := by
    rw [List.take_append, hk, List.take_succ_cons, List.take_of_length_le hfits]
  simp only [register, Socket.overwrite]
  rw [hcopy, hfield, List.append_assoc, List.append_assoc, List.cons_append]
  exact ⟨b, _, rfl, hb⟩

/-- The name is read back exactly when a NUL follows it. -/
theorem host_register_iff (port : BitVec 32) (beyond : Bytes) :
    (register stack name port).host beyond = some name.bytes ↔
      name.bytes.length < hostNameMax - 1 ∨ stack.bytes[hostNameMax - 1]? = some 0 := by
  obtain ⟨b, rest, hbytes, hb⟩ := register_eq_append stack name port
  rw [← hb, RankInfoMemory.host, hbytes, List.append_assoc, List.cons_append,
    cString_append_cons name.noNul]

/-- **Host names survive registration** when they have room for a NUL, or the stack had one at
the end of the field; and not otherwise. -/
theorem host_name_survives_iff (stack : RankInfoMemory) (name : HostName) (port : BitVec 32)
    (beyond : Bytes) : Survives name port (register stack name port) beyond ↔
      name.bytes.length < hostNameMax - 1 ∨ stack.bytes[hostNameMax - 1]? = some 0 := by
  rw [← host_register_iff port beyond]
  constructor
  · exact Survives.host
  · intro hhost
    refine ⟨hhost, ⟨name.bytes.length + 1, ?_, name.length_lt⟩, port_register⟩
    rw [RankInfoMemory.hostReads, strlen_of_cString hhost, Option.map_some]

/-- The longest name, on a stack without NULs. -/
def longName : HostName where
  bytes := List.replicate 63 97
  length_lt := by decide
  noNul := by decide

/-- A name of 63 bytes comes to the master with the rest of the field and a part of the port. -/
theorem host_name_lost : ¬ ∀ (stack : RankInfoMemory) (name : HostName) (port : BitVec 32)
    (beyond : Bytes), Survives name port (register stack name port) beyond := by
  intro h
  have hlost := (h ⟨List.replicate 68 98, rfl⟩ longName 5 []).host
  revert hlost
  decide

/-- **The master serves the worker under its own name** when the name survives. -/
theorem decoded_of_survives {info : RankInfoMemory} (text : Bytes → String)
    (h : Survives name port info beyond) :
    info.decoded text beyond = some ⟨text name.bytes, port.toNat⟩ := by
  rw [RankInfoMemory.decoded, h.host, Option.map_some, h.port]

/-- A name that does not survive comes as one that no host has. -/
theorem host_too_long {s : Bytes} (hnot : ¬ Survives name port (register stack name port) beyond)
    (hs : (register stack name port).host beyond = some s) : hostNameMax ≤ s.length := by
  rw [host_name_survives_iff] at hnot
  obtain ⟨b, rest, hbytes, hb⟩ := register_eq_append stack name port
  obtain ⟨hnul, rest', hmem⟩ := cString_eq_some_iff.1 hs
  rw [hbytes, List.append_assoc, List.cons_append] at hmem
  have hlen : hostNameMax - 1 ≤ name.bytes.length := Nat.le_of_not_lt fun h => hnot (.inl h)
  -- the first NUL is not in the name and not next to it
  have hread : (name.bytes ++ b :: (rest ++ beyond))[s.length]? = some 0 := by
    rw [hmem, List.getElem?_append_right le_rfl, Nat.sub_self, List.getElem?_cons_zero]
  by_contra hshort
  rcases Nat.lt_or_ge s.length name.bytes.length with hlt | hge
  · rw [List.getElem?_append_left hlt] at hread
    exact name.noNul (List.mem_of_getElem? hread)
  · have heq : s.length = name.bytes.length := by omega
    rw [heq, List.getElem?_append_right le_rfl, Nat.sub_self, List.getElem?_cons_zero,
      Option.some.injEq] at hread
    exact hnot (hb.1 hread)

/-- **A worker whose name is lost is refused**, when the list has names of hosts. -/
theorem refused_of_lost {text : Bytes → String} (htext : Function.Injective text)
    (names : List HostName) (m : Master) {info : RankInfo}
    (hnot : ¬ Survives name port (register stack name port) beyond)
    (hinfo : (register stack name port).decoded text beyond = some info) :
    serveWorker (names.map fun n => text n.bytes) m info =
      { m with answers := m.answers ++ [-2] } := by
  obtain ⟨s, hs, rfl⟩ := Option.map_eq_some_iff.1 hinfo
  have hlong := host_too_long hnot hs
  suffices h : assigned (names.map fun n => text n.bytes) m.portTable
      ⟨text s, (register stack name port).port.toNat⟩ = none by
    rw [serveWorker, h]
  by_contra hsome
  obtain ⟨r, hr⟩ := Option.ne_none_iff_exists'.1 hsome
  obtain ⟨-, hname⟩ := assigned_eq_some hr
  rw [List.getElem?_map, Option.map_eq_some_iff] at hname
  obtain ⟨n, -, hn⟩ := hname
  have hshort := n.length_lt
  rw [htext hn] at hshort
  omega

end Coll
end Lfi
