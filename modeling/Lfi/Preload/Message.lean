/-
# What a preloaded socket sends

`internal_sendmsg` of `src/ld_preload/ld_preload.cpp`: the pieces of the caller's `iov`
are put in groups, each group is one data message, and a notification announces the
length and the tag of every one of them.

Grouping moves no byte: the data messages of a call, one after another, are the bytes of
its `iov` (`messages_flatten`).  A notification of at most 1024 messages, each shorter
than `2^32` bytes, is read back as it was written (`decodeNotes_encodeNotes`).  The tag
of a data message follows a counter that wraps around (`Lfi.Preload.Counter`).
-/

import Lfi.Data.Bytes
import Mathlib.Tactic.Ring

namespace Lfi
namespace Preload

open Data

section Groups

/-- `buff_groups`: pieces that travel as one message, by their index in the `iov`, and
their length together. -/
structure BuffGroup where
  size : ℕ
  list : List ℕ
deriving DecidableEq

/-- The piece `i` of the `iov`. -/
def piece (iov : List Bytes) (i : ℕ) : Bytes := iov.getD i []

/-- One round of the loop over the `iov`: the piece `i` joins the actual group when it
fits, or opens the next.  The groups before the actual one are kept on the left. -/
def joinGroup (buffered : ℕ) (iov : List Bytes) (gs : List BuffGroup × BuffGroup) (i : ℕ) :
    List BuffGroup × BuffGroup :=
  if gs.2.size ≠ 0 ∧ buffered < gs.2.size + (piece iov i).length then
    (gs.1 ++ [gs.2], ⟨(piece iov i).length, [i]⟩)
  else (gs.1, ⟨gs.2.size + (piece iov i).length, gs.2.list ++ [i]⟩)

/-- `groups`, with `LFI_ld_preload_buffered` bytes to a group of more than one piece. -/
def groups (buffered : ℕ) (iov : List Bytes) : List BuffGroup :=
  let gs := (List.range iov.length).foldl (joinGroup buffered iov) ([], ⟨0, []⟩)
  gs.1 ++ [gs.2]

/-- What the entry of `v_iov` for a group points at: the piece itself when there is only
one, and otherwise the pieces copied one after another. -/
def vIov (iov : List Bytes) (g : BuffGroup) : Bytes :=
  match g.list with
  | [i] => piece iov i
  | is => is.flatMap (piece iov)

/-- The data messages of one call; there are none when `count` is 0. -/
def messages (buffered : ℕ) : List Bytes → List Bytes
  | [] => []
  | iov => (groups buffered iov).map (vIov iov)

theorem vIov_eq (iov : List Bytes) (g : BuffGroup) : vIov iov g = g.list.flatMap (piece iov) := by
  rw [vIov]
  split
  case h_1 i hi => rw [hi, List.flatMap_singleton]
  case h_2 => rfl

/-- The pieces of all groups, the actual one last. -/
def pieces (gs : List BuffGroup × BuffGroup) : List ℕ := (gs.1 ++ [gs.2]).flatMap BuffGroup.list

theorem pieces_joinGroup (buffered : ℕ) (iov : List Bytes) (gs : List BuffGroup × BuffGroup)
    (i : ℕ) : pieces (joinGroup buffered iov gs i) = pieces gs ++ [i] := by
  rw [joinGroup]
  split
  case isTrue => simp [pieces]
  case isFalse => simp [pieces]

theorem pieces_foldl (buffered : ℕ) (iov : List Bytes) (is : List ℕ)
    (gs : List BuffGroup × BuffGroup) :
    pieces (is.foldl (joinGroup buffered iov) gs) = pieces gs ++ is := by
  induction is generalizing gs with
  | nil => rw [List.foldl_nil, List.append_nil]
  | cons i is ih => rw [List.foldl_cons, ih, pieces_joinGroup, List.append_assoc]; rfl

/-- Every piece is in one group, and they are in order. -/
theorem groups_list (buffered : ℕ) (iov : List Bytes) :
    (groups buffered iov).flatMap BuffGroup.list = List.range iov.length :=
  pieces_foldl buffered iov (List.range iov.length) ([], ⟨0, []⟩)

theorem flatMap_piece (iov : List Bytes) :
    (List.range iov.length).flatMap (piece iov) = iov.flatten := by
  rw [List.flatMap]
  congr 1
  refine List.ext_getElem (by simp) fun i _ hi => ?_
  simp [piece, List.getElem?_eq_getElem hi]

/-- **Grouping moves no byte.** -/
theorem messages_flatten (buffered : ℕ) (iov : List Bytes) :
    (messages buffered iov).flatten = iov.flatten := by
  cases iov with
  | nil => rfl
  | cons p iov =>
      rw [← flatMap_piece (p :: iov), ← groups_list buffered (p :: iov), List.flatMap_assoc,
        List.flatMap, ← funext (vIov_eq (p :: iov))]
      rfl

/-- A group whose length is what its pieces hold, and short when it holds several. -/
def GroupOk (buffered : ℕ) (iov : List Bytes) (bound : ℕ) (g : BuffGroup) : Prop :=
  g.size = (g.list.flatMap (piece iov)).length ∧ g.size ≤ max buffered bound

theorem joinGroup_ok {buffered bound i : ℕ} {iov : List Bytes} {gs : List BuffGroup × BuffGroup}
    (hi : (piece iov i).length ≤ bound)
    (h : ∀ g ∈ gs.1 ++ [gs.2], GroupOk buffered iov bound g) :
    ∀ g ∈ (joinGroup buffered iov gs i).1 ++ [(joinGroup buffered iov gs i).2],
      GroupOk buffered iov bound g := by
  have hlast := h gs.2 (by simp)
  intro g hg
  rw [joinGroup] at hg
  split at hg
  case isTrue =>
    rcases List.mem_append.1 hg with hg | hg
    · exact h g hg
    · rw [List.mem_singleton.1 hg]
      exact ⟨by simp, le_max_of_le_right hi⟩
  case isFalse hfits =>
    rcases List.mem_append.1 hg with hg | hg
    · exact h g (List.mem_append_left _ hg)
    · rw [List.mem_singleton.1 hg]
      refine ⟨by simp [hlast.1], ?_⟩
      show gs.2.size + (piece iov i).length ≤ max buffered bound
      by_cases h0 : gs.2.size = 0
      · exact le_max_of_le_right (by omega)
      · exact le_max_of_le_left (by omega)

theorem foldl_joinGroup_ok {buffered bound : ℕ} {iov : List Bytes}
    (hpiece : ∀ i, (piece iov i).length ≤ bound) (is : List ℕ)
    (gs : List BuffGroup × BuffGroup) (h : ∀ g ∈ gs.1 ++ [gs.2], GroupOk buffered iov bound g) :
    ∀ g ∈ (is.foldl (joinGroup buffered iov) gs).1 ++ [(is.foldl (joinGroup buffered iov) gs).2],
      GroupOk buffered iov bound g := by
  induction is generalizing gs with
  | nil => exact h
  | cons i is ih => exact ih _ (joinGroup_ok (hpiece i) h)

theorem length_piece_le {bound : ℕ} {iov : List Bytes} (h : ∀ p ∈ iov, p.length ≤ bound)
    (i : ℕ) : (piece iov i).length ≤ bound := by
  rw [piece, List.getD_eq_getElem?_getD]
  cases hi : iov[i]? with
  | none => exact Nat.zero_le _
  | some p => exact h p (List.mem_of_getElem? hi)

end Groups

section Tags

/-- `LFI_TAG_RECV_LD_PRELOAD`, the tag of the notifications. -/
def tagRecv : ℕ := 0xFFFFFFFF - 3

/-- `LFI_TAG_BUFFERED_LD_PRELOAD`, where the tags of the data messages begin. -/
def tagBuffered : ℤ := 100000

/-- The tag of the data message for which `static_counter` gave `count`: the remainder is
that of C++, with the sign of `count`, and the sum is cut to a `uint32_t`. -/
def tagOf (count : ℤ) : ℕ := ((tagBuffered + count.tmod 1000001) % 4294967296).toNat

theorem tagOf_lt (count : ℤ) : tagOf count < 4294967296 := by
  rw [tagOf]
  omega

end Tags

section Notes

/-- `noti_buff`. -/
structure NotiBuff where
  size : ℕ
  tag : ℕ
deriving DecidableEq

/-- A `noti_buff` in memory: two `uint32_t`. -/
def NotiBuff.encode (n : NotiBuff) : Bytes := toBytes 4 n.size ++ toBytes 4 n.tag

/-- The `noti_buff` that these bytes begin with. -/
def NotiBuff.decode (bs : Bytes) : NotiBuff :=
  ⟨ofBytes (bs.take 4), ofBytes ((bs.drop 4).take 4)⟩

/-- The notification for these messages. -/
def encodeNotes (ns : List NotiBuff) : Bytes := ns.flatMap NotiBuff.encode

/-- The first `n` entries of `noti_buffered`. -/
def readNotes : ℕ → Bytes → List NotiBuff
  | 0, _ => []
  | n + 1, bs => NotiBuff.decode bs :: readNotes n (bs.drop 8)

/-- What a receiver thread reads of a notification: `how_many` is the length received by
the size of a `noti_buff`. -/
def decodeNotes (bs : Bytes) : List NotiBuff := readNotes (bs.length / 8) bs

/-- A `noti_buff` whose two numbers fit. -/
def NotiBuff.Fits (n : NotiBuff) : Prop := n.size < 4294967296 ∧ n.tag < 4294967296

@[simp] theorem NotiBuff.length_encode (n : NotiBuff) : n.encode.length = 8 := by
  rw [encode, List.length_append, length_toBytes, length_toBytes]

theorem NotiBuff.decode_encode {n : NotiBuff} (h : n.Fits) (bs : Bytes) :
    NotiBuff.decode (n.encode ++ bs) = n := by
  have htake : (n.encode ++ bs).take 4 = toBytes 4 n.size := by
    rw [encode, List.append_assoc, List.take_left' (length_toBytes 4 _)]
  have hdrop : ((n.encode ++ bs).drop 4).take 4 = toBytes 4 n.tag := by
    rw [encode, List.append_assoc, List.drop_left' (length_toBytes 4 _),
      List.take_left' (length_toBytes 4 _)]
  rw [decode, htake, hdrop, ofBytes_toBytes_of_lt h.1, ofBytes_toBytes_of_lt h.2]

theorem length_encodeNotes (ns : List NotiBuff) : (encodeNotes ns).length = 8 * ns.length := by
  induction ns with
  | nil => rfl
  | cons n ns ih =>
      rw [encodeNotes, List.flatMap_cons, List.length_append, NotiBuff.length_encode,
        ← encodeNotes, ih, List.length_cons]
      ring

theorem readNotes_encodeNotes {ns : List NotiBuff} (h : ∀ n ∈ ns, n.Fits) :
    readNotes ns.length (encodeNotes ns) = ns := by
  induction ns with
  | nil => rfl
  | cons n ns ih =>
      have hdrop : (encodeNotes (n :: ns)).drop 8 = encodeNotes ns :=
        List.drop_left' n.length_encode
      rw [List.length_cons, readNotes, hdrop, ih fun m hm => h m (List.mem_cons_of_mem _ hm),
        encodeNotes, List.flatMap_cons, NotiBuff.decode_encode (h n List.mem_cons_self)]

/-- **A notification is read as it was written.** -/
theorem decodeNotes_encodeNotes {ns : List NotiBuff} (h : ∀ n ∈ ns, n.Fits) :
    decodeNotes (encodeNotes ns) = ns := by
  rw [decodeNotes, length_encodeNotes, Nat.mul_div_cancel_left _ (by decide : 0 < 8)]
  exact readNotes_encodeNotes h

end Notes

end Preload
end Lfi
