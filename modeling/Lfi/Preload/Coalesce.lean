/-
# How a call is coalesced

`internal_sendmsg` of `src/ld_preload/ld_preload.cpp` between the groups and the first
message.  A second loop adds up what has to be staged, a third copies the pieces of each
group of several into one buffer of that size, and `v_iov` gets an entry a group: the
caller's piece, or a range of the buffer.

    buffered.resize(size_to_buffer, 0);
    size_t actual_size = 0;

The loops agree: each copy lies in the buffer, and what `v_iov` names when all copies are
made are the bytes of the call (`coalescing`).  An `iov` names no more than `SSIZE_MAX`
bytes, so no sum of lengths wraps around.
-/

import Lfi.Preload.Message

namespace Lfi
namespace Preload

open Data

section Loops

/-- An entry of `v_iov`: the piece `i` of the `iov`, or `len` bytes of the staging buffer. -/
inductive IovEntry where
  | direct (i : ℕ)
  | staged (start len : ℕ)
deriving DecidableEq

/-- The variables of the third loop.  Where each `memcpy` wrote and how much is history. -/
structure Staging where
  buffered : Bytes
  actualSize : ℕ
  vIov : List IovEntry
  copies : List (ℕ × ℕ)
deriving DecidableEq

/-- `std::memcpy` to the offset `n` of a buffer. -/
def memcpy (buf : Bytes) (n : ℕ) (bs : Bytes) : Bytes :=
  buf.take n ++ bs ++ buf.drop (n + bs.length)

/-- The second loop, `size_to_buffer`. -/
def sizeToBuffer (gs : List BuffGroup) : ℕ :=
  gs.foldl (fun n g => if g.list.length ≠ 1 then n + g.size else n) 0

/-- One piece of a group that is staged. -/
def copyPiece (iov : List Bytes) (st : Staging) (i : ℕ) : Staging :=
  { st with
    buffered := memcpy st.buffered st.actualSize (piece iov i)
    actualSize := st.actualSize + (piece iov i).length
    copies := st.copies ++ [(st.actualSize, (piece iov i).length)] }

/-- One round of the third loop. -/
def stageGroup (iov : List Bytes) (st : Staging) (g : BuffGroup) : Staging :=
  match g.list with
  | [i] => { st with vIov := st.vIov ++ [.direct i] }
  | is =>
      let out := is.foldl (copyPiece iov) st
      { out with vIov := out.vIov ++ [.staged st.actualSize g.size] }

/-- The third loop. -/
def stage (buffered : ℕ) (iov : List Bytes) : Staging :=
  (groups buffered iov).foldl (stageGroup iov)
    ⟨List.replicate (sizeToBuffer (groups buffered iov)) 0, 0, [], []⟩

/-- The bytes an entry names, the staging buffer being `buf`. -/
def IovEntry.bytes (iov : List Bytes) (buf : Bytes) : IovEntry → Bytes
  | .direct i => piece iov i
  | .staged start len => (buf.drop start).take len

/-- `iov_len`. -/
def IovEntry.len (iov : List Bytes) : IovEntry → ℕ
  | .direct i => (piece iov i).length
  | .staged _ len => len

/-- Ranges of the staging buffer that have no byte in common. -/
def IovEntry.Apart : IovEntry → IovEntry → Prop
  | .staged start len, .staged start' len' => start + len ≤ start' ∨ start' + len' ≤ start
  | _, _ => True

/-- What the calls that `internal_sendmsg` makes answer. -/
structure Answers where
  /-- `lfi_socket.lfi_id`. -/
  lfiId : ℤ
  /-- `get_comm` finds the communicator. -/
  getComm : Bool
  /-- `send` of the notification. -/
  send : ℤ
  /-- `async_send` of the entry `i`. -/
  asyncSend : ℕ → ℤ
  waitNum : ℤ

/-- `to_send`. -/
def toSend (buffered : ℕ) (iov : List Bytes) : ℕ :=
  ((stage buffered iov).vIov.map (IovEntry.len iov)).sum

/-- What `internal_sendmsg` returns. -/
def internalSendmsgRet (buffered : ℕ) (iov : List Bytes) (a : Answers) : ℤ :=
  if iov = [] then 0
  else if a.lfiId = -1 then -1
  else if ¬ a.getComm then -1
  else if a.send < 0 then a.send
  else
    match (List.range (stage buffered iov).vIov.length).find? fun i => a.asyncSend i < 0 with
    | some i => a.asyncSend i
    | none => if a.waitNum < 0 then a.waitNum else toSend buffered iov

end Loops

section Partition

theorem joinGroup_ne_nil {buffered i : ℕ} {iov : List Bytes} {gs : List BuffGroup × BuffGroup}
    (hdone : ∀ g ∈ gs.1, g.list ≠ []) (hlast : gs.2.size ≠ 0 → gs.2.list ≠ []) :
    ∀ g ∈ (joinGroup buffered iov gs i).1 ++ [(joinGroup buffered iov gs i).2],
      g.list ≠ [] := by
  intro g hg
  rw [joinGroup] at hg
  split at hg
  case isTrue hfull =>
    rcases List.mem_append.1 hg with hg | hg
    · rcases List.mem_append.1 hg with hg | hg
      · exact hdone g hg
      · rw [List.mem_singleton.1 hg]
        exact hlast hfull.1
    · rw [List.mem_singleton.1 hg]
      exact List.cons_ne_nil i []
  case isFalse =>
    rcases List.mem_append.1 hg with hg | hg
    · exact hdone g hg
    · rw [List.mem_singleton.1 hg]
      exact List.append_ne_nil_of_right_ne_nil _ (List.cons_ne_nil i [])

theorem foldl_joinGroup_ne_nil {buffered : ℕ} {iov : List Bytes} (is : List ℕ)
    (gs : List BuffGroup × BuffGroup) (h : ∀ g ∈ gs.1 ++ [gs.2], g.list ≠ []) :
    ∀ g ∈ (is.foldl (joinGroup buffered iov) gs).1 ++ [(is.foldl (joinGroup buffered iov) gs).2],
      g.list ≠ [] := by
  induction is generalizing gs with
  | nil => exact h
  | cons i is ih =>
      exact ih _ (joinGroup_ne_nil (fun g hg => h g (List.mem_append_left _ hg))
        fun _ => h gs.2 (by simp))

/-- No group is empty. -/
theorem groups_ne_nil {buffered : ℕ} {iov : List Bytes} (h : iov ≠ []) :
    ∀ g ∈ groups buffered iov, g.list ≠ [] := by
  obtain ⟨p, rest, rfl⟩ := List.exists_cons_of_ne_nil h
  rw [groups, List.length_cons, List.range_succ_eq_map, List.foldl_cons]
  refine foldl_joinGroup_ne_nil _ _ (joinGroup_ne_nil (fun g hg => ?_) fun h0 => ?_)
  · exact absurd hg List.not_mem_nil
  · exact absurd rfl h0

/-- The `size` of a group is the length of what it sends. -/
theorem groups_size (buffered : ℕ) (iov : List Bytes) :
    ∀ g ∈ groups buffered iov, g.size = (vIov iov g).length := by
  intro g hg
  have hlen : ∀ p ∈ iov, p.length ≤ iov.flatten.length := fun p hp =>
    (List.sublist_flatten_of_mem hp).length_le
  have hok := foldl_joinGroup_ok (length_piece_le hlen) (List.range iov.length)
    ([], ⟨0, []⟩) (by simp [GroupOk]) g hg
  rw [vIov_eq]
  exact hok.1

end Partition

section Copies

/-- Writing at the end of what is written. -/
theorem memcpy_append (pre bs : Bytes) (room : ℕ) :
    memcpy (pre ++ List.replicate (bs.length + room) 0) pre.length bs =
      pre ++ bs ++ List.replicate room 0 := by
  rw [memcpy, List.take_left, List.drop_append, List.drop_replicate]
  simp

/-- The pieces of a group are copied one behind the other, and each copy ends where the next
begins. -/
theorem foldl_copyPiece {iov : List Bytes} (is : List ℕ) {st : Staging} {pre : Bytes} {room : ℕ}
    (hbuf : st.buffered = pre ++ List.replicate ((is.flatMap (piece iov)).length + room) 0)
    (hsize : st.actualSize = pre.length) (hcopies : ∀ c ∈ st.copies, c.1 + c.2 ≤ st.actualSize) :
    (is.foldl (copyPiece iov) st).buffered =
        pre ++ is.flatMap (piece iov) ++ List.replicate room 0 ∧
      (is.foldl (copyPiece iov) st).actualSize =
        st.actualSize + (is.flatMap (piece iov)).length ∧
      (is.foldl (copyPiece iov) st).vIov = st.vIov ∧
      ∀ c ∈ (is.foldl (copyPiece iov) st).copies,
        c.1 + c.2 ≤ (is.foldl (copyPiece iov) st).actualSize := by
  induction is generalizing st pre with
  | nil => simpa [hbuf] using hcopies
  | cons i is ih =>
      have hbuf' : (copyPiece iov st i).buffered =
          (pre ++ piece iov i) ++ List.replicate ((is.flatMap (piece iov)).length + room) 0 := by
        rw [← memcpy_append]
        simp [copyPiece, hbuf, hsize, Nat.add_assoc]
      have hcopies' : ∀ c ∈ (copyPiece iov st i).copies,
          c.1 + c.2 ≤ (copyPiece iov st i).actualSize := by
        intro c hc
        rcases List.mem_append.1 hc with hc | hc
        · exact (hcopies c hc).trans (Nat.le_add_right _ _)
        · rw [List.mem_singleton.1 hc]
          exact le_rfl
      obtain ⟨hbytes, hlen, hsame, hin⟩ := ih hbuf' (by simp [copyPiece, hsize]) hcopies'
      refine ⟨?_, ?_, hsame, hin⟩
      · rw [List.foldl_cons, hbytes, List.flatMap_cons, List.append_assoc pre]
      · rw [List.foldl_cons, hlen, List.flatMap_cons, List.length_append, ← Nat.add_assoc]
        rfl

/-- What these groups put in the staging buffer. -/
def stagedBytes (iov : List Bytes) (gs : List BuffGroup) : Bytes :=
  (gs.filter fun g => g.list.length ≠ 1).flatMap (vIov iov)

theorem stagedBytes_append (iov : List Bytes) (gs gs' : List BuffGroup) :
    stagedBytes iov (gs ++ gs') = stagedBytes iov gs ++ stagedBytes iov gs' := by
  rw [stagedBytes, List.filter_append, List.flatMap_append]
  rfl

/-- The second loop counts what the third copies. -/
theorem sizeToBuffer_eq {iov : List Bytes} {gs : List BuffGroup}
    (h : ∀ g ∈ gs, g.size = (vIov iov g).length) :
    sizeToBuffer gs = (stagedBytes iov gs).length := by
  have hfold : ∀ n, gs.foldl (fun n g => if g.list.length ≠ 1 then n + g.size else n) n =
      n + (stagedBytes iov gs).length := by
    induction gs with
    | nil => exact fun n => rfl
    | cons g gs ih =>
        intro n
        have hcons : stagedBytes iov (g :: gs) = stagedBytes iov [g] ++ stagedBytes iov gs :=
          stagedBytes_append iov [g] gs
        rw [List.foldl_cons, ih fun g' hg => h g' (List.mem_cons_of_mem _ hg), hcons,
          List.length_append, ← Nat.add_assoc]
        congr 1
        by_cases hone : g.list.length = 1
        · simp [stagedBytes, hone]
        · simp [stagedBytes, hone, h g List.mem_cons_self]
  rw [sizeToBuffer, hfold, Nat.zero_add]

/-- Where an entry ends in the staging buffer. -/
def IovEntry.stop : IovEntry → ℕ
  | .direct _ => 0
  | .staged start len => start + len

/-- The third loop after these groups, with room for `room` bytes more. -/
structure Staged (iov : List Bytes) (gs : List BuffGroup) (room : ℕ) (st : Staging) : Prop where
  buffered : st.buffered = stagedBytes iov gs ++ List.replicate room 0
  actualSize : st.actualSize = (stagedBytes iov gs).length
  copies : ∀ c ∈ st.copies, c.1 + c.2 ≤ st.actualSize
  stop : ∀ e ∈ st.vIov, e.stop ≤ st.actualSize
  apart : st.vIov.Pairwise IovEntry.Apart
  bytes : ∀ rest, st.vIov.map (IovEntry.bytes iov (stagedBytes iov gs ++ rest)) = gs.map (vIov iov)
  len : st.vIov.map (IovEntry.len iov) = gs.map fun g => (vIov iov g).length

/-- A range that begins where all others have ended. -/
theorem apart_of_stop {e : IovEntry} {start len : ℕ} (h : e.stop ≤ start) :
    e.Apart (.staged start len) := by
  cases e with
  | direct i => trivial
  | staged start' len' => exact .inl h

/-- A group of one piece. -/
theorem Staged.direct {iov : List Bytes} {gs : List BuffGroup} {room i : ℕ} {st : Staging}
    {g : BuffGroup} (h : Staged iov gs room st) (hg : g.list = [i]) :
    Staged iov (gs ++ [g]) room { st with vIov := st.vIov ++ [.direct i] } := by
  have hsame : stagedBytes iov (gs ++ [g]) = stagedBytes iov gs := by
    simp [stagedBytes, hg]
  have hbytes : vIov iov g = piece iov i := by rw [vIov, hg]
  refine ⟨hsame ▸ h.buffered, hsame ▸ h.actualSize, h.copies, fun e he => ?_, ?_,
    fun rest => ?_, ?_⟩
  · rcases List.mem_append.1 he with he | he
    · exact h.stop e he
    · rw [List.mem_singleton.1 he]
      exact Nat.zero_le _
  · refine List.pairwise_append.2 ⟨h.apart, List.pairwise_singleton _ _, fun e _ e' he' => ?_⟩
    rw [List.mem_singleton.1 he']
    cases e <;> trivial
  · rw [hsame, List.map_append, List.map_append, h.bytes]
    simp [IovEntry.bytes, hbytes]
  · rw [List.map_append, List.map_append, h.len]
    simp [IovEntry.len, hbytes]

/-- A group of several pieces. -/
theorem Staged.several {iov : List Bytes} {gs : List BuffGroup} {room : ℕ} {st : Staging}
    {g : BuffGroup} (h : Staged iov gs (g.size + room) st) (hg : g.list.length ≠ 1)
    (hsize : g.size = (vIov iov g).length) :
    Staged iov (gs ++ [g]) room
      { g.list.foldl (copyPiece iov) st with
        vIov := (g.list.foldl (copyPiece iov) st).vIov ++ [.staged st.actualSize g.size] } := by
  have hnew : stagedBytes iov (gs ++ [g]) = stagedBytes iov gs ++ vIov iov g := by
    simp [stagedBytes, hg]
  have hbuf := h.buffered
  rw [hsize, vIov_eq] at hbuf
  obtain ⟨hbytes, hactual, hsame, hin⟩ := foldl_copyPiece g.list hbuf h.actualSize h.copies
  rw [← vIov_eq] at hbytes hactual
  have hgrow : st.actualSize ≤ (g.list.foldl (copyPiece iov) st).actualSize := by
    rw [hactual]
    exact Nat.le_add_right _ _
  refine ⟨?_, ?_, hin, fun e he => ?_, ?_, fun rest => ?_, ?_⟩
  · rw [hnew, hbytes]
  · rw [hnew, List.length_append, ← h.actualSize, hactual]
  · rw [hsame] at he
    rcases List.mem_append.1 he with he | he
    · exact (h.stop e he).trans hgrow
    · rw [List.mem_singleton.1 he, IovEntry.stop, hsize]
      exact hactual.ge
  · rw [hsame]
    refine List.pairwise_append.2 ⟨h.apart, List.pairwise_singleton _ _, fun e he e' he' => ?_⟩
    rw [List.mem_singleton.1 he']
    exact apart_of_stop (h.stop e he)
  · rw [hsame, hnew, List.map_append, List.map_append, List.append_assoc, h.bytes]
    simp [IovEntry.bytes, h.actualSize, hsize]
  · rw [hsame, List.map_append, List.map_append, h.len]
    simp [IovEntry.len, hsize]

/-- What one round of the third loop does. -/
theorem Staged.stageGroup {iov : List Bytes} {gs : List BuffGroup} {room : ℕ} {st : Staging}
    {g : BuffGroup} (h : Staged iov gs ((stagedBytes iov [g]).length + room) st)
    (hsize : g.size = (vIov iov g).length) :
    Staged iov (gs ++ [g]) room (stageGroup iov st g) := by
  rw [Preload.stageGroup]
  split
  case h_1 i hi =>
    have hroom : (stagedBytes iov [g]).length + room = room := by simp [stagedBytes, hi]
    exact (hroom ▸ h).direct hi
  case h_2 hlist =>
    have hone : g.list.length ≠ 1 := by
      intro hone
      obtain ⟨i, hi⟩ := List.length_eq_one_iff.1 hone
      exact hlist i hi
    have hroom : (stagedBytes iov [g]).length + room = g.size + room := by
      simp [stagedBytes, hone, hsize]
    exact (hroom ▸ h).several hone hsize

/-- **The run of the third loop.** -/
theorem Staged.foldl {iov : List Bytes} (rest : List BuffGroup) {gs : List BuffGroup} {room : ℕ}
    {st : Staging} (h : Staged iov gs ((stagedBytes iov rest).length + room) st)
    (hsize : ∀ g ∈ rest, g.size = (vIov iov g).length) :
    Staged iov (gs ++ rest) room (rest.foldl (Preload.stageGroup iov) st) := by
  induction rest generalizing gs st with
  | nil => simpa [stagedBytes] using h
  | cons g rest ih =>
      have hcons : stagedBytes iov (g :: rest) = stagedBytes iov [g] ++ stagedBytes iov rest :=
        stagedBytes_append iov [g] rest
      rw [hcons, List.length_append, Nat.add_assoc] at h
      have hnext := ih (h.stageGroup (hsize g List.mem_cons_self))
        fun g' hg => hsize g' (List.mem_cons_of_mem _ hg)
      rwa [List.append_assoc] at hnext

/-- When the third loop ends the staging buffer is full. -/
theorem staged_stage (buffered : ℕ) (iov : List Bytes) :
    Staged iov (groups buffered iov) 0 (stage buffered iov) := by
  have hroom := sizeToBuffer_eq (groups_size buffered iov)
  have hstart : Staged iov [] ((stagedBytes iov (groups buffered iov)).length + 0)
      ⟨List.replicate (sizeToBuffer (groups buffered iov)) 0, 0, [], []⟩ := by
    rw [hroom]
    exact ⟨rfl, rfl, by simp, by simp, List.Pairwise.nil, fun _ => rfl, rfl⟩
  exact hstart.foldl _ (groups_size buffered iov)

end Copies

section Result

/-- The entries name the data messages. -/
theorem bytes_stage (buffered : ℕ) (iov : List Bytes) :
    (stage buffered iov).vIov.map (IovEntry.bytes iov (stage buffered iov).buffered) =
      (groups buffered iov).map (vIov iov) := by
  have h := staged_stage buffered iov
  rw [h.buffered]
  exact h.bytes _

/-- The entries of `v_iov` are the data messages of the call. -/
theorem messages_stage (buffered : ℕ) {iov : List Bytes} (h : iov ≠ []) :
    messages buffered iov =
      (stage buffered iov).vIov.map (IovEntry.bytes iov (stage buffered iov).buffered) := by
  obtain ⟨p, rest, rfl⟩ := List.exists_cons_of_ne_nil h
  rw [bytes_stage]
  rfl

theorem flatten_groups (buffered : ℕ) (iov : List Bytes) :
    ((groups buffered iov).map (vIov iov)).flatten = iov.flatten := by
  rw [← flatMap_piece iov, ← groups_list buffered iov, List.flatMap_assoc, List.flatMap,
    ← funext (vIov_eq iov)]

/-- `to_send` is the length of the call. -/
theorem toSend_eq (buffered : ℕ) (iov : List Bytes) :
    toSend buffered iov = iov.flatten.length := by
  rw [toSend, (staged_stage buffered iov).len, ← flatten_groups buffered iov,
    List.length_flatten, List.map_map]
  rfl

/-- Only the last `return` returns what is not negative. -/
theorem internalSendmsgRet_of_nonneg {buffered : ℕ} {iov : List Bytes} {a : Answers}
    (hiov : iov ≠ []) (h : 0 ≤ internalSendmsgRet buffered iov a) :
    internalSendmsgRet buffered iov a = toSend buffered iov := by
  rw [internalSendmsgRet, if_neg hiov] at h ⊢
  split at h
  case isTrue => exact absurd h (by decide)
  case isFalse hid =>
    rw [if_neg hid]
    split at h
    case isTrue => exact absurd h (by decide)
    case isFalse hcomm =>
      rw [if_neg hcomm]
      split at h
      case isTrue hsend => exact absurd h (not_le.2 hsend)
      case isFalse hsend =>
        rw [if_neg hsend]
        split at h
        case h_1 i hi =>
          have hneg := List.find?_some hi
          exact absurd h (not_le.2 (of_decide_eq_true hneg))
        case h_2 =>
          split at h
          case isTrue hwait => exact absurd h (not_le.2 hwait)
          case isFalse hwait => rw [if_neg hwait]

/-- **Coalescing keeps the bytes.**  The groups are runs of consecutive pieces, none empty, in
order.  Each copy lies in the staging buffer, and no two groups share a byte of it.  The entries
of `v_iov` name the bytes of the call, and when `internal_sendmsg` succeeds it returns their
number. -/
theorem coalescing (buffered : ℕ) {iov : List Bytes} (h : iov ≠ []) :
    ((groups buffered iov).flatMap BuffGroup.list = List.range iov.length ∧
        ∀ g ∈ groups buffered iov, g.list ≠ []) ∧
      (∀ c ∈ (stage buffered iov).copies, c.1 + c.2 ≤ sizeToBuffer (groups buffered iov)) ∧
      (stage buffered iov).vIov.Pairwise IovEntry.Apart ∧
      (stage buffered iov).vIov.flatMap (IovEntry.bytes iov (stage buffered iov).buffered) =
        iov.flatten ∧
      ∀ a, 0 ≤ internalSendmsgRet buffered iov a →
        internalSendmsgRet buffered iov a = iov.flatten.length := by
  have hstaged := staged_stage buffered iov
  refine ⟨⟨groups_list buffered iov, groups_ne_nil h⟩, fun c hc => ?_, hstaged.apart, ?_,
    fun a ha => ?_⟩
  · rw [sizeToBuffer_eq (groups_size buffered iov), ← hstaged.actualSize]
    exact hstaged.copies c hc
  · rw [List.flatMap, bytes_stage, flatten_groups]
  · rw [internalSendmsgRet_of_nonneg h ha, toSend_eq]

/-- Two groups that are staged around one that is not. -/
theorem coalescing_six :
    ((groups 2 [[1], [2], [3, 4, 5], [6], [], [7]]).flatMap BuffGroup.list = List.range 6 ∧
        ∀ g ∈ groups 2 [[1], [2], [3, 4, 5], [6], [], [7]], g.list ≠ []) ∧
      (∀ c ∈ (stage 2 [[1], [2], [3, 4, 5], [6], [], [7]]).copies, c.1 + c.2 ≤ 4) ∧
      (stage 2 [[1], [2], [3, 4, 5], [6], [], [7]]).vIov.Pairwise IovEntry.Apart ∧
      (stage 2 [[1], [2], [3, 4, 5], [6], [], [7]]).vIov.flatMap
          (IovEntry.bytes [[1], [2], [3, 4, 5], [6], [], [7]] [1, 2, 6, 7]) =
        [1, 2, 3, 4, 5, 6, 7] ∧
      ∀ a, 0 ≤ internalSendmsgRet 2 [[1], [2], [3, 4, 5], [6], [], [7]] a →
        internalSendmsgRet 2 [[1], [2], [3, 4, 5], [6], [], [7]] a = 7 :=
  coalescing 2 (List.cons_ne_nil _ _)

end Result

end Preload
end Lfi
