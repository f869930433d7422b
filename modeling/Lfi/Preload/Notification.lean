/-
# What a notification tells

The sender's `noti_buffered` has an entry a data message: the length of the `v_iov` entry,
cut to a `uint32_t`, and the tag.

    noti_buffered.emplace_back(
        noti_buff{.size = static_cast<uint32_t>(v_iov[i].iov_len), .tag=tag});

A receiver thread reads 1024 entries at most.  `to_send`, what `internal_sendmsg` returns,
adds up the lengths themselves.  So the entries are those of the data messages exactly when
there are no more than 1024, and none of `2^32` bytes (`notification_iff`); the lengths of
the messages follow from those of the pieces (`loads`).
-/

import Lfi.Preload.Coalesce
import Lfi.Preload.Log
import Mathlib.Data.List.Forall2

namespace Lfi
namespace Preload

open Data

section Loads

/-- The bytes of each group when the pieces have these lengths and `size` bytes are in the
actual one. -/
def loads (buffered : ℕ) : ℕ → List ℕ → List ℕ
  | size, [] => [size]
  | size, n :: ns =>
      if size ≠ 0 ∧ buffered < size + n then size :: loads buffered n ns
      else loads buffered (size + n) ns

theorem map_size_foldl (buffered : ℕ) (iov : List Bytes) (is : List ℕ)
    (gs : List BuffGroup × BuffGroup) :
    ((is.foldl (joinGroup buffered iov) gs).1 ++
        [(is.foldl (joinGroup buffered iov) gs).2]).map BuffGroup.size =
      gs.1.map BuffGroup.size ++
        loads buffered gs.2.size (is.map fun i => (piece iov i).length) := by
  induction is generalizing gs with
  | nil => rw [List.foldl_nil, List.map_append]; rfl
  | cons i is ih =>
      rw [List.foldl_cons, ih, List.map_cons, loads, joinGroup]
      split
      case isTrue => rw [List.map_append, List.append_assoc]; rfl
      case isFalse => rfl

/-- The lengths of the data messages. -/
theorem map_length_messages (buffered : ℕ) {iov : List Bytes} (h : iov ≠ []) :
    (messages buffered iov).map List.length = loads buffered 0 (iov.map List.length) := by
  have hpieces : (List.range iov.length).map (fun i => (piece iov i).length) =
      iov.map List.length := by
    refine List.ext_getElem (by simp) fun i hi _ => ?_
    have hlt : i < iov.length := by simpa using hi
    simp [piece, List.getElem?_eq_getElem hlt]
  have hsizes := map_size_foldl buffered iov (List.range iov.length) ([], ⟨0, []⟩)
  rw [hpieces, List.map_nil, List.nil_append] at hsizes
  rw [messages_stage buffered h, bytes_stage, ← hsizes, List.map_map]
  exact List.map_congr_left fun g hg => (groups_size buffered iov g hg).symm

end Loads

section Notification

/-- `noti_buffered` of the sender. -/
def announce (buffered : ℕ) (iov : List Bytes) (counts : ℕ → ℤ) : List NotiBuff :=
  (stage buffered iov).vIov.mapIdx fun i e => ⟨e.len iov % 2 ^ 32, tagOf (counts i)⟩

/-- The notification that the call number `k` sends. -/
def sentNotification (k buffered : ℕ) (iov : List Bytes) (counts : ℕ → ℤ) : Option Message :=
  if iov = [] then none else some ⟨encodeNotes (announce buffered iov counts), k, 0⟩

theorem announce_eq (buffered : ℕ) {iov : List Bytes} (counts : ℕ → ℤ) (h : iov ≠ []) :
    announce buffered iov counts =
      (tagged buffered iov counts).map fun e => ⟨e.1.length % 2 ^ 32, e.2⟩ := by
  have hlen : ∀ e ∈ (stage buffered iov).vIov,
      e.len iov = (e.bytes iov (stage buffered iov).buffered).length := by
    have hstaged := staged_stage buffered iov
    have hboth : (stage buffered iov).vIov.map (IovEntry.len iov) =
        (stage buffered iov).vIov.map fun e =>
          (e.bytes iov (stage buffered iov).buffered).length := by
      have hlengths := congrArg (List.map List.length) (bytes_stage buffered iov)
      rw [List.map_map, List.map_map] at hlengths
      rw [hstaged.len]
      exact hlengths.symm
    exact List.map_inj_left.1 hboth
  refine List.ext_getElem (by simp [announce, tagged, messages_stage buffered h])
    fun i hi _ => ?_
  have hlt : i < (stage buffered iov).vIov.length := by simpa [announce] using hi
  simp [announce, tagged, messages_stage buffered h, hlen _ (List.getElem_mem hlt)]

/-- A `uint32_t` in memory is the same when it was cut before. -/
theorem encodeNotes_mod (c : List (Bytes × ℕ)) :
    encodeNotes (c.map fun e => ⟨e.1.length % 2 ^ 32, e.2⟩) = encodeNotes (notes c) := by
  rw [encodeNotes, encodeNotes, notes, List.flatMap_map, List.flatMap_map]
  refine List.flatMap_congr fun e _ => ?_
  rw [NotiBuff.encode, NotiBuff.encode, ← toBytes_mod 4 e.1.length]
  rfl

/-- The notification is the one of a preloaded connection. -/
theorem sentNotification_eq (k buffered : ℕ) {iov : List Bytes} (counts : ℕ → ℤ) (h : iov ≠ []) :
    sentNotification k buffered iov counts =
      some (notification k (tagged buffered iov counts)) := by
  rw [sentNotification, if_neg h, announce_eq buffered counts h, encodeNotes_mod]
  rfl

theorem announce_fits (buffered : ℕ) (iov : List Bytes) (counts : ℕ → ℤ) :
    ∀ n ∈ announce buffered iov counts, n.Fits := by
  intro n hn
  obtain ⟨i, hi, rfl⟩ := List.mem_mapIdx.1 hn
  exact ⟨Nat.mod_lt _ (by decide), tagOf_lt _⟩

/-- What a receiver thread makes of a notification: an error when it does not fit, and
otherwise the entries that were announced. -/
theorem begin_sent {k buffered : ℕ} {iov : List Bytes} {counts : ℕ → ℤ} {m : Message}
    (hm : m ∈ sentNotification k buffered iov counts) :
    begin m =
      if 1024 < (tagged buffered iov counts).length then none
      else some ⟨announce buffered iov counts, (announce buffered iov counts).map fun _ => none,
        0, k⟩ := by
  by_cases h : iov = []
  · rw [sentNotification, if_pos h] at hm
    exact absurd hm (by simp)
  rw [sentNotification, if_neg h] at hm
  obtain rfl := Option.mem_some_iff.1 hm
  have hlen : (encodeNotes (announce buffered iov counts)).length =
      8 * (tagged buffered iov counts).length := by
    rw [length_encodeNotes, announce_eq buffered counts h, List.length_map]
  rw [begin, hlen, decodeNotes_encodeNotes (announce_fits buffered iov counts)]
  refine if_congr ?_ rfl rfl
  rw [auxBytes]
  omega

end Notification

section RoundTrip

/-- An entry of a notification and the data message that it is about. -/
def Announces (n : NotiBuff) (e : Bytes × ℕ) : Prop :=
  n.size = e.1.length ∧ n.tag = e.2 ∧ fit n.size e.1 = e.1

theorem announces_mod_iff (e : Bytes × ℕ) :
    Announces ⟨e.1.length % 2 ^ 32, e.2⟩ e ↔ e.1.length < 2 ^ 32 := by
  constructor
  · intro h
    exact h.1 ▸ Nat.mod_lt _ (by decide)
  · intro h
    have hsize : e.1.length % 2 ^ 32 = e.1.length := Nat.mod_eq_of_lt h
    exact ⟨hsize, rfl, by rw [hsize, fit_length]⟩

/-- The entries are those of the data messages when no message is too long. -/
theorem forall₂_announce_iff (buffered : ℕ) {iov : List Bytes} (counts : ℕ → ℤ) (h : iov ≠ []) :
    List.Forall₂ Announces (announce buffered iov counts) (tagged buffered iov counts) ↔
      ∀ n ∈ loads buffered 0 (iov.map List.length), n < 2 ^ 32 := by
  rw [announce_eq buffered counts h, List.forall₂_map_left_iff, List.forall₂_same,
    ← map_length_messages buffered h, ← map_fst_tagged buffered iov counts]
  simp only [announces_mod_iff, List.forall_mem_map]

/-- What the receives of a notification have room for, when its entries are right. -/
theorem sum_size_of_announces {ns : List NotiBuff} {buffered : ℕ} {iov : List Bytes}
    {counts : ℕ → ℤ} (h : List.Forall₂ Announces ns (tagged buffered iov counts)) :
    (ns.map NotiBuff.size).sum = iov.flatten.length := by
  have hsizes : ns.map NotiBuff.size = (tagged buffered iov counts).map fun e => e.1.length := by
    refine List.forall₂_eq_eq_eq ▸ ?_
    rw [List.forall₂_map_left_iff, List.forall₂_map_right_iff]
    exact h.imp fun _ _ hn => hn.1
  rw [hsizes, ← messages_flatten buffered iov, List.length_flatten,
    ← map_fst_tagged buffered iov counts, List.map_map]
  rfl

/-- A notification that is read as it should be is of a call with few and short messages. -/
theorem loads_of_read {k buffered : ℕ} {iov : List Bytes} {counts : ℕ → ℤ} {m : Message}
    {hd : Handling} (hiov : iov ≠ []) (hm : m ∈ sentNotification k buffered iov counts)
    (hbegin : begin m = some hd)
    (hnotes : List.Forall₂ Announces hd.notes (tagged buffered iov counts)) :
    (loads buffered 0 (iov.map List.length)).length ≤ 1024 ∧
      ∀ n ∈ loads buffered 0 (iov.map List.length), n < 2 ^ 32 := by
  rw [begin_sent hm] at hbegin
  split at hbegin
  case isTrue => exact absurd hbegin (by simp)
  case isFalse hfits =>
    obtain rfl := Option.some.inj hbegin
    refine ⟨?_, (forall₂_announce_iff buffered counts hiov).1 hnotes⟩
    rw [← map_length_messages buffered hiov, ← map_fst_tagged buffered iov counts,
      List.length_map, List.length_map]
    exact not_lt.1 hfits

/-- When nothing fails the call returns its length. -/
theorem internalSendmsgRet_ok (buffered : ℕ) {iov : List Bytes} (h : iov ≠ []) :
    internalSendmsgRet buffered iov ⟨0, true, 0, fun _ => 0, 0⟩ = iov.flatten.length := by
  have hnone : (List.range (stage buffered iov).vIov.length).find?
      (fun _ => decide ((0 : ℤ) < 0)) = none := List.find?_eq_none.2 fun _ _ => by decide
  rw [internalSendmsgRet, if_neg h, toSend_eq, hnone]
  rfl

/-- **The round trip of a notification.**  When a call succeeds, the receiver thread reads an
entry for each of its data messages, in order, with the length and the tag of the message, and
the lengths add up to what the call returned, exactly when the pieces make at most 1024
messages, none of `2^32` bytes or more. -/
theorem notification_iff (k buffered : ℕ) {iov : List Bytes} (counts : ℕ → ℤ) {a : Answers}
    (h : internalSendmsgRet buffered iov a = iov.flatten.length) :
    (∀ m ∈ sentNotification k buffered iov counts, ∃ hd, begin m = some hd ∧
        List.Forall₂ Announces hd.notes (tagged buffered iov counts) ∧
        ((hd.notes.map NotiBuff.size).sum : ℤ) = internalSendmsgRet buffered iov a) ↔
      (loads buffered 0 (iov.map List.length)).length ≤ 1024 ∧
        ∀ n ∈ loads buffered 0 (iov.map List.length), n < 2 ^ 32 := by
  by_cases hiov : iov = []
  · subst hiov
    exact iff_of_true (fun m hm => absurd hm (by simp [sentNotification])) (by simp [loads])
  constructor
  · intro hread
    have hsent := sentNotification_eq k buffered counts hiov
    obtain ⟨hd, hbegin, hnotes, -⟩ := hread _ hsent
    exact loads_of_read hiov hsent hbegin hnotes
  · rintro ⟨hfew, hshort⟩ m hm
    have hnotes := (forall₂_announce_iff buffered counts hiov).2 hshort
    have hfits : ¬ 1024 < (tagged buffered iov counts).length := by
      rw [← map_length_messages buffered hiov, ← map_fst_tagged buffered iov counts,
        List.length_map, List.length_map] at hfew
      exact not_lt.2 hfew
    refine ⟨_, (begin_sent hm).trans (if_neg hfits), hnotes, ?_⟩
    rw [h, sum_size_of_announces hnotes]

/-- Two pieces in one message. -/
theorem notification_two :
    (∀ m ∈ sentNotification 0 65536 [[1], [2, 3]] fun i => i, ∃ hd, begin m = some hd ∧
        List.Forall₂ Announces hd.notes (tagged 65536 [[1], [2, 3]] fun i => i) ∧
        ((hd.notes.map NotiBuff.size).sum : ℤ) =
          internalSendmsgRet 65536 [[1], [2, 3]] ⟨0, true, 0, fun _ => 0, 0⟩) ↔
      (loads 65536 0 [1, 2]).length ≤ 1024 ∧ ∀ n ∈ loads 65536 0 [1, 2], n < 2 ^ 32 :=
  notification_iff 0 65536 (fun i => i) (internalSendmsgRet_ok 65536 (List.cons_ne_nil _ _))

/-- A message of `2^32` bytes is announced as an empty one, and the notification of 1025
messages is not received. -/
theorem notification_lost :
    (internalSendmsgRet 65536 [List.replicate (2 ^ 32) 0] ⟨0, true, 0, fun _ => 0, 0⟩ =
        ([List.replicate (2 ^ 32) 0] : List Bytes).flatten.length ∧
      ¬ ∀ m ∈ sentNotification 0 65536 [List.replicate (2 ^ 32) 0] fun i => i,
        ∃ hd, begin m = some hd ∧
          List.Forall₂ Announces hd.notes
            (tagged 65536 [List.replicate (2 ^ 32) 0] fun i => i) ∧
          ((hd.notes.map NotiBuff.size).sum : ℤ) =
            internalSendmsgRet 65536 [List.replicate (2 ^ 32) 0] ⟨0, true, 0, fun _ => 0, 0⟩) ∧
    internalSendmsgRet 1 (List.replicate 1025 [0]) ⟨0, true, 0, fun _ => 0, 0⟩ =
        (List.replicate 1025 [0] : List Bytes).flatten.length ∧
      ¬ ∀ m ∈ sentNotification 0 1 (List.replicate 1025 [0]) fun i => i,
        ∃ hd, begin m = some hd ∧
          List.Forall₂ Announces hd.notes (tagged 1 (List.replicate 1025 [0]) fun i => i) ∧
          ((hd.notes.map NotiBuff.size).sum : ℤ) =
            internalSendmsgRet 1 (List.replicate 1025 [0]) ⟨0, true, 0, fun _ => 0, 0⟩ := by
  have hlong : ([List.replicate (2 ^ 32) 0] : List Bytes) ≠ [] := List.cons_ne_nil _ _
  have hmany : (List.replicate 1025 [0] : List Bytes) ≠ [] := List.cons_ne_nil _ _
  refine ⟨⟨internalSendmsgRet_ok 65536 hlong, fun hread => ?_⟩,
    internalSendmsgRet_ok 1 hmany, fun hread => ?_⟩
  · have hsent := sentNotification_eq 0 65536 (fun i => (i : ℤ)) hlong
    obtain ⟨hd, hbegin, hnotes, -⟩ := hread _ hsent
    have hshort := (loads_of_read hlong hsent hbegin hnotes).2 (2 ^ 32)
    rw [List.map_singleton, List.length_replicate] at hshort
    exact absurd (hshort (by decide)) (lt_irrefl _)
  · have hsent := sentNotification_eq 0 1 (fun i => (i : ℤ)) hmany
    obtain ⟨hd, hbegin, hnotes, -⟩ := hread _ hsent
    have hfew := (loads_of_read hmany hsent hbegin hnotes).1
    rw [List.map_replicate] at hfew
    exact absurd hfew (by decide +kernel)

end RoundTrip

end Preload
end Lfi
