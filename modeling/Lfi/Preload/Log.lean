/-
# The calls made on a preloaded connection

A `Log` has, call by call, the data messages that `internal_sendmsg` sent and their tags.
A message is named by its call and its index there (`Id`).  `unposted log posted tag` are
the messages that bear `tag` and have no receive yet, in the order they are sent, when of
the call `k` the first `posted k` have one.  Posting the next receive of a call takes the
first of them, unless an earlier call has one with the same tag left (`unposted_post`).
-/

import Lfi.Preload.Socket
import Mathlib.Data.List.Basic
import Mathlib.Data.List.GetD

namespace Lfi
namespace Preload

open Data Runs

section Log

/-- A call that `internal_sendmsg` sent something for: its messages and their tags. -/
abbrev Call := List (Bytes × ℕ)

/-- The calls made. -/
abbrev Log := List Call

/-- The call number `k`. -/
def Log.at (log : Log) (k : ℕ) : Call := log.getD k []

/-- The bytes of a call. -/
def callBytes (ms : Call) : Bytes := ms.flatMap Prod.fst

/-- The bytes of these calls. -/
def Log.bytes (log : Log) : Bytes := log.flatMap callBytes

/-- What a careful call sends. -/
structure CallOk (ms : Call) : Prop where
  ne_nil : ms ≠ []
  length_le : ms.length ≤ 1024
  small : ∀ e ∈ ms, e.1.length < 4294967296
  tag_lt : ∀ e ∈ ms, e.2 < 4294967296
  tag_ne : ∀ e ∈ ms, e.2 ≠ tagRecv

theorem Log.at_append_of_lt {log : Log} {ms : Call} {k : ℕ} (h : k < log.length) :
    (log ++ [ms] : Log).at k = log.at k := by
  rw [Log.at, Log.at, List.getD_append _ _ _ _ h]

theorem Log.at_append_length (log : Log) (ms : Call) : (log ++ [ms] : Log).at log.length = ms := by
  simp [Log.at]

theorem Log.at_mem {log : Log} {k : ℕ} (h : k < log.length) : log.at k ∈ log := by
  rw [Log.at, List.getD_eq_getElem _ _ h]
  exact List.getElem_mem h

theorem Log.bytes_append (log log' : Log) : (log ++ log' : Log).bytes = log.bytes ++ log'.bytes :=
  List.flatMap_append

theorem Log.bytes_take_succ {log : Log} {k : ℕ} (h : k < log.length) :
    Log.bytes (log.take (k + 1)) = Log.bytes (log.take k) ++ callBytes (log.at k) := by
  rw [List.take_succ_eq_append_getElem h, Log.bytes_append, Log.at, List.getD_eq_getElem _ _ h,
    Log.bytes, Log.bytes, List.flatMap_singleton]

theorem CallOk.fits {ms : Call} (h : CallOk ms) : ∀ n ∈ notes ms, n.Fits := by
  intro n hn
  obtain ⟨e, he, rfl⟩ := List.mem_map.1 hn
  exact ⟨h.small e he, h.tag_lt e he⟩

/-- A thread reads of a notification what the call wrote. -/
theorem CallOk.decodeNotes {ms : Call} (h : CallOk ms) (k : ℕ) :
    decodeNotes (notification k ms).payload = notes ms :=
  decodeNotes_encodeNotes h.fits

theorem CallOk.begin_notification {ms : Call} (h : CallOk ms) (k : ℕ) :
    begin (notification k ms) = some ⟨notes ms, (notes ms).map fun _ => none, 0, k⟩ := by
  have hlen : (notification k ms).payload.length = 8 * ms.length := by
    rw [notification, length_encodeNotes, notes, List.length_map]
  have hle := h.length_le
  rw [begin, if_neg (by rw [hlen, auxBytes]; omega), h.decodeNotes]
  rfl

theorem tagged_ok {cfg : Config} {iov : List Bytes} {counts : ℕ → ℤ} (hs : Small cfg.buffered iov)
    (ht : ∀ i < (messages cfg.buffered iov).length, tagOf (counts i) ≠ tagRecv)
    (hne : tagged cfg.buffered iov counts ≠ []) : CallOk (tagged cfg.buffered iov counts) := by
  have hmem : ∀ e ∈ tagged cfg.buffered iov counts,
      ∃ i, ∃ h : i < (messages cfg.buffered iov).length,
      e = ((messages cfg.buffered iov)[i], tagOf (counts i)) := by
    intro e he
    obtain ⟨i, hi, rfl⟩ := List.mem_mapIdx.1 he
    exact ⟨i, hi, rfl⟩
  refine ⟨hne, ?_, ?_, ?_, ?_⟩
  · rw [tagged, List.length_mapIdx]
    exact hs.1
  · rintro e he
    obtain ⟨i, hi, rfl⟩ := hmem e he
    exact hs.2 _ (List.getElem_mem hi)
  · rintro e he
    obtain ⟨i, hi, rfl⟩ := hmem e he
    exact tagOf_lt _
  · rintro e he
    obtain ⟨i, hi, rfl⟩ := hmem e he
    exact ht i hi

theorem map_fst_tagged (buffered : ℕ) (iov : List Bytes) (counts : ℕ → ℤ) :
    (tagged buffered iov counts).map Prod.fst = messages buffered iov := by
  refine List.ext_getElem (by simp [tagged]) fun i _ _ => ?_
  simp [tagged]

theorem callBytes_tagged (buffered : ℕ) (iov : List Bytes) (counts : ℕ → ℤ) :
    callBytes (tagged buffered iov counts) = iov.flatten := by
  rw [callBytes, List.flatMap, map_fst_tagged, messages_flatten]

end Log

section Posting

/-- A data message by its call and its index. -/
abbrev Id := ℕ × ℕ

/-- The messages of the call `ms`, number `k`, that bear `tag`, from the index `n` on. -/
def ids (tag k : ℕ) (ms : Call) (n : ℕ) : List Id :=
  ((List.range' n (ms.length - n)).filter fun i => (ms.map Prod.snd)[i]? = some tag).map (k, ·)

/-- The messages with `tag` for which no receive is posted, in the order they are sent. -/
def unposted (log : Log) (posted : ℕ → ℕ) (tag : ℕ) : List Id :=
  (List.range log.length).flatMap fun k => ids tag k (log.at k) (posted k)

theorem ids_of_length_le {tag k n : ℕ} {ms : Call} (h : ms.length ≤ n) : ids tag k ms n = [] := by
  rw [ids, Nat.sub_eq_zero_of_le h]
  rfl

/-- Posting the next receive of a call takes its message from those with its tag. -/
theorem ids_succ {tag k n : ℕ} {ms : Call} {e : Bytes × ℕ} (h : ms[n]? = some e) :
    ids tag k ms n =
      if e.2 = tag then (k, n) :: ids tag k ms (n + 1) else ids tag k ms (n + 1) := by
  obtain ⟨hn, hget⟩ := List.getElem?_eq_some_iff.1 h
  have hlen : ms.length - n = (ms.length - (n + 1)) + 1 := by omega
  have hget' : (ms.map Prod.snd)[n]? = some e.2 := by rw [List.getElem?_map, h]; rfl
  rw [ids, hlen, List.range'_succ, List.filter_cons]
  simp only [hget', Option.some.injEq]
  split
  case isTrue he =>
    rw [if_pos (of_decide_eq_true he)]
    rfl
  case isFalse he =>
    rw [if_neg (by simpa using he)]
    rfl

/-- A call of which nothing with `tag` is left to post. -/
theorem ids_eq_nil {tag k n : ℕ} {ms : Call} (h : ∀ e ∈ (notes ms).drop n, e.tag ≠ tag) :
    ids tag k ms n = [] := by
  rw [ids, List.map_eq_nil_iff, List.filter_eq_nil_iff]
  intro i hi htag
  obtain ⟨hni, hic⟩ := List.mem_range'_1.1 hi
  have hlt : i < ms.length := by omega
  have hget : ((notes ms).drop n)[i - n]? = some ⟨ms[i].1.length, ms[i].2⟩ := by
    rw [List.getElem?_drop, notes, List.getElem?_map, Nat.add_sub_cancel' hni,
      List.getElem?_eq_getElem hlt]
    rfl
  refine h _ (List.mem_of_getElem? hget) ?_
  simpa [List.getElem?_map, List.getElem?_eq_getElem hlt] using htag

/-- When the first part that has an element is `k`, its first is the first of all. -/
theorem flatMap_range_pop {β : Type*} {f g : ℕ → List β} {x : β} {k n : ℕ} (hkn : k < n)
    (hlt : ∀ j < k, f j = []) (hk : f k = x :: g k) (hne : ∀ j, j ≠ k → f j = g j) :
    (List.range n).flatMap f = x :: (List.range n).flatMap g := by
  induction n with
  | zero => exact absurd hkn (Nat.not_lt_zero k)
  | succ n ih =>
      rw [List.range_succ, List.flatMap_append, List.flatMap_append, List.flatMap_singleton,
        List.flatMap_singleton]
      by_cases hkn' : k = n
      · have hf : (List.range n).flatMap f = [] :=
          List.flatMap_eq_nil_iff.2 fun j hj => hlt j (hkn' ▸ List.mem_range.1 hj)
        have hg : (List.range n).flatMap g = [] :=
          List.flatMap_eq_nil_iff.2 fun j hj => by
            have hj' : j < k := hkn' ▸ List.mem_range.1 hj
            rw [← hne j (by omega)]
            exact hlt j hj'
        rw [hf, hg, ← hkn', hk, List.nil_append, List.nil_append]
      · rw [ih (by omega), hne n (fun e => hkn' e.symm), List.cons_append]

theorem unposted_append {log : Log} {posted : ℕ → ℕ} {ms : Call} (tag : ℕ)
    (h : posted log.length = 0) :
    unposted (log ++ [ms]) posted tag = unposted log posted tag ++ ids tag log.length ms 0 := by
  rw [unposted, List.length_append, List.length_singleton, List.range_succ, List.flatMap_append,
    List.flatMap_singleton, Log.at_append_length, h, unposted]
  congr 1
  refine List.flatMap_congr fun k hk => ?_
  rw [Log.at_append_of_lt (List.mem_range.1 hk)]

/-- A receive posted for the first of the messages with its tag. -/
theorem unposted_post {log : Log} {posted : ℕ → ℕ} {k : ℕ} {e : Bytes × ℕ} (hk : k < log.length)
    (he : (log.at k)[posted k]? = some e)
    (hlt : ∀ j < k, ids e.2 j (log.at j) (posted j) = []) :
    unposted log posted e.2 =
      (k, posted k) :: unposted log (Function.update posted k (posted k + 1)) e.2 := by
  refine flatMap_range_pop hk hlt ?_ ?_
  · rw [ids_succ he, if_pos rfl, Function.update_self]
  · intro j hj
    rw [Function.update_of_ne hj]

/-- The other tags do not notice. -/
theorem unposted_post_of_ne {log : Log} {posted : ℕ → ℕ} {k tag : ℕ} {e : Bytes × ℕ}
    (he : (log.at k)[posted k]? = some e) (hne : e.2 ≠ tag) :
    unposted log posted tag =
      unposted log (Function.update posted k (posted k + 1)) tag := by
  refine List.flatMap_congr fun j _ => ?_
  by_cases hj : j = k
  · rw [hj, ids_succ he, if_neg hne, Function.update_self]
  · rw [Function.update_of_ne hj]

end Posting

end Preload
end Lfi
