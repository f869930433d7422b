/-
# When a read returns 0

To an application a read that returns 0 is the end of the connection.  `internal_recvmsg`
returns 0 for a buffer that is empty: the loop leaves at once and the buffer is taken off.

    if (buff.buffer.size() == buff.consumed){
        break;
    }

A thread queues a buffer of the bytes that a notification announces, and nothing keeps
`internal_sendmsg` from announcing none: a `write` of 0 bytes does (`read_zero`).  As long
as every call announces bytes, no read with room returns 0 (`no_false_end`).  This holds of
calls of any lengths, also of those that are not received as they were sent.
-/

import Lfi.Preload.Notification
import Lfi.Preload.Readiness

namespace Lfi
namespace Preload

open Data Runs

section Calls

/-- One step, the calls of `internal_sendmsg` being of any lengths. -/
def openStep (cfg : Config) (s : Socket) : Action → Option Socket
  | .sendmsg iov counts =>
      if s.pending = [] then some (internalSendmsg cfg s iov counts) else none
  | a => step cfg s a

theorem openStep_eq {cfg : Config} {s : Socket} {a : Action}
    (h : ∀ iov counts, a ≠ .sendmsg iov counts) : openStep cfg s a = step cfg s a := by
  cases a with
  | sendmsg iov counts => exact absurd rfl (h iov counts)
  | _ => rfl

/-- What `internal_recvmsg` returns while the connection is open: -1 with `EAGAIN`, or how many
bytes it copied. -/
inductive RecvRet where
  | again
  | count (n : ℕ)
deriving DecidableEq

def internalRecvmsgRet (buffers : List Buffered) (lens : List ℕ) : RecvRet :=
  match buffers with
  | [] => .again
  | _ => .count (internalRecvmsg buffers lens).1.length

/-- **No false end.**  A read with room returns a positive count when a byte has arrived, and
otherwise says to try again. -/
def NoFalseEnd (s : Socket) : Prop :=
  ∀ lens : List ℕ, 0 < lens.sum →
    if left s.buffers = [] then internalRecvmsgRet s.buffers lens = .again
    else ∃ n, 0 < n ∧ internalRecvmsgRet s.buffers lens = .count n

/-- A message that, read as a notification, announces bytes.  One that does not fit is not read,
and of one without entries nothing is queued. -/
def Announcing (payload : Bytes) : Prop :=
  auxBytes < payload.length ∨ decodeNotes payload = [] ∨
    ((decodeNotes payload).map NotiBuff.size).sum ≠ 0

instance (payload : Bytes) : Decidable (Announcing payload) :=
  inferInstanceAs (Decidable (_ ∨ _ ∨ _))

/-- The lengths of the pieces make too many messages, or one whose length does not end on 32
zero bits. -/
def HasBytes (buffered : ℕ) (lens : List ℕ) : Prop :=
  1024 < (loads buffered 0 lens).length ∨ ∃ n ∈ loads buffered 0 lens, n % 2 ^ 32 ≠ 0

instance (buffered : ℕ) (lens : List ℕ) : Decidable (HasBytes buffered lens) :=
  inferInstanceAs (Decidable (_ ∨ _))

/-- The calls that announce bytes, or send nothing.  A data message with the tag of the
notifications may be read as one. -/
def AnnouncesBytes (cfg : Config) (_ : Socket) : Action → Prop
  | .sendmsg iov counts =>
      (iov = [] ∨ HasBytes cfg.buffered (iov.map List.length)) ∧
        ∀ e ∈ tagged cfg.buffered iov counts, e.2 = tagRecv → Announcing e.1
  | _ => True

instance (cfg : Config) (s : Socket) : DecidablePred (AnnouncesBytes cfg s)
  | .sendmsg iov counts =>
      inferInstanceAs (Decidable
        ((iov = [] ∨ HasBytes cfg.buffered (iov.map List.length)) ∧
          ∀ e ∈ tagged cfg.buffered iov counts, e.2 = tagRecv → Announcing e.1))
  | .put | .deliver _ | .take _ | .post _ | .fill _ | .append _ | .recvmsg _ => .isTrue trivial

end Calls

section Announced

/-- A call that has bytes announces some. -/
theorem announcing_notification {k buffered : ℕ} {iov : List Bytes} {counts : ℕ → ℤ}
    (hiov : iov ≠ []) (h : HasBytes buffered (iov.map List.length)) :
    Announcing (notification k (tagged buffered iov counts)).payload := by
  have hpayload : (notification k (tagged buffered iov counts)).payload =
      encodeNotes (announce buffered iov counts) := by
    rw [announce_eq buffered counts hiov, encodeNotes_mod]
    rfl
  have hloads : (tagged buffered iov counts).map (fun e => e.1.length) =
      loads buffered 0 (iov.map List.length) := by
    rw [← map_length_messages buffered hiov, ← map_fst_tagged buffered iov counts, List.map_map]
    rfl
  have hlength : (announce buffered iov counts).length =
      (loads buffered 0 (iov.map List.length)).length := by
    rw [announce_eq buffered counts hiov, ← hloads, List.length_map, List.length_map]
  rw [hpayload]
  rcases h with hmany | ⟨n, hn, hbytes⟩
  · left
    rw [length_encodeNotes, hlength, auxBytes]
    omega
  · refine .inr (.inr fun hsum => ?_)
    rw [decodeNotes_encodeNotes (announce_fits buffered iov counts),
      announce_eq buffered counts hiov, List.map_map, List.sum_eq_zero_iff_forall_eq_nat] at hsum
    rw [← hloads] at hn
    obtain ⟨e, he, rfl⟩ := List.mem_map.1 hn
    exact hbytes (hsum _ (List.mem_map_of_mem he))

end Announced

section Invariant

/-- A notification in work announced bytes, and each part that came has the announced length. -/
structure Announced (h : Handling) : Prop where
  notes : h.notes = [] ∨ (h.notes.map NotiBuff.size).sum ≠ 0
  parts : List.Forall₂ (fun n p => ∀ bs ∈ p, bs.length = n.size) h.notes h.parts
  unposted : ∀ i, h.posted ≤ i → i < h.parts.length → h.parts[i]? = some none

/-- What holds while the calls announce bytes. -/
structure OpenInv (s : Socket) : Prop where
  noti : ∀ m ∈ s.chan tagRecv, Announcing m.payload
  pending : ∀ e ∈ s.pending, e.1 = tagRecv → Announcing e.2.payload
  inbox : ∀ t, ∀ m ∈ (s.threads t).inbox, Announcing m.payload
  current : ∀ t, ∀ h ∈ (s.threads t).current, Announced h
  recvs : ∀ tag, ∀ r ∈ s.recvs tag, RecvOk s.threads tag r
  nodup : ∀ tag, ((s.recvs tag).map fun r => (r.thread, r.slot)).Nodup
  buffers : ∀ b ∈ s.buffers, b.consumed < b.buffer.length

theorem OpenInv.init : OpenInv init where
  noti m hm := absurd hm List.not_mem_nil
  pending e he := absurd he List.not_mem_nil
  inbox t m hm := by simp [Preload.init] at hm
  current t h hh := by simp [Preload.init] at hh
  recvs tag r hr := absurd hr List.not_mem_nil
  nodup tag := List.nodup_nil
  buffers b hb := absurd hb List.not_mem_nil

variable {cfg : Config} {s : Socket}

/-- The beginning of a call. -/
theorem OpenInv.sendmsg (inv : OpenInv s) {iov : List Bytes} {counts : ℕ → ℤ}
    (h : AnnouncesBytes cfg s (.sendmsg iov counts)) :
    OpenInv (internalSendmsg cfg s iov counts) := by
  rw [internalSendmsg]
  split
  case h_1 => exact inv
  case h_2 c hne =>
    have hiov : iov ≠ [] := by
      rintro rfl
      exact hne rfl
    refine { inv with noti := fun m hm => ?_, pending := fun e he htag => ?_ }
    · dsimp only at hm
      rcases mem_update_append hm with hm | ⟨-, rfl⟩
      · exact inv.noti m hm
      · exact announcing_notification hiov (h.1.resolve_left hiov)
    · obtain ⟨i, hi, rfl⟩ := List.mem_mapIdx.1 he
      exact h.2 _ (List.getElem_mem hi) htag

/-- The next message of the call is sent. -/
theorem OpenInv.put (inv : OpenInv s) {tag : ℕ} {m : Message} {rest : List (ℕ × Message)}
    (hp : s.pending = (tag, m) :: rest) :
    OpenInv { s with
      pending := rest
      chan := Function.update s.chan tag (s.chan tag ++ [m]) } := by
  refine { inv with noti := fun m' hm' => ?_, pending := fun e he => ?_ }
  · dsimp only at hm'
    rcases mem_update_append hm' with hm' | ⟨rfl, rfl⟩
    · exact inv.noti m' hm'
    · exact inv.pending _ (hp ▸ List.mem_cons_self) rfl
  · exact inv.pending e (hp ▸ List.mem_cons_of_mem _ he)

/-- One thread changes. -/
theorem OpenInv.threads (inv : OpenInv s) (t : ℕ) (th : Thread)
    (hinbox : ∀ m ∈ th.inbox, Announcing m.payload) (hcurrent : ∀ h ∈ th.current, Announced h) :
    ∀ u, (∀ m ∈ (Function.update s.threads t th u).inbox, Announcing m.payload) ∧
      ∀ h ∈ (Function.update s.threads t th u).current, Announced h :=
  (Function.forall_update_iff s.threads fun _ th =>
    (∀ m ∈ th.inbox, Announcing m.payload) ∧ ∀ h ∈ th.current, Announced h).2
    ⟨⟨hinbox, hcurrent⟩, fun u _ => ⟨inv.inbox u, inv.current u⟩⟩

/-- A change of one thread that leaves it the same work keeps what the receives wait for. -/
theorem RecvOk.update {threads : ℕ → Thread} {t tag : ℕ} {th : Thread} {r : Receive}
    (h : RecvOk threads tag r) (hcurrent : th.current = (threads t).current) :
    RecvOk (Function.update threads t th) tag r := by
  obtain ⟨hd, hhd, hrest⟩ := h
  refine ⟨hd, ?_, hrest⟩
  by_cases hr : r.thread = t
  · rw [hr, Function.update_self, hcurrent, ← hr, hhd]
  · rw [Function.update_of_ne hr, hhd]

/-- A notification comes to a thread. -/
theorem OpenInv.deliver (inv : OpenInv s) {t : ℕ} {m : Message} {rest : List Message}
    (hchan : s.chan tagRecv = m :: rest) :
    OpenInv { s with
      chan := Function.update s.chan tagRecv rest
      threads := Function.update s.threads t { s.threads t with inbox := some m } } := by
  have hnew : ∀ m' ∈ ({ s.threads t with inbox := some m } : Thread).inbox,
      Announcing m'.payload := by
    intro m' hm'
    obtain rfl := Option.some.inj hm'
    exact inv.noti _ (hchan ▸ List.mem_cons_self)
  have hthreads := inv.threads t { s.threads t with inbox := some m } hnew (inv.current t)
  exact { inv with
    noti := fun m' hm' => inv.noti m' ((sublist_update_tail hchan tagRecv).mem hm')
    inbox := fun u => (hthreads u).1
    current := fun u => (hthreads u).2
    recvs := fun tag r hr => (inv.recvs tag r hr).update rfl }

/-- A thread begins with a notification that announces bytes. -/
theorem announced_begin {m : Message} {h : Handling} (hm : Announcing m.payload)
    (hbegin : begin m = some h) : Announced h := by
  rw [begin] at hbegin
  split at hbegin
  case isTrue => exact absurd hbegin (by simp)
  case isFalse hfits =>
    obtain rfl := Option.some.inj hbegin
    refine ⟨hm.resolve_left hfits, ?_, fun i _ hi => ?_⟩
    · rw [List.forall₂_map_right_iff, List.forall₂_same]
      exact fun n _ bs hbs => absurd hbs (by simp)
    · rw [List.length_map] at hi
      simp [hi]

theorem OpenInv.take (inv : OpenInv s) {t : ℕ} {m : Message}
    (hinbox : (s.threads t).inbox = some m) (hidle : (s.threads t).current = none) :
    OpenInv { s with threads := Function.update s.threads t ⟨none, begin m⟩ } := by
  have hthreads := inv.threads t ⟨none, begin m⟩ (by simp)
    fun h hh => announced_begin (inv.inbox t m hinbox) hh
  exact { inv with
    inbox := fun u => (hthreads u).1
    current := fun u => (hthreads u).2
    recvs := fun tag r hr =>
      (inv.recvs tag r hr).update_of_ne ((inv.recvs tag r hr).thread_ne hidle) }

/-- One more receive is posted for the notification. -/
theorem Announced.post {h : Handling} (ann : Announced h) :
    Announced { h with posted := h.posted + 1 } :=
  ⟨ann.notes, ann.parts, fun i hi => ann.unposted i (Nat.le_of_succ_le hi)⟩

/-- A thread posts its next receive. -/
theorem OpenInv.post (inv : OpenInv s) {t : ℕ} {h : Handling} {n : NotiBuff}
    (hcurrent : (s.threads t).current = some h) (hn : h.notes[h.posted]? = some n) :
    OpenInv { s with
      recvs := Function.update s.recvs n.tag
        (s.recvs n.tag ++ [⟨t, h.posted, n.size, h.call⟩])
      threads := Function.update s.threads t
        ((s.threads t).work { h with posted := h.posted + 1 }) } := by
  have hann := inv.current t h hcurrent
  have hslot : h.posted < h.parts.length := by
    rw [← hann.parts.length_eq]
    exact (List.getElem?_eq_some_iff.1 hn).1
  have hnew : RecvOk (Function.update s.threads t
      ((s.threads t).work { h with posted := h.posted + 1 })) n.tag
      ⟨t, h.posted, n.size, h.call⟩ := by
    refine ⟨{ h with posted := h.posted + 1 }, ?_, rfl, Nat.lt_succ_self _,
      hann.unposted _ le_rfl hslot, hn⟩
    rw [Function.update_self]
    rfl
  have hthreads := inv.threads t
    ((s.threads t).work { h with posted := h.posted + 1 }) (inv.inbox t)
    fun h' hh' => Option.some.inj hh' ▸ hann.post
  refine { inv with
    inbox := fun u => (hthreads u).1
    current := fun u => (hthreads u).2
    recvs := fun tag r hr => ?_
    nodup := fun tag => ?_ }
  · rcases mem_update_append hr with hr | ⟨rfl, rfl⟩
    · exact (inv.recvs tag r hr).post hcurrent
    · exact hnew
  · by_cases htag : tag = n.tag
    · subst htag
      simp only [Function.update_self, List.map_append, List.map_singleton]
      refine (inv.nodup _).append (List.nodup_singleton _) fun p hp hp' => ?_
      obtain ⟨r, hr, rfl⟩ := List.mem_map.1 hp
      obtain ⟨hthread, hslot'⟩ := Prod.mk.inj (List.mem_singleton.1 hp')
      obtain ⟨hd, hhd, -, hlt, -⟩ := inv.recvs _ r hr
      rw [hthread, hcurrent] at hhd
      obtain rfl := Option.some.inj hhd
      exact absurd hlt (by rw [hslot']; exact lt_irrefl _)
    · simp only [Function.update_of_ne htag]
      exact inv.nodup tag

theorem length_fit (n : ℕ) (bs : Bytes) : (fit n bs).length = n := by
  rw [fit, List.length_append, List.length_take, List.length_replicate]
  omega

/-- A part of the notification's data has come. -/
theorem Announced.fill {h : Handling} (ann : Announced h) {slot size tag : ℕ}
    (hslot : slot < h.posted) (hn : h.notes[slot]? = some ⟨size, tag⟩) (bs : Bytes) :
    Announced { h with parts := h.parts.set slot (some (fit size bs)) } := by
  refine ⟨ann.notes, ?_, fun i hi hlen => ?_⟩
  · refine List.forall₂_iff_get.2 ⟨by rw [List.length_set, ann.parts.length_eq], ?_⟩
    intro i hi hi' bs' hbs
    by_cases hsame : slot = i
    · subst hsame
      have hsize := (List.getElem?_eq_some_iff.1 hn).2
      simp only [List.get_eq_getElem, List.getElem_set_self] at hbs ⊢
      obtain rfl := Option.some.inj hbs
      rw [hsize, length_fit]
    · simp only [List.get_eq_getElem, List.getElem_set_ne hsame] at hbs
      exact (List.forall₂_iff_get.1 ann.parts).2 i hi (by simpa using hi') bs' hbs
  · have hne : slot ≠ i := (hslot.trans_le hi).ne
    rw [List.getElem?_set_ne hne]
    exact ann.unposted i hi (by simpa using hlen)

/-- A message comes into a part. -/
theorem OpenInv.fill (inv : OpenInv s) {tag : ℕ} {m : Message} {ms : List Message} {r : Receive}
    {rs : List Receive} (hchan : s.chan tag = m :: ms) (hrecvs : s.recvs tag = r :: rs) :
    OpenInv { s with
      chan := Function.update s.chan tag ms
      recvs := Function.update s.recvs tag rs
      threads := Function.update s.threads r.thread
        (receivePart (s.threads r.thread) r m) } := by
  obtain ⟨h, hcurrent, -, hslot, hpart, hn⟩ := inv.recvs tag r (hrecvs ▸ List.mem_cons_self)
  have hann := inv.current _ h hcurrent
  have hnodup := inv.nodup tag
  rw [hrecvs, List.map_cons, List.nodup_cons] at hnodup
  have hwork : receivePart (s.threads r.thread) r m = (s.threads r.thread).work
      { h with parts := h.parts.set r.slot (some (fit r.size m.payload)) } := by
    rw [receivePart, hcurrent]
    rfl
  -- no other receive waits for this part
  have hold : ∀ tag', ∀ r' ∈ s.recvs tag', (tag' = tag → r' ∈ rs) →
      RecvOk (Function.update s.threads r.thread (receivePart (s.threads r.thread) r m))
        tag' r' := by
    intro tag' r' hr' hmem
    rw [hwork]
    refine (inv.recvs tag' r' hr').fill hcurrent _ fun hthread _ hn' hs => ?_
    rw [← hs, hn] at hn'
    have htags : tag = tag' := congrArg NotiBuff.tag (Option.some.inj hn')
    exact hnodup.1 (List.mem_map.2 ⟨r', hmem htags.symm, by rw [hthread, hs]⟩)
  have hthreads := inv.threads r.thread (receivePart (s.threads r.thread) r m)
    (inv.inbox _) fun h' hh' => by
      rw [hwork] at hh'
      exact Option.some.inj hh' ▸ hann.fill hslot hn m.payload
  refine { inv with
    noti := fun m' hm' => inv.noti m' ((sublist_update_tail hchan tagRecv).mem hm')
    inbox := fun u => (hthreads u).1
    current := fun u => (hthreads u).2
    recvs := fun tag' r' hr' => ?_
    nodup := fun tag' => ((sublist_update_tail hrecvs tag').map _).nodup (inv.nodup tag') }
  refine hold tag' r' ((sublist_update_tail hrecvs tag').mem hr') ?_
  rintro rfl
  simpa only [Function.update_self] using hr'

/-- A buffer has as many bytes as its notification announced. -/
theorem Announced.length_newBuffer {h : Handling} (ann : Announced h)
    (hall : ∀ p ∈ h.parts, p.isSome) :
    h.newBuffer.length = (h.notes.map NotiBuff.size).sum := by
  have hlengths : ∀ {ns : List NotiBuff} {ps : List (Option Bytes)},
      List.Forall₂ (fun n p => ∀ bs ∈ p, bs.length = n.size) ns ps → (∀ p ∈ ps, p.isSome) →
      (ps.flatMap fun p => p.getD []).length = (ns.map NotiBuff.size).sum := by
    intro ns ps hforall
    induction hforall with
    | nil => exact fun _ => rfl
    | @cons n p ns ps hhead _ ih =>
        intro hsome
        obtain ⟨bs, hbs⟩ := Option.isSome_iff_exists.1 (hsome p List.mem_cons_self)
        rw [List.flatMap_cons, List.length_append, List.map_cons, List.sum_cons,
          ih fun p' hp' => hsome p' (List.mem_cons_of_mem _ hp'), hbs, ← hhead bs hbs]
        rfl
  exact hlengths ann.parts hall

/-- A thread has all of a notification's data. -/
theorem OpenInv.append (inv : OpenInv s) {t : ℕ} {h : Handling}
    (hcurrent : (s.threads t).current = some h) (hall : h.Complete) :
    OpenInv { s with
      buffers := if h.notes = [] then s.buffers else s.buffers ++ [⟨h.newBuffer, 0⟩]
      threads := Function.update s.threads t { s.threads t with current := none } } := by
  have hann := inv.current t h hcurrent
  have hdone : ∀ tag, ∀ r ∈ s.recvs tag, r.thread ≠ t := by
    rintro tag r hr rfl
    obtain ⟨h', hcurrent', -, -, hpart, -⟩ := inv.recvs tag r hr
    obtain rfl := Option.some.inj (hcurrent.symm.trans hcurrent')
    exact absurd (hall.2 _ (List.mem_of_getElem? hpart)) (by decide)
  have hthreads := inv.threads t { s.threads t with current := none }
    (inv.inbox t) (by simp)
  refine { inv with
    inbox := fun u => (hthreads u).1
    current := fun u => (hthreads u).2
    recvs := fun tag r hr => (inv.recvs tag r hr).update_of_ne (hdone tag r hr)
    buffers := fun b hb => ?_ }
  dsimp only at hb
  split at hb
  case isTrue => exact inv.buffers b hb
  case isFalse hnotes =>
    rcases List.mem_append.1 hb with hb | hb
    · exact inv.buffers b hb
    · rw [List.mem_singleton.1 hb]
      show 0 < h.newBuffer.length
      rw [hann.length_newBuffer hall.2]
      exact Nat.pos_of_ne_zero (hann.notes.resolve_left hnotes)

/-- A read leaves no buffer that is used up. -/
theorem OpenInv.recvmsg (inv : OpenInv s) (lens : List ℕ) :
    OpenInv { s with
      buffers := (internalRecvmsg s.buffers lens).2
      returned := s.returned ++ (internalRecvmsg s.buffers lens).1 } := by
  refine { inv with buffers := fun b hb => ?_ }
  dsimp only at hb
  cases hbuffers : s.buffers with
  | nil =>
      rw [hbuffers] at hb
      exact absurd hb List.not_mem_nil
  | cons b' bs =>
      have hfront := inv.buffers b' (hbuffers ▸ List.mem_cons_self)
      have hrest : ∀ b ∈ bs, b.consumed < b.buffer.length := fun b hb =>
        inv.buffers b (hbuffers ▸ List.mem_cons_of_mem _ hb)
      rw [hbuffers, internalRecvmsg] at hb
      dsimp only at hb
      split at hb
      case isTrue => exact hrest b hb
      case isFalse hleft =>
        rcases List.mem_cons.1 hb with rfl | hb
        · exact lt_of_le_of_ne (copyOut_consumed_le lens hfront.le) (Ne.symm hleft)
        · exact hrest b hb

/-- **A step keeps the invariant** when its call, if it is one, announces bytes. -/
theorem OpenInv.step (inv : OpenInv s) {a : Action} {t : Socket} (hG : AnnouncesBytes cfg s a)
    (h : openStep cfg s a = some t) : OpenInv t := by
  cases a with
  | sendmsg iov counts =>
      rw [openStep] at h
      split at h
      case isTrue => exact Option.some.inj h ▸ inv.sendmsg hG
      case isFalse => cases h
  | put =>
      rw [openStep_eq (by simp), Preload.step] at h
      split at h
      case h_1 => cases h
      case h_2 hp => exact Option.some.inj h ▸ inv.put hp
  | deliver t =>
      rw [openStep_eq (by simp), Preload.step] at h
      split at h
      case isFalse => cases h
      case isTrue =>
        split at h
        case h_1 hchan _ => exact Option.some.inj h ▸ inv.deliver hchan
        case h_2 => cases h
  | take t =>
      rw [openStep_eq (by simp), Preload.step] at h
      split at h
      case h_1 hinbox hidle => exact Option.some.inj h ▸ inv.take hinbox hidle
      case h_2 => cases h
  | post t =>
      rw [openStep_eq (by simp), Preload.step] at h
      split at h
      case h_1 => cases h
      case h_2 hd hcurrent =>
        split at h
        case h_1 => cases h
        case h_2 n hn => exact Option.some.inj h ▸ inv.post hcurrent hn
  | fill tag =>
      rw [openStep_eq (by simp), Preload.step] at h
      split at h
      case h_1 hchan hrecvs => exact Option.some.inj h ▸ inv.fill hchan hrecvs
      case h_2 => cases h
  | append t =>
      rw [openStep_eq (by simp), Preload.step] at h
      split at h
      case h_1 => cases h
      case h_2 hd hcurrent =>
        split at h
        case isTrue hall => exact Option.some.inj h ▸ inv.append hcurrent hall
        case isFalse => cases h
  | recvmsg lens => exact Option.some.inj h ▸ inv.recvmsg lens

end Invariant

section Reads

/-- With bytes to read and room for them, some are copied. -/
theorem copyOut_pos {b : Buffered} {lens : List ℕ} (h : b.consumed < b.buffer.length)
    (hroom : 0 < lens.sum) : 0 < (copyOut b lens).1.length := by
  induction lens generalizing b with
  | nil => exact absurd hroom (lt_irrefl 0)
  | cons n lens ih =>
      rw [copyOut, if_neg h.ne']
      dsimp only
      rw [List.length_append, List.length_take, List.length_drop]
      cases n with
      | zero =>
          have hrest := ih (b := { b with consumed := b.consumed + min 0 (b.buffer.length -
            b.consumed) }) (by simpa using h) (by simpa using hroom)
          exact Nat.add_pos_right _ hrest
      | succ n => omega

/-- When no buffer is used up, no read with room returns 0. -/
theorem OpenInv.noFalseEnd {s : Socket} (inv : OpenInv s) : NoFalseEnd s := by
  intro lens hroom
  cases hbuffers : s.buffers with
  | nil => rfl
  | cons b bs =>
      have hfront := inv.buffers b (hbuffers ▸ List.mem_cons_self)
      have hleft : left (b :: bs) ≠ [] := by
        rw [left, List.flatMap_cons]
        exact List.append_ne_nil_of_left_ne_nil
          (List.ne_nil_of_length_pos (by rw [List.length_drop]; omega)) _
      rw [if_neg hleft]
      exact ⟨_, copyOut_pos hfront hroom, rfl⟩

/-- **No false end of the stream.**  For any number of threads and any calls and reads, in any
order of the steps, as long as every call announces bytes. -/
theorem no_false_end (cfg : Config) {as : List Action}
    (h : Meets (openStep cfg) (AnnouncesBytes cfg) init as) :
    Always (openStep cfg) NoFalseEnd init as :=
  (always_of_meets (fun _ _ _ inv hG hstep => OpenInv.step inv hG hstep) OpenInv.init h).mono
    fun _ inv => inv.noFalseEnd

/-- One call of two pieces, the first empty, and the reads of what it sends. -/
def emptyPiece : List Action :=
  [.sendmsg [[], [7, 8]] fun _ => 0, .put, .deliver 0, .take 0, .post 0, .fill (tagOf 0),
    .append 0, .recvmsg [0, 1], .recvmsg [4]]

theorem no_false_end_emptyPiece : Always (openStep ⟨1, 65536⟩) NoFalseEnd init emptyPiece :=
  no_false_end ⟨1, 65536⟩ (by decide +kernel)

/-- A `write` of no bytes, up to where its buffer is queued. -/
def emptyWrite : List Action :=
  [.sendmsg [[]] fun _ => 0, .put, .deliver 0, .take 0, .post 0, .fill (tagOf 0), .append 0]

/-- **A `write` of 0 bytes is an end of the stream** to the other side: a `read` of 8 bytes
returns 0. -/
theorem read_zero :
    ¬ ∀ (cfg : Config) (as : List Action), Always (openStep cfg) NoFalseEnd init as := by
  intro h
  have hrun := (Option.some_get (x := exec (openStep ⟨1, 65536⟩) init emptyWrite)
    (by decide +kernel)).symm
  have hlast := (h ⟨1, 65536⟩ emptyWrite).last hrun [8] (by decide)
  have hbuffers : ((exec (openStep ⟨1, 65536⟩) init emptyWrite).get (by decide +kernel)).buffers =
      [⟨[], 0⟩] := by decide +kernel
  rw [hbuffers, if_pos (by decide)] at hlast
  exact absurd hlast (by decide)

end Reads

end Preload
end Lfi
