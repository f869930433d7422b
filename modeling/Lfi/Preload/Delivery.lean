/-
# What was sent arrives

The invariant of `Lfi.Preload.ByteOrder` keeps the bytes of a connection in order.  They also
arrive (`everything_arrives`): however the sender and the threads of the receiver take turns, and
whatever else the application does in between, a call of `n` messages costs them `3 + 3 * n` steps
at most, and where they have no careful step left, what was read and what lies in `buffers` is
all that was given to `internal_sendmsg`.

A thread that waits for a message has a receive posted for it (`Awaited`).  So of the calls in
hand the first one can go on.
-/

import Lfi.Preload.ByteOrder
import Lfi.Runs.Potential

namespace Lfi
namespace Preload

open Data Runs

section Ahead

/-- A step of the library, not a call of the application. -/
def Action.ofLibrary : Action → Bool
  | .sendmsg _ _ | .recvmsg _ => false
  | .put | .deliver _ | .take _ | .post _ | .fill _ | .append _ => true

/-- The receives still to be posted and the parts still to come, and then the buffer. -/
def Handling.ahead (h : Handling) : ℕ :=
  1 + (h.notes.length - h.posted) + h.parts.countP (·.isNone)

/-- The steps with a notification once it is received. -/
def Message.ahead (m : Message) : ℕ := 2 + 2 * (decodeNotes m.payload).length

def Thread.ahead (th : Thread) : ℕ :=
  th.inbox.elim 0 Message.ahead + th.current.elim 0 Handling.ahead

/-- The steps of the library with what has been sent so far. -/
def Socket.ahead (cfg : Config) (s : Socket) : ℕ :=
  s.pending.length + total (fun m => m.ahead + 1) (s.chan tagRecv) +
    ∑ t ∈ Finset.range cfg.threads, (s.threads t).ahead

/-- The steps of the library that a call is good for. -/
def Action.brings (cfg : Config) : Action → ℕ
  | .sendmsg iov _ => match (messages cfg.buffered iov).length with
      | 0 => 0
      | n + 1 => 3 + 3 * (n + 1)
  | _ => 0

variable {cfg : Config} {g : Ghost} {s s' : Socket}

/-- The other threads have as much to do as before. -/
theorem sum_ahead_update {n t : ℕ} (threads : ℕ → Thread) (th : Thread) (ht : t < n) :
    ∑ u ∈ Finset.range n, (Function.update threads t th u).ahead + (threads t).ahead =
      ∑ u ∈ Finset.range n, (threads u).ahead + th.ahead := by
  have hsum := sum_replace (S := Finset.range n) (f := fun u => (threads u).ahead)
    (g := fun u => (Function.update threads t th u).ahead) (Finset.mem_range.2 ht)
    fun u hu => by rw [Function.update_of_ne hu]
  rw [Function.update_self] at hsum
  exact hsum

theorem Log.lt_length {log : Log} {k i : ℕ} {e : Bytes × ℕ} (h : (log.at k)[i]? = some e) :
    k < log.length := by
  by_contra hge
  rw [Log.at, List.getD_eq_default _ _ (Nat.le_of_not_lt hge)] at h
  cases h

/-- No data message bears the tag of the notifications. -/
theorem Inv.tag_ne (inv : Inv cfg g s) {k i : ℕ} {e : Bytes × ℕ}
    (h : (g.log.at k)[i]? = some e) : e.2 ≠ tagRecv :=
  (inv.log_ok _ (Log.at_mem (Log.lt_length h))).tag_ne e (List.mem_of_getElem? h)

theorem Inv.recv_tag_ne (inv : Inv cfg g s) {tag : ℕ} {r : Receive} (hr : r ∈ s.recvs tag) :
    tag ≠ tagRecv := by
  obtain ⟨h, hc, -, -, -, hn⟩ := inv.recvs tag r hr
  obtain ⟨e, he, hne⟩ := (inv.handling _ h hc).entry hn
  obtain ⟨-, rfl⟩ := NotiBuff.mk.injEq _ _ _ _ ▸ hne
  exact inv.tag_ne he

/-- A call brings the steps it is good for. -/
theorem ahead_sendmsg {iov : List Bytes} {counts : ℕ → ℤ}
    (hG : Careful cfg s (.sendmsg iov counts))
    (h : Preload.step cfg s (.sendmsg iov counts) = some s') :
    s'.ahead cfg = s.ahead cfg + (Action.sendmsg iov counts).brings cfg := by
  obtain ⟨hif, h⟩ := Option.ite_none_right_eq_some.1 h
  obtain rfl := Option.some.inj h
  have hlen : (tagged cfg.buffered iov counts).length = (messages cfg.buffered iov).length :=
    List.length_mapIdx
  rw [internalSendmsg]
  split
  case h_1 hnil =>
    rw [hnil] at hlen
    simp [Action.brings, ← hlen]
  case h_2 c hne =>
    have hok := tagged_ok hif.2 hG hne
    obtain ⟨n, hn⟩ := Nat.exists_eq_succ_of_ne_zero (List.length_pos_iff.2 hne).ne'
    have hpending : (dataMessages s.calls (tagged cfg.buffered iov counts)).length = n + 1 :=
      List.length_mapIdx.trans hn
    have hnotes : (notes (tagged cfg.buffered iov counts)).length = n + 1 := by
      rw [notes, List.length_map, hn]
    simp only [Socket.ahead, Function.update_self, total_append, total_cons, total_nil,
      Message.ahead, hok.decodeNotes, hpending, hnotes, hif.1, List.length_nil, Action.brings,
      ← hlen, hn]
    omega

/-- A data message goes out. -/
theorem Inv.ahead_put (inv : Inv cfg g s) (h : Preload.step cfg s .put = some s') :
    s'.ahead cfg + 1 = s.ahead cfg := by
  rw [Preload.step] at h
  split at h
  case h_1 => cases h
  case h_2 tag m rest hp =>
    obtain rfl := Option.some.inj h
    have htag : tag ≠ tagRecv := inv.tag_ne (inv.pending (tag, m) (hp ▸ List.mem_cons_self))
    simp only [Socket.ahead, Function.update_of_ne htag.symm, hp, List.length_cons]
    omega

/-- A notification comes in. -/
theorem ahead_deliver {t : ℕ} (h : Preload.step cfg s (.deliver t) = some s') :
    s'.ahead cfg + 1 = s.ahead cfg := by
  obtain ⟨ht, h⟩ := Option.ite_none_right_eq_some.1 h
  split at h
  case h_1 m rest hchan hin =>
    obtain rfl := Option.some.inj h
    have hsum := sum_ahead_update s.threads { s.threads t with inbox := some m } ht
    simp only [Thread.ahead, hin, Option.elim_none, Option.elim_some] at hsum
    simp only [Socket.ahead, Function.update_self, hchan, total_cons, Thread.ahead]
    omega
  case h_2 => cases h

/-- It is taken in hand: what its entries promise is still to be received. -/
theorem Inv.ahead_take (inv : Inv cfg g s) {t : ℕ}
    (h : Preload.step cfg s (.take t) = some s') : s'.ahead cfg + 1 = s.ahead cfg := by
  rw [Preload.step] at h
  split at h
  case h_1 m hin hcur =>
    obtain rfl := Option.some.inj h
    have ht : t < cfg.threads := inv.lt_threads fun e => by rw [e] at hin; cases hin
    have hok := inv.log_ok _ (Log.at_mem (inv.inbox_lt hin))
    have hm := inv.inbox t m hin
    have hbegin : begin m = some ⟨notes (g.log.at m.call),
        (notes (g.log.at m.call)).map fun _ => none, 0, m.call⟩ := by
      rw [hm]
      exact hok.begin_notification m.call
    have hdecode : decodeNotes m.payload = notes (g.log.at m.call) := by
      rw [hm]
      exact hok.decodeNotes m.call
    have hall : (notes (g.log.at m.call)).countP
        ((fun x : Option Bytes => x.isNone) ∘ fun _ => none) =
          (notes (g.log.at m.call)).length :=
      List.countP_eq_length.2 fun _ _ => rfl
    have hsum := sum_ahead_update s.threads ⟨none, begin m⟩ ht
    simp only [Thread.ahead, hin, hcur, hbegin, Option.elim_none, Option.elim_some,
      Message.ahead, hdecode, Handling.ahead, List.countP_map, hall] at hsum
    simp only [Socket.ahead, hbegin, Thread.ahead]
    omega
  case h_2 => cases h

/-- A receive is posted for the next entry. -/
theorem Inv.ahead_post (inv : Inv cfg g s) {t : ℕ}
    (h : Preload.step cfg s (.post t) = some s') : s'.ahead cfg + 1 = s.ahead cfg := by
  rw [Preload.step] at h
  split at h
  case h_1 => cases h
  case h_2 hd hc =>
    split at h
    case h_1 => cases h
    case h_2 n hn =>
      obtain rfl := Option.some.inj h
      have ht : t < cfg.threads := inv.lt_threads fun e => by rw [e] at hc; cases hc
      have hlt := (List.getElem?_eq_some_iff.1 hn).1
      have hsum := sum_ahead_update s.threads
        { s.threads t with current := some { hd with posted := hd.posted + 1 } } ht
      simp only [Thread.ahead, hc, Option.elim_some, Handling.ahead] at hsum
      simp only [Socket.ahead, Thread.ahead]
      omega

/-- A message fills the part that was kept for it, which was still to come. -/
theorem Inv.ahead_fill (inv : Inv cfg g s) {tag : ℕ}
    (h : Preload.step cfg s (.fill tag) = some s') : s'.ahead cfg + 1 = s.ahead cfg := by
  rw [Preload.step] at h
  split at h
  case h_1 m ms r rs hchan hrecvs =>
    obtain rfl := Option.some.inj h
    have hr : r ∈ s.recvs tag := hrecvs ▸ List.mem_cons_self
    have htag := inv.recv_tag_ne hr
    obtain ⟨hd, hc, -, -, hpart, -⟩ := inv.recvs tag r hr
    have ht : r.thread < cfg.threads := inv.lt_threads fun e => by rw [e] at hc; cases hc
    obtain ⟨hslot, hnone⟩ := List.getElem?_eq_some_iff.1 hpart
    have hpos : 0 < hd.parts.countP (·.isNone) :=
      List.countP_pos_iff.2 ⟨none, hnone ▸ List.getElem_mem hslot, rfl⟩
    have hcount := List.countP_set (p := (·.isNone)) (a := some (fit r.size m.payload)) hslot
    rw [hnone] at hcount
    have hsum := sum_ahead_update s.threads (receivePart (s.threads r.thread) r m) ht
    simp only [Thread.ahead, receivePart, hc, Option.map_some, Option.elim_some,
      Handling.ahead, hcount, Option.isNone_none, Option.isNone_some, if_true,
      Bool.false_eq_true, if_false, Nat.add_zero] at hsum
    simp only [Socket.ahead, Function.update_of_ne htag.symm, Thread.ahead, receivePart, hc,
      Option.map_some]
    omega
  case h_2 => cases h

/-- A call is handed to the application with nothing left to post or to come. -/
theorem Inv.ahead_append (inv : Inv cfg g s) {t : ℕ}
    (h : Preload.step cfg s (.append t) = some s') : s'.ahead cfg + 1 = s.ahead cfg := by
  rw [Preload.step] at h
  split at h
  case h_1 => cases h
  case h_2 hd hc =>
    obtain ⟨hall, h⟩ := Option.ite_none_right_eq_some.1 h
    obtain rfl := Option.some.inj h
    have ht : t < cfg.threads := inv.lt_threads fun e => by rw [e] at hc; cases hc
    have hzero : hd.parts.countP (·.isNone) = 0 := List.countP_eq_zero.2 fun p hp => by
      have hsome := hall.2 p hp
      cases p <;> simp_all
    have hsum := sum_ahead_update s.threads { s.threads t with current := none } ht
    simp only [Thread.ahead, hc, Option.elim_none, Option.elim_some, Handling.ahead, hzero,
      hall.1] at hsum
    simp only [Socket.ahead, Thread.ahead]
    omega

/-- **A step of the library is one step less.** -/
theorem Inv.ahead (inv : Inv cfg g s) {a : Action} (hG : Careful cfg s a)
    (h : Preload.step cfg s a = some s') :
    s'.ahead cfg + (if a.ofLibrary then 1 else 0) = s.ahead cfg + a.brings cfg := by
  cases a with
  | sendmsg iov counts => exact ahead_sendmsg hG h
  | put => exact inv.ahead_put h
  | deliver t => exact ahead_deliver h
  | take t => exact inv.ahead_take h
  | post t => exact inv.ahead_post h
  | fill tag => exact inv.ahead_fill h
  | append t => exact inv.ahead_append h
  | recvmsg lens =>
      obtain rfl := Option.some.inj h
      simp [Socket.ahead, Action.brings, Action.ofLibrary]

end Ahead

section Awaited

/-- **A thread that waits for a message has a receive posted for it**, and it posts no more than
there are messages. -/
structure Awaited (s : Socket) : Prop where
  posted_le : ∀ t h, (s.threads t).current = some h → h.posted ≤ h.notes.length
  recvs : ∀ t h i, (s.threads t).current = some h → i < h.posted → h.parts[i]? = some none →
    ∃ tag, ∃ r ∈ s.recvs tag, r.thread = t ∧ r.slot = i

variable {cfg : Config} {g : Ghost} {s s' : Socket}

theorem awaited_init : Awaited init where
  posted_le := fun _ _ hc => by cases hc
  recvs := fun _ _ _ hc => by cases hc

/-- A thread begins, or puts its buffer in `buffers`. -/
theorem Awaited.threads (hs : Awaited s) {t : ℕ} (th : Thread)
    (hth : ∀ h, th.current = some h → h.posted = 0 ∨ (s.threads t).current = some h)
    (hrecvs : s'.recvs = s.recvs) (hthreads : s'.threads = Function.update s.threads t th) :
    Awaited s' := by
  have hold : ∀ u h, (s'.threads u).current = some h →
      h.posted = 0 ∨ (s.threads u).current = some h := fun u h hc => by
    rw [hthreads] at hc
    by_cases hu : u = t
    · subst hu
      rw [Function.update_self] at hc
      exact hth h hc
    · rw [Function.update_of_ne hu] at hc
      exact .inr hc
  constructor
  · intro u h hc
    rcases hold u h hc with hzero | hc
    · omega
    · exact hs.posted_le u h hc
  · intro u h i hc hi hpart
    rcases hold u h hc with hzero | hc
    · omega
    · rw [hrecvs]
      exact hs.recvs u h i hc hi hpart

/-- A thread posts its next receive. -/
theorem Awaited.post (hs : Awaited s) {t : ℕ} {h : Handling} {n : NotiBuff}
    (hc : (s.threads t).current = some h) (hn : h.notes[h.posted]? = some n) :
    Awaited { s with
      recvs := Function.update s.recvs n.tag (s.recvs n.tag ++ [⟨t, h.posted, n.size, h.call⟩])
      threads := Function.update s.threads t
        { s.threads t with current := some { h with posted := h.posted + 1 } } } := by
  have hmem : ∀ tag, ∀ r ∈ s.recvs tag, r ∈ Function.update s.recvs n.tag
      (s.recvs n.tag ++ [⟨t, h.posted, n.size, h.call⟩]) tag := fun tag r hr => by
    by_cases htag : tag = n.tag
    · subst htag
      rw [Function.update_self]
      exact List.mem_append_left _ hr
    · rw [Function.update_of_ne htag]
      exact hr
  constructor
  · intro u h' hc'
    by_cases hu : u = t
    · subst hu
      simp only [Function.update_self] at hc'
      obtain rfl := Option.some.inj hc'
      exact (List.getElem?_eq_some_iff.1 hn).1
    · simp only [Function.update_of_ne hu] at hc'
      exact hs.posted_le u h' hc'
  · intro u h' i hc' hi hpart
    by_cases hu : u = t
    · subst hu
      simp only [Function.update_self] at hc'
      obtain rfl := Option.some.inj hc'
      rcases Nat.lt_succ_iff_lt_or_eq.1 hi with hi | rfl
      · obtain ⟨tag, r, hr, hat⟩ := hs.recvs u h i hc hi hpart
        exact ⟨tag, r, hmem tag r hr, hat⟩
      · refine ⟨n.tag, ⟨u, h.posted, n.size, h.call⟩, ?_, rfl, rfl⟩
        simp only [Function.update_self]
        exact List.mem_append_right _ List.mem_cons_self
    · simp only [Function.update_of_ne hu] at hc'
      obtain ⟨tag, r, hr, hat⟩ := hs.recvs u h' i hc' hi hpart
      exact ⟨tag, r, hmem tag r hr, hat⟩

/-- A message comes into its part. -/
theorem Awaited.fill (hs : Awaited s) {tag : ℕ} {m : Message} {ms : List Message} {r : Receive}
    {rs : List Receive} (hrecvs : s.recvs tag = r :: rs) :
    Awaited { s with
      chan := Function.update s.chan tag ms
      recvs := Function.update s.recvs tag rs
      threads := Function.update s.threads r.thread
        (receivePart (s.threads r.thread) r m) } := by
  have hpart_of : ∀ h, (receivePart (s.threads r.thread) r m).current = some h →
      ∃ h', (s.threads r.thread).current = some h' ∧
        { h' with parts := h'.parts.set r.slot (some (fit r.size m.payload)) } = h :=
    fun h hc => Option.map_eq_some_iff.1 hc
  -- any other receive is still posted
  have hother : ∀ u h i, (s.threads u).current = some h → i < h.posted →
      h.parts[i]? = some none → ¬ (r.thread = u ∧ r.slot = i) →
      ∃ tag', ∃ r' ∈ Function.update s.recvs tag rs tag', r'.thread = u ∧ r'.slot = i := by
    intro u h i hc hi hpart hne
    obtain ⟨tag', r', hr', hat⟩ := hs.recvs u h i hc hi hpart
    refine ⟨tag', r', ?_, hat⟩
    by_cases htag : tag' = tag
    · subst htag
      rw [Function.update_self]
      rw [hrecvs] at hr'
      exact (List.mem_cons.1 hr').resolve_left fun heq => hne (heq ▸ hat)
    · rw [Function.update_of_ne htag]
      exact hr'
  constructor
  · intro u h hc
    by_cases hu : u = r.thread
    · subst hu
      simp only [Function.update_self] at hc
      obtain ⟨h', hc', rfl⟩ := hpart_of h hc
      exact hs.posted_le _ h' hc'
    · simp only [Function.update_of_ne hu] at hc
      exact hs.posted_le u h hc
  · intro u h i hc hi hpart
    by_cases hu : u = r.thread
    · subst hu
      simp only [Function.update_self] at hc
      obtain ⟨h', hc', rfl⟩ := hpart_of h hc
      have hslot : r.slot ≠ i := by
        rintro rfl
        rw [List.getElem?_set_self'] at hpart
        cases hget : h'.parts[r.slot]? <;> rw [hget] at hpart <;> cases hpart
      rw [List.getElem?_set_ne hslot] at hpart
      exact hother _ h' i hc' hi hpart fun hat => hslot hat.2
    · simp only [Function.update_of_ne hu] at hc
      exact hother u h i hc hi hpart fun hat => hu hat.1.symm

theorem Awaited.step (hs : Awaited s) {a : Action} (h : Preload.step cfg s a = some s') :
    Awaited s' := by
  cases a with
  | sendmsg iov counts =>
      rw [Preload.step] at h
      split at h
      case isFalse => cases h
      case isTrue =>
        obtain rfl := Option.some.inj h
        rw [internalSendmsg]
        split <;> exact ⟨hs.posted_le, hs.recvs⟩
  | put =>
      rw [Preload.step] at h
      split at h
      case h_1 => cases h
      case h_2 => exact Option.some.inj h ▸ ⟨hs.posted_le, hs.recvs⟩
  | deliver t =>
      rw [Preload.step] at h
      split at h
      case isFalse => cases h
      case isTrue =>
        split at h
        case h_1 m _ _ _ =>
          obtain rfl := Option.some.inj h
          exact hs.threads { s.threads t with inbox := some m } (fun _ hc => .inr hc) rfl rfl
        case h_2 => cases h
  | take t =>
      rw [Preload.step] at h
      split at h
      case h_1 m _ _ =>
        refine Option.some.inj h ▸ hs.threads _ (fun hd hc => .inl ?_) rfl rfl
        obtain ⟨-, hbegin⟩ := Option.ite_none_left_eq_some.1 hc
        obtain rfl := Option.some.inj hbegin
        rfl
      case h_2 => cases h
  | post t =>
      rw [Preload.step] at h
      split at h
      case h_1 => cases h
      case h_2 hd hc =>
        split at h
        case h_1 => cases h
        case h_2 n hn => exact Option.some.inj h ▸ hs.post hc hn
  | fill tag =>
      rw [Preload.step] at h
      split at h
      case h_1 hrecvs => exact Option.some.inj h ▸ hs.fill hrecvs
      case h_2 => cases h
  | append t =>
      rw [Preload.step] at h
      split at h
      case h_1 => cases h
      case h_2 =>
        split at h
        case isTrue => exact Option.some.inj h ▸ hs.threads _ (fun _ hc => by cases hc) rfl rfl
        case isFalse => cases h
  | recvmsg lens => exact Option.some.inj h ▸ ⟨hs.posted_le, hs.recvs⟩

end Awaited

section Arrives

variable {cfg : Config} {g : Ghost} {s : Socket}

/-- The first call in hand sees no earlier one. -/
theorem Inv.earlier_done (inv : Inv cfg g s) : earlier cfg s g.done = [] := by
  refine List.filter_eq_nil_iff.2 fun e he hlt => ?_
  obtain ⟨t, -, he⟩ := List.mem_flatMap.1 he
  have hlt' : e.1 < g.done := of_decide_eq_true hlt
  rcases List.mem_append.1 he with he | he
  · obtain ⟨m, hm, rfl⟩ := List.mem_map.1 he
    exact absurd (inv.held.bounds (heldAt_inbox (Option.mem_toList.1 hm))).1
      (Nat.not_le_of_lt hlt')
  · obtain ⟨h, hh, rfl⟩ := List.mem_map.1 he
    exact absurd (inv.held.bounds (heldAt_current (Option.mem_toList.1 hh))).1
      (Nat.not_le_of_lt hlt')

/-- A posted receive finds a message once the sender has sent all of them. -/
theorem Inv.chan_ne_nil (inv : Inv cfg g s) (hp : s.pending = []) {tag : ℕ} {r : Receive}
    (hr : r ∈ s.recvs tag) : s.chan tag ≠ [] := by
  intro hnil
  have hfifo := inv.fifo tag (inv.recv_tag_ne hr)
  rw [hnil, hp] at hfifo
  have hids : (s.recvs tag).map Receive.id = [] :=
    (List.append_eq_nil_iff.1 (hfifo.symm.trans rfl)).1
  rw [List.map_eq_nil_iff] at hids
  exact absurd hr (hids ▸ List.not_mem_nil)

/-- **The first call in hand goes on**, if its notification is being worked at: there is a receive
to post, or everything has come, or something is coming. -/
theorem Inv.works (inv : Inv cfg g s) (hs : Awaited s) (hp : s.pending = []) {t : ℕ}
    {h : Handling} (hc : (s.threads t).current = some h) :
    (∃ n, h.notes[h.posted]? = some n) ∨ h.Complete ∨
      ∃ tag, s.chan tag ≠ [] ∧ s.recvs tag ≠ [] := by
  have ok := inv.handling t h hc
  have hlength : h.notes.length = h.parts.length := by
    rw [ok.notes, notes, List.length_map, ok.length]
  have hle := hs.posted_le t h hc
  by_cases hpost : h.posted < h.notes.length
  · exact .inl ⟨_, List.getElem?_eq_getElem hpost⟩
  by_cases hall : ∀ p ∈ h.parts, p.isSome
  · exact .inr (.inl ⟨by omega, hall⟩)
  obtain ⟨p, hmem, hnone⟩ : ∃ p ∈ h.parts, ¬ p.isSome := by simpa using hall
  obtain ⟨i, hi, rfl⟩ := List.mem_iff_getElem.1 hmem
  have hpart : h.parts[i]? = some none := by
    rw [List.getElem?_eq_getElem hi]
    cases hget : h.parts[i] with
    | none => rfl
    | some b => simp [hget] at hnone
  obtain ⟨tag, r, hr, -, -⟩ := hs.recvs t h i hc (by omega) hpart
  exact .inr (.inr ⟨tag, inv.chan_ne_nil hp hr, List.ne_nil_of_mem hr⟩)

/-- The call with which it does so is careful. -/
theorem Inv.works_step (inv : Inv cfg g s) (hs : Awaited s) (hp : s.pending = []) {t : ℕ}
    {h : Handling} (hc : (s.threads t).current = some h) (hcall : h.call = g.done) :
    ∃ a, a.ofLibrary = true ∧ Careful cfg s a ∧ Preload.step cfg s a ≠ none := by
  have hearlier : earlier cfg s h.call = [] := hcall ▸ inv.earlier_done
  rcases inv.works hs hp hc with ⟨n, hn⟩ | hall | ⟨tag, hchan, hrecvs⟩
  · refine ⟨.post t, rfl, fun hd hhd n _ e he => ?_, by simp [Preload.step, hc, hn]⟩
    obtain rfl := Option.some.inj (hc.symm.trans hhd)
    rw [hearlier] at he
    exact absurd he List.not_mem_nil
  · refine ⟨.append t, rfl, fun hd hhd => ?_, by simp [Preload.step, hc, hall]⟩
    obtain rfl := Option.some.inj (hc.symm.trans hhd)
    exact hearlier
  · obtain ⟨m, ms, hchan⟩ := List.exists_cons_of_ne_nil hchan
    obtain ⟨r, rs, hrecvs⟩ := List.exists_cons_of_ne_nil hrecvs
    exact ⟨.fill tag, rfl, trivial, by simp [Preload.step, hchan, hrecvs]⟩

/-- Where no careful step is left, everything has arrived. -/
theorem Inv.arrives (inv : Inv cfg g s) (hs : Awaited s) (hT : 0 < cfg.threads)
    (hstuck : ∀ a, a.ofLibrary = true → Careful cfg s a → Preload.step cfg s a = none) :
    s.returned ++ left s.buffers = s.given := by
  have hp : s.pending = [] := by
    cases hp : s.pending with
    | nil => rfl
    | cons e rest =>
        have hput := hstuck .put rfl trivial
        simp [Preload.step, hp] at hput
  have hdone : g.done = g.delivered := by
    by_contra hne
    have hle := inv.held.le
    obtain ⟨⟨t, b⟩, hat⟩ := (inv.held.mem_iff g.done).2 ⟨le_rfl, by omega⟩
    cases b with
    | true =>
        obtain ⟨h, hc, hcall⟩ := Option.map_eq_some_iff.1 hat
        obtain ⟨a, hlib, hcareful, hgoes⟩ := inv.works_step hs hp hc hcall
        exact hgoes (hstuck a hlib hcareful)
    | false =>
        obtain ⟨m, hin, hcall⟩ := Option.map_eq_some_iff.1 hat
        -- what the thread works at is no later call
        have hfree : (s.threads t).current = none := by
          cases hc : (s.threads t).current with
          | none => rfl
          | some h =>
              have hlt := inv.ordered t m h hin hc
              have hge := (inv.held.bounds (heldAt_current hc)).1
              omega
        have htake := hstuck (.take t) rfl trivial
        simp [Preload.step, hin, hfree] at htake
  have hall : g.delivered = g.log.length := by
    have hinbox : (s.threads 0).inbox = none := by
      cases hin : (s.threads 0).inbox with
      | none => rfl
      | some m =>
          have hb := inv.held.bounds (heldAt_inbox hin)
          omega
    have hchan : s.chan tagRecv = [] := by
      cases hchan : s.chan tagRecv with
      | nil => rfl
      | cons m rest =>
          have hdeliver := hstuck (.deliver 0) rfl trivial
          simp [Preload.step, hT, hchan, hinbox] at hdeliver
    have hnoti := congrArg List.length inv.noti
    rw [hchan, List.length_map, List.length_range', List.length_nil] at hnoti
    have hle := inv.delivered_le
    omega
  rw [inv.stream, inv.given, hdone, hall, List.take_length]

/-- With no step ahead everything has arrived. -/
theorem Inv.arrives_of_ahead (inv : Inv cfg g s) (hs : Awaited s) (hT : 0 < cfg.threads)
    (hahead : s.ahead cfg = 0) : s.returned ++ left s.buffers = s.given := by
  refine inv.arrives hs hT fun a hlib hG => ?_
  by_contra hstep
  obtain ⟨t, ht⟩ := Option.ne_none_iff_exists'.1 hstep
  have hone := inv.ahead hG ht
  rw [hahead, hlib, if_pos rfl] at hone
  cases a with
  | sendmsg | recvmsg => cases hlib
  | put | deliver | take | post | fill | append => simp [Action.brings] at hone

end Arrives

section OneThread

variable {cfg : Config} {g : Ghost} {s : Socket}

/-- With one thread every step is careful that keeps the tags apart. -/
theorem Inv.careful_of_one (inv : Inv cfg g s) (hT : cfg.threads ≤ 1) {a : Action}
    (hG : TagsApart cfg s a) : Careful cfg s a := by
  cases a with
  | sendmsg iov counts => exact hG
  | post t =>
      intro hd hc n _ e he
      rw [inv.earlier_eq_nil hT hc] at he
      exact absurd he List.not_mem_nil
  | append t => exact fun hd hc => inv.earlier_eq_nil hT hc
  | put | deliver | take | fill | recvmsg => exact trivial

end OneThread

/-- **What is sent arrives.**  For any number of threads, any calls and reads and any order of
careful steps: a call of `n` messages takes the library `3 + 3 * n` steps at most, and as long as
something of it is missing in `buffers`, one of them can be done. -/
theorem everything_arrives (cfg : Config) (hT : 0 < cfg.threads) {as : List Action} {s : Socket}
    (hG : Meets (step cfg) (Careful cfg) init as) (h : exec (step cfg) init as = some s) :
    as.countP Action.ofLibrary ≤ total (Action.brings cfg) as ∧
      ((∀ a, a.ofLibrary = true → Careful cfg s a → step cfg s a = none) →
        s.returned ++ left s.buffers = s.given) := by
  have hzero : Socket.ahead cfg init = 0 := by simp [Socket.ahead, init, Thread.ahead]
  have hbalance := exec_balance (I := fun s => ∃ g, Inv cfg g s) (Action.brings cfg)
    (fun a => if a.ofLibrary then 1 else 0)
    (fun _ _ _ ⟨_, inv⟩ hG h => inv.step hG h) (fun _ _ _ ⟨_, inv⟩ hG h => (inv.ahead hG h).le)
    ⟨_, inv_init cfg⟩ hG h
  rw [hzero, total_ite] at hbalance
  have hlast : (∃ g, Inv cfg g s) := (always_of_meets (P := fun s => ∃ g, Inv cfg g s)
    (fun _ _ _ ⟨_, inv⟩ hG h => inv.step hG h) ⟨_, inv_init cfg⟩ hG).last h
  have hawaited : Awaited s := exec_invariant (fun _ _ _ hs h => hs.step h) awaited_init h
  obtain ⟨g, inv⟩ := hlast
  exact ⟨by omega, inv.arrives hawaited hT⟩

/-- All of the two overlapping calls is read at the end. -/
theorem everything_arrives_overlapping :
    ∃ s, exec (step ⟨2, 65536⟩) init overlapping = some s ∧
      overlapping.countP Action.ofLibrary ≤ total (Action.brings ⟨2, 65536⟩) overlapping ∧
      ((∀ a, a.ofLibrary = true → Careful ⟨2, 65536⟩ s a → step ⟨2, 65536⟩ s a = none) →
        s.returned ++ left s.buffers = s.given) :=
  have hrun := (Option.some_get (x := exec (step ⟨2, 65536⟩) init overlapping)
    (by decide +kernel)).symm
  ⟨_, hrun, everything_arrives ⟨2, 65536⟩ (by decide) (by decide +kernel) hrun⟩

end Preload
end Lfi
