/-
# The byte order of a preloaded connection

The threads of the receiver put the data of the calls in `buffers` as they finish, and
nothing makes a later call wait for an earlier one.  With two threads the bytes of two
calls can change places (`byte_order_overtaking`).  They do not as long as every step is
careful (`byte_order`): the data of a call is appended, and a receive with a tag that comes
again is posted, after those of the earlier calls in hand, and no data message bears the
tag of the notifications.  One thread has no earlier call in hand
(`byte_order_one_thread`).

The invariant follows three orders.  The notifications in hand are those of the calls from
the first not yet appended to the last delivered, each at one place (`Data.Window`).  By
tag, the messages on their way and to be sent are those of the receives posted and to be
posted (`Inv.fifo`), so the first message meets the receive that was posted for it.  What
was read and what lies in `buffers` are the bytes of the calls appended (`Inv.stream`).
-/

import Lfi.Preload.Log
import Lfi.Data.Window
import Mathlib.Data.List.Nodup

namespace Lfi
namespace Preload

open Data Runs

section Held

/-- The call whose notification a thread received (`false`) or works at (`true`). -/
def Thread.held (th : Thread) : Bool → Option ℕ
  | false => th.inbox.map (·.call)
  | true => th.current.map (·.call)

/-- Where the notifications are in hand. -/
def heldAt (threads : ℕ → Thread) (p : ℕ × Bool) : Option ℕ := (threads p.1).held p.2

theorem heldAt_update_self (threads : ℕ → Thread) (t : ℕ) (th : Thread) (b : Bool) :
    heldAt (Function.update threads t th) (t, b) = th.held b := by
  rw [heldAt, Function.update_self]

theorem heldAt_update_of_ne {threads : ℕ → Thread} {t : ℕ} (th : Thread) {p : ℕ × Bool}
    (h : p.1 ≠ t) : heldAt (Function.update threads t th) p = heldAt threads p := by
  rw [heldAt, Function.update_of_ne h, heldAt]

theorem heldAt_inbox {threads : ℕ → Thread} {t : ℕ} {m : Message}
    (h : (threads t).inbox = some m) : heldAt threads (t, false) = some m.call := by
  rw [heldAt, Thread.held, h]
  rfl

theorem heldAt_current {threads : ℕ → Thread} {t : ℕ} {h : Handling}
    (hc : (threads t).current = some h) : heldAt threads (t, true) = some h.call := by
  rw [heldAt, Thread.held, hc]
  rfl

/-- A place is free after the change of one thread or was held before. -/
theorem heldAt_update_eq {threads : ℕ → Thread} {t : ℕ} {th : Thread} {b : Bool}
    (hother : th.held (!b) = (threads t).held (!b)) (q : ℕ × Bool) (hq : q ≠ (t, b)) :
    heldAt (Function.update threads t th) q = heldAt threads q := by
  obtain ⟨u, c⟩ := q
  by_cases hu : u = t
  · subst hu
    have hc : c = !b := by
      cases b <;> cases c <;> simp_all
    rw [heldAt_update_self, hc, hother]
    rfl
  · exact heldAt_update_of_ne th hu

end Held

section Invariant

def Message.id (m : Message) : Id := (m.call, m.index)

def Receive.id (r : Receive) : Id := (r.call, r.slot)

/-- The data messages with `tag` that are still to be sent. -/
def pendingIds (pending : List (ℕ × Message)) (tag : ℕ) : List Id :=
  (pending.filter fun e => e.1 = tag).map fun e => e.2.id

/-- The bytes that `internal_recvmsg` has yet to return. -/
def left (buffers : List Buffered) : Bytes := buffers.flatMap fun b => b.buffer.drop b.consumed

/-- What led to a state: the calls made, the receives posted of each, how many calls have
their data in `buffers` or read, and how many notifications are delivered. -/
structure Ghost where
  log : Log
  posted : ℕ → ℕ
  done : ℕ
  delivered : ℕ

/-- A thread works at the notification of one call, and the parts it has are that call's. -/
structure HandlingOk (log : Log) (posted : ℕ → ℕ) (h : Handling) : Prop where
  notes : h.notes = Preload.notes (log.at h.call)
  length : h.parts.length = (log.at h.call).length
  part : ∀ (i : ℕ) (b : Bytes), h.parts[i]? = some (some b) →
    ((log.at h.call).map Prod.fst)[i]? = some b
  posted : posted h.call = h.posted
  unposted : ∀ i, h.posted ≤ i → i < h.parts.length → h.parts[i]? = some none

/-- A receive that is posted belongs to a thread that still waits for its part. -/
def RecvOk (threads : ℕ → Thread) (tag : ℕ) (r : Receive) : Prop :=
  ∃ h, (threads r.thread).current = some h ∧ h.call = r.call ∧ r.slot < h.posted ∧
    h.parts[r.slot]? = some none ∧ h.notes[r.slot]? = some ⟨r.size, tag⟩

/-- What holds while every step is careful. -/
structure Inv (cfg : Config) (g : Ghost) (s : Socket) : Prop where
  calls : s.calls = g.log.length
  given : s.given = g.log.bytes
  log_ok : ∀ c ∈ g.log, CallOk c
  delivered_le : g.delivered ≤ g.log.length
  noti : s.chan tagRecv = (List.range' g.delivered (g.log.length - g.delivered)).map
    fun k => notification k (g.log.at k)
  held : Window (heldAt s.threads) g.done g.delivered
  inbox : ∀ t m, (s.threads t).inbox = some m → m = notification m.call (g.log.at m.call)
  handling : ∀ t h, (s.threads t).current = some h → HandlingOk g.log g.posted h
  ordered : ∀ t m h, (s.threads t).inbox = some m → (s.threads t).current = some h →
    h.call < m.call
  idle : ∀ t, cfg.threads ≤ t → s.threads t = ⟨none, none⟩
  posted_done : ∀ k < g.done, (g.log.at k).length ≤ g.posted k
  posted_zero : ∀ k, g.done ≤ k → (∀ t h, (s.threads t).current = some h → h.call ≠ k) →
    g.posted k = 0
  pending : ∀ e ∈ s.pending, (g.log.at e.2.call)[e.2.index]? = some (e.2.payload, e.1)
  chan : ∀ tag, tag ≠ tagRecv → ∀ m ∈ s.chan tag,
    (g.log.at m.call)[m.index]? = some (m.payload, tag)
  recvs : ∀ tag, ∀ r ∈ s.recvs tag, RecvOk s.threads tag r
  nodup : ∀ tag, ((s.recvs tag).map Receive.id).Nodup
  fifo : ∀ tag, tag ≠ tagRecv → (s.chan tag).map Message.id ++ pendingIds s.pending tag =
    (s.recvs tag).map Receive.id ++ unposted g.log g.posted tag
  stream : s.returned ++ left s.buffers = Log.bytes (g.log.take g.done)

variable {cfg : Config} {g : Ghost} {s : Socket}

theorem Inv.done_le (inv : Inv cfg g s) : g.done ≤ g.log.length :=
  inv.held.le.trans inv.delivered_le

theorem Inv.inbox_lt (inv : Inv cfg g s) {t : ℕ} {m : Message}
    (h : (s.threads t).inbox = some m) : m.call < g.log.length :=
  (inv.held.bounds (heldAt_inbox h)).2.trans_le inv.delivered_le

theorem Inv.current_lt (inv : Inv cfg g s) {t : ℕ} {h : Handling}
    (hc : (s.threads t).current = some h) : h.call < g.log.length :=
  (inv.held.bounds (heldAt_current hc)).2.trans_le inv.delivered_le

/-- **What was read is what was sent, in order.** -/
theorem Inv.inOrder (inv : Inv cfg g s) : InOrder s := by
  refine ⟨left s.buffers ++ Log.bytes (g.log.drop g.done), ?_⟩
  rw [inv.given, ← List.append_assoc, inv.stream, ← Log.bytes_append, List.take_append_drop]

theorem inv_init (cfg : Config) : Inv cfg ⟨[], fun _ => 0, 0, 0⟩ init where
  calls := rfl
  given := rfl
  log_ok := fun _ h => absurd h List.not_mem_nil
  delivered_le := Nat.le_refl 0
  noti := rfl
  held := Window.empty 0 fun p => by cases p with | mk t b => cases b <;> rfl
  inbox := fun _ _ h => by cases h
  handling := fun _ _ h => by cases h
  ordered := fun _ _ _ h => by cases h
  idle := fun _ _ => rfl
  posted_done := fun _ h => absurd h (Nat.not_lt_zero _)
  posted_zero := fun _ _ _ => rfl
  pending := fun _ h => absurd h List.not_mem_nil
  chan := fun _ _ _ h => absurd h List.not_mem_nil
  recvs := fun _ _ h => absurd h List.not_mem_nil
  nodup := fun _ => List.nodup_nil
  fifo := fun _ _ => rfl
  stream := rfl

end Invariant

section Sender

variable {cfg : Config} {g : Ghost} {s : Socket}

/-- The entry that the message `e` of the call `k` is. -/
theorem mem_dataMessages {k : ℕ} {ms : Call} {e : ℕ × Message} (h : e ∈ dataMessages k ms) :
    e.2.call = k ∧ ms[e.2.index]? = some (e.2.payload, e.1) := by
  obtain ⟨i, hi, rfl⟩ := List.mem_mapIdx.1 h
  exact ⟨rfl, List.getElem?_eq_getElem hi⟩

theorem pendingIds_drop (tag k : ℕ) (ms : Call) (n : ℕ) :
    pendingIds ((dataMessages k ms).drop n) tag = ids tag k ms n := by
  have hlen : (dataMessages k ms).length = ms.length := List.length_mapIdx
  induction hd : ms.length - n generalizing n with
  | zero =>
      rw [List.drop_of_length_le (by omega), ids_of_length_le (by omega)]
      rfl
  | succ d ih =>
      have hn : n < ms.length := by omega
      have hn' : n < (dataMessages k ms).length := hlen ▸ hn
      have hget : (dataMessages k ms)[n] = (ms[n].2, ⟨ms[n].1, k, n⟩) := by
        simp [dataMessages]
      rw [List.drop_eq_getElem_cons hn', ids_succ (List.getElem?_eq_getElem hn),
        ← ih (n + 1) (by omega), hget, pendingIds, List.filter_cons]
      simp only [decide_eq_true_eq]
      split
      case isTrue => rfl
      case isFalse => rfl

/-- The messages of a call with one tag are those for which a receive is to be posted. -/
theorem pendingIds_dataMessages (tag k : ℕ) (ms : Call) :
    pendingIds (dataMessages k ms) tag = ids tag k ms 0 :=
  pendingIds_drop tag k ms 0

/-- A call begins. -/
theorem Inv.sendmsg (inv : Inv cfg g s) {c : Call} {bs : Bytes} (hc : CallOk c)
    (hbs : callBytes c = bs) (hp : s.pending = []) :
    Inv cfg { g with log := g.log ++ [c] } { s with
      pending := dataMessages s.calls c
      chan := Function.update s.chan tagRecv (s.chan tagRecv ++ [notification s.calls c])
      calls := s.calls + 1
      given := s.given ++ bs } := by
  have hat : ∀ k < g.log.length, Log.at (g.log ++ [c]) k = g.log.at k :=
    fun k hk => Log.at_append_of_lt hk
  have hlast := Log.at_append_length g.log c
  have hlen : (g.log ++ [c]).length = g.log.length + 1 := List.length_append
  have hzero : g.posted g.log.length = 0 :=
    inv.posted_zero _ inv.done_le fun t h hc' => (inv.current_lt hc').ne
  refine
    { calls := by rw [hlen, inv.calls]
      given := by rw [Log.bytes_append, inv.given, ← hbs]; simp [Log.bytes]
      log_ok := ?_
      delivered_le := hlen ▸ Nat.le_succ_of_le inv.delivered_le
      noti := ?_
      held := inv.held
      inbox := ?_
      handling := ?_
      ordered := inv.ordered
      idle := inv.idle
      posted_done := ?_
      posted_zero := inv.posted_zero
      pending := ?_
      chan := ?_
      recvs := inv.recvs
      nodup := inv.nodup
      fifo := ?_
      stream := ?_ }
  · intro d hd
    rcases List.mem_append.1 hd with hd | hd
    · exact inv.log_ok d hd
    · exact List.mem_singleton.1 hd ▸ hc
  · have hle := inv.delivered_le
    have hsub : g.log.length + 1 - g.delivered = (g.log.length - g.delivered) + 1 := by omega
    simp only [Function.update_self]
    rw [hlen, hsub, List.range'_concat, List.map_append, inv.noti, inv.calls]
    congr 1
    · refine List.map_congr_left fun k hk => ?_
      have hk' := List.mem_range'_1.1 hk
      rw [hat k (by omega)]
    · rw [Nat.one_mul, Nat.add_sub_cancel' hle, List.map_singleton, hlast]
  · intro t m hm
    rw [hat m.call (inv.inbox_lt hm)]
    exact inv.inbox t m hm
  · intro t h hh
    have ok := inv.handling t h hh
    have hk := hat h.call (inv.current_lt hh)
    exact ⟨hk.symm ▸ ok.notes, hk.symm ▸ ok.length, hk.symm ▸ ok.part, ok.posted, ok.unposted⟩
  · intro k hk
    rw [hat k (hk.trans_le inv.done_le)]
    exact inv.posted_done k hk
  · intro e he
    obtain ⟨hcall, hget⟩ := mem_dataMessages he
    rw [hcall, inv.calls, hlast]
    exact hget
  · intro tag htag m hm
    simp only [Function.update_of_ne htag] at hm
    have hget := inv.chan tag htag m hm
    rw [hat m.call]
    · exact hget
    · by_contra hge
      rw [Log.at, List.getD_eq_default _ _ (Nat.le_of_not_lt hge)] at hget
      cases hget
  · intro tag htag
    have hfifo := inv.fifo tag htag
    rw [hp] at hfifo
    simp only [Function.update_of_ne htag]
    rw [unposted_append tag hzero, pendingIds_dataMessages, inv.calls, ← List.append_assoc,
      ← hfifo]
    simp [pendingIds]
  · rw [List.take_append_of_le_length inv.done_le]
    exact inv.stream

/-- The actual call sends its next message. -/
theorem Inv.put (inv : Inv cfg g s) {tag : ℕ} {m : Message} {rest : List (ℕ × Message)}
    (hp : s.pending = (tag, m) :: rest) :
    Inv cfg g { s with
      pending := rest
      chan := Function.update s.chan tag (s.chan tag ++ [m]) } := by
  have hget := inv.pending (tag, m) (hp ▸ List.mem_cons_self)
  have htag : tag ≠ tagRecv := by
    have hlt : m.call < g.log.length := by
      by_contra hge
      simp only [Log.at, List.getD_eq_default _ _ (Nat.le_of_not_lt hge)] at hget
      cases hget
    exact (inv.log_ok _ (Log.at_mem hlt)).tag_ne _ (List.mem_of_getElem? hget)
  refine
    { calls := inv.calls
      given := inv.given
      log_ok := inv.log_ok
      delivered_le := inv.delivered_le
      noti := ?_
      held := inv.held
      inbox := inv.inbox
      handling := inv.handling
      ordered := inv.ordered
      idle := inv.idle
      posted_done := inv.posted_done
      posted_zero := inv.posted_zero
      pending := fun e he => inv.pending e (hp ▸ List.mem_cons_of_mem _ he)
      chan := ?_
      recvs := inv.recvs
      nodup := inv.nodup
      fifo := ?_
      stream := inv.stream }
  · simp only [Function.update_of_ne htag.symm]
    exact inv.noti
  · intro tag' htag' m' hm'
    rcases mem_update_append hm' with hm' | ⟨rfl, rfl⟩
    · exact inv.chan tag' htag' m' hm'
    · exact hget
  · intro tag' htag'
    rw [← inv.fifo tag' htag', hp]
    by_cases heq : tag' = tag
    · subst heq
      simp [pendingIds]
    · simp [pendingIds, Function.update_of_ne heq, Ne.symm heq]

end Sender

section Reader

variable {cfg : Config} {g : Ghost} {s : Socket}

/-- The loop copies what the buffer has next. -/
theorem copyOut_drop (b : Buffered) (lens : List ℕ) :
    (copyOut b lens).1 ++ (copyOut b lens).2.buffer.drop (copyOut b lens).2.consumed =
      b.buffer.drop b.consumed := by
  induction lens generalizing b with
  | nil => rfl
  | cons n lens ih =>
      rw [copyOut]
      split
      case isTrue => rfl
      case isFalse =>
        simp only [List.append_assoc, ih]
        rw [← List.drop_drop, List.take_append_drop]

/-- A call returns what is to be returned next. -/
theorem left_internalRecvmsg (buffers : List Buffered) (lens : List ℕ) :
    (internalRecvmsg buffers lens).1 ++ left (internalRecvmsg buffers lens).2 = left buffers := by
  cases buffers with
  | nil => rfl
  | cons b bs =>
      have hcopy := copyOut_drop b lens
      have hleft : left (b :: bs) = b.buffer.drop b.consumed ++ left bs := List.flatMap_cons
      rw [hleft, ← hcopy, internalRecvmsg]
      simp only
      split
      case isTrue hall => rw [List.drop_of_length_le hall.le, List.append_nil]
      case isFalse => rw [left, List.flatMap_cons, List.append_assoc, left]

theorem Inv.recvmsg (inv : Inv cfg g s) (lens : List ℕ) :
    Inv cfg g { s with
      buffers := (internalRecvmsg s.buffers lens).2
      returned := s.returned ++ (internalRecvmsg s.buffers lens).1 } :=
  { calls := inv.calls
    given := inv.given
    log_ok := inv.log_ok
    delivered_le := inv.delivered_le
    noti := inv.noti
    held := inv.held
    inbox := inv.inbox
    handling := inv.handling
    ordered := inv.ordered
    idle := inv.idle
    posted_done := inv.posted_done
    posted_zero := inv.posted_zero
    pending := inv.pending
    chan := inv.chan
    recvs := inv.recvs
    nodup := inv.nodup
    fifo := inv.fifo
    stream := by
      rw [← inv.stream, List.append_assoc, left_internalRecvmsg] }

end Reader

section Threads

variable {cfg : Config} {g : Ghost} {s : Socket}

/-- What holds of the thread `u`. -/
structure ThreadOk (cfg : Config) (g : Ghost) (u : ℕ) (th : Thread) : Prop where
  inbox : ∀ m, th.inbox = some m → m = notification m.call (g.log.at m.call)
  handling : ∀ h, th.current = some h → HandlingOk g.log g.posted h
  ordered : ∀ m h, th.inbox = some m → th.current = some h → h.call < m.call
  idle : cfg.threads ≤ u → th = ⟨none, none⟩

/-- One thread changes. -/
theorem Inv.threads (inv : Inv cfg g s) {t : ℕ} {th : Thread} (ht : ThreadOk cfg g t th) :
    ∀ u, ThreadOk cfg g u (Function.update s.threads t th u) :=
  (Function.forall_update_iff s.threads (ThreadOk cfg g)).2
    ⟨ht, fun u _ => ⟨inv.inbox u, inv.handling u, inv.ordered u, inv.idle u⟩⟩

/-- A receive stays as it should be when its thread does not change. -/
theorem RecvOk.update_of_ne {threads : ℕ → Thread} {t tag : ℕ} {th : Thread} {r : Receive}
    (h : RecvOk threads tag r) (hr : r.thread ≠ t) :
    RecvOk (Function.update threads t th) tag r := by
  rw [RecvOk, Function.update_of_ne hr]
  exact h

/-- A thread with nothing at hand has no receive posted. -/
theorem RecvOk.thread_ne {threads : ℕ → Thread} {t tag : ℕ} {r : Receive}
    (h : RecvOk threads tag r) (ht : (threads t).current = none) : r.thread ≠ t := by
  obtain ⟨h, hc, -⟩ := h
  intro e
  rw [e, ht] at hc
  cases hc

/-- A thread goes on with its notification. -/
def Thread.work (th : Thread) (h : Handling) : Thread := { th with current := some h }

/-- A thread that waits for a part still does when its thread posts another receive. -/
theorem RecvOk.post {threads : ℕ → Thread} {t tag : ℕ} {h : Handling} {r : Receive}
    (hr : RecvOk threads tag r) (hc : (threads t).current = some h) :
    RecvOk (Function.update threads t ((threads t).work { h with posted := h.posted + 1 }))
      tag r := by
  by_cases hrt : r.thread = t
  · obtain ⟨h', hc', hcall, hslot, hrest⟩ := hr
    rw [hrt] at hc'
    obtain rfl := Option.some.inj (hc.symm.trans hc')
    refine ⟨{ h with posted := h.posted + 1 }, ?_, hcall, Nat.lt_succ_of_lt hslot, hrest⟩
    rw [hrt, Function.update_self]
    rfl
  · exact hr.update_of_ne hrt

/-- And when its thread gets another part. -/
theorem RecvOk.fill {threads : ℕ → Thread} {t slot tag : ℕ} {h : Handling} {r : Receive}
    (hr : RecvOk threads tag r) (hc : (threads t).current = some h) (bs : Bytes)
    (hne : r.thread = t → h.call = r.call → h.notes[r.slot]? = some ⟨r.size, tag⟩ →
      slot ≠ r.slot) :
    RecvOk (Function.update threads t
      ((threads t).work { h with parts := h.parts.set slot (some bs) })) tag r := by
  by_cases hrt : r.thread = t
  · obtain ⟨h', hc', hcall, hslot, hpart, hn⟩ := hr
    rw [hrt] at hc'
    obtain rfl := Option.some.inj (hc.symm.trans hc')
    refine ⟨{ h with parts := h.parts.set slot (some bs) }, ?_, hcall, hslot,
      (List.getElem?_set_ne (hne hrt hcall hn)).trans hpart, hn⟩
    rw [hrt, Function.update_self]
    rfl
  · exact hr.update_of_ne hrt

/-- A notification is delivered. -/
theorem Inv.deliver (inv : Inv cfg g s) {t : ℕ} {m : Message} {rest : List Message}
    (ht : t < cfg.threads) (hchan : s.chan tagRecv = m :: rest)
    (hin : (s.threads t).inbox = none) :
    Inv cfg { g with delivered := g.delivered + 1 } { s with
      chan := Function.update s.chan tagRecv rest
      threads := Function.update s.threads t { s.threads t with inbox := some m } } := by
  have hnoti := inv.noti
  have hlt : g.delivered < g.log.length := by
    by_contra hge
    rw [hchan, Nat.sub_eq_zero_of_le (Nat.le_of_not_lt hge)] at hnoti
    cases hnoti
  have hsub : g.log.length - g.delivered = (g.log.length - (g.delivered + 1)) + 1 := by omega
  rw [hchan, hsub, List.range'_succ, List.map_cons, List.cons.injEq] at hnoti
  obtain ⟨hm, hrest⟩ := hnoti
  have hcall : m.call = g.delivered := by rw [hm]; rfl
  have hfree : heldAt s.threads (t, false) = none := by
    rw [heldAt, Thread.held, hin]
    rfl
  have hcur : ∀ u, (Function.update s.threads t { s.threads t with inbox := some m } u).current =
      (s.threads u).current :=
    (Function.forall_update_iff s.threads fun u th => th.current = (s.threads u).current).2
      ⟨rfl, fun _ _ => rfl⟩
  have hnew : ThreadOk cfg g t { s.threads t with inbox := some m } := by
    refine ⟨fun m' hm' => ?_, inv.handling t, fun m' h hm' hc => ?_, fun hge => by omega⟩
    · obtain rfl := Option.some.inj hm'
      rw [hcall]
      exact hm
    · obtain rfl := Option.some.inj hm'
      rw [hcall]
      exact (inv.held.bounds (heldAt_current hc)).2
  have hthreads := inv.threads hnew
  refine
    { calls := inv.calls
      given := inv.given
      log_ok := inv.log_ok
      delivered_le := hlt
      noti := ?_
      held := ?_
      inbox := fun u => (hthreads u).inbox
      handling := fun u => (hthreads u).handling
      ordered := fun u => (hthreads u).ordered
      idle := fun u => (hthreads u).idle
      posted_done := inv.posted_done
      posted_zero := ?_
      pending := inv.pending
      chan := ?_
      recvs := ?_
      nodup := inv.nodup
      fifo := ?_
      stream := inv.stream }
  · simp only [Function.update_self]
    exact hrest
  · refine inv.held.handOut hfree ?_ (heldAt_update_eq rfl)
    rw [heldAt_update_self, Thread.held, Option.map_some, hcall]
  · intro k hk hno
    exact inv.posted_zero k hk fun u h hc => hno u h ((hcur u).trans hc)
  · intro tag htag
    simp only [Function.update_of_ne htag]
    exact inv.chan tag htag
  · intro tag r hr
    obtain ⟨h, hc, hrest⟩ := inv.recvs tag r hr
    exact ⟨h, (hcur r.thread).trans hc, hrest⟩
  · intro tag htag
    simp only [Function.update_of_ne htag]
    exact inv.fifo tag htag

/-- A thread begins to work at a notification. -/
theorem Inv.take (inv : Inv cfg g s) {t : ℕ} {m : Message} (hin : (s.threads t).inbox = some m)
    (hcur : (s.threads t).current = none) :
    Inv cfg g { s with threads := Function.update s.threads t ⟨none, begin m⟩ } := by
  have hlog := inv.log_ok _ (Log.at_mem (inv.inbox_lt hin))
  have hbegin : begin m = some ⟨notes (g.log.at m.call),
      (notes (g.log.at m.call)).map fun _ => none, 0, m.call⟩ := by
    rw [inv.inbox t m hin]
    exact hlog.begin_notification m.call
  have hzero : g.posted m.call = 0 := by
    refine inv.posted_zero _ (inv.held.bounds (heldAt_inbox hin)).1 fun u h hc e => ?_
    have := inv.held.inj _ _ _ (heldAt_inbox hin) (e ▸ heldAt_current hc)
    simp at this
  have hfree : heldAt s.threads (t, true) = none := by
    rw [heldAt, Thread.held, hcur]
    rfl
  have hnew : ThreadOk cfg g t ⟨none, begin m⟩ := by
    refine ⟨nofun, fun h hc => ?_, nofun, fun hge => ?_⟩
    · obtain rfl := Option.some.inj (hbegin.symm.trans hc)
      refine ⟨rfl, by simp [notes], ?_, hzero, ?_⟩
      · intro i b hb
        rw [List.getElem?_map] at hb
        obtain ⟨n, -, hn⟩ := Option.map_eq_some_iff.1 hb
        cases hn
      · intro i _ hi
        rw [List.getElem?_eq_getElem hi, List.getElem_map]
    · rw [inv.idle t hge] at hin
      cases hin
  have hthreads := inv.threads hnew
  refine
    { calls := inv.calls
      given := inv.given
      log_ok := inv.log_ok
      delivered_le := inv.delivered_le
      noti := inv.noti
      held := ?_
      inbox := fun u => (hthreads u).inbox
      handling := fun u => (hthreads u).handling
      ordered := fun u => (hthreads u).ordered
      idle := fun u => (hthreads u).idle
      posted_done := inv.posted_done
      posted_zero := ?_
      pending := inv.pending
      chan := inv.chan
      recvs := ?_
      nodup := inv.nodup
      fifo := inv.fifo
      stream := inv.stream }
  · refine inv.held.move (heldAt_inbox hin) hfree ?_ ?_ ?_
    · rw [heldAt_update_self]
      rfl
    · rw [heldAt_update_self, Thread.held, hbegin]
      rfl
    · rintro ⟨u, b⟩ hp hq
      refine heldAt_update_of_ne _ fun e => ?_
      obtain rfl : u = t := e
      cases b
      · exact hp rfl
      · exact hq rfl
  · intro k hk hno
    refine inv.posted_zero k hk fun u h hc => hno u h ?_
    have hu : u ≠ t := by
      rintro rfl
      rw [hcur] at hc
      cases hc
    simp only [Function.update_of_ne hu, hc]
  · intro tag r hr
    have ok := inv.recvs tag r hr
    exact ok.update_of_ne (ok.thread_ne hcur)

/-- The entry of a notification is that of its message. -/
theorem HandlingOk.entry {log : Log} {posted : ℕ → ℕ} {h : Handling} {i : ℕ} {n : NotiBuff}
    (ok : HandlingOk log posted h) (hn : h.notes[i]? = some n) :
    ∃ e, (log.at h.call)[i]? = some e ∧ n = ⟨e.1.length, e.2⟩ := by
  rw [ok.notes, Preload.notes, List.getElem?_map] at hn
  obtain ⟨e, he, rfl⟩ := Option.map_eq_some_iff.1 hn
  exact ⟨e, he, rfl⟩

theorem Inv.lt_threads (inv : Inv cfg g s) {t : ℕ} (h : s.threads t ≠ ⟨none, none⟩) :
    t < cfg.threads := by
  by_contra hge
  exact h (inv.idle t (Nat.le_of_not_lt hge))

/-- A notification in hand before that of the call `k` is seen. -/
theorem Inv.mem_earlier_inbox (inv : Inv cfg g s) {t k : ℕ} {m : Message}
    (hin : (s.threads t).inbox = some m) (hk : m.call < k) :
    (m.call, decodeNotes m.payload) ∈ earlier cfg s k := by
  have ht : t < cfg.threads := inv.lt_threads fun e => by rw [e] at hin; cases hin
  refine List.mem_filter.2 ⟨List.mem_flatMap.2 ⟨t, List.mem_range.2 ht, ?_⟩, decide_eq_true hk⟩
  simp [Thread.inHand, hin]

theorem Inv.mem_earlier_current (inv : Inv cfg g s) {t k : ℕ} {h : Handling}
    (hc : (s.threads t).current = some h) (hk : h.call < k) :
    (h.call, h.notes.drop h.posted) ∈ earlier cfg s k := by
  have ht : t < cfg.threads := inv.lt_threads fun e => by rw [e] at hc; cases hc
  refine List.mem_filter.2 ⟨List.mem_flatMap.2 ⟨t, List.mem_range.2 ht, ?_⟩, decide_eq_true hk⟩
  simp [Thread.inHand, hc]

/-- Two threads never work at one call. -/
theorem Inv.current_inj (inv : Inv cfg g s) {t u : ℕ} {h h' : Handling}
    (hc : (s.threads t).current = some h) (hc' : (s.threads u).current = some h')
    (hk : h.call = h'.call) : t = u ∧ h = h' := by
  have htu := inv.held.inj _ _ _ (heldAt_current hc) (hk ▸ heldAt_current hc')
  obtain rfl : t = u := congrArg Prod.fst htu
  exact ⟨rfl, Option.some.inj (hc.symm.trans hc')⟩

/-- Of the calls before one at which a thread works, nothing is left to post that bears
the tag it posts next. -/
theorem Inv.ids_earlier (inv : Inv cfg g s) {k tag : ℕ} (hk : k ≤ g.delivered)
    (hearlier : ∀ e ∈ earlier cfg s k, ∀ n ∈ e.2, n.tag ≠ tag) :
    ∀ j < k, ids tag j (g.log.at j) (g.posted j) = [] := by
  intro j hj
  by_cases hdone : j < g.done
  · exact ids_of_length_le (inv.posted_done j hdone)
  · obtain ⟨⟨t, b⟩, hp⟩ := (inv.held.mem_iff j).2 ⟨Nat.le_of_not_lt hdone, hj.trans_le hk⟩
    refine ids_eq_nil ?_
    cases b with
    | false =>
        obtain ⟨m, hin, rfl⟩ := Option.map_eq_some_iff.1 hp
        have hzero : g.posted m.call = 0 := by
          refine inv.posted_zero _ (Nat.le_of_not_lt hdone) fun u h hc e => ?_
          have := inv.held.inj _ _ _ (heldAt_inbox hin) (e ▸ heldAt_current hc)
          simp at this
        have hread := (inv.log_ok _ (Log.at_mem (inv.inbox_lt hin))).decodeNotes m.call
        rw [← inv.inbox t m hin] at hread
        rw [hzero, List.drop_zero, ← hread]
        exact hearlier _ (inv.mem_earlier_inbox hin hj)
    | true =>
        obtain ⟨h, hc, rfl⟩ := Option.map_eq_some_iff.1 hp
        have ok := inv.handling t h hc
        rw [ok.posted, ← ok.notes]
        exact hearlier _ (inv.mem_earlier_current hc hj)

theorem heldAt_work {threads : ℕ → Thread} {t : ℕ} {h h' : Handling}
    (hc : (threads t).current = some h) (hcall : h'.call = h.call) :
    heldAt (Function.update threads t ((threads t).work h')) = heldAt threads := by
  funext q
  by_cases hq : q = (t, true)
  · rw [hq, heldAt_update_self, heldAt_current hc, Thread.held, Thread.work, Option.map_some, hcall]
  · refine heldAt_update_eq (b := true) ?_ q hq
    rfl

/-- The threads after one went on with its notification. -/
structure WorkOk (cfg : Config) (g : Ghost) (threads : ℕ → Thread) : Prop where
  held : Window (heldAt threads) g.done g.delivered
  inbox : ∀ t m, (threads t).inbox = some m → m = notification m.call (g.log.at m.call)
  ordered : ∀ t m h, (threads t).inbox = some m → (threads t).current = some h →
    h.call < m.call
  idle : ∀ t, cfg.threads ≤ t → threads t = ⟨none, none⟩

theorem Inv.work (inv : Inv cfg g s) {t : ℕ} {h : Handling} (h' : Handling)
    (hc : (s.threads t).current = some h) (hcall : h'.call = h.call) :
    WorkOk cfg g (Function.update s.threads t ((s.threads t).work h')) where
  held := heldAt_work hc hcall ▸ inv.held
  inbox := (Function.forall_update_iff s.threads fun _ th => ∀ m, th.inbox = some m →
    m = notification m.call (g.log.at m.call)).2 ⟨inv.inbox t, fun u _ => inv.inbox u⟩
  ordered := by
    refine (Function.forall_update_iff s.threads fun _ th => ∀ m h', th.inbox = some m →
      th.current = some h' → h'.call < m.call).2 ⟨fun m h'' hin hc' => ?_, fun u _ => inv.ordered u⟩
    obtain rfl := Option.some.inj hc'
    exact hcall ▸ inv.ordered t m h hin hc
  idle := by
    refine (Function.forall_update_iff s.threads fun u th =>
      cfg.threads ≤ u → th = ⟨none, none⟩).2 ⟨fun hge => ?_, fun u _ => inv.idle u⟩
    rw [inv.idle t hge] at hc
    cases hc

/-- A call that no thread works at after the step had none before. -/
theorem current_of_work {threads : ℕ → Thread} {t k : ℕ} {h : Handling} (h' : Handling)
    (hc : (threads t).current = some h) (hcall : h'.call = h.call)
    (hno : ∀ u h'', (Function.update threads t ((threads t).work h') u).current = some h'' →
      h''.call ≠ k) : h.call ≠ k ∧ ∀ u h'', (threads u).current = some h'' → h''.call ≠ k := by
  have hne : h.call ≠ k := hcall ▸ hno t h' (by rw [Function.update_self]; rfl)
  refine ⟨hne, fun u h'' hc'' => ?_⟩
  by_cases hu : u = t
  · subst hu
    obtain rfl := Option.some.inj (hc.symm.trans hc'')
    exact hne
  · exact hno u h'' (by rw [Function.update_of_ne hu, hc''])

/-- One more receive is posted for the notification. -/
theorem HandlingOk.post {log : Log} {posted : ℕ → ℕ} {h : Handling}
    (ok : HandlingOk log posted h) : HandlingOk log
      (Function.update posted h.call (h.posted + 1)) { h with posted := h.posted + 1 } :=
  ⟨ok.notes, ok.length, ok.part, Function.update_self _ _ _,
    fun i hi => ok.unposted i (Nat.le_of_succ_le hi)⟩

/-- A thread posts its next receive. -/
theorem Inv.post (inv : Inv cfg g s) {t : ℕ} {h : Handling} {n : NotiBuff}
    (hc : (s.threads t).current = some h) (hn : h.notes[h.posted]? = some n)
    (hearlier : ∀ e ∈ earlier cfg s h.call, ∀ n' ∈ e.2, n'.tag ≠ n.tag) :
    Inv cfg { g with posted := Function.update g.posted h.call (h.posted + 1) } { s with
      recvs := Function.update s.recvs n.tag (s.recvs n.tag ++ [⟨t, h.posted, n.size, h.call⟩])
      threads := Function.update s.threads t
        ((s.threads t).work { h with posted := h.posted + 1 }) } := by
  have ok := inv.handling t h hc
  have hb := inv.held.bounds (heldAt_current hc)
  have hwork := inv.work { h with posted := h.posted + 1 } hc rfl
  obtain ⟨e, he, rfl⟩ := ok.entry hn
  have hpart : h.parts[h.posted]? = some none := by
    refine ok.unposted _ (Nat.le_refl _) ?_
    rw [ok.length]
    exact (List.getElem?_eq_some_iff.1 he).1
  have hpop := ids_earlier inv hb.2.le hearlier
  refine
    { calls := inv.calls
      given := inv.given
      log_ok := inv.log_ok
      delivered_le := inv.delivered_le
      noti := inv.noti
      held := hwork.held
      inbox := hwork.inbox
      handling := ?_
      ordered := hwork.ordered
      idle := hwork.idle
      posted_done := ?_
      posted_zero := ?_
      pending := inv.pending
      chan := inv.chan
      recvs := ?_
      nodup := ?_
      fifo := ?_
      stream := inv.stream }
  · refine (Function.forall_update_iff s.threads fun _ th => ∀ h', th.current = some h' →
      HandlingOk g.log (Function.update g.posted h.call (h.posted + 1)) h').2 ⟨?_, ?_⟩
    · intro h' hc'
      obtain rfl := Option.some.inj hc'
      exact ok.post
    · intro u hu h' hc'
      have ok' := inv.handling u h' hc'
      have hne : h'.call ≠ h.call := fun e => hu (inv.current_inj hc' hc e).1
      exact ⟨ok'.notes, ok'.length, ok'.part, (Function.update_of_ne hne _ _).trans ok'.posted,
        ok'.unposted⟩
  · intro k (hk : k < g.done)
    have hne : k ≠ h.call := (hk.trans_le hb.1).ne
    exact (inv.posted_done k hk).trans_eq (Function.update_of_ne hne _ _).symm
  · intro k hk hno
    obtain ⟨hne, hno'⟩ := current_of_work { h with posted := h.posted + 1 } hc rfl hno
    exact (Function.update_of_ne hne.symm _ _).trans (inv.posted_zero k hk hno')
  · intro tag r hr
    rcases mem_update_append hr with hr | ⟨rfl, rfl⟩
    · exact (inv.recvs tag r hr).post hc
    · have hnew : (Function.update s.threads t
          ((s.threads t).work { h with posted := h.posted + 1 }) t).current =
          some { h with posted := h.posted + 1 } := by
        rw [Function.update_self]
        rfl
      exact ⟨{ h with posted := h.posted + 1 }, hnew, rfl, Nat.lt_succ_self _, hpart, hn⟩
  · intro tag
    by_cases htag : tag = e.2
    · subst htag
      simp only [Function.update_self, List.map_append, List.map_singleton]
      refine List.nodup_append.2 ⟨inv.nodup _, List.nodup_singleton _, ?_⟩
      intro a ha b hb hab
      obtain ⟨r, hr, rfl⟩ := List.mem_map.1 ha
      rw [List.mem_singleton.1 hb, Receive.id, Receive.id, Prod.mk.injEq] at hab
      obtain ⟨h', hc', hcall, hslot, -⟩ := inv.recvs _ r hr
      obtain ⟨-, rfl⟩ := inv.current_inj hc' hc (hcall.trans hab.1)
      exact hslot.ne hab.2
    · simp only [Function.update_of_ne htag]
      exact inv.nodup tag
  · intro tag htag
    have hfifo := inv.fifo tag htag
    rw [← ok.posted] at he
    by_cases heq : tag = e.2
    · subst heq
      rw [unposted_post (inv.current_lt hc) he hpop, ok.posted] at hfifo
      simp only [Function.update_self, List.map_append, List.map_singleton]
      rw [hfifo, List.append_assoc]
      rfl
    · rw [unposted_post_of_ne he (Ne.symm heq), ok.posted] at hfifo
      simp only [Function.update_of_ne heq]
      exact hfifo

/-- A part of the notification's data has come. -/
theorem HandlingOk.fill {log : Log} {posted : ℕ → ℕ} {h : Handling} {slot : ℕ}
    {e : Bytes × ℕ} (ok : HandlingOk log posted h) (he : (log.at h.call)[slot]? = some e)
    (hslot : slot < h.posted) :
    HandlingOk log posted { h with parts := h.parts.set slot (some e.1) } := by
  refine ⟨ok.notes, (List.length_set ..).trans ok.length, fun i b hb => ?_, ok.posted,
    fun i hi hlen => ?_⟩
  · by_cases hi : i = slot
    · subst hi
      have hlt : i < h.parts.length := by
        rw [ok.length]
        exact (List.getElem?_eq_some_iff.1 he).1
      rw [List.getElem?_set_self hlt] at hb
      obtain rfl := Option.some.inj (Option.some.inj hb)
      rw [List.getElem?_map, he]
      rfl
    · rw [List.getElem?_set_ne (Ne.symm hi)] at hb
      exact ok.part i b hb
  · have hne : slot ≠ i := (hslot.trans_le hi).ne
    rw [List.getElem?_set_ne hne]
    exact ok.unposted i hi (by simpa using hlen)

/-- A message comes into the part that waits for it. -/
theorem Inv.fill (inv : Inv cfg g s) {tag : ℕ} {m : Message} {ms : List Message} {r : Receive}
    {rs : List Receive} (hchan : s.chan tag = m :: ms) (hrecvs : s.recvs tag = r :: rs) :
    Inv cfg g { s with
      chan := Function.update s.chan tag ms
      recvs := Function.update s.recvs tag rs
      threads := Function.update s.threads r.thread
        (receivePart (s.threads r.thread) r m) } := by
  obtain ⟨h, hc, hcall, hslot, hpart, hn⟩ := inv.recvs tag r (hrecvs ▸ List.mem_cons_self)
  have ok := inv.handling _ h hc
  obtain ⟨e, he, hne⟩ := ok.entry hn
  obtain ⟨hsize, htage⟩ := NotiBuff.mk.injEq _ _ _ _ ▸ hne
  have htag : tag ≠ tagRecv := by
    rw [htage]
    exact (inv.log_ok _ (Log.at_mem (inv.current_lt hc))).tag_ne e (List.mem_of_getElem? he)
  have hfifo := inv.fifo tag htag
  rw [hchan, hrecvs, List.map_cons, List.map_cons, List.cons_append, List.cons_append,
    List.cons.injEq] at hfifo
  obtain ⟨hid, hrest⟩ := hfifo
  have hmsg := inv.chan tag htag m (hchan ▸ List.mem_cons_self)
  rw [Message.id, Receive.id, Prod.mk.injEq] at hid
  rw [hid.1, hid.2, ← hcall, he] at hmsg
  obtain rfl := Option.some.inj hmsg
  have hth : receivePart (s.threads r.thread) r m =
      (s.threads r.thread).work { h with parts := h.parts.set r.slot (some m.payload) } := by
    rw [receivePart, hc, Option.map_some, hsize, fit_length, Thread.work]
  have hwork := inv.work { h with parts := h.parts.set r.slot (some m.payload) } hc rfl
  rw [hth]
  refine
    { calls := inv.calls
      given := inv.given
      log_ok := inv.log_ok
      delivered_le := inv.delivered_le
      noti := ?_
      held := hwork.held
      inbox := hwork.inbox
      handling := ?_
      ordered := hwork.ordered
      idle := hwork.idle
      posted_done := inv.posted_done
      posted_zero := fun k hk hno => inv.posted_zero k hk
        (current_of_work { h with parts := h.parts.set r.slot (some m.payload) } hc rfl hno).2
      pending := inv.pending
      chan := ?_
      recvs := ?_
      nodup := ?_
      fifo := ?_
      stream := inv.stream }
  · simp only [Function.update_of_ne htag.symm]
    exact inv.noti
  · refine (Function.forall_update_iff s.threads fun _ th => ∀ h', th.current = some h' →
      HandlingOk g.log g.posted h').2 ⟨fun h' hc' => ?_, fun u _ => inv.handling u⟩
    obtain rfl := Option.some.inj hc'
    exact ok.fill he hslot
  · exact fun tag' htag' m' hm' =>
      inv.chan tag' htag' m' ((sublist_update_tail hchan tag').mem hm')
  · have hnodup := inv.nodup tag
    rw [hrecvs, List.map_cons, List.nodup_cons] at hnodup
    -- No other receive waits for this part: its tag would be another or it would be this one.
    have hold : ∀ tag' r', RecvOk s.threads tag' r' → (tag' = tag → r' ∈ rs) →
        RecvOk (Function.update s.threads r.thread ((s.threads r.thread).work
          { h with parts := h.parts.set r.slot (some m.payload) })) tag' r' := by
      refine fun tag' r' hr' hmem => hr'.fill hc _ fun _ hcall' hn' hs => ?_
      rw [← hs, hn] at hn'
      have htags : tag = tag' := congrArg NotiBuff.tag (Option.some.inj hn')
      refine hnodup.1 (List.mem_map.2 ⟨r', hmem htags.symm, ?_⟩)
      rw [Receive.id, Receive.id, ← hcall, ← hcall', hs]
    intro tag' r' hr'
    refine hold tag' r' (inv.recvs tag' r' ((sublist_update_tail hrecvs tag').mem hr')) ?_
    rintro rfl
    simpa only [Function.update_self] using hr'
  · exact fun tag' => ((sublist_update_tail hrecvs tag').map _).nodup (inv.nodup tag')
  · intro tag' htag'
    by_cases heq : tag' = tag
    · subst heq
      simp only [Function.update_self]
      exact hrest
    · simp only [Function.update_of_ne heq]
      exact inv.fifo tag' htag'

/-- With all parts there, the buffer is what the call was given. -/
theorem HandlingOk.newBuffer {log : Log} {posted : ℕ → ℕ} {h : Handling}
    (ok : HandlingOk log posted h) (hall : ∀ p ∈ h.parts, p.isSome) :
    h.newBuffer = callBytes (log.at h.call) := by
  have hparts : h.parts = (log.at h.call).map fun e => some e.1 := by
    refine List.ext_getElem (by rw [ok.length, List.length_map]) fun i hi _ => ?_
    obtain ⟨b, hb⟩ := Option.isSome_iff_exists.1 (hall _ (List.getElem_mem hi))
    have hget := ok.part i b (by rw [List.getElem?_eq_getElem hi, hb])
    rw [List.getElem?_map, List.getElem?_eq_getElem (ok.length ▸ hi), Option.map_some,
      Option.some.injEq] at hget
    rw [hb, List.getElem_map, hget]
  rw [Handling.newBuffer, hparts, List.flatMap_map, callBytes]
  rfl

/-- The data of a call is put in `buffers`. -/
theorem Inv.append (inv : Inv cfg g s) {t : ℕ} {h : Handling}
    (hc : (s.threads t).current = some h) (hall : h.Complete)
    (hearlier : earlier cfg s h.call = []) :
    Inv cfg { g with done := g.done + 1 } { s with
      buffers := if h.notes = [] then s.buffers else s.buffers ++ [⟨h.newBuffer, 0⟩]
      threads := Function.update s.threads t { s.threads t with current := none } } := by
  have ok := inv.handling t h hc
  have hlog := inv.log_ok _ (Log.at_mem (inv.current_lt hc))
  have hdone : h.call = g.done := by
    refine inv.held.first (heldAt_current hc) fun q j hq => ?_
    by_contra hlt
    obtain ⟨u, b⟩ := q
    cases b with
    | false =>
        obtain ⟨m, hin, rfl⟩ := Option.map_eq_some_iff.1 hq
        exact List.not_mem_nil (hearlier ▸ inv.mem_earlier_inbox hin (Nat.lt_of_not_le hlt))
    | true =>
        obtain ⟨h', hc', rfl⟩ := Option.map_eq_some_iff.1 hq
        exact List.not_mem_nil (hearlier ▸ inv.mem_earlier_current hc' (Nat.lt_of_not_le hlt))
  have hnotes : h.notes ≠ [] := by
    rw [ok.notes, notes, Ne, List.map_eq_nil_iff]
    exact hlog.ne_nil
  have hnew : ThreadOk cfg g t { s.threads t with current := none } := by
    refine ⟨inv.inbox t, (fun _ h => by cases h), (fun _ _ _ h => by cases h),
      fun hge => ?_⟩
    rw [inv.idle t hge] at hc
    cases hc
  have hthreads := inv.threads hnew
  refine
    { calls := inv.calls
      given := inv.given
      log_ok := inv.log_ok
      delivered_le := inv.delivered_le
      noti := inv.noti
      held := ?_
      inbox := fun u => (hthreads u).inbox
      handling := fun u => (hthreads u).handling
      ordered := fun u => (hthreads u).ordered
      idle := fun u => (hthreads u).idle
      posted_done := ?_
      posted_zero := ?_
      pending := inv.pending
      chan := inv.chan
      recvs := ?_
      nodup := inv.nodup
      fifo := inv.fifo
      stream := ?_ }
  · refine inv.held.giveBack (hdone ▸ heldAt_current hc) ?_ (heldAt_update_eq (b := true) rfl)
    rw [heldAt_update_self]
    rfl
  · intro k (hk : k < g.done + 1)
    rcases Nat.lt_succ_iff_lt_or_eq.1 hk with hk | rfl
    · exact inv.posted_done k hk
    · show (g.log.at g.done).length ≤ g.posted g.done
      rw [← hdone, ok.posted, hall.1, ok.notes, notes, List.length_map]
  · intro k (hk : g.done + 1 ≤ k) hno
    refine inv.posted_zero k (Nat.le_of_succ_le hk) fun u h' hc' => ?_
    by_cases hu : u = t
    · subst hu
      obtain rfl := Option.some.inj (hc.symm.trans hc')
      rw [hdone]
      exact Nat.ne_of_lt hk
    · exact hno u h' (by simp only [Function.update_of_ne hu, hc'])
  · intro tag r hr
    have hrok := inv.recvs tag r hr
    refine hrok.update_of_ne fun hrt => ?_
    obtain ⟨h', hc', -, -, hpart, -⟩ := hrok
    rw [hrt] at hc'
    obtain rfl := Option.some.inj (hc.symm.trans hc')
    exact absurd (hall.2 _ (List.mem_of_getElem? hpart)) (by decide)
  · have hlt : g.done < g.log.length := hdone ▸ inv.current_lt hc
    rw [if_neg hnotes, Log.bytes_take_succ hlt, ← inv.stream, ok.newBuffer hall.2, hdone]
    simp [left]

end Threads


section Runs

variable {cfg : Config} {g : Ghost} {s : Socket}

/-- **A careful step keeps the invariant.** -/
theorem Inv.step (inv : Inv cfg g s) {a : Action} {s' : Socket} (hG : Careful cfg s a)
    (h : step cfg s a = some s') : ∃ g', Inv cfg g' s' := by
  cases a with
  | sendmsg iov counts =>
      rw [Preload.step] at h
      split at h
      case isFalse => cases h
      case isTrue hif =>
        obtain rfl := Option.some.inj h
        rw [internalSendmsg]
        split
        case h_1 => exact ⟨g, inv⟩
        case h_2 hne =>
          exact ⟨_, inv.sendmsg (tagged_ok hif.2 hG hne) (callBytes_tagged _ _ _) hif.1⟩
  | put =>
      rw [Preload.step] at h
      split at h
      case h_1 => cases h
      case h_2 hp => exact Option.some.inj h ▸ ⟨g, inv.put hp⟩
  | deliver t =>
      rw [Preload.step] at h
      split at h
      case isFalse => cases h
      case isTrue ht =>
        split at h
        case h_1 hchan hin => exact Option.some.inj h ▸ ⟨_, inv.deliver ht hchan hin⟩
        case h_2 => cases h
  | take t =>
      rw [Preload.step] at h
      split at h
      case h_1 hin hcur => exact Option.some.inj h ▸ ⟨g, inv.take hin hcur⟩
      case h_2 => cases h
  | post t =>
      rw [Preload.step] at h
      split at h
      case h_1 => cases h
      case h_2 hd hc =>
        split at h
        case h_1 => cases h
        case h_2 n hn => exact Option.some.inj h ▸ ⟨_, inv.post hc hn (hG hd hc n hn)⟩
  | fill tag =>
      rw [Preload.step] at h
      split at h
      case h_1 hchan hrecvs => exact Option.some.inj h ▸ ⟨g, inv.fill hchan hrecvs⟩
      case h_2 => cases h
  | append t =>
      rw [Preload.step] at h
      split at h
      case h_1 => cases h
      case h_2 hd hc =>
        split at h
        case isTrue hall => exact Option.some.inj h ▸ ⟨_, inv.append hc hall (hG hd hc)⟩
        case isFalse => cases h
  | recvmsg lens => exact Option.some.inj h ▸ ⟨g, inv.recvmsg lens⟩

/-- **A preloaded connection keeps the byte order while every step is careful.**  For any
number of threads and any calls, in any order of the steps. -/
theorem byte_order (cfg : Config) {as : List Action}
    (h : Meets (step cfg) (Careful cfg) init as) : Always (step cfg) InOrder init as :=
  (always_of_meets (P := fun s => ∃ g, Inv cfg g s)
    (fun _ _ _ ⟨_, inv⟩ hG hstep => inv.step hG hstep) ⟨_, inv_init cfg⟩ h).mono
      fun _ ⟨_, inv⟩ => inv.inOrder

/-- Two calls of one byte each, which two threads fetch at the same time.  The second
thread begins first and appends last. -/
def overlapping : List Action :=
  [.sendmsg [[1]] fun _ => 0, .put, .sendmsg [[2]] fun _ => 1, .put, .deliver 0, .deliver 1,
    .take 1, .take 0, .post 1, .post 0, .fill (tagOf 1), .fill (tagOf 0), .append 0, .append 1,
    .recvmsg [1], .recvmsg [4]]

/-- Two threads can overlap and keep the order. -/
theorem byte_order_overlapping :
    ∃ s, exec (step ⟨2, 65536⟩) init overlapping = some s ∧ s.returned = [1, 2] ∧ InOrder s :=
  have hs : ((exec (step ⟨2, 65536⟩) init overlapping).map (·.returned)) = some [1, 2] := by
    decide +kernel
  have hrun := (Option.some_get (x := exec (step ⟨2, 65536⟩) init overlapping)
    (by decide +kernel)).symm
  ⟨_, hrun, by rw [hrun] at hs; exact Option.some.inj hs,
    (byte_order ⟨2, 65536⟩ (by decide +kernel)).last hrun⟩

/-- The same two calls, when the thread with the second notification does not wait. -/
def overtaking : List Action :=
  [.sendmsg [[1]] fun _ => 0, .put, .sendmsg [[2]] fun _ => 1, .put, .deliver 0, .deliver 1,
    .take 0, .take 1, .post 1, .fill (tagOf 1), .append 1, .recvmsg [1]]

/-- **Two threads can turn two calls around:** the byte of the second is read first. -/
theorem byte_order_overtaking :
    ¬ ∀ (cfg : Config) (as : List Action), 1 ≤ cfg.threads →
      Always (step cfg) InOrder init as := by
  intro h
  have hrun := (Option.some_get (x := exec (step ⟨2, 65536⟩) init overtaking)
    (by decide +kernel)).symm
  have hlast := (h ⟨2, 65536⟩ overtaking (by decide)).last hrun
  exact absurd hlast (by decide +kernel)

/-- One thread has no earlier notification in hand. -/
theorem Inv.earlier_eq_nil (inv : Inv cfg g s) (hT : cfg.threads ≤ 1) {t : ℕ} {h : Handling}
    (hc : (s.threads t).current = some h) : earlier cfg s h.call = [] := by
  have ht : t < cfg.threads := inv.lt_threads fun e => by rw [e] at hc; cases hc
  refine List.filter_eq_nil_iff.2 fun e he hlt => ?_
  obtain ⟨u, hu, he⟩ := List.mem_flatMap.1 he
  obtain rfl : u = t := by
    have := List.mem_range.1 hu
    omega
  have hlt' : e.1 < h.call := of_decide_eq_true hlt
  rcases List.mem_append.1 he with he | he
  · obtain ⟨m, hm, rfl⟩ := List.mem_map.1 he
    have := inv.ordered u m h (Option.mem_toList.1 hm) hc
    simp only at hlt'
    omega
  · obtain ⟨h', hh', rfl⟩ := List.mem_map.1 he
    obtain rfl := Option.some.inj (hc.symm.trans (Option.mem_toList.1 hh'))
    exact absurd hlt' (Nat.lt_irrefl _)

/-- No data message bears the tag of the notifications. -/
def TagsApart (cfg : Config) (_ : Socket) : Action → Prop
  | .sendmsg iov counts =>
      ∀ i < (messages cfg.buffered iov).length, tagOf (counts i) ≠ tagRecv
  | _ => True

/-- **One thread keeps the byte order.**  Only the tags have to stay apart. -/
theorem byte_order_one_thread {cfg : Config} (hT : cfg.threads ≤ 1) {as : List Action}
    (h : Meets (step cfg) (TagsApart cfg) init as) : Always (step cfg) InOrder init as := by
  refine (always_of_meets (P := fun s => ∃ g, Inv cfg g s) ?_ ⟨_, inv_init cfg⟩ h).mono
    fun _ ⟨_, inv⟩ => inv.inOrder
  rintro s a s' ⟨g, inv⟩ hG hstep
  refine inv.step ?_ hstep
  cases a with
  | sendmsg iov counts => exact hG
  | post t =>
      intro hd hc n hn e he
      rw [inv.earlier_eq_nil hT hc] at he
      exact absurd he List.not_mem_nil
  | append t => exact fun hd hc => inv.earlier_eq_nil hT hc
  | put | deliver t | take t | fill tag | recvmsg lens => exact trivial

end Runs

end Preload
end Lfi
