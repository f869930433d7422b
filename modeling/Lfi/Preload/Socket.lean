/-
# A preloaded connection

One direction of a connection between two processes with the preload library
(`src/ld_preload/ld_preload.cpp`).  The sender calls `internal_sendmsg`: a notification
with `LFI_TAG_RECV_LD_PRELOAD` and then the data messages, each with a tag of its own.
The receiver has `LFI_ld_preload_threads` threads in `thread_eventfd_loop`.  Each keeps a
receive for the notifications of any communicator posted; with a notification it posts
the receives of the data messages, waits for all of them and puts what came at the end of
the socket's `buffers`, where `internal_recvmsg` reads.

The fabric hands a communicator's messages of one tag over in order, each to the first
receive posted for that tag.  Which thread's receive a notification meets depends on what
the other connections send; here it may be that of any thread whose receive is posted.  The
socket of a communicator is found: the map of the sockets is locked until a new connection is
in it.

A message and what is done with it carry the number of the call they belong to.  The code
does not; it is history, and no step depends on it.
-/

import Lfi.Preload.Message
import Lfi.Runs.Basic
import Mathlib.Logic.Function.Basic

namespace Lfi
namespace Preload

open Data Runs

/-- What the environment fixes. -/
structure Config where
  /-- `LFI_ld_preload_threads`. -/
  threads : ℕ
  /-- `LFI_ld_preload_buffered`. -/
  buffered : ℕ

/-- A message, the number of the call that sent it and its index in the call. -/
structure Message where
  payload : Bytes
  call : ℕ
  index : ℕ
deriving DecidableEq

/-- A receive posted by a thread for one of the messages of a notification. -/
structure Receive where
  thread : ℕ
  slot : ℕ
  size : ℕ
  call : ℕ
deriving DecidableEq

/-- A thread between a notification and the end of its data: the entries of the
notification, the parts of `new_buffer` that came, and how many receives are posted. -/
structure Handling where
  notes : List NotiBuff
  parts : List (Option Bytes)
  posted : ℕ
  call : ℕ
deriving DecidableEq

/-- A receiver thread.  Its receive for notifications is posted unless `inbox` has what it
received; `current` is the notification it works at. -/
structure Thread where
  inbox : Option Message
  current : Option Handling
deriving DecidableEq

/-- `lfi_socket::buffered`. -/
structure Buffered where
  buffer : Bytes
  consumed : ℕ
deriving DecidableEq

/-- The connection: the data messages that the actual call has yet to send, the messages
on their way and the receives posted, by tag, the threads and the socket's `buffers`.  The
number of calls, the bytes given to them and those returned are history. -/
structure Socket where
  pending : List (ℕ × Message)
  chan : ℕ → List Message
  recvs : ℕ → List Receive
  threads : ℕ → Thread
  buffers : List Buffered
  calls : ℕ
  given : Bytes
  returned : Bytes

/-- A connection on which nothing has been sent. -/
def init : Socket where
  pending := []
  chan := fun _ => []
  recvs := fun _ => []
  threads := fun _ => ⟨none, none⟩
  buffers := []
  calls := 0
  given := []
  returned := []

inductive Action where
  /-- `internal_sendmsg(iov)` begins and sends its notification; `counts i` is what
  `static_counter` gives for the message `i`. -/
  | sendmsg (iov : List Bytes) (counts : ℕ → ℤ)
  /-- `async_send` of the next data message. -/
  | put
  /-- The next notification meets the receive of the thread `t`. -/
  | deliver (t : ℕ)
  /-- The thread `t` reads its notification and posts the receive again. -/
  | take (t : ℕ)
  /-- `async_recv` of the thread `t` for its next data message. -/
  | post (t : ℕ)
  /-- The next message of a tag meets the first receive of that tag. -/
  | fill (tag : ℕ)
  /-- The thread `t` has all data and puts it in `buffers`. -/
  | append (t : ℕ)
  /-- `internal_recvmsg` with pieces of these lengths. -/
  | recvmsg (lens : List ℕ)

section Parts

/-- The data messages of a call with their tags. -/
def tagged (buffered : ℕ) (iov : List Bytes) (counts : ℕ → ℤ) : List (Bytes × ℕ) :=
  (messages buffered iov).mapIdx fun i m => (m, tagOf (counts i))

/-- `noti_buffered`. -/
def notes (c : List (Bytes × ℕ)) : List NotiBuff := c.map fun e => ⟨e.1.length, e.2⟩

/-- The notification of the call number `k`. -/
def notification (k : ℕ) (c : List (Bytes × ℕ)) : Message := ⟨encodeNotes (notes c), k, 0⟩

/-- The data messages of the call number `k`, by tag. -/
def dataMessages (k : ℕ) (c : List (Bytes × ℕ)) : List (ℕ × Message) :=
  c.mapIdx fun i e => (e.2, ⟨e.1, k, i⟩)

/-- `bs` in a receive of `n` bytes whose memory was zero: what does not fit is lost. -/
def fit (n : ℕ) (bs : Bytes) : Bytes := bs.take n ++ List.replicate (n - bs.length) 0

theorem fit_length (bs : Bytes) : fit bs.length bs = bs := by
  rw [fit, List.take_length, Nat.sub_self, List.replicate_zero, List.append_nil]

/-- The bytes `aux_buff` has room for. -/
def auxBytes : ℕ := 1024 * 8

/-- What a thread makes of the notification `m`; one longer than the receive is an error
and left. -/
def begin (m : Message) : Option Handling :=
  if auxBytes < m.payload.length then none
  else
    let ns := decodeNotes m.payload
    some ⟨ns, ns.map fun _ => none, 0, m.call⟩

/-- The data of a message comes into its part of `new_buffer`. -/
def receivePart (th : Thread) (r : Receive) (m : Message) : Thread :=
  { th with
    current := th.current.map fun h =>
      { h with parts := h.parts.set r.slot (some (fit r.size m.payload)) } }

/-- `new_buffer` when everything has come. -/
def Handling.newBuffer (h : Handling) : Bytes := h.parts.flatMap fun p => p.getD []

/-- `wait_num` for all the receives returns: they are posted and completed. -/
def Handling.Complete (h : Handling) : Prop :=
  h.posted = h.notes.length ∧ ∀ p ∈ h.parts, p.isSome

instance (h : Handling) : Decidable h.Complete := inferInstanceAs (Decidable (_ ∧ _))

/-- The `for` loop of `internal_recvmsg` over pieces of these lengths: the bytes copied
and the front buffer after it. -/
def copyOut : Buffered → List ℕ → Bytes × Buffered
  | b, [] => ([], b)
  | b, n :: ns =>
      if b.buffer.length = b.consumed then ([], b)
      else
        let toCopy := min n (b.buffer.length - b.consumed)
        let out := copyOut { b with consumed := b.consumed + toCopy } ns
        ((b.buffer.drop b.consumed).take toCopy ++ out.1, out.2)

/-- `internal_recvmsg`: the bytes it returns and the buffers after it. -/
def internalRecvmsg (buffers : List Buffered) (lens : List ℕ) : Bytes × List Buffered :=
  match buffers with
  | [] => ([], [])
  | b :: bs =>
      let out := copyOut b lens
      (out.1, if out.2.buffer.length = out.2.consumed then bs else out.2 :: bs)

end Parts

/-- What the callers of `internal_sendmsg` keep to: at most 1024 messages in a call, none
of `2^32` bytes or more. -/
def Small (buffered : ℕ) (iov : List Bytes) : Prop :=
  (messages buffered iov).length ≤ 1024 ∧
    ∀ m ∈ messages buffered iov, m.length < 4294967296

instance (buffered : ℕ) (iov : List Bytes) : Decidable (Small buffered iov) :=
  inferInstanceAs (Decidable (_ ∧ _))

/-- `internal_sendmsg` up to its notification: nothing is sent of an empty `iov`. -/
def internalSendmsg (cfg : Config) (s : Socket) (iov : List Bytes) (counts : ℕ → ℤ) : Socket :=
  match tagged cfg.buffered iov counts with
  | [] => s
  | c => { s with
      pending := dataMessages s.calls c
      chan := Function.update s.chan tagRecv (s.chan tagRecv ++ [notification s.calls c])
      calls := s.calls + 1
      given := s.given ++ iov.flatten }

/-- One step.  The calls of `internal_sendmsg` are those of one thread: a call begins when
the one before has sent all of its messages. -/
def step (cfg : Config) (s : Socket) : Action → Option Socket
  | .sendmsg iov counts =>
      if s.pending = [] ∧ Small cfg.buffered iov then
        some (internalSendmsg cfg s iov counts)
      else none
  | .put =>
      match s.pending with
      | [] => none
      | (tag, m) :: rest => some { s with
          pending := rest
          chan := Function.update s.chan tag (s.chan tag ++ [m]) }
  | .deliver t =>
      if t < cfg.threads then
        match s.chan tagRecv, (s.threads t).inbox with
        | m :: rest, none => some { s with
            chan := Function.update s.chan tagRecv rest
            threads := Function.update s.threads t { s.threads t with inbox := some m } }
        | _, _ => none
      else none
  | .take t =>
      match (s.threads t).inbox, (s.threads t).current with
      | some m, none => some { s with
          threads := Function.update s.threads t ⟨none, begin m⟩ }
      | _, _ => none
  | .post t =>
      match (s.threads t).current with
      | none => none
      | some h =>
          match h.notes[h.posted]? with
          | none => none
          | some n => some { s with
              recvs := Function.update s.recvs n.tag
                (s.recvs n.tag ++ [⟨t, h.posted, n.size, h.call⟩])
              threads := Function.update s.threads t
                { s.threads t with current := some { h with posted := h.posted + 1 } } }
  | .fill tag =>
      match s.chan tag, s.recvs tag with
      | m :: ms, r :: rs => some { s with
          chan := Function.update s.chan tag ms
          recvs := Function.update s.recvs tag rs
          threads := Function.update s.threads r.thread
            (receivePart (s.threads r.thread) r m) }
      | _, _ => none
  | .append t =>
      match (s.threads t).current with
      | none => none
      | some h =>
          if h.Complete then some { s with
            buffers := if h.notes = [] then s.buffers else s.buffers ++ [⟨h.newBuffer, 0⟩]
            threads := Function.update s.threads t { s.threads t with current := none } }
          else none
  | .recvmsg lens => some { s with
      buffers := (internalRecvmsg s.buffers lens).2
      returned := s.returned ++ (internalRecvmsg s.buffers lens).1 }

section Queues

variable {α κ : Type*} [DecidableEq κ] {queues : κ → List α} {k j : κ} {x y : α} {xs : List α}

/-- One more comes to the end of the queue `k`. -/
theorem mem_update_append (h : y ∈ Function.update queues k (queues k ++ [x]) j) :
    y ∈ queues j ∨ j = k ∧ y = x := by
  by_cases hj : j = k
  · subst hj
    rw [Function.update_self] at h
    rcases List.mem_append.1 h with h | h
    · exact .inl h
    · exact .inr ⟨rfl, List.mem_singleton.1 h⟩
  · rw [Function.update_of_ne hj] at h
    exact .inl h

/-- The first of the queue `k` is taken. -/
theorem sublist_update_tail (hk : queues k = x :: xs) (j : κ) :
    (Function.update queues k xs j).Sublist (queues j) := by
  by_cases hj : j = k
  · subst hj
    rw [Function.update_self, hk]
    exact List.sublist_cons_self x xs
  · have hsame : Function.update queues k xs j = queues j := Function.update_of_ne hj ..
    exact hsame ▸ List.Sublist.refl _

end Queues

section Guard

/-- The notifications a thread has in hand: the call of each, and the entries for which no
receive is posted yet. -/
def Thread.inHand (th : Thread) : List (ℕ × List NotiBuff) :=
  (th.inbox.toList.map fun m => (m.call, decodeNotes m.payload)) ++
    th.current.toList.map fun h => (h.call, h.notes.drop h.posted)

/-- The notifications of calls before `k` that are in hand. -/
def earlier (cfg : Config) (s : Socket) (k : ℕ) : List (ℕ × List NotiBuff) :=
  ((List.range cfg.threads).flatMap fun t => (s.threads t).inHand).filter fun e => e.1 < k

/-- The steps that do not go wrong.  The data of a call is put in `buffers` while no
thread has an earlier notification in hand, a receive is posted while no earlier
notification in hand has one of its tag yet to post, and no data message bears the tag of
the notifications. -/
def Careful (cfg : Config) (s : Socket) : Action → Prop
  | .sendmsg iov counts =>
      ∀ i < (messages cfg.buffered iov).length, tagOf (counts i) ≠ tagRecv
  | .post t => ∀ h ∈ (s.threads t).current, ∀ n ∈ h.notes[h.posted]?,
      ∀ e ∈ earlier cfg s h.call, ∀ n' ∈ e.2, n'.tag ≠ n.tag
  | .append t => ∀ h ∈ (s.threads t).current, earlier cfg s h.call = []
  | _ => True

instance (cfg : Config) (s : Socket) : DecidablePred (Careful cfg s)
  | .sendmsg iov counts =>
      inferInstanceAs (Decidable (∀ i < (messages cfg.buffered iov).length,
        tagOf (counts i) ≠ tagRecv))
  | .post t => inferInstanceAs (Decidable (∀ h ∈ (s.threads t).current,
      ∀ n ∈ h.notes[h.posted]?, ∀ e ∈ earlier cfg s h.call, ∀ n' ∈ e.2, n'.tag ≠ n.tag))
  | .append t => inferInstanceAs (Decidable (∀ h ∈ (s.threads t).current,
      earlier cfg s h.call = []))
  | .put | .deliver _ | .take _ | .fill _ | .recvmsg _ => .isTrue trivial

end Guard

/-- What the application reads is what it was sent, in order. -/
def InOrder (s : Socket) : Prop := s.returned <+: s.given

instance (s : Socket) : Decidable (InOrder s) :=
  inferInstanceAs (Decidable (s.returned <+: s.given))

end Preload
end Lfi
