/-
# When a socket is readable

A socket with an eventfd: `thread_eventfd_loop` puts a buffer at the end of `buffers` and
adds one to the eventfd, `internal_recvmsg` takes bytes from the first and, with the last of
them, the buffer and one from the eventfd.  Both do so under the socket's `m_mutex`.

    lfi_socket.buffers.pop_front();
    uint64_t dummy = 0;
    ssize_t ret_write = PROXY(read)(lfi_socket.eventfd, &dummy, sizeof(dummy));

`connect` and `accept` make the eventfd, `EFD_SEMAPHORE` and `EFD_NONBLOCK`, before they let
go of the map of the sockets, so before any thread finds the socket.

The bytes come out as they came in, and the eventfd counts the buffers (`reassembly`).
-/

import Lfi.Preload.ByteOrder

namespace Lfi
namespace Preload

open Data Runs

section Inbound

/-- The value at which an eventfd takes no more. -/
def eventfdMax : ℕ := 2 ^ 64 - 2

/-- `write` of 1 to an eventfd; it fails when there is no room. -/
def eventfdWrite (value : ℕ) : ℕ := if value < eventfdMax then value + 1 else value

/-- `read` of an `EFD_SEMAPHORE`; it fails at 0. -/
def eventfdRead (value : ℕ) : ℕ := value - 1

/-- `POLLIN` of an eventfd. -/
def pollIn (value : ℕ) : Bool := decide (0 < value)

/-- `max_size` of a `std::deque` of elements of 32 bytes; `emplace_back` throws beyond it. -/
def maxBuffers : ℕ := (2 ^ 63 - 1) / 32

/-- A socket as its reader sees it.  The bytes that arrived and those handed out are
history. -/
structure Inbound where
  buffers : List Buffered
  eventfd : ℕ
  arrived : Bytes
  handed : Bytes
deriving DecidableEq

def Inbound.init : Inbound := ⟨[], 0, [], []⟩

inductive Inbound.Action where
  /-- `thread_eventfd_loop` has received all of a notification's data. -/
  | arrive (newBuffer : Bytes)
  /-- `internal_recvmsg` with pieces of these lengths; the communicator is found, or not. -/
  | recvmsg (found : Bool) (lens : List ℕ)

def Inbound.step (s : Inbound) : Inbound.Action → Option Inbound
  | .arrive newBuffer =>
      if s.buffers.length < maxBuffers then
        some { s with
          buffers := s.buffers ++ [⟨newBuffer, 0⟩]
          eventfd := eventfdWrite s.eventfd
          arrived := s.arrived ++ newBuffer }
      else none
  | .recvmsg false _ => some s
  | .recvmsg true lens =>
      match s.buffers with
      | [] => some s
      | b :: bs =>
          let out := copyOut b lens
          if out.2.buffer.length = out.2.consumed then
            some { s with
              buffers := bs
              eventfd := eventfdRead s.eventfd
              handed := s.handed ++ out.1 }
          else
            some { s with
              buffers := out.2 :: bs
              handed := s.handed ++ out.1 }

/-- What the loop of `internal_recvmsg` copies to each piece that it gets to. -/
def scatter : Buffered → List ℕ → List Bytes
  | _, [] => []
  | b, n :: ns =>
      if b.buffer.length = b.consumed then []
      else
        let toCopy := min n (b.buffer.length - b.consumed)
        (b.buffer.drop b.consumed).take toCopy ::
          scatter { b with consumed := b.consumed + toCopy } ns

end Inbound

section Reading

/-- The loop never takes more than there is. -/
theorem copyOut_consumed_le {b : Buffered} (lens : List ℕ) (h : b.consumed ≤ b.buffer.length) :
    (copyOut b lens).2.consumed ≤ (copyOut b lens).2.buffer.length := by
  induction lens generalizing b with
  | nil => exact h
  | cons n lens ih =>
      rw [copyOut]
      split
      case isTrue => exact h
      case isFalse =>
        refine ih ?_
        show b.consumed + min n (b.buffer.length - b.consumed) ≤ b.buffer.length
        omega

/-- The pieces together have the bytes that are copied. -/
theorem flatten_scatter (b : Buffered) (lens : List ℕ) :
    (scatter b lens).flatten = (copyOut b lens).1 := by
  induction lens generalizing b with
  | nil => rfl
  | cons n lens ih =>
      rw [scatter, copyOut]
      split
      case isTrue => rfl
      case isFalse => rw [List.flatten_cons, ih]

/-- A piece that is not filled is the last: it took what there was. -/
theorem scatter_filled {b : Buffered} {lens : List ℕ} (h : b.consumed ≤ b.buffer.length) {i : ℕ}
    (hi : i + 1 < (scatter b lens).length) :
    ((scatter b lens)[i]?).map List.length = lens[i]? := by
  induction lens generalizing b i with
  | nil => exact absurd hi (Nat.not_lt_zero _)
  | cons n lens ih =>
      rw [scatter] at hi ⊢
      split
      case isTrue hall =>
        rw [if_pos hall] at hi
        exact absurd hi (Nat.not_lt_zero _)
      case isFalse hall =>
        rw [if_neg hall] at hi
        cases i with
        | zero =>
            -- were the first not filled, the buffer would be used up
            have hfits : n ≤ b.buffer.length - b.consumed := by
              by_contra hlong
              have hused : b.buffer.length = b.consumed + min n (b.buffer.length - b.consumed) := by
                omega
              rw [List.length_cons, Nat.add_lt_add_iff_right] at hi
              cases lens with
              | nil => exact absurd hi (Nat.lt_irrefl 0)
              | cons n' lens =>
                  rw [scatter, if_pos hused] at hi
                  exact absurd hi (Nat.lt_irrefl 0)
            simp [hfits]
        | succ i =>
            rw [List.getElem?_cons_succ, List.getElem?_cons_succ]
            refine ih ?_ (Nat.lt_of_succ_lt_succ hi)
            show b.consumed + min n (b.buffer.length - b.consumed) ≤ b.buffer.length
            omega

/-- A step of the reader is `internal_recvmsg`. -/
theorem Inbound.step_recvmsg {s t : Inbound} {lens : List ℕ}
    (h : s.step (.recvmsg true lens) = some t) :
    t.buffers = (internalRecvmsg s.buffers lens).2 ∧
      t.handed = s.handed ++ (internalRecvmsg s.buffers lens).1 ∧ t.arrived = s.arrived := by
  rw [step] at h
  split at h
  case h_1 hnil =>
    obtain rfl := Option.some.inj h
    simp [hnil, internalRecvmsg]
  case h_2 b bs hcons =>
    rw [hcons, internalRecvmsg]
    dsimp only at h ⊢
    split at h
    case isTrue hall =>
      obtain rfl := Option.some.inj h
      exact ⟨(if_pos hall).symm, rfl, rfl⟩
    case isFalse hleft =>
      obtain rfl := Option.some.inj h
      exact ⟨(if_neg hleft).symm, rfl, rfl⟩

/-- What holds between the steps. -/
structure Inbound.Inv (s : Inbound) : Prop where
  stream : s.handed ++ left s.buffers = s.arrived
  consumed : ∀ b ∈ s.buffers, b.consumed ≤ b.buffer.length
  eventfd : s.eventfd = s.buffers.length
  room : s.buffers.length ≤ maxBuffers

theorem Inbound.Inv.init : Inbound.init.Inv := ⟨rfl, by simp [Inbound.init], rfl, Nat.zero_le _⟩

theorem Inbound.Inv.step {s t : Inbound} {a : Inbound.Action} (inv : s.Inv)
    (h : s.step a = some t) : t.Inv := by
  match a with
  | .arrive newBuffer =>
      rw [Inbound.step] at h
      split at h
      case isFalse => exact absurd h (by simp)
      case isTrue hroom =>
        obtain rfl := Option.some.inj h
        have hvalue : eventfdWrite s.eventfd = s.buffers.length + 1 := by
          rw [eventfdWrite, inv.eventfd, if_pos (hroom.trans (by decide))]
        refine ⟨?_, fun b hb => ?_, ?_, ?_⟩
        · show s.handed ++ left (s.buffers ++ [(⟨newBuffer, 0⟩ : Buffered)]) =
            s.arrived ++ newBuffer
          rw [left, List.flatMap_append, ← List.append_assoc, ← left, inv.stream]
          simp
        · rcases List.mem_append.1 hb with hb | hb
          · exact inv.consumed b hb
          · rw [List.mem_singleton.1 hb]
            exact Nat.zero_le _
        · show eventfdWrite s.eventfd = (s.buffers ++ [(⟨newBuffer, 0⟩ : Buffered)]).length
          rw [hvalue, List.length_append, List.length_singleton]
        · show (s.buffers ++ [(⟨newBuffer, 0⟩ : Buffered)]).length ≤ maxBuffers
          rw [List.length_append, List.length_singleton]
          exact hroom
  | .recvmsg false _ => exact Option.some.inj h ▸ inv
  | .recvmsg true lens =>
      obtain ⟨hbuffers, hhanded, harrived⟩ := Inbound.step_recvmsg h
      have hstream : t.handed ++ left t.buffers = t.arrived := by
        rw [hbuffers, hhanded, harrived, List.append_assoc, left_internalRecvmsg, inv.stream]
      rw [Inbound.step] at h
      split at h
      case h_1 => exact Option.some.inj h ▸ inv
      case h_2 b bs hcons =>
        have hfront := inv.consumed b (hcons ▸ List.mem_cons_self)
        have hrest : ∀ b' ∈ bs, b'.consumed ≤ b'.buffer.length := fun b' hb' =>
          inv.consumed b' (hcons ▸ List.mem_cons_of_mem b hb')
        have hvalue : s.eventfd = bs.length + 1 := by rw [inv.eventfd, hcons, List.length_cons]
        have hroom : bs.length + 1 ≤ maxBuffers := by
          have hle := inv.room
          rwa [hcons, List.length_cons] at hle
        dsimp only at h
        split at h
        case isTrue =>
          obtain rfl := Option.some.inj h
          exact ⟨hstream, hrest, by rw [eventfdRead, hvalue, Nat.add_sub_cancel],
            (Nat.le_succ _).trans hroom⟩
        case isFalse =>
          obtain rfl := Option.some.inj h
          refine ⟨hstream, fun b' hb' => ?_, hvalue, hroom⟩
          rcases List.mem_cons.1 hb' with rfl | hb'
          · exact copyOut_consumed_le lens hfront
          · exact hrest b' hb'

/-- **Reassembly and readiness.**  After any arrivals and calls in any order: what was handed out
and what is left are the bytes that arrived, in order; no more of a buffer is consumed than it
has; the eventfd counts the buffers, so that it polls readable exactly when there is one; and a
call fills the caller's pieces one after the other. -/
theorem reassembly {as : List Inbound.Action} {s : Inbound}
    (h : exec Inbound.step Inbound.init as = some s) :
    s.handed ++ left s.buffers = s.arrived ∧
      (∀ b ∈ s.buffers, b.consumed ≤ b.buffer.length) ∧
      s.eventfd = s.buffers.length ∧
      (pollIn s.eventfd = true ↔ s.buffers ≠ []) ∧
      ∀ b ∈ s.buffers.head?, ∀ lens,
        (scatter b lens).flatten = (internalRecvmsg s.buffers lens).1 ∧
          ∀ i, i + 1 < (scatter b lens).length →
            ((scatter b lens)[i]?).map List.length = lens[i]? := by
  have inv : s.Inv := exec_invariant (fun _ _ _ hi hs => hi.step hs) Inbound.Inv.init h
  refine ⟨inv.stream, inv.consumed, inv.eventfd, ?_, fun b hb lens => ⟨?_, fun i hi => ?_⟩⟩
  · rw [inv.eventfd, pollIn, decide_eq_true_iff, List.length_pos_iff]
  · obtain ⟨bs, hcons⟩ := List.head?_eq_some_iff.1 hb
    rw [flatten_scatter, hcons, internalRecvmsg]
  · exact scatter_filled (inv.consumed b (List.mem_of_mem_head? hb)) hi

/-- Two of three bytes are read, and an empty buffer is behind them. -/
def Inbound.partRead : Inbound := ⟨[⟨[1, 2, 3], 2⟩, ⟨[], 0⟩], 2, [1, 2, 3], [1, 2]⟩

theorem reassembly_partRead :
    Inbound.partRead.handed ++ left Inbound.partRead.buffers = Inbound.partRead.arrived ∧
      (∀ b ∈ Inbound.partRead.buffers, b.consumed ≤ b.buffer.length) ∧
      Inbound.partRead.eventfd = Inbound.partRead.buffers.length ∧
      (pollIn Inbound.partRead.eventfd = true ↔ Inbound.partRead.buffers ≠ []) ∧
      ∀ b ∈ Inbound.partRead.buffers.head?, ∀ lens,
        (scatter b lens).flatten = (internalRecvmsg Inbound.partRead.buffers lens).1 ∧
          ∀ i, i + 1 < (scatter b lens).length →
            ((scatter b lens)[i]?).map List.length = lens[i]? :=
  reassembly (show exec Inbound.step Inbound.init
    [.arrive [1, 2, 3], .arrive [], .recvmsg false [8], .recvmsg true [2, 0]] =
      some Inbound.partRead from rfl)

end Reading

end Preload
end Lfi
