/-
# Strings over a socket

`socket::send_str` and `socket::recv_str` of `src/src/impl/socket.cpp` put the size of a string
before its bytes.  Each field is a `socket::send` or `socket::recv`, repeated as long as it fails
with `EAGAIN`:

    do {
        ret = socket::send(socket, &str[0], size_str);
    } while (ret < 0 && errno == EAGAIN);

A repeated transfer begins at the first byte of its field again, also when a part of it was
moved before.  And `recv_str` of an empty string returns before it clears its output.

`framed_of_clean` says when a string arrives as it was sent.
-/

import Lfi.Data.Bytes
import Lfi.Socket.Transfer

namespace Lfi
namespace Socket

open Runs Data

/-! ### The two functions -/

/-- `EAGAIN`. -/
def eagain : ℕ := 11

/-- The two fields of a framed string. -/
inductive Field where
  | size
  | body
  deriving DecidableEq, Repr

/-- The bytes of the fields before. -/
def Field.before : Field → ℕ
  | .size => 0
  | .body => 8

/-- Where `send_str` or `recv_str` is: transferring, returned, or left by an overflow or by an
exception of `resize`. -/
inductive Result where
  | running
  | returned (ret : ℤ)
  | left
  deriving DecidableEq, Repr

/-- Success is reported by the size of the string. -/
def Result.Success : Result → Prop
  | .returned ret => 0 ≤ ret
  | _ => False

instance : DecidablePred Result.Success
  | .returned _ => inferInstanceAs (Decidable (_ ≤ _))
  | .running | .left => .isFalse id

/-- The bytes of a string on the stream. -/
def frame (s : Bytes) : Bytes := toBytes 8 s.length ++ s

/-- `send_str`, and what it has put on the stream. -/
structure SendStr where
  field : Field
  transfer : Transfer
  put : Bytes
  result : Result
  deriving DecidableEq, Repr

/-- Before the first call. -/
def SendStr.start : SendStr := ⟨.size, .start 8, [], .running⟩

/-- The bytes of a field. -/
def Field.data (s : Bytes) : Field → Bytes
  | .size => toBytes 8 s.length
  | .body => s

/-- What `send_str(s)` does when a call has returned. -/
def SendStr.settle (s : Bytes) (x : SendStr) : SendStr :=
  match x.transfer.outcome, x.field with
  | .running, _ => x
  | .undefined, _ => { x with result := .left }
  | .failed errno, field =>
      if errno = eagain then { x with transfer := .start (field.data s).length }
      else { x with result := .returned (-1) }
  | .finished, .size =>
      if s.length = 0 then { x with result := .returned 0 }
      else { x with field := .body, transfer := .start s.length }
  | .finished, .body => { x with result := .returned s.length }

/-- One system call of `send_str(s)`. -/
def sendStrStep (s : Bytes) (x : SendStr) (a : Answer) : Option SendStr :=
  if x.result = .running then
    (transferStep x.transfer a).map fun t =>
      SendStr.settle s { x with
        transfer := t
        put := x.put ++ ((x.field.data s).drop x.transfer.moved).take a.bytes }
  else none

/-- Memory with the bytes `bs` written from the offset `i` on. -/
def overwrite (memory : Bytes) (i : ℕ) (bs : Bytes) : Bytes :=
  memory.take i ++ bs ++ memory.drop (i + bs.length)

/-- `recv_str`, with its `size_str` and its output, and what it has taken from the stream. -/
structure RecvStr where
  field : Field
  transfer : Transfer
  sizeStr : Bytes
  str : Bytes
  taken : Bytes
  result : Result
  deriving DecidableEq, Repr

/-- Before the first call, with the value that the output had. -/
def RecvStr.start (prev : Bytes) : RecvStr :=
  ⟨.size, .start 8, List.replicate 8 0, prev, [], .running⟩

/-- The length of the field that is received. -/
def RecvStr.len (y : RecvStr) : ℕ :=
  match y.field with
  | .size => 8
  | .body => ofBytes y.sizeStr

/-- The bytes `bs` are written into the field that is received. -/
def RecvStr.write (y : RecvStr) (bs : Bytes) : RecvStr :=
  match y.field with
  | .size => { y with sizeStr := overwrite y.sizeStr y.transfer.moved bs }
  | .body => { y with str := overwrite y.str y.transfer.moved bs }

/-- What `recv_str` does when a call has returned. -/
def RecvStr.settle (y : RecvStr) : RecvStr :=
  match y.transfer.outcome, y.field with
  | .running, _ => y
  | .undefined, _ => { y with result := .left }
  | .failed errno, _ =>
      if errno = eagain then { y with transfer := .start y.len }
      else { y with result := .returned (-1) }
  | .finished, .size =>
      let size := ofBytes y.sizeStr
      if size = 0 then { y with result := .returned 0 }
      else if maxSize < size then { y with result := .left }
      else { y with field := .body, transfer := .start size, str := List.replicate size 0 }
  | .finished, .body => { y with result := .returned (ofBytes y.sizeStr) }

/-- One system call of `recv_str`, which gets the bytes `bs`. -/
def recvStrStep (y : RecvStr) (a : Answer) (bs : Bytes) : Option RecvStr :=
  if y.result = .running then
    (transferStep y.transfer a).map fun t =>
      RecvStr.settle { y.write bs with transfer := t, taken := y.taken ++ bs }
  else none

/-! ### Both ends of a stream -/

/-- The two functions and the stream between them; `later` is what is sent after the string. -/
structure Framing where
  sender : SendStr
  receiver : RecvStr
  later : Bytes
  deriving DecidableEq, Repr

/-- What happens: a system call of either end, or something is sent after the string. -/
inductive StringAction where
  | send (a : Answer)
  | recv (a : Answer)
  | later (bs : Bytes)
  deriving DecidableEq, Repr

/-- Before the first call. -/
def Framing.start (prev : Bytes) : Framing := ⟨.start, .start prev, []⟩

/-- All that was put on the stream. -/
def Framing.stream (z : Framing) : Bytes := z.sender.put ++ z.later

/-- One action.  A receive gets the next bytes of the stream. -/
def framingStep (s : Bytes) (z : Framing) : StringAction → Option Framing
  | .send a => (sendStrStep s z.sender a).map fun x => { z with sender := x }
  | .recv a =>
      let next := z.stream.drop z.receiver.taken.length
      if a.bytes ≤ next.length then
        (recvStrStep z.receiver a (next.take a.bytes)).map fun y => { z with receiver := y }
      else none
  | .later bs =>
      if z.sender.result.Success then some { z with later := z.later ++ bs } else none

/-- **A string that arrives**: it is received as it was sent, and what both ends moved is its
size and its bytes. -/
structure Framed (s : Bytes) (z : Framing) : Prop where
  str : z.receiver.str = s
  put : z.sender.put = frame s
  taken : z.receiver.taken = frame s

/-- No transfer is given up with `EAGAIN` when a part of it was moved. -/
def Clean (z : Framing) : StringAction → Prop
  | .send a => a = .error eagain → z.sender.transfer.moved = 0
  | .recv a => a = .error eagain → z.receiver.transfer.moved = 0
  | .later _ => True

instance (z : Framing) : DecidablePred (Clean z)
  | .send _ | .recv _ => inferInstanceAs (Decidable (_ → _))
  | .later _ => .isTrue trivial

variable {s prev : Bytes} {x x' : SendStr} {y y' : RecvStr} {z z' : Framing} {a : Answer}

/-! ### Sending -/

/-- How much of the frame `send_str` has put, the transfers it gave up apart. -/
def SendStr.progress (x : SendStr) : ℕ := x.field.before + x.transfer.moved

/-- What holds while a string is sent.  As long as nothing was put twice, what was put is the
beginning of the frame. -/
structure SendInv (s : Bytes) (x : SendStr) : Prop where
  loop : LoopInv (x.field.data s).length x.transfer
  progress_le : x.progress ≤ x.put.length
  kept : x.put.length = x.progress → x.put = (frame s).take x.progress
  success : x.result.Success → x.transfer.outcome = .finished ∧ (x.field = .size → s = [])

theorem sendInv_start (s : Bytes) : SendInv s .start where
  loop := by
    simp only [SendStr.start, Field.data, length_toBytes]
    exact loopInv_start 8
  progress_le := Nat.le_refl _
  kept _ := rfl
  success := False.elim

@[simp] theorem length_frame (s : Bytes) : (frame s).length = 8 + s.length := by
  rw [frame, List.length_append, length_toBytes]

/-- The bytes of a field are in the frame after those of the fields before. -/
theorem frame_drop_take (s : Bytes) (f : Field) {m n : ℕ} (h : m + n ≤ (f.data s).length) :
    ((frame s).drop (f.before + m)).take n = ((f.data s).drop m).take n := by
  cases f with
  | size =>
      simp only [Field.data, length_toBytes] at h
      have hm : m ≤ (toBytes 8 s.length).length := by rw [length_toBytes]; omega
      rw [Field.before, Nat.zero_add, frame, List.drop_append_of_le_length hm,
        List.take_append_of_le_length (by rw [List.length_drop, length_toBytes]; omega), Field.data]
  | body =>
      rw [Field.before, frame, ← List.drop_drop, List.drop_left' (length_toBytes 8 _), Field.data]

/-- What is put in a call. -/
theorem SendInv.put (h : SendInv s x) (hrun : x.result = .running) {t : Transfer}
    (hstep : transferStep x.transfer a = some t) {piece : Bytes}
    (hpiece : piece = ((x.field.data s).drop x.transfer.moved).take a.bytes) :
    SendInv s { x with transfer := t, put := x.put ++ piece } ∧
      piece.length = a.bytes := by
  have hloop := h.loop.step hstep
  have hle := hloop.moved_le
  rw [transferStep_moved hstep] at hle
  have hlen : piece.length = a.bytes := by
    rw [hpiece, List.length_take, List.length_drop]
    omega
  have hprogress : x.field.before + t.moved = x.progress + a.bytes := by
    rw [transferStep_moved hstep, SendStr.progress, Nat.add_assoc]
  refine ⟨⟨hloop, ?_, fun hput => ?_, fun hs => ?_⟩, hlen⟩
  · show x.field.before + t.moved ≤ (x.put ++ piece).length
    have := h.progress_le
    rw [List.length_append]
    omega
  · show x.put ++ piece = (frame s).take (x.field.before + t.moved)
    have hput : (x.put ++ piece).length = x.field.before + t.moved := hput
    rw [List.length_append] at hput
    rw [hprogress, List.take_add, ← h.kept (by omega), SendStr.progress,
      frame_drop_take s x.field hle, hpiece]
  · rw [hrun] at hs
    exact hs.elim

/-- The part of a transfer that is given up. -/
def Transfer.givenUp (t : Transfer) : ℕ := if t.outcome = .failed eagain then t.moved else 0

/-- Only the last transfer matters for the result. -/
theorem SendInv.withResult (h : SendInv s x) {r : Result}
    (hr : r.Success → x.transfer.outcome = .finished ∧ (x.field = .size → s = [])) :
    SendInv s { x with result := r } :=
  ⟨h.loop, h.progress_le, h.kept, hr⟩

/-- A field is begun, with nothing of it put yet. -/
theorem SendInv.begin (h : SendInv s x) (hrun : x.result = .running) {f : Field}
    (hf : f.before ≤ x.progress) (hkept : x.put.length = f.before → x.progress = f.before) :
    SendInv s { x with field := f, transfer := .start (f.data s).length } := by
  refine ⟨loopInv_start _, hf.trans h.progress_le, fun hput => ?_, fun hs => ?_⟩
  · have hput : x.put.length = f.before := hput
    show x.put = (frame s).take f.before
    have hsame := hkept hput
    rw [h.kept (by omega), hsame]
  · have hs : x.result.Success := hs
    rw [hrun] at hs
    exact hs.elim

/-- What is done when the call has returned. -/
theorem SendInv.settle (h : SendInv s x) (hrun : x.result = .running) :
    SendInv s (x.settle s) ∧ (x.settle s).put = x.put ∧
      (x.settle s).progress + x.transfer.givenUp = x.progress := by
  have hle := h.progress_le
  unfold Transfer.givenUp
  cases hout : x.transfer.outcome with
  | running =>
      have heq : x.settle s = x := by simp only [SendStr.settle, hout]
      rw [heq]
      exact ⟨h, rfl, rfl⟩
  | undefined =>
      have heq : x.settle s = { x with result := .left } := by simp only [SendStr.settle, hout]
      rw [heq]
      exact ⟨h.withResult False.elim, rfl, rfl⟩
  | failed errno =>
      by_cases hagain : errno = eagain
      · have heq : x.settle s = { x with
            field := x.field
            transfer := .start (x.field.data s).length } := by
          simp only [SendStr.settle, hout, hagain, if_true]
        rw [heq, hagain, if_pos rfl]
        refine ⟨h.begin hrun (Nat.le_add_right _ _) fun hput => ?_, rfl, rfl⟩
        unfold SendStr.progress at hle ⊢
        omega
      · have heq : x.settle s = { x with result := .returned (-1) } := by
          simp only [SendStr.settle, hout, hagain, if_false]
        rw [heq, if_neg fun he => hagain (Outcome.failed.inj he)]
        exact ⟨h.withResult fun hs => absurd hs (by decide : ¬ (0 : ℤ) ≤ -1), rfl, rfl⟩
  | finished =>
      rw [if_neg nofun]
      cases hf : x.field with
      | size =>
          have hloop := h.loop
          simp only [hf, Field.data, length_toBytes] at hloop
          have hsame : x.progress = 8 := by
            rw [SendStr.progress, hf, hloop.moved_eq_of_lt hout (by decide)]
            rfl
          by_cases hs : s.length = 0
          · have heq : x.settle s = { x with result := .returned 0 } := by
              simp only [SendStr.settle, hout, hf, hs, if_true]
            rw [heq]
            exact ⟨h.withResult fun _ => ⟨hout, fun _ => List.length_eq_zero_iff.1 hs⟩, rfl, rfl⟩
          · have heq : x.settle s = { x with
                field := .body
                transfer := .start (Field.body.data s).length } := by
              simp only [SendStr.settle, hout, hf, hs, if_false, Field.data]
            rw [heq]
            exact ⟨h.begin hrun hsame.ge fun _ => hsame, rfl, hsame.symm⟩
      | body =>
          have heq : x.settle s = { x with result := .returned s.length } := by
            simp only [SendStr.settle, hout, hf]
          rw [heq]
          exact ⟨h.withResult fun _ => ⟨hout, fun he => by rw [hf] at he; cases he⟩, rfl, rfl⟩

/-- What is given up in a call that has returned with the answer `a`. -/
theorem givenUp_eq {t t' : Transfer} (h : transferStep t a = some t') :
    t'.givenUp = if a = .error eagain then t.moved else 0 := by
  unfold Transfer.givenUp
  obtain ⟨hrun, ⟨errno, rfl, rfl⟩ | ⟨n, rfl, -, -, -, -, -, hout⟩⟩ := transferStep_cases h
  · simp
  · have hne : t'.outcome ≠ .failed eagain := by
      rw [hout]
      split
      case isTrue => nofun
      case isFalse => split <;> nofun
    rw [if_neg hne, if_neg (by simp)]

/-- **What a step of `send_str` does.**  It keeps the invariant, and what it puts besides the
frame is the part of a transfer that it gives up. -/
theorem SendInv.step (h : SendInv s x) (ht : sendStrStep s x a = some x') :
    SendInv s x' ∧ x.put <+: x'.put ∧ x'.put.length + x.progress =
      x.put.length + x'.progress + if a = .error eagain then x.transfer.moved else 0 := by
  simp only [sendStrStep, Option.ite_none_right_eq_some, Option.map_eq_some_iff] at ht
  obtain ⟨hrun, t, hstep, rfl⟩ := ht
  obtain ⟨hput, hlen⟩ := h.put hrun hstep rfl
  obtain ⟨hinv, hsame, hprogress⟩ := hput.settle hrun
  have hmoved := transferStep_moved hstep
  rw [givenUp_eq hstep] at hprogress
  refine ⟨hinv, hsame ▸ List.prefix_append .., ?_⟩
  rw [hsame, List.length_append, hlen]
  unfold SendStr.progress at hprogress ⊢
  dsimp only at hprogress ⊢
  omega

/-! ### Receiving -/

/-- How much `recv_str` has received, the transfers it gave up apart. -/
def RecvStr.progress (y : RecvStr) : ℕ := y.field.before + y.transfer.moved

/-- The bytes that have come into the memory of the fields. -/
def RecvStr.memory (y : RecvStr) : Bytes :=
  match y.field with
  | .size => y.sizeStr.take y.transfer.moved
  | .body => y.sizeStr ++ y.str.take y.transfer.moved

/-- What holds while a string is received.  As long as nothing was given up, the memory has all
that was taken. -/
structure RecvInv (prev : Bytes) (y : RecvStr) : Prop where
  loop : LoopInv y.len y.transfer
  size : y.sizeStr.length = 8
  before : y.field = .size → y.str = prev
  str : y.field = .body → 0 < ofBytes y.sizeStr ∧ y.str.length = ofBytes y.sizeStr
  progress_le : y.progress ≤ y.taken.length
  kept : y.taken.length = y.progress → y.taken = y.memory
  success : y.result.Success → y.transfer.outcome = .finished ∧
    (y.field = .size → ofBytes y.sizeStr = 0)

theorem recvInv_start (prev : Bytes) : RecvInv prev (.start prev) where
  loop := loopInv_start 8
  size := rfl
  before _ := rfl
  str := nofun
  progress_le := Nat.le_refl _
  kept _ := rfl
  success := False.elim

theorem length_overwrite {memory bs : Bytes} {i : ℕ} (h : i + bs.length ≤ memory.length) :
    (overwrite memory i bs).length = memory.length := by
  unfold overwrite
  rw [List.length_append, List.length_append, List.length_take, List.length_drop]
  omega

/-- What is written follows what was there. -/
theorem overwrite_take {memory bs : Bytes} {i : ℕ} (h : i + bs.length ≤ memory.length) :
    (overwrite memory i bs).take (i + bs.length) = memory.take i ++ bs := by
  unfold overwrite
  refine List.take_left' ?_
  rw [List.length_append, List.length_take]
  omega

/-- What is taken in a call. -/
theorem RecvInv.take (h : RecvInv prev y) (hrun : y.result = .running) {t : Transfer}
    (hstep : transferStep y.transfer a = some t) {bs : Bytes} (hbs : bs.length = a.bytes) :
    RecvInv prev { y.write bs with transfer := t, taken := y.taken ++ bs } := by
  have hloop := h.loop.step hstep
  have hle := hloop.moved_le
  have hmoved : t.moved = y.transfer.moved + bs.length := by
    rw [hbs]
    exact transferStep_moved hstep
  have hnot : ¬ y.result.Success := by rw [hrun]; exact id
  have hprogress : y.field.before + t.moved = y.progress + bs.length := by
    rw [hmoved, RecvStr.progress, Nat.add_assoc]
  have hlost : y.field.before + t.moved ≤ (y.taken ++ bs).length := by
    have := h.progress_le
    rw [List.length_append]
    omega
  have hkept : (y.taken ++ bs).length = y.field.before + t.moved → y.taken = y.memory := fun hput =>
    h.kept (by rw [List.length_append] at hput; omega)
  rw [hmoved] at hle
  cases hf : y.field with
  | size =>
      have heq : y.write bs =
          { y with sizeStr := overwrite y.sizeStr y.transfer.moved bs } := by
        simp only [RecvStr.write, hf]
      have hlen : y.len = 8 := by simp only [RecvStr.len, hf]
      have hfits : y.transfer.moved + bs.length ≤ y.sizeStr.length := by rw [h.size]; omega
      rw [heq]
      refine ⟨?_, (length_overwrite hfits).trans h.size, h.before, fun hb => ?_, hlost,
        fun hput => ?_, fun hs => absurd hs hnot⟩
      · simp only [RecvStr.len, hf]
        exact hlen ▸ hloop
      · rw [hf] at hb
        cases hb
      · simp only [RecvStr.memory, hf, hmoved, overwrite_take hfits]
        rw [hkept hput, RecvStr.memory, hf]
  | body =>
      have heq : y.write bs = { y with str := overwrite y.str y.transfer.moved bs } := by
        simp only [RecvStr.write, hf]
      have hlen : y.len = ofBytes y.sizeStr := by simp only [RecvStr.len, hf]
      have hfits : y.transfer.moved + bs.length ≤ y.str.length := by rw [(h.str hf).2]; omega
      rw [heq]
      refine ⟨?_, h.size, fun hb => ?_,
        fun _ => ⟨(h.str hf).1, (length_overwrite hfits).trans (h.str hf).2⟩,
        hlost, fun hput => ?_, fun hs => absurd hs hnot⟩
      · simp only [RecvStr.len, hf]
        exact hlen ▸ hloop
      · rw [hf] at hb
        cases hb
      · simp only [RecvStr.memory, hf, hmoved, overwrite_take hfits]
        rw [hkept hput, RecvStr.memory, hf, List.append_assoc]

/-- Only the last transfer matters for the result. -/
theorem RecvInv.withResult (h : RecvInv prev y) {r : Result}
    (hr : r.Success → y.transfer.outcome = .finished ∧ (y.field = .size → ofBytes y.sizeStr = 0)) :
    RecvInv prev { y with result := r } :=
  ⟨h.loop, h.size, h.before, h.str, h.progress_le, h.kept, hr⟩

/-- What is done when the call has returned. -/
theorem RecvInv.settle (h : RecvInv prev y) (hrun : y.result = .running) :
    RecvInv prev y.settle ∧ y.settle.taken = y.taken ∧
      y.settle.progress + y.transfer.givenUp = y.progress := by
  have hle := h.progress_le
  have hnot : ¬ y.result.Success := by rw [hrun]; exact id
  unfold Transfer.givenUp
  cases hout : y.transfer.outcome with
  | running =>
      have heq : y.settle = y := by simp only [RecvStr.settle, hout]
      rw [heq]
      exact ⟨h, rfl, rfl⟩
  | undefined =>
      have heq : y.settle = { y with result := .left } := by simp only [RecvStr.settle, hout]
      rw [heq]
      exact ⟨h.withResult False.elim, rfl, rfl⟩
  | failed errno =>
      by_cases hagain : errno = eagain
      · have heq : y.settle = { y with transfer := .start y.len } := by
          simp only [RecvStr.settle, hout, hagain, if_true]
        rw [heq, hagain, if_pos rfl]
        refine ⟨⟨?_, h.size, h.before, h.str, ?_, fun hput => ?_, fun hs => ?_⟩, ?_, ?_⟩
        · simp only [RecvStr.len]
          exact loopInv_start _
        · exact le_trans (Nat.le_add_right _ _) hle
        · have hput : y.taken.length = y.field.before := hput
          unfold RecvStr.progress at hle
          have hzero : y.transfer.moved = 0 := by omega
          show y.taken = RecvStr.memory { y with transfer := .start y.len }
          rw [h.kept (by rw [RecvStr.progress, hput, hzero, Nat.add_zero]), RecvStr.memory, hzero]
          rfl
        · exact absurd hs hnot
        · rfl
        · rfl
      · have heq : y.settle = { y with result := .returned (-1) } := by
          simp only [RecvStr.settle, hout, hagain, if_false]
        rw [heq, if_neg fun he => hagain (Outcome.failed.inj he)]
        exact ⟨h.withResult fun hs => absurd hs (by decide : ¬ (0 : ℤ) ≤ -1), rfl, rfl⟩
  | finished =>
      rw [if_neg nofun]
      cases hf : y.field with
      | size =>
          have hloop := h.loop
          simp only [RecvStr.len, hf] at hloop
          have hsame : y.progress = 8 := by
            rw [RecvStr.progress, hf, hloop.moved_eq_of_lt hout (by decide)]
            rfl
          by_cases hzero : ofBytes y.sizeStr = 0
          · have heq : y.settle = { y with result := .returned 0 } := by
              simp only [RecvStr.settle, hout, hf, hzero, if_true]
            rw [heq]
            exact ⟨h.withResult fun _ => ⟨hout, fun _ => hzero⟩, rfl, rfl⟩
          · by_cases hmax : maxSize < ofBytes y.sizeStr
            · have heq : y.settle = { y with result := .left } := by
                simp only [RecvStr.settle, hout, hf, hzero, hmax, if_false, if_true]
              rw [heq]
              exact ⟨h.withResult False.elim, rfl, rfl⟩
            · have heq : y.settle = { y with
                  field := .body
                  transfer := .start (ofBytes y.sizeStr)
                  str := List.replicate (ofBytes y.sizeStr) 0 } := by
                simp only [RecvStr.settle, hout, hf, hzero, hmax, if_false]
              rw [heq]
              refine ⟨⟨loopInv_start _, h.size, nofun,
                fun _ => ⟨Nat.pos_of_ne_zero hzero, List.length_replicate ..⟩, ?_,
                fun hput => ?_, fun hs => absurd hs hnot⟩, rfl, hsame.symm⟩
              · exact hsame.ge.trans hle
              · have hput : y.taken.length = 8 := hput
                show y.taken = y.sizeStr ++ List.take 0 (List.replicate (ofBytes y.sizeStr) 0)
                rw [h.kept (by omega), RecvStr.memory, hf, List.take_zero, List.append_nil]
                dsimp only
                rw [hloop.moved_eq_of_lt hout (by decide), List.take_of_length_le h.size.le]
      | body =>
          have heq : y.settle = { y with result := .returned (ofBytes y.sizeStr) } := by
            simp only [RecvStr.settle, hout, hf]
          rw [heq]
          exact ⟨h.withResult fun _ => ⟨hout, fun he => by rw [hf] at he; cases he⟩, rfl, rfl⟩

/-- **What a step of `recv_str` does.**  It keeps the invariant, and what it takes besides the
fields is the part of a transfer that it gives up. -/
theorem RecvInv.step (h : RecvInv prev y) {bs : Bytes} (hbs : bs.length = a.bytes)
    (ht : recvStrStep y a bs = some y') :
    RecvInv prev y' ∧ y'.taken = y.taken ++ bs ∧ y'.taken.length + y.progress =
      y.taken.length + y'.progress + if a = .error eagain then y.transfer.moved else 0 := by
  simp only [recvStrStep, Option.ite_none_right_eq_some, Option.map_eq_some_iff] at ht
  obtain ⟨hrun, t, hstep, rfl⟩ := ht
  have hfield : (y.write bs).field = y.field ∧ (y.write bs).result = y.result := by
    unfold RecvStr.write
    cases y.field <;> exact ⟨rfl, rfl⟩
  obtain ⟨hinv, hsame, hprogress⟩ := (h.take hrun hstep hbs).settle (hfield.2.trans hrun)
  have hmoved := transferStep_moved hstep
  rw [givenUp_eq hstep] at hprogress
  refine ⟨hinv, hsame, ?_⟩
  rw [hsame, List.length_append, hbs]
  have hbefore : (y.write bs).field.before = y.field.before := by rw [hfield.1]
  unfold RecvStr.progress at hprogress ⊢
  dsimp only at hprogress ⊢
  omega

/-! ### Both ends -/

/-- Bytes moved beyond the progress were given up before or are given up now. -/
theorem moved_eq_progress_iff {moved moved' progress progress' part : ℕ} {c : Prop} [Decidable c]
    (h : moved' + progress = moved + progress' + if c then part else 0) (hle : progress ≤ moved) :
    moved' = progress' ↔ moved = progress ∧ (c → part = 0) := by
  by_cases hc : c
  · simp only [hc, if_true, true_implies] at h ⊢
    omega
  · simp only [hc, if_false, false_implies, and_true] at h ⊢
    omega

/-- What holds in every run. -/
structure FramingInv (s prev : Bytes) (z : Framing) : Prop where
  send : SendInv s z.sender
  recv : RecvInv prev z.receiver
  taken : z.receiver.taken <+: z.stream
  later : z.later = [] ∨ z.sender.result.Success

/-- Neither end has given up a part of a transfer. -/
def Kept (z : Framing) : Prop :=
  z.sender.put.length = z.sender.progress ∧ z.receiver.taken.length = z.receiver.progress

theorem framingInv_start (s prev : Bytes) : FramingInv s prev (.start prev) :=
  ⟨sendInv_start s, recvInv_start prev, List.nil_prefix, .inl rfl⟩

/-- Every action keeps the invariant, and a part is given up where an action is not clean. -/
theorem FramingInv.step (h : FramingInv s prev z) {b : StringAction}
    (ht : framingStep s z b = some z') :
    FramingInv s prev z' ∧ (Kept z' ↔ Kept z ∧ Clean z b) := by
  have hsend := h.send.progress_le
  have hrecv := h.recv.progress_le
  cases b with
  | send a =>
      obtain ⟨x, hx, rfl⟩ := Option.map_eq_some_iff.1 ht
      obtain ⟨hinv, hput, hlost⟩ := h.send.step hx
      have hle := hinv.progress_le
      have hlater : z.later = [] := h.later.resolve_right fun hs => by
        simp only [sendStrStep, Option.ite_none_right_eq_some] at hx
        rw [hx.1] at hs
        exact hs
      refine ⟨⟨hinv, h.recv, ?_, .inl hlater⟩, ?_⟩
      · have htaken := h.taken
        unfold Framing.stream at htaken ⊢
        rw [hlater, List.append_nil] at htaken ⊢
        exact htaken.trans hput
      · unfold Kept Clean
        rw [moved_eq_progress_iff hlost hsend]
        tauto
  | recv a =>
      simp only [framingStep, Option.ite_none_right_eq_some, Option.map_eq_some_iff] at ht
      obtain ⟨hle, y, hy, rfl⟩ := ht
      have hlen : ((z.stream.drop z.receiver.taken.length).take a.bytes).length = a.bytes := by
        rw [List.length_take]
        omega
      obtain ⟨hinv, htaken, hlost⟩ := h.recv.step hlen hy
      refine ⟨⟨h.send, hinv, ?_, h.later⟩, ?_⟩
      · obtain ⟨rest, hrest⟩ := h.taken
        show y.taken <+: z.stream
        rw [htaken, ← hrest, List.drop_left]
        exact (List.prefix_append_right_inj _).2 (List.take_prefix _ _)
      · unfold Kept Clean
        rw [moved_eq_progress_iff hlost hrecv]
        tauto
  | later bs =>
      simp only [framingStep, Option.ite_none_right_eq_some, Option.some.injEq] at ht
      obtain ⟨hs, rfl⟩ := ht
      refine ⟨⟨h.send, h.recv, ?_, .inr hs⟩, (and_iff_left trivial).symm⟩
      exact h.taken.trans ((List.prefix_append_right_inj _).2 (List.prefix_append ..))

variable {as : List StringAction}

theorem framingInv_exec (h : exec (framingStep s) (.start prev) as = some z) :
    FramingInv s prev z :=
  exec_invariant (fun _ _ _ hs ht => (hs.step ht).1) (framingInv_start s prev) h

/-- **The clean runs** are those in which nothing was given up. -/
theorem clean_iff_kept (h : exec (framingStep s) (.start prev) as = some z) :
    Meets (framingStep s) Clean (.start prev) as ↔ Kept z := by
  rw [meets_iff_not (I := fun z => FramingInv s prev z ∧ Kept z)
    (B := fun z => FramingInv s prev z ∧ ¬ Kept z) (G := Clean)
    (fun z b z' hz hb ht => ⟨(hz.1.step ht).1, (hz.1.step ht).2.2 ⟨hz.2, hb⟩⟩)
    (fun z b z' hz hb ht => ⟨(hz.1.step ht).1, fun hk => hb ((hz.1.step ht).2.1 hk).2⟩)
    (fun z b z' hz ht => ⟨(hz.1.step ht).1, fun hk => hz.2 ((hz.1.step ht).2.1 hk).1⟩)
    (fun z hz hz' => hz'.2 hz.2) ⟨framingInv_start s prev, rfl, rfl⟩ h]
  rw [not_and, not_not]
  exact ⟨fun hk => hk (framingInv_exec h), fun hk _ => hk⟩

/-- A string that was sent was put as a whole, if its length fits. -/
theorem SendInv.progress_of_success (h : SendInv s x) (hs : x.result.Success)
    (hlen : s.length < 2 ^ 31) : x.progress = 8 + s.length := by
  obtain ⟨hout, hempty⟩ := h.success hs
  have hloop := h.loop
  unfold SendStr.progress
  cases hf : x.field with
  | size =>
      simp only [hf, Field.data, length_toBytes] at hloop
      rw [hloop.moved_eq_of_lt hout (by decide), hempty hf]
      rfl
  | body =>
      rw [hf] at hloop
      rw [hloop.moved_eq_of_lt hout hlen]
      rfl

/-- What was taken with nothing given up is what was put: the string. -/
theorem framed_of_kept (h : FramingInv s prev z) (hk : Kept z) (hsend : z.sender.result.Success)
    (hrecv : z.receiver.result.Success) (hlen : s.length < 2 ^ 31) (hempty : s = [] → prev = []) :
    Framed s z := by
  have hput : z.sender.put = frame s := by
    rw [h.send.kept hk.1, h.send.progress_of_success hsend hlen, ← length_frame, List.take_length]
  obtain ⟨hout, hzero⟩ := h.recv.success hrecv
  have hloop := h.recv.loop
  have htaken := h.recv.kept hk.2
  obtain ⟨rest, hrest⟩ := h.taken
  rw [Framing.stream, hput, frame, List.append_assoc] at hrest
  have hsize := h.recv.size
  have hread : ofBytes (toBytes 8 s.length) = s.length := ofBytes_toBytes_of_lt (by omega)
  cases hf : z.receiver.field with
  | size =>
      simp only [RecvStr.len, hf] at hloop
      rw [RecvStr.memory, hf] at htaken
      dsimp only at htaken
      rw [hloop.moved_eq_of_lt hout (by decide), List.take_of_length_le hsize.le] at htaken
      rw [htaken] at hrest
      obtain ⟨hbytes, -⟩ := List.append_inj hrest (by rw [hsize, length_toBytes])
      have hs : s = [] := by
        rw [← List.length_eq_zero_iff, ← hread, ← hbytes, hzero hf]
      refine ⟨?_, hput, ?_⟩
      · rw [h.recv.before hf, hempty hs, hs]
      · rw [htaken, hbytes, hs, frame, List.append_nil]
  | body =>
      simp only [RecvStr.len, hf] at hloop
      obtain ⟨-, hstr⟩ := h.recv.str hf
      rw [RecvStr.memory, hf] at htaken
      dsimp only at htaken
      rw [htaken, List.append_assoc] at hrest
      obtain ⟨hbytes, hrest⟩ := List.append_inj hrest (by rw [hsize, length_toBytes])
      rw [hbytes, hread] at hstr hloop
      rw [hloop.moved_eq_of_lt hout hlen, ← hstr, List.take_length] at htaken hrest
      obtain ⟨hsame, -⟩ := List.append_inj hrest hstr
      exact ⟨hsame, hput, by rw [htaken, hbytes, hsame, frame]⟩

/-- A string that arrived lost nothing on its way. -/
theorem kept_of_framed (h : FramingInv s prev z) (hz : Framed s z)
    (hsend : z.sender.result.Success) (hrecv : z.receiver.result.Success)
    (hlen : s.length < 2 ^ 31) (hprev : prev = s → s = []) : Kept z := by
  refine ⟨by rw [hz.put, length_frame, h.send.progress_of_success hsend hlen], ?_⟩
  obtain ⟨hout, -⟩ := h.recv.success hrecv
  have hloop := h.recv.loop
  rw [hz.taken, length_frame, RecvStr.progress]
  cases hf : z.receiver.field with
  | size =>
      have hs : s = [] := hprev ((h.recv.before hf).symm.trans hz.str)
      simp only [RecvStr.len, hf] at hloop
      rw [hloop.moved_eq_of_lt hout (by decide), hs]
      rfl
  | body =>
      simp only [RecvStr.len, hf, ← (h.recv.str hf).2, hz.str] at hloop
      rw [hloop.moved_eq_of_lt hout hlen]
      rfl

/-- A string that does not fit is not put as a whole, if nothing is put twice. -/
theorem lt_of_framed (h : FramingInv s prev z) (hk : Kept z) (hz : Framed s z)
    (hsend : z.sender.result.Success) : s.length < 2 ^ 31 := by
  obtain ⟨hout, hempty⟩ := h.send.success hsend
  have hput := hk.1
  rw [hz.put, length_frame, SendStr.progress] at hput
  cases hf : z.sender.field with
  | size =>
      rw [hempty hf]
      decide
  | body =>
      have hloop := h.send.loop
      rw [hf] at hloop hput
      exact hloop.lt_of_moved_eq hout (Nat.add_left_cancel hput).symm

/-- An empty string arrives only in an output that was empty. -/
theorem prev_of_framed (h : FramingInv s prev z) (hz : Framed s z) (hs : s = []) : prev = [] := by
  cases hf : z.receiver.field with
  | size => rw [← h.recv.before hf, hz.str, hs]
  | body =>
      have hstr := h.recv.str hf
      rw [hz.str, hs] at hstr
      exact absurd hstr.2 hstr.1.ne

/-- **When a string arrives.**  A string of less than 2^31 bytes that is not empty, or whose
output was empty, arrives in every clean run in which both ends report success.  And it arrives
in no other run, unless the run gives up a part of a transfer and either the string is too long
or its output had its value before. -/
theorem framed_of_clean (h : exec (framingStep s) (.start prev) as = some z)
    (hsend : z.sender.result.Success) (hrecv : z.receiver.result.Success) :
    (s.length < 2 ^ 31 ∧ (s = [] → prev = []) ∧ Meets (framingStep s) Clean (.start prev) as →
      Framed s z) ∧
    (Meets (framingStep s) Clean (.start prev) as ∨ s.length < 2 ^ 31 ∧ (prev = s → s = []) →
      Framed s z →
      s.length < 2 ^ 31 ∧ (s = [] → prev = []) ∧ Meets (framingStep s) Clean (.start prev) as) := by
  have hinv := framingInv_exec h
  rw [clean_iff_kept h]
  constructor
  · rintro ⟨hlen, hempty, hk⟩
    exact framed_of_kept hinv hk hsend hrecv hlen hempty
  · intro hor hz
    have hk : Kept z := by
      rcases hor with hk | ⟨hlen, hprev⟩
      · exact hk
      · exact kept_of_framed hinv hz hsend hrecv hlen hprev
    exact ⟨lt_of_framed hinv hk hz hsend, prev_of_framed hinv hz, hk⟩

/-- Two bytes sent in short transfers. -/
def shortTransfers : List StringAction :=
  [.send (.done 3), .send (.done 5), .recv (.done 8), .send (.error eagain), .send (.done 1),
    .recv (.done 1), .send (.done 1), .recv (.done 1)]

theorem framed_shortTransfers :
    ∃ z, exec (framingStep [7, 9]) (.start [1]) shortTransfers = some z ∧
    Framed [7, 9] z := by
  obtain ⟨z, hz, hs, hr, hc⟩ : ∃ z, exec (framingStep [7, 9]) (.start [1]) shortTransfers = some z ∧
      z.sender.result.Success ∧ z.receiver.result.Success ∧
      Meets (framingStep [7, 9]) Clean (.start [1]) shortTransfers :=
    ⟨_, rfl, by decide, by decide, by decide⟩
  exact ⟨z, hz, (framed_of_clean hz hs hr).1 ⟨by decide, nofun, hc⟩⟩

/-- `EAGAIN` after one of two bytes: the byte is put on the stream twice. -/
def cutShort : List StringAction :=
  [.send (.done 8), .send (.done 1), .send (.error eagain), .send (.done 2), .recv (.done 8),
    .recv (.done 2)]

/-- The string is received with its first byte twice, and its last byte is left on the stream. -/
theorem framed_cutShort : ∃ z, exec (framingStep [7, 9]) (.start []) cutShort = some z ∧
    z.sender.result.Success ∧ z.receiver.result.Success ∧ z.receiver.str = [7, 7] ∧
    ¬ Framed [7, 9] z := by
  refine ⟨_, rfl, by decide, by decide, by decide, fun h => ?_⟩
  exact absurd h.str (by decide)

end Socket
end Lfi
