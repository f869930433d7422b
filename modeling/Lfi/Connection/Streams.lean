/-
# Where a side is in the two streams

The two streams between the sides are known from the start.  `SideInv` says where in them
a side is: what it has written with what its remaining steps write is its own stream, what
it has read with what they read is the other's.  It follows that a step reads what is
meant for it, however the bytes arrive (`SideInv.read`).
-/

import Lfi.Connection.Lockstep

namespace Lfi
namespace Connection

open Data HandshakeStep

variable {host : Role → Host}

variable (host) in
/-- What a step of a side reads. -/
def inn (r : Role) (step : HandshakeStep) : Bytes := (partner step).elim [] (out host r.other)

variable (host) in
/-- The bytes the steps `l` of a side write. -/
def outStream (r : Role) (l : List HandshakeStep) : Bytes :=
  (l.filter writes).flatMap (out host r)

variable (host) in
/-- The bytes the steps `l` of a side read. -/
def inStream (r : Role) (l : List HandshakeStep) : Bytes :=
  (l.filterMap partner).flatMap (out host r.other)

/-- The bytes of the current step that are written. -/
def Side.movedOut (x : Side) : ℕ := if x.rest.head?.any writes then x.moved else 0

/-- The bytes of the current step that are read. -/
def Side.movedIn (x : Side) : ℕ :=
  if x.rest.head?.any fun step => (partner step).isSome then x.moved else 0

variable (host) in
/-- What holds of a side at every point of a run: it knows what it should, the current step
is not over, and what is done and what is to come make up the streams. -/
structure SideInv (ft : Bool) (s : Exchange) (r : Role) : Prop where
  suffix : (s.side r).rest <:+ handshake r ft
  known : Known host ft r (s.side r).rest (s.side r)
  movedOut : ∀ step ∈ (s.side r).rest.head?, writes step = true →
    (s.side r).moved < (out host r step).length
  movedIn : ∀ step ∈ (s.side r).rest.head?, ∀ p, partner step = some p →
    (s.side r).moved < (out host r.other p).length ∧
      (s.side r).buffer = (out host r.other p).take (s.side r).moved
  written : s.written r ++ (outStream host r (s.side r).rest).drop (s.side r).movedOut =
    outStream host r (handshake r ft)
  consumed : s.consumed r ++ (inStream host r (s.side r).rest).drop (s.side r).movedIn =
    inStream host r (handshake r ft)
  inOrder : s.consumed r <+: s.written r.other
  sent : s.sent r + (s.side r).rest.count .send = 1
  received : s.received r + (s.side r).rest.count .recv = 1

/-- The two streams between the sides. -/
theorem inStream_handshake (r : Role) (ft : Bool) :
    inStream host r (handshake r ft) = outStream host r.other (handshake r.other ft) := by
  rw [inStream, outStream, lockstep]

theorem outStream_cons (r : Role) (step : HandshakeStep) (rest : List HandshakeStep) :
    outStream host r (step :: rest) = out host r step ++ outStream host r rest := by
  cases step <;> rfl

theorem inStream_cons (r : Role) (step : HandshakeStep) (rest : List HandshakeStep) :
    inStream host r (step :: rest) = inn host r step ++ inStream host r rest := by
  cases step <;> rfl

theorem inn_of_partner {r : Role} {step p : HandshakeStep} (h : partner step = some p) :
    inn host r step = out host r.other p := by
  rw [inn, h]; rfl

theorem inn_of_none {r : Role} {step : HandshakeStep} (h : partner step = none) :
    inn host r step = [] := by
  rw [inn, h]; rfl

theorem out_of_not_writes {r : Role} {step : HandshakeStep} (h : writes step = false) :
    out host r step = [] := by
  cases step <;> first | rfl | cases h

/-- A step that reads does not write. -/
theorem writes_of_partner {step p : HandshakeStep} (h : partner step = some p) :
    writes step = false := by
  cases step <;> cases h <;> rfl

/-- A step that writes does not read. -/
theorem partner_of_writes {step : HandshakeStep} (h : writes step = true) :
    partner step = none := by
  cases step <;> cases h <;> rfl

theorem writes_partner {step p : HandshakeStep} (h : partner step = some p) :
    writes p = true := by
  cases step <;> cases h <;> rfl

@[simp] theorem Side.movedOut_next (x : Side) (rest : List HandshakeStep) :
    (x.next rest).movedOut = 0 := by
  unfold Side.movedOut; split <;> rfl

@[simp] theorem Side.movedIn_next (x : Side) (rest : List HandshakeStep) :
    (x.next rest).movedIn = 0 := by
  unfold Side.movedIn; split <;> rfl

theorem Side.movedOut_of_rest {x : Side} {step : HandshakeStep} {rest : List HandshakeStep}
    (h : x.rest = step :: rest) : x.movedOut = if writes step then x.moved else 0 := by
  rw [Side.movedOut, h]; rfl

theorem Side.movedIn_of_rest {x : Side} {step : HandshakeStep} {rest : List HandshakeStep}
    (h : x.rest = step :: rest) : x.movedIn = if (partner step).isSome then x.moved else 0 := by
  rw [Side.movedIn, h]; rfl

/-- What a side knows does not depend on where it is in its step. -/
theorem Known.next {ft : Bool} {r : Role} {l : List HandshakeStep} {x : Side}
    (hk : Known host ft r l x) (rest : List HandshakeStep) : Known host ft r l (x.next rest) := by
  intro p hp hl
  have h := hk p hp hl
  cases p <;> exact h

theorem Known.moved {ft : Bool} {r : Role} {l : List HandshakeStep} {x : Side}
    (hk : Known host ft r l x) (n : ℕ) (buffer : Bytes) :
    Known host ft r l { x with moved := n, buffer := buffer } := by
  intro p hp hl
  have h := hk p hp hl
  cases p <;> exact h

theorem sideInv_start (ft : Bool) (r : Role) : SideInv host ft (Exchange.start ft) r where
  suffix := List.suffix_rfl
  known := fun _ hp hn => absurd hp hn
  movedOut := fun _ _ h => length_out_pos r h
  movedIn := fun _ _ _ h => ⟨length_out_pos r.other (writes_partner h), rfl⟩
  written := by
    rw [show ((Exchange.start ft).side r).movedOut = 0 by
      rw [Side.movedOut]; split <;> rfl]
    rfl
  consumed := by
    rw [show ((Exchange.start ft).side r).movedIn = 0 by
      rw [Side.movedIn]; split <;> rfl]
    rfl
  inOrder := List.prefix_rfl
  sent := by
    rw [show ((Exchange.start ft).side r).rest = handshake r ft from rfl, (count_fabric r ft).1]
    rfl
  received := by
    rw [show ((Exchange.start ft).side r).rest = handshake r ft from rfl, (count_fabric r ft).2]
    rfl

/-! ### What a step preserves -/

variable {ft : Bool} {s t : Exchange} {r : Role} {step : HandshakeStep}
  {rest : List HandshakeStep}

/-- The other side has acted. -/
theorem SideInv.frame (hs : SideInv host ft s r) (hside : t.side r = s.side r)
    (hw : t.written r = s.written r) (hc : t.consumed r = s.consumed r)
    (hsent : t.sent r = s.sent r) (hrecv : t.received r = s.received r)
    (horder : s.written r.other <+: t.written r.other) : SideInv host ft t r where
  suffix := hside ▸ hs.suffix
  known := hside ▸ hs.known
  movedOut := hside ▸ hs.movedOut
  movedIn := hside ▸ hs.movedIn
  written := by rw [hside, hw]; exact hs.written
  consumed := by rw [hside, hc]; exact hs.consumed
  inOrder := hc ▸ hs.inOrder.trans horder
  sent := by rw [hside, hsent]; exact hs.sent
  received := by rw [hside, hrecv]; exact hs.received

/-- The current step is over. -/
theorem SideInv.next (hs : SideInv host ft s r) (hrest : (s.side r).rest = step :: rest)
    {y : Side} (hside : t.side r = y.next rest) (hk : Known host ft r rest y)
    (hw : t.written r = s.written r ++ (out host r step).drop (s.side r).movedOut)
    (hc : t.consumed r = s.consumed r ++ (inn host r step).drop (s.side r).movedIn)
    (horder : t.consumed r <+: t.written r.other)
    (hsent : t.sent r = s.sent r + [step].count .send)
    (hrecv : t.received r = s.received r + [step].count .recv) : SideInv host ft t r where
  suffix := by
    rw [hside]
    exact (List.suffix_cons step rest).trans (hrest ▸ hs.suffix)
  known := hside ▸ hk.next rest
  movedOut := by rw [hside]; exact fun _ _ h => length_out_pos r h
  movedIn := by rw [hside]; exact fun _ _ _ h => ⟨length_out_pos r.other (writes_partner h), rfl⟩
  written := by
    have hle : (s.side r).movedOut ≤ (out host r step).length := by
      rw [Side.movedOut, hrest]
      split
      case isTrue h => exact (hs.movedOut step (by rw [hrest]; rfl) h).le
      case isFalse => exact Nat.zero_le _
    rw [← hs.written, hrest, outStream_cons, List.drop_append_of_le_length hle, hside, hw,
      Side.movedOut_next, List.append_assoc]
    rfl
  consumed := by
    have hle : (s.side r).movedIn ≤ (inn host r step).length := by
      rw [Side.movedIn, hrest]
      split
      case isTrue h =>
        obtain ⟨p, hp⟩ := Option.isSome_iff_exists.1 h
        rw [inn_of_partner hp]
        exact (hs.movedIn step (by rw [hrest]; rfl) p hp).1.le
      case isFalse => exact Nat.zero_le _
    rw [← hs.consumed, hrest, inStream_cons, List.drop_append_of_le_length hle, hside, hc,
      Side.movedIn_next, List.append_assoc]
    rfl
  inOrder := horder
  sent := by
    rw [← hs.sent, hsent, hrest, hside, Nat.add_assoc, ← List.count_append]
    rfl
  received := by
    rw [← hs.received, hrecv, hrest, hside, Nat.add_assoc, ← List.count_append]
    rfl

/-- What is on its way is what comes next in the stream. -/
theorem SideInv.inFlight_take (hs : SideInv host ft s r) (ho : SideInv host ft s r.other) {n : ℕ}
    (hn : n ≤ (s.inFlight r).length) :
    (s.inFlight r).take n =
      ((inStream host r (s.side r).rest).drop (s.side r).movedIn).take n := by
  obtain ⟨w, hw⟩ := hs.inOrder
  have hflight : s.inFlight r = w := by
    rw [Exchange.inFlight, ← hw, List.drop_left]
  have hstream := hs.consumed
  rw [inStream_handshake, ← ho.written, ← hw, List.append_assoc] at hstream
  rw [List.append_cancel_left hstream, hflight, List.take_append_of_le_length (hflight ▸ hn)]

/-- A part of a list from `m` on, and the part after it. -/
theorem take_drop_append {α : Type*} {l l' : List α} {m n : ℕ} (h : m + n ≤ l.length) :
    (l.drop m).take n ++ (l ++ l').drop (m + n) = (l ++ l').drop m := by
  rw [← List.drop_drop, List.drop_append_of_le_length (by omega : m ≤ l.length),
    List.drop_append_of_le_length (by rw [List.length_drop]; omega), ← List.append_assoc,
    List.take_append_drop]

/-- Some bytes of the current step are written. -/
theorem SideInv.wrote (hs : SideInv host ft s r) (hrest : (s.side r).rest = step :: rest)
    (hstep : writes step = true) (hk : Known host ft r rest (s.side r)) {n : ℕ}
    (hn : (s.side r).moved + n ≤ (out host r step).length)
    (hside : t.side r = if (out host r step).length ≤ (s.side r).moved + n
      then (s.side r).next rest else { s.side r with moved := (s.side r).moved + n })
    (hw : t.written r = s.written r ++ ((out host r step).drop (s.side r).moved).take n)
    (hwo : t.written r.other = s.written r.other) (hc : t.consumed r = s.consumed r)
    (hsent : t.sent r = s.sent r) (hrecv : t.received r = s.received r) :
    SideInv host ft t r := by
  have hpartner := partner_of_writes hstep
  have hout : (s.side r).movedOut = (s.side r).moved := by
    rw [Side.movedOut_of_rest hrest, if_pos hstep]
  have hin : (s.side r).movedIn = 0 := by
    rw [Side.movedIn_of_rest hrest, hpartner]; rfl
  have hne : step ≠ .send ∧ step ≠ .recv := by
    constructor <;> rintro rfl <;> cases hstep
  split at hside
  case isTrue hdone =>
    refine hs.next hrest hside hk ?_ ?_ (by rw [hc, hwo]; exact hs.inOrder) ?_ ?_
    · rw [hw, hout, List.take_of_length_le]
      rw [List.length_drop]
      omega
    · rw [hc, inn_of_none hpartner, List.drop_nil, List.append_nil]
    · rw [hsent, List.count_singleton, if_neg (by simpa using hne.1), Nat.add_zero]
    · rw [hrecv, List.count_singleton, if_neg (by simpa using hne.2), Nat.add_zero]
  case isFalse hmore =>
    have hrest' : (t.side r).rest = step :: rest := by rw [hside]; exact hrest
    have hout' : (t.side r).movedOut = (s.side r).moved + n := by
      rw [Side.movedOut_of_rest hrest', if_pos hstep, hside]
    have hin' : (t.side r).movedIn = 0 := by
      rw [Side.movedIn_of_rest hrest', hpartner]; rfl
    refine ⟨by rw [hside]; exact hs.suffix, by rw [hside]; exact hs.known.moved _ _, ?_, ?_, ?_, ?_,
      by rw [hc, hwo]; exact hs.inOrder, by rw [hside, hsent]; exact hs.sent,
      by rw [hside, hrecv]; exact hs.received⟩
    · intro q hq _
      rw [hside, hrest] at hq
      obtain rfl := Option.some.inj hq
      rw [hside]
      exact Nat.lt_of_not_le hmore
    · intro q hq p hp
      rw [hside, hrest] at hq
      obtain rfl := Option.some.inj hq
      rw [hpartner] at hp
      cases hp
    · rw [← hs.written, hout, hout', hw, hside, hrest, outStream_cons, List.append_assoc,
        take_drop_append hn]
    · rw [← hs.consumed, hin, hin', hc, hside]

/-- Some bytes of the current step are read. -/
theorem SideInv.read (hs : SideInv host ft s r) (ho : SideInv host ft s r.other)
    (hrest : (s.side r).rest = step :: rest) {p : HandshakeStep} (hstep : partner step = some p)
    {y : Side} {n : ℕ}
    (hk : (s.side r).buffer ++ (s.inFlight r).take n = out host r.other p →
      Known host ft r rest y)
    (hn : (s.side r).moved + n ≤ (out host r.other p).length) (hflight : n ≤ (s.inFlight r).length)
    (hside : t.side r = if (out host r.other p).length ≤ (s.side r).moved + n then y.next rest
      else { s.side r with
        moved := (s.side r).moved + n
        buffer := (s.side r).buffer ++ (s.inFlight r).take n })
    (hc : t.consumed r = s.consumed r ++ (s.inFlight r).take n)
    (hw : t.written = s.written) (hsent : t.sent r = s.sent r)
    (hrecv : t.received r = s.received r) :
    SideInv host ft t r := by
  have hwrites := writes_of_partner hstep
  have hout : (s.side r).movedOut = 0 := by
    rw [Side.movedOut_of_rest hrest, hwrites]; rfl
  have hin : (s.side r).movedIn = (s.side r).moved := by
    rw [Side.movedIn_of_rest hrest, hstep]; rfl
  have hne : step ≠ .send ∧ step ≠ .recv := by
    constructor <;> rintro rfl <;> cases hstep
  have hbuffer := (hs.movedIn step (by rw [hrest]; rfl) p hstep).2
  -- what arrives is the next part of what the partner writes
  have hgot : (s.inFlight r).take n = ((out host r.other p).drop (s.side r).moved).take n := by
    rw [hs.inFlight_take ho hflight, hin, hrest, inStream_cons, inn_of_partner hstep,
      List.drop_append_of_le_length (by omega),
      List.take_append_of_le_length (by rw [List.length_drop]; omega)]
  have horder : t.consumed r <+: t.written r.other := by
    obtain ⟨w, hw'⟩ := hs.inOrder
    rw [hc, hw, ← hw', Exchange.inFlight, ← hw', List.drop_left]
    exact (List.prefix_append_right_inj _).2 (List.take_prefix n w)
  split at hside
  case isTrue hdone =>
    have hall : ((out host r.other p).drop (s.side r).moved).take n =
        (out host r.other p).drop (s.side r).moved :=
      List.take_of_length_le (by rw [List.length_drop]; omega)
    refine hs.next hrest hside (hk ?_) ?_ ?_ horder ?_ ?_
    · rw [hgot, hall, hbuffer, List.take_append_drop]
    · rw [hw, hout, out_of_not_writes hwrites, List.drop_nil, List.append_nil]
    · rw [hc, hgot, hall, hin, inn_of_partner hstep]
    · rw [hsent, List.count_singleton, if_neg (by simpa using hne.1), Nat.add_zero]
    · rw [hrecv, List.count_singleton, if_neg (by simpa using hne.2), Nat.add_zero]
  case isFalse hmore =>
    have hrest' : (t.side r).rest = step :: rest := by rw [hside]; exact hrest
    have hout' : (t.side r).movedOut = 0 := by
      rw [Side.movedOut_of_rest hrest', hwrites]; rfl
    have hin' : (t.side r).movedIn = (s.side r).moved + n := by
      rw [Side.movedIn_of_rest hrest', hstep, hside]; rfl
    refine ⟨by rw [hside]; exact hs.suffix, by rw [hside]; exact hs.known.moved _ _, ?_, ?_, ?_, ?_,
      horder, by rw [hside, hsent]; exact hs.sent, by rw [hside, hrecv]; exact hs.received⟩
    · intro q hq hqw
      rw [hrest'] at hq
      obtain rfl := Option.some.inj hq
      rw [hwrites] at hqw
      cases hqw
    · intro q hq p' hp'
      rw [hrest'] at hq
      obtain rfl := Option.some.inj hq
      obtain rfl := Option.some.inj (hstep.symm.trans hp')
      rw [hside]
      refine ⟨Nat.lt_of_not_le hmore, ?_⟩
      rw [hbuffer, hgot, ← List.take_add]
    · rw [← hs.written, hout, hout', hw, hside]
    · rw [← hs.consumed, hin, hin', hc, hgot, hside, hrest, inStream_cons, inn_of_partner hstep,
        List.append_assoc, take_drop_append hn]

end Connection
end Lfi
