/-
# Parties that post batches and wait for them

Each party runs through a fixed sequence of batches.  In a batch it posts sends
and receives one after the other, without waiting in between, and then waits
until all of them are complete; only then does the next batch begin.  Messages
travel on channels, one for each sender, receiver and tag, and a channel is
first in, first out: its `k`-th message completes its `k`-th receive.  So a
channel is four numbers, the sends and receives posted on it, the deliveries and
the completed sends, and a receive is complete when the deliveries have reached
its number.  A send completes at any moment after it was posted.

What a party has posted is a prefix of its program (`posted`), the counters of a
channel are the occurrences of its sends and receives there (`NetInv.sends_eq`,
`NetInv.recvs_eq`), and a party past a batch has been delivered all it asked for
(`NetInv.got`).  Hence the receives of the finished batches of one party are
matched by sends (`NetInv.count_recv_le_sends`), and when every batch exchanges
one message nobody finishes a batch its partner has not started
(`NetInv.finished_le_started`).
-/

import Lfi.Runs.Basic
import Mathlib.Logic.Function.Basic

namespace Lfi
namespace Runs

/-- A channel: sender, receiver and tag. -/
structure Chan (P T : Type*) where
  src : P
  dst : P
  tag : T
  deriving DecidableEq

/-- A posted operation: a send to a party or a receive from one. -/
inductive Op (P T : Type*) where
  | send (dst : P) (tag : T)
  | recv (src : P) (tag : T)
  deriving DecidableEq

/-- Where a party is: the batches it has started and finished, and how many
operations of the current one it has posted. -/
structure Party where
  started : ℕ
  finished : ℕ
  posted : ℕ

/-- The parties and the four counters of every channel. -/
structure Net (P T : Type*) where
  party : P → Party
  sends : Chan P T → ℕ
  recvs : Chan P T → ℕ
  delivered : Chan P T → ℕ
  acked : Chan P T → ℕ

/-- A party enters a batch, posts its next operation or leaves the batch; a
message is delivered; a send completes. -/
inductive NetAction (P T : Type*) where
  | start (p : P)
  | post (p : P)
  | finish (p : P)
  | deliver (c : Chan P T)
  | ack (c : Chan P T)

section Steps

variable {P T : Type*} [DecidableEq P] [DecidableEq T] (batch : P → ℕ → List (Op P T))

/-- Nothing has been posted. -/
def netInit : Net P T := ⟨fun _ => ⟨0, 0, 0⟩, fun _ => 0, fun _ => 0, fun _ => 0, fun _ => 0⟩

/-- One more on a channel. -/
def bump (f : Chan P T → ℕ) (c : Chan P T) : Chan P T → ℕ := Function.update f c (f c + 1)

/-- The party is inside a batch. -/
def Party.Inside (x : Party) : Prop := x.started = x.finished + 1

instance (x : Party) : Decidable x.Inside := inferInstanceAs (Decidable (_ = _))

/-- The operations of `p` on the channel of `o` are complete. -/
def OpDone (s : Net P T) (p : P) : Op P T → Prop
  | .send q t => s.acked ⟨p, q, t⟩ = s.sends ⟨p, q, t⟩
  | .recv q t => s.delivered ⟨q, p, t⟩ = s.recvs ⟨q, p, t⟩

instance (s : Net P T) (p : P) : DecidablePred (OpDone s p) := fun o => by
  cases o <;> exact inferInstanceAs (Decidable (_ = _))

/-- The state with one operation of `p` posted. -/
def postOp (s : Net P T) (p : P) : Op P T → Net P T
  | .send q t => { s with sends := bump s.sends ⟨p, q, t⟩ }
  | .recv q t => { s with recvs := bump s.recvs ⟨q, p, t⟩ }

/-- The state with the party `p` replaced. -/
def Net.setParty (s : Net P T) (p : P) (x : Party) : Net P T :=
  { s with party := Function.update s.party p x }

/-- One step. -/
def netStep (s : Net P T) : NetAction P T → Option (Net P T)
  | .start p =>
      let x := s.party p
      if x.Inside then none else some (s.setParty p ⟨x.started + 1, x.finished, 0⟩)
  | .post p =>
      let x := s.party p
      if x.Inside then
        (batch p x.finished)[x.posted]?.map fun o =>
          (postOp s p o).setParty p { x with posted := x.posted + 1 }
      else none
  | .finish p =>
      let x := s.party p
      if x.Inside ∧ x.posted = (batch p x.finished).length ∧
          ∀ o ∈ batch p x.finished, OpDone s p o then
        some (s.setParty p ⟨x.started, x.finished + 1, 0⟩)
      else none
  | .deliver c =>
      if s.delivered c < s.sends c ∧ s.delivered c < s.recvs c then
        some { s with delivered := bump s.delivered c }
      else none
  | .ack c =>
      if s.acked c < s.sends c then some { s with acked := bump s.acked c } else none

/-- The first `k` batches of `p`. -/
def batches (p : P) (k : ℕ) : List (Op P T) := (List.range k).flatMap (batch p)

/-- What `p` has posted so far. -/
def posted (s : Net P T) (p : P) : List (Op P T) :=
  batches batch p (s.party p).finished ++
    (batch p (s.party p).finished).take (s.party p).posted

/-- What holds at every point of a run: a party outside a batch has posted
nothing of the next one, the counters count what was posted, no message is
delivered before it was sent, and what a party asked for in its finished batches
has been delivered. -/
structure NetInv (s : Net P T) : Prop where
  outside : ∀ p, ¬ (s.party p).Inside → (s.party p).posted = 0
  started_le : ∀ p, (s.party p).finished ≤ (s.party p).started ∧
    (s.party p).started ≤ (s.party p).finished + 1
  sends_eq : ∀ c, s.sends c = (posted batch s c.src).count (.send c.dst c.tag)
  recvs_eq : ∀ c, s.recvs c = (posted batch s c.dst).count (.recv c.src c.tag)
  delivered_le : ∀ c, s.delivered c ≤ s.sends c
  got : ∀ c, (batches batch c.dst (s.party c.dst).finished).count (.recv c.src c.tag) ≤
    s.delivered c

/-! ### What has been posted -/

variable {batch} {s t : Net P T}

omit [DecidableEq P] [DecidableEq T] in
theorem batches_succ (p : P) (k : ℕ) :
    batches batch p (k + 1) = batches batch p k ++ batch p k := by
  simp [batches, List.range_succ]

/-- An operation every batch contains `m` times occurs `k * m` times in `k`
batches. -/
theorem count_batches {p : P} {o : Op P T} {m : ℕ} (h : ∀ k, (batch p k).count o = m) (k : ℕ) :
    (batches batch p k).count o = k * m := by
  induction k with
  | zero => simp [batches]
  | succ k ih => rw [batches_succ, List.count_append, ih, h, Nat.succ_mul]

theorem bump_apply (f : Chan P T → ℕ) (c d : Chan P T) :
    bump f c d = if d = c then f d + 1 else f d := by
  unfold bump
  split
  case isTrue h => rw [h, Function.update_self]
  case isFalse h => rw [Function.update_of_ne h]

section Parties

omit [DecidableEq T]

@[simp] theorem Net.setParty_party (p : P) (x : Party) :
    (s.setParty p x).party = Function.update s.party p x := rfl

@[simp] theorem Net.setParty_sends (p : P) (x : Party) : (s.setParty p x).sends = s.sends := rfl

@[simp] theorem Net.setParty_recvs (p : P) (x : Party) : (s.setParty p x).recvs = s.recvs := rfl

@[simp] theorem Net.setParty_delivered (p : P) (x : Party) :
    (s.setParty p x).delivered = s.delivered := rfl

end Parties

@[simp] theorem postOp_party (p : P) (o : Op P T) : (postOp s p o).party = s.party := by
  cases o <;> rfl

@[simp] theorem postOp_delivered (p : P) (o : Op P T) :
    (postOp s p o).delivered = s.delivered := by
  cases o <;> rfl

/-- Posting an operation adds one to the sends of its channel. -/
theorem postOp_sends (p : P) (o : Op P T) (c : Chan P T) :
    (postOp s p o).sends c =
      s.sends c + if p = c.src ∧ o = .send c.dst c.tag then 1 else 0 := by
  rcases c with ⟨q, r, t⟩
  cases o with
  | send r' t' =>
      simp only [postOp, bump_apply, Chan.mk.injEq, Op.send.injEq]
      split <;> split <;> simp_all
  | recv q' t' => simp [postOp]

/-- Posting an operation adds one to the receives of its channel. -/
theorem postOp_recvs (p : P) (o : Op P T) (c : Chan P T) :
    (postOp s p o).recvs c =
      s.recvs c + if p = c.dst ∧ o = .recv c.src c.tag then 1 else 0 := by
  rcases c with ⟨q, r, t⟩
  cases o with
  | send r' t' => simp [postOp]
  | recv q' t' =>
      simp only [postOp, bump_apply, Chan.mk.injEq, Op.recv.injEq]
      split <;> split <;> simp_all

omit [DecidableEq P] [DecidableEq T] in
/-- What a party has posted depends on that party only. -/
theorem posted_congr {p : P} (h : t.party p = s.party p) : posted batch t p = posted batch s p := by
  rw [posted, h]; rfl

omit [DecidableEq T] in
/-- Entering a batch posts nothing. -/
theorem posted_start {p : P} (h : (s.party p).posted = 0) {m : ℕ} (q : P) :
    posted batch (s.setParty p ⟨m, (s.party p).finished, 0⟩) q = posted batch s q := by
  by_cases hq : q = p
  · subst hq; simp [posted, h]
  · exact posted_congr (by simp [hq])

omit [DecidableEq T] in
/-- Posting adds the operation at the end. -/
theorem posted_post {p : P} {o : Op P T}
    (ho : (batch p (s.party p).finished)[(s.party p).posted]? = some o) {t : Net P T}
    (ht : t.party = Function.update s.party p { s.party p with posted := (s.party p).posted + 1 })
    (q : P) :
    posted batch t q = posted batch s q ++ if q = p then [o] else [] := by
  by_cases hq : q = p
  · subst hq
    simp [posted, ht, List.take_add_one, ho]
  · simp [posted, ht, hq]

/-- How often the operation a party posts is the one asked for. -/
theorem count_ite_singleton (p q : P) (o o' : Op P T) :
    (if q = p then [o] else []).count o' = if p = q ∧ o = o' then 1 else 0 := by
  by_cases hq : q = p
  · by_cases ho : o = o'
    · simp [hq, ho]
    · simp [hq, ho]
  · simp [hq, Ne.symm hq]

omit [DecidableEq T] in
/-- Leaving a batch all of which was posted posts nothing. -/
theorem posted_finish {p : P} {m : ℕ}
    (h : (s.party p).posted = (batch p (s.party p).finished).length) (q : P) :
    posted batch (s.setParty p ⟨m, (s.party p).finished + 1, 0⟩) q = posted batch s q := by
  by_cases hq : q = p
  · subst hq; simp [posted, h, batches_succ]
  · exact posted_congr (by simp [hq])

/-! ### The invariant -/

/-- The five steps. -/
theorem netStep_cases {a : NetAction P T} (h : netStep batch s a = some t) :
    (∃ p, a = .start p ∧ ¬ (s.party p).Inside ∧
      t = s.setParty p ⟨(s.party p).started + 1, (s.party p).finished, 0⟩) ∨
    (∃ p o, a = .post p ∧ (s.party p).Inside ∧
      (batch p (s.party p).finished)[(s.party p).posted]? = some o ∧
      t = (postOp s p o).setParty p { s.party p with posted := (s.party p).posted + 1 }) ∨
    (∃ p, a = .finish p ∧ (s.party p).Inside ∧
      (s.party p).posted = (batch p (s.party p).finished).length ∧
      (∀ o ∈ batch p (s.party p).finished, OpDone s p o) ∧
      t = s.setParty p ⟨(s.party p).started, (s.party p).finished + 1, 0⟩) ∨
    (∃ c, a = .deliver c ∧ s.delivered c < s.sends c ∧ s.delivered c < s.recvs c ∧
      t = { s with delivered := bump s.delivered c }) ∨
    (∃ c, a = .ack c ∧ t = { s with acked := bump s.acked c }) := by
  cases a with
  | start p =>
      simp only [netStep] at h
      split at h
      case isTrue => cases h
      case isFalse hp => exact .inl ⟨p, rfl, hp, (Option.some.inj h).symm⟩
  | post p =>
      simp only [netStep] at h
      split at h
      case isTrue hp =>
        obtain ⟨o, ho, rfl⟩ := Option.map_eq_some_iff.1 h
        exact .inr (.inl ⟨p, o, rfl, hp, ho, rfl⟩)
      case isFalse => cases h
  | finish p =>
      simp only [netStep] at h
      split at h
      case isTrue hp =>
        exact .inr (.inr (.inl ⟨p, rfl, hp.1, hp.2.1, hp.2.2, (Option.some.inj h).symm⟩))
      case isFalse => cases h
  | deliver c =>
      simp only [netStep] at h
      split at h
      case isTrue hc =>
        exact .inr (.inr (.inr (.inl ⟨c, rfl, hc.1, hc.2, (Option.some.inj h).symm⟩)))
      case isFalse => cases h
  | ack c =>
      simp only [netStep] at h
      split at h
      case isTrue => exact .inr (.inr (.inr (.inr ⟨c, rfl, (Option.some.inj h).symm⟩)))
      case isFalse => cases h

theorem netInv_init : NetInv batch (netInit : Net P T) := by
  constructor <;> simp [netInit, posted, batches]

/-- All that a party past a batch asked for there has been delivered. -/
theorem NetInv.got_finish (hs : NetInv batch s) {c : Chan P T}
    (hp : (s.party c.dst).posted = (batch c.dst (s.party c.dst).finished).length)
    (hdone : ∀ o ∈ batch c.dst (s.party c.dst).finished, OpDone s c.dst o) :
    (batches batch c.dst ((s.party c.dst).finished + 1)).count (.recv c.src c.tag) ≤
      s.delivered c := by
  by_cases hmem : Op.recv c.src c.tag ∈ batch c.dst (s.party c.dst).finished
  · have hall : s.delivered c = s.recvs c := hdone _ hmem
    exact Nat.le_of_eq (by rw [hall, hs.recvs_eq, posted, hp, List.take_length, batches_succ])
  · rw [batches_succ, List.count_append, List.count_eq_zero.2 hmem]
    exact hs.got c

/-- **The invariant survives every step.** -/
theorem NetInv.step (hs : NetInv batch s) {a : NetAction P T} (h : netStep batch s a = some t) :
    NetInv batch t := by
  rcases netStep_cases h with ⟨p, -, hp, rfl⟩ | ⟨p, o, -, hp, ho, rfl⟩ | ⟨p, -, hp, hl, hd, rfl⟩ |
    ⟨c, -, hc, -, rfl⟩ | ⟨c, -, rfl⟩
  · -- a party enters a batch
    have hpost := hs.outside p hp
    refine ⟨fun q => ?_, fun q => ?_, fun c => ?_, fun c => ?_, hs.delivered_le, fun c => ?_⟩
    · by_cases hq : q = p
      · subst hq; simp
      · simpa [hq] using hs.outside q
    · have hle := hs.started_le q
      by_cases hq : q = p
      · subst hq
        unfold Party.Inside at hp
        simp
        omega
      · simpa [hq] using hle
    · rw [posted_start hpost]; exact hs.sends_eq c
    · rw [posted_start hpost]; exact hs.recvs_eq c
    · have hgot := hs.got c
      by_cases hq : c.dst = p
      · subst hq; simpa using hgot
      · simpa [hq] using hgot
  · -- a party posts its next operation
    have hpost := posted_post ho
      (t := (postOp s p o).setParty p { s.party p with posted := (s.party p).posted + 1 })
      (by simp)
    refine ⟨fun q => ?_, fun q => ?_, fun c => ?_, fun c => ?_, fun c => ?_, fun c => ?_⟩
    · by_cases hq : q = p
      · subst hq; simp only [Net.setParty_party, Function.update_self]; exact fun hn => absurd hp hn
      · simpa [hq] using hs.outside q
    · by_cases hq : q = p
      · subst hq; simpa using hs.started_le q
      · simpa [hq] using hs.started_le q
    · rw [hpost, List.count_append, count_ite_singleton, Net.setParty_sends, postOp_sends,
        hs.sends_eq]
    · rw [hpost, List.count_append, count_ite_singleton, Net.setParty_recvs, postOp_recvs,
        hs.recvs_eq]
    · have hle := hs.delivered_le c
      rw [Net.setParty_delivered, postOp_delivered, Net.setParty_sends, postOp_sends]
      omega
    · have hgot := hs.got c
      by_cases hq : c.dst = p
      · subst hq; simpa using hgot
      · simpa [hq] using hgot
  · -- a party leaves a batch
    refine ⟨fun q => ?_, fun q => ?_, fun c => ?_, fun c => ?_, hs.delivered_le, fun c => ?_⟩
    · by_cases hq : q = p
      · subst hq; simp
      · simpa [hq] using hs.outside q
    · by_cases hq : q = p
      · subst hq
        unfold Party.Inside at hp
        simp [hp]
      · simpa [hq] using hs.started_le q
    · rw [posted_finish hl]; exact hs.sends_eq c
    · rw [posted_finish hl]; exact hs.recvs_eq c
    · by_cases hq : c.dst = p
      · subst hq
        simpa using hs.got_finish hl hd
      · simpa [hq] using hs.got c
  · -- a message is delivered
    refine ⟨hs.outside, hs.started_le, hs.sends_eq, hs.recvs_eq, fun d => ?_, fun d => ?_⟩
    · have hle := hs.delivered_le d
      simp only [bump_apply]
      split
      case isTrue h => subst h; omega
      case isFalse => exact hle
    · refine Nat.le_trans (hs.got d) ?_
      simp only [bump_apply]
      split <;> omega
  · exact ⟨hs.outside, hs.started_le, hs.sends_eq, hs.recvs_eq, hs.delivered_le, hs.got⟩

/-- What a party has received in its finished batches was sent. -/
theorem NetInv.count_recv_le_sends (hs : NetInv batch s) (c : Chan P T) :
    (batches batch c.dst (s.party c.dst).finished).count (.recv c.src c.tag) ≤ s.sends c :=
  Nat.le_trans (hs.got c) (hs.delivered_le c)

/-- When every batch of a party has an operation at most once, the party has
posted it at most once for each batch it started. -/
theorem NetInv.count_posted_le (hs : NetInv batch s) {p : P} {o : Op P T}
    (h : ∀ k, (batch p k).count o ≤ 1) : (posted batch s p).count o ≤ (s.party p).started := by
  have hle : ∀ k, (batches batch p k).count o ≤ k := fun k => by
    induction k with
    | zero => simp [batches]
    | succ k ih =>
        have := h k
        rw [batches_succ, List.count_append]
        omega
  have hfin := hle (s.party p).finished
  rw [posted, List.count_append]
  by_cases hp : (s.party p).Inside
  · have htake := (List.take_sublist (s.party p).posted
      (batch p (s.party p).finished)).count_le o
    have hone := h (s.party p).finished
    unfold Party.Inside at hp
    omega
  · have hst := hs.started_le p
    rw [hs.outside p hp, List.take_zero, List.count_nil]
    omega

/-- **Nobody overtakes its sender.**  When each batch of `c.dst` receives one
message on `c` and each batch of `c.src` sends at most one, `c.dst` has finished
no more batches than `c.src` has started. -/
theorem NetInv.finished_le_started (hs : NetInv batch s) (c : Chan P T)
    (hrecv : ∀ k, (batch c.dst k).count (.recv c.src c.tag) = 1)
    (hsend : ∀ k, (batch c.src k).count (.send c.dst c.tag) ≤ 1) :
    (s.party c.dst).finished ≤ (s.party c.src).started := by
  calc (s.party c.dst).finished
      = (batches batch c.dst (s.party c.dst).finished).count (.recv c.src c.tag) := by
        rw [count_batches hrecv, Nat.mul_one]
    _ ≤ s.sends c := hs.count_recv_le_sends c
    _ = (posted batch s c.src).count (.send c.dst c.tag) := hs.sends_eq c
    _ ≤ (s.party c.src).started := hs.count_posted_le hsend

end Steps

end Runs
end Lfi
