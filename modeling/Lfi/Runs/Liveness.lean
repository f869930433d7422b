/-
# Batches that come to an end

`Lfi.Runs.Batches` says what holds at every point of a run.  Here the parties have `K`
batches each, and in every batch one party sends to another as often as that one receives
from it.  Two things follow.

Nothing blocks (`TallyInv.canStep`): as long as a party has a batch to finish, some step is
possible, even one that completes no send before its message was received.  The party with
the fewest finished batches either can go on itself or waits for an operation whose other
end is posted in the same batch of its partner, and that one cannot be behind.

Nothing goes on for ever (`length_le_runBound`): every step adds one to `netCount`, which
counts the batches, the operations and the messages, and there are only so many of them.
-/

import Lfi.Runs.Batches
import Lfi.Runs.Potential
import Mathlib.Data.Fintype.Lattice

namespace Lfi
namespace Runs

section Batches

variable {P T : Type*} [DecidableEq P] [DecidableEq T] (batch : P → ℕ → List (Op P T)) (K : ℕ)

/-- A party that has finished its `K` batches enters no other. -/
def Starts (s : Net P T) : NetAction P T → Prop
  | .start p => (s.party p).started < K
  | _ => True

instance (s : Net P T) : DecidablePred (Starts K s)
  | .start p => inferInstanceAs (Decidable ((s.party p).started < K))
  | .post _ | .finish _ | .deliver _ | .ack _ => .isTrue trivial

/-- One step of parties with `K` batches. -/
def finiteStep (s : Net P T) (a : NetAction P T) : Option (Net P T) :=
  if Starts K s a then netStep batch s a else none

/-- A send completes only when its message has been received. -/
def Received (s : Net P T) : NetAction P T → Prop
  | .ack c => s.acked c < s.delivered c
  | _ => True

instance (s : Net P T) : DecidablePred (Received s)
  | .ack c => inferInstanceAs (Decidable (s.acked c < s.delivered c))
  | .start _ | .post _ | .finish _ | .deliver _ => .isTrue trivial

/-- What holds at every point of a run: nobody starts a batch too many, and no operation is
completed that was not posted. -/
structure TallyInv (s : Net P T) : Prop where
  net : NetInv batch s
  started_le : ∀ p, (s.party p).started ≤ K
  posted_le : ∀ p, (s.party p).posted ≤ (batch p (s.party p).finished).length
  delivered_le : ∀ c, s.delivered c ≤ s.recvs c
  acked_le : ∀ c, s.acked c ≤ s.sends c

/-- In each batch a party sends to another as often as that one receives from it. -/
def Balanced : Prop :=
  ∀ k p q t, (batch p k).count (.send q t) = (batch q k).count (.recv p t)

variable {batch K} {s t : Net P T}

theorem finiteStep_eq_some {a : NetAction P T} :
    finiteStep batch K s a = some t ↔ Starts K s a ∧ netStep batch s a = some t := by
  rw [finiteStep]
  split
  case isTrue h => exact (and_iff_right h).symm
  case isFalse h => exact iff_of_false nofun fun h' => h h'.1

/-! ### The invariant -/

theorem tallyInv_init : TallyInv batch K (netInit : Net P T) :=
  ⟨netInv_init, fun _ => Nat.zero_le K, fun _ => Nat.zero_le _, fun _ => Nat.le_refl 0,
    fun _ => Nat.le_refl 0⟩

@[simp] theorem postOp_acked (p : P) (o : Op P T) : (postOp s p o).acked = s.acked := by
  cases o <;> rfl

omit [DecidableEq T] in
/-- What holds of the parties holds after one of them has changed. -/
theorem Net.forall_party (M : P → Party → Prop) (h : ∀ q, M q (s.party q)) {p : P} {x : Party}
    (hx : M p x) (q : P) : M q ((s.setParty p x).party q) :=
  (Function.forall_update_iff s.party M).2 ⟨hx, fun q _ => h q⟩ q

/-- What holds of the numbers of the channels holds after one of them was raised. -/
theorem bump_le {f g : Chan P T → ℕ} (h : ∀ c, f c ≤ g c) {c : Chan P T} (hc : f c < g c)
    (d : Chan P T) : bump f c d ≤ g d := by
  rw [bump_apply]
  split
  case isTrue hd => rw [hd]; exact hc
  case isFalse => exact h d

/-- **The invariant survives every step.** -/
theorem TallyInv.step (inv : TallyInv batch K s) {a : NetAction P T}
    (h : finiteStep batch K s a = some t) : TallyInv batch K t := by
  obtain ⟨hstart, h⟩ := finiteStep_eq_some.1 h
  have hnet := inv.net.step h
  have hparty : ∀ {u : Net P T} {p x}, u.party = s.party → x.started ≤ K →
      x.posted ≤ (batch p x.finished).length → ∀ q, ((u.setParty p x).party q).started ≤ K ∧
        ((u.setParty p x).party q).posted ≤
          (batch q ((u.setParty p x).party q).finished).length := by
    intro u p x hu hx hx'
    refine Net.forall_party (fun q y => y.started ≤ K ∧ y.posted ≤ (batch q y.finished).length)
      (fun q => ?_) ⟨hx, hx'⟩
    rw [hu]
    exact ⟨inv.started_le q, inv.posted_le q⟩
  rcases netStep_cases h with ⟨p, rfl, hp, rfl⟩ | ⟨p, o, rfl, hp, ho, rfl⟩ |
    ⟨p, rfl, hp, hl, hd, rfl⟩ | ⟨c, rfl, hs, hr, rfl⟩ | ⟨c, rfl, rfl⟩
  · have hall := hparty (u := s) (p := p)
      (x := ⟨(s.party p).started + 1, (s.party p).finished, 0⟩) rfl hstart (Nat.zero_le _)
    exact ⟨hnet, fun q => (hall q).1, fun q => (hall q).2, inv.delivered_le, inv.acked_le⟩
  · obtain ⟨hlt, -⟩ := List.getElem?_eq_some_iff.1 ho
    have hall := hparty (u := postOp s p o) (p := p)
      (x := { s.party p with posted := (s.party p).posted + 1 }) (postOp_party p o)
      (inv.started_le p) hlt
    refine ⟨hnet, fun q => (hall q).1, fun q => (hall q).2, fun c => ?_, fun c => ?_⟩
    · rw [Net.setParty_delivered, postOp_delivered, Net.setParty_recvs, postOp_recvs]
      exact Nat.le_add_right_of_le (inv.delivered_le c)
    · rw [Net.setParty_sends, postOp_sends]
      show (postOp s p o).acked c ≤ _
      rw [postOp_acked]
      exact Nat.le_add_right_of_le (inv.acked_le c)
  · have hall := hparty (u := s) (p := p)
      (x := ⟨(s.party p).started, (s.party p).finished + 1, 0⟩) rfl (inv.started_le p)
      (Nat.zero_le _)
    exact ⟨hnet, fun q => (hall q).1, fun q => (hall q).2, inv.delivered_le, inv.acked_le⟩
  · exact ⟨hnet, inv.started_le, inv.posted_le, bump_le inv.delivered_le hr, inv.acked_le⟩
  · have hlt : s.acked c < s.sends c := by
      by_contra hge
      rw [netStep, if_neg hge] at h
      cases h
    exact ⟨hnet, inv.started_le, inv.posted_le, inv.delivered_le, bump_le inv.acked_le hlt⟩

theorem tallyInv_exec {as : List (NetAction P T)}
    (h : exec (finiteStep batch K) netInit as = some s) : TallyInv batch K s :=
  exec_invariant (fun _ _ _ hs ht => hs.step ht) tallyInv_init h

/-- A party with a batch to finish has not started all of them, or is inside one. -/
theorem TallyInv.inside_of_started (inv : TallyInv batch K s) {p : P}
    (hp : (s.party p).finished < K) (hs : ¬ (s.party p).started < K) : (s.party p).Inside := by
  have h₁ := inv.net.started_le p
  have h₂ := inv.started_le p
  unfold Party.Inside
  omega

/-! ### Nothing blocks -/

/-- Some action can be taken that completes no send before its message was received. -/
def CanStep (batch : P → ℕ → List (Op P T)) (K : ℕ) (s : Net P T) : Prop :=
  ∃ a, (finiteStep batch K s a).isSome ∧ Received s a

theorem canStep_of_step {a : NetAction P T} (hstart : Starts K s a)
    (h : (netStep batch s a).isSome) (hr : Received s a) : CanStep batch K s :=
  ⟨a, by rwa [finiteStep, if_pos hstart], hr⟩

/-- A party that has not posted all of its actual batch, or not entered it, can go on. -/
theorem TallyInv.canStep_of_unposted (inv : TallyInv batch K s) {p : P}
    (hp : (s.party p).finished < K)
    (hpost : (s.party p).Inside →
      (s.party p).posted < (batch p (s.party p).finished).length) : CanStep batch K s := by
  by_cases hin : (s.party p).Inside
  · refine canStep_of_step (a := .post p) trivial ?_ trivial
    simp only [netStep, if_pos hin, List.getElem?_eq_getElem (hpost hin), Option.map_some,
      Option.isSome_some]
  · have hstart : (s.party p).started < K := by
      by_contra hs
      exact hin (inv.inside_of_started hp hs)
    refine canStep_of_step (a := .start p) hstart ?_ trivial
    simp only [netStep, if_neg hin, Option.isSome_some]

theorem count_batches_mono {q : P} {k m : ℕ} (h : k ≤ m) (o : Op P T) :
    (batches batch q k).count o ≤ (batches batch q m).count o := by
  induction h with
  | refl => exact Nat.le_refl _
  | step _ ih =>
      rw [batches_succ, List.count_append]
      exact Nat.le_add_right_of_le ih

/-- A party that is past the batch `k`, or has posted all of it, has posted the batches up
to `k`. -/
theorem count_batches_le_posted {q : P} {k : ℕ} (hk : k ≤ (s.party q).finished)
    (hpost : (s.party q).finished = k → (batch q k).length ≤ (s.party q).posted) (o : Op P T) :
    (batches batch q (k + 1)).count o ≤ (posted batch s q).count o := by
  rcases Nat.lt_or_eq_of_le hk with hlt | rfl
  · rw [posted, List.count_append]
    exact Nat.le_add_right_of_le (count_batches_mono hlt o)
  · rw [posted, List.take_of_length_le (hpost rfl), batches_succ]

/-- The operations of the first batches of two parties pair up. -/
theorem Balanced.batches (hpair : Balanced batch) (p q : P) (u : T) (k : ℕ) :
    (batches batch p k).count (.send q u) = (batches batch q k).count (.recv p u) := by
  induction k with
  | zero => rfl
  | succ k ih => rw [batches_succ, batches_succ, List.count_append, List.count_append, ih, hpair]

/-- **Nothing blocks.**  As long as a party has a batch to finish, some step is possible, one
that completes no send before its message was received. -/
theorem TallyInv.canStep [Finite P] (inv : TallyInv batch K s) (hpair : Balanced batch) {r : P}
    (hr : (s.party r).finished < K) : CanStep batch K s := by
  -- The party that is behind all others.
  obtain ⟨p, hmin⟩ := @Finite.exists_min P ℕ _ ⟨r⟩ _ fun p => (s.party p).finished
  have hp : (s.party p).finished < K := (hmin r).trans_lt hr
  by_contra hstuck
  have hposted : ∀ q, (s.party q).finished = (s.party p).finished → (s.party q).Inside ∧
      (batch q (s.party p).finished).length ≤ (s.party q).posted := by
    intro q hq
    constructor
    · by_contra hin
      exact hstuck (inv.canStep_of_unposted (hq.trans_lt hp) fun h => absurd h hin)
    · by_contra hlt
      refine hstuck (inv.canStep_of_unposted (hq.trans_lt hp) fun _ => ?_)
      rw [hq]
      exact Nat.lt_of_not_le hlt
  obtain ⟨hin, hlen⟩ := hposted p rfl
  have hposts : ∀ q o, (batches batch q ((s.party p).finished + 1)).count o ≤
      (posted batch s q).count o :=
    fun q => count_batches_le_posted (hmin q) fun hq => (hposted q hq).2
  have hall : posted batch s p = batches batch p ((s.party p).finished + 1) := by
    rw [posted, List.take_of_length_le hlen, batches_succ]
  have hdeliver : ∀ c, ¬ (s.delivered c < s.sends c ∧ s.delivered c < s.recvs c) := by
    intro c hc
    refine hstuck (canStep_of_step (a := .deliver c) trivial ?_ trivial)
    rw [netStep, if_pos hc, Option.isSome_some]
  -- The other end of whatever it waits for has been posted.
  have hdone : ∀ o ∈ batch p (s.party p).finished, OpDone s p o := by
    intro o _
    cases o with
    | send q u =>
        have hrecv : s.sends ⟨p, q, u⟩ ≤ s.recvs ⟨p, q, u⟩ := by
          rw [inv.net.sends_eq, inv.net.recvs_eq, hall]
          exact (hpair.batches p q u _).trans_le (hposts q _)
        have hdel := hdeliver ⟨p, q, u⟩
        show s.acked ⟨p, q, u⟩ = s.sends ⟨p, q, u⟩
        by_contra hne
        have hlt : s.acked ⟨p, q, u⟩ < s.sends ⟨p, q, u⟩ :=
          Nat.lt_of_le_of_ne (inv.acked_le _) hne
        refine hstuck (canStep_of_step (a := .ack ⟨p, q, u⟩) trivial ?_ ?_)
        · rw [netStep, if_pos hlt, Option.isSome_some]
        · show s.acked ⟨p, q, u⟩ < s.delivered ⟨p, q, u⟩
          omega
    | recv q u =>
        have hsend : s.recvs ⟨q, p, u⟩ ≤ s.sends ⟨q, p, u⟩ := by
          rw [inv.net.sends_eq, inv.net.recvs_eq, hall, ← hpair.batches q p u]
          exact hposts q _
        have hdel := hdeliver ⟨q, p, u⟩
        have hle := inv.delivered_le ⟨q, p, u⟩
        show s.delivered ⟨q, p, u⟩ = s.recvs ⟨q, p, u⟩
        omega
  refine hstuck (canStep_of_step (a := .finish p) trivial ?_ trivial)
  rw [netStep, if_pos ⟨hin, Nat.le_antisymm (inv.posted_le p) hlen, hdone⟩, Option.isSome_some]

/-! ### Nothing goes on for ever -/

/-- The channel an operation of `p` sends on. -/
def Op.sendChan (p : P) : Op P T → Option (Chan P T)
  | .send q u => some ⟨p, q, u⟩
  | .recv _ _ => none

theorem count_filterMap_sendChan (p : P) (l : List (Op P T)) (c : Chan P T) :
    (l.filterMap (Op.sendChan p)).count c =
      if p = c.src then l.count (.send c.dst c.tag) else 0 := by
  induction l with
  | nil => simp
  | cons o l ih =>
      cases o with
      | send q u =>
          have hcons : (Op.send q u :: l).filterMap (Op.sendChan p) =
            ⟨p, q, u⟩ :: l.filterMap (Op.sendChan p) := rfl
          rw [hcons, List.count_cons, ih, List.count_cons]
          rcases c with ⟨p', q', u'⟩
          by_cases hp : p = p'
          · simp [hp]
          · simp [hp]
      | recv q u =>
          have hcons : (Op.recv q u :: l).filterMap (Op.sendChan p) =
            l.filterMap (Op.sendChan p) := rfl
          rw [hcons, ih, List.count_cons]
          simp

/-- What a party has posted begins its `K` batches. -/
theorem TallyInv.posted_begins (inv : TallyInv batch K s) (p : P) :
    posted batch s p <+: batches batch p K := by
  have hmono : ∀ {m k}, m ≤ k → batches batch p m <+: batches batch p k := by
    intro m k h
    induction h with
    | refl => exact List.prefix_refl _
    | step _ ih => rw [batches_succ]; exact ih.trans (List.prefix_append _ _)
  by_cases hin : (s.party p).Inside
  · have hlt : (s.party p).finished + 1 ≤ K := hin ▸ inv.started_le p
    refine List.IsPrefix.trans ?_ (hmono hlt)
    rw [posted, batches_succ]
    exact (List.prefix_append_right_inj _).2 (List.take_prefix _ _)
  · rw [posted, inv.net.outside p hin, List.take_zero, List.append_nil]
    exact hmono ((inv.net.started_le p).1.trans (inv.started_le p))

variable [Fintype P]

/-- The channels on which something is sent in the first `K` batches. -/
def channels (batch : P → ℕ → List (Op P T)) (K : ℕ) : Finset (Chan P T) :=
  Finset.univ.biUnion fun p => ((batches batch p K).filterMap (Op.sendChan p)).toFinset

/-- The batches entered and left, the operations posted, the messages received and the sends
completed. -/
def netCount (batch : P → ℕ → List (Op P T)) (K : ℕ) (s : Net P T) : ℕ :=
  ∑ p, ((s.party p).started + (s.party p).finished + (posted batch s p).length) +
    (∑ c ∈ channels batch K, s.delivered c + ∑ c ∈ channels batch K, s.acked c)

/-- No run has more steps. -/
def runBound (batch : P → ℕ → List (Op P T)) (K : ℕ) : ℕ :=
  ∑ p, (2 * K + 3 * (batches batch p K).length)

/-- The channels of the messages posted so far, by all parties. -/
def sentChans (batch : P → ℕ → List (Op P T)) (s : Net P T) : Multiset (Chan P T) :=
  ∑ p, ((posted batch s p).filterMap (Op.sendChan p) : Multiset (Chan P T))

theorem NetInv.count_sentChans (hs : NetInv batch s) (c : Chan P T) :
    (sentChans batch s).count c = s.sends c := by
  rw [sentChans, Multiset.count_sum', hs.sends_eq]
  simp only [Multiset.coe_count, count_filterMap_sendChan]
  rw [Finset.sum_ite_eq' Finset.univ c.src, if_pos (Finset.mem_univ _)]

omit [DecidableEq P] [DecidableEq T] in
theorem card_sentChans_le (s : Net P T) :
    (sentChans batch s).card ≤ ∑ p, (posted batch s p).length := by
  rw [sentChans, Multiset.card_sum]
  exact Finset.sum_le_sum fun p _ => by
    rw [Multiset.coe_card]
    exact List.length_filterMap_le _ _

theorem TallyInv.mem_channels (inv : TallyInv batch K s) {c : Chan P T} (h : 0 < s.sends c) :
    c ∈ channels batch K := by
  rw [inv.net.sends_eq] at h
  refine Finset.mem_biUnion.2 ⟨c.src, Finset.mem_univ _, List.mem_toFinset.2 ?_⟩
  exact List.mem_filterMap.2
    ⟨_, (inv.posted_begins c.src).subset (List.count_pos_iff.1 h), rfl⟩

/-- The messages on all channels are among the operations posted. -/
theorem TallyInv.sum_sends_le (inv : TallyInv batch K s) :
    ∑ c ∈ channels batch K, s.sends c ≤ ∑ p, (posted batch s p).length := by
  refine le_trans (Nat.le_of_eq ?_) (card_sentChans_le s)
  rw [← Multiset.sum_count_eq_card (s := channels batch K) (m := sentChans batch s)]
  · exact Finset.sum_congr rfl fun c _ => (inv.net.count_sentChans c).symm
  · intro c hc
    refine inv.mem_channels ?_
    rw [← inv.net.count_sentChans]
    exact Multiset.count_pos.2 hc

/-- **There is only so much to do.** -/
theorem TallyInv.netCount_le (inv : TallyInv batch K s) :
    netCount batch K s ≤ runBound batch K := by
  have hsends := inv.sum_sends_le
  have hdel : ∑ c ∈ channels batch K, s.delivered c ≤ ∑ c ∈ channels batch K, s.sends c :=
    Finset.sum_le_sum fun c _ => inv.net.delivered_le c
  have hack : ∑ c ∈ channels batch K, s.acked c ≤ ∑ c ∈ channels batch K, s.sends c :=
    Finset.sum_le_sum fun c _ => inv.acked_le c
  have hparty : ∑ p, ((s.party p).started + (s.party p).finished + (posted batch s p).length) +
      (∑ p, (posted batch s p).length + ∑ p, (posted batch s p).length) ≤
        runBound batch K := by
    rw [← Finset.sum_add_distrib, ← Finset.sum_add_distrib, runBound]
    refine Finset.sum_le_sum fun p _ => ?_
    have h₁ := inv.started_le p
    have h₂ := (inv.net.started_le p).1
    have h₃ := (inv.posted_begins p).length_le
    omega
  unfold netCount
  omega

/-- One party counts one more. -/
theorem netCount_party {t : Net P T} (p : P)
    (hone : (t.party p).started + (t.party p).finished + (posted batch t p).length =
      (s.party p).started + (s.party p).finished + (posted batch s p).length + 1)
    (hrest : ∀ q, q ≠ p → t.party q = s.party q) (hdel : t.delivered = s.delivered)
    (hack : t.acked = s.acked) : netCount batch K t = netCount batch K s + 1 := by
  have hsum := sum_succ (f := fun q => (s.party q).started + (s.party q).finished +
      (posted batch s q).length) (g := fun q => (t.party q).started + (t.party q).finished +
      (posted batch t q).length) (Finset.mem_univ p) hone fun q hq => by
    rw [posted_congr (hrest q hq), hrest q hq]
  rw [netCount, netCount, hdel, hack, hsum, Nat.add_right_comm]

/-- **Every step counts.** -/
theorem TallyInv.netCount_step (inv : TallyInv batch K s) {a : NetAction P T}
    (h : finiteStep batch K s a = some t) : netCount batch K t = netCount batch K s + 1 := by
  have hinv := inv.step h
  obtain ⟨hstart, h⟩ := finiteStep_eq_some.1 h
  rcases netStep_cases h with ⟨p, rfl, hp, rfl⟩ | ⟨p, o, rfl, hp, ho, rfl⟩ |
    ⟨p, rfl, hp, hl, hd, rfl⟩ | ⟨c, rfl, hs, hr, rfl⟩ | ⟨c, rfl, rfl⟩
  · refine netCount_party p ?_ (fun q hq => Function.update_of_ne hq _ _) rfl rfl
    rw [posted_start (inv.net.outside p hp), Net.setParty_party, Function.update_self]
    dsimp only
    omega
  · refine netCount_party p ?_ (fun q hq => ?_) ?_ (postOp_acked p o)
    · have hpost := posted_post ho
        (t := (postOp s p o).setParty p { s.party p with posted := (s.party p).posted + 1 })
        (by simp) p
      rw [hpost, if_pos rfl, Net.setParty_party, Function.update_self, List.length_append]
      rfl
    · rw [Net.setParty_party, Function.update_of_ne hq, postOp_party]
    · exact postOp_delivered p o
  · refine netCount_party p ?_ (fun q hq => Function.update_of_ne hq _ _) rfl rfl
    rw [posted_finish hl, Net.setParty_party, Function.update_self]
    dsimp only
    omega
  · have hc : c ∈ channels batch K := inv.mem_channels (Nat.zero_lt_of_lt hs)
    have hsum := sum_succ (f := s.delivered) (g := bump s.delivered c) hc
      (Function.update_self ..) fun d hd => Function.update_of_ne hd _ _
    show ∑ p, _ + (∑ d ∈ channels batch K, bump s.delivered c d + _) = _
    rw [hsum, Nat.add_right_comm, ← Nat.add_assoc]
    rfl
  · have hlt : s.acked c < bump s.acked c c := by
      rw [bump, Function.update_self]
      exact Nat.lt_succ_self _
    have hc : c ∈ channels batch K :=
      inv.mem_channels ((Nat.zero_lt_of_lt hlt).trans_le (hinv.acked_le c))
    have hsum := sum_succ (f := s.acked) (g := bump s.acked c) hc
      (Function.update_self ..) fun d hd => Function.update_of_ne hd _ _
    show ∑ p, _ + (_ + ∑ d ∈ channels batch K, bump s.acked c d) = _
    rw [hsum, ← Nat.add_assoc, ← Nat.add_assoc, Nat.add_assoc (∑ p, _)]
    rfl

/-- **Nothing goes on for ever.** -/
theorem length_le_runBound {as : List (NetAction P T)}
    (h : exec (finiteStep batch K) netInit as = some s) : as.length ≤ runBound batch K := by
  have hcount := exec_count (f := netCount batch K) (fun _ _ _ hs ht => TallyInv.step hs ht)
    (fun _ _ _ hs ht => TallyInv.netCount_step hs ht) tallyInv_init h
  exact (Nat.le_add_left ..).trans (hcount ▸ (tallyInv_exec h).netCount_le)

end Batches

end Runs
end Lfi
