/-
# When `lfi_barrier` holds everybody back

`lfi_barrier` in `src/lfi_coll.cpp` gathers one empty message from every worker
at the root and releases every worker with another one, all under the tag
`LFI_TAG_BARRIER`.  The root posts, for each worker in turn,

    ret = lfi_trecv_async(recv_req, &dummy, 0, LFI_TAG_BARRIER);
    ...
    ret = lfi_tsend_async(send_req, &dummy, 0, LFI_TAG_BARRIER);

and a worker posts its receive and its send, and everybody then waits for all of
its own requests.  The release is posted right after the receive, not when the
arrivals are in, so a worker can be released while another has not entered.

The group is an instance of `Lfi.Runs.Batches`: the processes are the parties
and one call of `lfi_barrier` is one batch, entered by the call and left by its
`return 0`.  The mesh is correct, so the peer a request names is the one it
reaches, and no request fails.  `BarrierSafe` is what `lfi_coll.h` promises;
`barrierSafe_of_releaseLast` says when the code keeps it.
-/

import Lfi.Runs.Batches
import Mathlib.Data.List.FinRange
import Mathlib.Data.Fintype.Basic

namespace Lfi
namespace Coll

open Runs

/-- `LFI_TAG_BARRIER`. -/
def lfiTagBarrier : ℕ := 0xFFFFFFFF - 5

/-- `int root = 0`. -/
def root {n : ℕ} (p : Fin n) : Fin n := ⟨0, p.pos⟩

/-- What `lfi_barrier` posts in the process of rank `p`, in order. -/
def barrierOps (n : ℕ) (p : Fin n) : List (Op (Fin n) ℕ) :=
  if p = root p then
    (List.finRange n).flatMap fun i =>
      if i = root p then [] else [.recv i lfiTagBarrier, .send i lfiTagBarrier]
  else [.recv (root p) lfiTagBarrier, .send (root p) lfiTagBarrier]

/-- One step of a group of `n` processes that call `lfi_barrier` over and over. -/
def barrierStep (n : ℕ) : Net (Fin n) ℕ → NetAction (Fin n) ℕ → Option (Net (Fin n) ℕ) :=
  netStep fun p _ => barrierOps n p

/-- **Barrier safety.**  Nobody has returned from more calls of `lfi_barrier`
than anybody has entered. -/
def BarrierSafe {n : ℕ} (s : Net (Fin n) ℕ) : Prop :=
  ∀ p q, (s.party p).finished ≤ (s.party q).started

instance {n : ℕ} (s : Net (Fin n) ℕ) : Decidable (BarrierSafe s) :=
  inferInstanceAs (Decidable (∀ p q, (s.party p).finished ≤ (s.party q).started))

/-- The root posts its send to a worker only after every process other than that
worker has entered the same barrier. -/
def ReleaseLast {n : ℕ} (s : Net (Fin n) ℕ) : NetAction (Fin n) ℕ → Prop
  | .post p => ∀ i, p = root p →
      (barrierOps n p)[(s.party p).posted]? = some (.send i lfiTagBarrier) →
        ∀ j, j ≠ i → (s.party p).started ≤ (s.party j).started
  | _ => True

instance {n : ℕ} (s : Net (Fin n) ℕ) : DecidablePred (ReleaseLast s) := fun a => by
  cases a <;> unfold ReleaseLast <;> infer_instance

/-! ### The messages of one barrier -/

variable {n : ℕ}

theorem root_eq (p q : Fin n) : root p = root q := rfl

/-- The root receives from and sends to every worker once. -/
theorem count_barrierOps_root {p i : Fin n} (hi : i ≠ root p) (o : Op (Fin n) ℕ)
    (ho : o = .recv i lfiTagBarrier ∨ o = .send i lfiTagBarrier) :
    (barrierOps n (root p)).count o = 1 := by
  have hpair : ∀ x, (if x = root p then [] else
      [Op.recv x lfiTagBarrier, .send x lfiTagBarrier]).count o = if x = i then 1 else 0 := by
    intro x
    by_cases hxi : x = i
    · subst hxi
      rcases ho with rfl | rfl <;> simp [hi]
    · by_cases hx : x = root p
      · simp [hx, Ne.symm hi]
      · rcases ho with rfl | rfl <;> simp [hx, hxi]
  have hsum : ∀ l : List (Fin n), l.Nodup → (l.flatMap fun x => if x = root p then [] else
      [Op.recv x lfiTagBarrier, .send x lfiTagBarrier]).count o = if i ∈ l then 1 else 0 := by
    intro l hl
    induction l with
    | nil => rfl
    | cons x l ih =>
        obtain ⟨hx, hl⟩ := List.nodup_cons.1 hl
        rw [List.flatMap_cons, List.count_append, hpair, ih hl]
        by_cases hxi : x = i
        · subst hxi; simp [hx]
        · simp [hxi, Ne.symm hxi]
  have hmem := hsum (List.finRange n) (List.nodup_finRange n)
  rw [if_pos (List.mem_finRange i)] at hmem
  rw [barrierOps, if_pos (root_eq _ _)]
  exact hmem

/-- A worker receives from and sends to the root once. -/
theorem count_barrierOps_worker {p : Fin n} (hp : p ≠ root p) (o : Op (Fin n) ℕ)
    (ho : o = .recv (root p) lfiTagBarrier ∨ o = .send (root p) lfiTagBarrier) :
    (barrierOps n p).count o = 1 := by
  rw [barrierOps, if_neg hp]
  rcases ho with rfl | rfl <;> simp

/-! ### Barrier safety -/

/-- The invariant of the runs in which releases leave last: the root has sent a
worker no more releases than any other process has entered barriers. -/
structure ReleaseInv (s : Net (Fin n) ℕ) : Prop where
  net : NetInv (fun p _ => barrierOps n p) s
  released : ∀ i j : Fin n, i ≠ root i → j ≠ i →
    s.sends ⟨root i, i, lfiTagBarrier⟩ ≤ (s.party j).started

/-- The root has sent a worker at most one release for each barrier it entered. -/
theorem release_le_started {s : Net (Fin n) ℕ}
    (hs : NetInv (fun p _ => barrierOps n p) s) {i : Fin n} (hi : i ≠ root i) :
    s.sends ⟨root i, i, lfiTagBarrier⟩ ≤ (s.party (root i)).started := by
  rw [hs.sends_eq]
  exact hs.count_posted_le fun _ => Nat.le_of_eq (count_barrierOps_root hi _ (.inr rfl))

theorem ReleaseInv.step {s t : Net (Fin n) ℕ} {a : NetAction (Fin n) ℕ} (hs : ReleaseInv s)
    (hG : ReleaseLast s a) (h : barrierStep n s a = some t) : ReleaseInv t := by
  refine ⟨hs.net.step h, fun i j hi hj => ?_⟩
  have hrel := hs.released i j hi hj
  rcases netStep_cases h with ⟨p, -, -, rfl⟩ | ⟨p, o, rfl, -, ho, rfl⟩ | ⟨p, -, -, -, -, rfl⟩ |
    ⟨c, -, -, -, rfl⟩ | ⟨c, -, rfl⟩
  · by_cases hjp : j = p
    · subst hjp; simpa using Nat.le_succ_of_le hrel
    · simpa [hjp] using hrel
  · have hstarted : ((Function.update s.party p
        { s.party p with posted := (s.party p).posted + 1 }) j).started = (s.party j).started := by
      by_cases hjp : j = p
      · subst hjp; simp
      · simp [hjp]
    rw [Net.setParty_party, postOp_party, hstarted, Net.setParty_sends, postOp_sends]
    by_cases hrelease : p = root i ∧ o = .send i lfiTagBarrier
    · -- the release of `i` leaves: everybody else has entered
      obtain ⟨rfl, rfl⟩ := hrelease
      have hlate := hG i rfl ho j hj
      have hle := release_le_started (hs.net.step h) hi
      simp only [Net.setParty_party, postOp_party, Net.setParty_sends, postOp_sends,
        Function.update_self] at hle
      simpa using hle.trans hlate
    · simpa [hrelease] using hrel
  · by_cases hjp : j = p
    · subst hjp; simpa using hrel
    · simpa [hjp] using hrel
  · exact hrel
  · exact hrel

theorem ReleaseInv.barrierSafe {s : Net (Fin n) ℕ} (hs : ReleaseInv s) : BarrierSafe s := by
  intro p q
  by_cases hp : p = root p
  · -- the root: it has received from `q`, which had entered
    by_cases hq : q = root q
    · rw [hq, ← root_eq p q, ← hp]
      exact (hs.net.started_le p).1
    · have hpq : p = root q := hp
      exact hs.net.finished_le_started ⟨q, p, lfiTagBarrier⟩
        (fun _ => by rw [hpq]; exact count_barrierOps_root hq _ (.inl rfl))
        (fun _ => Nat.le_of_eq (count_barrierOps_worker hq _ (.inr (by rw [hpq]))))
  · -- a worker: it has its release, which left after `q` had entered
    by_cases hqp : q = p
    · rw [hqp]; exact (hs.net.started_le p).1
    · calc (s.party p).finished
          = (batches (fun p _ => barrierOps n p) p (s.party p).finished).count
              (.recv (root p) lfiTagBarrier) := by
            rw [count_batches (m := 1), Nat.mul_one]
            exact fun _ => count_barrierOps_worker hp _ (.inl rfl)
        _ ≤ s.sends ⟨root p, p, lfiTagBarrier⟩ := hs.net.count_recv_le_sends ⟨_, _, _⟩
        _ ≤ (s.party q).started := hs.released p q hp hqp

theorem releaseInv_init : ReleaseInv (netInit : Net (Fin n) ℕ) :=
  ⟨netInv_init, fun _ _ _ _ => Nat.zero_le _⟩

/-- Releases that leave last keep everybody back. -/
theorem always_of_releaseLast {as : List (NetAction (Fin n) ℕ)}
    (h : Meets (barrierStep n) ReleaseLast netInit as) :
    Always (barrierStep n) BarrierSafe netInit as :=
  (always_of_meets (fun _ _ _ hs hG ht => hs.step hG ht) releaseInv_init h).mono
    fun _ hs => hs.barrierSafe

/-- With one worker there is nobody a release could overtake. -/
theorem releaseLast_of_le_two (hn : n ≤ 2) {s : Net (Fin n) ℕ}
    (a : NetAction (Fin n) ℕ) : ReleaseLast s a := by
  cases a with
  | post p =>
      intro i hp ho j hj
      have hmem := List.mem_of_getElem? ho
      rw [barrierOps, if_pos hp, List.mem_flatMap] at hmem
      obtain ⟨x, -, hx⟩ := hmem
      by_cases hxp : x = root p
      · rw [if_pos hxp] at hx; exact absurd hx List.not_mem_nil
      · rw [if_neg hxp] at hx
        obtain rfl : i = x := by simpa using hx
        have hjp : j = p := by
          have hi : i.val ≠ 0 := fun h => hxp (Fin.ext h)
          have hjv : j.val ≠ i.val := fun h => hj (Fin.ext h)
          have hpv : p.val = 0 := congrArg Fin.val hp
          exact Fin.ext (by omega)
        rw [hjp]
  | _ => trivial

/-- The root releases rank 1 before it looks at anybody else. -/
def earlyRelease (n : ℕ) : List (NetAction (Fin (n + 3)) ℕ) :=
  [.start 0, .post 0, .post 0, .start 1, .post 1, .post 1, .deliver ⟨1, 0, lfiTagBarrier⟩,
    .deliver ⟨0, 1, lfiTagBarrier⟩, .ack ⟨1, 0, lfiTagBarrier⟩, .finish 1]

/-- The root starts with rank 1: its receive, then its release. -/
theorem barrierOps_zero (n : ℕ) : ∃ l, barrierOps (n + 3) 0 =
    .recv 1 lfiTagBarrier :: .send 1 lfiTagBarrier :: l := by
  simp [barrierOps, root, List.finRange_succ]

theorem barrierOps_one (n : ℕ) :
    barrierOps (n + 3) 1 = [.recv 0 lfiTagBarrier, .send 0 lfiTagBarrier] := by
  simp [barrierOps, root]

/-- The run is one of the group, and rank 1 leaves its first barrier in it before
rank 2 has entered. -/
theorem earlyRelease_exec (n : ℕ) : ∃ s,
    exec (barrierStep (n + 3)) netInit (earlyRelease n) = some s ∧
      (s.party 1).finished = 1 ∧ (s.party 2).started = 0 := by
  obtain ⟨l, hroot⟩ := barrierOps_zero n
  have h2 : 2 % (n + 3) = 2 := Nat.mod_eq_of_lt (by omega)
  have h20 : (2 : Fin (n + 3)) ≠ 0 := by simp [Fin.ext_iff, h2]
  have h21 : (2 : Fin (n + 3)) ≠ 1 := by simp [Fin.ext_iff, h2]
  simp [earlyRelease, barrierStep, netStep, Party.Inside, netInit, hroot, barrierOps_one, postOp,
    Net.setParty, bump_apply, OpDone, h20, h21]

/-- **When a barrier is safe.**  If the root's release of a worker leaves only
after every other process has entered, nobody returns from a barrier that
somebody has not entered; and a group whose root may post in any order is safe in
all runs exactly when it has no third process. -/
theorem barrierSafe_of_releaseLast (n : ℕ) :
    (∀ as, Meets (barrierStep n) ReleaseLast netInit as →
      Always (barrierStep n) BarrierSafe netInit as) ∧
    ((∀ as, Always (barrierStep n) BarrierSafe netInit as) ↔ n ≤ 2) := by
  refine ⟨fun _ h => always_of_releaseLast h, fun hsafe => ?_, fun hn as => ?_⟩
  · by_contra hn
    obtain ⟨m, rfl⟩ : ∃ m, n = m + 3 := ⟨n - 3, by omega⟩
    obtain ⟨s, hs, h1, h2⟩ := earlyRelease_exec m
    have hle := (hsafe (earlyRelease m)).last hs 1 2
    omega
  · exact always_of_releaseLast (meets_of_forall (fun _ a => releaseLast_of_le_two hn a) _ _)

/-- A barrier of three processes in which the root waits with its releases. -/
def lateRelease : List (NetAction (Fin 3) ℕ) :=
  [.start 1, .start 2, .start 0, .post 0, .post 0, .post 0, .post 0, .post 1, .post 1,
    .deliver ⟨0, 1, lfiTagBarrier⟩, .ack ⟨1, 0, lfiTagBarrier⟩, .finish 1]

/-- `barrierSafe_of_releaseLast` at a run of three processes. -/
theorem barrierSafe_lateRelease : Always (barrierStep 3) BarrierSafe netInit lateRelease :=
  (barrierSafe_of_releaseLast 3).1 _ (by unfold barrierStep; decide)

/-- **A barrier of three can be passed early.**  Rank 1 returns 0 from its first
barrier while rank 2 has not entered any. -/
theorem barrierSafe_earlyRelease :
    ¬ ∀ (n : ℕ), 1 ≤ n → ∀ as : List (NetAction (Fin n) ℕ),
      Always (barrierStep n) BarrierSafe netInit as := by
  intro h
  obtain ⟨s, hs, h1, h2⟩ := earlyRelease_exec 0
  have hle := (h 3 (by decide) (earlyRelease 0)).last hs 1 2
  omega

end Coll
end Lfi
