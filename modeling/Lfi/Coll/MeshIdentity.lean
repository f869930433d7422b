/-
# Who sits in which slot of the mesh

At the end of phase 4 the mesh server of rank `i` has handed out all
connections it got, one from each higher rank (`MeshInv.arrived_length`), and
slot `x` belongs to number `x - (i + 1)` of them.  That is the connection of
rank `x` for all `x` exactly if they arrived in increasing order of rank
(`MeshInv.slotsMatch_iff`), and then the two ends of every connection are in each
other's slots (`MeshInv.meshIdentity`).  `meshIdentity_iff` puts the two together;
`meshIdentity_crossed` is a run of three processes in which one connection
overtakes another.
-/

import Lfi.Coll.MeshInvariant
import Mathlib.Order.Interval.Finset.Nat

namespace Lfi
namespace Coll

open Runs

/-- `m, …, m + len - 1` is the only strictly increasing list of its length over
these numbers. -/
theorem pairwise_lt_iff_eq_range' {m : ℕ} {xs : List ℕ}
    (h : ∀ x ∈ xs, m ≤ x ∧ x < m + xs.length) :
    xs.Pairwise (· < ·) ↔ xs = List.range' m xs.length := by
  refine ⟨fun hs => ?_, fun hx => hx ▸ List.pairwise_lt_range'⟩
  induction xs generalizing m with
  | nil => rfl
  | cons x xs ih =>
      obtain ⟨hx, hs⟩ := List.pairwise_cons.1 hs
      have hxm := h x List.mem_cons_self
      have hrest : xs = List.range' (m + 1) xs.length := by
        refine ih (fun y hy => ?_) hs
        have h₁ := h y (List.mem_cons_of_mem _ hy)
        have h₂ := hx y hy
        simp only [List.length_cons] at h₁
        omega
      have hxeq : x = m := by
        cases hl : xs.length with
        | zero => simp only [List.length_cons, hl] at hxm; omega
        | succ l =>
            have hmem : m + 1 ∈ xs := by rw [hrest, hl]; simp
            have := hx _ hmem
            omega
      rw [List.length_cons, List.range'_succ, ← hrest, hxeq]

/-- The mesh server of `i` has the connections the run brought to it. -/
theorem arrived_eq_arrivalOrder {tbl : PortTable} {counter : ℕ → ℕ} :
    ∀ as s, exec (meshStep tbl) (meshInit counter) as = some s →
      ∀ i, (s.servers i).arrived.map CommEnd.rank = arrivalOrder as i := by
  refine exec_snoc_induction (fun _ => rfl) fun as a s t _ ih h i => ?_
  rw [arrivalOrder, List.filterMap_append, ← arrivalOrder, ← ih i]
  rcases meshStep_cases h with ⟨p, rfl, -, -, rfl⟩ | ⟨p, rfl, -, -, rfl⟩ |
    ⟨p, e, rfl, -, -, -, rfl⟩ | ⟨d, e, rfl, -, rfl⟩
  · simp
  · simp
  · by_cases hip : i = p
    · subst hip; simp
    · simp [hip]
  · by_cases hid : i = d
    · subst hid; simp
    · have hdi : d ≠ i := fun h => hid h.symm
      simp [hid, hdi]

theorem meshInv_exec {tbl : PortTable} {counter : ℕ → ℕ} {as : List MeshAction} {s : MeshState}
    (h : exec (meshStep tbl) (meshInit counter) as = some s) : MeshInv tbl s :=
  exec_invariant (fun _ _ _ hs => hs.step) (meshInv_init tbl counter) h

/-- The ranks that connected to `i` are distinct ranks above it. -/
theorem MeshInv.arrived_ranks {tbl : PortTable} {s : MeshState} (hs : MeshInv tbl s) (i : ℕ) :
    ((s.servers i).arrived.map CommEnd.rank).Nodup ∧
      ∀ x ∈ (s.servers i).arrived.map CommEnd.rank, i < x ∧ x < tbl.nHosts := by
  constructor
  · refine (List.nodup_map_iff_inj_on (hs.nodup_arrived i)).2 fun a ha b hb hab => ?_
    have hca := (hs.conn i a (.inr ha)).2.2
    have hcb := (hs.conn i b (.inr hb)).2.2
    rw [← hab, hca, Option.some.injEq] at hcb
    cases a; cases b
    simp only [CommEnd.mk.injEq]
    exact ⟨hab, hcb⟩
  · intro x hx
    obtain ⟨e, he, rfl⟩ := List.mem_map.1 hx
    have := hs.conn i e (.inr he)
    exact ⟨this.1, this.2.1⟩

/-- No more processes connect to `i` than there are ranks above it. -/
theorem MeshInv.arrived_length_le {tbl : PortTable} {s : MeshState} (hs : MeshInv tbl s) (i : ℕ) :
    (s.servers i).arrived.length ≤ tbl.nHosts - (i + 1) := by
  obtain ⟨hnd, hmem⟩ := hs.arrived_ranks i
  have hsub : ((s.servers i).arrived.map CommEnd.rank).toFinset ⊆ Finset.Ioo i tbl.nHosts := by
    intro x hx
    exact Finset.mem_Ioo.2 (hmem x (List.mem_toFinset.1 hx))
  have hcard := Finset.card_le_card hsub
  rw [List.toFinset_card_of_nodup hnd, List.length_map, Nat.card_Ioo] at hcard
  omega

/-- When the owner has returned, every higher rank has connected to it. -/
theorem MeshInv.arrived_length {tbl : PortTable} {s : MeshState} (hs : MeshInv tbl s) {i : ℕ}
    (hret : Returned tbl s i) : (s.servers i).arrived.length = tbl.nHosts - (i + 1) := by
  have hle := hs.accepted_le i
  rw [hs.accepted_eq i, hret] at hle
  exact le_antisymm (hs.arrived_length_le i) hle

/-- Every connection to `i` was made by the rank whose slot it is in. -/
def SlotsMatch (tbl : PortTable) (s : MeshState) (i : ℕ) : Prop :=
  ∀ x, i < x → x < tbl.nHosts → ∃ e, (s.servers i).arrived[x - (i + 1)]? = some e ∧ e.rank = x

/-- The slots of `i` match exactly when the connections arrived in rank order. -/
theorem MeshInv.slotsMatch_iff {tbl : PortTable} {s : MeshState} (hs : MeshInv tbl s) {i : ℕ}
    (hret : Returned tbl s i) :
    SlotsMatch tbl s i ↔ ((s.servers i).arrived.map CommEnd.rank).Pairwise (· < ·) := by
  have hlen := hs.arrived_length hret
  have hrange : ∀ x ∈ (s.servers i).arrived.map CommEnd.rank,
      i + 1 ≤ x ∧ x < i + 1 + ((s.servers i).arrived.map CommEnd.rank).length := by
    intro x hx
    have := (hs.arrived_ranks i).2 x hx
    rw [List.length_map, hlen]
    omega
  rw [pairwise_lt_iff_eq_range' hrange, List.length_map, hlen]
  constructor
  · intro h
    refine List.ext_getElem (by simp [hlen]) fun k hk _ => ?_
    rw [List.length_map] at hk
    obtain ⟨e, he, hx⟩ := h (i + 1 + k) (by omega) (by omega)
    rw [show i + 1 + k - (i + 1) = k by omega] at he
    obtain ⟨_, rfl⟩ := List.getElem?_eq_some_iff.1 he
    simp [hx]
  · intro h x hix hxn
    have hk : x - (i + 1) < (s.servers i).arrived.length := by omega
    refine ⟨_, List.getElem?_eq_getElem hk, ?_⟩
    have hget := congrArg (fun l => l[x - (i + 1)]?) h
    simp only [List.getElem?_map, List.getElem?_eq_getElem hk, Option.map_some] at hget
    rw [List.getElem?_range' (by omega)] at hget
    have := Option.some.inj hget
    omega

/-- With all slots matching, each end of a connection is in the slot of the
other's rank. -/
theorem MeshInv.linked_slots {tbl : PortTable} {s : MeshState} (hs : MeshInv tbl s)
    (hm : ∀ i, i < tbl.nHosts → SlotsMatch tbl s i) {c d : CommEnd} (h : Linked s c d) :
    (s.procs c.rank).ranks d.rank = some c.comm ∧
      (s.procs d.rank).ranks c.rank = some d.comm := by
  -- the accepting end is `d`, the connecting end is `c`
  have key : ∀ c d : CommEnd, (c, d) ∈ s.links →
      (s.procs c.rank).ranks d.rank = some c.comm ∧
        (s.procs d.rank).ranks c.rank = some d.comm := by
    intro c d hcd
    obtain ⟨x, hx, hr, harr⟩ := (hs.linked c d).1 hcd
    have hc := hs.conn d.rank c (.inr (List.mem_of_getElem? harr))
    have hk := (List.getElem?_eq_some_iff.1 harr).1
    have hlen := hs.arrived_length_le d.rank
    obtain ⟨e, he, hrank⟩ := hm d.rank (by omega) x hx (by omega)
    rw [harr, Option.some.injEq] at he
    subst he
    exact ⟨hc.2.2, by rw [hrank]; exact hr⟩
  rcases h with h | h
  · exact key c d h
  · exact (key d c h).symm

/-- With all slots matching, the slots that two ranks have for each other hold
the two ends of one connection. -/
theorem MeshInv.slots_linked {tbl : PortTable} {s : MeshState} (hs : MeshInv tbl s)
    (hm : ∀ i, i < tbl.nHosts → SlotsMatch tbl s i) {i j : ℕ} (hij : i < j) (hj : j < tbl.nHosts)
    (hret : Returned tbl s i) :
    ∃ a b, (s.procs i).ranks j = some a ∧ (s.procs j).ranks i = some b ∧
      Linked s ⟨i, a⟩ ⟨j, b⟩ := by
  obtain ⟨a, ha⟩ := (hs.proc i).filled j (by rw [hret]; exact hj) (by omega)
  obtain ⟨⟨r, b⟩, he, hr⟩ := hm i (by omega) j hij hj
  simp only at hr
  subst hr
  have hconn := hs.conn i _ (.inr (List.mem_of_getElem? he))
  exact ⟨a, b, ha, hconn.2.2, .inr ((hs.linked _ _).2 ⟨r, hij, ha, he⟩)⟩

/-- Matching slots give every pair of ranks its connection. -/
theorem MeshInv.meshIdentity {tbl : PortTable} {s : MeshState} (hs : MeshInv tbl s)
    (hret : ∀ p, p < tbl.nHosts → Returned tbl s p)
    (hm : ∀ i, i < tbl.nHosts → SlotsMatch tbl s i) : MeshIdentity tbl s := by
  intro i j hi hj hij
  have hlink : ∃ a b, (s.procs i).ranks j = some a ∧ (s.procs j).ranks i = some b ∧
      Linked s ⟨i, a⟩ ⟨j, b⟩ := by
    rcases Nat.lt_or_gt_of_ne hij with hlt | hgt
    · exact hs.slots_linked hm hlt hj (hret i hi)
    · obtain ⟨b, a, hb, ha, h⟩ := hs.slots_linked hm hgt hi (hret j hj)
      exact ⟨a, b, ha, hb, h.symm⟩
  obtain ⟨a, b, ha, hb, h⟩ := hlink
  refine ⟨a, b, ha, hb, fun e => ⟨fun he => ?_, fun he => he ▸ h⟩⟩
  obtain ⟨h₁, h₂⟩ := hs.linked_slots hm he
  have hrank : e.rank = j := (hs.proc i).inj _ _ _ h₁ ha
  rw [hrank, hb, Option.some.injEq] at h₂
  cases e
  simp only [CommEnd.mk.injEq]
  exact ⟨hrank, h₂.symm⟩

/-- A slot that names the process it is connected to holds the connection that
process made. -/
theorem MeshInv.slotsMatch {tbl : PortTable} {s : MeshState} (hs : MeshInv tbl s) {i : ℕ}
    (hret : Returned tbl s i) (hi : i < tbl.nHosts) (hid : MeshIdentity tbl s) :
    SlotsMatch tbl s i := by
  intro x hix hxn
  obtain ⟨a, b, ha, -, h⟩ := hid i x hi hxn (by omega)
  have hk : x - (i + 1) < (s.servers i).arrived.length := by
    rw [hs.arrived_length hret]; omega
  refine ⟨_, List.getElem?_eq_getElem hk, ?_⟩
  have hlink : Linked s ⟨i, a⟩ (s.servers i).arrived[x - (i + 1)] :=
    .inr ((hs.linked _ _).2 ⟨x, hix, ha, List.getElem?_eq_getElem hk⟩)
  rw [(h _).1 hlink]

/-- **When the mesh is what the group needs.**  In a run of phase 4 in which all
processes return `LFI_SUCCESS`, every communicator in `ranks[j]` is connected to
process `j`, and there to the one in its `ranks[i]`, exactly if the connections
to every mesh server reached it in increasing order of rank. -/
theorem meshIdentity_iff (tbl : PortTable) (counter : ℕ → ℕ) (as : List MeshAction)
    (s : MeshState) (h : exec (meshStep tbl) (meshInit counter) as = some s)
    (hret : ∀ p, p < tbl.nHosts → Returned tbl s p) :
    MeshIdentity tbl s ↔
      ∀ i, i < tbl.nHosts → (arrivalOrder as i).Pairwise (· < ·) := by
  have hs := meshInv_exec h
  constructor
  · intro hid i hi
    rw [← arrived_eq_arrivalOrder as s h i]
    exact (hs.slotsMatch_iff (hret i hi)).1 (hs.slotsMatch (hret i hi) hi hid)
  · intro hsorted
    refine hs.meshIdentity hret fun i hi => (hs.slotsMatch_iff (hret i hi)).2 ?_
    rw [arrived_eq_arrivalOrder as s h i]
    exact hsorted i hi

/-- Three hosts, one process on each. -/
def threeHosts : PortTable where
  hostnames := ["a", "b", "c"]
  ports := [40001, 40002, 40003]
  length_ports := rfl
  nodup_addrs := by decide

/-- Rank 1 reaches the mesh server of rank 0 before rank 2 does. -/
def orderedRun : List MeshAction :=
  [.iter 1, .iter 2, .arrive 0 ⟨1, 0⟩, .arrive 0 ⟨2, 0⟩, .iter 0, .iter 0, .iter 0, .iter 1,
    .iter 2, .iter 2, .arrive 1 ⟨2, 1⟩, .iter 1]

/-- Rank 2 overtakes rank 1 on the way to rank 0. -/
def crossedRun : List MeshAction :=
  [.iter 1, .iter 2, .arrive 0 ⟨2, 0⟩, .arrive 0 ⟨1, 0⟩, .iter 0, .iter 0, .iter 0, .iter 1,
    .iter 2, .iter 2, .arrive 1 ⟨2, 1⟩, .iter 1]

/-- Where a run of the three processes leads, nothing reserved before. -/
def threeEnd (as : List MeshAction)
    (h : (exec (meshStep threeHosts) (meshInit fun _ => 0) as).isSome) : MeshState :=
  (exec (meshStep threeHosts) (meshInit fun _ => 0) as).get h

/-- `meshIdentity_iff` at a run of three processes. -/
theorem meshIdentity_iff_ordered :
    MeshIdentity threeHosts (threeEnd orderedRun (by decide)) ↔
      ∀ i, i < threeHosts.nHosts → (arrivalOrder orderedRun i).Pairwise (· < ·) :=
  meshIdentity_iff threeHosts (fun _ => 0) orderedRun _ (Option.some_get _).symm
    (by unfold Returned; decide)

/-- **The mesh can be crossed.**  When rank 2 overtakes rank 1 on the way to rank
0, all three processes return `LFI_SUCCESS` and `ranks[1]` of process 0 is
connected to process 2. -/
theorem meshIdentity_crossed :
    ¬ ∀ (tbl : PortTable) (counter : ℕ → ℕ) (as : List MeshAction) (s : MeshState),
      2 ≤ tbl.nHosts → exec (meshStep tbl) (meshInit counter) as = some s →
        (∀ p, p < tbl.nHosts → Returned tbl s p) → MeshIdentity tbl s := by
  intro h
  have hid := h threeHosts (fun _ => 0) crossedRun (threeEnd crossedRun (by decide)) (by decide)
    (Option.some_get _).symm (by unfold Returned; decide)
  obtain ⟨a, b, ha, -, hlink⟩ := hid 0 1 (by decide) (by decide) (by decide)
  obtain rfl : 0 = a := Option.some.inj ha
  have hcross := (hlink ⟨2, 0⟩).1 (by unfold Linked; decide)
  cases hcross

end Coll
end Lfi
