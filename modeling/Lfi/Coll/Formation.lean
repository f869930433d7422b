/-
# A group is formed

Phases 2 and 4 of `lfi_group_create` together, for all processes of a group at once.  Whoever has
its rank and the table goes on to the mesh while others are still waiting for theirs.

A group cannot be formed in two ways: all that are through the coordination have the same table,
each the rank at which its own port stands in it (`placed_agree`).  And it cannot hang: a run
that cannot continue has every process through both phases (`group_forms`).
-/

import Lfi.Coll.Coordination
import Lfi.Coll.MeshProgress

namespace Lfi
namespace Coll

open Data Runs

variable {n : ℕ} {l : Launch n} {s t : Coord n} {p q boss : Fin n} {m : Master}
  {comms waiting tabled : List (Fin n)}

/-! ### Ranks -/

/-- The answer to a worker is a rank with its name, and its port is there in the table. -/
theorem Led.exists_rank (h : Led l s boss m comms tabled waiting) (hq : q ∈ comms) :
    ∃ r : ℕ, m.answers.getD (comms.idxOf q) (-1) = r ∧ 1 ≤ r ∧
      l.hostnames[r]? = some (l.host q) ∧ m.portTable[r]? = some (l.port q : ℤ) := by
  obtain ⟨given, hgiven, hassigns⟩ := h.assigns
  have hlen : given.length = comms.length := by
    simpa using congrArg List.length hgiven
  have hidx := List.idxOf_lt_length_of_mem hq
  have hidx' : comms.idxOf q < given.length := hlen ▸ hidx
  have hinfo : given[comms.idxOf q].2 = l.info q := by
    have hget := List.getElem_map (l := given) (f := (·.2)) (i := comms.idxOf q)
      (h := by simpa using hidx')
    rw [← hget]
    simp only [hgiven, List.getElem_map, List.getElem_idxOf]
  obtain ⟨hpos, hname, hport⟩ := hassigns.slots _ (List.getElem_mem hidx')
  rw [hinfo] at hname hport
  refine ⟨_, ?_, hpos, hname, hport⟩
  rw [hassigns.answers, List.getD_eq_getElem _ _ (by simpa using hidx'), List.getElem_map]

/-- Two workers have two ranks. -/
theorem Led.rank_inj (h : Led l s boss m comms tabled waiting) (hp : p ∈ comms) (hq : q ∈ comms)
    (heq : m.answers.getD (comms.idxOf p) (-1) = m.answers.getD (comms.idxOf q) (-1)) : p = q := by
  obtain ⟨given, hgiven, hassigns⟩ := h.assigns
  have hlen : given.length = comms.length := by
    simpa using congrArg List.length hgiven
  have hidx : ∀ {x}, x ∈ comms → comms.idxOf x < given.length := fun hx =>
    hlen ▸ List.idxOf_lt_length_of_mem hx
  rw [hassigns.answers, List.getD_eq_getElem _ _ (by simpa using hidx hp),
    List.getD_eq_getElem _ _ (by simpa using hidx hq), List.getElem_map, List.getElem_map] at heq
  have hp' : comms.idxOf p < (given.map (·.1)).length := by simpa using hidx hp
  have hq' : comms.idxOf q < (given.map (·.1)).length := by simpa using hidx hq
  have hfst : (given.map (·.1))[comms.idxOf p] = (given.map (·.1))[comms.idxOf q] := by
    rw [List.getElem_map, List.getElem_map]
    exact Int.ofNat.inj heq
  have hsame := (hassigns.nodup.getElem_inj_iff).1 hfst
  exact (List.idxOf_inj hp).1 hsame

/-- **Where all have been served, the ranks are a permutation of the processes**, and the table
has the ports in that order. -/
theorem Led.placement (h : Led l s boss m comms tabled waiting) (hall : comms.length + 1 = n) :
    ∃ rank : Fin n ≃ Fin n, (∀ q, l.hostnames[(rank q : ℕ)]? = some (l.host q)) ∧
      m.portTable = (List.finRange n).map (fun j => (l.port (rank.symm j) : ℤ)) ∧
      (rank boss : ℕ) = 0 ∧
      ∀ q, q ≠ boss → m.answers.getD (comms.idxOf q) (-1) = ((rank q : ℕ) : ℤ) := by
  obtain ⟨given, -, hassigns⟩ := h.assigns
  obtain ⟨names, hnames⟩ := exists_first h.first
  have hone : ∀ q, ∃ r : Fin n, l.hostnames[(r : ℕ)]? = some (l.host q) ∧
      m.portTable[(r : ℕ)]? = some (l.port q : ℤ) ∧ (q = boss → (r : ℕ) = 0) ∧
      (q ≠ boss → 1 ≤ (r : ℕ) ∧ m.answers.getD (comms.idxOf q) (-1) = ((r : ℕ) : ℤ)) := by
    intro q
    by_cases hq : q = boss
    · subst hq
      have hpos : 0 < n := Nat.zero_lt_of_lt q.isLt
      exact ⟨⟨0, hpos⟩, by rw [hnames]; rfl, hassigns.own, fun _ => rfl, fun hne => absurd rfl hne⟩
    · obtain ⟨r, hanswer, hpos, hname, hport⟩ := h.exists_rank (h.mem_comms hall hq).1
      have hr : r < n := by
        rw [← l.length_hostnames]
        exact (List.getElem?_eq_some_iff.1 hname).1
      exact ⟨⟨r, hr⟩, hname, hport, fun heq => absurd heq hq, fun _ => ⟨hpos, hanswer⟩⟩
  choose rank hname hport hboss hworker using hone
  have hinj : Function.Injective rank := by
    intro p q hpq
    have hval := congrArg Fin.val hpq
    by_cases hp : p = boss
    · by_cases hq : q = boss
      · rw [hp, hq]
      · have := (hworker q hq).1
        have := hboss p hp
        omega
    · by_cases hq : q = boss
      · have := (hworker p hp).1
        have := hboss q hq
        omega
      · refine h.rank_inj (h.mem_comms hall hp).1 (h.mem_comms hall hq).1 ?_
        rw [(hworker p hp).2, (hworker q hq).2, hval]
  let e : Fin n ≃ Fin n := Equiv.ofBijective rank (Finite.injective_iff_bijective.1 hinj)
  refine ⟨e, hname, ?_, hboss boss rfl, fun q hq => (hworker q hq).2⟩
  have hlen : m.portTable.length = n := hassigns.length.trans l.length_hostnames
  refine List.ext_getElem (by simp [hlen]) fun j hj hj' => ?_
  have hjn : j < n := hlen ▸ hj
  have hslot := hport (e.symm ⟨j, hjn⟩)
  rw [show rank (e.symm ⟨j, hjn⟩) = ⟨j, hjn⟩ from e.apply_symm_apply _,
    List.getElem?_eq_getElem hj, Option.some.injEq] at hslot
  simp [hslot]

/-- Whoever is placed is so when all have been served. -/
theorem Led.all_of_placed (h : Led l s boss m comms tabled waiting) {r : ℤ} {portTable : List ℤ}
    (hp : s.role p = .placed r portTable) : comms.length + 1 = n ∧ portTable = m.portTable ∧
      (p = boss ∧ r = 0 ∨ p ≠ boss ∧ r = m.answers.getD (comms.idxOf p) (-1)) := by
  by_cases hboss : p = boss
  · subst hboss
    have hmaster := h.master
    simp only [MasterInv, hp] at hmaster
    exact ⟨hmaster.2.2.2.2.2.2, hmaster.2.1, .inl ⟨rfl, hmaster.1⟩⟩
  · have hworker := h.worker p hboss
    simp only [WorkerInv, hp] at hworker
    obtain ⟨hcomms, -, -, hsent⟩ := hworker
    have htabled : p ∈ tabled := by
      by_contra hno
      simp [sentTo, hcomms, hno] at hsent
    simp only [sentTo, if_pos hcomms, if_pos htabled, List.singleton_append, List.cons.injEq,
      MasterReply.rank.injEq, MasterReply.table.injEq] at hsent
    refine ⟨?_, hsent.2.1.symm, .inr ⟨hboss, hsent.1.symm⟩⟩
    have hmaster := h.master
    unfold MasterInv at hmaster
    cases hrole : s.role boss <;> simp only [hrole] at hmaster
    case accepting => rw [hmaster.2.2.1] at htabled; cases htabled
    case reading => rw [hmaster.2.2.1] at htabled; cases htabled
    case sending => exact hmaster.2.2.2.2.2.2
    case placed => exact hmaster.2.2.2.2.2.2

/-- **Nobody disagrees.**  Those that are through the coordination have one table, with the ports
of all processes in the order of their ranks, and each has the rank its port is at. -/
theorem CoordInv.placed_agree (hs : CoordInv l s) {r : ℤ} {portTable : List ℤ}
    (hp : s.role p = .placed r portTable) :
    ∃ rank : Fin n ≃ Fin n, (∀ q, l.hostnames[(rank q : ℕ)]? = some (l.host q)) ∧
      portTable = (List.finRange n).map (fun j => (l.port (rank.symm j) : ℤ)) ∧
      ∀ q r' portTable', s.role q = .placed r' portTable' →
        r' = ((rank q : ℕ) : ℤ) ∧ portTable' = portTable := by
  rcases hs with hs | ⟨boss, m, comms, tabled, waiting, hs⟩
  · rcases hs.role p with hrole | ⟨hrole, -⟩ <;> rw [hp] at hrole <;> cases hrole
  · obtain ⟨hall, rfl, -⟩ := hs.all_of_placed hp
    obtain ⟨rank, hnames, htable, hboss, hworkers⟩ := hs.placement hall
    refine ⟨rank, hnames, htable, fun q r' portTable' hq => ?_⟩
    obtain ⟨-, rfl, ⟨rfl, rfl⟩ | ⟨hne, rfl⟩⟩ := hs.all_of_placed hq
    · exact ⟨by rw [hboss]; rfl, rfl⟩
    · exact ⟨hworkers q hne, rfl⟩

/-! ### The coordination comes to an end -/

/-- A process is through the coordination. -/
def Role.IsPlaced : Role n → Prop
  | .placed _ _ => True
  | _ => False

/-- Somebody on the first host calls `server_init`. -/
theorem Leaderless.canStep (h : Leaderless l s) (p : Fin n) :
    ∃ q, (coordStep l s q).isSome := by
  have hfirst : ∃ q, l.first q = true := by
    cases hnames : l.hostnames with
    | nil =>
        have hlen := l.length_hostnames
        have hp := p.isLt
        rw [hnames, List.length_nil] at hlen
        omega
    | cons name names =>
        have hmem : name ∈ (List.finRange n).map l.host :=
          l.hosts.mem_iff.2 (hnames ▸ List.mem_cons_self ..)
        obtain ⟨q, -, rfl⟩ := List.mem_map.1 hmem
        exact ⟨q, by simp [Launch.first, hnames]⟩
  obtain ⟨q, hq⟩ := hfirst
  have hrole := (h.role q).resolve_right fun hno => by rw [hq] at hno; cases hno.2
  exact ⟨q, by simp [coordStep, hrole, hq, h.bound]⟩

/-- A worker that the master has not served is not stuck, unless it waits for the master. -/
theorem Led.worker_canStep (h : Led l s boss m comms tabled waiting) (hq : q ≠ boss)
    (hcomms : q ∉ comms) (hbound : s.bound.isSome) :
    (coordStep l s q).isSome ∨ q ∈ waiting ∧ s.infos q = [l.record q] := by
  have hworker := h.worker q hq
  unfold WorkerInv at hworker
  cases hrole : s.role q <;> simp only [hrole] at hworker
  case start =>
    left
    simp only [coordStep, hrole]
    split <;> rfl
  case connecting => exact .inl (by simp [coordStep, hrole, hbound])
  case connected => exact .inl (by simp [coordStep, hrole])
  case registered =>
    right
    obtain ⟨hwaiting, hinfos, -⟩ := hworker.resolve_right fun hno => hcomms hno.1
    exact ⟨hwaiting, hinfos⟩
  case ranked => exact absurd hworker.1 hcomms
  case placed => exact absurd hworker.1 hcomms

/-- A worker that was sent both answers goes on. -/
theorem Led.tabled_canStep (h : Led l s boss m comms tabled []) (hq : q ≠ boss)
    (hcomms : q ∈ comms) (htabled : q ∈ tabled) (hnot : ¬ (s.role q).IsPlaced) :
    (coordStep l s q).isSome := by
  have hworker := h.worker q hq
  unfold WorkerInv at hworker
  cases hrole : s.role q <;> simp only [hrole] at hworker
  case start => exact absurd hcomms hworker.1
  case connecting => exact absurd hcomms hworker.1
  case connected => exact absurd hworker.1 List.not_mem_nil
  case registered =>
    obtain ⟨-, -, hinbox⟩ := hworker.resolve_left fun hno => List.not_mem_nil hno.1
    rw [sentTo, if_pos hcomms, List.singleton_append] at hinbox
    simp [coordStep, hrole, hinbox]
  case ranked =>
    obtain ⟨-, -, hsent⟩ := hworker
    rw [sentTo, if_pos hcomms, if_pos htabled, List.singleton_append, List.cons.injEq] at hsent
    simp [coordStep, hrole, ← hsent.2]
  case placed => rw [hrole] at hnot; exact absurd trivial hnot

/-- **The coordination cannot hang**: while a process is not through, one has a call that
returns. -/
theorem CoordInv.canStep (hs : CoordInv l s) (hp : ¬ (s.role p).IsPlaced) :
    ∃ q, (coordStep l s q).isSome := by
  rcases hs with hs | ⟨boss, m, comms, tabled, waiting, hs⟩
  · exact hs.canStep p
  have hmaster := hs.master
  unfold MasterInv at hmaster
  cases hrole : s.role boss <;> simp only [hrole] at hmaster
  case accepting m' comms' =>
    obtain ⟨rfl, rfl, -, hbacklog, hbound⟩ := hmaster
    by_cases hlt : comms'.length + 1 < l.hostnames.length
    · cases hwaiting : s.backlog with
      | cons q backlog => exact ⟨boss, by simp [coordStep, hrole, hlt, hwaiting]⟩
      | nil =>
          -- somebody has not connected
          rw [l.length_hostnames] at hlt
          obtain ⟨q, hq⟩ : ∃ q, q ∉ (boss :: comms').toFinset := by
            by_contra! hall
            have hcard := Finset.card_le_card (fun q _ => hall q : Finset.univ ⊆ _)
            have hle := List.toFinset_card_le (boss :: comms')
            rw [Finset.card_univ, Fintype.card_fin] at hcard
            rw [List.length_cons] at hle
            omega
          rw [List.mem_toFinset, List.mem_cons, not_or] at hq
          have hcan := hs.worker_canStep hq.1 hq.2 (by rw [hbound]; rfl)
          refine ⟨q, hcan.resolve_right fun hno => ?_⟩
          rw [← hbacklog, hwaiting] at hno
          exact List.not_mem_nil hno.1
    · exact ⟨boss, by simp [coordStep, hrole, hlt]⟩
  case reading m' comms' q =>
    obtain ⟨-, -, -, hwaiting, hbound⟩ := hmaster
    have hnodup := hs.nodup
    have hmem : q ∈ waiting := hwaiting ▸ List.mem_cons_self ..
    rw [List.nodup_cons, List.nodup_append] at hnodup
    have hq : q ≠ boss := by
      rintro rfl
      exact hnodup.1 (List.mem_append_right _ hmem)
    rcases hs.worker_canStep hq (fun hc => hnodup.2.2.2 q hc q hmem rfl) (by rw [hbound]; rfl) with
      hsome | ⟨-, hinfos⟩
    · exact ⟨q, hsome⟩
    · exact ⟨boss, by simp [coordStep, hrole, hinfos, l.decoded_record]⟩
  case sending m' comms' rest =>
    refine ⟨boss, ?_⟩
    cases rest <;> simp [coordStep, hrole]
  case placed r portTable =>
    obtain ⟨-, -, rfl, -, rfl, -, hall⟩ := hmaster
    have hpboss : p ≠ boss := by
      rintro rfl
      rw [hrole] at hp
      exact hp trivial
    have hcomms := (hs.mem_comms hall hpboss).1
    exact ⟨p, hs.tabled_canStep hpboss hcomms hcomms hp⟩

/-- The calls that a process has behind it. -/
def Role.count : Role n → ℕ
  | .start | .refused => 0
  | .accepting _ comms => 1 + 2 * comms.length
  | .reading _ comms _ => 2 + 2 * comms.length
  | .sending _ comms rest => 2 + 3 * comms.length - rest.length
  | .connecting => 1
  | .connected => 2
  | .registered => 3
  | .ranked _ => 4
  | .placed r _ => if r = 0 then 3 * n else 5

/-- The calls of all processes. -/
def coordCount (s : Coord n) : ℕ := ∑ p, (s.role p).count

theorem coordCount_step {r : Role n} (hrole : t.role = Function.update s.role p r)
    (hone : r.count = (s.role p).count + 1) : coordCount t = coordCount s + 1 := by
  refine sum_succ (i := p) (Finset.mem_univ p) ?_ fun q hq => ?_
  · rw [hrole, Function.update_self, hone]
  · rw [hrole, Function.update_of_ne hq]

/-- Every call counts. -/
theorem CoordInv.coordCount_step (hs : CoordInv l s) (h : coordStep l s p = some t) :
    coordCount t = coordCount s + 1 := by
  have hled : ∀ r, s.role p = r → r ≠ .start → r ≠ .connecting →
      ∃ boss m comms tabled waiting, Led l s boss m comms tabled waiting := by
    intro r hr hstart hconnecting
    rcases hs with hs | hs
    · rcases hs.role p with hrole | ⟨hrole, -⟩ <;> rw [hr] at hrole <;> contradiction
    · exact hs
  cases coordStep_call h with
  | lead hr => exact Coll.coordCount_step rfl (by rw [hr]; rfl)
  | follow hr => exact Coll.coordCount_step rfl (by rw [hr]; rfl)
  | accept hr => exact Coll.coordCount_step rfl (by rw [hr]; simp only [Role.count]; omega)
  | gathered hr => exact Coll.coordCount_step rfl (by rw [hr]; simp only [Role.count]; omega)
  | serve hr =>
      refine Coll.coordCount_step rfl ?_
      rw [hr]
      simp only [Role.count, List.length_append, List.length_singleton]
      omega
  | @table m comms q rest hr =>
      obtain ⟨boss, m', comms', tabled, waiting, hs⟩ := hled _ hr (by simp) (by simp)
      obtain rfl := hs.eq_boss (p := p) (by simp [WorkerInv, hr])
      have hmaster := hs.master
      simp only [MasterInv, hr] at hmaster
      have hlen := congrArg List.length hmaster.2.2.1
      refine Coll.coordCount_step rfl ?_
      rw [hr, ← hmaster.2.1] at *
      simp only [Role.count, List.length_cons, List.length_append] at hlen ⊢
      omega
  | @close m comms hr =>
      obtain ⟨boss, m', comms', tabled, waiting, hs⟩ := hled _ hr (by simp) (by simp)
      obtain rfl := hs.eq_boss (p := p) (by simp [WorkerInv, hr])
      have hmaster := hs.master
      simp only [MasterInv, hr] at hmaster
      have hall := hmaster.2.2.2.2.2.2
      rw [← hmaster.2.1] at hall
      refine Coll.coordCount_step rfl ?_
      rw [hr]
      simp only [Role.count, if_pos, List.length_nil]
      omega
  | connect hr => exact Coll.coordCount_step rfl (by rw [hr]; rfl)
  | register hr => exact Coll.coordCount_step rfl (by rw [hr]; rfl)
  | @rank r inbox hr hinbox =>
      obtain ⟨boss, m, comms, tabled, waiting, hs⟩ := hled _ hr (by simp) (by simp)
      have hp : p ≠ boss := by
        rintro rfl
        simpa [MasterInv, hr] using hs.master
      have hworker := hs.worker p hp
      simp only [WorkerInv, hr, hinbox] at hworker
      obtain ⟨hcomms, -, hsent⟩ := hworker.resolve_left fun hwait => by cases hwait.2.2
      have hpos := hs.rank_pos hsent.symm hcomms
      refine Coll.coordCount_step rfl ?_
      rw [hr, if_neg (by omega)]
      rfl
  | @place r portTable inbox hr hinbox =>
      obtain ⟨boss, m, comms, tabled, waiting, hs⟩ := hled _ hr (by simp) (by simp)
      have hp : p ≠ boss := by
        rintro rfl
        simpa [MasterInv, hr] using hs.master
      have hworker := hs.worker p hp
      simp only [WorkerInv, hr] at hworker
      obtain ⟨hcomms, -, hsent⟩ := hworker
      have hpos := hs.rank_pos hsent hcomms
      refine Coll.coordCount_step rfl ?_
      rw [hr]
      simp only [Role.count]
      rw [if_neg (by omega)]

/-- A worker has five calls. -/
theorem Led.worker_count_le (h : Led l s boss m comms tabled waiting) (hq : q ≠ boss) :
    (s.role q).count ≤ 5 := by
  have hworker := h.worker q hq
  unfold WorkerInv at hworker
  cases hrole : s.role q <;> simp only [hrole] at hworker
  case placed r portTable =>
    have hpos := h.rank_pos hworker.2.2.2 hworker.1
    rw [Role.count, if_neg (by omega)]
  all_goals simp [Role.count]

theorem Led.master_count_le (h : Led l s boss m comms tabled waiting) :
    (s.role boss).count ≤ 3 * n := by
  have hcard : (boss :: (comms ++ waiting)).length ≤ n := by
    simpa using h.nodup.length_le_card
  rw [List.length_cons, List.length_append] at hcard
  have hmaster := h.master
  unfold MasterInv at hmaster
  cases hrole : s.role boss <;> simp only [hrole] at hmaster
  case accepting => rw [Role.count, hmaster.2.1]; omega
  case reading => rw [Role.count, hmaster.2.1]; omega
  case sending => rw [Role.count, hmaster.2.1]; omega
  case placed => rw [Role.count, if_pos hmaster.1]

theorem CoordInv.coordCount_le (hs : CoordInv l s) : coordCount s ≤ 8 * n := by
  rcases hs with hs | ⟨boss, m, comms, tabled, waiting, hs⟩
  · have hone : ∀ p ∈ Finset.univ, (s.role p).count ≤ 1 := fun p _ => by
      rcases hs.role p with hrole | ⟨hrole, -⟩ <;> rw [hrole] <;> simp [Role.count]
    have hsum : coordCount s ≤ Finset.univ.card * 1 := Finset.sum_le_card_nsmul _ _ 1 hone
    rw [Finset.card_univ, Fintype.card_fin] at hsum
    omega
  · have hworkers : ∑ q ∈ Finset.univ.erase boss, (s.role q).count ≤
        (Finset.univ.erase boss).card * 5 := Finset.sum_le_card_nsmul _ _ 5 fun q hq =>
      hs.worker_count_le (Finset.ne_of_mem_erase hq)
    have hmaster := hs.master_count_le
    rw [Finset.card_erase_of_mem (Finset.mem_univ boss), Finset.card_univ, Fintype.card_fin]
      at hworkers
    rw [coordCount, ← Finset.add_sum_erase _ _ (Finset.mem_univ boss)]
    omega

/-! ### Both phases -/

/-- A group that is being created: the coordination, and the mesh by ranks. -/
structure Forming (n : ℕ) where
  coord : Coord n
  mesh : MeshState

/-- A process goes on with the coordination, or with its loop in phase 4; or a connection reaches
a mesh server. -/
inductive FormAction (n : ℕ) where
  | coordinate (p : Fin n)
  | iterate (p : Fin n)
  | arrive (i : ℕ) (e : CommEnd)

/-- Every process begins; it may have reserved communicators before. -/
def Forming.init (counter : ℕ → ℕ) : Forming n := ⟨Coord.init, meshInit counter⟩

/-- `port_table`, where it leads to mesh servers of different addresses. -/
def Launch.portTable (l : Launch n) (table : List ℤ) : Option PortTable :=
  if h : (table.map Int.toNat).length = l.hostnames.length ∧
      (l.hostnames.zip (table.map Int.toNat)).Nodup then
    some ⟨l.hostnames, table.map Int.toNat, h.1, h.2⟩
  else none

/-- A table of `n` hosts, for what does not depend on the addresses. -/
def PortTable.blank (n : ℕ) : PortTable where
  hostnames := List.replicate n ""
  ports := List.range n
  length_ports := by simp
  nodup_addrs := by
    refine List.Nodup.of_map Prod.snd ?_
    rw [List.map_snd_zip (by simp)]
    exact List.nodup_range

/-- One step of the group.  A process that is through the coordination runs its loop with its own
rank and its own table. -/
def formStep (l : Launch n) (s : Forming n) : FormAction n → Option (Forming n)
  | .coordinate p => (coordStep l s.coord p).map fun coord => { s with coord := coord }
  | .iterate p =>
      match s.coord.role p with
      | .placed rank table =>
          (l.portTable table).bind fun tbl =>
            (meshStep tbl s.mesh (.iter rank.toNat)).map fun mesh => { s with mesh := mesh }
      | _ => none
  | .arrive i e =>
      (meshStep (.blank n) s.mesh (.arrive i e)).map fun mesh => { s with mesh := mesh }

/-- A step that does not go on in phase 4 before the handshake of the connection it has made. -/
def WaitsForNobody (s : Forming n) : FormAction n → Prop
  | .coordinate _ => True
  | .iterate p => ∀ rank table, s.coord.role p = .placed rank table →
      ¬ Handshaking s.mesh rank.toNat
  | .arrive .. => True

theorem nHosts_blank (n : ℕ) : (PortTable.blank n).nHosts = n := List.length_replicate

theorem nHosts_portTable {table : List ℤ} {tbl : PortTable} (h : l.portTable table = some tbl) :
    tbl.nHosts = n := by
  unfold Launch.portTable at h
  split at h
  case isTrue => exact Option.some.inj h ▸ l.length_hostnames
  case isFalse => cases h

/-- The invariant of the mesh speaks of the number of hosts only. -/
theorem MeshInv.of_nHosts {tbl tbl' : PortTable} {s : MeshState} (h : MeshInv tbl s)
    (heq : tbl.nHosts = tbl'.nHosts) : MeshInv tbl' s :=
  { h with conn := heq ▸ h.conn }

/-- The table of a group leads to the mesh servers of its processes. -/
theorem exists_portTable {rank : Fin n ≃ Fin n}
    (hnames : ∀ q, l.hostnames[(rank q : ℕ)]? = some (l.host q)) :
    ∃ tbl, l.portTable ((List.finRange n).map fun j => (l.port (rank.symm j) : ℤ)) = some tbl := by
  have hports : ((List.finRange n).map fun j => (l.port (rank.symm j) : ℤ)).map Int.toNat =
      (List.finRange n).map fun j => l.port (rank.symm j) := by
    rw [List.map_map]
    rfl
  have hhosts : l.hostnames = (List.finRange n).map fun j => l.host (rank.symm j) := by
    refine List.ext_getElem (by simp [l.length_hostnames]) fun j hj hj' => ?_
    have hjn : j < n := l.length_hostnames ▸ hj
    have hname := hnames (rank.symm ⟨j, hjn⟩)
    rw [rank.apply_symm_apply, List.getElem?_eq_getElem hj, Option.some.injEq] at hname
    simp [hname]
  have hzip : (l.hostnames.zip ((List.finRange n).map fun j => l.port (rank.symm j))).Nodup := by
    rw [hhosts, List.zip_map', List.nodup_map_iff_inj_on (List.nodup_finRange n)]
    intro i _ j _ hij
    rw [Prod.mk.injEq] at hij
    exact rank.symm.injective (l.ports _ _ hij.1 hij.2)
  unfold Launch.portTable
  rw [dif_pos ⟨by simp [l.length_hostnames], hports ▸ hzip⟩]
  exact ⟨_, rfl⟩

/-- What holds of a group at every point. -/
structure FormInv (l : Launch n) (s : Forming n) : Prop where
  coord : CoordInv l s.coord
  mesh : MeshInv (.blank n) s.mesh
  made : Made s.mesh
  loop : ∀ p, (s.mesh.procs p).j ≤ n

theorem formInv_init (counter : ℕ → ℕ) : FormInv l (Forming.init counter) :=
  ⟨coordInv_init, meshInv_init _ counter, made_init counter, fun _ => Nat.zero_le _⟩

section Form

variable {f g : Forming n}

/-- A step is one of the coordination or one of the mesh. -/
theorem formStep_cases {a : FormAction n} (h : formStep l f a = some g) :
    (∃ p coord, a = .coordinate p ∧ coordStep l f.coord p = some coord ∧
      g = { f with coord := coord }) ∨
    ∃ tbl b mesh, tbl.nHosts = n ∧ meshStep tbl f.mesh b = some mesh ∧
      g = { f with mesh := mesh } := by
  cases a with
  | coordinate p =>
      obtain ⟨coord, hcoord, rfl⟩ := Option.map_eq_some_iff.1 h
      exact .inl ⟨p, coord, rfl, hcoord, rfl⟩
  | iterate p =>
      simp only [formStep] at h
      split at h
      case h_1 rank table hrole =>
        obtain ⟨tbl, htbl, h⟩ := Option.bind_eq_some_iff.1 h
        obtain ⟨mesh, hmesh, rfl⟩ := Option.map_eq_some_iff.1 h
        exact .inr ⟨tbl, _, mesh, nHosts_portTable htbl, hmesh, rfl⟩
      case h_2 => cases h
  | arrive i e =>
      obtain ⟨mesh, hmesh, rfl⟩ := Option.map_eq_some_iff.1 h
      exact .inr ⟨_, _, mesh, nHosts_blank n, hmesh, rfl⟩

theorem FormInv.step (hs : FormInv l f) {a : FormAction n} (h : formStep l f a = some g) :
    FormInv l g := by
  rcases formStep_cases h with ⟨p, coord, -, hcoord, rfl⟩ | ⟨tbl, b, mesh, htbl, hmesh, rfl⟩
  · exact { hs with coord := hs.coord.step hcoord }
  · have hinv := hs.mesh.of_nHosts ((nHosts_blank n).trans htbl.symm)
    refine ⟨hs.coord, (hinv.step hmesh).of_nHosts (htbl.trans (nHosts_blank n).symm),
      hs.made.step hmesh, fun p => ?_⟩
    have hbefore : ∀ p, (f.mesh.procs p).j ≤ tbl.nHosts := htbl.symm ▸ hs.loop
    have hloop := loop_le_step hbefore hmesh p
    rwa [htbl] at hloop

/-- Every step counts. -/
theorem FormInv.count_step (hs : FormInv l f) {a : FormAction n} (h : formStep l f a = some g) :
    coordCount g.coord + meshCount n g.mesh = coordCount f.coord + meshCount n f.mesh + 1 := by
  rcases formStep_cases h with ⟨p, coord, -, hcoord, rfl⟩ | ⟨tbl, b, mesh, htbl, hmesh, rfl⟩
  · rw [hs.coord.coordCount_step hcoord]
    exact Nat.add_right_comm ..
  · have hcount := (hs.mesh.of_nHosts ((nHosts_blank n).trans htbl.symm)).meshCount_step hmesh
    rw [htbl] at hcount
    rw [hcount]
    exact (Nat.add_assoc ..).symm

/-- **A group cannot hang**: where no step that waits for nobody is left, all have returned. -/
theorem FormInv.formed (hs : FormInv l f)
    (hstop : ∀ a, WaitsForNobody f a → formStep l f a = none) (p : Fin n) :
    ∃ rank : Fin n ≃ Fin n, ∀ q, l.hostnames[(rank q : ℕ)]? = some (l.host q) ∧
      f.coord.role q = .placed (rank q : ℕ)
        ((List.finRange n).map fun j => (l.port (rank.symm j) : ℤ)) ∧
      (f.mesh.procs (rank q)).j = n := by
  have hplaced : ∀ q, (f.coord.role q).IsPlaced := fun q => by
    by_contra hno
    obtain ⟨q, hq⟩ := hs.coord.canStep hno
    obtain ⟨coord, hcoord⟩ := Option.isSome_iff_exists.1 hq
    have hnone := hstop (.coordinate q) trivial
    rw [formStep, hcoord] at hnone
    cases hnone
  have hrole : ∀ q, ∃ r table, f.coord.role q = .placed r table := fun q => by
    have hq := hplaced q
    cases h : f.coord.role q <;> rw [h] at hq <;> first | exact ⟨_, _, rfl⟩ | exact hq.elim
  obtain ⟨r, table, hp⟩ := hrole p
  obtain ⟨rank, hnames, rfl, hagree⟩ := hs.coord.placed_agree hp
  have hall : ∀ q, f.coord.role q = .placed (rank q : ℕ)
      ((List.finRange n).map fun j => (l.port (rank.symm j) : ℤ)) := fun q => by
    obtain ⟨r', table', hq⟩ := hrole q
    obtain ⟨rfl, rfl⟩ := hagree q r' table' hq
    exact hq
  obtain ⟨tbl, htbl⟩ := exists_portTable hnames
  have hn := nHosts_portTable htbl
  refine ⟨rank, fun q => ⟨hnames q, hall q, ?_⟩⟩
  by_contra hret
  obtain ⟨a, ha, hsome⟩ := (hs.mesh.of_nHosts ((nHosts_blank n).trans hn.symm)).canStep hs.made
    (r := rank q) (by rw [hn]; exact (rank q).isLt) (by rw [Returned, hn]; exact hret)
    (fun x => by rw [hn]; exact hs.loop x)
  obtain ⟨mesh, hmesh⟩ := Option.isSome_iff_exists.1 hsome
  cases a with
  | iter r =>
      have hr : r < n := by
        by_contra hno
        simp [meshStep, hn, hno] at hmesh
      -- the process of that rank
      have hq := hall (rank.symm ⟨r, hr⟩)
      rw [rank.apply_symm_apply] at hq
      have hnone := hstop (.iterate (rank.symm ⟨r, hr⟩)) fun r' table' h' => by
        obtain ⟨rfl, -⟩ := Role.placed.inj (hq.symm.trans h')
        exact ha
      simp only [formStep, hq, htbl, Option.bind_some] at hnone
      rw [show ((r : ℕ) : ℤ).toNat = r from rfl, hmesh] at hnone
      cases hnone
  | arrive i e =>
      have hnone := hstop (.arrive i e) trivial
      have hsame : meshStep (.blank n) f.mesh (.arrive i e) = some mesh := hmesh
      rw [formStep, hsame] at hnone
      cases hnone

/-- **A group is formed.**  However the calls of its processes are interleaved, they come to an
end; and where none can go on, not even with a call that waits for no handshake, every process
has a rank of its own, at which its host is in the list and its port in the table that all have,
and has run its loop over all ranks. -/
theorem group_forms (l : Launch n) (counter : ℕ → ℕ) {as : List (FormAction n)}
    (h : exec (formStep l) (Forming.init counter) as = some f) :
    as.length ≤ 8 * n + n * (2 * n) ∧
      ((∀ a, WaitsForNobody f a → formStep l f a = none) →
        ∃ rank : Fin n ≃ Fin n, ∀ q, l.hostnames[(rank q : ℕ)]? = some (l.host q) ∧
          f.coord.role q = .placed (rank q : ℕ)
            ((List.finRange n).map fun j => (l.port (rank.symm j) : ℤ)) ∧
          (f.mesh.procs (rank q)).j = n) := by
  have hinv : FormInv l f := exec_invariant (fun _ _ _ hs => hs.step) (formInv_init counter) h
  constructor
  · have hcount := exec_count (f := fun f : Forming n => coordCount f.coord + meshCount n f.mesh)
      (fun _ _ _ hs ht => hs.step ht) (fun _ _ _ hs ht => hs.count_step ht)
      (formInv_init counter) h
    have hcoord := hinv.coord.coordCount_le
    have hmesh := hinv.mesh.meshCount_le fun p => (nHosts_blank n).symm ▸ hinv.loop p
    rw [nHosts_blank] at hmesh
    exact (Nat.le_add_left ..).trans (hcount ▸ Nat.add_le_add hcoord hmesh)
  · intro hstop
    cases n with
    | zero => exact ⟨Equiv.refl _, fun q => q.elim0⟩
    | succ n => exact hinv.formed hstop 0

/-- The master, or what was it. -/
def Role.Leads : Role n → Prop
  | .accepting .. | .reading .. | .sending .. => True
  | .placed rank _ => rank = 0
  | _ => False

/-- **A group is formed in one way.**  At every point of every run there is one master at most,
nobody has been refused, and those that have begun with the mesh have one table, in which the
ports of all processes stand in the order of their ranks; each has the rank its own is at. -/
theorem group_agrees (l : Launch n) (counter : ℕ → ℕ) {as : List (FormAction n)}
    (h : exec (formStep l) (Forming.init counter) as = some f) :
    (∀ p, f.coord.role p ≠ .refused) ∧
      (∀ p q, (f.coord.role p).Leads → (f.coord.role q).Leads → p = q) ∧
      ∀ p r table, f.coord.role p = .placed r table → ∃ rank : Fin n ≃ Fin n,
        (∀ q, l.hostnames[(rank q : ℕ)]? = some (l.host q)) ∧
        table = (List.finRange n).map (fun j => (l.port (rank.symm j) : ℤ)) ∧
        ∀ q r' table', f.coord.role q = .placed r' table' →
          r' = ((rank q : ℕ) : ℤ) ∧ table' = table := by
  have hinv : FormInv l f := exec_invariant (fun _ _ _ hs => hs.step) (formInv_init counter) h
  refine ⟨fun p hp => ?_, fun p q hp hq => ?_, fun p r table hp => hinv.coord.placed_agree hp⟩
  · rcases hinv.coord with hs | ⟨boss, m, comms, tabled, waiting, hs⟩
    · rcases hs.role p with hrole | ⟨hrole, -⟩ <;> rw [hp] at hrole <;> cases hrole
    · obtain rfl := hs.eq_boss (p := p) (by simp [WorkerInv, hp])
      simpa [MasterInv, hp] using hs.master
  · rcases hinv.coord with hs | ⟨boss, m, comms, tabled, waiting, hs⟩
    · rcases hs.role p with hrole | ⟨hrole, -⟩ <;> rw [hrole] at hp <;> exact hp.elim
    · have hboss : ∀ x, (f.coord.role x).Leads → x = boss := fun x hx => by
        by_contra hne
        have hworker := hs.worker x hne
        unfold WorkerInv at hworker
        cases hrole : f.coord.role x <;> simp only [hrole] at hworker hx
        case placed =>
          have hpos := hs.rank_pos hworker.2.2.2 hworker.1
          exact absurd hx hpos.ne'
        all_goals exact hx
      rw [hboss p hp, hboss q hq]

end Form

/-- The host name "a". -/
def hostA : HostName where
  bytes := [97]
  length_lt := by decide
  noNul := by decide

/-- The host name "b". -/
def hostB : HostName where
  bytes := [98]
  length_lt := by decide
  noNul := by decide

/-- Two processes on the host "a" and one on "b"; the process 1 gets the port first.  No stack
has a NUL. -/
def threeProcesses : Launch 3 where
  text bytes := String.ofList (bytes.map fun b => Char.ofNat b.toNat)
  hostnames := ["a", "b", "a"]
  name p := if p.val = 2 then hostB else hostA
  port p := if p.val = 1 then 8 else 7
  stack _ := ⟨List.replicate 68 1, rfl⟩
  beyond _ := []
  hosts := by decide
  ports := by decide
  port_lt := by decide
  survive := by decide

/-- The process `p` connects to the mesh before `r` has its table. -/
def formingRun (p q r : Fin 3) : List (FormAction 3) :=
  [q, p, r, p, r, q, p, r, q, p, q, q, q, q, q, p, q].map .coordinate ++
    [.iterate p, .iterate q, .arrive 0 ⟨2, 0⟩, .iterate q, .coordinate r, .coordinate r,
      .iterate r, .arrive 0 ⟨1, 0⟩, .iterate q, .iterate r, .iterate p, .arrive 1 ⟨2, 1⟩,
      .iterate r, .iterate p]

theorem group_forms_three : ∃ f,
    exec (formStep threeProcesses) (Forming.init fun _ => 0) (formingRun 0 1 2) = some f ∧
      (formingRun 0 1 2).length ≤ 8 * 3 + 3 * (2 * 3) ∧
      ((∀ a, WaitsForNobody f a → formStep threeProcesses f a = none) →
        ∃ rank : Fin 3 ≃ Fin 3, ∀ q,
          threeProcesses.hostnames[(rank q : ℕ)]? = some (threeProcesses.host q) ∧
          f.coord.role q = .placed (rank q : ℕ)
            ((List.finRange 3).map fun j => (threeProcesses.port (rank.symm j) : ℤ)) ∧
          (f.mesh.procs (rank q)).j = 3) := by
  have hrun := (Option.some_get
    (x := exec (formStep threeProcesses) (Forming.init fun _ => 0) (formingRun 0 1 2))
    (by decide +kernel)).symm
  exact ⟨_, hrun, group_forms threeProcesses _ hrun⟩

/-- The table has the ports of the processes 1, 2 and 0. -/
theorem group_agrees_three : ∃ f,
    exec (formStep threeProcesses) (Forming.init fun _ => 0) (formingRun 0 1 2) = some f ∧
      f.coord.role 0 = .placed 2 [8, 7, 7] ∧
      ∀ q r' table', f.coord.role q = .placed r' table' → table' = [8, 7, 7] := by
  have hrun := (Option.some_get
    (x := exec (formStep threeProcesses) (Forming.init fun _ => 0) (formingRun 0 1 2))
    (by decide +kernel)).symm
  have hrole : ((exec (formStep threeProcesses) (Forming.init fun _ => 0) (formingRun 0 1 2)).get
      (by decide +kernel)).coord.role 0 = .placed 2 [8, 7, 7] := by decide +kernel
  obtain ⟨-, -, hagree⟩ := group_agrees threeProcesses _ hrun
  obtain ⟨_, -, -, hall⟩ := hagree 0 2 _ hrole
  exact ⟨_, hrun, hrole, fun q r' table' hq => (hall q r' table' hq).2⟩

end Coll
end Lfi
