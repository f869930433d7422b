/-
# The ranks of a group

In the coordination phase of `lfi_group_create` every worker tells the master its host name and
the port of its mesh server.  The master gives the workers their ranks in the order in which they
come:

    for (size_t r = 1; r < n_hosts; r++) {
        if (port_table[r] == -1 && std::string(info.host) == hostnames[r]) {
            assigned = r;
            break;
        }
    }

A slot is free while its port is -1.  When all have their rank the master sends them the table.

The free slots have, name by name, as many entries as there are workers still to come
(`Assigns`).  So every worker finds one, in whatever order they come and however often a name is
in the list (`ranks_bijective`).  The master holds the socket of every worker until the end, so
there are fewer workers than `int`s, and a rank fits one.
-/

import Lfi.Coll.Lifecycle
import Mathlib.Data.List.Nodup
import Mathlib.Data.List.Perm.Subperm
import Mathlib.Data.List.Range

namespace Lfi
namespace Coll

/-- `rank_info`, with the name as the worker sent it. -/
structure RankInfo where
  host : String
  port : ℕ
  deriving DecidableEq, Repr

/-- The master: `port_table`, and the `assigned` of the workers served so far. -/
structure Master where
  portTable : List ℤ
  answers : List ℤ
  deriving DecidableEq, Repr

/-- The slot for a worker, the first that is free and has its name. -/
def assigned (hostnames : List String) (portTable : List ℤ) (info : RankInfo) : Option ℕ :=
  (List.range' 1 (hostnames.length - 1)).find? fun r =>
    portTable[r]? = some (-1) ∧ hostnames[r]? = some info.host

/-- A worker is accepted; one without a slot is refused with -2. -/
def serveWorker (hostnames : List String) (m : Master) (info : RankInfo) : Master :=
  match assigned hostnames m.portTable info with
  | none => { m with answers := m.answers ++ [-2] }
  | some r => ⟨m.portTable.set r info.port, m.answers ++ [(r : ℤ)]⟩

/-- The master before the first worker comes. -/
def Master.start (hostnames : List String) (port : ℕ) : Master :=
  ⟨(List.replicate hostnames.length (-1)).set 0 port, []⟩

/-- The master after `arrivals` have come in this order; `port` is that of its own mesh server. -/
def master (hostnames : List String) (port : ℕ) (arrivals : List RankInfo) : Master :=
  arrivals.foldl (serveWorker hostnames) (.start hostnames port)

/-- What the worker that was served as the `i`-th gets: its rank and the table, or the error it
returns. -/
def Master.reply (m : Master) (i : ℕ) : Option (Except ℤ (ℤ × List ℤ)) :=
  m.answers[i]?.map fun rank =>
    if rank < 0 then .error (-lfiGroupNoSelf) else .ok (rank, m.portTable)

/-! ### Free slots -/

/-- The slots that are free. -/
def freeSlots (portTable : List ℤ) : List ℕ :=
  (List.range' 1 (portTable.length - 1)).filter fun r => portTable[r]? = some (-1)

variable {hostnames : List String} {portTable : List ℤ} {port r : ℕ} {info : RankInfo}

theorem nodup_freeSlots (portTable : List ℤ) : (freeSlots portTable).Nodup :=
  (List.nodup_range' ..).filter _

theorem mem_freeSlots : r ∈ freeSlots portTable ↔ 1 ≤ r ∧ portTable[r]? = some (-1) := by
  simp only [freeSlots, List.mem_filter, List.mem_range'_1, decide_eq_true_eq]
  constructor
  · rintro ⟨⟨hpos, -⟩, hfree⟩
    exact ⟨hpos, hfree⟩
  · rintro ⟨hpos, hfree⟩
    obtain ⟨hlt, -⟩ := List.getElem?_eq_some_iff.1 hfree
    exact ⟨⟨hpos, by omega⟩, hfree⟩

/-- A port that is written takes its slot. -/
theorem freeSlots_set (hr : r < portTable.length) (port : ℕ) :
    freeSlots (portTable.set r port) = (freeSlots portTable).erase r := by
  rw [(nodup_freeSlots portTable).erase_eq_filter, freeSlots, freeSlots, List.filter_filter,
    List.length_set]
  refine List.filter_congr fun x _ => ?_
  have hport : (port : ℤ) ≠ -1 := by omega
  by_cases hx : x = r
  · subst hx
    simp [hr, hport]
  · simp [hx, Ne.symm hx]

theorem assigned_eq_some (h : assigned hostnames portTable info = some r) :
    r ∈ freeSlots portTable ∧ hostnames[r]? = some info.host := by
  have hfound := List.find?_some h
  have hmem := List.mem_of_find?_eq_some h
  simp only [decide_eq_true_eq] at hfound
  exact ⟨mem_freeSlots.2 ⟨(List.mem_range'_1.1 hmem).1, hfound.1⟩, hfound.2⟩

/-- A free slot with the name of the worker is found. -/
theorem exists_assigned (hlen : portTable.length = hostnames.length) (hr : r ∈ freeSlots portTable)
    (hname : hostnames[r]? = some info.host) :
    ∃ r', assigned hostnames portTable info = some r' := by
  refine Option.isSome_iff_exists.1 (List.find?_isSome.2 ⟨r, ?_, ?_⟩)
  · obtain ⟨hpos, -⟩ := mem_freeSlots.1 hr
    obtain ⟨hlt, -⟩ := List.getElem?_eq_some_iff.1 hname
    exact List.mem_range'_1.2 ⟨hpos, by omega⟩
  · simp [(mem_freeSlots.1 hr).2, hname]

/-! ### The invariant -/

/-- **What holds while the workers come**: those that came have the ranks they are `given` with,
and for each name there are as many free slots as workers in `rest`. -/
structure Assigns (hostnames : List String) (port : ℕ) (given : List (ℕ × RankInfo))
    (rest : List RankInfo) (m : Master) : Prop where
  length : m.portTable.length = hostnames.length
  own : m.portTable[0]? = some (port : ℤ)
  free : ((freeSlots m.portTable).map (hostnames[·]?)).Perm (rest.map fun info => some info.host)
  answers : m.answers = given.map fun p => (p.1 : ℤ)
  nodup : (given.map (·.1)).Nodup
  slots : ∀ p ∈ given, 1 ≤ p.1 ∧ hostnames[p.1]? = some p.2.host ∧
    m.portTable[p.1]? = some (p.2.port : ℤ)

variable {m : Master} {given : List (ℕ × RankInfo)} {rest : List RankInfo}

/-- At the start every slot but the first is free. -/
theorem assigns_start (first : String) (names : List String) (port : ℕ)
    (hhosts : (rest.map (·.host)).Perm names) :
    Assigns (first :: names) port [] rest (.start (first :: names) port) where
  length := by simp [Master.start]
  own := by simp [Master.start]
  free := by
    have hall : freeSlots (Master.start (first :: names) port).portTable =
        List.range' 1 names.length := by
      have hlen : (Master.start (first :: names) port).portTable.length - 1 = names.length := by
        simp [Master.start]
      rw [freeSlots, hlen, List.filter_eq_self]
      intro r hr
      obtain ⟨hpos, hlt⟩ := List.mem_range'_1.1 hr
      have hslot : r < (first :: names).length := by
        rw [List.length_cons]
        omega
      rw [decide_eq_true_eq, Master.start, List.getElem?_set_ne (by omega),
        List.getElem?_replicate_of_lt hslot]
    have hnames : (List.range' 1 names.length).map ((first :: names)[·]?) = names.map some := by
      refine List.ext_getElem (by simp) fun i hi hi' => ?_
      have hlt : i < names.length := by simpa using hi'
      simp [Nat.add_comm 1 i, hlt]
    rw [hall, hnames]
    simpa [Function.comp_def] using (hhosts.map some).symm
  answers := rfl
  nodup := List.nodup_nil
  slots := nofun

/-- **A worker finds its slot.** -/
theorem Assigns.serveWorker (h : Assigns hostnames port given (info :: rest) m) :
    ∃ r, Assigns hostnames port (given ++ [(r, info)]) rest (serveWorker hostnames m info) := by
  have hwanted : some info.host ∈ (freeSlots m.portTable).map (hostnames[·]?) :=
    h.free.mem_iff.2 (List.mem_cons_self ..)
  obtain ⟨r', hr', hname'⟩ := List.mem_map.1 hwanted
  obtain ⟨r, hr⟩ := exists_assigned h.length hr' hname'
  obtain ⟨hfree, hname⟩ := assigned_eq_some hr
  obtain ⟨hpos, hslot⟩ := mem_freeSlots.1 hfree
  obtain ⟨hlt, -⟩ := List.getElem?_eq_some_iff.1 hslot
  have hserved : Coll.serveWorker hostnames m info =
      ⟨m.portTable.set r info.port, m.answers ++ [(r : ℤ)]⟩ := by
    rw [Coll.serveWorker, hr]
  -- a rank that was given has a port in its slot
  have hold : ∀ p ∈ given, p.1 ≠ r := by
    rintro p hp rfl
    have hport := (h.slots p hp).2.2
    rw [hslot, Option.some.injEq] at hport
    omega
  refine ⟨r, ?_⟩
  rw [hserved]
  refine ⟨by simp [h.length], ?_, ?_, by simp [h.answers], ?_, fun p hp => ?_⟩
  · rw [List.getElem?_set_ne (by omega)]
    exact h.own
  · rw [freeSlots_set hlt]
    have hperm := ((List.perm_cons_erase hfree).map (hostnames[·]?)).symm.trans h.free
    rw [List.map_cons, List.map_cons, hname] at hperm
    exact hperm.cons_inv
  · rw [List.map_append, List.nodup_append]
    refine ⟨h.nodup, List.nodup_singleton r, fun a ha b hb => ?_⟩
    obtain ⟨p, hp, rfl⟩ := List.mem_map.1 ha
    rw [List.mem_singleton.1 hb]
    exact hold p hp
  · rcases List.mem_append.1 hp with hp | hp
    · obtain ⟨hpos', hname', hport⟩ := h.slots p hp
      exact ⟨hpos', hname', (List.getElem?_set_ne (hold p hp).symm).trans hport⟩
    · rw [List.mem_singleton.1 hp]
      exact ⟨hpos, hname, by simp [hlt]⟩

/-- So do all that come. -/
theorem Assigns.foldl (h : Assigns hostnames port given rest m) :
    ∃ ranks : List ℕ, ranks.length = rest.length ∧
      Assigns hostnames port (given ++ ranks.zip rest) []
        (rest.foldl (Coll.serveWorker hostnames) m) := by
  induction rest generalizing given m with
  | nil => exact ⟨[], rfl, by simpa using h⟩
  | cons info rest ih =>
    obtain ⟨r, hr⟩ := h.serveWorker
    obtain ⟨ranks, hlen, hranks⟩ := ih hr
    refine ⟨r :: ranks, by simp [hlen], ?_⟩
    rwa [List.append_assoc] at hranks

/-- **The ranks are a bijection.**  When the names of the workers are those of the list but the
first, in any order, every worker gets a rank of its own, from 1 on, whose name is the
worker's.  The table that is sent to all has the port of every worker at its rank and the
master's at 0. -/
theorem ranks_bijective (first : String) (names : List String) (port : ℕ)
    (arrivals : List RankInfo) (hhosts : (arrivals.map (·.host)).Perm names) :
    let m := master (first :: names) port arrivals
    m.portTable.length = names.length + 1 ∧ m.portTable[0]? = some (port : ℤ) ∧
      ∃ ranks : List ℕ, ranks.Perm (List.range' 1 names.length) ∧
        ∀ (i : ℕ) (info : RankInfo), arrivals[i]? = some info → ∃ r : ℕ, ranks[i]? = some r ∧
          1 ≤ r ∧ (first :: names)[r]? = some info.host ∧
          m.portTable[r]? = some (info.port : ℤ) ∧ m.reply i = some (.ok (r, m.portTable)) := by
  intro m
  obtain ⟨ranks, hlen, h⟩ := (assigns_start first names port hhosts).foldl
  rw [List.nil_append] at h
  have hworkers : arrivals.length = names.length := by simpa using hhosts.length_eq
  have hfst : (ranks.zip arrivals).map (·.1) = ranks := List.map_fst_zip hlen.le
  have hnodup : ranks.Nodup := hfst ▸ h.nodup
  have hsub : ∀ r ∈ ranks, r ∈ List.range' 1 names.length := by
    intro r hr
    rw [← hfst] at hr
    obtain ⟨p, hp, rfl⟩ := List.mem_map.1 hr
    obtain ⟨hpos, hname, -⟩ := h.slots p hp
    obtain ⟨hlt, -⟩ := List.getElem?_eq_some_iff.1 hname
    rw [List.length_cons] at hlt
    exact List.mem_range'_1.2 ⟨hpos, by omega⟩
  have hperm : ranks.Perm (List.range' 1 names.length) :=
    (List.subperm_of_subset hnodup hsub).perm_of_length_le (by simp [hlen, hworkers])
  refine ⟨h.length, h.own, ranks, hperm, fun i info hi => ?_⟩
  obtain ⟨hlt, -⟩ := List.getElem?_eq_some_iff.1 hi
  obtain ⟨rank, hrank⟩ : ∃ rank, ranks[i]? = some rank :=
    ⟨_, List.getElem?_eq_getElem (hlen.symm ▸ hlt)⟩
  have hpair : (rank, info) ∈ ranks.zip arrivals := by
    refine List.mem_of_getElem? (i := i) ?_
    rw [List.getElem?_zip_eq_some]
    exact ⟨hrank, hi⟩
  obtain ⟨hpos, hname, hport⟩ := h.slots _ hpair
  refine ⟨_, hrank, hpos, hname, hport, ?_⟩
  have hanswer : m.answers[i]? = some (rank : ℤ) := by
    rw [show m.answers = ranks.map fun r : ℕ => (r : ℤ) from ?_, List.getElem?_map, hrank]
    · rfl
    · rw [← hfst, List.map_map]
      exact h.answers
  simp [Master.reply, hanswer]

/-- Two workers of one host and one of the master's own, in another order than the list's. -/
theorem ranks_bijective_repeated :
    let m := master ["a", "b", "a", "b"] 5 [⟨"b", 6⟩, ⟨"b", 7⟩, ⟨"a", 9⟩]
    m.portTable = [5, 6, 9, 7] ∧ m.answers = [1, 3, 2] ∧
      ∃ ranks : List ℕ, ranks.Perm [1, 2, 3] ∧
        ∃ r : ℕ, ranks[1]? = some r ∧ m.reply 1 = some (.ok (r, m.portTable)) := by
  obtain ⟨-, -, ranks, hperm, hall⟩ :=
    ranks_bijective "a" ["b", "a", "b"] 5 [⟨"b", 6⟩, ⟨"b", 7⟩, ⟨"a", 9⟩] (by decide)
  obtain ⟨r, hr, -, -, -, hreply⟩ := hall 1 ⟨"b", 7⟩ rfl
  exact ⟨by decide, by decide, ranks, hperm, r, hr, hreply⟩

end Coll
end Lfi
