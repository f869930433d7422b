/-
# The life of a group object

`lfi_group_create`, `lfi_group_close`, the queries and the collectives of
`src/lfi_coll.cpp` on one `lfi_group`, in any order, with every phase of the creation
ending well or badly.

Whether a group is there is written down twice, in `size` and in `ranks`.  A creation that
fails early leaves neither; one that fails in the mesh, or for want of memory, leaves
`size`, and so does `lfi_group_close`.  The queries look at both, `lfi_group_close` and the
collectives at `size` alone, and then index `ranks`.  `life_iff` says which calls that
harms.
-/

import Lfi.Runs.Basic
import Mathlib.Data.Int.Notation

namespace Lfi
namespace Coll

open Runs

/-- `LFI_GROUP_NO_INIT`. -/
def lfiGroupNoInit : ℤ := 12
/-- `LFI_GROUP_NO_SELF`. -/
def lfiGroupNoSelf : ℤ := 13
/-- `LFI_GROUP_INVAL`. -/
def lfiGroupInval : ℤ := 14

/-- `lfi_group`; `ranks` is null or an array. -/
structure LfiGroup where
  size : ℕ
  ranks : Option (List ℤ)
  rank : ℤ
  deriving DecidableEq, Repr

/-- What a creation meets: the arguments, the results of the socket calls of both roles in
the coordination (`masterServerFd` is -1 on a host that is not the first), of `malloc`, of
the connections of the mesh and of `lfi_client_close`. -/
structure Setting where
  hostnames : Bool
  nHosts : ℕ
  meshServerFd : ℤ
  masterServerFd : ℤ
  accept : ℕ → ℤ
  masterComm : ℤ
  assigned : ℤ
  malloc : Bool
  connect : ℕ → ℤ
  close : ℤ → ℤ

namespace LfiGroup

variable (g : LfiGroup)

/-- `group->ranks[i]`; none is the access through a null pointer. -/
def rankAt (i : ℕ) : Option ℤ := g.ranks.map fun ranks => ranks.getD i (-1)

/-- The loop of `lfi_group_close`. -/
def closeRanks (close : ℤ → ℤ) : Option ℤ :=
  (List.range g.size).foldlM (fun res i => do
    let rank ← g.rankAt i
    if rank < 0 then some res else some (if close rank < 0 then close rank else res)) 0

/-- `lfi_group_close(group)`. -/
def lfiGroupClose (close : ℤ → ℤ) : Option ℤ × LfiGroup :=
  match g.closeRanks close with
  | none => (none, g)
  | some res => (some res, { g with ranks := none })

/-- `lfi_group_rank`, `lfi_group_size` and `lfi_time`; `value` is what they return when there is a
group, 0 or the time. -/
def query (value : ℤ) : Option ℤ × LfiGroup :=
  if g.size = 0 ∨ g.ranks = none then (some (-lfiGroupNoInit), g) else (some value, g)

/-- The entries of `ranks` that a collective with this root goes through.  Here and in `connectMesh`
`static_cast<int>` of an index is the index: the groups have at most `2 ^ 31` processes
(`others_eq_peers`). -/
def peers (root : ℤ) : List ℕ :=
  if g.rank = root then (List.range g.size).filter fun i => (i : ℤ) ≠ root else [root.toNat]

/-- `lfi_barrier`, `lfi_broadcast` and `lfi_allreduce`.  `exchange` is what comes of the
requests to the peers; the root of a group of one has none. -/
def collective (root : ℤ) (exchange : List ℤ → ℤ) : Option ℤ × LfiGroup :=
  if g.size = 0 then (some (-1), g)
  else (do
    let comms ← (g.peers root).mapM g.rankAt
    some (if comms = [] then 0 else exchange comms), g)

/-- The coordination of `lfi_group_create`: the rank, or the error. -/
def coordinate (e : Setting) : Except ℤ ℤ :=
  if 0 ≤ e.masterServerFd then
    match (List.range' 1 (e.nHosts - 1)).find? fun i => e.accept i < 0 with
    | some i => .error (e.accept i)
    | none => .ok 0
  else if e.masterComm < 0 then .error e.masterComm
  else if e.assigned < 0 then .error (-lfiGroupNoSelf)
  else .ok e.assigned

/-- The mesh from the rank `j` on, `n` ranks.  Where a connection fails the group is
closed. -/
def connectMesh (e : Setting) : ℕ → ℕ → LfiGroup → Option ℤ × LfiGroup
  | 0, _, g => (some 0, g)
  | n + 1, j, g =>
      if (j : ℤ) = g.rank then connectMesh e n (j + 1) g
      else
        let comm := e.connect j
        let g := { g with ranks := g.ranks.map fun ranks => ranks.set j comm }
        if comm < 0 then
          -- the result of the close is not looked at
          ((g.lfiGroupClose e.close).1.map fun _ => comm, (g.lfiGroupClose e.close).2)
        else connectMesh e n (j + 1) g

/-- `lfi_group_create(hostnames, n_hosts, out_group)` with a group.  The `lfi_barrier` at
its end changes nothing and its result is not looked at. -/
def lfiGroupCreate (e : Setting) : Option ℤ × LfiGroup :=
  let g : LfiGroup := ⟨0, none, -1⟩
  if e.nHosts = 0 ∨ e.hostnames = false then (some (-lfiGroupInval), g)
  else if e.meshServerFd < 0 then (some e.meshServerFd, g)
  else
    match coordinate e with
    | .error err => (some err, g)
    | .ok rank =>
        if e.malloc then
          connectMesh e e.nHosts 0 ⟨e.nHosts, some (List.replicate e.nHosts (-1)), rank⟩
        else (some (-1), ⟨e.nHosts, none, rank⟩)

end LfiGroup

/-- The calls on the object.  A query comes with what it returns of a group, a collective
with what comes of its requests. -/
inductive GroupCall where
  | create (e : Setting)
  | close (close : ℤ → ℤ)
  | query (value : ℤ)
  | collective (root : ℤ) (exchange : List ℤ → ℤ)

/-- The object.  `created` is history: the last `lfi_group_create` succeeded, and the group
was not closed since. -/
structure GroupLife where
  group : LfiGroup
  created : Bool

/-- What a call returns, none when it goes through the null pointer, and what it leaves. -/
def GroupLife.call (s : GroupLife) : GroupCall → Option ℤ × LfiGroup
  | .create e => LfiGroup.lfiGroupCreate e
  | .close close => s.group.lfiGroupClose close
  | .query value => s.group.query value
  | .collective root exchange => s.group.collective root exchange

/-- One call. -/
def groupStep (s : GroupLife) (c : GroupCall) : Option GroupLife :=
  let result := s.call c
  some ⟨result.2, match c with
    | .create _ => result.1 == some 0
    | .close _ => false
    | _ => s.created⟩

/-- What a call is to do when there is no group: a query and a collective return an error, and
a close returns 0 and changes nothing. -/
def Harmless (s : GroupLife) (ret : ℤ) : GroupCall → Prop
  | .create _ => True
  | .close close => ret = 0 ∧ (s.call (.close close)).2 = s.group
  | .query _ => ret < 0
  | .collective _ _ => ret < 0

/-- **The promise.**  No call indexes `ranks` while it is null, and without a group the calls
are harmless. -/
structure Kept (s : GroupLife) (c : GroupCall) : Prop where
  indexed : (s.call c).1 ≠ none
  harmless : s.created = false → ∀ ret ∈ (s.call c).1, Harmless s ret c

/-- What the calls that look at `size` alone rely on: there is a group, or `size` is 0. -/
def SizeTold (s : GroupLife) : GroupCall → Prop
  | .close _ => s.created = true ∨ s.group.size = 0
  | .collective _ _ => s.created = true ∨ s.group.size = 0
  | _ => True

/-! ### What a call leaves -/

variable {s t : GroupLife} {g : LfiGroup}

/-- The group and what `created` says of it. -/
structure LifeInv (s : GroupLife) : Prop where
  there : s.created = true → 0 < s.group.size ∧ s.group.ranks ≠ none
  gone : s.created = false → s.group.ranks = none

namespace LfiGroup

theorem rankAt_ne_none (h : g.ranks ≠ none) (i : ℕ) : ∃ r, g.rankAt i = some r := by
  obtain ⟨ranks, hranks⟩ := Option.ne_none_iff_exists'.1 h
  exact ⟨_, by rw [rankAt, hranks]; rfl⟩

/-- With an array a close goes through. -/
theorem closeRanks_of_ranks (h : g.ranks ≠ none) (close : ℤ → ℤ) :
    ∃ res, g.closeRanks close = some res := by
  have hloop : ∀ (is : List ℕ) (res : ℤ), ∃ res', is.foldlM (fun res i => do
      let rank ← g.rankAt i
      if rank < 0 then some res else some (if close rank < 0 then close rank else res)) res =
        some res' := by
    intro is
    induction is with
    | nil => exact fun res => ⟨res, rfl⟩
    | cons i is ih =>
        intro res
        obtain ⟨r, hr⟩ := rankAt_ne_none h i
        rw [List.foldlM_cons, hr]
        simp only [Option.bind_eq_bind, Option.bind_some]
        split
        case isTrue => exact ih res
        case isFalse => exact ih _
  exact hloop _ _

/-- Without one the first index is through the null pointer. -/
theorem closeRanks_of_null (h : g.ranks = none) (close : ℤ → ℤ) :
    g.closeRanks close = if g.size = 0 then some 0 else none := by
  have hnull : ∀ i, g.rankAt i = none := fun i => by rw [rankAt, h]; rfl
  unfold closeRanks
  cases hsize : g.size with
  | zero => rfl
  | succ n =>
      rw [List.range_succ_eq_map, List.foldlM_cons, hnull]
      rfl

/-- A creation succeeds with an array, or leaves none. -/
theorem connectMesh_spec (e : Setting) (n j : ℕ) (h : g.ranks ≠ none) :
    ∃ ret, (connectMesh e n j g).1 = some ret ∧ (connectMesh e n j g).2.size = g.size ∧
      ((connectMesh e n j g).2.ranks ≠ none ↔ ret = 0) := by
  induction n generalizing j g with
  | zero => exact ⟨0, rfl, rfl, iff_of_true h rfl⟩
  | succ n ih =>
      unfold connectMesh
      split
      case isTrue => exact ih (j + 1) h
      case isFalse =>
        have hset : g.ranks.map (fun ranks => ranks.set j (e.connect j)) ≠ none := by
          rwa [Ne, Option.map_eq_none_iff]
        dsimp only
        split
        case isFalse => exact ih (j + 1) (g := { g with ranks := _ }) hset
        case isTrue hneg =>
          obtain ⟨res, hres⟩ := closeRanks_of_ranks
            (g := { g with ranks := g.ranks.map fun ranks => ranks.set j (e.connect j) }) hset
            e.close
          refine ⟨e.connect j, ?_, ?_, ?_⟩
          · simp [lfiGroupClose, hres]
          · simp [lfiGroupClose, hres]
          · simp only [lfiGroupClose, hres]
            exact iff_of_false (fun hne => hne rfl) (Int.ne_of_lt hneg)

theorem lfiGroupCreate_spec (e : Setting) :
    ∃ ret, (lfiGroupCreate e).1 = some ret ∧
      (ret = 0 → 0 < (lfiGroupCreate e).2.size ∧ (lfiGroupCreate e).2.ranks ≠ none) ∧
      (ret ≠ 0 → (lfiGroupCreate e).2.ranks = none) := by
  unfold lfiGroupCreate
  dsimp only
  split
  case isTrue => exact ⟨_, rfl, by decide, fun _ => rfl⟩
  case isFalse hargs =>
    split
    case isTrue hfd => exact ⟨_, rfl, fun h0 => absurd h0 (Int.ne_of_lt hfd), fun _ => rfl⟩
    case isFalse =>
      split
      case h_1 err herr =>
        refine ⟨err, rfl, fun h0 => ?_, fun _ => rfl⟩
        exfalso
        unfold coordinate at herr
        split at herr
        case isTrue =>
          split at herr
          case h_1 i hi =>
            have hneg := List.find?_some hi
            simp only [decide_eq_true_eq] at hneg
            rw [Except.error.inj herr] at hneg
            omega
          case h_2 => cases herr
        case isFalse =>
          split at herr
          case isTrue hneg =>
            rw [Except.error.inj herr] at hneg
            omega
          case isFalse =>
            split at herr
            case isTrue =>
              have := Except.error.inj herr
              unfold lfiGroupNoSelf at this
              omega
            case isFalse => cases herr
      case h_2 rank _ =>
        split
        case isFalse => exact ⟨-1, rfl, fun h0 => absurd h0 (by decide), fun _ => rfl⟩
        case isTrue =>
          obtain ⟨ret, hret, hsize, hranks⟩ := connectMesh_spec e e.nHosts 0
            (g := ⟨e.nHosts, some (List.replicate e.nHosts (-1)), rank⟩) nofun
          refine ⟨ret, hret, fun h0 => ⟨?_, hranks.2 h0⟩, fun hne => ?_⟩
          · rw [hsize]
            exact Nat.pos_of_ne_zero fun hzero => hargs (.inl hzero)
          · by_contra hsome
            exact hne (hranks.1 hsome)

/-- A collective of a group with members. -/
theorem collective_of_pos (hsize : 0 < g.size) (root : ℤ) (exchange : List ℤ → ℤ) :
    (g.collective root exchange).1 = ((g.peers root).mapM g.rankAt).bind fun comms =>
      some (if comms = [] then 0 else exchange comms) := by
  rw [collective, if_neg (Nat.ne_of_gt hsize)]
  rfl

/-- With an array every index goes through. -/
theorem mapM_of_ranks (h : g.ranks ≠ none) (is : List ℕ) :
    ∃ comms, is.mapM g.rankAt = some comms := by
  induction is with
  | nil => exact ⟨[], rfl⟩
  | cons i is ih =>
      obtain ⟨r, hr⟩ := rankAt_ne_none h i
      obtain ⟨comms, hcomms⟩ := ih
      exact ⟨r :: comms, by simp [List.mapM_cons, hr, hcomms]⟩

/-- Without one a collective indexes the null pointer, or goes about a group of one and
returns 0. -/
theorem collective_of_null (h : g.ranks = none) (hsize : 0 < g.size) (root : ℤ)
    (exchange : List ℤ → ℤ) :
    (g.collective root exchange).1 = none ∨ (g.collective root exchange).1 = some 0 := by
  rw [collective_of_pos hsize]
  cases g.peers root with
  | nil => exact .inr rfl
  | cons i is => exact .inl (by simp [List.mapM_cons, rankAt, h])

end LfiGroup

/-- **Every call keeps the invariant**, and the first creation sets it up. -/
theorem lifeInv_step {c : GroupCall} (h : (∃ e, c = .create e) ∨ LifeInv s)
    (ht : groupStep s c = some t) : LifeInv t := by
  obtain rfl := Option.some.inj ht
  cases c with
  | create e =>
      obtain ⟨ret, hret, hok, hfail⟩ := LfiGroup.lfiGroupCreate_spec e
      have hcreated : ((LfiGroup.lfiGroupCreate e).1 == some 0) = decide (ret = 0) := by
        rw [hret]
        rfl
      refine ⟨fun hc => hok ?_, fun hc => hfail ?_⟩
      · exact of_decide_eq_true (hcreated.symm.trans hc)
      · exact of_decide_eq_false (hcreated.symm.trans hc)
  | close close =>
      have hs := h.resolve_left nofun
      refine ⟨nofun, fun _ => ?_⟩
      show (s.group.lfiGroupClose close).2.ranks = none
      unfold LfiGroup.lfiGroupClose
      split
      case h_2 => rfl
      case h_1 hnull =>
        by_contra hsome
        obtain ⟨res, hres⟩ := LfiGroup.closeRanks_of_ranks hsome close
        rw [hnull] at hres
        cases hres
  | query value =>
      have hs := h.resolve_left nofun
      have hsame : (s.group.query value).2 = s.group := by
        unfold LfiGroup.query
        split <;> rfl
      exact ⟨fun hc => hsame ▸ hs.there hc, fun hc => hsame ▸ hs.gone hc⟩
  | collective root exchange =>
      have hs := h.resolve_left nofun
      have hsame : (s.group.collective root exchange).2 = s.group := by
        unfold LfiGroup.collective
        split <;> rfl
      exact ⟨fun hc => hsame ▸ hs.there hc, fun hc => hsame ▸ hs.gone hc⟩

/-- A call that looks at `size` alone is told the truth when `size` is 0, if there is no
group. -/
theorem told_iff (hc : s.created = false) :
    (s.created = true ∨ s.group.size = 0) ↔ s.group.size = 0 := by
  rw [hc]
  exact or_iff_right nofun

/-- A close. -/
theorem kept_close_iff (h : LifeInv s) (close : ℤ → ℤ) :
    Kept s (.close close) ↔ s.created = true ∨ s.group.size = 0 := by
  have hcall : s.call (.close close) = s.group.lfiGroupClose close := rfl
  cases hc : s.created with
  | true =>
      obtain ⟨res, hres⟩ := LfiGroup.closeRanks_of_ranks (h.there hc).2 close
      refine iff_of_true ⟨?_, fun hnot => ?_⟩ (.inl rfl)
      · rw [hcall]
        simp [LfiGroup.lfiGroupClose, hres]
      · rw [hc] at hnot
        cases hnot
  | false =>
      have hnull := LfiGroup.closeRanks_of_null (h.gone hc) close
      rw [← hc, told_iff hc]
      by_cases hsize : s.group.size = 0
      case pos =>
        rw [if_pos hsize] at hnull
        have hclose : s.group.lfiGroupClose close = (some 0, { s.group with ranks := none }) := by
          rw [LfiGroup.lfiGroupClose, hnull]
        refine iff_of_true ⟨?_, fun _ ret hret => ?_⟩ hsize
        · rw [hcall, hclose]
          nofun
        · rw [hcall, hclose] at hret
          refine ⟨(Option.some.inj hret).symm, ?_⟩
          rw [hcall, hclose, ← h.gone hc]
      case neg =>
        rw [if_neg hsize] at hnull
        refine iff_of_false (fun hk => hk.indexed ?_) hsize
        rw [hcall]
        simp [LfiGroup.lfiGroupClose, hnull]

/-- A collective. -/
theorem kept_collective_iff (h : LifeInv s) (root : ℤ) (exchange : List ℤ → ℤ) :
    Kept s (.collective root exchange) ↔ s.created = true ∨ s.group.size = 0 := by
  have hcall : s.call (.collective root exchange) = s.group.collective root exchange := rfl
  cases hc : s.created with
  | true =>
      obtain ⟨hpos, hranks⟩ := h.there hc
      obtain ⟨comms, hcomms⟩ := LfiGroup.mapM_of_ranks hranks (s.group.peers root)
      refine iff_of_true ⟨?_, fun hnot => ?_⟩ (.inl rfl)
      · rw [hcall, LfiGroup.collective_of_pos hpos, hcomms]
        nofun
      · rw [hc] at hnot
        cases hnot
  | false =>
      rw [← hc, told_iff hc]
      by_cases hsize : s.group.size = 0
      case pos =>
        have heq : (s.group.collective root exchange).1 = some (-1) := by
          rw [LfiGroup.collective, if_pos hsize]
        refine iff_of_true ⟨?_, fun _ ret hret => ?_⟩ hsize
        · rw [hcall, heq]
          nofun
        · rw [hcall, heq] at hret
          rw [← Option.some.inj hret]
          show (-1 : ℤ) < 0
          decide
      case neg =>
        refine iff_of_false (fun hk => ?_) hsize
        have hind := hk.indexed
        have hneg := hk.harmless hc
        rw [hcall] at hind hneg
        rcases LfiGroup.collective_of_null (h.gone hc) (Nat.pos_of_ne_zero hsize) root
          exchange with heq | heq
        · exact hind heq
        · exact absurd (hneg 0 heq) (Int.lt_irrefl _)

/-- **One call.** -/
theorem kept_iff {c : GroupCall} (h : (∃ e, c = .create e) ∨ LifeInv s) :
    Kept s c ↔ SizeTold s c := by
  cases c with
  | create e =>
      obtain ⟨ret, hret, -, -⟩ := LfiGroup.lfiGroupCreate_spec e
      refine iff_of_true ⟨?_, fun _ _ _ => trivial⟩ trivial
      show (LfiGroup.lfiGroupCreate e).1 ≠ none
      rw [hret]
      nofun
  | query value =>
      have hs := h.resolve_left nofun
      refine iff_of_true ⟨?_, fun hc ret hret => ?_⟩ trivial
      · show (s.group.query value).1 ≠ none
        unfold LfiGroup.query
        split <;> nofun
      · have heq : (s.group.query value).1 = some (-lfiGroupNoInit) := by
          rw [LfiGroup.query, if_pos (.inr (hs.gone hc))]
        rw [show s.call (.query value) = s.group.query value from rfl, heq] at hret
        rw [← Option.some.inj hret]
        show -lfiGroupNoInit < 0
        decide
  | close close => exact kept_close_iff (h.resolve_left nofun) close
  | collective root exchange => exact kept_collective_iff (h.resolve_left nofun) root exchange

/-- **When a group object is safe.**  Whatever the object held before and whatever the first
creation came to, the promise is kept by every call of a sequence if and only if every
close and every collective is made with a group that is there or with `size` 0. -/
theorem life_iff (s : GroupLife) (e : Setting) (calls : List GroupCall) :
    Meets groupStep Kept s (.create e :: calls) ↔
      Meets groupStep SizeTold s (.create e :: calls) := by
  have hrest : ∀ (calls : List GroupCall) (t : GroupLife), LifeInv t →
      (Meets groupStep Kept t calls ↔ Meets groupStep SizeTold t calls) := by
    intro calls
    induction calls with
    | nil => exact fun _ _ => Iff.rfl
    | cons c calls ih =>
        intro t ht
        refine and_congr (kept_iff (.inr ht)) (forall_congr' fun u => forall_congr' fun hu => ?_)
        exact ih u (lifeInv_step (.inr ht) hu)
  refine and_congr (kept_iff (.inl ⟨e, rfl⟩)) (forall_congr' fun u => forall_congr' fun hu => ?_)
  exact hrest calls u (lifeInv_step (.inl ⟨e, rfl⟩) hu)

/-- Two hosts, this one the first, and nothing fails. -/
def twoHosts : Setting :=
  ⟨true, 2, 3, 4, fun _ => 5, 0, 0, true, fun _ => 7, fun _ => 0⟩

/-- **A group that is closed twice.** -/
theorem life_closedTwice :
    ¬ ∀ (s : GroupLife) (e : Setting) (calls : List GroupCall),
      Meets groupStep Kept s (.create e :: calls) := by
  intro hall
  have hmeets := hall ⟨⟨0, none, -1⟩, false⟩ twoHosts [.close fun _ => 0, .close fun _ => 0]
  have hclosed : Kept ⟨⟨2, none, 0⟩, false⟩ (.close fun _ => 0) :=
    (((hmeets.2 _ rfl).2 _ rfl)).1
  exact hclosed.indexed rfl

end Coll
end Lfi
