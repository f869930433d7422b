/-
# The invariant of the mesh phase

What holds at every point of phase 4 of `lfi_group_create`, whatever the order
of the connects, arrivals and accepts (`MeshInv.step`).  Two counters carry it:
the loop counter of a process, below which its slots are filled, and the number
of connections its mesh server has handed out, which follows the loop counter
once it is past the own rank (`MeshInv.accepted_eq`).  So the slot of the higher
rank `x` belongs to the connection that arrived as number `x - (i + 1)`, whoever
made it.
-/

import Lfi.Coll.Mesh

namespace Lfi
namespace Coll

open Runs

/-- What holds of the process of rank `p` at every point of its loop: the slots
below the counter are filled, its own one excepted, with distinct fresh ids. -/
structure ProcInv (p : ℕ) (q : Proc) : Prop where
  stored : ∀ x a, q.ranks x = some a → x < q.j ∧ x ≠ p ∧ a < q.rankCounter
  inj : ∀ x y a, q.ranks x = some a → q.ranks y = some a → x = y
  filled : ∀ x, x < q.j → x ≠ p → ∃ a, q.ranks x = some a

/-- Storing a fresh id leaves the filled slots as they are. -/
theorem ProcInv.store_ranks {p : ℕ} {q : Proc} (hq : ProcInv p q) {x a : ℕ}
    (h : q.ranks x = some a) : q.store.ranks x = some a := by
  have hx := (hq.stored x a h).1
  simp only [Proc.store]
  rw [Function.update_of_ne (by omega), h]

/-- Storing fills the slot of the counter and no other. -/
theorem Proc.store_ranks_iff {q : Proc} {x a : ℕ} :
    q.store.ranks x = some a ↔ (x = q.j ∧ a = q.rankCounter) ∨ (x ≠ q.j ∧ q.ranks x = some a) := by
  simp only [Proc.store]
  by_cases hx : x = q.j
  · subst hx; simp [eq_comm]
  · simp [hx]

theorem ProcInv.store {p : ℕ} {q : Proc} (hq : ProcInv p q) (hj : q.j ≠ p) :
    ProcInv p q.store where
  stored x a h := by
    rcases Proc.store_ranks_iff.1 h with ⟨rfl, rfl⟩ | ⟨-, h⟩
    · simp [Proc.store, hj]
    · obtain ⟨h₁, h₂, h₃⟩ := hq.stored x a h
      simp only [Proc.store]
      omega
  inj x y a hx hy := by
    rcases Proc.store_ranks_iff.1 hx with ⟨rfl, rfl⟩ | ⟨-, hx⟩ <;>
      rcases Proc.store_ranks_iff.1 hy with ⟨rfl, ha⟩ | ⟨-, hy⟩
    · rfl
    · exact absurd (hq.stored y _ hy).2.2 (Nat.lt_irrefl _)
    · exact absurd (hq.stored x _ hx).2.2 (by omega)
    · exact hq.inj x y a hx hy
  filled x hx hxp := by
    by_cases hxj : x = q.j
    · exact ⟨q.rankCounter, Proc.store_ranks_iff.2 (.inl ⟨hxj, rfl⟩)⟩
    · simp only [Proc.store] at hx
      obtain ⟨a, ha⟩ := hq.filled x (by omega) hxp
      exact ⟨a, hq.store_ranks ha⟩

/-- `continue` at the own rank. -/
theorem ProcInv.skip {p : ℕ} {q : Proc} (hq : ProcInv p q) (hj : q.j = p) :
    ProcInv p { q with j := p + 1 } where
  stored x a h := by
    obtain ⟨h₁, h₂, h₃⟩ := hq.stored x a h
    exact ⟨by simp only; omega, h₂, h₃⟩
  inj := hq.inj
  filled x hx hxp := hq.filled x (by simp only at hx; omega) hxp

/-- **The invariant of phase 4.**  A connection of `e` to rank `i` is recorded in
slot `i` of the process that made it, and is at one place; the mesh server of
rank `i` has accepted one connection for each slot above `i` its owner is past;
and the slot `x` of the owner belongs to the connection that arrived as number
`x - (i + 1)`. -/
structure MeshInv (tbl : PortTable) (s : MeshState) : Prop where
  proc : ∀ p, ProcInv p (s.procs p)
  conn : ∀ i e, (i, e) ∈ s.inFlight ∨ e ∈ (s.servers i).arrived →
    i < e.rank ∧ e.rank < tbl.nHosts ∧ (s.procs e.rank).ranks i = some e.comm
  nodup_inFlight : s.inFlight.Nodup
  nodup_arrived : ∀ i, (s.servers i).arrived.Nodup
  notYet : ∀ i e, (i, e) ∈ s.inFlight → e ∉ (s.servers i).arrived
  accepted_eq : ∀ i, (s.servers i).accepted = (s.procs i).j - (i + 1)
  accepted_le : ∀ i, (s.servers i).accepted ≤ (s.servers i).arrived.length
  linked : ∀ a b, (a, b) ∈ s.links ↔ ∃ x, b.rank < x ∧
    (s.procs b.rank).ranks x = some b.comm ∧
    (s.servers b.rank).arrived[x - (b.rank + 1)]? = some a

theorem meshInv_init (tbl : PortTable) (counter : ℕ → ℕ) : MeshInv tbl (meshInit counter) := by
  constructor <;> simp [meshInit]
  intro p
  constructor <;> simp

/-- A connection of the process of rank `p` to a slot at or past its counter has
not been made. -/
theorem MeshInv.conn_absent {tbl : PortTable} {s : MeshState} (hs : MeshInv tbl s) {i : ℕ}
    {e : CommEnd} (h : (s.procs e.rank).j ≤ i) :
    (i, e) ∉ s.inFlight ∧ e ∉ (s.servers i).arrived := by
  constructor <;> intro hmem
  · have := (hs.proc e.rank).stored _ _ (hs.conn i e (.inl hmem)).2.2
    omega
  · have := (hs.proc e.rank).stored _ _ (hs.conn i e (.inr hmem)).2.2
    omega

/-- `continue` keeps the invariant: it moves a counter past the own slot. -/
theorem MeshInv.skip {tbl : PortTable} {s : MeshState} (hs : MeshInv tbl s) {p : ℕ}
    (hj : (s.procs p).j = p) :
    MeshInv tbl { s with procs := Function.update s.procs p { s.procs p with j := p + 1 } } := by
  have hranks : ∀ q, (Function.update s.procs p { s.procs p with j := p + 1 } q).ranks =
      (s.procs q).ranks := by
    intro q
    by_cases hq : q = p
    · subst hq; simp
    · simp [hq]
  constructor
  case proc =>
    intro q
    by_cases hq : q = p
    · subst hq; simpa using (hs.proc q).skip hj
    · simpa [hq] using hs.proc q
  case conn => simpa only [hranks] using hs.conn
  case accepted_eq =>
    intro i
    have hi := hs.accepted_eq i
    by_cases hip : i = p
    · subst hip; simp; omega
    · simpa [hip] using hi
  case linked => simpa only [hranks] using hs.linked
  case nodup_inFlight => exact hs.nodup_inFlight
  case nodup_arrived => exact hs.nodup_arrived
  case notYet => exact hs.notYet
  case accepted_le => exact hs.accepted_le

/-- What a process stored it keeps when it stores the next id. -/
theorem MeshInv.ranks_store {tbl : PortTable} {s : MeshState} (hs : MeshInv tbl s) {p q x a : ℕ}
    (h : (s.procs q).ranks x = some a) :
    (Function.update s.procs p (s.procs p).store q).ranks x = some a := by
  by_cases hq : q = p
  · subst hq; simpa using (hs.proc q).store_ranks h
  · simpa [hq] using h

/-- Storing keeps the invariant of every process. -/
theorem MeshInv.proc_store {tbl : PortTable} {s : MeshState} (hs : MeshInv tbl s) {p : ℕ}
    (hj : (s.procs p).j ≠ p) (q : ℕ) :
    ProcInv q (Function.update s.procs p (s.procs p).store q) := by
  by_cases hq : q = p
  · subst hq; simpa using (hs.proc q).store hj
  · simpa [hq] using hs.proc q

/-- Connecting to the lower rank `j` keeps the invariant: nobody connected from
`p` to `j` before. -/
theorem MeshInv.connect {tbl : PortTable} {s : MeshState} (hs : MeshInv tbl s) {p : ℕ}
    (hp : p < tbl.nHosts) (hj : (s.procs p).j < p) :
    MeshInv tbl { s with
      procs := Function.update s.procs p (s.procs p).store
      inFlight := s.inFlight ++ [((s.procs p).j, ⟨p, (s.procs p).rankCounter⟩)] } := by
  have habsent := hs.conn_absent (e := ⟨p, (s.procs p).rankCounter⟩) (Nat.le_refl (s.procs p).j)
  constructor
  case proc => exact hs.proc_store (by omega)
  case conn =>
    intro i e he
    by_cases hnew : (i, e) = ((s.procs p).j, ⟨p, (s.procs p).rankCounter⟩)
    · obtain ⟨rfl, rfl⟩ := Prod.mk.inj hnew
      exact ⟨hj, hp, by simp [Proc.store]⟩
    · have hold : (i, e) ∈ s.inFlight ∨ e ∈ (s.servers i).arrived := by
        rcases he with he | he
        · exact .inl ((List.mem_append.1 he).resolve_right (by simpa using hnew))
        · exact .inr he
      obtain ⟨h₁, h₂, h₃⟩ := hs.conn i e hold
      exact ⟨h₁, h₂, hs.ranks_store h₃⟩
  case nodup_inFlight =>
    refine List.Nodup.append hs.nodup_inFlight (List.nodup_singleton _) ?_
    simpa [List.disjoint_singleton] using habsent.1
  case nodup_arrived => exact hs.nodup_arrived
  case notYet =>
    intro i e he
    rcases List.mem_append.1 he with he | he
    · exact hs.notYet i e he
    · obtain ⟨rfl, rfl⟩ := Prod.mk.inj (List.mem_singleton.1 he)
      exact habsent.2
  case accepted_eq =>
    intro i
    have hi := hs.accepted_eq i
    by_cases hip : i = p
    · subst hip; simp only [Function.update_self, Proc.store]; omega
    · simpa [hip] using hi
  case accepted_le => exact hs.accepted_le
  case linked =>
    intro a b
    rw [hs.linked a b]
    -- slots above `p` are not the one just filled
    refine exists_congr fun x => and_congr_right fun hx => and_congr_left fun _ => ?_
    simp only
    by_cases hb : b.rank = p
    · rw [hb, Function.update_self, Proc.store_ranks_iff]
      have hne : x ≠ (s.procs p).j := by omega
      simp [hne]
    · simp [hb]

/-- Accepting a connection keeps the invariant: the counter of the loop and the
number of accepted connections move together. -/
theorem MeshInv.accept {tbl : PortTable} {s : MeshState} (hs : MeshInv tbl s) {p : ℕ}
    {e : CommEnd} (hj : p < (s.procs p).j)
    (he : (s.servers p).arrived[(s.servers p).accepted]? = some e) :
    MeshInv tbl { s with
      procs := Function.update s.procs p (s.procs p).store
      servers := Function.update s.servers p ⟨(s.servers p).arrived, (s.servers p).accepted + 1⟩
      links := s.links ++ [(e, ⟨p, (s.procs p).rankCounter⟩)] } := by
  have harr : ∀ i, (Function.update s.servers p
      ⟨(s.servers p).arrived, (s.servers p).accepted + 1⟩ i).arrived = (s.servers i).arrived := by
    intro i
    by_cases hip : i = p
    · subst hip; simp
    · simp [hip]
  have hacc := hs.accepted_eq p
  constructor
  case proc => exact hs.proc_store (by omega)
  case conn =>
    intro i c hc
    rw [harr] at hc
    obtain ⟨h₁, h₂, h₃⟩ := hs.conn i c hc
    exact ⟨h₁, h₂, hs.ranks_store h₃⟩
  case nodup_inFlight => exact hs.nodup_inFlight
  case nodup_arrived => intro i; rw [harr]; exact hs.nodup_arrived i
  case notYet => intro i c hc; rw [harr]; exact hs.notYet i c hc
  case accepted_eq =>
    intro i
    have hi := hs.accepted_eq i
    by_cases hip : i = p
    · subst hip; simp only [Function.update_self, Proc.store]; omega
    · simpa [hip] using hi
  case accepted_le =>
    intro i
    have hi := hs.accepted_le i
    by_cases hip : i = p
    · subst hip
      have := (List.getElem?_eq_some_iff.1 he).1
      simp only [Function.update_self]
      omega
    · simpa [hip] using hi
  case linked =>
    intro a b
    simp only [List.mem_append, List.mem_singleton, Prod.mk.injEq, hs.linked a b, harr]
    by_cases hb : b.rank = p
    · rw [hb, Function.update_self]
      -- the slot the counter is at takes the connection of that number
      rw [hacc] at he
      constructor
      · rintro (⟨x, hx, hr, ha⟩ | ⟨rfl, rfl⟩)
        · exact ⟨x, hx, (hs.proc p).store_ranks hr, ha⟩
        · exact ⟨_, hj, by simp [Proc.store], he⟩
      · rintro ⟨x, hx, hr, ha⟩
        rcases Proc.store_ranks_iff.1 hr with ⟨rfl, hc⟩ | ⟨-, hr⟩
        · rw [he] at ha
          refine .inr ⟨(Option.some.inj ha).symm, ?_⟩
          cases b
          simp_all only
        · exact .inl ⟨x, hx, hr, ha⟩
    · have hne : ∀ c, b ≠ ⟨p, c⟩ := fun c h => hb (by rw [h])
      simp [hb, hne]

/-- The arrival of a connection keeps the invariant: the numbers of those that
arrived before do not change. -/
theorem MeshInv.arrive {tbl : PortTable} {s : MeshState} (hs : MeshInv tbl s) {i : ℕ}
    {e : CommEnd} (he : (i, e) ∈ s.inFlight) :
    MeshInv tbl { s with
      inFlight := s.inFlight.erase (i, e)
      servers := Function.update s.servers i
        ⟨(s.servers i).arrived ++ [e], (s.servers i).accepted⟩ } := by
  have harr : ∀ k, (Function.update s.servers i
      ⟨(s.servers i).arrived ++ [e], (s.servers i).accepted⟩ k).arrived =
        if k = i then (s.servers i).arrived ++ [e] else (s.servers k).arrived := by
    intro k
    by_cases hk : k = i
    · subst hk; simp
    · simp [hk]
  constructor
  case proc => exact hs.proc
  case conn =>
    intro k c hc
    apply hs.conn k c
    rw [harr] at hc
    rcases hc with hc | hc
    · exact .inl (List.mem_of_mem_erase hc)
    · split at hc
      case isTrue hk =>
        subst hk
        rcases List.mem_append.1 hc with hc | hc
        · exact .inr hc
        · exact .inl (List.mem_singleton.1 hc ▸ he)
      case isFalse => exact .inr hc
  case nodup_inFlight => exact hs.nodup_inFlight.erase _
  case nodup_arrived =>
    intro k
    rw [harr]
    split
    · refine List.Nodup.append (hs.nodup_arrived i) (List.nodup_singleton _) ?_
      simpa [List.disjoint_singleton] using hs.notYet i e he
    · exact hs.nodup_arrived k
  case notYet =>
    intro k c hc
    rw [harr]
    rw [hs.nodup_inFlight.mem_erase_iff] at hc
    split
    case isTrue hk =>
      subst hk
      simpa [hs.notYet k c hc.2] using hc.1
    case isFalse => exact hs.notYet k c hc.2
  case accepted_eq =>
    intro k
    have hk := hs.accepted_eq k
    by_cases hki : k = i
    · subst hki; simpa using hk
    · simpa [hki] using hk
  case accepted_le =>
    intro k
    have hk := hs.accepted_le k
    by_cases hki : k = i
    · subst hki; simp; omega
    · simpa [hki] using hk
  case linked =>
    intro a b
    rw [hs.linked a b]
    refine exists_congr fun x => and_congr_right fun hx => and_congr_right fun hr => ?_
    rw [harr]
    split
    case isTrue hb =>
      -- the slot is filled, so its connection was accepted before
      have h₁ := ((hs.proc _).stored _ _ hr).1
      have h₂ := hs.accepted_eq b.rank
      have h₃ := hs.accepted_le b.rank
      rw [← hb, List.getElem?_append_left (by omega)]
    case isFalse => rfl

/-- **Every step of phase 4 keeps the invariant.** -/
theorem MeshInv.step {tbl : PortTable} {s t : MeshState} {a : MeshAction} (hs : MeshInv tbl s)
    (h : meshStep tbl s a = some t) : MeshInv tbl t := by
  rcases meshStep_cases h with ⟨p, -, -, hj, rfl⟩ | ⟨p, -, hp, hj, rfl⟩ |
    ⟨p, e, -, hj, -, he, rfl⟩ | ⟨i, e, -, he, rfl⟩
  · exact hs.skip hj
  · exact hs.connect hp hj
  · exact hs.accept hj he
  · exact hs.arrive he

end Coll
end Lfi
