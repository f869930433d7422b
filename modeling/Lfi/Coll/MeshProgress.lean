/-
# The mesh comes to an end

Phase 4 of `lfi_group_create` cannot hang.  Without `LFI_async_connection` a process that
connects stays in `lfi_client_create_t` until the process at the other end has taken its
connection, and that one takes connections only when it has made all its own; but it makes them
to ranks below its own, so whoever waits, waits for a lower rank (`MeshInv.canStep`).

That a connection may be taken in a slot it was not meant for (`Lfi.Coll.MeshIdentity`) does not
matter here: a mesh server takes as many as there are ranks above its own.
-/

import Lfi.Coll.MeshIdentity
import Lfi.Runs.Liveness

namespace Lfi
namespace Coll

open Runs

variable {tbl : PortTable} {s t : MeshState}

/-- The process of rank `p` is in the handshake of a connection it has made, which has not been
accepted at the other end. -/
def Handshaking (s : MeshState) (p : ℕ) : Prop :=
  ∃ (i : ℕ) (e : CommEnd), e.rank = p ∧
    ((i, e) ∈ s.inFlight ∨ e ∈ (s.servers i).arrived.drop (s.servers i).accepted)

/-- A step of a process that is in no handshake, or an arrival. -/
def Patient (s : MeshState) : MeshAction → Prop
  | .iter p => ¬ Handshaking s p
  | .arrive .. => True

/-- The steps of the processes and the arrivals so far. -/
def meshCount (n : ℕ) (s : MeshState) : ℕ :=
  ∑ p ∈ Finset.range n, ((s.procs p).j + (s.servers p).arrived.length)

/-- Every connection that a process has an id for was made. -/
def Made (s : MeshState) : Prop :=
  ∀ i e, i < e.rank → (s.procs e.rank).ranks i = some e.comm →
    (i, e) ∈ s.inFlight ∨ e ∈ (s.servers i).arrived

theorem made_init (counter : ℕ → ℕ) : Made (meshInit counter) := by
  intro i e _ h
  cases h

/-- A slot that is filled was so before, or has just been. -/
theorem ranks_store_cases {p i : ℕ} {e : CommEnd}
    (h : (Function.update s.procs p (s.procs p).store e.rank).ranks i = some e.comm) :
    (e = ⟨p, (s.procs p).rankCounter⟩ ∧ i = (s.procs p).j) ∨
      (s.procs e.rank).ranks i = some e.comm := by
  by_cases hp : e.rank = p
  · rw [hp, Function.update_self, Proc.store_ranks_iff] at h
    rcases h with ⟨hi, hc⟩ | ⟨-, h⟩
    · left
      obtain ⟨r, c⟩ := e
      exact ⟨by rw [CommEnd.mk.injEq]; exact ⟨hp, hc⟩, hi⟩
    · exact .inr (hp ▸ h)
  · rw [Function.update_of_ne hp] at h
    exact .inr h

theorem Made.step (hs : Made s) {a : MeshAction} (h : meshStep tbl s a = some t) : Made t := by
  rcases meshStep_cases h with ⟨p, -, -, hj, rfl⟩ | ⟨p, -, -, hj, rfl⟩ |
    ⟨p, e, -, hj, -, -, rfl⟩ | ⟨d, c, -, -, rfl⟩
  · intro i e hi he
    refine hs i e hi ?_
    by_cases hp : e.rank = p
    · rw [hp] at he ⊢
      simpa using he
    · simpa [hp] using he
  · intro i e hi he
    rcases ranks_store_cases he with ⟨rfl, rfl⟩ | hold
    · exact .inl (List.mem_append_right _ (List.mem_singleton.2 rfl))
    · exact (hs i e hi hold).imp_left (List.mem_append_left _)
  · -- what it accepts has a slot above its own rank
    intro i e' hi he
    have hold : (s.procs e'.rank).ranks i = some e'.comm := by
      refine (ranks_store_cases he).resolve_left ?_
      rintro ⟨rfl, rfl⟩
      exact Nat.lt_asymm hi hj
    refine (hs i e' hi hold).imp_right fun hmem => ?_
    by_cases hip : i = p
    · subst hip
      simpa using hmem
    · simpa [hip] using hmem
  · intro i e hi he
    have hmade := hs i e hi he
    by_cases hnew : (i, e) = (d, c)
    · obtain ⟨rfl, rfl⟩ := Prod.mk.inj hnew
      right
      simp
    · refine hmade.imp (fun hmem => (List.mem_erase_of_ne hnew).2 hmem) fun hmem => ?_
      by_cases hid : i = d
      · subst hid
        simp [hmem]
      · simpa [hid] using hmem

theorem made_exec {counter : ℕ → ℕ} {as : List MeshAction}
    (h : exec (meshStep tbl) (meshInit counter) as = some s) : Made s :=
  exec_invariant (fun _ _ _ hs => hs.step) (made_init counter) h

/-! ### Somebody can go on -/

/-- A process whose loop is not over runs its next iteration, unless it would have to wait for a
connection. -/
theorem isSome_iter {p : ℕ} (hp : p < tbl.nHosts) (hj : (s.procs p).j < tbl.nHosts)
    (h : (s.procs p).j ≤ p ∨ (s.servers p).accepted < (s.servers p).arrived.length) :
    (meshStep tbl s (.iter p)).isSome := by
  simp only [meshStep]
  rw [if_pos ⟨hp, hj⟩]
  by_cases heq : (s.procs p).j = p
  · rw [if_pos heq]
    rfl
  · rw [if_neg heq]
    by_cases hlt : (s.procs p).j < p
    · have hports : (s.procs p).j < tbl.ports.length := by
        rw [tbl.length_ports]
        exact hj
      have hhost := List.getElem?_eq_getElem hj
      have hport := List.getElem?_eq_getElem hports
      rw [if_pos hlt, clientCreate]
      simp only [hhost, hport, tbl.listener_eq hhost hport]
      rfl
    · rw [if_neg hlt, serverAccept, List.getElem?_eq_getElem (h.resolve_left (by omega))]
      rfl

/-- A process that has returned has left no connection to it behind. -/
theorem MeshInv.drop_of_returned (hs : MeshInv tbl s) {d : ℕ} (hret : Returned tbl s d) :
    (s.servers d).arrived.drop (s.servers d).accepted = [] := by
  rw [List.drop_eq_nil_iff, hs.arrived_length hret, hs.accepted_eq, hret]

/-- Where nothing is on its way, a process waits for one of a lower rank. -/
theorem MeshInv.handshaking_below (hs : MeshInv tbl s) (hnone : s.inFlight = []) {p : ℕ}
    (h : Handshaking s p) :
    ∃ d, d < p ∧ d < (s.procs p).j ∧ ¬ Returned tbl s d := by
  obtain ⟨d, e, rfl, hmem | hmem⟩ := h
  · rw [hnone] at hmem
    cases hmem
  · obtain ⟨hlt, -, hslot⟩ := hs.conn d e (.inr (List.mem_of_mem_drop hmem))
    refine ⟨d, hlt, ((hs.proc _).stored _ _ hslot).1, fun hret => ?_⟩
    rw [hs.drop_of_returned hret] at hmem
    cases hmem

/-- A mesh server that has accepted all that arrived lacks one of a higher rank. -/
theorem MeshInv.exists_missing (hs : MeshInv tbl s) {p : ℕ} (hj : (s.procs p).j < tbl.nHosts)
    (hpj : p < (s.procs p).j) (hall : (s.servers p).arrived.length ≤ (s.servers p).accepted) :
    ∃ q, p < q ∧ q < tbl.nHosts ∧ q ∉ (s.servers p).arrived.map CommEnd.rank := by
  by_contra! hno
  obtain ⟨hnodup, -⟩ := hs.arrived_ranks p
  have hsub : Finset.Ioo p tbl.nHosts ⊆ ((s.servers p).arrived.map CommEnd.rank).toFinset :=
    fun q hq => List.mem_toFinset.2 (hno q (Finset.mem_Ioo.1 hq).1 (Finset.mem_Ioo.1 hq).2)
  have hcard := Finset.card_le_card hsub
  rw [List.toFinset_card_of_nodup hnodup, List.length_map, Nat.card_Ioo] at hcard
  have hacc := hs.accepted_eq p
  omega

/-- **The mesh cannot hang**: while a process has not returned there is a step, and one that
waits for nobody. -/
theorem MeshInv.canStep (hs : MeshInv tbl s) (hmade : Made s) {r : ℕ} (hr : r < tbl.nHosts)
    (hret : ¬ Returned tbl s r) (hle : ∀ p, (s.procs p).j ≤ tbl.nHosts) :
    ∃ a, Patient s a ∧ (meshStep tbl s a).isSome := by
  by_cases hnone : s.inFlight = []
  case neg =>
    obtain ⟨⟨i, e⟩, he⟩ := List.exists_mem_of_ne_nil _ hnone
    exact ⟨.arrive i e, trivial, by simp only [meshStep, if_pos he, Option.isSome_some]⟩
  -- the lowest rank that has not returned
  classical
  have hex : ∃ p, p < tbl.nHosts ∧ ¬ Returned tbl s p := ⟨r, hr, hret⟩
  obtain ⟨hp, hpret⟩ := Nat.find_spec hex
  have hmin : ∀ d, d < Nat.find hex → Returned tbl s d := fun d hd => by
    by_contra hno
    exact Nat.find_min hex hd ⟨hd.trans hp, hno⟩
  generalize Nat.find hex = p at hp hpret hmin
  have hj : (s.procs p).j < tbl.nHosts := (hle p).lt_of_ne hpret
  have hpatient : ¬ Handshaking s p := fun h => by
    obtain ⟨d, hd, -, hdret⟩ := hs.handshaking_below hnone h
    exact hdret (hmin d hd)
  by_cases hcan : (s.procs p).j ≤ p ∨ (s.servers p).accepted < (s.servers p).arrived.length
  · exact ⟨.iter p, hpatient, isSome_iter hp hj hcan⟩
  · -- it lacks a connection, whose process has to make it
    obtain ⟨hpj, hall⟩ := not_or.1 hcan
    obtain ⟨q, hpq, hq, hmiss⟩ :=
      hs.exists_missing hj (Nat.lt_of_not_le hpj) (Nat.le_of_not_lt hall)
    have hjq : (s.procs q).j ≤ p := by
      by_contra hlt
      obtain ⟨c, hc⟩ := (hs.proc q).filled p (Nat.lt_of_not_le hlt) (by omega)
      rcases hmade p ⟨q, c⟩ hpq hc with hmem | hmem
      · rw [hnone] at hmem
        cases hmem
      · exact hmiss (List.mem_map.2 ⟨_, hmem, rfl⟩)
    refine ⟨.iter q, fun h => ?_, isSome_iter hq (by omega) (.inl (by omega))⟩
    obtain ⟨d, -, hd, hdret⟩ := hs.handshaking_below hnone h
    exact hdret (hmin d (by omega))

/-! ### Nobody goes on for ever -/

theorem loop_le_step (h : ∀ p, (s.procs p).j ≤ tbl.nHosts) {a : MeshAction}
    (ht : meshStep tbl s a = some t) (p : ℕ) : (t.procs p).j ≤ tbl.nHosts := by
  have hupdate : ∀ (q : ℕ) (x : Proc), x.j ≤ tbl.nHosts →
      (Function.update s.procs q x p).j ≤ tbl.nHosts := fun q x hx => by
    by_cases hp : p = q
    · rw [hp, Function.update_self]
      exact hx
    · rw [Function.update_of_ne hp]
      exact h p
  rcases meshStep_cases ht with ⟨q, -, hlt, hj, rfl⟩ | ⟨q, -, hq, hj, rfl⟩ |
    ⟨q, e, -, -, hlt, -, rfl⟩ | ⟨i, e, -, -, rfl⟩
  · exact hupdate q _ (by simp only; omega)
  · exact hupdate q _ (by simp only [Proc.store]; omega)
  · exact hupdate q _ (by simp only [Proc.store]; omega)
  · exact h p

theorem loop_le_exec {counter : ℕ → ℕ} {as : List MeshAction}
    (h : exec (meshStep tbl) (meshInit counter) as = some s) (p : ℕ) :
    (s.procs p).j ≤ tbl.nHosts :=
  exec_invariant (P := fun s => ∀ p, (s.procs p).j ≤ tbl.nHosts)
    (fun _ _ _ hs ht => loop_le_step hs ht) (fun _ => Nat.zero_le _) h p

/-- Every step counts. -/
theorem MeshInv.meshCount_step (hs : MeshInv tbl s) {a : MeshAction}
    (ht : meshStep tbl s a = some t) : meshCount tbl.nHosts t = meshCount tbl.nHosts s + 1 := by
  have hproc : ∀ (p : ℕ) (x : Proc) (servers : ℕ → MeshServer) (inFlight : List (ℕ × CommEnd))
      (links : List (CommEnd × CommEnd)), p < tbl.nHosts → x.j = (s.procs p).j + 1 →
      (∀ q, (servers q).arrived.length = (s.servers q).arrived.length) →
      meshCount tbl.nHosts ⟨Function.update s.procs p x, servers, inFlight, links⟩ =
        meshCount tbl.nHosts s + 1 := by
    intro p x servers inFlight links hp hx harr
    refine sum_succ (i := p) (Finset.mem_range.2 hp) ?_ fun q hq => ?_
    · simp only [Function.update_self, hx, harr]
      omega
    · simp only [Function.update_of_ne hq, harr]
  rcases meshStep_cases ht with ⟨q, -, hlt, hj, rfl⟩ | ⟨q, -, hq, hj, rfl⟩ |
    ⟨q, e, -, hj, hlt, -, rfl⟩ | ⟨i, e, -, he, rfl⟩
  · exact hproc q _ _ _ _ (hj ▸ hlt) (by rw [hj]) fun _ => rfl
  · exact hproc q _ _ _ _ hq rfl fun _ => rfl
  · refine hproc q _ _ _ _ (hj.trans hlt) rfl fun p => ?_
    by_cases hp : p = q
    · rw [hp, Function.update_self]
    · rw [Function.update_of_ne hp]
  · have hi := hs.conn i e (.inl he)
    refine sum_succ (i := i) (Finset.mem_range.2 (hi.1.trans hi.2.1)) ?_ fun q hq => ?_
    · simp only [Function.update_self, List.length_append, List.length_singleton]
      omega
    · simp only [Function.update_of_ne hq]

/-- A process runs its loop once for each rank, and is connected to once from each. -/
theorem MeshInv.meshCount_le (hs : MeshInv tbl s) (hle : ∀ p, (s.procs p).j ≤ tbl.nHosts) :
    meshCount tbl.nHosts s ≤ tbl.nHosts * (2 * tbl.nHosts) := by
  refine (Finset.sum_le_card_nsmul _ _ (2 * tbl.nHosts) fun p _ => ?_).trans_eq ?_
  · have harr := hs.arrived_length_le p
    have hj := hle p
    omega
  · rw [Finset.card_range]
    rfl

/-- **Phase 4 comes to an end.**  A run of it has a bounded number of steps, and where it cannot
continue, not even with steps that wait for no handshake, all processes have returned. -/
theorem mesh_complete {counter : ℕ → ℕ} {as : List MeshAction}
    (h : exec (meshStep tbl) (meshInit counter) as = some s) :
    as.length ≤ tbl.nHosts * (2 * tbl.nHosts) ∧
      ((∀ a, Patient s a → meshStep tbl s a = none) →
        ∀ p, p < tbl.nHosts → Returned tbl s p) := by
  have hs := meshInv_exec h
  have hle := loop_le_exec h
  constructor
  · have hcount := exec_count (f := meshCount tbl.nHosts) (fun _ _ _ hs => hs.step)
      (fun _ _ _ hs ht => hs.meshCount_step ht) (meshInv_init tbl counter) h
    exact (Nat.le_add_left ..).trans (hcount ▸ hs.meshCount_le hle)
  · intro hstop p hp
    by_contra hret
    obtain ⟨a, ha, hsome⟩ := hs.canStep (made_exec h) hp hret hle
    rw [hstop a ha] at hsome
    cases hsome

end Coll
end Lfi
