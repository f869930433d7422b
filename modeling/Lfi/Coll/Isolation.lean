/-
# Collectives do not mix

The steps of `Lfi.Coll.Payload` keep the invariant of `Lfi.Coll.Sequence`.  So in a group
that calls the same collectives in the same order, with processes as far ahead of each
other as they like, a receive is completed by a message of its own call
(`collectives_do_not_mix`), a broadcast leaves the root's bytes in every buffer, and an
allreduce the reduction of all contributions (`allreduce_correct`).
-/

import Lfi.Coll.Sequence

namespace Lfi
namespace Coll

open Runs Data

variable {n : ℕ}

section Finish

variable {prog : Program n} {s : State n} {p : Fin n} {k : ℕ}
  {delivered : Chan (Fin n) ℕ → ℕ} {m : Loc → Bytes}

theorem length_others (r : Fin n) : (others r).length = n - 1 := by
  have herase : others r = (List.finRange n).erase r := by
    rw [(List.nodup_finRange n).erase_eq_filter, others]
    refine List.filter_congr fun i _ => ?_
    by_cases hi : i = r
    · simp [hi]
    · simp [hi]
  rw [herase, List.length_erase_of_mem (List.mem_finRange r), List.length_finRange]

theorem Program.ops_eq {call : Call n} (h : prog.calls[k / 2]? = some call) :
    prog.ops p k = call.ops prog.slots p (k % 2) := by
  rw [ops, h]

/-- With everything gathered the root computes the result. -/
theorem MemOk.operate_gather (ok : MemOk prog delivered p k m) {type : OpType} {op : OpEnum}
    (hcall : prog.calls[k / 2]? = some (.allreduce type op)) (hk : k % 2 = 0) (hp : p = root p)
    (hgot : ∀ q t l, (.recv q t, l) ∈ prog.ops p k → prog.Got delivered p k q t) :
    operate type op (m .data) ((List.range (n - 1)).map fun j => m (.gather j)) =
      operate type op (prog.input p (k / 2))
        ((others p).map fun j => prog.input (prog.slots.peer p j) (k / 2)) := by
  have hops : prog.ops p k = (others p).mapIdx fun j i =>
      (.recv (prog.slots.peer p i) lfiTagAllreduce, .gather j) := by
    rw [Program.ops_eq hcall, hk, Call.ops, if_pos hp]
  have hdata : m .data = prog.input p (k / 2) := by
    rw [ok.keep fun q t h => ?_, Program.before, hk, Program.holds]
    rw [hops] at h
    obtain ⟨j, hj, he⟩ := List.mem_mapIdx.1 h
    simp at he
  have hsize : prog.size k = typeSize type := by
    rw [Program.size, hcall]
    rfl
  have hbufs : ((List.range (n - 1)).map fun j => m (.gather j)).map (readValue type) =
      ((others p).map fun j => prog.input (prog.slots.peer p j) (k / 2)).map (readValue type) := by
    refine List.ext_getElem (by simp [length_others]) fun j hj hj' => ?_
    have hjo : j < (others p).length := by simpa using hj'
    have hmem : (.recv (prog.slots.peer p (others p)[j]) lfiTagAllreduce, .gather j) ∈
        prog.ops p k := by
      rw [hops]
      exact List.mem_mapIdx.2 ⟨j, hjo, rfl⟩
    have htake := ok.gather _ _ j hmem (hgot _ _ _ hmem)
    rw [hsize, Program.before, hk, Program.holds] at htake
    simp only [List.getElem_map, List.getElem_range]
    rw [← readValue_take, htake]
  rw [operate, operate, hdata, hbufs]

/-- **A phase that is left has moved the data on.** -/
theorem MemOk.compute (ok : MemOk prog delivered p k m) {call : Call n}
    (hcall : prog.calls[k / 2]? = some call)
    (hgot : ∀ q t l, (.recv q t, l) ∈ prog.ops p k → prog.Got delivered p k q t) :
    prog.compute p k m .data = prog.holds p (k / 2) (k % 2 + 1) := by
  have hkeep : (∀ q t, (.recv q t, .data) ∉ call.ops prog.slots p (k % 2)) →
      m .data = prog.holds p (k / 2) (k % 2) := fun h =>
    ok.keep fun q t hmem => h q t (Program.ops_eq hcall ▸ hmem)
  have hdata : ∀ q t, (.recv q t, .data) ∈ call.ops prog.slots p (k % 2) →
      m .data = prog.holds q (k / 2) (k % 2) := fun q t h =>
    have hmem : (.recv q t, .data) ∈ prog.ops p k := Program.ops_eq hcall ▸ h
    ok.data q t hmem (hgot _ _ _ hmem)
  rcases Nat.mod_two_eq_zero_or_one k with hk | hk
  · rw [hk] at hkeep hdata ⊢
    cases call with
    | barrier =>
        have hno : ∀ q t, (Op.recv q t, Loc.data) ∉ Call.ops prog.slots p .barrier 0 := by
          intro q t h
          rcases Call.recv_mem_ops h with ⟨-, hl⟩ | ⟨_, _, hc, -⟩ | ⟨_, _, _, _, hc, -⟩ |
            ⟨_, _, hc, -⟩ <;> first | cases hl | cases hc
        rw [Program.compute, hcall, hk, Program.holds, hcall]
        exact hkeep hno
    | broadcast r size =>
        rw [Program.compute, hcall, hk, Program.holds, hcall]
        by_cases hp : p = r
        · subst hp
          refine hkeep fun q t h => ?_
          rw [Call.ops, if_pos rfl] at h
          simp at h
        · have hpeer := prog.reaches p r size (List.mem_of_getElem? hcall)
          refine hdata r lfiTagBroadcast ?_
          rw [Call.ops, if_neg hp, hpeer]
          exact List.mem_singleton_self _
    | allreduce type op =>
        rw [Program.compute, hcall, hk, Program.holds, hcall]
        by_cases hp : p = root p
        · simp only [if_pos hp, if_pos (Or.inl hp : p = root p ∨ 0 ≠ 0), Function.update_self]
          rw [ok.operate_gather hcall hk hp hgot, Program.reduced, ← hp]
        · simp only [if_neg hp, ne_eq, not_true, or_false]
          refine hkeep fun q t h => ?_
          rw [Call.ops, if_neg hp] at h
          simp at h
  · rw [hk] at hkeep hdata ⊢
    cases call with
    | barrier =>
        rw [Program.compute, hcall, hk, Program.holds, hcall]
        have h := hkeep fun q t h => List.not_mem_nil h
        rwa [Program.holds, hcall] at h
    | broadcast r size =>
        rw [Program.compute, hcall, hk, Program.holds, hcall]
        have h := hkeep fun q t h => List.not_mem_nil h
        rwa [Program.holds, hcall] at h
    | allreduce type op =>
        rw [Program.compute, hcall, hk, Program.holds, hcall]
        have hroot : prog.holds (root p) (k / 2) 1 =
            prog.reduced (root p) (k / 2) type op := by
          rw [Program.holds, hcall]
          simp [root]
        simp only [ne_eq, one_ne_zero, not_false_eq_true, or_true, if_true]
        by_cases hp : p = root p
        · rw [← hroot, ← hp]
          refine hkeep fun q t h => ?_
          rw [Call.ops, if_pos hp] at h
          simp at h
        · rw [← hroot]
          refine hdata (root p) lfiTagAllreduce ?_
          rw [Call.ops, if_neg hp, prog.slots.root]
          exact List.mem_singleton_self _

/-- A process leaves a batch. -/
theorem DataInv.finish (inv : DataInv prog s) (hp : (s.net.party p).Inside)
    (hl : (s.net.party p).posted = (prog.batch p (s.net.party p).finished).length)
    (hd : ∀ o ∈ prog.batch p (s.net.party p).finished, OpDone s.net p o)
    (hnet : NetInv prog.batch
      (s.net.setParty p ⟨(s.net.party p).started, (s.net.party p).finished + 1, 0⟩)) :
    DataInv prog (prog.effect s
      (s.net.setParty p ⟨(s.net.party p).started, (s.net.party p).finished + 1, 0⟩)
      (.finish p)) := by
  have hst : (s.net.party p).started = (s.net.party p).finished + 1 := hp
  obtain ⟨call, hcall⟩ : ∃ call, prog.calls[(s.net.party p).finished / 2]? = some call := by
    have := inv.called p
    exact ⟨_, List.getElem?_eq_getElem (by omega)⟩
  have hdata := (inv.inside p hp).compute hcall fun q t l h => inv.got hl hd h
  refine
    { net := hnet
      delivered_le := inv.delivered_le
      sent := ?_
      wanted := ?_
      called := ?_
      payload := inv.payload
      place := inv.place
      inside := ?_
      between := ?_
      result := ?_ }
  · intro c
    exact (inv.sent c).trans (occurrences_update (occurrences_finish hl _) c.src).symm
  · intro c
    exact (inv.wanted c).trans (occurrences_update (occurrences_finish hl _) c.dst).symm
  · exact (Function.forall_update_iff s.net.party fun _ x => x.started ≤ 2 * prog.calls.length).2
      ⟨inv.called p, fun q _ => inv.called q⟩
  · intro q hq
    simp only [Program.effect] at hq ⊢
    by_cases hqp : q = p
    · subst hqp
      simp only [Net.setParty_party, Function.update_self, Party.Inside] at hq
      omega
    · simp only [Net.setParty_party, Function.update_of_ne hqp] at hq ⊢
      exact inv.inside q hq
  · intro q hq hodd
    simp only [Program.effect] at hq hodd ⊢
    by_cases hqp : q = p
    · subst hqp
      simp only [Net.setParty_party, Function.update_self] at hodd ⊢
      have hdiv : (s.net.party q).started / 2 = (s.net.party q).finished / 2 := by omega
      have hmod : (s.net.party q).finished % 2 = 0 := by omega
      rw [hdata, Program.before, hdiv, hodd, hmod]
    · simp only [Net.setParty_party, Function.update_of_ne hqp] at hq hodd ⊢
      exact inv.between q hq hodd
  · intro q i hi
    simp only [Program.effect] at hi ⊢
    by_cases hqp : q = p
    · subst hqp
      simp only [Net.setParty_party, Function.update_self] at hi
      split
      case isTrue hk =>
        rw [Function.update_self]
        by_cases hik : i = (s.net.party q).finished / 2
        · rw [hik, Function.update_self, hdata, hk]
        · rw [Function.update_of_ne hik]
          exact inv.result q i (by omega)
      case isFalse hk => exact inv.result q i (by omega)
    · simp only [Net.setParty_party, Function.update_of_ne hqp] at hi
      have hold := inv.result q i hi
      split
      case isTrue => rwa [Function.update_of_ne hqp]
      case isFalse => exact hold

end Finish

section Deliver

variable {prog : Program n} {s : State n}

/-- A whole message takes the whole room. -/
theorem take_store {size : ℕ} {payload old : Bytes} (h : payload.length = size) :
    (store size payload old).take size = payload := by
  have htake : payload.take size = payload := List.take_of_length_le h.le
  rw [store, htake, List.take_left' h]

theorem store_eq {size : ℕ} {payload old : Bytes} (h : payload.length = size)
    (hold : old.length = size) : store size payload old = payload := by
  have htake : payload.take size = payload := List.take_of_length_le h.le
  rw [store, htake, h, List.drop_of_length_le hold.le, List.append_nil]

/-- Another receive of the process is as complete as before. -/
theorem got_bump_of_ne {delivered : Chan (Fin n) ℕ → ℕ} {c : Chan (Fin n) ℕ} {p q : Fin n}
    {k t : ℕ} (h : (⟨q, p, t⟩ : Chan (Fin n) ℕ) ≠ c) :
    prog.Got (bump delivered c) p k q t ↔ prog.Got delivered p k q t := by
  rw [Program.Got, bump_apply, if_neg h, Program.Got]

/-- A message comes into a buffer of the batch its receiver is in. -/
theorem MemOk.store {delivered : Chan (Fin n) ℕ → ℕ} {c : Chan (Fin n) ℕ} {k : ℕ}
    {m : Loc → Bytes} {l : Loc} (ok : MemOk prog delivered c.dst k m)
    (hmem : (.recv c.src c.tag, l) ∈ prog.ops c.dst k)
    (hgot : prog.Got (bump delivered c) c.dst k c.src c.tag) :
    MemOk prog (bump delivered c) c.dst k (Function.update m l
      (Coll.store (prog.size k) (prog.before c.src k) (m l))) := by
  have hlen : (prog.before c.src k).length = prog.size k := Program.length_before hmem
  have hold : ∀ q t, (.recv q t, .data) ∈ prog.ops c.dst k → (m .data).length = prog.size k := by
    intro q t h
    by_cases hg : prog.Got delivered c.dst k q t
    · rw [ok.data q t h hg, Program.length_before hmem]
    · rw [ok.wait q t h hg, Program.length_before hmem]
  -- A receive to another place is another receive.
  have hother : ∀ q t l', l' ≠ .dummy → (.recv q t, l') ∈ prog.ops c.dst k → l' ≠ l →
      (prog.Got (bump delivered c) c.dst k q t ↔ prog.Got delivered c.dst k q t) := by
    intro q t l' hd h hl
    refine got_bump_of_ne fun he => hl ((Program.recv_unique h hmem hd).2 ?_)
    rw [← he]
    exact ⟨rfl, rfl⟩
  refine ⟨fun hno => ?_, fun q t h hg => ?_, fun q t h hg => ?_, fun q t j h hg => ?_⟩
  · have hl : .data ≠ l := fun e => hno _ _ (e ▸ hmem)
    rw [Function.update_of_ne hl]
    exact ok.keep hno
  · by_cases hl : .data = l
    · obtain ⟨rfl, rfl⟩ := (Program.recv_unique h hmem (by simp)).1 hl
      exact absurd hgot hg
    · rw [Function.update_of_ne hl]
      exact ok.wait q t h fun hg' => hg ((hother q t _ (by simp) h hl).2 hg')
  · by_cases hl : .data = l
    · obtain ⟨rfl, rfl⟩ := (Program.recv_unique h hmem (by simp)).1 hl
      subst hl
      rw [Function.update_self, store_eq hlen (hold _ _ h)]
    · rw [Function.update_of_ne hl]
      exact ok.data q t h ((hother q t _ (by simp) h hl).1 hg)
  · by_cases hl : .gather j = l
    · obtain ⟨rfl, rfl⟩ := (Program.recv_unique h hmem (by simp)).1 hl
      subst hl
      rw [Function.update_self, take_store hlen]
    · rw [Function.update_of_ne hl]
      exact ok.gather q t j h ((hother q t _ (by simp) h hl).1 hg)

/-- The buffers of the other processes do not notice. -/
theorem MemOk.bump {delivered : Chan (Fin n) ℕ → ℕ} {c : Chan (Fin n) ℕ} {p : Fin n} {k : ℕ}
    {m : Loc → Bytes} (ok : MemOk prog delivered p k m) (hp : p ≠ c.dst) :
    MemOk prog (Runs.bump delivered c) p k m := by
  have hgot : ∀ q t, prog.Got (Runs.bump delivered c) p k q t ↔ prog.Got delivered p k q t :=
    fun q t => got_bump_of_ne fun he => hp (by rw [← he])
  exact ⟨ok.keep, fun q t h hg => ok.wait q t h fun hg' => hg ((hgot q t).2 hg'),
    fun q t h hg => ok.data q t h ((hgot q t).1 hg),
    fun q t j h hg => ok.gather q t j h ((hgot q t).1 hg)⟩

/-- A message is delivered. -/
theorem DataInv.deliver (inv : DataInv prog s) {c : Chan (Fin n) ℕ}
    (hs : s.net.delivered c < s.net.sends c) (hr : s.net.delivered c < s.net.recvs c)
    (hnet : NetInv prog.batch { s.net with delivered := bump s.net.delivered c }) :
    DataInv prog (prog.effect s { s.net with delivered := bump s.net.delivered c }
      (.deliver c)) := by
  obtain ⟨m, hm⟩ : ∃ m, (s.sent c)[s.net.delivered c]? = some m :=
    ⟨_, List.getElem?_eq_getElem (inv.length_sent c ▸ hs)⟩
  obtain ⟨r, hr'⟩ : ∃ r, (s.wanted c)[s.net.delivered c]? = some r :=
    ⟨_, List.getElem?_eq_getElem (inv.length_wanted c ▸ hr)⟩
  have hgot := inv.net.got c
  have hk : r.batch = (s.net.party c.dst).finished := by
    have hocc : (occurrences prog.batch c.dst (.recv c.src c.tag)
        (s.net.party c.dst))[s.net.delivered c]? = some r.batch := by
      rw [← inv.wanted, List.getElem?_map, hr']
      rfl
    exact occurrences_current hocc hgot
  have hin : (s.net.party c.dst).Inside := by
    by_contra hout
    rw [inv.net.recvs_eq, posted, inv.net.outside c.dst hout, List.take_zero,
      List.append_nil] at hr
    omega
  obtain ⟨hplace, hsize⟩ := inv.place c r (List.mem_of_getElem? hr')
  have hpay := inv.payload c m (List.mem_of_getElem? hm)
  rw [inv.matched hm hr', hk] at hpay
  rw [hk] at hplace hsize
  have heff : prog.effect s { s.net with delivered := bump s.net.delivered c } (.deliver c) =
      { s with
        net := { s.net with delivered := bump s.net.delivered c }
        mem := Function.update s.mem c.dst (Function.update (s.mem c.dst) r.loc
          (store (prog.size (s.net.party c.dst).finished)
            (prog.before c.src (s.net.party c.dst).finished) (s.mem c.dst r.loc))) } := by
    simp only [Program.effect, hm, hr', hpay, hsize]
  rw [heff]
  refine
    { net := hnet
      delivered_le := ?_
      sent := inv.sent
      wanted := inv.wanted
      called := inv.called
      payload := inv.payload
      place := inv.place
      inside := ?_
      between := ?_
      result := inv.result }
  · intro d
    have hle := inv.delivered_le d
    simp only [bump_apply]
    split
    case isTrue h => exact h ▸ hr
    case isFalse => exact hle
  · intro p hp
    by_cases hpc : p = c.dst
    · subst hpc
      simp only [Function.update_self]
      refine (inv.inside c.dst hin).store hplace ?_
      rw [Program.Got, bump_apply, if_pos rfl]
      exact Nat.lt_succ_of_le hgot
    · simp only [Function.update_of_ne hpc]
      exact (inv.inside p hp).bump hpc
  · intro p hp hodd
    have hpc : p ≠ c.dst := fun e => hp (e ▸ hin)
    simp only [Function.update_of_ne hpc]
    exact inv.between p hp hodd

end Deliver

section Runs

variable {prog : Program n} {s t : State n}

/-- **A step keeps the invariant.** -/
theorem DataInv.step (inv : DataInv prog s) {a : NetAction (Fin n) ℕ}
    (h : prog.step s a = some t) : DataInv prog t := by
  rw [Program.step] at h
  split at h
  case isFalse => cases h
  case isTrue hcalls =>
    obtain ⟨net, hstep, rfl⟩ := Option.map_eq_some_iff.1 h
    have hnet := inv.net.step hstep
    rcases netStep_cases hstep with ⟨p, rfl, hp, rfl⟩ | ⟨p, o, rfl, hp, ho, rfl⟩ |
      ⟨p, rfl, hp, hl, hd, rfl⟩ | ⟨c, rfl, hs, hr, rfl⟩ | ⟨c, rfl, rfl⟩
    · exact inv.start hp hcalls hnet
    · rw [Program.batch, List.getElem?_map] at ho
      obtain ⟨⟨o', l⟩, ho', rfl⟩ := Option.map_eq_some_iff.1 ho
      exact inv.post hp ho' hnet
    · exact inv.finish hp hl hd hnet
    · exact inv.deliver hs hr hnet
    · exact ⟨hnet, inv.delivered_le, inv.sent, inv.wanted, inv.called, inv.payload, inv.place,
        inv.inside, inv.between, inv.result⟩

theorem dataInv_exec {as : List (NetAction (Fin n) ℕ)}
    (h : exec prog.step init as = some s) : DataInv prog s :=
  exec_invariant (fun _ _ _ hs ht => hs.step ht) (dataInv_init prog) h

/-- The call that a message belongs to. -/
def Sent.call (m : Sent) : ℕ := m.batch / 2

/-- The call that a receive belongs to. -/
def Wanted.call (r : Wanted) : ℕ := r.batch / 2

/-- `p` has returned from the call number `i`. -/
def State.Returned (s : State n) (p : Fin n) (i : ℕ) : Prop := i < (s.net.party p).finished / 2

instance (s : State n) (p : Fin n) (i : ℕ) : Decidable (s.Returned p i) :=
  inferInstanceAs (Decidable (_ < _))

/-- **Collectives in sequence do not mix.**  In every run of a group that calls the same
collectives in the same order, each receive is completed by a message of the call it
belongs to, and when a broadcast has returned in a process its buffer holds what the
root's held when it made the call. -/
theorem collectives_do_not_mix (prog : Program n) {as : List (NetAction (Fin n) ℕ)}
    {s : State n} (h : exec prog.step init as = some s) :
    (∀ c j, j < s.net.delivered c → ∃ m r, (s.sent c)[j]? = some m ∧
      (s.wanted c)[j]? = some r ∧ m.call = r.call) ∧
    ∀ i r size, prog.calls[i]? = some (.broadcast r size) → ∀ p, s.Returned p i →
      s.result p i = some (prog.input r i) := by
  have inv := dataInv_exec h
  constructor
  · intro c j hj
    have hsent : j < (s.sent c).length := by
      rw [inv.length_sent]
      exact hj.trans_le (inv.net.delivered_le c)
    have hwanted : j < (s.wanted c).length := by
      rw [inv.length_wanted]
      exact hj.trans_le (inv.delivered_le c)
    refine ⟨_, _, List.getElem?_eq_getElem hsent, List.getElem?_eq_getElem hwanted, ?_⟩
    exact congrArg (· / 2) (inv.matched (List.getElem?_eq_getElem hsent)
      (List.getElem?_eq_getElem hwanted))
  · intro i r size hi p hp
    rw [inv.result p i hp, Program.holds, hi]

/-- The root and the others are everybody, in whatever slots. -/
theorem cons_others_perm (slots : Slots n) (r : Fin n) :
    (r :: (others r).map (slots.peer r)).Perm (List.finRange n) := by
  refine ((map_peer_others slots r).cons r).trans ?_
  refine (List.perm_ext_iff_of_nodup ?_ (List.nodup_finRange n)).2 fun i => ?_
  · exact List.nodup_cons.2 ⟨fun h => mem_others.1 h rfl, nodup_others r⟩
  · refine iff_of_true ?_ (List.mem_finRange i)
    by_cases hi : i = r
    · exact hi ▸ List.mem_cons_self
    · exact List.mem_cons_of_mem _ (mem_others.2 hi)

/-- The root's result is the reduction of all contributions. -/
theorem Program.isReduction_reduced (prog : Program n) (r : Fin n) (i : ℕ) (type : OpType)
    (op : OpEnum) : ∃ v, prog.reduced r i type op = encode (typeSize type) v ∧
      IsReduction type op ((List.finRange n).map fun p => readValue type (prog.input p i)) v := by
  refine ⟨_, rfl, ?_⟩
  refine (isReduction_perm ?_).1 (isReduction_operate _ _)
  have h := (cons_others_perm prog.slots r).map fun p => readValue type (prog.input p i)
  rw [List.map_cons, List.map_map] at h
  rwa [List.map_map]

/-- **An allreduce computes the reduction.**  Where an allreduce has returned, the buffer
holds the reduction of the contributions of all processes.  It is the same value in every
process, in whatever order the messages arrive and whoever sits in which slot of the
root. -/
theorem allreduce_correct (hn : 1 ≤ n) (prog : Program n) {as : List (NetAction (Fin n) ℕ)}
    {s : State n} (h : exec prog.step init as = some s) {i : ℕ} {type : OpType} {op : OpEnum}
    (hi : prog.calls[i]? = some (.allreduce type op)) :
    ∃ v, IsReduction type op ((List.finRange n).map fun p => readValue type (prog.input p i)) v ∧
      ∀ p, s.Returned p i → s.result p i = some (encode (typeSize type) v) := by
  obtain ⟨v, hv, hred⟩ := prog.isReduction_reduced ⟨0, hn⟩ i type op
  refine ⟨v, hred, fun p hp => ?_⟩
  rw [(dataInv_exec h).result p i hp, Program.holds, hi]
  simp only [ne_eq, one_ne_zero, not_false_eq_true, or_true, if_true]
  exact congrArg some hv

end Runs

/-! ### Two runs -/

/-- Three processes are not none. -/
local instance neZero_three : NeZero 3 := ⟨three_ne_zero⟩

/-- Two broadcasts from the process 1. -/
def twoBroadcasts : Program 3 where
  slots := .correct 3
  calls := [.broadcast 1 1, .broadcast 1 1]
  input p i := [BitVec.ofNat 8 (10 * i + p)]
  reaches := fun _ _ _ _ => rfl
  input_length p i call h := by
    have hmem := List.mem_of_getElem? h
    simp only [List.mem_cons, List.not_mem_nil, or_false, or_self] at hmem
    rw [hmem]
    rfl

/-- The root makes both calls before anybody else makes the first. -/
def rootAhead : List (NetAction (Fin 3) ℕ) :=
  let c : Fin 3 → Chan (Fin 3) ℕ := fun p => ⟨1, p, lfiTagBroadcast⟩
  let send : List (NetAction (Fin 3) ℕ) :=
    [.start 1, .post 1, .post 1, .ack (c 0), .ack (c 2), .finish 1, .start 1, .finish 1]
  let recv : Fin 3 → List (NetAction (Fin 3) ℕ) := fun p =>
    [.start p, .post p, .deliver (c p), .finish p, .start p, .finish p]
  send ++ send ++ recv 2 ++ recv 2 ++ recv 0

/-- The others get the two messages in order. -/
theorem collectives_do_not_mix_rootAhead : ∃ s,
    exec twoBroadcasts.step init rootAhead = some s ∧ s.result 2 0 = some [1] ∧
      s.result 2 1 = some [11] ∧ s.result 0 0 = some [1] := by
  have hrun := (Option.some_get (x := exec twoBroadcasts.step init rootAhead)
    (by decide +kernel)).symm
  have hret : ∀ e ∈ [((2 : Fin 3), 0), (2, 1), (0, 0)],
      ((exec twoBroadcasts.step init rootAhead).get (by decide +kernel)).Returned e.1 e.2 := by
    decide +kernel
  have hbuf := (collectives_do_not_mix twoBroadcasts hrun).2
  exact ⟨_, hrun, hbuf 0 1 1 rfl 2 (hret (2, 0) (by decide)),
    hbuf 1 1 1 rfl 2 (hret (2, 1) (by decide)), hbuf 0 1 1 rfl 0 (hret (0, 0) (by decide))⟩

/-- The least of three numbers with a sign, over a mesh in which the root has the workers
the other way around. -/
def leastOfThree : Program 3 where
  slots :=
    { peer := fun p => if p = 0 then Equiv.swap 1 2 else Equiv.refl _
      self := by decide
      root := by decide }
  calls := [.allreduce .int32 .min]
  input p _ := encode 4 (BitVec.ofInt 32 (3 - 5 * p))
  reaches := fun _ _ _ h => by cases h with | tail _ h => cases h
  input_length p i call h := by
    have hmem := List.mem_of_getElem? h
    rw [List.mem_singleton.1 hmem]
    exact length_encode 4 _

/-- The worker 2 is first, and the worker 1 has its result before the worker 2. -/
def workersInTurn : List (NetAction (Fin 3) ℕ) :=
  let up : Fin 3 → Chan (Fin 3) ℕ := fun p => ⟨p, 0, lfiTagAllreduce⟩
  let down : Fin 3 → Chan (Fin 3) ℕ := fun p => ⟨0, p, lfiTagAllreduce⟩
  let contribute : Fin 3 → List (NetAction (Fin 3) ℕ) := fun p =>
    [.start p, .post p, .deliver (up p), .ack (up p), .finish p]
  let receive : Fin 3 → List (NetAction (Fin 3) ℕ) := fun p =>
    [.start p, .post p, .deliver (down p), .finish p]
  [.start 0, .post 0, .post 0] ++ contribute 2 ++ contribute 1 ++
    [.finish 0, .start 0, .post 0, .post 0] ++ receive 1 ++ receive 2 ++
    [.ack (down 1), .ack (down 2), .finish 0]

/-- All three processes hold the least. -/
theorem allreduce_correct_leastOfThree : ∃ s v,
    exec leastOfThree.step init workersInTurn = some s ∧
      IsReduction .int32 .min ((List.finRange 3).map fun p =>
        readValue .int32 (leastOfThree.input p 0)) v ∧
      ∀ p, s.result p 0 = some (encode 4 v) := by
  have hrun := (Option.some_get (x := exec leastOfThree.step init workersInTurn)
    (by decide +kernel)).symm
  have hret : ∀ p, ((exec leastOfThree.step init workersInTurn).get
      (by decide +kernel)).Returned p 0 := by
    decide +kernel
  obtain ⟨v, hred, hall⟩ := allreduce_correct (by decide) leastOfThree hrun (i := 0) rfl
  exact ⟨_, v, hrun, hred, fun p => hall p (hret p)⟩

end Coll
end Lfi
