/-
# Collectives one after the other

What every buffer holds during a run of `Lfi.Coll.Payload`.  `Program.holds p i ph` is what
`data` holds in `p` before the phase `ph` of the call `i`, and after the call for `ph = 2`.
The message that `p` sends in a phase carries it (`DataInv.payload`), and a receive of a
phase is completed by a message of the same phase (`DataInv.matched`), so a buffer that is
received into holds what its sender held (`MemOk`).
-/

import Lfi.Coll.Payload

namespace Lfi
namespace Coll

open Runs Data

variable {n : ℕ}

section Values

variable (prog : Program n)

/-- What the process `r` as root makes of the contributions to the call `i`. -/
def Program.reduced (r : Fin n) (i : ℕ) (type : OpType) (op : OpEnum) : Bytes :=
  encode (typeSize type) (operate type op (prog.input r i)
    ((others r).map fun j => prog.input (prog.slots.peer r j) i))

/-- What `data` of `p` holds before a phase of the call `i`, after it for the phase 2. -/
def Program.holds (p : Fin n) (i : ℕ) : ℕ → Bytes
  | 0 => prog.input p i
  | ph + 1 =>
      match prog.calls[i]? with
      | some (.broadcast r _) => prog.input r i
      | some (.allreduce type op) =>
          if p = root p ∨ ph ≠ 0 then prog.reduced (root p) i type op else prog.input p i
      | _ => prog.input p i

/-- What `data` of `p` holds before the batch `k`. -/
def Program.before (p : Fin n) (k : ℕ) : Bytes := prog.holds p (k / 2) (k % 2)

variable {prog}

theorem Program.length_holds {p : Fin n} {i : ℕ} {call : Call n} (h : prog.calls[i]? = some call)
    (ph : ℕ) : (prog.holds p i ph).length = call.size := by
  cases ph with
  | zero => exact prog.input_length p i call h
  | succ ph =>
      rw [holds, h]
      cases call with
      | barrier => exact prog.input_length p i _ h
      | broadcast r size => exact prog.input_length r i _ h
      | allreduce type op =>
          simp only
          split
          case isTrue => exact length_encode _ _
          case isFalse => exact prog.input_length p i _ h

/-- A batch with an operation belongs to a call. -/
theorem Program.call_of_mem_ops {p : Fin n} {k : ℕ} {e : Op (Fin n) ℕ × Loc}
    (h : e ∈ prog.ops p k) : ∃ call, prog.calls[k / 2]? = some call ∧
      e ∈ call.ops prog.slots p (k % 2) ∧ prog.size k = call.size := by
  rw [ops] at h
  split at h
  case h_1 => exact absurd h List.not_mem_nil
  case h_2 call hcall => exact ⟨call, hcall, h, by rw [size, hcall]⟩

theorem Program.length_before {p q : Fin n} {k : ℕ} {e : Op (Fin n) ℕ × Loc}
    (h : e ∈ prog.ops p k) : (prog.before q k).length = prog.size k := by
  obtain ⟨call, hcall, -, hsize⟩ := call_of_mem_ops h
  rw [before, length_holds hcall, hsize]

/-- **A receive has a place of its own.**  In a phase the receives from different processes
go to different places, but for those of a barrier. -/
theorem Program.recv_unique {p q q' : Fin n} {k t t' : ℕ} {l l' : Loc}
    (h : (.recv q t, l) ∈ prog.ops p k) (h' : (.recv q' t', l') ∈ prog.ops p k)
    (hl : l ≠ .dummy) : l = l' ↔ q = q' ∧ t = t' := by
  obtain ⟨call, hcall, hmem, -⟩ := call_of_mem_ops h
  obtain ⟨call', hcall', hmem', -⟩ := call_of_mem_ops h'
  obtain rfl := Option.some.inj (hcall.symm.trans hcall')
  rcases Call.recv_mem_ops hmem with ⟨-, hd⟩ | ⟨r, size, hc, hph, -, hq, ht, hloc⟩ |
    ⟨type, op, j, i, hc, hph, -, hi, hq, ht, hloc⟩ | ⟨type, op, hc, hph, -, hq, ht, hloc⟩
  · exact absurd hd hl
  · rcases Call.recv_mem_ops hmem' with ⟨hc', -⟩ | ⟨r', size', hc', -, -, hq', ht', hloc'⟩ |
      ⟨type', op', j', i', hc', -⟩ | ⟨type', op', hc', -⟩ <;> rw [hc] at hc' <;> cases hc'
    exact iff_of_true (hloc.trans hloc'.symm) ⟨hq.trans hq'.symm, ht.trans ht'.symm⟩
  · rcases Call.recv_mem_ops hmem' with ⟨hc', -⟩ | ⟨r', size', hc', -⟩ |
      ⟨type', op', j', i', hc', -, -, hi', hq', ht', hloc'⟩ | ⟨type', op', hc', hph', -⟩
    · rw [hc] at hc'
      cases hc'
    · rw [hc] at hc'
      cases hc'
    · rw [hloc, hloc', hq, hq', ht, ht', Loc.gather.injEq, (prog.slots.peer p).injective.eq_iff]
      obtain ⟨hj, hget⟩ := List.getElem?_eq_some_iff.1 hi
      obtain ⟨hj', hget'⟩ := List.getElem?_eq_some_iff.1 hi'
      rw [← hget, ← hget', (nodup_others p).getElem_inj_iff]
      exact (and_iff_left rfl).symm
    · rw [hph] at hph'
      cases hph'
  · rcases Call.recv_mem_ops hmem' with ⟨hc', -⟩ | ⟨r', size', hc', -⟩ |
      ⟨type', op', j', i', hc', hph', -⟩ | ⟨type', op', hc', hph', -, hq', ht', hloc'⟩
    · rw [hc] at hc'
      cases hc'
    · rw [hc] at hc'
      cases hc'
    · rw [hph] at hph'
      cases hph'
    · exact iff_of_true (hloc.trans hloc'.symm) ⟨hq.trans hq'.symm, ht.trans ht'.symm⟩

end Values

section Invariant

/-- The receive that `p` posts for `q` in its batch `k` is complete. -/
def Program.Got (prog : Program n) (delivered : Chan (Fin n) ℕ → ℕ) (p : Fin n) (k : ℕ)
    (q : Fin n) (t : ℕ) : Prop :=
  (batches prog.batch p k).count (.recv q t) < delivered ⟨q, p, t⟩

/-- The buffers of `p` in its batch `k`.  Those received into hold what the sender held, as
soon as the receive is complete; `data` is as before, when nothing is received into it. -/
structure MemOk (prog : Program n) (delivered : Chan (Fin n) ℕ → ℕ) (p : Fin n) (k : ℕ)
    (m : Loc → Bytes) : Prop where
  keep : (∀ q t, (.recv q t, .data) ∉ prog.ops p k) → m .data = prog.before p k
  wait : ∀ q t, (.recv q t, .data) ∈ prog.ops p k → ¬ prog.Got delivered p k q t →
    m .data = prog.before p k
  data : ∀ q t, (.recv q t, .data) ∈ prog.ops p k → prog.Got delivered p k q t →
    m .data = prog.before q k
  gather : ∀ q t j, (.recv q t, .gather j) ∈ prog.ops p k → prog.Got delivered p k q t →
    (m (.gather j)).take (prog.size k) = prog.before q k

/-- What holds at every point of a run. -/
structure DataInv (prog : Program n) (s : State n) : Prop where
  net : NetInv prog.batch s.net
  delivered_le : ∀ c, s.net.delivered c ≤ s.net.recvs c
  sent : ∀ c, (s.sent c).map Sent.batch =
    occurrences prog.batch c.src (.send c.dst c.tag) (s.net.party c.src)
  wanted : ∀ c, (s.wanted c).map Wanted.batch =
    occurrences prog.batch c.dst (.recv c.src c.tag) (s.net.party c.dst)
  called : ∀ p, (s.net.party p).started ≤ 2 * prog.calls.length
  payload : ∀ c, ∀ m ∈ s.sent c, m.payload = prog.before c.src m.batch
  place : ∀ c, ∀ r ∈ s.wanted c, (.recv c.src c.tag, r.loc) ∈ prog.ops c.dst r.batch ∧
    r.size = prog.size r.batch
  inside : ∀ p, (s.net.party p).Inside →
    MemOk prog s.net.delivered p (s.net.party p).finished (s.mem p)
  between : ∀ p, ¬ (s.net.party p).Inside → (s.net.party p).started % 2 = 1 →
    s.mem p .data = prog.before p (s.net.party p).started
  result : ∀ p i, i < (s.net.party p).finished / 2 → s.result p i = some (prog.holds p i 2)

variable {prog : Program n} {s : State n} {net : Net (Fin n) ℕ}

theorem dataInv_init (prog : Program n) : DataInv prog init where
  net := netInv_init
  delivered_le := fun _ => Nat.le_refl 0
  sent := fun _ => rfl
  wanted := fun _ => rfl
  called := fun _ => Nat.zero_le _
  payload := fun _ _ h => absurd h List.not_mem_nil
  place := fun _ _ h => absurd h List.not_mem_nil
  inside := fun _ h => absurd h Nat.zero_ne_one
  between := fun _ _ h => absurd h Nat.zero_ne_one
  result := fun _ i h => absurd (h.trans_eq (Nat.zero_div 2)) (Nat.not_lt_zero i)

/-- The number of messages on a channel. -/
theorem DataInv.length_sent (inv : DataInv prog s) (c : Chan (Fin n) ℕ) :
    (s.sent c).length = s.net.sends c := by
  rw [← List.length_map Sent.batch, inv.sent, length_occurrences, inv.net.sends_eq]

theorem DataInv.length_wanted (inv : DataInv prog s) (c : Chan (Fin n) ℕ) :
    (s.wanted c).length = s.net.recvs c := by
  rw [← List.length_map Wanted.batch, inv.wanted, length_occurrences, inv.net.recvs_eq]

/-- **A message completes a receive of its own phase.** -/
theorem DataInv.matched (inv : DataInv prog s) {c : Chan (Fin n) ℕ} {j : ℕ} {m : Sent}
    {r : Wanted} (hm : (s.sent c)[j]? = some m) (hr : (s.wanted c)[j]? = some r) :
    m.batch = r.batch := by
  have hm' : ((s.sent c).map Sent.batch)[j]? = some m.batch := by rw [List.getElem?_map, hm]; rfl
  have hr' : ((s.wanted c).map Wanted.batch)[j]? = some r.batch := by
    rw [List.getElem?_map, hr]
    rfl
  rw [inv.sent] at hm'
  rw [inv.wanted] at hr'
  exact matched_batch (fun k => prog.count_send_eq_recv k c.src c.dst c.tag) hm' hr'

/-- At the beginning of a batch none of its receives is complete. -/
theorem DataInv.not_got (inv : DataInv prog s) {p : Fin n} (hp : ¬ (s.net.party p).Inside)
    (q : Fin n) (t : ℕ) :
    ¬ prog.Got s.net.delivered p (s.net.party p).finished q t := by
  have hle := inv.delivered_le ⟨q, p, t⟩
  rw [inv.net.recvs_eq, posted, inv.net.outside p hp, List.take_zero, List.append_nil] at hle
  exact Nat.not_lt.2 hle

/-- The receives of a batch that is left are complete. -/
theorem DataInv.got (inv : DataInv prog s) {p : Fin n}
    (hl : (s.net.party p).posted = (prog.batch p (s.net.party p).finished).length)
    (hd : ∀ o ∈ prog.batch p (s.net.party p).finished, OpDone s.net p o) {q : Fin n} {t : ℕ}
    {l : Loc} (h : (.recv q t, l) ∈ prog.ops p (s.net.party p).finished) :
    prog.Got s.net.delivered p (s.net.party p).finished q t := by
  have hmem : Op.recv q t ∈ prog.batch p (s.net.party p).finished :=
    List.mem_map.2 ⟨_, h, rfl⟩
  have hdone : s.net.delivered ⟨q, p, t⟩ = s.net.recvs ⟨q, p, t⟩ := hd _ hmem
  have hpos := List.count_pos_iff.2 hmem
  rw [Program.Got, hdone, inv.net.recvs_eq, posted, hl, List.take_length, List.count_append]
  exact Nat.lt_add_of_pos_right hpos

end Invariant

section Start

variable {prog : Program n} {s : State n} {net : Net (Fin n) ℕ}

/-- A process enters a batch. -/
theorem DataInv.start (inv : DataInv prog s) {p : Fin n} (hp : ¬ (s.net.party p).Inside)
    (hcalls : (s.net.party p).started / 2 < prog.calls.length)
    (hnet : NetInv prog.batch
      (s.net.setParty p ⟨(s.net.party p).started + 1, (s.net.party p).finished, 0⟩)) :
    DataInv prog (prog.effect s
      (s.net.setParty p ⟨(s.net.party p).started + 1, (s.net.party p).finished, 0⟩)
      (.start p)) := by
  have hposted := inv.net.outside p hp
  have hst : (s.net.party p).started = (s.net.party p).finished := by
    have := inv.net.started_le p
    rw [Party.Inside] at hp
    omega
  -- What the buffers of the process are at the beginning of the batch.
  have hmem : ∃ m, prog.effect s
      (s.net.setParty p ⟨(s.net.party p).started + 1, (s.net.party p).finished, 0⟩) (.start p) =
      { s with
        net := s.net.setParty p ⟨(s.net.party p).started + 1, (s.net.party p).finished, 0⟩
        mem := Function.update s.mem p m } ∧
      m .data = prog.before p (s.net.party p).finished := by
    simp only [Program.effect]
    split
    case isTrue heven =>
      refine ⟨_, rfl, ?_⟩
      rw [entry, Program.before, ← hst, heven]
      rfl
    case isFalse hodd =>
      refine ⟨s.mem p, by rw [Function.update_eq_self], ?_⟩
      rw [← hst]
      exact inv.between p hp (by omega)
  obtain ⟨m, heff, hdata⟩ := hmem
  rw [heff]
  refine
    { net := hnet
      delivered_le := inv.delivered_le
      sent := ?_
      wanted := ?_
      called := ?_
      payload := inv.payload
      place := inv.place
      inside := ?_
      between := ?_
      result := ?_ }
  · intro c
    exact (inv.sent c).trans (occurrences_update (occurrences_start hposted _) c.src).symm
  · intro c
    exact (inv.wanted c).trans (occurrences_update (occurrences_start hposted _) c.dst).symm
  · refine (Function.forall_update_iff s.net.party fun _ x =>
      x.started ≤ 2 * prog.calls.length).2 ⟨?_, fun q _ => inv.called q⟩
    show (s.net.party p).started + 1 ≤ _
    omega
  · intro q hq
    by_cases hqp : q = p
    · subst hqp
      simp only [Net.setParty_party, Function.update_self]
      have hnot := inv.not_got hp
      exact ⟨fun _ => hdata, fun _ _ _ _ => hdata,
        fun q' t _ hgot => absurd hgot (hnot q' t), fun q' t _ _ hgot => absurd hgot (hnot q' t)⟩
    · simp only [Net.setParty_party, Function.update_of_ne hqp] at hq ⊢
      exact inv.inside q hq
  · intro q hq hodd
    by_cases hqp : q = p
    · subst hqp
      simp only [Net.setParty_party, Function.update_self, Party.Inside] at hq
      exact absurd (congrArg (· + 1) hst) hq
    · simp only [Net.setParty_party, Function.update_of_ne hqp] at hq hodd ⊢
      exact inv.between q hq hodd
  · have hfin : ∀ q, (Function.update s.net.party p
        ⟨(s.net.party p).started + 1, (s.net.party p).finished, 0⟩ q).finished =
        (s.net.party q).finished :=
      (Function.forall_update_iff s.net.party fun q x => x.finished = (s.net.party q).finished).2
        ⟨rfl, fun _ _ => rfl⟩
    exact fun q i hi => inv.result q i (hi.trans_eq (congrArg (· / 2) (hfin q)))

end Start

section Post

variable {prog : Program n} {s : State n} {net : Net (Fin n) ℕ} {p : Fin n} {o : Op (Fin n) ℕ}
  {l : Loc}

/-- Posting leaves the buffers alone. -/
theorem effect_post_rest (prog : Program n) (s : State n) (net : Net (Fin n) ℕ) (p : Fin n) :
    (prog.effect s net (.post p)).net = net ∧
    (prog.effect s net (.post p)).mem = s.mem ∧
    (prog.effect s net (.post p)).result = s.result := by
  simp only [Program.effect]
  split <;> exact ⟨rfl, rfl, rfl⟩

/-- A send puts its message on its channel. -/
theorem effect_post_sent
    (ho : (prog.ops p (s.net.party p).finished)[(s.net.party p).posted]? = some (o, l))
    (c : Chan (Fin n) ℕ) : (prog.effect s net (.post p)).sent c = s.sent c ++
      if p = c.src ∧ o = .send c.dst c.tag then
        [⟨(s.net.party p).finished, (s.mem p l).take (prog.size (s.net.party p).finished)⟩]
      else [] := by
  obtain ⟨q, r, t⟩ := c
  simp only [Program.effect, ho]
  cases o with
  | send r' t' =>
      simp only [Op.send.injEq]
      split
      case isTrue h =>
        obtain ⟨rfl, rfl, rfl⟩ := h
        rw [Function.update_self]
      case isFalse h =>
        rw [Function.update_of_ne, List.append_nil]
        rintro he
        obtain ⟨rfl, rfl, rfl⟩ := Chan.mk.inj he
        exact h ⟨rfl, rfl, rfl⟩
  | recv q' t' => simp

/-- A receive waits on its channel. -/
theorem effect_post_wanted
    (ho : (prog.ops p (s.net.party p).finished)[(s.net.party p).posted]? = some (o, l))
    (c : Chan (Fin n) ℕ) : (prog.effect s net (.post p)).wanted c = s.wanted c ++
      if p = c.dst ∧ o = .recv c.src c.tag then
        [⟨(s.net.party p).finished, l, prog.size (s.net.party p).finished⟩]
      else [] := by
  obtain ⟨q, r, t⟩ := c
  simp only [Program.effect, ho]
  cases o with
  | send r' t' => simp
  | recv q' t' =>
      simp only [Op.recv.injEq]
      split
      case isTrue h =>
        obtain ⟨rfl, rfl, rfl⟩ := h
        rw [Function.update_self]
      case isFalse h =>
        rw [Function.update_of_ne, List.append_nil]
        rintro he
        obtain ⟨rfl, rfl, rfl⟩ := Chan.mk.inj he
        exact h ⟨rfl, rfl, rfl⟩

/-- The bytes of a message are what `data` held before the phase. -/
theorem DataInv.take_eq (inv : DataInv prog s) (hp : (s.net.party p).Inside) {q : Fin n} {t : ℕ}
    (h : (.send q t, l) ∈ prog.ops p (s.net.party p).finished) :
    (s.mem p l).take (prog.size (s.net.party p).finished) =
      prog.before p (s.net.party p).finished := by
  have hlen := Program.length_before (q := p) h
  have ok := inv.inside p hp
  obtain ⟨call, hcall, hmem, hsize⟩ := Program.call_of_mem_ops h
  -- A process that sends from `data` does not receive into it in the same phase.
  have hkeep : ∀ {q t}, (.recv q t, .data) ∈ prog.ops p (s.net.party p).finished →
      (.recv q t, .data) ∈ call.ops prog.slots p ((s.net.party p).finished % 2) := by
    intro q t h'
    obtain ⟨call', hcall', hmem', -⟩ := Program.call_of_mem_ops h'
    obtain rfl := Option.some.inj (hcall.symm.trans hcall')
    exact hmem'
  have hdata : l = .data → (∀ q t, (.recv q t, .data) ∉
      call.ops prog.slots p ((s.net.party p).finished % 2)) →
      (s.mem p l).take (prog.size (s.net.party p).finished) =
        prog.before p (s.net.party p).finished := by
    rintro rfl hno
    rw [ok.keep fun q t h' => hno q t (hkeep h'), ← hlen, List.take_length]
  rcases Call.send_mem_ops hmem with ⟨rfl, -⟩ | ⟨r, size, rfl, hph, rfl, hl⟩ |
    ⟨type, op, rfl, hph, hpr, hl⟩ | ⟨type, op, rfl, hph, hpr, hl⟩
  · rw [hsize] at hlen ⊢
    rw [List.length_eq_zero_iff.1 hlen]
    exact List.take_zero
  · refine hdata hl fun q t h' => ?_
    rcases Call.recv_mem_ops h' with ⟨hc, -⟩ | ⟨r', size', hc, -, hne, -⟩ | ⟨_, _, _, _, hc, -⟩ |
      ⟨_, _, hc, -⟩ <;> cases hc
    exact hne rfl
  · refine hdata hl fun q t h' => ?_
    rcases Call.recv_mem_ops h' with ⟨hc, -⟩ | ⟨_, _, hc, -⟩ | ⟨_, _, _, _, -, -, hpr', -⟩ |
      ⟨_, _, -, hph', -⟩
    · cases hc
    · cases hc
    · exact hpr hpr'
    · omega
  · refine hdata hl fun q t h' => ?_
    rcases Call.recv_mem_ops h' with ⟨hc, -⟩ | ⟨_, _, hc, -⟩ | ⟨_, _, _, _, -, hph', -⟩ |
      ⟨_, _, -, -, hpr', -⟩
    · cases hc
    · cases hc
    · omega
    · exact hpr' hpr

/-- A process posts an operation. -/
theorem DataInv.post (inv : DataInv prog s) (hp : (s.net.party p).Inside)
    (ho : (prog.ops p (s.net.party p).finished)[(s.net.party p).posted]? = some (o, l))
    (hnet : NetInv prog.batch ((postOp s.net p o).setParty p
      { s.net.party p with posted := (s.net.party p).posted + 1 })) :
    DataInv prog (prog.effect s ((postOp s.net p o).setParty p
      { s.net.party p with posted := (s.net.party p).posted + 1 }) (.post p)) := by
  have hbatch : (prog.batch p (s.net.party p).finished)[(s.net.party p).posted]? = some o := by
    rw [Program.batch, List.getElem?_map, ho]
    rfl
  have hmem := List.mem_of_getElem? ho
  obtain ⟨hnet', hmem', hres'⟩ := effect_post_rest prog s ((postOp s.net p o).setParty p
      { s.net.party p with posted := (s.net.party p).posted + 1 }) p
  have hparty : ((postOp s.net p o).setParty p
      { s.net.party p with posted := (s.net.party p).posted + 1 }).party =
      Function.update s.net.party p { s.net.party p with posted := (s.net.party p).posted + 1 } :=
    congrArg (Function.update · p _) (postOp_party p o)
  have hrest : ∀ q, (Function.update s.net.party p
      { s.net.party p with posted := (s.net.party p).posted + 1 } q).started =
        (s.net.party q).started ∧
      (Function.update s.net.party p
      { s.net.party p with posted := (s.net.party p).posted + 1 } q).finished =
        (s.net.party q).finished :=
    (Function.forall_update_iff s.net.party fun q x => x.started = (s.net.party q).started ∧
      x.finished = (s.net.party q).finished).2 ⟨⟨rfl, rfl⟩, fun _ _ => ⟨rfl, rfl⟩⟩
  have hinside : ∀ q, (Function.update s.net.party p
      { s.net.party p with posted := (s.net.party p).posted + 1 } q).Inside ↔
        (s.net.party q).Inside := fun q => by
    rw [Party.Inside, Party.Inside, (hrest q).1, (hrest q).2]
  refine
    { net := by rw [hnet']; exact hnet
      delivered_le := ?_
      sent := ?_
      wanted := ?_
      called := ?_
      payload := ?_
      place := ?_
      inside := ?_
      between := ?_
      result := ?_ }
  · intro c
    rw [hnet', Net.setParty_delivered, postOp_delivered, Net.setParty_recvs, postOp_recvs]
    exact Nat.le_add_right_of_le (inv.delivered_le c)
  · intro c
    rw [hnet', hparty, effect_post_sent ho, List.map_append, inv.sent]
    by_cases hc : c.src = p
    · subst hc
      rw [Function.update_self, occurrences_post hbatch]
      congr 1
      by_cases hoc : o = .send c.dst c.tag
      · simp [hoc]
      · simp [hoc]
    · rw [Function.update_of_ne hc, if_neg fun h => hc h.1.symm]
      simp
  · intro c
    rw [hnet', hparty, effect_post_wanted ho, List.map_append, inv.wanted]
    by_cases hc : c.dst = p
    · subst hc
      rw [Function.update_self, occurrences_post hbatch]
      congr 1
      by_cases hoc : o = .recv c.src c.tag
      · simp [hoc]
      · simp [hoc]
    · rw [Function.update_of_ne hc, if_neg fun h => hc h.1.symm]
      simp
  · intro q
    rw [hnet', hparty, (hrest q).1]
    exact inv.called q
  · intro c m hm
    rw [effect_post_sent ho] at hm
    rcases List.mem_append.1 hm with hold | hnew
    · exact inv.payload c m hold
    · split at hnew
      case isTrue h =>
        obtain ⟨rfl, rfl⟩ := h
        obtain rfl := List.mem_singleton.1 hnew
        exact inv.take_eq hp hmem
      case isFalse => exact absurd hnew List.not_mem_nil
  · intro c r hr
    rw [effect_post_wanted ho] at hr
    rcases List.mem_append.1 hr with hold | hnew
    · exact inv.place c r hold
    · split at hnew
      case isTrue h =>
        obtain ⟨rfl, rfl⟩ := h
        obtain rfl := List.mem_singleton.1 hnew
        exact ⟨hmem, rfl⟩
      case isFalse => exact absurd hnew List.not_mem_nil
  · intro q hq
    rw [hnet', hparty] at hq ⊢
    rw [hmem', (hrest q).2, Net.setParty_delivered, postOp_delivered]
    exact inv.inside q ((hinside q).1 hq)
  · intro q hq hodd
    rw [hnet', hparty] at hq hodd ⊢
    rw [(hrest q).1] at hodd ⊢
    rw [hmem']
    exact inv.between q (fun h => hq ((hinside q).2 h)) hodd
  · intro q i hi
    rw [hnet', hparty, (hrest q).2] at hi
    rw [hres']
    exact inv.result q i hi

end Post

end Coll
end Lfi
