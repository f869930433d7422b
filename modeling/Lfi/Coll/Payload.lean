/-
# The collectives and their data

`lfi_barrier`, `lfi_broadcast` and `lfi_allreduce` of `src/lfi_coll.cpp` with the bytes
they move.  A process of the group calls one collective after the other (`Program`).  Every
call takes two phases, the second of which is empty except in `lfi_allreduce`; in a phase a
process posts its requests and waits for all of them.  So the phases of all processes are
the batches of `Lfi.Runs.Batches`: the batch `k` is the phase `k % 2` of the call `k / 2`.

A message carries the bytes that lie in the sender's buffer when it is posted; the buffer
does not change until it is sent.  The `k`-th message of a channel comes into the buffer of
its `k`-th receive.  The process at the other end of `group->ranks[i]` is `Slots.peer`.  In
a correct mesh it is the process `i` (`Slots.correct`).

In each phase a process sends to another as often as that one receives from it
(`Program.count_send_eq_recv`), whatever the slots, because the messages are those of
`Lfi.Coll.Collectives` in another order (`Call.ops_perm`).
-/

import Lfi.Coll.Collectives
import Lfi.Coll.Reduce
import Lfi.Runs.Matching

namespace Lfi
namespace Coll

open Runs Data

variable {n : ℕ}

/-- Where the data of a request lies: in the caller's buffer `data`, in one of the
`gather_buffers` or in `dummy`. -/
inductive Loc where
  | data
  | gather (j : ℕ)
  | dummy
deriving DecidableEq

/-- A call of a collective. -/
inductive Call (n : ℕ) where
  | barrier
  | broadcast (root : Fin n) (size : ℕ)
  | allreduce (type : OpType) (op : OpEnum)
deriving DecidableEq

/-- The bytes of a message. -/
def Call.size : Call n → ℕ
  | .barrier => 0
  | .broadcast _ size => size
  | .allreduce type _ => typeSize type

/-- The collective that is called. -/
def Call.collective : Call n → Collective n
  | .barrier => .barrier
  | .broadcast r _ => .broadcast r
  | .allreduce _ _ => .allreduce

/-- Who is at the other end of `group->ranks[i]`: in `p` the process `peer p i`.  A process
reaches the process 0 in the slot 0, because it has made that connection itself. -/
structure Slots (n : ℕ) where
  peer : Fin n → Equiv.Perm (Fin n)
  self : ∀ p, peer p p = p
  root : ∀ p, peer p (Coll.root p) = Coll.root p

/-- A correct mesh. -/
def Slots.correct (n : ℕ) : Slots n := ⟨fun _ => Equiv.refl _, fun _ => rfl, fun _ => rfl⟩

/-- Every rank but `r`, in the order of the loops. -/
def others (r : Fin n) : List (Fin n) := (List.finRange n).filter (· ≠ r)

/-- What the process of rank `p` posts in a phase of a call, and where the data lies. -/
def Call.ops (slots : Slots n) (p : Fin n) : Call n → ℕ → List (Op (Fin n) ℕ × Loc)
  | .barrier, 0 =>
      if p = root p then
        (others p).flatMap fun i =>
          [(.recv (slots.peer p i) lfiTagBarrier, .dummy),
            (.send (slots.peer p i) lfiTagBarrier, .dummy)]
      else
        [(.recv (slots.peer p (root p)) lfiTagBarrier, .dummy),
          (.send (slots.peer p (root p)) lfiTagBarrier, .dummy)]
  | .broadcast r _, 0 =>
      if p = r then (others p).map fun i => (.send (slots.peer p i) lfiTagBroadcast, .data)
      else [(.recv (slots.peer p r) lfiTagBroadcast, .data)]
  | .allreduce _ _, 0 =>
      if p = root p then
        (others p).mapIdx fun j i => (.recv (slots.peer p i) lfiTagAllreduce, .gather j)
      else [(.send (slots.peer p (root p)) lfiTagAllreduce, .data)]
  | .allreduce _ _, 1 =>
      if p = root p then
        (others p).map fun i => (.send (slots.peer p i) lfiTagAllreduce, .data)
      else [(.recv (slots.peer p (root p)) lfiTagAllreduce, .data)]
  | _, _ => []

/-- What the processes of a group call, one after the other, and what the buffer of each
holds when it makes a call.  All make the same calls with the same arguments, and a root is
reached in its own slot. -/
structure Program (n : ℕ) where
  slots : Slots n
  calls : List (Call n)
  input : Fin n → ℕ → Bytes
  reaches : ∀ p r size, .broadcast r size ∈ calls → slots.peer p r = r
  input_length : ∀ p i call, calls[i]? = some call → (input p i).length = call.size

section Steps

variable (prog : Program n)

/-- The operations of the batch `k`. -/
def Program.ops (p : Fin n) (k : ℕ) : List (Op (Fin n) ℕ × Loc) :=
  match prog.calls[k / 2]? with
  | none => []
  | some call => call.ops prog.slots p (k % 2)

/-- The batch `k` without its data. -/
def Program.batch (p : Fin n) (k : ℕ) : List (Op (Fin n) ℕ) := (prog.ops p k).map Prod.fst

/-- The bytes that a request of the batch `k` moves. -/
def Program.size (k : ℕ) : ℕ :=
  match prog.calls[k / 2]? with
  | none => 0
  | some call => call.size

/-- A message on its channel, and the batch it belongs to. -/
structure Sent where
  batch : ℕ
  payload : Bytes
deriving DecidableEq

/-- A receive posted on a channel, and the batch it belongs to. -/
structure Wanted where
  batch : ℕ
  loc : Loc
  size : ℕ
deriving DecidableEq

/-- The group: what each process has posted and what was delivered, the messages and the
receives of every channel from the first on, the buffers, and what the caller's buffer held
when a call returned. -/
structure State (n : ℕ) where
  net : Net (Fin n) ℕ
  sent : Chan (Fin n) ℕ → List Sent
  wanted : Chan (Fin n) ℕ → List Wanted
  mem : Fin n → Loc → Bytes
  result : Fin n → ℕ → Option Bytes

/-- No process has called anything. -/
def init : State n where
  net := netInit
  sent := fun _ => []
  wanted := fun _ => []
  mem := fun _ _ => []
  result := fun _ _ => none

/-- The buffers at the beginning of a call. -/
def entry (data : Bytes) : Loc → Bytes
  | .data => data
  | .gather _ => List.replicate 8 0
  | .dummy => []

/-- A message comes into a buffer with room for `size` bytes. -/
def store (size : ℕ) (payload old : Bytes) : Bytes :=
  payload.take size ++ old.drop (payload.take size).length

/-- What a process does between the end of a phase and the next: after the gathering the
root of an allreduce puts the result in `data`. -/
def Program.compute (p : Fin n) (k : ℕ) (m : Loc → Bytes) : Loc → Bytes :=
  match prog.calls[k / 2]?, k % 2 with
  | some (.allreduce type op), 0 =>
      if p = root p then
        Function.update m .data (encode (typeSize type)
          (operate type op (m .data) ((List.range (n - 1)).map fun j => m (.gather j))))
      else m
  | _, _ => m

/-- What a step does to the data, when it makes `net` of what is posted. -/
def Program.effect (s : State n) (net : Net (Fin n) ℕ) : NetAction (Fin n) ℕ → State n
  | .start p =>
      let k := (s.net.party p).started
      if k % 2 = 0 then
        { s with net := net, mem := Function.update s.mem p (entry (prog.input p (k / 2))) }
      else { s with net := net }
  | .post p =>
      let x := s.net.party p
      match (prog.ops p x.finished)[x.posted]? with
      | some (.send q t, l) => { s with
          net := net
          sent := Function.update s.sent ⟨p, q, t⟩ (s.sent ⟨p, q, t⟩ ++
            [⟨x.finished, (s.mem p l).take (prog.size x.finished)⟩]) }
      | some (.recv q t, l) => { s with
          net := net
          wanted := Function.update s.wanted ⟨q, p, t⟩ (s.wanted ⟨q, p, t⟩ ++
            [⟨x.finished, l, prog.size x.finished⟩]) }
      | none => { s with net := net }
  | .finish p =>
      let k := (s.net.party p).finished
      let m := prog.compute p k (s.mem p)
      { s with
        net := net
        mem := Function.update s.mem p m
        result := if k % 2 = 1 then
          Function.update s.result p (Function.update (s.result p) (k / 2) (some (m .data)))
        else s.result }
  | .deliver c =>
      match (s.sent c)[s.net.delivered c]?, (s.wanted c)[s.net.delivered c]? with
      | some m, some r => { s with
          net := net
          mem := Function.update s.mem c.dst (Function.update (s.mem c.dst) r.loc
            (store r.size m.payload (s.mem c.dst r.loc))) }
      | _, _ => { s with net := net }
  | .ack _ => { s with net := net }

/-- Calls are made as long as there are any. -/
def Program.Calls (s : State n) : NetAction (Fin n) ℕ → Prop
  | .start p => (s.net.party p).started / 2 < prog.calls.length
  | _ => True

instance (s : State n) : DecidablePred (prog.Calls s)
  | .start p => inferInstanceAs (Decidable ((s.net.party p).started / 2 < prog.calls.length))
  | .post _ | .finish _ | .deliver _ | .ack _ => .isTrue trivial

/-- One step: that of the requests, and what it does to the data. -/
def Program.step (s : State n) (a : NetAction (Fin n) ℕ) : Option (State n) :=
  if prog.Calls s a then
    (netStep prog.batch s.net a).map fun net => prog.effect s net a
  else none

end Steps

/-! ### The operations of a phase -/

section Ops

variable {slots : Slots n} {p q r : Fin n} {call : Call n} {ph t : ℕ} {l : Loc}

theorem nodup_others (r : Fin n) : (others r).Nodup := (List.nodup_finRange n).filter _

theorem mem_others {i r : Fin n} : i ∈ others r ↔ i ≠ r := by
  rw [others, List.mem_filter]
  simp

/-- The others are the others, whoever sits in which slot. -/
theorem map_peer_others (slots : Slots n) (p : Fin n) :
    ((others p).map (slots.peer p)).Perm (others p) := by
  have hnodup := (nodup_others p).map (slots.peer p).injective
  refine (List.perm_ext_iff_of_nodup hnodup (nodup_others p)).2 fun i => ?_
  rw [List.mem_map, mem_others]
  constructor
  · rintro ⟨j, hj, rfl⟩ he
    exact mem_others.1 hj ((slots.peer p).injective (he.trans (slots.self p).symm))
  · intro hi
    refine ⟨(slots.peer p).symm i, mem_others.2 fun he => hi ?_, Equiv.apply_symm_apply _ _⟩
    rw [← Equiv.apply_symm_apply (slots.peer p) i, he, slots.self]

theorem forOthers_eq (r : Fin n) (o : Fin n → Op (Fin n) ℕ) :
    forOthers r o = (others r).map o := by
  rw [forOthers, others]
  induction List.finRange n with
  | nil => rfl
  | cons i is ih =>
      rw [List.flatMap_cons, ih, List.filter_cons]
      by_cases hi : i = r
      · simp [hi]
      · simp [hi]

theorem barrierOps_root_eq (hp : p = root p) :
    barrierOps n p = (others p).flatMap fun i =>
      [.recv i lfiTagBarrier, .send i lfiTagBarrier] := by
  rw [barrierOps, if_pos hp, others, ← hp]
  induction List.finRange n with
  | nil => rfl
  | cons i is ih =>
      rw [List.flatMap_cons, ih, List.filter_cons]
      by_cases hi : i = p
      · simp [hi]
      · simp [hi]

/-- Operations for the others in the order of the slots. -/
theorem map_others_perm (slots : Slots n) (p : Fin n) (o : Fin n → Op (Fin n) ℕ) :
    ((others p).map fun i => o (slots.peer p i)).Perm (forOthers p o) := by
  rw [forOthers_eq]
  have h := (map_peer_others slots p).map o
  rwa [List.map_map] at h

/-- **The messages of a phase are those of the collective**, when its root is reached. -/
theorem Call.ops_perm (call : Call n) (hr : ∀ r size, call = .broadcast r size →
    slots.peer p r = r) (ph : ℕ) :
    ((call.ops slots p ph).map Prod.fst).Perm ((call.collective.phases p)[ph]?.getD []) := by
  cases call with
  | barrier =>
      cases ph with
      | zero =>
          show ((Call.ops slots p .barrier 0).map Prod.fst).Perm (barrierOps n p)
          rw [Call.ops]
          split
          case isTrue hp =>
            rw [barrierOps_root_eq hp, List.map_flatMap]
            have h := (map_peer_others slots p).flatMap_right fun i : Fin n =>
              [Op.recv i lfiTagBarrier, Op.send i lfiTagBarrier]
            rwa [List.flatMap_map] at h
          case isFalse hp => rw [barrierOps, if_neg hp, slots.root]; exact .refl _
      | succ ph => exact .refl _
  | broadcast r size =>
      cases ph with
      | zero =>
          show ((Call.ops slots p (.broadcast r size) 0).map Prod.fst).Perm (broadcastOps r p)
          rw [Call.ops, broadcastOps]
          split
          case isTrue hp =>
            subst hp
            rw [List.map_map]
            exact map_others_perm slots p (.send · lfiTagBroadcast)
          case isFalse hp => rw [hr r size rfl]; exact .refl _
      | succ ph => exact .refl _
  | allreduce type op =>
      rcases ph with _ | _ | ph
      · show ((Call.ops slots p (.allreduce type op) 0).map Prod.fst).Perm (gatherOps p)
        rw [Call.ops, gatherOps]
        split
        case isTrue hp =>
          have hmap : ((others p).mapIdx fun j i =>
              ((Op.recv (slots.peer p i) lfiTagAllreduce : Op (Fin n) ℕ), Loc.gather j)).map
              Prod.fst = (others p).map fun i => .recv (slots.peer p i) lfiTagAllreduce := by
            refine List.ext_getElem (by simp) fun j _ _ => ?_
            simp
          rw [hmap, ← hp]
          exact map_others_perm slots p (.recv · lfiTagAllreduce)
        case isFalse hp => rw [slots.root]; exact .refl _
      · show ((Call.ops slots p (.allreduce type op) 1).map Prod.fst).Perm (scatterOps p)
        rw [Call.ops, scatterOps]
        split
        case isTrue hp =>
          rw [List.map_map, ← hp]
          exact map_others_perm slots p (.send · lfiTagAllreduce)
        case isFalse hp => rw [slots.root]; exact .refl _
      · exact .refl _

/-- **The two ends of a batch agree.** -/
theorem Program.count_send_eq_recv (prog : Program n) (k : ℕ) (p q : Fin n) (t : ℕ) :
    (prog.batch p k).count (.send q t) = (prog.batch q k).count (.recv p t) := by
  rw [batch, batch, ops, ops]
  split
  case h_1 => rfl
  case h_2 call hcall =>
    have hmem := List.mem_of_getElem? hcall
    have hperm : ∀ u, ((call.ops prog.slots u (k % 2)).map Prod.fst).Perm
        ((call.collective.phases u)[k % 2]?.getD []) :=
      fun u => call.ops_perm (fun r size he => prog.reaches u r size (he ▸ hmem)) (k % 2)
    rw [(hperm p).count_eq, (hperm q).count_eq]
    exact Coll.count_send_eq_recv call.collective (k % 2) p q t

/-- The receives of a phase. -/
theorem Call.recv_mem_ops (h : (Op.recv q t, l) ∈ call.ops slots p ph) :
    (call = .barrier ∧ l = .dummy) ∨
    (∃ r size, call = .broadcast r size ∧ ph = 0 ∧ p ≠ r ∧ q = slots.peer p r ∧
      t = lfiTagBroadcast ∧ l = .data) ∨
    (∃ type op j i, call = .allreduce type op ∧ ph = 0 ∧ p = root p ∧
      (others p)[j]? = some i ∧ q = slots.peer p i ∧ t = lfiTagAllreduce ∧ l = .gather j) ∨
    (∃ type op, call = .allreduce type op ∧ ph = 1 ∧ p ≠ root p ∧ q = root p ∧
      t = lfiTagAllreduce ∧ l = .data) := by
  rw [Call.ops.eq_def] at h
  split at h
  case h_1 =>
    refine .inl ⟨rfl, ?_⟩
    split at h
    case isTrue =>
      obtain ⟨i, -, hi⟩ := List.mem_flatMap.1 h
      simp at hi
      exact hi.2
    case isFalse =>
      simp at h
      exact h.2
  case h_2 r size =>
    split at h
    case isTrue => simp at h
    case isFalse hp =>
      simp at h
      exact .inr (.inl ⟨r, size, rfl, rfl, hp, h.1.1, h.1.2, h.2⟩)
  case h_3 type op =>
    split at h
    case isTrue hp =>
      obtain ⟨j, hj, he⟩ := List.mem_mapIdx.1 h
      simp at he
      exact .inr (.inr (.inl ⟨type, op, j, (others p)[j], rfl, rfl, hp,
        List.getElem?_eq_getElem hj, he.1.1.symm, he.1.2.symm, he.2.symm⟩))
    case isFalse => simp at h
  case h_4 type op =>
    split at h
    case isTrue => simp at h
    case isFalse hp =>
      simp at h
      exact .inr (.inr (.inr ⟨type, op, rfl, rfl, hp, h.1.1.trans (slots.root p), h.1.2, h.2⟩))
  case h_5 => exact absurd h List.not_mem_nil

/-- The sends of a phase. -/
theorem Call.send_mem_ops (h : (Op.send q t, l) ∈ call.ops slots p ph) :
    (call = .barrier ∧ l = .dummy) ∨
    (∃ r size, call = .broadcast r size ∧ ph = 0 ∧ p = r ∧ l = .data) ∨
    (∃ type op, call = .allreduce type op ∧ ph = 0 ∧ p ≠ root p ∧ l = .data) ∨
    (∃ type op, call = .allreduce type op ∧ ph = 1 ∧ p = root p ∧ l = .data) := by
  rw [Call.ops.eq_def] at h
  split at h
  case h_1 =>
    refine .inl ⟨rfl, ?_⟩
    split at h
    case isTrue =>
      obtain ⟨i, -, hi⟩ := List.mem_flatMap.1 h
      simp at hi
      exact hi.2
    case isFalse =>
      simp at h
      exact h.2
  case h_2 r size =>
    split at h
    case isTrue hp =>
      obtain ⟨i, -, hi⟩ := List.mem_map.1 h
      exact .inr (.inl ⟨r, size, rfl, rfl, hp, (Prod.mk.inj hi).2.symm⟩)
    case isFalse => simp at h
  case h_3 type op =>
    split at h
    case isTrue =>
      obtain ⟨j, hj, he⟩ := List.mem_mapIdx.1 h
      simp at he
    case isFalse hp =>
      simp at h
      exact .inr (.inr (.inl ⟨type, op, rfl, rfl, hp, h.2⟩))
  case h_4 type op =>
    split at h
    case isTrue hp =>
      obtain ⟨i, -, hi⟩ := List.mem_map.1 h
      exact .inr (.inr (.inr ⟨type, op, rfl, rfl, hp, (Prod.mk.inj hi).2.symm⟩))
    case isFalse => simp at h
  case h_5 => exact absurd h List.not_mem_nil

end Ops

end Coll
end Lfi
