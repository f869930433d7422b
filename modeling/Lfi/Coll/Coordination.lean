/-
# The coordination phase

Phase 2 of `lfi_group_create`.  Every process has bound a mesh server; one of those on the first
host of the list gets the coordination port and is the master, the others are workers:

    if (my_hostname == hostnames[0]) {
        int p = coord_port;
        master_server_fd = LFI::socket::server_init("", p);
    }
    if (master_server_fd >= 0) { ... } else { ... }

The master accepts the workers one by one, reads the `rank_info` of each, answers with its rank
(`Lfi.Coll.Ranks`), and sends the table of all ports when it has them all.  A worker connects,
sends, and waits for the two answers.

The port is free again after the master has closed its server, so a process that was late would
be a second master.  None is (`CoordInv`): the master waits for all the others first.

The model is of the runs in which no call fails: nobody gets to the end of a timeout, the socket
calls transfer what they are given, and the port is bound by a process on the first host unless
another one has it.  The `rank_info` goes as the bytes of `Lfi.Coll.HostName`, and the names are
assumed to survive (`Launch.survive`): a worker whose name the `strncpy` leaves without a NUL
would be refused.
-/

import Lfi.Coll.HostName
import Lfi.Runs.Basic
import Mathlib.Data.Fintype.Card
import Mathlib.Data.List.FinRange
import Mathlib.Data.List.GetD
import Mathlib.Logic.Function.Basic

namespace Lfi
namespace Coll

open Data Runs

/-- The processes that create a group: the list they are given, the name of the host each of
them is on and the port it got for its mesh server.  `stack p` is what the memory of the
`rank_info` of `p` has before, `beyond p` what follows the one it reads as a master, and `text` is
how the bytes of a name are written in the list.

The names are those on the list, and two servers of one host have different ports. -/
structure Launch (n : ℕ) where
  text : Bytes → String
  hostnames : List String
  name : Fin n → HostName
  port : Fin n → ℕ
  stack : Fin n → RankInfoMemory
  beyond : Fin n → Bytes
  hosts : ((List.finRange n).map fun p => text (name p).bytes).Perm hostnames
  ports : ∀ p q, text (name p).bytes = text (name q).bytes → port p = port q → p = q
  port_lt : ∀ p, port p < 65536
  /-- The names survive registration: there is a NUL after each in the field. -/
  survive : ∀ p, (name p).bytes.length < hostNameMax - 1 ∨
    (stack p).bytes[hostNameMax - 1]? = some 0

/-- What a master sends to a worker. -/
inductive MasterReply where
  | rank (assigned : ℤ)
  | table (portTable : List ℤ)
  deriving DecidableEq, Repr

/-- Where a process is.  A master has its table with the answers, and `worker_comms`. -/
inductive Role (n : ℕ) where
  | start
  /-- the master, before `accept` -/
  | accepting (m : Master) (comms : List (Fin n))
  /-- the master, in the `recv` of the `rank_info` of `q` -/
  | reading (m : Master) (comms : List (Fin n)) (q : Fin n)
  /-- the master, before it sends the table to those in `rest` -/
  | sending (m : Master) (comms rest : List (Fin n))
  /-- a worker, in `client_init` -/
  | connecting
  /-- a worker, before it sends its `rank_info` -/
  | connected
  /-- a worker, in the `recv` of its rank -/
  | registered
  /-- a worker, in the `recv` of the table -/
  | ranked (rank : ℤ)
  /-- phase 3 -/
  | placed (rank : ℤ) (table : List ℤ)
  /-- a worker that has returned `-LFI_GROUP_NO_SELF` -/
  | refused
  deriving DecidableEq, Repr

/-- All processes, who has the coordination port, the connections its server has not accepted,
and what is on the way on each connection. -/
structure Coord (n : ℕ) where
  role : Fin n → Role n
  bound : Option (Fin n)
  backlog : List (Fin n)
  infos : Fin n → List RankInfoMemory
  inbox : Fin n → List MasterReply

/-- Nobody has called anything. -/
def Coord.init {n : ℕ} : Coord n := ⟨fun _ => .start, none, [], fun _ => [], fun _ => []⟩

section Step

variable {n : ℕ} (l : Launch n)

/-- `my_hostname`. -/
def Launch.host (p : Fin n) : String := l.text (l.name p).bytes

/-- A process as it should be known to the master. -/
def Launch.info (p : Fin n) : RankInfo := ⟨l.host p, l.port p⟩

/-- `my_info`. -/
def Launch.record (p : Fin n) : RankInfoMemory :=
  register (l.stack p) (l.name p) (BitVec.ofNat 32 (l.port p))

/-- `my_hostname == hostnames[0]`. -/
def Launch.first (p : Fin n) : Bool := l.hostnames.head? == some (l.host p)

def Coord.setRole (s : Coord n) (p : Fin n) (r : Role n) : Coord n :=
  { s with role := Function.update s.role p r }

/-- An answer to the worker `q`. -/
def Coord.tell (s : Coord n) (q : Fin n) (a : MasterReply) : Coord n :=
  { s with inbox := Function.update s.inbox q (s.inbox q ++ [a]) }

/-- The next call of the process `p`; `none` while it has to wait in it, and where it reads past
its memory for a NUL. -/
def coordStep (s : Coord n) (p : Fin n) : Option (Coord n) :=
  match s.role p with
  | .start =>
      if l.first p ∧ s.bound = none then
        some { s.setRole p (.accepting (.start l.hostnames (l.port p)) []) with
          bound := some p, backlog := [] }
      else some (s.setRole p .connecting)
  | .accepting m comms =>
      if comms.length + 1 < l.hostnames.length then
        match s.backlog with
        | [] => none
        | q :: backlog => some { s.setRole p (.reading m comms q) with backlog := backlog }
      else some (s.setRole p (.sending m comms comms))
  | .reading m comms q =>
      match s.infos q with
      | [] => none
      | memory :: infos =>
          (memory.decoded l.text (l.beyond p)).map fun info =>
            let m' := serveWorker l.hostnames m info
            { (s.setRole p (.accepting m' (comms ++ [q]))).tell q
                (.rank (m'.answers.getLast?.getD (-1))) with
              infos := Function.update s.infos q infos }
  | .sending m comms (q :: rest) =>
      some ((s.setRole p (.sending m comms rest)).tell q (.table m.portTable))
  | .sending m _ [] =>
      some { s.setRole p (.placed 0 m.portTable) with bound := none, backlog := [] }
  | .connecting =>
      -- the connection is made as soon as somebody listens
      if s.bound.isSome then some { s.setRole p .connected with backlog := s.backlog ++ [p] }
      else none
  | .connected =>
      some { s.setRole p .registered with
        infos := Function.update s.infos p (s.infos p ++ [l.record p]) }
  | .registered =>
      match s.inbox p with
      | .rank r :: inbox =>
          some { s.setRole p (if r < 0 then .refused else .ranked r) with
            inbox := Function.update s.inbox p inbox }
      | _ => none
  | .ranked r =>
      match s.inbox p with
      | .table portTable :: inbox =>
          some { s.setRole p (.placed r portTable) with
            inbox := Function.update s.inbox p inbox }
      | _ => none
  | .placed _ _ => none
  | .refused => none

end Step

/-- **The master knows every worker by its name and port.** -/
theorem Launch.decoded_record {n : ℕ} (l : Launch n) (q : Fin n) (beyond : Bytes) :
    (l.record q).decoded l.text beyond = some (l.info q) := by
  have hport : (BitVec.ofNat 32 (l.port q)).toNat = l.port q := by
    rw [BitVec.toNat_ofNat]
    exact Nat.mod_eq_of_lt ((l.port_lt q).trans (by decide))
  have hsurvives := (host_name_survives_iff (l.stack q) (l.name q)
    (BitVec.ofNat 32 (l.port q)) beyond).2 (l.survive q)
  rw [Launch.record, decoded_of_survives l.text hsurvives, hport]
  rfl

/-! ### What a step can do -/

section Invariant

variable {n : ℕ} {l : Launch n} {s t : Coord n} {p q boss : Fin n} {m : Master}
  {comms waiting tabled : List (Fin n)}

/-- The calls of a process, one case for each. -/
inductive CoordCall (l : Launch n) (s : Coord n) (p : Fin n) : Coord n → Prop
  | lead (hrole : s.role p = .start) (hfirst : l.first p = true) (hbound : s.bound = none) :
      CoordCall l s p { s.setRole p (.accepting (.start l.hostnames (l.port p)) []) with
        bound := some p, backlog := [] }
  | follow (hrole : s.role p = .start) (hnot : ¬ (l.first p = true ∧ s.bound = none)) :
      CoordCall l s p (s.setRole p .connecting)
  | accept {m : Master} {comms : List (Fin n)} {q : Fin n} {backlog : List (Fin n)}
      (hrole : s.role p = .accepting m comms)
      (hlt : comms.length + 1 < l.hostnames.length) (hbacklog : s.backlog = q :: backlog) :
      CoordCall l s p { s.setRole p (.reading m comms q) with backlog := backlog }
  | gathered {m : Master} {comms : List (Fin n)} (hrole : s.role p = .accepting m comms)
      (hle : l.hostnames.length ≤ comms.length + 1) :
      CoordCall l s p (s.setRole p (.sending m comms comms))
  | serve {m : Master} {comms : List (Fin n)} {q : Fin n} {memory : RankInfoMemory}
      {infos : List RankInfoMemory} {info : RankInfo} (hrole : s.role p = .reading m comms q)
      (hinfo : s.infos q = memory :: infos)
      (hdecoded : memory.decoded l.text (l.beyond p) = some info) :
      CoordCall l s p
        { (s.setRole p (.accepting (serveWorker l.hostnames m info) (comms ++ [q]))).tell q
            (.rank ((serveWorker l.hostnames m info).answers.getLast?.getD (-1))) with
          infos := Function.update s.infos q infos }
  | table {m : Master} {comms : List (Fin n)} {q : Fin n} {rest : List (Fin n)}
      (hrole : s.role p = .sending m comms (q :: rest)) :
      CoordCall l s p ((s.setRole p (.sending m comms rest)).tell q (.table m.portTable))
  | close {m : Master} {comms : List (Fin n)} (hrole : s.role p = .sending m comms []) :
      CoordCall l s p { s.setRole p (.placed 0 m.portTable) with bound := none, backlog := [] }
  | connect (hrole : s.role p = .connecting) (hbound : s.bound.isSome) :
      CoordCall l s p { s.setRole p .connected with backlog := s.backlog ++ [p] }
  | register (hrole : s.role p = .connected) :
      CoordCall l s p { s.setRole p .registered with
        infos := Function.update s.infos p (s.infos p ++ [l.record p]) }
  | rank {r : ℤ} {inbox : List MasterReply} (hrole : s.role p = .registered)
      (hinbox : s.inbox p = .rank r :: inbox) :
      CoordCall l s p { s.setRole p (if r < 0 then .refused else .ranked r) with
        inbox := Function.update s.inbox p inbox }
  | place {r : ℤ} {portTable : List ℤ} {inbox : List MasterReply} (hrole : s.role p = .ranked r)
      (hinbox : s.inbox p = .table portTable :: inbox) :
      CoordCall l s p { s.setRole p (.placed r portTable) with
        inbox := Function.update s.inbox p inbox }

theorem coordStep_call (h : coordStep l s p = some t) : CoordCall l s p t := by
  unfold coordStep at h
  split at h
  case h_1 hrole =>
    split at h
    case isTrue hfirst => exact Option.some.inj h ▸ .lead hrole hfirst.1 hfirst.2
    case isFalse hfirst => exact Option.some.inj h ▸ .follow hrole hfirst
  case h_2 m comms hrole =>
    split at h
    case isTrue hlt =>
      split at h
      case h_1 => cases h
      case h_2 q backlog hbacklog => exact Option.some.inj h ▸ .accept hrole hlt hbacklog
    case isFalse hlt => exact Option.some.inj h ▸ .gathered hrole (Nat.le_of_not_lt hlt)
  case h_3 m comms q hrole =>
    split at h
    case h_1 => cases h
    case h_2 memory infos hinfo =>
      obtain ⟨info, hdecoded, rfl⟩ := Option.map_eq_some_iff.1 h
      exact .serve hrole hinfo hdecoded
  case h_4 hrole => exact Option.some.inj h ▸ .table hrole
  case h_5 hrole => exact Option.some.inj h ▸ .close hrole
  case h_6 hrole =>
    split at h
    case isTrue hbound => exact Option.some.inj h ▸ .connect hrole hbound
    case isFalse => cases h
  case h_7 hrole => exact Option.some.inj h ▸ .register hrole
  case h_8 hrole =>
    split at h
    case h_1 r inbox hinbox => exact Option.some.inj h ▸ .rank hrole hinbox
    case h_2 => cases h
  case h_9 r hrole =>
    split at h
    case h_1 portTable inbox hinbox => exact Option.some.inj h ▸ .place hrole hinbox
    case h_2 => cases h
  case h_10 => cases h
  case h_11 => cases h

/-! ### The invariant -/

/-- What the master has sent to the worker `q`: its rank when it has served it, and the table
when it is one of the `tabled`. -/
def sentTo (m : Master) (comms tabled : List (Fin n)) (q : Fin n) : List MasterReply :=
  (if q ∈ comms then [.rank (m.answers.getD (comms.idxOf q) (-1))] else []) ++
    if q ∈ tabled then [.table m.portTable] else []

/-- The master is where it is, with its table, those it has served, those `tabled`, and those
that have connected and wait. -/
def MasterInv (s : Coord n) (boss : Fin n) (m : Master) (comms tabled waiting : List (Fin n)) :
    Prop :=
  match s.role boss with
  | .accepting m' comms' =>
      m' = m ∧ comms' = comms ∧ tabled = [] ∧ s.backlog = waiting ∧ s.bound = some boss
  | .reading m' comms' q =>
      m' = m ∧ comms' = comms ∧ tabled = [] ∧ q :: s.backlog = waiting ∧ s.bound = some boss
  | .sending m' comms' rest =>
      m' = m ∧ comms' = comms ∧ tabled ++ rest = comms ∧ s.backlog = [] ∧ waiting = [] ∧
        s.bound = some boss ∧ comms.length + 1 = n
  | .placed r portTable =>
      r = 0 ∧ portTable = m.portTable ∧ tabled = comms ∧ s.backlog = [] ∧ waiting = [] ∧
        s.bound = none ∧ comms.length + 1 = n
  | _ => False

/-- A worker has connected if it waits or was served, and has read a part of what was sent. -/
def WorkerInv (l : Launch n) (s : Coord n) (m : Master) (comms tabled waiting : List (Fin n))
    (q : Fin n) : Prop :=
  match s.role q with
  | .start | .connecting => q ∉ comms ∧ q ∉ waiting ∧ s.infos q = [] ∧ s.inbox q = []
  | .connected => q ∈ waiting ∧ s.infos q = [] ∧ s.inbox q = []
  | .registered =>
      (q ∈ waiting ∧ s.infos q = [l.record q] ∧ s.inbox q = []) ∨
        (q ∈ comms ∧ s.infos q = [] ∧ s.inbox q = sentTo m comms tabled q)
  | .ranked r => q ∈ comms ∧ s.infos q = [] ∧ sentTo m comms tabled q = .rank r :: s.inbox q
  | .placed r portTable =>
      q ∈ comms ∧ s.infos q = [] ∧ s.inbox q = [] ∧
        sentTo m comms tabled q = [.rank r, .table portTable]
  | _ => False

/-- Those the master has not served. -/
def unserved (boss : Fin n) (comms : List (Fin n)) : List (Fin n) :=
  (List.finRange n).filter fun q => q ∉ boss :: comms

/-- **There is one master**, and what all the others do fits what it does. -/
structure Led (l : Launch n) (s : Coord n) (boss : Fin n) (m : Master)
    (comms tabled waiting : List (Fin n)) : Prop where
  first : l.first boss = true
  master : MasterInv s boss m comms tabled waiting
  worker : ∀ q, q ≠ boss → WorkerInv l s m comms tabled waiting q
  nodup : (boss :: (comms ++ waiting)).Nodup
  tabled : ∀ q ∈ tabled, q ∈ comms
  assigns : ∃ given, given.map (·.2) = comms.map l.info ∧
    Assigns l.hostnames (l.port boss) given ((unserved boss comms).map l.info) m

/-- Before there is a master, those on the first host have not begun. -/
structure Leaderless (l : Launch n) (s : Coord n) : Prop where
  role : ∀ p, s.role p = .start ∨ s.role p = .connecting ∧ l.first p = false
  bound : s.bound = none
  infos : ∀ p, s.infos p = []
  inbox : ∀ p, s.inbox p = []

/-- **The invariant of the coordination.** -/
def CoordInv (l : Launch n) (s : Coord n) : Prop :=
  Leaderless l s ∨ ∃ boss m comms tabled waiting, Led l s boss m comms tabled waiting

theorem coordInv_init : CoordInv l Coord.init :=
  .inl ⟨fun _ => .inl rfl, rfl, fun _ => rfl, fun _ => rfl⟩

theorem Launch.length_hostnames (l : Launch n) : l.hostnames.length = n := by
  rw [← l.hosts.length_eq, List.length_map, List.length_finRange]

theorem exists_first (h : l.first boss = true) :
    ∃ names, l.hostnames = l.host boss :: names := by
  unfold Launch.first at h
  cases hnames : l.hostnames with
  | nil => simp [hnames] at h
  | cons name names =>
      rw [hnames, List.head?_cons, beq_iff_eq, Option.some.injEq] at h
      exact ⟨names, by rw [h]⟩

theorem nodup_unserved (boss : Fin n) (comms : List (Fin n)) : (unserved boss comms).Nodup :=
  (List.nodup_finRange n).filter _

theorem mem_unserved : q ∈ unserved boss comms ↔ q ≠ boss ∧ q ∉ comms := by
  simp [unserved]

/-- One more is served. -/
theorem unserved_perm (h : q ∈ unserved boss comms) :
    (unserved boss comms).Perm (q :: unserved boss (comms ++ [q])) := by
  have herase : unserved boss (comms ++ [q]) = (unserved boss comms).erase q := by
    rw [(nodup_unserved boss comms).erase_eq_filter, unserved, unserved, List.filter_filter]
    refine List.filter_congr fun x _ => ?_
    rw [Bool.eq_iff_iff]
    simp only [List.mem_cons, List.mem_append, List.not_mem_nil, or_false, bne_iff_ne,
      Bool.and_eq_true, decide_eq_true_eq]
    tauto
  rw [herase]
  exact List.perm_cons_erase h

/-- The others are on the hosts of the rest of the list. -/
theorem unserved_hosts {names : List String} (h : l.hostnames = l.host boss :: names) :
    (((unserved boss []).map l.info).map (·.host)).Perm names := by
  have herase : unserved boss [] = (List.finRange n).erase boss := by
    rw [(List.nodup_finRange n).erase_eq_filter, unserved]
    refine List.filter_congr fun x _ => ?_
    rw [Bool.eq_iff_iff]
    simp
  have hperm := ((List.perm_cons_erase (List.mem_finRange boss)).map l.host).symm.trans l.hosts
  rw [h, List.map_cons] at hperm
  rw [List.map_map, herase]
  exact hperm.cons_inv

theorem Assigns.perm {hostnames : List String} {port : ℕ} {given : List (ℕ × RankInfo)}
    {rest rest' : List RankInfo} (h : Assigns hostnames port given rest m)
    (hperm : rest.Perm rest') : Assigns hostnames port given rest' m :=
  { h with free := h.free.trans (hperm.map _) }

/-- A worker for which nothing has changed. -/
theorem WorkerInv.congr (h : WorkerInv l s m comms tabled waiting q) {m' : Master}
    {comms' tabled' waiting' : List (Fin n)} (hrole : t.role q = s.role q)
    (hinfos : t.infos q = s.infos q) (hinbox : t.inbox q = s.inbox q)
    (hcomms : q ∈ comms' ↔ q ∈ comms) (hwaiting : q ∈ waiting' ↔ q ∈ waiting)
    (hsent : sentTo m' comms' tabled' q = sentTo m comms tabled q) :
    WorkerInv l t m' comms' tabled' waiting' q := by
  unfold WorkerInv
  simp only [hrole, hinfos, hinbox, hcomms, hwaiting, hsent]
  exact h

/-- When all have been served, all are. -/
theorem Led.mem_comms (h : Led l s boss m comms tabled waiting) (hall : comms.length + 1 = n)
    (hq : q ≠ boss) : q ∈ comms ∧ waiting = [] := by
  have hnodup := h.nodup
  have hcard : (boss :: (comms ++ waiting)).length ≤ n := by
    simpa using hnodup.length_le_card
  have hwaiting : waiting = [] := by
    rw [← List.length_eq_zero_iff]
    simp only [List.length_cons, List.length_append] at hcard
    omega
  rw [hwaiting, List.append_nil] at hnodup
  have hmem : q ∈ (boss :: comms).toFinset := by
    rw [Finset.eq_univ_of_card (boss :: comms).toFinset (by
      rw [List.toFinset_card_of_nodup hnodup, List.length_cons, hall, Fintype.card_fin])]
    exact Finset.mem_univ q
  rw [List.mem_toFinset, List.mem_cons] at hmem
  exact ⟨hmem.resolve_left hq, hwaiting⟩

/-- A call of a worker that changes nothing for the others. -/
theorem Led.worker_call (h : Led l s boss m comms tabled waiting) (hp : p ≠ boss)
    (hrole : ∀ q, q ≠ p → t.role q = s.role q) (hinfos : ∀ q, q ≠ p → t.infos q = s.infos q)
    (hinbox : ∀ q, q ≠ p → t.inbox q = s.inbox q) (hbacklog : t.backlog = s.backlog)
    (hbound : t.bound = s.bound) (hworker : WorkerInv l t m comms tabled waiting p) :
    Led l t boss m comms tabled waiting :=
  { h with
    master := by
      have hmaster := h.master
      unfold MasterInv at hmaster ⊢
      rw [hrole boss hp.symm, hbacklog, hbound]
      exact hmaster
    worker := fun q hq => by
      by_cases hqp : q = p
      · exact hqp ▸ hworker
      · exact (h.worker q hq).congr (hrole q hqp) (hinfos q hqp) (hinbox q hqp) Iff.rfl Iff.rfl
          rfl }

theorem Led.follow (h : Led l s boss m comms tabled waiting) (hrole : s.role p = .start) :
    Led l (s.setRole p .connecting) boss m comms tabled waiting := by
  have hp : p ≠ boss := by
    rintro rfl
    simpa [MasterInv, hrole] using h.master
  have hworker := h.worker p hp
  refine h.worker_call hp (fun q hq => Function.update_of_ne hq ..) (fun _ _ => rfl)
    (fun _ _ => rfl) rfl rfl ?_
  simpa [WorkerInv, hrole, Coord.setRole] using hworker

theorem Led.register (h : Led l s boss m comms tabled waiting) (hrole : s.role p = .connected) :
    Led l { s.setRole p .registered with
        infos := Function.update s.infos p (s.infos p ++ [l.record p]) }
      boss m comms tabled waiting := by
  have hp : p ≠ boss := by
    rintro rfl
    simpa [MasterInv, hrole] using h.master
  have hworker := h.worker p hp
  refine h.worker_call hp (fun q hq => Function.update_of_ne hq ..)
    (fun q hq => Function.update_of_ne hq ..) (fun _ _ => rfl) rfl rfl ?_
  simp only [WorkerInv, hrole] at hworker
  obtain ⟨hwaiting, hinfos, hinbox⟩ := hworker
  simp [WorkerInv, Coord.setRole, hwaiting, hinfos, hinbox]

/-- A rank that a worker is told is not that of the master. -/
theorem Led.rank_pos (h : Led l s boss m comms tabled waiting) {r : ℤ} {rest : List MasterReply}
    (hsent : sentTo m comms tabled q = .rank r :: rest) (hq : q ∈ comms) : 0 < r := by
  obtain ⟨given, hgiven, hassigns⟩ := h.assigns
  have hlen : given.length = comms.length := by
    simpa using congrArg List.length hgiven
  have hidx : comms.idxOf q < given.length := hlen ▸ List.idxOf_lt_length_of_mem hq
  rw [sentTo, if_pos hq, List.singleton_append, List.cons.injEq, MasterReply.rank.injEq] at hsent
  rw [← hsent.1, hassigns.answers, List.getD_eq_getElem _ _ (by simpa using hidx),
    List.getElem_map]
  exact Int.ofNat_lt.2 (hassigns.slots _ (List.getElem_mem hidx)).1

theorem Led.rank (h : Led l s boss m comms tabled waiting) {r : ℤ} {inbox : List MasterReply}
    (hrole : s.role p = .registered) (hinbox : s.inbox p = .rank r :: inbox) :
    Led l { s.setRole p (if r < 0 then .refused else .ranked r) with
        inbox := Function.update s.inbox p inbox }
      boss m comms tabled waiting := by
  have hp : p ≠ boss := by
    rintro rfl
    simpa [MasterInv, hrole] using h.master
  have hworker := h.worker p hp
  simp only [WorkerInv, hrole, hinbox] at hworker
  obtain ⟨hcomms, hinfos, hsent⟩ := hworker.resolve_left fun hwait => by cases hwait.2.2
  have hr : ¬ r < 0 := Int.not_lt.2 (h.rank_pos hsent.symm hcomms).le
  refine h.worker_call hp (fun q hq => Function.update_of_ne hq ..) (fun _ _ => rfl)
    (fun q hq => Function.update_of_ne hq ..) rfl rfl ?_
  simp [WorkerInv, Coord.setRole, hr, hcomms, hinfos, ← hsent]

/-- A worker is sent two answers at most. -/
theorem sentTo_table {r : ℤ} {portTable : List ℤ} {rest : List MasterReply}
    (h : sentTo m comms tabled q = .rank r :: .table portTable :: rest) : rest = [] := by
  unfold sentTo at h
  split_ifs at h <;> simp at h
  exact h.2.2

theorem Led.place (h : Led l s boss m comms tabled waiting) {r : ℤ} {portTable : List ℤ}
    {inbox : List MasterReply} (hrole : s.role p = .ranked r)
    (hinbox : s.inbox p = .table portTable :: inbox) :
    Led l { s.setRole p (.placed r portTable) with
        inbox := Function.update s.inbox p inbox }
      boss m comms tabled waiting := by
  have hp : p ≠ boss := by
    rintro rfl
    simpa [MasterInv, hrole] using h.master
  have hworker := h.worker p hp
  simp only [WorkerInv, hrole, hinbox] at hworker
  obtain ⟨hcomms, hinfos, hsent⟩ := hworker
  obtain rfl := sentTo_table hsent
  refine h.worker_call hp (fun q hq => Function.update_of_ne hq ..) (fun _ _ => rfl)
    (fun q hq => Function.update_of_ne hq ..) rfl rfl ?_
  simp [WorkerInv, Coord.setRole, hcomms, hinfos, hsent]

/-- A worker joins those that wait. -/
theorem Led.connect (h : Led l s boss m comms tabled waiting) (hrole : s.role p = .connecting) :
    Led l { s.setRole p .connected with backlog := s.backlog ++ [p] }
      boss m comms tabled (waiting ++ [p]) := by
  have hp : p ≠ boss := by
    rintro rfl
    simpa [MasterInv, hrole] using h.master
  have hworker := h.worker p hp
  simp only [WorkerInv, hrole] at hworker
  obtain ⟨hcomms, hwaiting, hinfos, hinbox⟩ := hworker
  have hnotall : comms.length + 1 ≠ n := fun hall => hcomms (h.mem_comms hall hp).1
  refine { h with master := ?_, worker := fun q hq => ?_, nodup := ?_ }
  · have hmaster := h.master
    unfold MasterInv at hmaster ⊢
    rw [Coord.setRole]
    simp only [Function.update_of_ne hp.symm]
    cases hboss : s.role boss with
    | accepting m' comms' =>
        simp only [hboss] at hmaster ⊢
        obtain ⟨hm, hc, ht, hb, hs⟩ := hmaster
        exact ⟨hm, hc, ht, by rw [hb], hs⟩
    | reading m' comms' q =>
        simp only [hboss] at hmaster ⊢
        obtain ⟨hm, hc, ht, hb, hs⟩ := hmaster
        exact ⟨hm, hc, ht, by rw [← hb, List.cons_append], hs⟩
    | sending m' comms' rest =>
        simp only [hboss] at hmaster
        exact absurd hmaster.2.2.2.2.2.2 hnotall
    | placed r portTable =>
        simp only [hboss] at hmaster
        exact absurd hmaster.2.2.2.2.2.2 hnotall
    | start => simp only [hboss] at hmaster
    | connecting => simp only [hboss] at hmaster
    | connected => simp only [hboss] at hmaster
    | registered => simp only [hboss] at hmaster
    | ranked r => simp only [hboss] at hmaster
    | refused => simp only [hboss] at hmaster
  · by_cases hqp : q = p
    · subst hqp
      simp [WorkerInv, Coord.setRole, hinfos, hinbox]
    · exact (h.worker q hq).congr (Function.update_of_ne hqp ..) rfl rfl Iff.rfl
        (by simp [hqp]) rfl
  · rw [← List.append_assoc, ← List.cons_append]
    refine List.Nodup.append h.nodup (List.nodup_singleton p) ?_
    rw [List.disjoint_singleton]
    simp [hp, hcomms, hwaiting]

/-- Only the master has the roles of one. -/
theorem Led.eq_boss (h : Led l s boss m comms tabled waiting)
    (hrole : ¬ WorkerInv l s m comms tabled waiting p) : p = boss := by
  by_contra hp
  exact hrole (h.worker p hp)

theorem Led.accept (h : Led l s boss m comms tabled waiting) {m' : Master}
    {comms' backlog : List (Fin n)} (hrole : s.role p = .accepting m' comms')
    (hbacklog : s.backlog = q :: backlog) :
    Led l { s.setRole p (.reading m' comms' q) with backlog := backlog }
      boss m comms tabled waiting := by
  obtain rfl := h.eq_boss (p := p) (by simp [WorkerInv, hrole])
  have hmaster := h.master
  simp only [MasterInv, hrole] at hmaster
  obtain ⟨rfl, rfl, htabled, hb, hbound⟩ := hmaster
  refine { h with master := ?_, worker := fun q' hq' => ?_ }
  · simp [MasterInv, Coord.setRole, htabled, ← hb, hbacklog, hbound]
  · exact (h.worker q' hq').congr (Function.update_of_ne hq' ..) rfl rfl Iff.rfl Iff.rfl rfl

/-- The master goes on when it has served all the others. -/
theorem Led.gathered (h : Led l s boss m comms tabled waiting) {m' : Master}
    {comms' : List (Fin n)} (hrole : s.role p = .accepting m' comms')
    (hle : l.hostnames.length ≤ comms'.length + 1) :
    Led l (s.setRole p (.sending m' comms' comms')) boss m comms tabled waiting := by
  obtain rfl := h.eq_boss (p := p) (by simp [WorkerInv, hrole])
  have hmaster := h.master
  simp only [MasterInv, hrole] at hmaster
  obtain ⟨rfl, rfl, rfl, hb, hbound⟩ := hmaster
  rw [l.length_hostnames] at hle
  have hcard : (p :: (comms' ++ waiting)).length ≤ n := by
    simpa using h.nodup.length_le_card
  rw [List.length_cons, List.length_append] at hcard
  have hwaiting : waiting = [] := List.length_eq_zero_iff.1 (by omega)
  refine { h with master := ?_, worker := fun q hq => ?_ }
  · simp only [MasterInv, Coord.setRole, Function.update_self]
    exact ⟨trivial, trivial, rfl, hb.trans hwaiting, hwaiting, hbound, by omega⟩
  · exact (h.worker q hq).congr (Function.update_of_ne hq ..) rfl rfl Iff.rfl Iff.rfl rfl

theorem idxOf_append_singleton (hq : q ∉ comms) : (comms ++ [q]).idxOf q = comms.length := by
  rw [List.idxOf_append_of_notMem hq, List.idxOf_cons_self, Nat.add_zero]

/-- The answers are those to the workers that were served. -/
theorem Led.length_answers (h : Led l s boss m comms tabled waiting) :
    m.answers.length = comms.length := by
  obtain ⟨given, hgiven, hassigns⟩ := h.assigns
  have hlen : given.length = comms.length := by
    simpa using congrArg List.length hgiven
  rw [hassigns.answers, List.length_map, hlen]

/-- A worker is served with the rank that the master has for it. -/
theorem Led.serve (h : Led l s boss m comms tabled waiting) {m' : Master}
    {comms' : List (Fin n)} {memory : RankInfoMemory} {infos : List RankInfoMemory}
    {info : RankInfo} (hrole : s.role p = .reading m' comms' q)
    (hinfo : s.infos q = memory :: infos)
    (hdecoded : memory.decoded l.text (l.beyond p) = some info) :
    ∃ waiting', Led l
      { (s.setRole p (.accepting (serveWorker l.hostnames m' info) (comms' ++ [q]))).tell q
          (.rank ((serveWorker l.hostnames m' info).answers.getLast?.getD (-1))) with
        infos := Function.update s.infos q infos }
      boss (serveWorker l.hostnames m info) (comms ++ [q]) tabled waiting' := by
  obtain rfl := h.eq_boss (p := p) (by simp [WorkerInv, hrole])
  have hmaster := h.master
  simp only [MasterInv, hrole] at hmaster
  obtain ⟨rfl, rfl, rfl, rfl, hbound⟩ := hmaster
  have hnodup := h.nodup
  have hqp : q ≠ p := fun hqp => by simp [hqp] at hnodup
  have hqcomms : q ∉ comms' := fun hmem => by
    rw [List.nodup_cons, List.nodup_append] at hnodup
    exact hnodup.2.2.2 q hmem q (List.mem_cons_self ..) rfl
  -- what it reads is what the worker has sent
  have hworker := h.worker q hqp
  have hq : s.role q = .registered ∧ memory = l.record q ∧ infos = [] ∧ s.inbox q = [] := by
    unfold WorkerInv at hworker
    split at hworker <;> simp_all
  obtain ⟨hregistered, rfl, rfl, hinbox⟩ := hq
  obtain rfl : l.info q = info := Option.some.inj ((l.decoded_record q _).symm.trans hdecoded)
  have hlen := h.length_answers
  obtain ⟨given, hgiven, hassigns⟩ := h.assigns
  have hperm := (unserved_perm (mem_unserved.2 ⟨hqp, hqcomms⟩)).map l.info
  obtain ⟨r, hnext⟩ := (hassigns.perm hperm).serveWorker
  have hanswers : (serveWorker l.hostnames m' (l.info q)).answers = m'.answers ++ [(r : ℤ)] := by
    rw [hnext.answers, hassigns.answers, List.map_append]
    rfl
  have hsent : sentTo (serveWorker l.hostnames m' (l.info q)) (comms' ++ [q]) [] q =
      [.rank r] := by
    rw [sentTo, idxOf_append_singleton hqcomms, hanswers, ← hlen]
    simp [List.getD]
  refine ⟨s.backlog, h.first, ?_, fun q' hq' => ?_, ?_, fun _ hx => absurd hx List.not_mem_nil,
    given ++ [(r, l.info q)], by rw [List.map_append, List.map_append, hgiven]; rfl, hnext⟩
  · simp [MasterInv, Coord.setRole, Coord.tell, hbound]
  · by_cases hqq : q' = q
    · subst hqq
      simp [WorkerInv, Coord.setRole, Coord.tell, Function.update_of_ne hqp, hregistered, hinbox,
        hsent, hanswers]
    · refine (h.worker q' hq').congr (Function.update_of_ne hq' ..) (Function.update_of_ne hqq ..)
        (Function.update_of_ne hqq ..) (by simp [hqq]) (by simp [hqq]) ?_
      by_cases hmem : q' ∈ comms'
      · have hidx : comms'.idxOf q' < m'.answers.length :=
          hlen ▸ List.idxOf_lt_length_of_mem hmem
        simp [sentTo, hmem, hanswers, List.idxOf_append_of_mem hmem, List.getD,
          List.getElem?_append_left hidx]
      · simp [sentTo, hmem, hqq]
  · have hswap : p :: (comms' ++ [q] ++ s.backlog) = p :: (comms' ++ q :: s.backlog) := by simp
    rw [hswap]
    exact hnodup

theorem Led.table (h : Led l s boss m comms tabled waiting) {m' : Master}
    {comms' rest : List (Fin n)} (hrole : s.role p = .sending m' comms' (q :: rest)) :
    Led l ((s.setRole p (.sending m' comms' rest)).tell q (.table m'.portTable))
      boss m comms (tabled ++ [q]) waiting := by
  obtain rfl := h.eq_boss (p := p) (by simp [WorkerInv, hrole])
  have hmaster := h.master
  simp only [MasterInv, hrole] at hmaster
  obtain ⟨rfl, rfl, hsplit, hbacklog, rfl, hbound, hlen⟩ := hmaster
  have hnodup := h.nodup
  rw [List.append_nil, ← hsplit] at hnodup
  have hqcomms : q ∈ comms' := hsplit ▸ List.mem_append_right _ (List.mem_cons_self ..)
  have hqp : q ≠ p := by
    rintro rfl
    simp at hnodup
  have hqtabled : q ∉ tabled := fun hmem => by
    rw [List.nodup_cons, List.nodup_append] at hnodup
    exact hnodup.2.2.2 q hmem q (List.mem_cons_self ..) rfl
  refine { h with master := ?_, worker := fun q' hq' => ?_, tabled := fun x hx => ?_ }
  · simp only [MasterInv, Coord.setRole, Coord.tell, Function.update_self]
    have hnext : tabled ++ [q] ++ rest = comms' := by rw [List.append_assoc]; exact hsplit
    exact ⟨trivial, trivial, hnext, hbacklog, trivial, hbound, hlen⟩
  · by_cases hqq : q' = q
    · subst hqq
      have hworker := h.worker q' hq'
      unfold WorkerInv at hworker ⊢
      simp only [Coord.setRole, Coord.tell, Function.update_of_ne hq', Function.update_self]
      cases hq : s.role q' <;> simp_all [sentTo]
    · refine (h.worker q' hq').congr (Function.update_of_ne hq' ..) rfl
        (Function.update_of_ne hqq ..) Iff.rfl Iff.rfl ?_
      simp [sentTo, hqq]
  · rcases List.mem_append.1 hx with hx | hx
    · exact h.tabled x hx
    · exact List.mem_singleton.1 hx ▸ hqcomms

theorem Led.close (h : Led l s boss m comms tabled waiting) {m' : Master}
    {comms' : List (Fin n)} (hrole : s.role p = .sending m' comms' []) :
    Led l { s.setRole p (.placed 0 m'.portTable) with bound := none, backlog := [] }
      boss m comms tabled waiting := by
  obtain rfl := h.eq_boss (p := p) (by simp [WorkerInv, hrole])
  have hmaster := h.master
  simp only [MasterInv, hrole] at hmaster
  obtain ⟨rfl, rfl, hsplit, hbacklog, hwaiting, hbound, hlen⟩ := hmaster
  refine { h with master := ?_, worker := fun q hq => ?_ }
  · simp only [MasterInv, Coord.setRole, Function.update_self]
    exact ⟨trivial, trivial, by rw [← hsplit, List.append_nil], trivial, hwaiting, trivial, hlen⟩
  · exact (h.worker q hq).congr (Function.update_of_ne hq ..) rfl rfl Iff.rfl Iff.rfl rfl

/-- The first to get the port. -/
theorem Leaderless.lead (h : Leaderless l s) (hfirst : l.first p = true) :
    Led l { s.setRole p (.accepting (.start l.hostnames (l.port p)) []) with
        bound := some p, backlog := [] }
      p (.start l.hostnames (l.port p)) [] [] [] := by
  obtain ⟨names, hnames⟩ := exists_first hfirst
  refine ⟨hfirst, ?_, fun q hq => ?_, List.nodup_singleton p,
    fun _ hx => absurd hx List.not_mem_nil, [], rfl, ?_⟩
  · simp [MasterInv, Coord.setRole]
  · rcases h.role q with hrole | ⟨hrole, -⟩ <;>
      simp [WorkerInv, Coord.setRole, Function.update_of_ne hq, hrole, h.infos, h.inbox]
  · have hstart := assigns_start (l.host p) names (l.port p) (unserved_hosts hnames)
    rw [hnames]
    exact hstart

/-- **Every call keeps the invariant.** -/
theorem CoordInv.step (hs : CoordInv l s) (h : coordStep l s p = some t) : CoordInv l t := by
  rcases hs with hs | ⟨boss, m, comms, tabled, waiting, hs⟩
  · have hrole : ∀ r, s.role p = r → r = .start ∨ r = .connecting := fun r hr =>
      hr ▸ (hs.role p).imp_right And.left
    cases coordStep_call h with
    | lead _ hfirst _ => exact .inr ⟨p, _, [], [], [], hs.lead hfirst⟩
    | follow _ hnot =>
        refine .inl ⟨fun q => ?_, hs.bound, hs.infos, hs.inbox⟩
        by_cases hq : q = p
        · subst hq
          refine .inr ⟨Function.update_self .., ?_⟩
          simpa [hs.bound] using hnot
        · simpa only [Coord.setRole, Function.update_of_ne hq] using hs.role q
    | connect _ hbound =>
        rw [hs.bound] at hbound
        cases hbound
    | accept hr => simpa using hrole _ hr
    | gathered hr => simpa using hrole _ hr
    | serve hr => simpa using hrole _ hr
    | table hr => simpa using hrole _ hr
    | close hr => simpa using hrole _ hr
    | register hr => simpa using hrole _ hr
    | rank hr => simpa using hrole _ hr
    | place hr => simpa using hrole _ hr
  · cases coordStep_call h with
    | lead hr _ hbound =>
        -- the port is free again when all the others have been served
        have hp : p ≠ boss := by
          rintro rfl
          simpa [MasterInv, hr] using hs.master
        have hworker := hs.worker p hp
        simp only [WorkerInv, hr] at hworker
        have hmaster := hs.master
        unfold MasterInv at hmaster
        cases hboss : s.role boss <;> simp only [hboss, hbound] at hmaster
        case placed =>
          exact absurd (hs.mem_comms hmaster.2.2.2.2.2.2 hp).1 hworker.1
        all_goals simp at hmaster
    | follow hr => exact .inr ⟨_, _, _, _, _, hs.follow hr⟩
    | accept hr _ hbacklog => exact .inr ⟨_, _, _, _, _, hs.accept hr hbacklog⟩
    | gathered hr hle => exact .inr ⟨_, _, _, _, _, hs.gathered hr hle⟩
    | serve hr hinfo hdecoded =>
        obtain ⟨_, h⟩ := hs.serve hr hinfo hdecoded
        exact .inr ⟨_, _, _, _, _, h⟩
    | table hr => exact .inr ⟨_, _, _, _, _, hs.table hr⟩
    | close hr => exact .inr ⟨_, _, _, _, _, hs.close hr⟩
    | connect hr => exact .inr ⟨_, _, _, _, _, hs.connect hr⟩
    | register hr => exact .inr ⟨_, _, _, _, _, hs.register hr⟩
    | rank hr hinbox => exact .inr ⟨_, _, _, _, _, hs.rank hr hinbox⟩
    | place hr hinbox => exact .inr ⟨_, _, _, _, _, hs.place hr hinbox⟩

end Invariant

end Coll
end Lfi
