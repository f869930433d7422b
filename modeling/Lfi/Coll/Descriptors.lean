/-
# The descriptors of a group that is not created

`lfi_group_create` of `src/src/lfi_coll.cpp` as far as descriptors go, by the results of the
system calls: the server of the mesh, the server of the master and the workers it accepts, the
connection of a worker, and the connections of the mesh.

With `LFI_async_connection` a connection of the mesh is finished by a task, which closes its
socket at the end.  When the mesh fails, `lfi_group_close` waits for the tasks whose
communicator is not ready yet, and for no others.

An error leaves a descriptor open in two ways (`groupCreate_noLeak_iff`): the master gives up
with workers in `worker_comms` (`Abandons`), or a task goes on after the return (`TaskLate`).
-/

import Lfi.Coll.Lifecycle
import Lfi.Socket.Descriptors

namespace Lfi
namespace Coll

open Data Ledger Socket

/-! ### The results -/

/-- The results for a connection of the mesh, by `lfi_client_create_t` or
`lfi_server_accept_t`, and its communicator as an `int`.  Of its task: whether the communicator
is ready when `lfi_group_close` looks, and whether it has closed the socket by the return
without being waited for. -/
structure MeshResults where
  client : ClientInitResults
  server : AcceptResults
  comm : ℤ
  ready : Bool
  returned : Bool

/-- The results in `lfi_group_create`, and the rank that the master sends to a worker. -/
structure GroupResults where
  hostnames : Bool
  outGroup : Bool
  meshServer : ServerInitResults
  hostMatches : Bool
  masterServer : ServerInitResults
  accept : ℕ → AcceptResults
  client : ClientInitResults
  myRank : ℤ
  malloc : Bool
  async : Bool
  mesh : ℕ → MeshResults

/-- The end of `lfi_client_create_t` and `lfi_server_accept_t`: the socket goes to a task, or the
handshake is made here and the socket closed. -/
def startConnection (async : Bool) : Except ℤ ℕ × Ledger → Except ℤ (Option ℕ) × Ledger
  | (.error e, s) => (.error e, s)
  | (.ok clientSocket, s) =>
      if async then (.ok (some clientSocket), s) else (.ok none, s.release clientSocket)

/-- `lfi_client_create_t`. -/
def lfiClientCreateT (timeoutMs : ℤ) (async : Bool) (r : ClientInitResults) (s : Ledger) :
    Option (Except ℤ (Option ℕ) × Ledger) :=
  (clientInit timeoutMs false r s).map (startConnection async)

/-- `lfi_server_accept_t`. -/
def lfiServerAcceptT (async : Bool) (r : AcceptResults) (s : Ledger) :
    Except ℤ (Option ℕ) × Ledger :=
  startConnection async (socketAccept r s)

/-- `timeout_ms`. -/
def groupTimeoutMs : ℤ := 2000

namespace GroupResults

variable (r : GroupResults)

/-! ### The function -/

/-- The loop of the master over the workers; `comms` is `worker_comms`. -/
def acceptWorkers : List ℕ → List ℕ → Ledger → Except ℤ Unit × List ℕ × Ledger
  | [], comms, s => (.ok (), comms, s)
  | i :: is, comms, s =>
      match socketAccept (r.accept i) s with
      | (.error e, s) => (.error e, comms, s)
      | (.ok comm, s) => acceptWorkers is (comms ++ [comm]) s

/-- `master_server_fd`, if there is one. -/
def openMaster (s : Ledger) : Option ℕ × Ledger :=
  if r.hostMatches then
    match serverInit "" r.masterServer s with
    | (.error _, s) => (none, s)
    | (.ok masterServerFd, s) => (some masterServerFd, s)
  else (none, s)

/-- The coordination phase: the rank, or the error to return. -/
def coordinate (nHosts meshServerFd : ℕ) (s : Ledger) : Option (Except ℤ ℤ × Ledger) :=
  match r.openMaster s with
  | (some masterServerFd, s) =>
      match r.acceptWorkers (List.range' 1 (nHosts - 1)) [] s with
      | (.error e, _, s) => some (.error e, (s.release masterServerFd).release meshServerFd)
      | (.ok (), comms, s) => some (.ok 0, (s.releaseAll comms).release masterServerFd)
  | (none, s) =>
      (clientInit (groupTimeoutMs * 10) false r.client s).map fun
        | (.error e, s) => (.error e, s.release meshServerFd)
        | (.ok masterComm, s) =>
            if r.myRank < 0 then
              (.error (-lfiGroupNoSelf), (s.release masterComm).release meshServerFd)
            else (.ok r.myRank, s.release masterComm)

/-- The loop of the mesh over the ranks; `tasks` are those started, with their ranks. -/
def connectMesh (rank : ℤ) : List ℕ → List (ℕ × ℕ) → Ledger →
    Option (Except ℤ Unit × List (ℕ × ℕ) × Ledger)
  | [], tasks, s => some (.ok (), tasks, s)
  | j :: js, tasks, s =>
      if (j : ℤ) = rank then connectMesh rank js tasks s
      else
        (if (j : ℤ) < rank then lfiClientCreateT groupTimeoutMs r.async (r.mesh j).client s
          else some (lfiServerAcceptT r.async (r.mesh j).server s)).bind fun
        | (.error e, s) => some (.error e, tasks, s)
        | (.ok task, s) =>
            let tasks := tasks ++ (task.map fun fd => (j, fd)).toList
            if (r.mesh j).comm < 0 then some (.error (r.mesh j).comm, tasks, s)
            else connectMesh rank js tasks s

/-- The task of a connection has closed its socket when an error is returned: in any case when
`lfi_group_close` waits for it. -/
def closed (j : ℕ) : Bool :=
  (r.mesh j).returned || (decide (0 ≤ (r.mesh j).comm) && !(r.mesh j).ready)

/-- `lfi_group_create(hostnames, n_hosts, out_group)`.  What the tasks close is entered at the
end. -/
def lfiGroupCreate (nHosts : ℕ) (s : Ledger) : Option (Except ℤ Unit × Ledger) :=
  if nHosts = 0 ∨ r.hostnames = false ∨ r.outGroup = false then some (.error (-lfiGroupInval), s)
  else
    match serverInit "" r.meshServer s with
    | (.error e, s) => some (.error e, s)
    | (.ok meshServerFd, s) =>
        (r.coordinate nHosts meshServerFd s).bind fun
        | (.error e, s) => some (.error e, s)
        | (.ok rank, s) =>
            if r.malloc = false then some (.error (-1), s.release meshServerFd)
            else
              (r.connectMesh rank (List.range nHosts) [] s).map fun
              | (.error e, tasks, s) =>
                  (.error e, (s.release meshServerFd).releaseAll
                    ((tasks.filter fun task => r.closed task.1).map (·.2)))
              | (.ok (), tasks, s) =>
                  (.ok (), (s.release meshServerFd).releaseAll
                    ((tasks.filter fun task => (r.mesh task.1).returned).map (·.2)))

/-! ### What is left open -/

/-- The creation gets to its coordination. -/
def starts (nHosts : ℕ) : Bool :=
  decide (0 < nHosts) && r.hostnames && r.outGroup && r.meshServer.ok ""

/-- This process is the master. -/
def isMaster : Bool := r.hostMatches && r.masterServer.ok ""

/-- All workers are accepted. -/
def acceptsAll (nHosts : ℕ) : Bool := (List.range' 1 (nHosts - 1)).all fun i => (r.accept i).ok

/-- The rank that the coordination ends with. -/
def rank? (nHosts : ℕ) : Option ℤ :=
  if r.isMaster then if r.acceptsAll nHosts then some 0 else none
  else if r.client.ok (groupTimeoutMs * 10) false ∧ 0 ≤ r.myRank then some r.myRank else none

/-- The connection with a rank is made. -/
def connected (rank : ℤ) (j : ℕ) : Bool :=
  if (j : ℤ) < rank then (r.mesh j).client.ok groupTimeoutMs false else (r.mesh j).server.ok

/-- The connections that are made, up to the first that fails. -/
def made (rank : ℤ) : List ℕ → List ℕ
  | [] => []
  | j :: js =>
      if (j : ℤ) = rank then made rank js
      else if r.connected rank j then
        if (r.mesh j).comm < 0 then [j] else j :: made rank js
      else []

/-- **The master gives up**, and a worker was accepted before. -/
def Abandons (nHosts : ℕ) : Prop :=
  r.starts nHosts = true ∧ r.isMaster = true ∧ (r.accept 1).ok = true ∧
    r.acceptsAll nHosts = false

/-- **A task goes on**: a connection of the mesh was made, and its socket is not closed. -/
def TaskLate (nHosts : ℕ) : Prop :=
  r.starts nHosts = true ∧ r.malloc = true ∧ r.async = true ∧
    ∃ rank ∈ r.rank? nHosts, ∃ j ∈ r.made rank (List.range nHosts), r.closed j = false

variable {r} {s₀ s t : Ledger} {ds : List ℕ} {nHosts : ℕ} {rank : ℤ}

/-- The workers accepted are held. -/
theorem acceptWorkers_spec {is comms comms' : List ℕ} {res : Except ℤ Unit}
    (h : Holding s₀ s (comms ++ ds)) (hr : r.acceptWorkers is comms s = (res, comms', t)) :
    Holding s₀ t (comms' ++ ds) ∧ ((∃ e, res = .error e) ↔ ∃ i ∈ is, (r.accept i).ok = false) ∧
      (comms' = [] ↔ comms = [] ∧ ∀ i ∈ is.head?, (r.accept i).ok = false) := by
  induction is generalizing comms s with
  | nil =>
      obtain ⟨rfl, rfl, rfl⟩ : Except.ok () = res ∧ comms = comms' ∧ s = t := by
        simpa [acceptWorkers] using hr
      exact ⟨h, by simp, by simp⟩
  | cons i is ih =>
      have haccept := gives_socketAccept (r.accept i) h
      rw [acceptWorkers] at hr
      rcases hq : socketAccept (r.accept i) s with ⟨answer, u⟩
      rw [hq] at haccept hr
      cases answer with
      | error e =>
          obtain ⟨hfail, hholds⟩ := haccept.failed
          obtain ⟨rfl, rfl, rfl⟩ : Except.error e = res ∧ comms = comms' ∧ u = t := by
            simpa using hr
          exact ⟨hholds, by simp [hfail], by simp [hfail]⟩
      | ok fd =>
          obtain ⟨hok, hholds⟩ := haccept.succeeded
          have hmoved : Holding s₀ u ((comms ++ [fd]) ++ ds) := by
            rw [List.append_assoc]
            exact hholds.perm List.perm_middle.symm
          obtain ⟨ht, hres, hempty⟩ := ih hmoved hr
          exact ⟨ht, by simp [hres, hok], by simp [hempty, hok]⟩

/-- The server of the master is held by the master. -/
theorem openMaster_spec {fd? : Option ℕ} (h : Holding s₀ s ds) (hr : r.openMaster s = (fd?, t)) :
    Holding s₀ t (fd?.toList ++ ds) ∧ fd?.isSome = r.isMaster := by
  have hrefuse : ¬ r.masterServer.Refuses "" := fun hr => hr.2.1 rfl
  have hgives := gives_serverInit hrefuse h
  rw [openMaster] at hr
  rw [isMaster]
  cases hmatch : r.hostMatches with
  | false =>
      obtain ⟨rfl, rfl⟩ : none = fd? ∧ s = t := by simpa [hmatch] using hr
      exact ⟨h, rfl⟩
  | true =>
      rcases hq : serverInit "" r.masterServer s with ⟨answer, u⟩
      rw [hq] at hgives
      rw [hmatch, if_pos rfl, hq] at hr
      cases answer with
      | error e =>
          obtain ⟨hfail, hholds⟩ := hgives.failed
          obtain ⟨rfl, rfl⟩ : none = fd? ∧ u = t := by simpa using hr
          exact ⟨hholds, by simp [hfail]⟩
      | ok fd =>
          obtain ⟨hok, hholds⟩ := hgives.succeeded
          obtain ⟨rfl, rfl⟩ : some fd = fd? ∧ u = t := by simpa using hr
          exact ⟨hholds, by simp [hok]⟩

/-- **The coordination** ends with a rank and the server of the mesh, or with an error and the
workers accepted so far. -/
theorem coordinate_spec {meshServerFd : ℕ} {res : Except ℤ ℤ}
    (h : Holding s₀ s (meshServerFd :: ds))
    (hr : r.coordinate nHosts meshServerFd s = some (res, t)) :
    match res with
    | .ok rank => r.rank? nHosts = some rank ∧ Holding s₀ t (meshServerFd :: ds)
    | .error _ => r.rank? nHosts = none ∧ ∃ comms, Holding s₀ t (comms ++ ds) ∧
        (comms = [] ↔ ¬ (r.isMaster = true ∧ (r.accept 1).ok = true)) := by
  rcases hopen : r.openMaster s with ⟨fd?, u⟩
  obtain ⟨hholds, hmaster⟩ := openMaster_spec h hopen
  rw [coordinate, hopen] at hr
  cases fd? with
  | some fd =>
      have hmaster : r.isMaster = true := hmaster.symm
      rcases haccept : r.acceptWorkers (List.range' 1 (nHosts - 1)) [] u with ⟨answer, comms, v⟩
      have hbegin : Holding s₀ u ([] ++ fd :: meshServerFd :: ds) := hholds
      obtain ⟨hv, hanswer, hempty⟩ := acceptWorkers_spec hbegin haccept
      simp only [haccept] at hr
      cases answer with
      | error e =>
          obtain ⟨rfl, rfl⟩ : Except.error e = res ∧
              (v.release fd).release meshServerFd = t := by simpa using hr
          obtain ⟨i, hi, hfail⟩ := hanswer.1 ⟨e, rfl⟩
          have hnot : r.acceptsAll nHosts = false := List.all_eq_false.2 ⟨i, hi, by simp [hfail]⟩
          have hfirst : (List.range' 1 (nHosts - 1)).head? = some 1 := by
            obtain ⟨hle, hlt⟩ := List.mem_range'_1.1 hi
            rw [List.head?_range', if_neg (by omega)]
          refine ⟨by simp [rank?, hmaster, hnot], comms, ?_, ?_⟩
          · have hperm : (comms ++ fd :: meshServerFd :: ds).Perm
                (fd :: meshServerFd :: (comms ++ ds)) :=
              List.perm_middle.trans (List.perm_middle.cons fd)
            exact (hv.perm hperm).release.release
          · rw [hempty, hfirst, hmaster]
            simp
      | ok _ =>
          obtain ⟨rfl, rfl⟩ : Except.ok 0 = res ∧ (v.releaseAll comms).release fd = t := by
            simpa using hr
          have hall : r.acceptsAll nHosts = true := by
            by_contra hnot
            obtain ⟨i, hi, hfail⟩ := List.all_eq_false.1 (Bool.eq_false_iff.2 hnot)
            obtain ⟨e, he⟩ := hanswer.2 ⟨i, hi, by simpa using hfail⟩
            cases he
          exact ⟨by simp [rank?, hmaster, hall], hv.releaseAll.release⟩
  | none =>
      have hmaster : r.isMaster = false := hmaster.symm
      obtain ⟨⟨answer, v⟩, hclient, hr⟩ := Option.map_eq_some_iff.1 hr
      have hgives := gives_clientInit (by simpa using hholds) hclient
      cases answer with
      | error e =>
          obtain ⟨hfail, hv⟩ := hgives.failed
          obtain ⟨rfl, rfl⟩ : Except.error e = res ∧ v.release meshServerFd = t := by
            simpa using hr
          exact ⟨by simp [rank?, hmaster, hfail], [], hv.release, by simp [hmaster]⟩
      | ok fd =>
          obtain ⟨hok, hv⟩ := hgives.succeeded
          simp only at hr
          split at hr
          case isTrue hneg =>
            obtain ⟨rfl, rfl⟩ : Except.error (-lfiGroupNoSelf) = res ∧
                (v.release fd).release meshServerFd = t := by simpa using hr
            exact ⟨by simp [rank?, hmaster, hneg], [], hv.release.release, by simp [hmaster]⟩
          case isFalse hpos =>
            obtain ⟨rfl, rfl⟩ : Except.ok r.myRank = res ∧ v.release fd = t := by simpa using hr
            exact ⟨by simp [rank?, hmaster, hok, Int.not_lt.1 hpos], hv.release⟩

/-- What is left of a call that connects: with a task its socket, and otherwise nothing. -/
def Started (s₀ : Ledger) (ds : List ℕ) (ok async : Bool) :
    Except ℤ (Option ℕ) × Ledger → Prop
  | (.error _, t) => ok = false ∧ Holding s₀ t ds
  | (.ok task, t) => ok = true ∧ task.isSome = async ∧ Holding s₀ t (task.toList ++ ds)

theorem started_startConnection {ok async : Bool} {p : Except ℤ ℕ × Ledger}
    (h : Gives s₀ ds ok p) : Started s₀ ds ok async (startConnection async p) := by
  cases h with
  | failure e t ht => exact ⟨rfl, ht⟩
  | success fd t ht =>
      cases async with
      | true => exact ⟨rfl, rfl, ht⟩
      | false => exact ⟨rfl, rfl, ht.release⟩

/-- One connection of the mesh. -/
theorem started_mesh {j : ℕ} {p : Except ℤ (Option ℕ) × Ledger} (h : Holding s₀ s ds)
    (hp : (if (j : ℤ) < rank then lfiClientCreateT groupTimeoutMs r.async (r.mesh j).client s
      else some (lfiServerAcceptT r.async (r.mesh j).server s)) = some p) :
    Started s₀ ds (r.connected rank j) r.async p := by
  rw [connected]
  split at hp
  case isTrue hlower =>
    obtain ⟨q, hq, rfl⟩ := Option.map_eq_some_iff.1 hp
    rw [if_pos hlower]
    exact started_startConnection (gives_clientInit h hq)
  case isFalse hhigher =>
    obtain rfl := Option.some.inj hp
    rw [if_neg hhigher]
    exact started_startConnection (gives_socketAccept _ h)

/-- **The mesh**: the tasks started are those of the connections made. -/
theorem connectMesh_spec {js : List ℕ} {tasks tasks' : List (ℕ × ℕ)} {res : Except ℤ Unit}
    (h : Holding s₀ s (tasks.map (·.2) ++ ds))
    (hr : r.connectMesh rank js tasks s = some (res, tasks', t)) :
    Holding s₀ t (tasks'.map (·.2) ++ ds) ∧
      tasks'.map (·.1) = tasks.map (·.1) ++ if r.async then r.made rank js else [] := by
  induction js generalizing tasks s with
  | nil =>
      obtain ⟨rfl, rfl, rfl⟩ : Except.ok () = res ∧ tasks = tasks' ∧ s = t := by
        simpa [connectMesh] using hr
      exact ⟨h, by simp [made]⟩
  | cons j js ih =>
      rw [connectMesh] at hr
      rw [made]
      by_cases hself : (j : ℤ) = rank
      · rw [if_pos hself] at hr ⊢
        exact ih h hr
      · rw [if_neg hself] at hr ⊢
        obtain ⟨⟨answer, u⟩, hone, hr⟩ := Option.bind_eq_some_iff.1 hr
        have hstarted := started_mesh h hone
        cases answer with
        | error e =>
            obtain ⟨hfail, hu⟩ := hstarted
            obtain ⟨rfl, rfl, rfl⟩ : Except.error e = res ∧ tasks = tasks' ∧ u = t := by
              simpa using hr
            exact ⟨hu, by simp [hfail]⟩
        | ok task =>
            obtain ⟨hok, hasync, hu⟩ := hstarted
            have hmoved : Holding s₀ u
                ((tasks ++ (task.map fun fd => (j, fd)).toList).map (·.2) ++ ds) := by
              refine hu.perm ?_
              cases task with
              | none => simp
              | some fd => simpa using List.perm_middle.symm
            have hranks : (tasks ++ (task.map fun fd => (j, fd)).toList).map (·.1) =
                tasks.map (·.1) ++ if r.async then [j] else [] := by
              rw [← hasync]
              cases task <;> simp
            rw [hok, if_pos rfl]
            simp only at hr
            split at hr
            case isTrue hneg =>
              obtain ⟨-, rfl, rfl⟩ := by simpa using hr
              exact ⟨hmoved, by rw [if_pos hneg]; exact hranks⟩
            case isFalse hpos =>
              obtain ⟨ht, htasks⟩ := ih hmoved hr
              refine ⟨ht, ?_⟩
              rw [htasks, hranks, if_neg hpos, List.append_assoc]
              cases r.async <;> rfl

/-- What the tasks that go on hold. -/
theorem holding_tasks {tasks : List (ℕ × ℕ)} (h : Holding s₀ s (tasks.map (·.2))) :
    Holding s₀ (s.releaseAll ((tasks.filter fun task => r.closed task.1).map (·.2)))
      ((tasks.filter fun task => !r.closed task.1).map (·.2)) := by
  refine Holding.releaseAll (h.perm ?_)
  rw [← List.map_append]
  exact (List.filter_append_perm (fun task => r.closed task.1) tasks).symm.map _

theorem rank?_of_isMaster (h : r.isMaster = true) :
    r.rank? nHosts = if r.acceptsAll nHosts then some 0 else none := by
  rw [rank?, if_pos h]

/-- A creation that does not get to its coordination leaves nothing open. -/
theorem noLeak_iff_of_not_starts (hstarts : r.starts nHosts = false) (h : Holding s t []) :
    NoLeak s t ↔ ¬ r.Abandons nHosts ∧ ¬ r.TaskLate nHosts := by
  refine iff_of_true (h.noLeak_iff.2 rfl) ⟨fun habandons => ?_, fun hlate => ?_⟩
  · rw [habandons.1] at hstarts
    cases hstarts
  · rw [hlate.1] at hstarts
    cases hstarts

/-- An error of the coordination leaves the workers open. -/
theorem noLeak_iff_of_refused {comms : List ℕ} (hstarts : r.starts nHosts = true)
    (hrank : r.rank? nHosts = none) (h : Holding s t comms)
    (hcomms : comms = [] ↔ ¬ (r.isMaster = true ∧ (r.accept 1).ok = true)) :
    NoLeak s t ↔ ¬ r.Abandons nHosts ∧ ¬ r.TaskLate nHosts := by
  have hlate : ¬ r.TaskLate nHosts := by
    rintro ⟨-, -, -, rank, hmem, -⟩
    rw [hrank] at hmem
    cases hmem
  rw [h.noLeak_iff, hcomms, and_iff_left hlate, not_iff_not]
  constructor
  · rintro ⟨hmaster, hfirst⟩
    rw [rank?_of_isMaster hmaster] at hrank
    exact ⟨hstarts, hmaster, hfirst, by simpa using hrank⟩
  · exact fun habandons => ⟨habandons.2.1, habandons.2.2.1⟩

/-- A rank is given by a master that has accepted all. -/
theorem not_abandons_of_rank (hrank : r.rank? nHosts = some rank) : ¬ r.Abandons nHosts := by
  rintro ⟨-, hmaster, -, hnot⟩
  rw [rank?_of_isMaster hmaster, hnot] at hrank
  cases hrank

/-- An error of the mesh leaves the sockets of the tasks that go on. -/
theorem noLeak_iff_of_mesh {meshServerFd : ℕ} {tasks : List (ℕ × ℕ)} {u : Ledger}
    (hstarts : r.starts nHosts = true) (hrank : r.rank? nHosts = some rank)
    (hmalloc : r.malloc = true) (h : Holding s u (tasks.map (·.2) ++ [meshServerFd]))
    (htasks : tasks.map (·.1) = if r.async then r.made rank (List.range nHosts) else []) :
    NoLeak s ((u.release meshServerFd).releaseAll
        ((tasks.filter fun task => r.closed task.1).map (·.2))) ↔
      ¬ r.Abandons nHosts ∧ ¬ r.TaskLate nHosts := by
  have hholds := holding_tasks (r := r) (h.perm (List.perm_append_singleton _ _)).release
  rw [hholds.noLeak_iff, and_iff_right (not_abandons_of_rank hrank), List.map_eq_nil_iff,
    List.filter_eq_nil_iff]
  have hall : (∀ task ∈ tasks, ¬ (!r.closed task.1) = true) ↔
      ∀ j ∈ tasks.map (·.1), r.closed j = true := by simp
  rw [hall, htasks]
  constructor
  · rintro hclosed ⟨-, -, hasync, rank', hrank', j, hj, hopen⟩
    obtain rfl : rank = rank' := Option.some.inj (hrank.symm.trans hrank')
    rw [hasync, if_pos rfl] at hclosed
    rw [hclosed j hj] at hopen
    cases hopen
  · intro hlate j hj
    by_contra hopen
    cases hasync : r.async with
    | false => simp [hasync] at hj
    | true =>
        rw [hasync, if_pos rfl] at hj
        exact hlate ⟨hstarts, hmalloc, hasync, rank, hrank, j, hj, by simpa using hopen⟩

/-- **A group that is not created leaks nothing** unless the master abandons workers or a task
goes on. -/
theorem groupCreate_noLeak_iff {e : ℤ} (hr : r.lfiGroupCreate nHosts s = some (.error e, t)) :
    NoLeak s t ↔ ¬ r.Abandons nHosts ∧ ¬ r.TaskLate nHosts := by
  rw [lfiGroupCreate] at hr
  split at hr
  case isTrue hinval =>
    obtain ⟨-, rfl⟩ := by simpa using hr
    refine noLeak_iff_of_not_starts ?_ (.refl s)
    rcases hinval with rfl | hnull | hnull <;> simp [starts, *]
  case isFalse hvalid =>
    have hrefuse : ¬ r.meshServer.Refuses "" := fun hr => hr.2.1 rfl
    have hgives := gives_serverInit hrefuse (.refl s)
    have hstarts : r.starts nHosts = r.meshServer.ok "" := by
      simp only [not_or, Bool.not_eq_false] at hvalid
      simp [starts, hvalid, Nat.pos_of_ne_zero]
    rcases hserver : serverInit "" r.meshServer s with ⟨answer, u⟩
    rw [hserver] at hgives hr
    cases answer with
    | error e' =>
        obtain ⟨hfail, hu⟩ := hgives.failed
        obtain ⟨-, rfl⟩ := by simpa using hr
        exact noLeak_iff_of_not_starts (hstarts.trans hfail) hu
    | ok meshServerFd =>
        obtain ⟨hok, hu⟩ := hgives.succeeded
        rw [hok] at hstarts
        obtain ⟨⟨answer, v⟩, hcoord, hr⟩ := Option.bind_eq_some_iff.1 hr
        have hspec := coordinate_spec hu hcoord
        cases answer with
        | error e' =>
            obtain ⟨hrank, comms, hv, hcomms⟩ := hspec
            obtain ⟨-, rfl⟩ := by simpa using hr
            exact noLeak_iff_of_refused hstarts hrank (by simpa using hv) hcomms
        | ok rank =>
            obtain ⟨hrank, hv⟩ := hspec
            simp only at hr
            split at hr
            case isTrue hnull =>
              obtain ⟨-, rfl⟩ := by simpa using hr
              refine iff_of_true (hv.release.noLeak_iff.2 rfl) ⟨not_abandons_of_rank hrank, ?_⟩
              rintro ⟨-, hmalloc, -⟩
              rw [hnull] at hmalloc
              cases hmalloc
            case isFalse hmalloc =>
              obtain ⟨⟨answer, tasks, w⟩, hmesh, hr⟩ := Option.map_eq_some_iff.1 hr
              obtain ⟨hw, htasks⟩ := connectMesh_spec (by simpa using hv) hmesh
              cases answer with
              | ok _ => simp at hr
              | error e' =>
                  obtain ⟨-, rfl⟩ := by simpa using hr
                  exact noLeak_iff_of_mesh hstarts hrank (by simpa using hmalloc) hw
                    (by simpa using htasks)

/-- The master of three hosts accepts a worker, and the second does not come. -/
def oneWorker : GroupResults where
  hostnames := true
  outGroup := true
  meshServer := ⟨⟨true, true, true⟩, true, true, true⟩
  hostMatches := true
  masterServer := ⟨⟨true, true, true⟩, true, true, true⟩
  accept i := ⟨decide (i = 1), true⟩
  client := ⟨none, true, ⟨true, true, true⟩, true⟩
  myRank := 0
  malloc := true
  async := true
  mesh _ := ⟨⟨none, true, ⟨true, true, true⟩, true⟩, ⟨true, true⟩, 0, false, false⟩

/-- No worker comes. -/
def noWorker : GroupResults := { oneWorker with accept := fun _ => ⟨false, true⟩ }

end GroupResults

/-- **Descriptors on failure.**  When `server_init` returns an error, everything it opened is
closed exactly if it did not refuse its address; with `client_init` it always is; and with
`lfi_group_create` exactly if no master has given up with workers accepted and no task of the
mesh goes on. -/
theorem descriptors_closed_iff (s : Ledger) :
    (∀ (addr : String) (r : ServerInitResults) (e : ℤ) (t : Ledger),
      serverInit addr r s = (.error e, t) → (NoLeak s t ↔ ¬ r.Refuses addr)) ∧
    (∀ (timeoutMs : ℤ) (isIp : Bool) (r : ClientInitResults) (e : ℤ) (t : Ledger),
      clientInit timeoutMs isIp r s = some (.error e, t) → NoLeak s t) ∧
    ∀ (nHosts : ℕ) (r : GroupResults) (e : ℤ) (t : Ledger),
      r.lfiGroupCreate nHosts s = some (.error e, t) →
        (NoLeak s t ↔ ¬ r.Abandons nHosts ∧ ¬ r.TaskLate nHosts) :=
  ⟨fun _ _ _ _ hr => serverInit_noLeak_iff hr, fun _ _ _ _ _ hr => clientInit_noLeak hr,
    fun _ _ _ _ hr => GroupResults.groupCreate_noLeak_iff hr⟩

/-- Two addresses; after 10 milliseconds neither has answered. -/
def silentAddresses : ClientInitResults where
  getaddrinfo := some
    [⟨⟨true, true, true⟩, [⟨false, 11⟩]⟩, ⟨⟨true, true, true⟩, [⟨false, 5⟩, ⟨false, 12⟩]⟩]
  inetPton := true
  opening := ⟨true, true, true⟩
  connect := true

/-- A port that is taken, two addresses that do not answer, and a group without its workers. -/
theorem descriptors_closed_failures :
    (∃ t, serverInit "" ⟨⟨true, true, true⟩, true, false, true⟩ empty = (.error (-1), t) ∧
      NoLeak empty t) ∧
    (∃ t, clientInit 10 false silentAddresses empty = some (.error (-1), t) ∧ NoLeak empty t) ∧
    ∃ t, GroupResults.noWorker.lfiGroupCreate 3 empty = some (.error (-1), t) ∧
      NoLeak empty t := by
  obtain ⟨hserver, hclient, hgroup⟩ := descriptors_closed_iff empty
  refine ⟨⟨_, rfl, (hserver "" ⟨⟨true, true, true⟩, true, false, true⟩ (-1) _ rfl).2 (by decide)⟩,
    ⟨_, rfl, hclient 10 false silentAddresses (-1) _ rfl⟩,
    ⟨_, rfl, (hgroup 3 GroupResults.noWorker (-1) _ rfl).2 ⟨fun h => ?_, fun h => ?_⟩⟩⟩
  · exact absurd h.2.2.1 (by decide)
  · obtain ⟨-, -, -, rank, hrank, -⟩ := h
    cases hrank

/-- `server_init` for a name that is no address leaves its socket open, and so does the master
with the worker it has accepted. -/
theorem descriptors_leaked :
    (¬ ∀ (s : Ledger) (addr : String) (r : ServerInitResults) (e : ℤ) (t : Ledger),
      serverInit addr r s = (.error e, t) → NoLeak s t) ∧
    ¬ ∀ (s : Ledger) (nHosts : ℕ) (r : GroupResults) (e : ℤ) (t : Ledger),
      r.lfiGroupCreate nHosts s = some (.error e, t) → NoLeak s t := by
  refine ⟨fun h => ?_, fun h => ?_⟩
  · exact absurd (h empty "localhost" ⟨⟨true, true, true⟩, false, true, true⟩ (-1) _ rfl)
      (by decide)
  · exact absurd (h empty 3 GroupResults.oneWorker (-1) _ rfl) (by decide)

end Coll
end Lfi
