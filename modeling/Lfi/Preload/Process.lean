/-
# A process with many preloaded connections

`Lfi.Preload.Socket` is one connection.  In a process its receiver threads serve all of them: each
thread of `thread_eventfd_loop` keeps two receives posted, one on `shm_ep` and one on `peer_ep`,
which take the notifications of any connection of the endpoint, and works at one notification at a
time.  For the socket of a notification it looks in two tables, each under its mutex,

    std::unique_lock queue_lock(ld_preload.m_map_comm_socket_mutex);
    auto it = ld_preload.m_map_comm_socket.find(source);
    ...
    std::unique_lock queue_lock(ld_preload.m_mutex);
    auto it = ld_preload.socket_ids.find(socket);

and both mutexes are elsewhere kept for longer: the first by `connect` and `accept4` until the
other side has greeted, the second by `poll` until it returns.

What each connection sees of a run of the process is a run of that connection (`exec_view`).  So
what holds of one holds of all of them.
-/

import Lfi.Preload.Delivery
import Lfi.Preload.Readiness
import Lfi.Runs.Simulation

namespace Lfi
namespace Preload

open Data Runs

variable {C : Type*} [DecidableEq C]

/-- What a connection has apart from the threads.  `reading` are the calls of `read` and its
like that have found its `lfi_socket`. -/
structure Conn where
  pending : List (ℕ × Message)
  chan : ℕ → List Message
  recvs : ℕ → List Receive
  buffers : List Buffered
  calls : ℕ
  given : Bytes
  returned : Bytes
  eventfd : ℕ
  reading : ℕ

/-- Where a thread is with the notification it works at: before the look in `m_map_comm_socket`,
before the look in `socket_ids`, and after both. -/
inductive Place where
  | map
  | table
  | data
  deriving DecidableEq, Repr

/-- A receiver thread: what came to its two receives, on `shm_ep` and on `peer_ep`, and the
notification that it works at. -/
structure Receiver (C : Type*) where
  inboxes : Bool → Option (C × Message)
  current : Option (C × Handling)
  place : Place

/-- The connections and the threads.  `map` is `m_map_comm_socket_mutex`, which is free, or kept by
a `connect` or `accept4` that had `m_mutex` already or not yet; `polling` are the sockets of the
`poll` that keeps `m_mutex`. -/
structure Process (C : Type*) where
  conns : C → Conn
  receivers : ℕ → Receiver C
  map : Option Bool
  polling : Option (List C)

/-- Nothing has been sent. -/
def processInit : Process C where
  conns := fun _ => ⟨[], fun _ => [], fun _ => [], [], 0, [], [], 0, 0⟩
  receivers := fun _ => ⟨fun _ => none, none, .map⟩
  map := none
  polling := none

inductive ProcessAction (C : Type*) where
  /-- `internal_sendmsg` on the other side of a connection. -/
  | sendmsg (c : C) (iov : List Bytes) (counts : ℕ → ℤ)
  | put (c : C)
  /-- The next notification of `c` meets the receive of the thread `t`. -/
  | deliver (c : C) (t : ℕ)
  /-- `wait_num` of the thread `t` returns one of its two receives, which is posted again. -/
  | take (peer : Bool) (t : ℕ)
  | findSocket (t : ℕ)
  | findLfiSocket (t : ℕ)
  | post (t : ℕ)
  | fill (c : C) (tag : ℕ)
  | append (t : ℕ)
  /-- `read`, `readv`, `recv` or `recvmsg` looks for the `lfi_socket`. -/
  | find (c : C)
  /-- `internal_recvmsg` of one of these calls. -/
  | recvmsg (c : C) (lens : List ℕ)
  /-- `connect` or `accept4` takes `m_map_comm_socket_mutex`, enters its socket, and returns. -/
  | lockMap
  | register
  | unlockMap
  /-- `poll` with the eventfds of these sockets; one of them is readable; its time is up. -/
  | poll (fds : List C)
  | wake
  | expire

/-- What the socket of the connection is with these threads. -/
def Conn.socket (x : Conn) (threads : ℕ → Thread) : Socket :=
  ⟨x.pending, x.chan, x.recvs, threads, x.buffers, x.calls, x.given, x.returned⟩

/-- The connection after a step that leaves its threads alone. -/
def Conn.follow (x : Conn) (s : Socket) : Conn :=
  { x with
    pending := s.pending, chan := s.chan, recvs := s.recvs, buffers := s.buffers
    calls := s.calls, given := s.given, returned := s.returned }

/-- What is in `o` of the connection `c`. -/
def only {α : Type*} (c : C) (o : Option (C × α)) : Option α :=
  o.bind fun x => if x.1 = c then some x.2 else none

/-- What the thread has of the connection `c`, whose endpoint is `peer_ep` or not. -/
def Receiver.thread (r : Receiver C) (peer : Bool) (c : C) : Thread :=
  ⟨only c (r.inboxes peer), only c r.current⟩

/-- The connection `c` on its own; `ep` has the endpoint of each. -/
def Process.view (ep : C → Bool) (s : Process C) (c : C) : Socket :=
  (s.conns c).socket fun t => (s.receivers t).thread (ep c) c

def Process.setConn (s : Process C) (c : C) (x : Conn) : Process C :=
  { s with conns := Function.update s.conns c x }

def Process.setReceiver (s : Process C) (t : ℕ) (r : Receiver C) : Process C :=
  { s with receivers := Function.update s.receivers t r }

/-- One step. -/
def processStep (cfg : Config) (ep : C → Bool) (s : Process C) :
    ProcessAction C → Option (Process C)
  | .sendmsg c iov counts =>
      (step cfg (s.view ep c) (.sendmsg iov counts)).map fun x =>
        s.setConn c ((s.conns c).follow x)
  | .put c =>
      (step cfg (s.view ep c) .put).map fun x => s.setConn c ((s.conns c).follow x)
  | .deliver c t =>
      let x := s.conns c
      let r := s.receivers t
      if t < cfg.threads then
        match x.chan tagRecv, r.inboxes (ep c) with
        | m :: rest, none => some <|
            (s.setConn c { x with chan := Function.update x.chan tagRecv rest }).setReceiver t
              { r with inboxes := Function.update r.inboxes (ep c) (some (c, m)) }
        | _, _ => none
      else none
  | .take peer t =>
      let r := s.receivers t
      match r.inboxes peer, r.current with
      | some (c, m), none => some <| s.setReceiver t
          ⟨Function.update r.inboxes peer none, (begin m).map fun h => (c, h), .map⟩
      | _, _ => none
  | .findSocket t =>
      let r := s.receivers t
      if r.current.isSome ∧ r.place = .map ∧ s.map = none then
        some (s.setReceiver t { r with place := .table })
      else none
  | .findLfiSocket t =>
      let r := s.receivers t
      if r.current.isSome ∧ r.place = .table ∧ s.polling = none then
        some (s.setReceiver t { r with place := .data })
      else none
  | .post t =>
      let r := s.receivers t
      match r.current, r.place with
      | some (c, h), .data =>
          let x := s.conns c
          match h.notes[h.posted]? with
          | none => none
          | some n => some <|
              (s.setConn c { x with
                recvs := Function.update x.recvs n.tag
                  (x.recvs n.tag ++ [⟨t, h.posted, n.size, h.call⟩]) }).setReceiver t
                { r with current := some (c, { h with posted := h.posted + 1 }) }
      | _, _ => none
  | .fill c tag =>
      let x := s.conns c
      match x.chan tag, x.recvs tag with
      | m :: ms, r :: rs => some <|
          (s.setConn c { x with
            chan := Function.update x.chan tag ms
            recvs := Function.update x.recvs tag rs }).setReceiver r.thread
            { s.receivers r.thread with
              current := (s.receivers r.thread).current.map fun y =>
                if y.1 = c then
                  (c, { y.2 with parts := y.2.parts.set r.slot (some (fit r.size m.payload)) })
                else y }
      | _, _ => none
  | .append t =>
      let r := s.receivers t
      match r.current, r.place with
      | some (c, h), .data =>
          let x := s.conns c
          if h.Complete then some <|
            (s.setConn c { x with
              buffers := if h.notes = [] then x.buffers else x.buffers ++ [⟨h.newBuffer, 0⟩]
              eventfd := if h.notes = [] then x.eventfd else eventfdWrite x.eventfd }).setReceiver t
              { r with current := none }
          else none
      | _, _ => none
  | .find c =>
      if s.polling = none then
        some (s.setConn c { s.conns c with reading := (s.conns c).reading + 1 })
      else none
  | .recvmsg c lens =>
      let x := s.conns c
      let out := internalRecvmsg x.buffers lens
      if 0 < x.reading then
        some (s.setConn c { x with
          buffers := out.2
          returned := x.returned ++ out.1
          eventfd := if out.2.length < x.buffers.length then eventfdRead x.eventfd else x.eventfd
          reading := x.reading - 1 })
      else none
  | .lockMap => if s.map = none then some { s with map := some false } else none
  | .register =>
      if s.map = some false ∧ s.polling = none then some { s with map := some true } else none
  | .unlockMap => if s.map = some true then some { s with map := none } else none
  | .poll fds => if s.polling = none then some { s with polling := some fds } else none
  | .wake =>
      match s.polling with
      | some fds =>
          if fds.any fun c => pollIn (s.conns c).eventfd then some { s with polling := none }
          else none
      | none => none
  | .expire => if s.polling.isSome then some { s with polling := none } else none

section Updates

variable {ep : C → Bool} {s : Process C} {c d : C} {t : ℕ}

@[simp] theorem Process.setConn_conns (s : Process C) (c d : C) (x : Conn) :
    (s.setConn c x).conns d = if d = c then x else s.conns d := Function.update_apply ..

@[simp] theorem Process.setConn_receivers (s : Process C) (c : C) (x : Conn) :
    (s.setConn c x).receivers = s.receivers := rfl

@[simp] theorem Process.setConn_map (s : Process C) (c : C) (x : Conn) :
    (s.setConn c x).map = s.map := rfl

@[simp] theorem Process.setConn_polling (s : Process C) (c : C) (x : Conn) :
    (s.setConn c x).polling = s.polling := rfl

section Receivers

omit [DecidableEq C]

@[simp] theorem Process.setReceiver_conns (s : Process C) (t : ℕ) (r : Receiver C) :
    (s.setReceiver t r).conns = s.conns := rfl

@[simp] theorem Process.setReceiver_receivers (s : Process C) (t u : ℕ) (r : Receiver C) :
    (s.setReceiver t r).receivers u = if u = t then r else s.receivers u :=
  Function.update_apply ..

@[simp] theorem Process.setReceiver_map (s : Process C) (t : ℕ) (r : Receiver C) :
    (s.setReceiver t r).map = s.map := rfl

@[simp] theorem Process.setReceiver_polling (s : Process C) (t : ℕ) (r : Receiver C) :
    (s.setReceiver t r).polling = s.polling := rfl

end Receivers

@[simp] theorem only_none {α : Type*} (c : C) : only c (none : Option (C × α)) = none := rfl

@[simp] theorem only_some {α : Type*} (c : C) (x : C × α) :
    only c (some x) = if x.1 = c then some x.2 else none := rfl

@[simp] theorem Conn.socket_eq_iff {x y : Conn} {threads threads' : ℕ → Thread} :
    x.socket threads = y.socket threads' ↔ x.pending = y.pending ∧ x.chan = y.chan ∧
      x.recvs = y.recvs ∧ threads = threads' ∧ x.buffers = y.buffers ∧ x.calls = y.calls ∧
      x.given = y.given ∧ x.returned = y.returned := by
  simp [Conn.socket, Socket.mk.injEq]

end Updates

section Moves

variable {cfg : Config} {ep : C → Bool} {s s' : Process C}

/-- What a step does. -/
inductive ProcessMoves (cfg : Config) (ep : C → Bool) (s : Process C) :
    ProcessAction C → Process C → Prop where
  | sendmsg {c iov counts x} (hx : step cfg (s.view ep c) (.sendmsg iov counts) = some x) :
      ProcessMoves cfg ep s (.sendmsg c iov counts) (s.setConn c ((s.conns c).follow x))
  | put {c x} (hx : step cfg (s.view ep c) .put = some x) :
      ProcessMoves cfg ep s (.put c) (s.setConn c ((s.conns c).follow x))
  | deliver {c t m rest} (ht : t < cfg.threads) (hchan : (s.conns c).chan tagRecv = m :: rest)
      (hin : (s.receivers t).inboxes (ep c) = none) :
      ProcessMoves cfg ep s (.deliver c t)
        ((s.setConn c { s.conns c with
            chan := Function.update (s.conns c).chan tagRecv rest }).setReceiver t
          { s.receivers t with
            inboxes := Function.update (s.receivers t).inboxes (ep c) (some (c, m)) })
  | take {peer t c m} (hin : (s.receivers t).inboxes peer = some (c, m))
      (hfree : (s.receivers t).current = none) :
      ProcessMoves cfg ep s (.take peer t) (s.setReceiver t
        ⟨Function.update (s.receivers t).inboxes peer none, (begin m).map fun h => (c, h), .map⟩)
  | findSocket {t} (hbusy : (s.receivers t).current.isSome) (hplace : (s.receivers t).place = .map)
      (hmap : s.map = none) :
      ProcessMoves cfg ep s (.findSocket t)
        (s.setReceiver t { s.receivers t with place := .table })
  | findLfiSocket {t} (hbusy : (s.receivers t).current.isSome)
      (hplace : (s.receivers t).place = .table) (hfree : s.polling = none) :
      ProcessMoves cfg ep s (.findLfiSocket t)
        (s.setReceiver t { s.receivers t with place := .data })
  | post {t c h n} (hcur : (s.receivers t).current = some (c, h))
      (hplace : (s.receivers t).place = .data) (hn : h.notes[h.posted]? = some n) :
      ProcessMoves cfg ep s (.post t)
        ((s.setConn c { s.conns c with
            recvs := Function.update (s.conns c).recvs n.tag
              ((s.conns c).recvs n.tag ++ [⟨t, h.posted, n.size, h.call⟩]) }).setReceiver t
          { s.receivers t with current := some (c, { h with posted := h.posted + 1 }) })
  | fill {c tag m ms r rs} (hchan : (s.conns c).chan tag = m :: ms)
      (hrecvs : (s.conns c).recvs tag = r :: rs) :
      ProcessMoves cfg ep s (.fill c tag)
        ((s.setConn c { s.conns c with
            chan := Function.update (s.conns c).chan tag ms
            recvs := Function.update (s.conns c).recvs tag rs }).setReceiver r.thread
          { s.receivers r.thread with
            current := (s.receivers r.thread).current.map fun y =>
              if y.1 = c then
                (c, { y.2 with parts := y.2.parts.set r.slot (some (fit r.size m.payload)) })
              else y })
  | append {t c h} (hcur : (s.receivers t).current = some (c, h))
      (hplace : (s.receivers t).place = .data) (hall : h.Complete) :
      ProcessMoves cfg ep s (.append t)
        ((s.setConn c { s.conns c with
            buffers := if h.notes = [] then (s.conns c).buffers
              else (s.conns c).buffers ++ [⟨h.newBuffer, 0⟩]
            eventfd := if h.notes = [] then (s.conns c).eventfd
              else eventfdWrite (s.conns c).eventfd }).setReceiver t
          { s.receivers t with current := none })
  | find {c} (hfree : s.polling = none) :
      ProcessMoves cfg ep s (.find c)
        (s.setConn c { s.conns c with reading := (s.conns c).reading + 1 })
  | recvmsg {c lens} (hreading : 0 < (s.conns c).reading) :
      ProcessMoves cfg ep s (.recvmsg c lens)
        (s.setConn c { s.conns c with
          buffers := (internalRecvmsg (s.conns c).buffers lens).2
          returned := (s.conns c).returned ++ (internalRecvmsg (s.conns c).buffers lens).1
          eventfd :=
            if (internalRecvmsg (s.conns c).buffers lens).2.length < (s.conns c).buffers.length then
              eventfdRead (s.conns c).eventfd
            else (s.conns c).eventfd
          reading := (s.conns c).reading - 1 })
  | lockMap (hmap : s.map = none) : ProcessMoves cfg ep s .lockMap { s with map := some false }
  | register (hmap : s.map = some false) (hfree : s.polling = none) :
      ProcessMoves cfg ep s .register { s with map := some true }
  | unlockMap (hmap : s.map = some true) :
      ProcessMoves cfg ep s .unlockMap { s with map := none }
  | poll {fds} (hfree : s.polling = none) :
      ProcessMoves cfg ep s (.poll fds) { s with polling := some fds }
  | wake {fds c} (hpoll : s.polling = some fds) (hc : c ∈ fds)
      (hread : pollIn (s.conns c).eventfd = true) :
      ProcessMoves cfg ep s .wake { s with polling := none }
  | expire (hpoll : s.polling.isSome) :
      ProcessMoves cfg ep s .expire { s with polling := none }

/-- **What an action of the process can do.** -/
theorem processStep_moves {a : ProcessAction C} (h : processStep cfg ep s a = some s') :
    ProcessMoves cfg ep s a s' := by
  cases a with
  | sendmsg d iov counts =>
      obtain ⟨x, hx, rfl⟩ := Option.map_eq_some_iff.1 h
      exact .sendmsg hx
  | put d =>
      obtain ⟨x, hx, rfl⟩ := Option.map_eq_some_iff.1 h
      exact .put hx
  | deliver d t =>
      obtain ⟨ht, h⟩ := Option.ite_none_right_eq_some.1 h
      split at h
      case h_1 hchan hin =>
        obtain rfl := Option.some.inj h
        exact .deliver ht hchan hin
      case h_2 => cases h
  | take peer t =>
      simp only [processStep] at h
      split at h
      case h_1 hin hfree =>
        obtain rfl := Option.some.inj h
        exact .take hin hfree
      case h_2 => cases h
  | findSocket t =>
      obtain ⟨⟨hbusy, hplace, hmap⟩, h⟩ := Option.ite_none_right_eq_some.1 h
      obtain rfl := Option.some.inj h
      exact .findSocket hbusy hplace hmap
  | findLfiSocket t =>
      obtain ⟨⟨hbusy, hplace, hfree⟩, h⟩ := Option.ite_none_right_eq_some.1 h
      obtain rfl := Option.some.inj h
      exact .findLfiSocket hbusy hplace hfree
  | post t =>
      simp only [processStep] at h
      split at h
      case h_1 hcur hplace =>
        split at h
        case h_1 => cases h
        case h_2 hn =>
          obtain rfl := Option.some.inj h
          exact .post hcur hplace hn
      case h_2 => cases h
  | fill d tag =>
      simp only [processStep] at h
      split at h
      case h_1 hchan hrecvs =>
        obtain rfl := Option.some.inj h
        exact .fill hchan hrecvs
      case h_2 => cases h
  | append t =>
      simp only [processStep] at h
      split at h
      case h_1 hcur hplace =>
        obtain ⟨hall, h⟩ := Option.ite_none_right_eq_some.1 h
        obtain rfl := Option.some.inj h
        exact .append hcur hplace hall
      case h_2 => cases h
  | find d =>
      obtain ⟨hfree, h⟩ := Option.ite_none_right_eq_some.1 h
      obtain rfl := Option.some.inj h
      exact .find hfree
  | recvmsg d lens =>
      obtain ⟨hreading, h⟩ := Option.ite_none_right_eq_some.1 h
      obtain rfl := Option.some.inj h
      exact .recvmsg hreading
  | lockMap =>
      obtain ⟨hmap, h⟩ := Option.ite_none_right_eq_some.1 h
      obtain rfl := Option.some.inj h
      exact .lockMap hmap
  | register =>
      obtain ⟨⟨hmap, hfree⟩, h⟩ := Option.ite_none_right_eq_some.1 h
      obtain rfl := Option.some.inj h
      exact .register hmap hfree
  | unlockMap =>
      obtain ⟨hmap, h⟩ := Option.ite_none_right_eq_some.1 h
      obtain rfl := Option.some.inj h
      exact .unlockMap hmap
  | poll fds =>
      obtain ⟨hfree, h⟩ := Option.ite_none_right_eq_some.1 h
      obtain rfl := Option.some.inj h
      exact .poll hfree
  | wake =>
      simp only [processStep] at h
      split at h
      case h_1 fds hpoll =>
        obtain ⟨hany, h⟩ := Option.ite_none_right_eq_some.1 h
        obtain rfl := Option.some.inj h
        obtain ⟨d, hd, hread⟩ := List.any_eq_true.1 hany
        exact .wake hpoll hd hread
      case h_2 => cases h
  | expire =>
      obtain ⟨hpoll, h⟩ := Option.ite_none_right_eq_some.1 h
      obtain rfl := Option.some.inj h
      exact .expire hpoll

end Moves

section View

variable {cfg : Config} {ep : C → Bool} {s s' : Process C} {c d : C} {t : ℕ}

/-- The threads as the connection sees them. -/
def Process.threads (ep : C → Bool) (s : Process C) (c : C) : ℕ → Thread :=
  fun t => (s.receivers t).thread (ep c) c

/-- What a connection sees of the process. -/
theorem Process.view_eq (ep : C → Bool) (s : Process C) (c : C) :
    s.view ep c = (s.conns c).socket (s.threads ep c) := rfl

@[simp] theorem Process.threads_setConn (x : Conn) :
    (s.setConn d x).threads ep c = s.threads ep c := rfl

@[simp] theorem Process.threads_setReceiver (r : Receiver C) :
    (s.setReceiver t r).threads ep c =
      Function.update (s.threads ep c) t (r.thread (ep c) c) := by
  funext u
  by_cases hu : u = t
  · simp [Process.threads, hu]
  · simp [Process.threads, hu]

theorem Conn.follow_socket (x : Conn) (y : Socket) : (x.follow y).socket y.threads = y := rfl

/-- The step of the connection `c` that a step of the process is, if it is one. -/
def ProcessAction.of (s : Process C) (c : C) : ProcessAction C → Option Action
  | .sendmsg d iov counts => if d = c then some (.sendmsg iov counts) else none
  | .put d => if d = c then some .put else none
  | .deliver d t => if d = c then some (.deliver t) else none
  | .take peer t => (only c ((s.receivers t).inboxes peer)).map fun _ => .take t
  | .post t => (only c (s.receivers t).current).map fun _ => .post t
  | .fill d tag => if d = c then some (.fill tag) else none
  | .append t => (only c (s.receivers t).current).map fun _ => .append t
  | .recvmsg d lens => if d = c then some (.recvmsg lens) else none
  | .findSocket _ | .findLfiSocket _ | .find _ | .lockMap | .register | .unlockMap | .poll _
  | .wake | .expire => none

/-- What is received is received on the endpoint of its connection. -/
def Slots (ep : C → Bool) (s : Process C) : Prop :=
  ∀ t peer c m, (s.receivers t).inboxes peer = some (c, m) → ep c = peer

omit [DecidableEq C] in
/-- Nothing is received at first. -/
theorem slots_init : Slots ep (processInit : Process C) := fun _ _ _ _ h => by cases h

omit [DecidableEq C] in
/-- One thread changes. -/
theorem Slots.setReceiver (hs : Slots ep s) {r : Receiver C}
    (hr : ∀ peer c m, r.inboxes peer = some (c, m) →
      (s.receivers t).inboxes peer = some (c, m) ∨ ep c = peer) : Slots ep (s.setReceiver t r) := by
  intro u peer d m h
  rw [Process.setReceiver_receivers] at h
  split at h
  case isTrue hu =>
    rcases hr peer d m h with h | h
    · exact hs t peer d m h
    · exact h
  case isFalse => exact hs u peer d m h

/-- Nor does an action receive it on the other endpoint. -/
theorem Slots.step (hs : Slots ep s) {a : ProcessAction C}
    (h : processStep cfg ep s a = some s') : Slots ep s' := by
  cases processStep_moves h with
  | sendmsg | put | find | recvmsg | lockMap | register | unlockMap | poll | wake | expire =>
      exact hs
  | deliver =>
      refine Slots.setReceiver hs fun peer c' m' hin => ?_
      simp only [Function.update_apply] at hin
      split at hin
      case isTrue hpeer =>
        obtain ⟨rfl, -⟩ := Prod.mk.inj (Option.some.inj hin)
        exact .inr hpeer.symm
      case isFalse => exact .inl hin
  | take =>
      refine Slots.setReceiver hs fun peer' c' m' hin => .inl ?_
      simp only [Function.update_apply] at hin
      split at hin
      case isTrue => cases hin
      case isFalse => exact hin
  | findSocket | findLfiSocket => exact Slots.setReceiver hs fun _ _ _ => .inl
  | post | fill | append => exact Slots.setReceiver (s := s.setConn _ _) hs fun _ _ _ => .inl

/-- A send changes nothing for the receivers. -/
theorem step_threads_sendmsg {x y : Socket} {iov : List Bytes} {counts : ℕ → ℤ}
    (h : step cfg x (.sendmsg iov counts) = some y) : y.threads = x.threads := by
  obtain ⟨-, h⟩ := Option.ite_none_right_eq_some.1 h
  obtain rfl := Option.some.inj h
  rw [internalSendmsg]
  split <;> rfl

theorem step_threads_put {x y : Socket} (h : step cfg x .put = some y) :
    y.threads = x.threads := by
  rw [step] at h
  split at h
  case h_1 => cases h
  case h_2 => exact Option.some.inj h ▸ rfl

/-- A change of a connection and of a thread, for that connection. -/
theorem view_update_self {x : Conn} {r : Receiver C} (th : Thread)
    (hth : r.thread (ep c) c = th) : ((s.setConn c x).setReceiver t r).view ep c =
      x.socket (Function.update (s.threads ep c) t th) := by
  rw [Process.view_eq, Process.threads_setReceiver, Process.threads_setConn, hth]
  simp

/-- The same for the others, of which the thread keeps what it has. -/
theorem view_update_of_ne {x : Conn} {r : Receiver C} (hd : d ≠ c)
    (hth : r.thread (ep c) c = s.threads ep c t) :
    ((s.setConn d x).setReceiver t r).view ep c = s.view ep c := by
  rw [Process.view_eq, Process.threads_setReceiver, Process.threads_setConn, hth,
    Function.update_eq_self]
  simp [Process.view_eq, hd.symm]

/-- A receiver that is on other connections is not seen. -/
theorem view_setReceiver {r : Receiver C} (hth : r.thread (ep c) c = s.threads ep c t) :
    (s.setReceiver t r).view ep c = s.view ep c := by
  rw [Process.view_eq, Process.threads_setReceiver, hth, Function.update_eq_self]
  rfl

/-- What the connection `c` sees of an action is its own step, or nothing. -/
def Viewed (cfg : Config) (ep : C → Bool) (s : Process C) (a : ProcessAction C) (s' : Process C)
    (c : C) : Prop :=
  match a.of s c with
  | some b => step cfg (s.view ep c) b = some (s'.view ep c)
  | none => s'.view ep c = s.view ep c

theorem Viewed.some_of {a : ProcessAction C} {b : Action} (hof : a.of s c = some b)
    (h : step cfg (s.view ep c) b = some (s'.view ep c)) : Viewed cfg ep s a s' c := by
  rw [Viewed, hof]
  exact h

theorem Viewed.none_of {a : ProcessAction C} (hof : a.of s c = none)
    (h : s'.view ep c = s.view ep c) : Viewed cfg ep s a s' c := by
  rw [Viewed, hof]
  exact h

theorem Viewed.view_some {a : ProcessAction C} {b : Action} (h : Viewed cfg ep s a s' c)
    (hof : a.of s c = some b) : step cfg (s.view ep c) b = some (s'.view ep c) := by
  rw [Viewed, hof] at h
  exact h

theorem Viewed.view_none {a : ProcessAction C} (h : Viewed cfg ep s a s' c)
    (hof : a.of s c = none) : s'.view ep c = s.view ep c := by
  rw [Viewed, hof] at h
  exact h

/-- A connection follows its own step, in which the receivers have no part. -/
theorem view_follow {b : Action} {x : Socket} (hx : step cfg (s.view ep c) b = some x)
    (hthreads : x.threads = s.threads ep c) :
    step cfg (s.view ep c) b = some ((s.setConn c ((s.conns c).follow x)).view ep c) := by
  rw [hx, Process.view_eq _ (s.setConn _ _), Process.threads_setConn, Process.setConn_conns,
    if_pos rfl, ← hthreads, Conn.follow_socket]

/-- What changes a connection is not seen by the others. -/
theorem view_setConn_of_ne {x : Conn} (hd : d ≠ c) : (s.setConn d x).view ep c = s.view ep c := by
  simp [Process.view_eq, hd.symm]

/-- A notification comes in for a thread. -/
theorem viewed_deliver {m : Message} {rest : List Message} (ht : t < cfg.threads)
    (hchan : (s.conns d).chan tagRecv = m :: rest)
    (hin : (s.receivers t).inboxes (ep d) = none) (c : C) :
    Viewed cfg ep s (.deliver d t) ((s.setConn d { s.conns d with
        chan := Function.update (s.conns d).chan tagRecv rest }).setReceiver t
      { s.receivers t with
        inboxes := Function.update (s.receivers t).inboxes (ep d) (some (d, m)) }) c := by
  by_cases hd : d = c
  · subst hd
    have hinbox : ((s.view ep d).threads t).inbox = none := congrArg (only d) hin
    have hchan' : (s.view ep d).chan tagRecv = m :: rest := hchan
    refine .some_of (if_pos rfl) ?_
    rw [view_update_self { s.threads ep d t with inbox := some m }
      (by simp [Receiver.thread, Process.threads])]
    simp only [step, ht, if_true, hchan', hinbox]
    rfl
  · refine .none_of (if_neg hd) (view_update_of_ne hd ?_)
    by_cases hpeer : ep c = ep d
    · simp [Receiver.thread, Process.threads, hpeer, hin, hd]
    · simp [Receiver.thread, Process.threads, hpeer]

/-- The thread takes it in hand. -/
theorem viewed_take (hs : Slots ep s) {peer : Bool} {m : Message}
    (hin : (s.receivers t).inboxes peer = some (d, m)) (hfree : (s.receivers t).current = none)
    (c : C) : Viewed cfg ep s (.take peer t) (s.setReceiver t
      ⟨Function.update (s.receivers t).inboxes peer none, (begin m).map fun h => (d, h), .map⟩)
      c := by
  have hpeer := hs t peer d m hin
  have hof : (ProcessAction.take peer t).of s c =
      (if d = c then some m else none).map fun _ => .take t := by
    rw [ProcessAction.of, hin, only_some]
  by_cases hd : d = c
  · subst hd
    subst hpeer
    have hinbox : ((s.view ep d).threads t).inbox = some m :=
      (congrArg (only d) hin).trans (if_pos rfl)
    have hcur : ((s.view ep d).threads t).current = none := congrArg (only d) hfree
    have hth : (⟨Function.update (s.receivers t).inboxes (ep d) none,
        (begin m).map fun h => (d, h), .map⟩ : Receiver C).thread (ep d) d = ⟨none, begin m⟩ := by
      cases hbegin : begin m <;> simp [Receiver.thread]
    refine .some_of (hof.trans (by rw [if_pos rfl]; rfl)) ?_
    rw [Process.view_eq _ (s.setReceiver _ _), Process.threads_setReceiver, hth]
    simp only [step, hinbox, hcur]
    rfl
  · refine .none_of (hof.trans (by rw [if_neg hd]; rfl)) (view_setReceiver ?_)
    have hcurrent : only c ((begin m).map fun h => (d, h)) = none := by
      cases hbegin : begin m <;> simp [hd]
    by_cases hc : ep c = peer
    · simp [Receiver.thread, Process.threads, hc, hin, hfree, hd, hcurrent]
    · simp [Receiver.thread, Process.threads, hc, hfree, hcurrent]

/-- A receive is posted on the connection that the thread has in hand. -/
theorem viewed_post {h : Handling} {n : NotiBuff}
    (hcur : (s.receivers t).current = some (d, h)) (hn : h.notes[h.posted]? = some n) (c : C) :
    Viewed cfg ep s (.post t) ((s.setConn d { s.conns d with
        recvs := Function.update (s.conns d).recvs n.tag
          ((s.conns d).recvs n.tag ++ [⟨t, h.posted, n.size, h.call⟩]) }).setReceiver t
      { s.receivers t with current := some (d, { h with posted := h.posted + 1 }) }) c := by
  have hof : (ProcessAction.post t).of s c =
      (if d = c then some h else none).map fun _ => .post t := by
    rw [ProcessAction.of, hcur, only_some]
  by_cases hd : d = c
  · subst hd
    have hcurrent : ((s.view ep d).threads t).current = some h :=
      (congrArg (only d) hcur).trans (if_pos rfl)
    refine .some_of (hof.trans (by rw [if_pos rfl]; rfl)) ?_
    rw [view_update_self { s.threads ep d t with
      current := some { h with posted := h.posted + 1 } }
      (by simp [Receiver.thread, Process.threads])]
    simp only [step, hcurrent, hn]
    rfl
  · refine .none_of (hof.trans (by rw [if_neg hd]; rfl)) (view_update_of_ne hd ?_)
    simp [Receiver.thread, Process.threads, hcur, hd]

/-- A data message comes in for a thread that has the connection in hand. -/
theorem viewed_fill {tag : ℕ} {m : Message} {ms : List Message} {r : Receive} {rs : List Receive}
    (hchan : (s.conns d).chan tag = m :: ms) (hrecvs : (s.conns d).recvs tag = r :: rs) (c : C) :
    Viewed cfg ep s (.fill d tag) ((s.setConn d { s.conns d with
        chan := Function.update (s.conns d).chan tag ms
        recvs := Function.update (s.conns d).recvs tag rs }).setReceiver r.thread
      { s.receivers r.thread with
        current := (s.receivers r.thread).current.map fun y =>
          if y.1 = d then
            (d, { y.2 with parts := y.2.parts.set r.slot (some (fit r.size m.payload)) })
          else y }) c := by
  by_cases hd : d = c
  · subst hd
    have hchan' : (s.view ep d).chan tag = m :: ms := hchan
    have hrecvs' : (s.view ep d).recvs tag = r :: rs := hrecvs
    refine .some_of (if_pos rfl) ?_
    rw [view_update_self (receivePart (s.threads ep d r.thread) r m) ?_]
    · simp only [step, hchan', hrecvs']
      rfl
    · simp only [Receiver.thread, Process.threads, receivePart]
      cases hcur : (s.receivers r.thread).current with
      | none => rfl
      | some y => by_cases hy : y.1 = d <;> simp [hy]
  · refine .none_of (if_neg hd) (view_update_of_ne hd ?_)
    simp only [Receiver.thread, Process.threads]
    cases hcur : (s.receivers r.thread).current with
    | none => rfl
    | some y =>
        by_cases hy : y.1 = d
        · simp [hy, hd]
        · simp [hy]

/-- The thread is through with the call that it has in hand. -/
theorem viewed_append {h : Handling} (hcur : (s.receivers t).current = some (d, h))
    (hall : h.Complete) (c : C) :
    Viewed cfg ep s (.append t) ((s.setConn d { s.conns d with
        buffers := if h.notes = [] then (s.conns d).buffers
          else (s.conns d).buffers ++ [⟨h.newBuffer, 0⟩]
        eventfd := if h.notes = [] then (s.conns d).eventfd
          else eventfdWrite (s.conns d).eventfd }).setReceiver t
      { s.receivers t with current := none }) c := by
  have hof : (ProcessAction.append t).of s c =
      (if d = c then some h else none).map fun _ => .append t := by
    rw [ProcessAction.of, hcur, only_some]
  by_cases hd : d = c
  · subst hd
    have hcurrent : ((s.view ep d).threads t).current = some h :=
      (congrArg (only d) hcur).trans (if_pos rfl)
    refine .some_of (hof.trans (by rw [if_pos rfl]; rfl)) ?_
    rw [view_update_self { s.threads ep d t with current := none }
      (by simp [Receiver.thread, Process.threads])]
    simp only [step, hcurrent, hall, if_true]
    rfl
  · refine .none_of (hof.trans (by rw [if_neg hd]; rfl)) (view_update_of_ne hd ?_)
    simp [Receiver.thread, Process.threads, hcur, hd]

/-- **What the connection `c` sees of a step.** -/
theorem view_step (hs : Slots ep s) {a : ProcessAction C}
    (h : processStep cfg ep s a = some s') (c : C) : Viewed cfg ep s a s' c := by
  cases processStep_moves h with
  | @sendmsg d iov counts x hx =>
      by_cases hd : d = c
      · subst hd
        exact .some_of (if_pos rfl) (view_follow hx (step_threads_sendmsg hx))
      · exact .none_of (if_neg hd) (view_setConn_of_ne hd)
  | @put d x hx =>
      by_cases hd : d = c
      · subst hd
        exact .some_of (if_pos rfl) (view_follow hx (step_threads_put hx))
      · exact .none_of (if_neg hd) (view_setConn_of_ne hd)
  | deliver ht hchan hin => exact viewed_deliver ht hchan hin c
  | take hin hfree => exact viewed_take hs hin hfree c
  | findSocket | findLfiSocket => exact .none_of rfl (view_setReceiver rfl)
  | post hcur hplace hn => exact viewed_post hcur hn c
  | fill hchan hrecvs => exact viewed_fill hchan hrecvs c
  | append hcur hplace hall => exact viewed_append hcur hall c
  | @find d hfree =>
      refine .none_of rfl ?_
      by_cases hd : d = c
      · subst hd
        simp [Process.view_eq, Conn.socket]
      · exact view_setConn_of_ne hd
  | @recvmsg d lens hreading =>
      by_cases hd : d = c
      · subst hd
        refine .some_of (if_pos rfl) ?_
        simp only [step, Process.view_eq, Process.setConn_conns, if_true, Process.threads_setConn]
        rfl
      · exact .none_of (if_neg hd) (view_setConn_of_ne hd)
  | lockMap | register | unlockMap | poll | wake | expire => exact .none_of rfl rfl

/-- The step that `c` sees, if it sees one, meets `G`. -/
def Sees (ep : C → Bool) (G : Socket → Action → Prop) (c : C) (s : Process C)
    (a : ProcessAction C) : Prop :=
  ∀ b ∈ a.of s c, G (s.view ep c) b

instance (ep : C → Bool) (G : Socket → Action → Prop) [∀ x, DecidablePred (G x)] (c : C)
    (s : Process C) : DecidablePred (Sees ep G c s) := fun a =>
  decidable_of_iff (∀ b ∈ (a.of s c).toList, G (s.view ep c) b) (by simp [Sees])

/-- **What a connection sees of a run is a run of the connection**, whatever the others do. -/
theorem exec_view {as : List (ProcessAction C)}
    (h : exec (processStep cfg ep) processInit as = some s) (G : Socket → Action → Prop) (c : C) :
    ∃ bs, exec (step cfg) init bs = some (s.view ep c) ∧
      (Meets (processStep cfg ep) (Sees ep G c) processInit as ↔ Meets (step cfg) G init bs) := by
  have hone : ∀ s t a s', (Slots ep s ∧ t = s.view ep c) → processStep cfg ep s a = some s' →
      ∃ bs t', exec (step cfg) t bs = some t' ∧ (Slots ep s' ∧ t' = s'.view ep c) ∧
        (Sees ep G c s a ↔ Meets (step cfg) G t bs) := by
    rintro s _ a s' ⟨hs, rfl⟩ hstep
    have hviewed := view_step hs hstep c
    cases hof : a.of s c with
    | none =>
        have hview := hviewed.view_none hof
        refine ⟨[], _, rfl, ⟨hs.step hstep, hview.symm⟩, iff_of_true (fun b hb => ?_) trivial⟩
        rw [hof] at hb
        cases hb
    | some b =>
        have hview := hviewed.view_some hof
        refine ⟨[b], s'.view ep c, ?_, ⟨hs.step hstep, rfl⟩, ?_⟩
        · rw [exec_cons, hview]
          rfl
        · simp [Sees, hof, Meets]
  obtain ⟨bs, _, hbs, ⟨-, rfl⟩, hguard⟩ := exec_followed hone ⟨slots_init, rfl⟩ h
  exact ⟨bs, hbs, hguard⟩

end View

end Preload
end Lfi
