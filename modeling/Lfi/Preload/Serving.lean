/-
# What a process does with what arrives

With one receiver thread, which is the default, everything that is sent to a process gets into the
`buffers` of its connections, unless the thread is stopped at a mutex (`process_delivers`).  It
stops at `m_mutex` for as long as a `poll` of the application sleeps, which holds it:

    std::unique_lock lock(preload.m_mutex);
    ...
    auto ret = PROXY(poll)(fds, nfds, timeout);

So a notification that comes while a `poll` sleeps does not wake it.  A `poll` without a timeout
returns exactly if one of its sockets is readable, or the thread is past the tables with a
notification for one of them (`poll_returns_iff`).  `epoll_wait` holds no mutex.

All this is about calls of `internal_sendmsg` whose notification says what they send: at most 1024
messages in a call, each shorter than `2^32` bytes (`Small`, which the step `sendmsg` asks for).
Where there is one thread, none of the messages has the tag of the notifications (`SendsApart`),
which a count of messages that has wrapped around can give it (`Lfi.Preload.Counter`).
-/

import Lfi.Preload.Process

namespace Lfi
namespace Preload

open Data Runs

variable {C : Type*} [DecidableEq C] {cfg : Config} {ep : C → Bool} {s s' : Process C} {c d : C}

/-- The bytes of every connection come out in order, when its calls are `Small` and the steps of the
connection are careful, whatever the other connections and the application do. -/
theorem process_in_order {as : List (ProcessAction C)}
    (h : exec (processStep cfg ep) processInit as = some s) (c : C)
    (hG : Meets (processStep cfg ep) (Sees ep (Careful cfg) c) processInit as) :
    (s.conns c).returned <+: (s.conns c).given := by
  obtain ⟨bs, hbs, hguard⟩ := exec_view h (Careful cfg) c
  exact (byte_order cfg (hguard.1 hG)).last hbs

/-- One thread has a notification of each of two connections, and works at one after the other. -/
def shared : List (ProcessAction Bool) :=
  [.sendmsg true [[1]] fun _ => 0, .put true, .sendmsg false [[2]] fun _ => 1, .put false,
    .deliver false 0, .deliver true 0, .take true 0, .findSocket 0, .findLfiSocket 0, .post 0,
    .fill true (tagOf 0), .append 0, .take false 0, .findSocket 0, .findLfiSocket 0, .post 0,
    .fill false (tagOf 1), .append 0, .find false, .recvmsg false [1], .find true,
    .recvmsg true [1]]

theorem process_in_order_shared :
    ∃ s, exec (processStep ⟨2, 65536⟩ id) processInit shared = some s ∧
      (s.conns true).returned <+: (s.conns true).given := by
  have hrun := (Option.some_get (x := exec (processStep ⟨2, 65536⟩ id) processInit shared)
    (by decide +kernel)).symm
  exact ⟨_, hrun, process_in_order hrun true (by decide +kernel)⟩

section Served

/-- No data message bears the tag of the notifications. -/
def SendsApart (cfg : Config) (_ : Process C) : ProcessAction C → Prop
  | .sendmsg _ iov counts => ∀ i < (messages cfg.buffered iov).length, tagOf (counts i) ≠ tagRecv
  | _ => True

instance (s : Process C) : DecidablePred (SendsApart cfg s)
  | .sendmsg _ iov counts => inferInstanceAs (Decidable (∀ i < (messages cfg.buffered iov).length,
      tagOf (counts i) ≠ tagRecv))
  | .put _ | .deliver _ _ | .take _ _ | .findSocket _ | .findLfiSocket _ | .post _ | .fill _ _
  | .append _ | .find _ | .recvmsg _ _ | .lockMap | .register | .unlockMap | .poll _ | .wake
  | .expire => .isTrue trivial

/-- Every connection is in order. -/
structure Served (cfg : Config) (ep : C → Bool) (s : Process C) : Prop where
  slots : Slots ep s
  inv : ∀ c, ∃ g, Inv cfg g (s.view ep c)
  awaited : ∀ c, Awaited (s.view ep c)

theorem served_init : Served cfg ep (processInit : Process C) where
  slots := slots_init
  inv := fun _ => ⟨_, inv_init cfg⟩
  awaited := fun _ => awaited_init

theorem SendsApart.of {a : ProcessAction C} (h : SendsApart cfg s a) {b : Action}
    (hb : a.of s c = some b) : TagsApart cfg (s.view ep c) b := by
  cases a with
  | sendmsg d iov counts =>
      obtain ⟨-, hb⟩ := Option.ite_none_right_eq_some.1 hb
      obtain rfl := Option.some.inj hb
      exact h
  | put | deliver | fill | recvmsg =>
      obtain ⟨-, hb⟩ := Option.ite_none_right_eq_some.1 hb
      obtain rfl := Option.some.inj hb
      exact trivial
  | take | post | append =>
      obtain ⟨_, -, rfl⟩ := Option.map_eq_some_iff.1 hb
      exact trivial
  | _ => cases hb

theorem Served.step (hs : Served cfg ep s) (hT : cfg.threads ≤ 1) {a : ProcessAction C}
    (hG : SendsApart cfg s a) (h : processStep cfg ep s a = some s') : Served cfg ep s' := by
  refine ⟨hs.slots.step h, fun c => ?_, fun c => ?_⟩ <;> have hview := view_step hs.slots h c <;>
    cases hof : a.of s c
  case refine_1.none => exact hview.view_none hof ▸ hs.inv c
  case refine_1.some b =>
    obtain ⟨g, inv⟩ := hs.inv c
    exact inv.step (inv.careful_of_one hT (hG.of hof)) (hview.view_some hof)
  case refine_2.none => exact hview.view_none hof ▸ hs.awaited c
  case refine_2.some b => exact (hs.awaited c).step (hview.view_some hof)

theorem served (hT : cfg.threads ≤ 1) {as : List (ProcessAction C)}
    (hG : Meets (processStep cfg ep) (SendsApart cfg) processInit as)
    (h : exec (processStep cfg ep) processInit as = some s) : Served cfg ep s :=
  (always_of_meets (fun _ _ _ hs hG h => hs.step hT hG h) served_init hG).last h

end Served

section Delivers

/-- A step of the library, on either side. -/
def ProcessAction.ofLibrary : ProcessAction C → Bool
  | .put _ | .deliver _ _ | .take _ _ | .findSocket _ | .findLfiSocket _ | .post _ | .fill _ _
  | .append _ => true
  | .sendmsg _ _ _ | .find _ | .recvmsg _ _ | .lockMap | .register | .unlockMap | .poll _ | .wake
  | .expire => false

/-- A thread stands at a mutex that the application holds. -/
def Process.Blocked (s : Process C) : Prop :=
  ∃ t, (s.receivers t).current.isSome ∧
    ((s.receivers t).place = .map ∧ s.map ≠ none ∨
      (s.receivers t).place = .table ∧ s.polling ≠ none)

/-- The thread as a connection sees it, when it works at a notification of this one. -/
theorem view_current (ep : C → Bool) {t : ℕ} {h : Handling}
    (hcur : (s.receivers t).current = some (c, h)) :
    ((s.view ep c).threads t).current = some h :=
  (congrArg (only c) hcur).trans (if_pos rfl)

/-- **A thread that is past the tables can go on**, or one of the messages can be sent. -/
theorem Served.works (hs : Served cfg ep s) {t : ℕ} {h : Handling}
    (hcur : (s.receivers t).current = some (c, h)) (hplace : (s.receivers t).place = .data) :
    ∃ a : ProcessAction C, (a = .put c ∨ a = .post t ∨ a = .append t ∨ ∃ tag, a = .fill c tag) ∧
      processStep cfg ep s a ≠ none := by
  obtain ⟨g, inv⟩ := hs.inv c
  cases hp : (s.view ep c).pending with
  | cons e rest =>
      refine ⟨.put c, .inl rfl, ?_⟩
      simp [processStep, Preload.step, hp]
  | nil =>
      rcases inv.works (hs.awaited c) hp (view_current ep hcur) with
        ⟨n, hn⟩ | hall | ⟨tag, hchan, hrecvs⟩
      · exact ⟨.post t, .inr (.inl rfl), by simp [processStep, hcur, hplace, hn]⟩
      · exact ⟨.append t, .inr (.inr (.inl rfl)), by simp [processStep, hcur, hplace, hall]⟩
      · obtain ⟨m, ms, hchan⟩ := List.exists_cons_of_ne_nil hchan
        obtain ⟨r, rs, hrecvs⟩ := List.exists_cons_of_ne_nil hrecvs
        have hchan' : (s.conns c).chan tag = m :: ms := hchan
        have hrecvs' : (s.conns c).recvs tag = r :: rs := hrecvs
        exact ⟨.fill c tag, .inr (.inr (.inr ⟨tag, rfl⟩)), by simp [processStep, hchan', hrecvs']⟩

/-- Where the library can do nothing and the thread is not stopped, nothing is left to be done. -/
theorem Served.ahead_eq_zero (hs : Served cfg ep s) (hT : cfg.threads = 1)
    (hstuck : ∀ a : ProcessAction C, a.ofLibrary = true → processStep cfg ep s a = none)
    (hfree : ¬ s.Blocked) (c : C) : (s.view ep c).ahead cfg = 0 := by
  have hcur : (s.receivers 0).current = none := by
    cases hcur : (s.receivers 0).current with
    | none => rfl
    | some y =>
        obtain ⟨d, h⟩ := y
        have hbusy : (s.receivers 0).current.isSome := by rw [hcur]; rfl
        exfalso
        cases hplace : (s.receivers 0).place with
        | map =>
            by_cases hmap : s.map = none
            · have hfind := hstuck (.findSocket 0) rfl
              simp [processStep, hbusy, hplace, hmap] at hfind
            · exact hfree ⟨0, hbusy, .inl ⟨hplace, hmap⟩⟩
        | table =>
            by_cases hpoll : s.polling = none
            · have hfind := hstuck (.findLfiSocket 0) rfl
              simp [processStep, hbusy, hplace, hpoll] at hfind
            · exact hfree ⟨0, hbusy, .inr ⟨hplace, hpoll⟩⟩
        | data =>
            obtain ⟨a, ha, hgoes⟩ := hs.works hcur hplace
            refine hgoes (hstuck a ?_)
            rcases ha with rfl | rfl | rfl | ⟨tag, rfl⟩ <;> rfl
  have hin : ∀ peer, (s.receivers 0).inboxes peer = none := fun peer => by
    cases hin : (s.receivers 0).inboxes peer with
    | none => rfl
    | some y =>
        have htake := hstuck (.take peer 0) rfl
        simp [processStep, hin, hcur] at htake
  have hp : (s.conns c).pending = [] := by
    cases hp : (s.conns c).pending with
    | nil => rfl
    | cons e rest =>
        have hput := hstuck (.put c) rfl
        simp [processStep, Preload.step, Process.view, Conn.socket, hp] at hput
  have hchan : (s.conns c).chan tagRecv = [] := by
    cases hchan : (s.conns c).chan tagRecv with
    | nil => rfl
    | cons m rest =>
        have hdeliver := hstuck (.deliver c 0) rfl
        simp [processStep, hT, hchan, hin] at hdeliver
  simp [Socket.ahead, Process.view, Conn.socket, hp, hchan, hT, Thread.ahead, Receiver.thread, hin,
    hcur]

theorem Served.lt_threads (hs : Served cfg ep s) {t : ℕ} (hbusy : (s.receivers t).current.isSome) :
    t < cfg.threads := by
  obtain ⟨⟨c, hd⟩, hcur⟩ := Option.isSome_iff_exists.1 hbusy
  obtain ⟨g, inv⟩ := hs.inv c
  have hc := view_current ep hcur
  exact inv.lt_threads fun e => by rw [e] at hc; cases hc

/-- A thread that is stopped has something left to do. -/
theorem Served.not_blocked (hs : Served cfg ep s) (h : ∀ c, (s.view ep c).ahead cfg = 0) :
    ¬ s.Blocked := by
  rintro ⟨t, hbusy, -⟩
  have ht := hs.lt_threads hbusy
  obtain ⟨⟨c, hd⟩, hcur⟩ := Option.isSome_iff_exists.1 hbusy
  have hc := view_current ep hcur
  have hzero := h c
  rw [Socket.ahead, Nat.add_eq_zero_iff, Finset.sum_eq_zero_iff] at hzero
  have hthread := hzero.2 t (Finset.mem_range.2 ht)
  simp [Thread.ahead, hc, Handling.ahead] at hthread

end Delivers

section Bound

/-- The looks in the tables that a thread has before it. -/
def Receiver.looks (r : Receiver C) : ℕ :=
  if r.current.isSome then
    match r.place with
    | .map => 2
    | .table => 1
    | .data => 0
  else 0

/-- A bound on the steps of the library: a look is one, any other step counts for three. -/
def Process.ahead [Fintype C] (cfg : Config) (ep : C → Bool) (s : Process C) : ℕ :=
  3 * (∑ c, (s.view ep c).ahead cfg) + (s.receivers 0).looks

/-- The steps of the library that a call is good for. -/
def ProcessAction.brings (cfg : Config) : ProcessAction C → ℕ
  | .sendmsg _ iov counts => Action.brings cfg (.sendmsg iov counts)
  | _ => 0

/-- A step is one of a single connection. -/
theorem ProcessAction.of_unique {a : ProcessAction C} {b b' : Action} (h : a.of s c = some b)
    (h' : a.of s d = some b') : c = d := by
  have honly : ∀ {α : Type} {o : Option (C × α)} {f : α → Action} {c d : C} {b b' : Action},
      (only c o).map f = some b → (only d o).map f = some b' → c = d := by
    intro α o f c d b b' h h'
    cases o with
    | none => cases h
    | some y =>
        rw [only_some] at h h'
        split at h <;> split at h'
        case isTrue.isTrue hc hd => exact hc.symm.trans hd
        all_goals simp_all
  cases a with
  | sendmsg e _ _ | put e | deliver e _ | fill e _ | recvmsg e _ =>
      obtain ⟨rfl, -⟩ := Option.ite_none_right_eq_some.1 h
      obtain ⟨rfl, -⟩ := Option.ite_none_right_eq_some.1 h'
      rfl
  | take | post | append => exact honly h h'
  | _ => cases h

/-- The step that a connection sees is one of the library, and brings as much. -/
theorem ProcessAction.of_ofLibrary (cfg : Config) {a : ProcessAction C} {b : Action}
    (h : a.of s c = some b) :
    b.ofLibrary = a.ofLibrary ∧ b.brings cfg = a.brings cfg := by
  cases a with
  | sendmsg | put | deliver | fill | recvmsg =>
      obtain ⟨-, h⟩ := Option.ite_none_right_eq_some.1 h
      obtain rfl := Option.some.inj h
      exact ⟨rfl, rfl⟩
  | take | post | append =>
      obtain ⟨_, -, rfl⟩ := Option.map_eq_some_iff.1 h
      exact ⟨rfl, rfl⟩
  | _ => cases h

/-- What a step that a connection sees does to the steps ahead. -/
theorem Served.sum_ahead [Fintype C] (hs : Served cfg ep s) (hT : cfg.threads ≤ 1)
    {a : ProcessAction C} (hG : SendsApart cfg s a) (h : processStep cfg ep s a = some s')
    {b : Action} (hof : a.of s c = some b) :
    ∑ d, (s'.view ep d).ahead cfg + (if a.ofLibrary then 1 else 0) =
      ∑ d, (s.view ep d).ahead cfg + a.brings cfg := by
  obtain ⟨g, inv⟩ := hs.inv c
  have hview := (view_step hs.slots h c).view_some hof
  have hone := inv.ahead (inv.careful_of_one hT (hG.of hof)) hview
  obtain ⟨hlib, hbrings⟩ := ProcessAction.of_ofLibrary cfg hof
  rw [hlib, hbrings] at hone
  have hrest : ∀ d, d ≠ c → (s'.view ep d).ahead cfg = (s.view ep d).ahead cfg := fun d hd => by
    cases hof' : a.of s d with
    | none => rw [(view_step hs.slots h d).view_none hof']
    | some b' => exact absurd (ProcessAction.of_unique hof' hof) hd
  have hsum := sum_replace (Finset.mem_univ c) hrest
  omega

omit [DecidableEq C] in
/-- One thread changes. -/
theorem looks_setReceiver {t : ℕ} {r : Receiver C} {n : ℕ}
    (h : r.looks ≤ (s.receivers t).looks + n) :
    ((s.setReceiver t r).receivers 0).looks ≤ (s.receivers 0).looks + n := by
  rw [Process.setReceiver_receivers]
  split
  case isTrue ht => exact ht ▸ h
  case isFalse => exact Nat.le_add_right _ _

omit [DecidableEq C] in
theorem Receiver.looks_le (r : Receiver C) : r.looks ≤ 2 := by
  rw [looks]
  split
  case isTrue => cases r.place <;> decide
  case isFalse => exact Nat.zero_le 2

/-- A step of the library that is no look adds two at most. -/
theorem looks_step {a : ProcessAction C} (h : processStep cfg ep s a = some s') :
    (s'.receivers 0).looks ≤ (s.receivers 0).looks + if a.ofLibrary then 2 else 0 := by
  cases processStep_moves h with
  | sendmsg | put | find | recvmsg | lockMap | register | unlockMap | poll | wake | expire =>
      exact Nat.le_add_right _ _
  | deliver => exact looks_setReceiver (s := s.setConn _ _) (Nat.le_add_right _ _)
  | take | findSocket | findLfiSocket =>
      exact looks_setReceiver ((Receiver.looks_le _).trans (Nat.le_add_left _ _))
  | post | fill | append =>
      exact looks_setReceiver (s := s.setConn _ _)
        ((Receiver.looks_le _).trans (Nat.le_add_left _ _))

/-- **Every step of the library gets closer to the end.** -/
theorem Served.process_ahead [Fintype C] (hs : Served cfg ep s) (hT : cfg.threads ≤ 1)
    {a : ProcessAction C} (hG : SendsApart cfg s a) (h : processStep cfg ep s a = some s') :
    s'.ahead cfg ep + (if a.ofLibrary then 1 else 0) ≤ s.ahead cfg ep + 3 * a.brings cfg := by
  have hlooks := looks_step h
  by_cases hof : ∃ c b, a.of s c = some b
  · obtain ⟨c, b, hof⟩ := hof
    have hsum := hs.sum_ahead hT hG h hof
    simp only [Process.ahead]
    cases hlib : a.ofLibrary <;>
      simp only [hlib, if_true, Bool.false_eq_true, if_false] at hsum hlooks ⊢ <;> omega
  · -- a look, or a step of the application that no connection sees
    have hsum : ∀ c, s'.view ep c = s.view ep c := fun c => by
      cases hc : a.of s c with
      | none => exact (view_step hs.slots h c).view_none hc
      | some b => exact absurd ⟨c, b, hc⟩ hof
    have hzero : ∀ t, (s.receivers t).current.isSome → t = 0 := fun t hbusy => by
      have hlt := hs.lt_threads hbusy
      omega
    simp only [Process.ahead, hsum]
    cases processStep_moves h with
    | findSocket hbusy hplace | findLfiSocket hbusy hplace =>
        obtain rfl := hzero _ hbusy
        simp [Receiver.looks, hbusy, hplace, ProcessAction.ofLibrary, Nat.add_assoc]
    | find | lockMap | register | unlockMap | poll | wake | expire =>
        exact Nat.le_add_right _ _
    | @sendmsg c | @put c | @deliver c | @fill c | @recvmsg c =>
        exact absurd ⟨c, _, if_pos rfl⟩ hof
    | @take _ t c _ hin => exact absurd ⟨c, .take t, by simp [ProcessAction.of, hin]⟩ hof
    | @post t c _ _ hcur => exact absurd ⟨c, .post t, by simp [ProcessAction.of, hcur]⟩ hof
    | @append t c _ hcur => exact absurd ⟨c, .append t, by simp [ProcessAction.of, hcur]⟩ hof

/-- **What is sent to a process arrives, or its thread is stopped.**  For any number of connections
served by one receiver thread, any `Small` calls none of whose messages has the tag of the
notifications (`SendsApart`), any reads and polls, and any order of the steps: the bytes of every
connection come out in order; a call of `n` messages takes the library `9 + 9 * n` steps at most;
and where it can do nothing, everything sent is in `buffers` or was read, exactly if the thread
does not stand at a mutex that a `poll`, `connect` or `accept4` holds. -/
theorem process_delivers [Fintype C] (cfg : Config) (ep : C → Bool) (hT : cfg.threads = 1)
    {as : List (ProcessAction C)}
    (hG : Meets (processStep cfg ep) (SendsApart cfg) processInit as)
    (h : exec (processStep cfg ep) processInit as = some s) :
    (∀ c, (s.conns c).returned <+: (s.conns c).given) ∧
      as.countP ProcessAction.ofLibrary ≤ 3 * total (ProcessAction.brings cfg) as ∧
      ((∀ a : ProcessAction C, a.ofLibrary = true → processStep cfg ep s a = none) →
        ((∀ c, (s.view ep c).ahead cfg = 0 ∧
            (s.conns c).returned ++ left (s.conns c).buffers = (s.conns c).given) ↔
          ¬ s.Blocked)) := by
  have hs : Served cfg ep s := served hT.le hG h
  refine ⟨fun c => ?_, ?_, fun hstuck => ⟨fun hall => hs.not_blocked fun c => (hall c).1,
    fun hfree c => ?_⟩⟩
  · obtain ⟨g, inv⟩ := hs.inv c
    exact inv.inOrder
  · have hzero : (processInit : Process C).ahead cfg ep = 0 := by
      simp [Process.ahead, Socket.ahead, processInit, Process.view, Conn.socket, Thread.ahead,
        Receiver.thread, Receiver.looks]
    have hbalance := exec_balance (I := Served cfg ep) (f := Process.ahead cfg ep)
      (fun a => 3 * a.brings cfg) (fun a => if a.ofLibrary then 1 else 0)
      (fun _ _ _ hs hG h => hs.step hT.le hG h) (fun _ _ _ hs hG h => hs.process_ahead hT.le hG h)
      served_init hG h
    rw [hzero, total_ite, total_mul] at hbalance
    omega
  · have hahead := hs.ahead_eq_zero hT hstuck hfree c
    obtain ⟨g, inv⟩ := hs.inv c
    exact ⟨hahead, inv.arrives_of_ahead (hs.awaited c) (by omega) hahead⟩

/-- One byte is sent on a connection of `peer_ep`, and while its notification is on the way the
application polls the socket. -/
def polled : List (ProcessAction Bool) :=
  [.sendmsg true [[7]] fun _ => 0, .put true, .poll [true], .deliver true 0, .take true 0,
    .findSocket 0]

theorem process_delivers_polled :
    ∃ s, exec (processStep ⟨1, 65536⟩ id) processInit polled = some s ∧
      (∀ c, (s.conns c).returned <+: (s.conns c).given) ∧
      polled.countP ProcessAction.ofLibrary ≤
        3 * total (ProcessAction.brings ⟨1, 65536⟩) polled ∧
      ((∀ a : ProcessAction Bool, a.ofLibrary = true → processStep ⟨1, 65536⟩ id s a = none) →
        ((∀ c, (s.view id c).ahead ⟨1, 65536⟩ = 0 ∧
            (s.conns c).returned ++ left (s.conns c).buffers = (s.conns c).given) ↔
          ¬ s.Blocked)) :=
  have hrun := (Option.some_get (x := exec (processStep ⟨1, 65536⟩ id) processInit polled)
    (by decide +kernel)).symm
  ⟨_, hrun, process_delivers ⟨1, 65536⟩ id rfl (by decide +kernel) hrun⟩

end Bound

section Sleep

variable {fds : List C}

/-- A `poll` of `fds` sleeps, and no thread has something for them past the tables. -/
structure Sleeps (fds : List C) (s : Process C) : Prop where
  polling : s.polling = some fds
  unread : ∀ c ∈ fds, (s.conns c).eventfd = 0
  past : ∀ t c h, (s.receivers t).current = some (c, h) → (s.receivers t).place = .data → c ∉ fds

theorem eventfdWrite_ne_zero (value : ℕ) : eventfdWrite value ≠ 0 := by
  rw [eventfdWrite, eventfdMax]
  split <;> omega

omit [DecidableEq C] in
/-- One thread changes. -/
theorem Sleeps.setReceiver (hs : Sleeps fds s) {t : ℕ} {r : Receiver C}
    (hr : ∀ c h, r.current = some (c, h) → r.place = .data → c ∉ fds) :
    Sleeps fds (s.setReceiver t r) where
  polling := hs.polling
  unread := hs.unread
  past := by
    intro u c h hcur hplace
    rw [Process.setReceiver_receivers] at hcur hplace
    split at hcur
    case isTrue hu =>
      rw [if_pos hu] at hplace
      exact hr c h hcur hplace
    case isFalse hu =>
      rw [if_neg hu] at hplace
      exact hs.past u c h hcur hplace

/-- One connection changes, of which the eventfd stays 0. -/
theorem Sleeps.setConn (hs : Sleeps fds s) {x : Conn} (hx : c ∈ fds → x.eventfd = 0) :
    Sleeps fds (s.setConn c x) where
  polling := hs.polling
  unread := by
    intro d hd
    rw [Process.setConn_conns]
    split
    case isTrue hdc => exact hx (hdc ▸ hd)
    case isFalse => exact hs.unread d hd
  past := hs.past

/-- A thread and its connection change. -/
theorem Sleeps.update (hs : Sleeps fds s) {x : Conn} {t : ℕ} {r : Receiver C}
    (hx : c ∈ fds → x.eventfd = 0)
    (hr : ∀ d h, r.current = some (d, h) → r.place = .data → d ∉ fds) :
    Sleeps fds ((s.setConn c x).setReceiver t r) :=
  (hs.setConn hx).setReceiver hr

/-- **It sleeps on**, whatever comes. -/
theorem Sleeps.step (hs : Sleeps fds s) {a : ProcessAction C} (ha : a ≠ .expire)
    (h : processStep cfg ep s a = some s') : Sleeps fds s' := by
  cases processStep_moves h with
  | sendmsg | put | find => exact hs.setConn (hs.unread _)
  | @deliver c t => exact hs.update (hs.unread c) (hs.past t)
  | take => exact hs.setReceiver fun _ _ _ hplace => by cases hplace
  | findSocket => exact hs.setReceiver fun _ _ _ hplace => by cases hplace
  | findLfiSocket _ _ hfree =>
      rw [hs.polling] at hfree
      cases hfree
  | @post t c hd n hcur hplace =>
      refine hs.update (hs.unread c) fun d h' hcur' _ => ?_
      obtain ⟨rfl, -⟩ := Prod.mk.inj (Option.some.inj hcur')
      exact hs.past t c hd hcur hplace
  | @fill c tag m ms r rs =>
      refine hs.update (hs.unread c) fun d hd hcur hplace => ?_
      obtain ⟨y, hy, heq⟩ := Option.map_eq_some_iff.1 hcur
      have hfst : y.1 = d := by
        split at heq
        case isTrue hc =>
          obtain ⟨rfl, -⟩ := Prod.mk.inj heq
          exact hc
        case isFalse => exact congrArg Prod.fst heq
      exact hs.past r.thread d y.2 (hfst ▸ hy) hplace
  | @append t c hd hcur hplace =>
      have hc := hs.past t c hd hcur hplace
      exact hs.update (fun hmem => absurd hmem hc) fun _ _ hnone => by cases hnone
  | @recvmsg c lens =>
      refine hs.setConn fun hc => ?_
      have hzero := hs.unread c hc
      simp [hzero, eventfdRead]
  | lockMap | register | unlockMap => exact ⟨hs.polling, hs.unread, hs.past⟩
  | poll hfree =>
      rw [hs.polling] at hfree
      cases hfree
  | @wake fds' c hpoll hc hread =>
      obtain rfl := Option.some.inj (hs.polling.symm.trans hpoll)
      rw [hs.unread c hc] at hread
      cases hread
  | expire => exact absurd rfl ha

/-- After such a step the thread is still at it, or the socket is readable. -/
theorem Served.works_on (hs : Served cfg ep s) {h : Handling}
    (hcur : (s.receivers 0).current = some (c, h)) (hplace : (s.receivers 0).place = .data)
    {a : ProcessAction C} (ha : a = .put c ∨ a = .post 0 ∨ a = .append 0 ∨ ∃ tag, a = .fill c tag)
    (hstep : processStep cfg ep s a = some s') :
    s'.polling = s.polling ∧ ((s'.conns c).eventfd ≠ 0 ∨
      (s'.receivers 0).place = .data ∧ ∃ h', (s'.receivers 0).current = some (c, h')) := by
  rcases ha with rfl | rfl | rfl | ⟨tag, rfl⟩
  · cases processStep_moves hstep with
    | put => exact ⟨rfl, .inr ⟨hplace, h, hcur⟩⟩
  · cases processStep_moves hstep with
    | @post _ d hd _ hcur' =>
        obtain ⟨rfl, -⟩ := Prod.mk.inj (Option.some.inj (hcur.symm.trans hcur'))
        exact ⟨rfl, .inr (by simp [hplace])⟩
  · cases processStep_moves hstep with
    | @append _ d hd hcur' =>
        obtain ⟨rfl, rfl⟩ := Prod.mk.inj (Option.some.inj (hcur.symm.trans hcur'))
        obtain ⟨g, inv⟩ := hs.inv c
        have hc := view_current ep hcur
        have ok := inv.handling 0 h hc
        have hnotes : h.notes ≠ [] := by
          rw [ok.notes, notes, Ne, List.map_eq_nil_iff]
          exact (inv.log_ok _ (Log.at_mem (inv.current_lt hc))).ne_nil
        refine ⟨rfl, .inl ?_⟩
        simp [hnotes, eventfdWrite_ne_zero]
  · cases processStep_moves hstep with
    | @fill _ _ m ms r rs =>
        refine ⟨rfl, .inr ?_⟩
        rw [Process.setReceiver_receivers]
        split
        case isTrue hr =>
          rw [← hr]
          simp [hplace, hcur]
        case isFalse => exact ⟨hplace, h, hcur⟩

/-- A thread that is past the tables gets its buffer in place. -/
theorem Served.completes (hs : Served cfg ep s) (hT : cfg.threads ≤ 1) {h : Handling}
    (hcur : (s.receivers 0).current = some (c, h)) (hplace : (s.receivers 0).place = .data) :
    ∃ as t, (∀ a ∈ as, a ≠ ProcessAction.expire) ∧
      exec (processStep cfg ep) s as = some t ∧ t.polling = s.polling ∧
      (t.conns c).eventfd ≠ 0 := by
  induction hn : (s.view ep c).ahead cfg using Nat.strong_induction_on generalizing s h with
  | _ n ih =>
      obtain ⟨a, ha, hgoes⟩ := hs.works hcur hplace
      obtain ⟨s', hs'⟩ := Option.ne_none_iff_exists'.1 hgoes
      have hnext : a ≠ .expire ∧ SendsApart cfg s a ∧ a.ofLibrary = true ∧ a.brings cfg = 0 ∧
          ∃ b, a.of s c = some b := by
        rcases ha with rfl | rfl | rfl | ⟨tag, rfl⟩
        · exact ⟨by simp, trivial, rfl, rfl, .put, if_pos rfl⟩
        · exact ⟨by simp, trivial, rfl, rfl, .post 0, by simp [ProcessAction.of, hcur]⟩
        · exact ⟨by simp, trivial, rfl, rfl, .append 0, by simp [ProcessAction.of, hcur]⟩
        · exact ⟨by simp, trivial, rfl, rfl, .fill tag, if_pos rfl⟩
      obtain ⟨hne, hG, hlib, hbrings, b, hof⟩ := hnext
      have hone : (s'.view ep c).ahead cfg + 1 = (s.view ep c).ahead cfg := by
        obtain ⟨g, inv⟩ := hs.inv c
        have hview := (view_step hs.slots hs' c).view_some hof
        have hahead := inv.ahead (inv.careful_of_one hT (hG.of hof)) hview
        obtain ⟨hlib', hbrings'⟩ := ProcessAction.of_ofLibrary cfg hof
        rw [hlib', hlib, hbrings', hbrings] at hahead
        exact hahead
      have hlast : s'.polling = s.polling ∧ ((s'.conns c).eventfd ≠ 0 ∨
          (s'.receivers 0).place = .data ∧ ∃ h', (s'.receivers 0).current = some (c, h')) :=
        hs.works_on hcur hplace ha hs'
      obtain ⟨hpolling, hdone | ⟨hplace', h', hcur'⟩⟩ := hlast
      · exact ⟨[a], s', by simpa using hne, by rw [exec_cons, hs']; rfl, hpolling, hdone⟩
      · obtain ⟨as, t, has, ht, hpoll, hread⟩ :=
          ih _ (by omega) (hs.step hT hG hs') hcur' hplace' rfl
        refine ⟨a :: as, t, fun b hb => ?_, by rw [exec_cons, hs']; exact ht,
          hpoll.trans hpolling, hread⟩
        rcases List.mem_cons.1 hb with rfl | hb
        · exact hne
        · exact has b hb

theorem exec_wake (hpoll : s.polling = some fds) (hc : c ∈ fds) (hread : (s.conns c).eventfd ≠ 0) :
    exec (processStep cfg ep) s [.wake] = some { s with polling := none } := by
  have hany : fds.any (fun c => pollIn (s.conns c).eventfd) = true :=
    List.any_eq_true.2 ⟨c, hc, decide_eq_true (Nat.pos_of_ne_zero hread)⟩
  rw [exec_cons, processStep, hpoll]
  simp only [hany, if_true]
  rfl

/-- **When a `poll` returns.**  One without a timeout, of the sockets `fds`, at any point of a run
of a process with one receiver thread, whose calls are `Small` and whose messages keep off the tag
of the notifications (`SendsApart`): it can return exactly if one of the sockets is readable, or
the thread is past the tables with a notification for one of them.  Otherwise it sleeps whatever
comes, since every later notification needs the mutex that it holds. -/
theorem poll_returns_iff (cfg : Config) (ep : C → Bool) (hT : cfg.threads = 1)
    {as : List (ProcessAction C)}
    (hG : Meets (processStep cfg ep) (SendsApart cfg) processInit as)
    (h : exec (processStep cfg ep) processInit as = some s) (hpoll : s.polling = some fds) :
    (∃ bs t, (∀ b ∈ bs, b ≠ ProcessAction.expire) ∧ exec (processStep cfg ep) s bs = some t ∧
        t.polling = none) ↔
      (∃ c ∈ fds, (s.conns c).eventfd ≠ 0) ∨
        ∃ c ∈ fds, ∃ h, (s.receivers 0).current = some (c, h) ∧
          (s.receivers 0).place = .data := by
  have hs : Served cfg ep s := served hT.le hG h
  constructor
  · rintro ⟨bs, t, hbs, ht, hnone⟩
    by_contra hno
    obtain ⟨hunread, hpast⟩ := not_or.1 hno
    have hsleeps : Sleeps fds s := by
      refine ⟨hpoll, fun c hc => ?_, fun u c hd hcur hplace hc => ?_⟩
      · by_contra hread
        exact hunread ⟨c, hc, hread⟩
      · have hu := hs.lt_threads (by rw [hcur]; rfl)
        obtain rfl : u = 0 := by omega
        exact hpast ⟨c, hc, hd, hcur, hplace⟩
    have hlast := exec_invariant_mem (fun _ _ _ hs hb h => Sleeps.step hs hb h) hsleeps hbs ht
    rw [hlast.polling] at hnone
    cases hnone
  · rintro (⟨c, hc, hread⟩ | ⟨c, hc, hd, hcur, hplace⟩)
    · exact ⟨[.wake], _, by simp, exec_wake hpoll hc hread, rfl⟩
    · obtain ⟨bs, t, hbs, ht, htpoll, hread⟩ := hs.completes hT.le hcur hplace
      refine ⟨bs ++ [.wake], { t with polling := none }, fun b hb => ?_, ?_, rfl⟩
      · rcases List.mem_append.1 hb with hb | hb
        · exact hbs b hb
        · rw [List.mem_singleton.1 hb]
          simp
      · rw [exec_append, ht]
        exact exec_wake (htpoll.trans hpoll) hc hread

/-- **It sleeps for ever**, with the byte on the way to its socket. -/
theorem poll_returns_iff_polled :
    ∃ s, exec (processStep ⟨1, 65536⟩ id) processInit polled = some s ∧
      ¬ ∃ bs t, (∀ b ∈ bs, b ≠ ProcessAction.expire) ∧
        exec (processStep ⟨1, 65536⟩ id) s bs = some t ∧ t.polling = none := by
  have hrun := (Option.some_get (x := exec (processStep ⟨1, 65536⟩ id) processInit polled)
    (by decide +kernel)).symm
  have hstate : ((exec (processStep ⟨1, 65536⟩ id) processInit polled).get
      (by decide +kernel)).polling = some [true] ∧
      (((exec (processStep ⟨1, 65536⟩ id) processInit polled).get
        (by decide +kernel)).conns true).eventfd = 0 ∧
      (((exec (processStep ⟨1, 65536⟩ id) processInit polled).get
        (by decide +kernel)).receivers 0).place = .table := by decide +kernel
  obtain ⟨hpoll, hunread, hplace⟩ := hstate
  refine ⟨_, hrun, fun hreturns => ?_⟩
  rcases (poll_returns_iff ⟨1, 65536⟩ id rfl (by decide +kernel) hrun hpoll).1 hreturns with
    ⟨c, hc, hread⟩ | ⟨c, -, hd, -, hdata⟩
  · rw [List.mem_singleton.1 hc] at hread
    exact hread hunread
  · rw [hplace] at hdata
    cases hdata

end Sleep

end Preload
end Lfi
