/-
# Deadlocks of the endpoint

The calls nest their mutexes in two directions at three places, and threads that do so at
the same time can wait for each other for ever.  `post_pending_ops` keeps
`pending_ops_mutex` while it completes a request, which locks the communicator and the
request; the asynchronous calls keep both while they lock `pending_ops_mutex`.  `test`
keeps the mutex of its request while its guard locks `waiters_mutex`;
`transfer_leader_and_wake` keeps that while it locks the mutex of a waiting request.  And
the report of a failure keeps `ft_mutex` of the endpoint while it locks a request, which
may be posted again with its mutex held.

`Careful` says that no two threads are at one of these places, and then there is no
deadlock in any run (`deadlockFree_of_careful`).  Without it there is
(`deadlockFree_crossedLocks`).
-/

import Lfi.Locks.Order

namespace Lfi
namespace Locks

open Runs
open Impl (ReqId CommId isAnyComm)

/-! ### The places that meet -/

/-- The request that the operation is posted for, before it is checked or queued. -/
def posts? : LOp → Option ReqId
  | .call (.effect (.check r)) => some r
  | .call (.effect (.push r _)) => some r
  | _ => none

/-- The request that a failure is written to. -/
def reports? : LOp → Option ReqId
  | .call (.report r) => some r
  | .call (.effect (.setFailed r)) => some r
  | _ => none

/-- The operation belongs to a guard. -/
def guards : LOp → Bool
  | .call (.guard _) | .call (.unguard _) | .call .transferLeader
  | .call (.effect (.notify _)) | .lock .waiters => true
  | _ => false

/-- The operation hands leadership on to a waiter with a mutex. -/
def handsOn (d : LockData) : LOp → Bool
  | .call .transferLeader => match d.waitersList with
      | some _ :: _ => true
      | _ => false
  | .call (.effect (.notify _)) => true
  | _ => false

def Mutex.isRequest : Mutex → Bool
  | .request _ => true
  | _ => false

/-- The requests the thread completes before it releases `pending_ops_mutex`. -/
def Thread.completing (x : Thread Mutex Call) : List ReqId :=
  if .pendingOps ∈ x.held then (before (.unlock .pendingOps) x.todo).filterMap completes?
  else []

/-- The requests whose operations the thread is about to queue. -/
def Thread.queuing (x : Thread Mutex Call) : List ReqId := x.todo.filterMap queues?

/-- The requests the thread is about to post. -/
def Thread.posting (x : Thread Mutex Call) : List ReqId := x.todo.filterMap posts?

/-- The requests the thread is about to report a failure to. -/
def Thread.reporting (x : Thread Mutex Call) : List ReqId := x.todo.filterMap reports?

/-- The thread holds the mutex of a request across the constructor or destructor of a
guard. -/
def Thread.Guarded (x : Thread Mutex Call) : Prop :=
  ∃ m ∈ x.held, m.isRequest = true ∧ ∃ op ∈ before (.unlock m) x.todo, guards op = true

/-- The thread holds `waiters_mutex` and hands leadership on to a waiter with a mutex. -/
def Thread.HandsOn (d : LockData) (x : Thread Mutex Call) : Prop :=
  .waiters ∈ x.held ∧ ∃ op ∈ before (.unlock .waiters) x.todo, handsOn d op = true

/-- **What keeps the threads apart.**  While `post_pending_ops` completes a request, nobody
is about to queue an operation of the same communicator; while a thread holds the mutex of
a request across a constructor or destructor of a guard, nobody hands leadership on to a
waiter with a mutex; and a request that a failure is reported to is not being posted. -/
structure Careful (S : Setting) (s : Config Mutex Call LockData) : Prop where
  completing : ∀ x ∈ s.threads, ∀ y ∈ s.threads, ∀ r ∈ x.completing, ∀ q ∈ y.queuing,
    S.commOf r ≠ S.commOf q
  guarded : ∀ x ∈ s.threads, ∀ y ∈ s.threads, x.Guarded → ¬ y.HandsOn s.data
  reporting : ∀ x ∈ s.threads, ∀ y ∈ s.threads, ∀ r ∈ x.reporting, r ∉ y.posting

instance (x : Thread Mutex Call) : Decidable x.Guarded :=
  inferInstanceAs (Decidable (∃ m ∈ x.held, m.isRequest = true ∧
    ∃ op ∈ before (.unlock m) x.todo, guards op = true))

instance (d : LockData) (x : Thread Mutex Call) : Decidable (x.HandsOn d) :=
  inferInstanceAs (Decidable (.waiters ∈ x.held ∧
    ∃ op ∈ before (.unlock .waiters) x.todo, handsOn d op = true))

instance (S : Setting) (s : Config Mutex Call LockData) : Decidable (Careful S s) :=
  decidable_of_iff
    ((∀ x ∈ s.threads, ∀ y ∈ s.threads, ∀ r ∈ x.completing, ∀ q ∈ y.queuing,
        S.commOf r ≠ S.commOf q) ∧
      (∀ x ∈ s.threads, ∀ y ∈ s.threads, x.Guarded → ¬ y.HandsOn s.data) ∧
      ∀ x ∈ s.threads, ∀ y ∈ s.threads, ∀ r ∈ x.reporting, r ∉ y.posting)
    ⟨fun ⟨hc, hg, hr⟩ => ⟨hc, hg, hr⟩, fun h => ⟨h.completing, h.guarded, h.reporting⟩⟩

/-! ### Threads that are stuck there

A thread that is stuck at one of these places was there one step before. -/

/-- The thread is stuck on its way to complete `r` under `pending_ops_mutex`. -/
def Thread.StuckCompleting (x : Thread Mutex Call) (r : ReqId) : Prop :=
  x.held = [.pendingOps] ∧
    .call (.effect (.setCompleted r)) ∈ before (.unlock .pendingOps) x.todo

/-- The thread is stuck in a guard with the mutex of a request held. -/
def Thread.StuckGuarded (x : Thread Mutex Call) : Prop :=
  ∃ q, (x.held = [.request q] ∧ ∃ rest, x.todo = .lock .waiters :: rest) ∨
    ∃ r, x.held = [.waiters, .request q] ∧
      .call (.effect (.notify r)) ∈ before (.unlock (.request q)) x.todo

/-- The thread is stuck on its way to wake the successor. -/
def Thread.StuckHandsOn (x : Thread Mutex Call) : Prop :=
  .waiters ∈ x.held ∧ ∃ r, .call (.effect (.notify r)) ∈ before (.unlock .waiters) x.todo

variable {S : Setting} {s s' : Config Mutex Call LockData} {x y : Thread Mutex Call}

theorem mem_completing {x : Thread Mutex Call} {r : ReqId} {op : LOp}
    (hheld : .pendingOps ∈ x.held) (hop : op ∈ before (.unlock .pendingOps) x.todo)
    (hr : completes? op = some r) : r ∈ x.completing := by
  rw [Thread.completing, if_pos hheld]
  exact List.mem_filterMap.2 ⟨op, hop, hr⟩

section Back

variable (h : Moves (endpointProgram S) s x y)

include h

/-- An effect a thread has to do it had to do before, or the call is made that does it. -/
theorem effect_back {e : Effect} (hop : .call (.effect e) ∈ y.todo) :
    .call (.effect e) ∈ x.todo ∨ ∃ f rest, x.todo = .call f :: rest ∧ y.held = x.held ∧
      Emits s.data f (.call (.effect e)) := by
  rcases h.todo hop with hop | ⟨f, hf, hentry⟩ | ⟨f, rest, b, i, d, htodo, hb, hxy, hop⟩
  · exact .inl hop
  · cases hf
    cases hentry
  · exact .inr ⟨f, rest, htodo, hxy, body_emits hb _ hop⟩

theorem reporting_back {r : ReqId} (hr : .call (.effect (.setFailed r)) ∈ y.todo) :
    r ∈ x.reporting := by
  rcases effect_back h hr with hr | ⟨f, rest, htodo, -, rfl⟩
  · exact List.mem_filterMap.2 ⟨_, hr, rfl⟩
  · exact List.mem_filterMap.2 ⟨_, htodo ▸ List.mem_cons_self .., rfl⟩

variable (hfit : Fits (ok S) x.held x.todo)

include hfit

theorem push_back {r : ReqId} {q : Queue} (hheld : y.held ≠ [])
    (hop : .call (.effect (.push r q)) ∈ y.todo) : .call (.effect (.push r q)) ∈ x.todo := by
  rcases effect_back h hop with hop | ⟨f, rest, htodo, hxy, rfl⟩
  · exact hop
  · rw [htodo] at hfit
    exact absurd (hxy.trans hfit.1) hheld

theorem check_back {r : ReqId} (hheld : y.held ≠ [])
    (hop : .call (.effect (.check r)) ∈ y.todo) : .call (.effect (.check r)) ∈ x.todo := by
  rcases effect_back h hop with hop | ⟨f, rest, htodo, hxy, q, rfl⟩
  · exact hop
  · rw [htodo] at hfit
    exact absurd (hxy.trans hfit.1) hheld

theorem completing_back (hnodup : x.held.Nodup) {r : ReqId} (hy : y.StuckCompleting r) :
    r ∈ x.completing := by
  obtain ⟨hheld, hr⟩ := hy
  have hm : Mutex.pendingOps ∈ y.held := by simp [hheld]
  rcases h.pending (D := lockOrder S) hfit hnodup hm hr with
    ⟨hm, hr⟩ | ⟨htodo, hlock⟩ | ⟨hm, f, rest, b, i, d, htodo, hb, -, hr'⟩
  · exact mem_completing hm hr rfl
  · -- nothing is completed where `pending_ops_mutex` is locked by a thread that holds nothing
    rw [htodo] at hfit
    have hnil : x.held = [] := by
      rw [hheld] at hlock
      exact (List.cons.inj hlock).2.symm
    rcases hfit.1 with ⟨-, hnone⟩ | ⟨q, _, hq, -⟩
    · cases hnone _ hr
    · rw [hnil] at hq
      cases hq
  · cases body_emits hb _ hr'
    have hcall : .call (.complete r) ∈ before (.unlock .pendingOps) x.todo := by
      rw [htodo, before_cons_of_ne (by simp)]
      exact List.mem_cons_self ..
    exact mem_completing hm hcall rfl

theorem handsOn_back (hnodup : x.held.Nodup) (hy : y.StuckHandsOn) : x.HandsOn s.data := by
  obtain ⟨hm, r, hr⟩ := hy
  rcases h.pending (D := lockOrder S) hfit hnodup hm hr with
    ⟨hm, hr⟩ | ⟨htodo, -⟩ | ⟨hm, f, rest, b, i, d, htodo, hb, -, hr'⟩
  · exact ⟨hm, _, hr, rfl⟩
  · -- the head of the list is looked at after `waiters_mutex` is locked
    rw [htodo] at hfit
    exact absurd hr (hfit.1.2 r)
  · obtain ⟨rfl, waiters, hw⟩ := body_emits hb _ hr'
    refine ⟨hm, .call .transferLeader, ?_, by simp [handsOn, hw]⟩
    rw [htodo, before_cons_of_ne (by simp)]
    exact List.mem_cons_self ..

theorem guarded_back (hnodup : x.held.Nodup) (hy : y.StuckGuarded) : x.Guarded := by
  have hguards : ∀ {q o}, .request q ∈ y.held → o ∈ before (.unlock (.request q)) y.todo →
      guards o = true → (x.todo = .lock (.request q) :: y.todo → y.held ≠ .request q :: x.held) →
      (∀ f, Emits s.data f o → guards (.call f) = true) → x.Guarded := by
    intro q o hm ho hguard hlock hemits
    rcases h.pending (D := lockOrder S) hfit hnodup hm ho with
      ⟨hm, ho⟩ | ⟨htodo, hheld⟩ | ⟨hm, f, rest, b, i, d, htodo, hb, -, ho'⟩
    · exact ⟨_, hm, rfl, o, ho, hguard⟩
    · exact absurd hheld (hlock htodo)
    · refine ⟨_, hm, rfl, .call f, ?_, hemits f (body_emits hb _ ho')⟩
      rw [htodo, before_cons_of_ne (by simp)]
      exact List.mem_cons_self ..
  obtain ⟨q, ⟨hheld, rest, htodo⟩ | ⟨r, hheld, hr⟩⟩ := hy
  · refine hguards (q := q) (o := .lock .waiters) (by simp [hheld]) ?_ rfl ?_ ?_
    · rw [htodo, before_cons_of_ne (by simp)]
      exact List.mem_cons_self ..
    · -- no guard follows at once where the mutex of a request is locked
      intro hx hxy
      rw [hheld] at hxy
      rw [hx, htodo] at hfit
      rcases hfit.1 with ⟨-, hne⟩ | ⟨hheld', -⟩ | ⟨hheld', -⟩ | ⟨hheld', -⟩ | ⟨_, hheld', -⟩
      · exact hne rfl
      all_goals
        rw [hheld'] at hxy
        cases hxy
    · rintro f ⟨k, rfl | rfl⟩ <;> rfl
  · refine hguards (by simp [hheld]) hr rfl ?_ ?_
    · intro hx hxy
      rw [hheld] at hxy
      cases hxy
    · rintro f ⟨rfl, -⟩
      rfl

end Back

/-- What `Careful` leaves for the next state: the threads that are stuck are apart. -/
structure Apart (S : Setting) (s : Config Mutex Call LockData) : Prop where
  completing : ∀ x ∈ s.threads, ∀ y ∈ s.threads, ∀ r q p, x.StuckCompleting r → y.held ≠ [] →
    .call (.effect (.push q p)) ∈ y.todo → S.commOf r ≠ S.commOf q
  guarded : ∀ x ∈ s.threads, ∀ y ∈ s.threads, x.StuckGuarded → ¬ y.StuckHandsOn
  reporting : ∀ x ∈ s.threads, ∀ y ∈ s.threads, ∀ r, .call (.effect (.setFailed r)) ∈ x.todo →
    y.held ≠ [] → .call (.effect (.check r)) ∉ y.todo ∧
      ∀ p, .call (.effect (.push r p)) ∉ y.todo

/-- A thread after a step is one of those before it, or one of them moved. -/
theorem threads_back {a : ThreadAction Call Branch}
    (hinv : ThreadsInv (lockOrder S) s) (h : threadStep (endpointProgram S) s a = some s')
    (hy : y ∈ s'.threads) : ∃ x ∈ s.threads, Fits (ok S) x.held x.todo ∧ x.held.Nodup ∧
      (x = y ∨ Moves (endpointProgram S) s x y) := by
  obtain ⟨t, x, z, hx, hset, hmove⟩ := threadStep_cases h
  obtain ⟨u, hu⟩ := List.mem_iff_getElem?.1 hy
  rw [hset, List.getElem?_set] at hu
  split at hu
  case isTrue htu =>
    split at hu
    case isTrue =>
      cases hu
      exact ⟨x, List.mem_of_getElem? hx, hinv.fits t x hx, hinv.nodup t x hx, .inr hmove⟩
    case isFalse => cases hu
  case isFalse =>
    exact ⟨y, List.mem_of_getElem? hu, hinv.fits u y hu, hinv.nodup u y hu, .inl rfl⟩

theorem apart_of_careful {a : ThreadAction Call Branch} (hinv : ThreadsInv (lockOrder S) s)
    (hc : Careful S s) (h : threadStep (endpointProgram S) s a = some s') : Apart S s' := by
  refine ⟨fun x hx y hy r q p hr hheld hq => ?_, fun x hx y hy hg hh => ?_,
    fun x hx y hy r hr hheld => ?_⟩
  · obtain ⟨x', hx', hfit, hnodup, hxx⟩ := threads_back hinv h hx
    obtain ⟨y', hy', hfit', -, hyy⟩ := threads_back hinv h hy
    refine hc.completing x' hx' y' hy' r ?_ q
      (List.mem_filterMap.2 ⟨.call (.effect (.push q p)), ?_, rfl⟩)
    · rcases hxx with rfl | hxx
      · exact mem_completing (by simp [hr.1]) hr.2 rfl
      · exact completing_back hxx hfit hnodup hr
    · rcases hyy with rfl | hyy
      · exact hq
      · exact push_back hyy hfit' hheld hq
  · obtain ⟨x', hx', hfit, hnodup, hxx⟩ := threads_back hinv h hx
    obtain ⟨y', hy', hfit', hnodup', hyy⟩ := threads_back hinv h hy
    refine hc.guarded x' hx' y' hy' ?_ ?_
    · rcases hxx with rfl | hxx
      · obtain ⟨q, ⟨hheld, rest, htodo⟩ | ⟨r, hheld, hr⟩⟩ := hg
        · refine ⟨.request q, by simp [hheld], rfl, .lock .waiters, ?_, rfl⟩
          rw [htodo, before_cons_of_ne (by simp)]
          exact List.mem_cons_self ..
        · exact ⟨.request q, by simp [hheld], rfl, _, hr, rfl⟩
      · exact guarded_back hxx hfit hnodup hg
    · rcases hyy with rfl | hyy
      · obtain ⟨hm, r, hr⟩ := hh
        exact ⟨hm, _, hr, rfl⟩
      · exact handsOn_back hyy hfit' hnodup' hh
  · obtain ⟨x', hx', -, -, hxx⟩ := threads_back hinv h hx
    obtain ⟨y', hy', hfit', -, hyy⟩ := threads_back hinv h hy
    have hrep : r ∈ x'.reporting := by
      rcases hxx with rfl | hxx
      · exact List.mem_filterMap.2 ⟨_, hr, rfl⟩
      · exact reporting_back hxx hr
    refine ⟨fun hop => hc.reporting x' hx' y' hy' r hrep ?_,
      fun p hop => hc.reporting x' hx' y' hy' r hrep ?_⟩
    · refine List.mem_filterMap.2 ⟨.call (.effect (.check r)), ?_, rfl⟩
      rcases hyy with rfl | hyy
      · exact hop
      · exact check_back hyy hfit' hheld hop
    · refine List.mem_filterMap.2 ⟨.call (.effect (.push r p)), ?_, rfl⟩
      rcases hyy with rfl | hyy
      · exact hop
      · exact push_back hyy hfit' hheld hop

/-! ### Who holds what a thread waits for -/

section Holders

variable {m : Mutex} {held : List Mutex} {rest : List LOp}

/-- A thread that waits with `waiters_mutex` held wakes the successor. -/
theorem holder_waiters (h : okLock S held rest m) (hm : .waiters ∈ held) :
    ∃ r, m = .request r ∧ .call (.effect (.notify r)) ∈ before (.unlock .waiters) rest := by
  cases m with
  | comms => cases h
  | request r =>
      rcases h with ⟨rfl, -⟩ | ⟨rfl, -⟩ | ⟨rfl, -⟩ | ⟨-, hr⟩ | ⟨q, -, hr, -⟩
      · cases hm
      · simp at hm
      · simp at hm
      · exact ⟨r, rfl, hr⟩
      · exact ⟨r, rfl, hr⟩
  | commFt c => rcases h with rfl | ⟨r, rfl, -⟩ | ⟨r, rfl, -⟩ <;> simp at hm
  | endpointFt => rcases h with rfl | ⟨c, rfl | rfl⟩ <;> simp at hm
  | pendingOps => rcases h with ⟨rfl, -⟩ | ⟨r, q, rfl, -⟩ <;> simp at hm
  | waiters => rcases h with ⟨rfl | ⟨r, rfl⟩, -⟩ <;> simp at hm

/-- A thread that waits with the mutex of a request held is posting it, or in a guard. -/
theorem holder_request {r : ReqId} (h : okLock S held rest m) (hm : .request r ∈ held) :
    (m = .commFt (S.commOf r) ∧ .call (.effect (.check r)) ∈ rest) ∨
      (m = .pendingOps ∧ ∃ q, .call (.effect (.push r q)) ∈ rest) ∨
      (m = .waiters ∧ held = [.request r]) ∨
      ∃ p, m = .request p ∧ held = [.waiters, .request r] ∧
        .call (.effect (.notify p)) ∈ before (.unlock .waiters) rest ∧
        .call (.effect (.notify p)) ∈ before (.unlock (.request r)) rest := by
  cases m with
  | comms => cases h
  | request p =>
      rcases h with ⟨rfl, -⟩ | ⟨rfl, -⟩ | ⟨rfl, -⟩ | ⟨rfl, -⟩ | ⟨q, rfl, hr, hr'⟩
      · cases hm
      · simp at hm
      · simp at hm
      · simp at hm
      · obtain rfl : r = q := by simpa using hm
        exact .inr (.inr (.inr ⟨p, rfl, rfl, hr, hr'⟩))
  | commFt c =>
      rcases h with rfl | ⟨q, rfl, hc, hq⟩ | ⟨q, rfl, -⟩
      · cases hm
      · obtain rfl : r = q := by simpa using hm
        exact .inl ⟨by rw [hc], hq⟩
      · simp at hm
  | endpointFt => rcases h with rfl | ⟨c, rfl | rfl⟩ <;> simp at hm
  | pendingOps =>
      rcases h with ⟨rfl, -⟩ | ⟨q, p, rfl, hq⟩
      · cases hm
      · obtain rfl : r = q := by simpa using hm
        exact .inr (.inl ⟨rfl, p, hq⟩)
  | waiters =>
      rcases h with ⟨rfl | ⟨q, rfl⟩, -⟩
      · cases hm
      · obtain rfl : r = q := by simpa using hm
        exact .inr (.inr (.inl ⟨rfl, rfl⟩))

/-- A thread that waits with the mutex of a communicator held is queuing an operation of it,
or waits for the mutex of the endpoint. -/
theorem holder_commFt {c : CommId} (h : okLock S held rest m) (hm : .commFt c ∈ held) :
    (m = .pendingOps ∧ ∃ r q, S.commOf r = c ∧ .call (.effect (.push r q)) ∈ rest) ∨
      (m = .endpointFt ∧ (held = [.commFt c] ∨ held = [.commFt c, .pendingOps])) := by
  cases m with
  | comms => cases h
  | request p =>
      rcases h with ⟨rfl, -⟩ | ⟨rfl, -⟩ | ⟨rfl, -⟩ | ⟨rfl, -⟩ | ⟨q, rfl, -⟩ <;> simp at hm
  | commFt c => rcases h with rfl | ⟨q, rfl, -⟩ | ⟨q, rfl, -⟩ <;> simp at hm
  | endpointFt =>
      rcases h with rfl | ⟨c', rfl | rfl⟩
      · cases hm
      · obtain rfl : c = c' := by simpa using hm
        exact .inr ⟨rfl, .inl rfl⟩
      · obtain rfl : c = c' := by simpa using hm
        exact .inr ⟨rfl, .inr rfl⟩
  | pendingOps =>
      rcases h with ⟨rfl, -⟩ | ⟨q, p, rfl, hq⟩
      · cases hm
      · exact .inl ⟨rfl, q, p, by simpa [eq_comm] using hm, hq⟩
  | waiters => rcases h with ⟨rfl | ⟨q, rfl⟩, -⟩ <;> simp at hm

/-- A thread that waits with `pending_ops_mutex` held completes a request. -/
theorem holder_pendingOps (h : okLock S held rest m) (hm : .pendingOps ∈ held) :
    (held = [.pendingOps] ∧ ∃ r, (m = .request r ∨ m = .commFt (S.commOf r)) ∧
        .call (.effect (.setCompleted r)) ∈ before (.unlock .pendingOps) rest) ∨
      m = .endpointFt := by
  cases m with
  | comms => cases h
  | request p =>
      rcases h with ⟨rfl, -⟩ | ⟨rfl, hp⟩ | ⟨rfl, -⟩ | ⟨rfl, -⟩ | ⟨q, rfl, -⟩
      · cases hm
      · exact .inl ⟨rfl, p, .inl rfl, hp⟩
      all_goals simp at hm
  | commFt c =>
      rcases h with rfl | ⟨q, rfl, -⟩ | ⟨q, rfl, rfl, hq⟩
      · cases hm
      · simp at hm
      · exact .inl ⟨rfl, q, .inr rfl, hq⟩
  | endpointFt => exact .inr rfl
  | pendingOps => rcases h with ⟨rfl, -⟩ | ⟨q, p, rfl, -⟩ <;> simp at hm
  | waiters => rcases h with ⟨rfl | ⟨q, rfl⟩, -⟩ <;> simp at hm

/-- A thread that waits with the mutex of the endpoint held reports a failure. -/
theorem holder_endpointFt (h : okLock S held rest m) (hm : .endpointFt ∈ held) :
    held = [.endpointFt] ∧ ∃ r, m = .request r ∧ .call (.effect (.setFailed r)) ∈ rest := by
  cases m with
  | comms => cases h
  | request p =>
      rcases h with ⟨rfl, -⟩ | ⟨rfl, -⟩ | ⟨rfl, hp⟩ | ⟨rfl, -⟩ | ⟨q, rfl, -⟩
      · cases hm
      · simp at hm
      · exact ⟨rfl, p, rfl, hp⟩
      all_goals simp at hm
  | commFt c => rcases h with rfl | ⟨q, rfl, -⟩ | ⟨q, rfl, -⟩ <;> simp at hm
  | endpointFt => rcases h with rfl | ⟨c', rfl | rfl⟩ <;> simp at hm
  | pendingOps => rcases h with ⟨rfl, -⟩ | ⟨q, p, rfl, -⟩ <;> simp at hm
  | waiters => rcases h with ⟨rfl | ⟨q, rfl⟩, -⟩ <;> simp at hm

end Holders

/-! ### No cycle -/

/-- The thread is stuck at the mutex `m`. -/
def Thread.StuckAt (S : Setting) (x : Thread Mutex Call) (m : Mutex) (rest : List LOp) : Prop :=
  x.todo = .lock m :: rest ∧ okLock S x.held rest m

theorem Thread.StuckAt.before_mem {m m' : Mutex} {rest : List LOp} {op : LOp}
    (h : x.StuckAt S m rest) (hop : op ∈ before (.unlock m') rest) :
    op ∈ before (.unlock m') x.todo := by
  rw [h.1, before_cons_of_ne (by simp)]
  exact List.mem_cons_of_mem _ hop

theorem Thread.StuckAt.mem {m : Mutex} {rest : List LOp} {op : LOp} (h : x.StuckAt S m rest)
    (hop : op ∈ rest) : op ∈ x.todo :=
  h.1 ▸ List.mem_cons_of_mem _ hop

/-- Some thread is stuck on its way to complete a request of the communicator. -/
def Completing (S : Setting) (s : Config Mutex Call LockData) (c : CommId) : Prop :=
  ∃ x ∈ s.threads, ∃ r, x.StuckCompleting r ∧ S.commOf r = c

open Classical in
/-- What grows from a thread that waits for a mutex to the one that holds it. -/
noncomputable def lockRank (S : Setting) (s : Config Mutex Call LockData) (held : List Mutex) :
    Mutex → ℕ
  | .comms => 0
  | .waiters => 0
  | .request _ => if .endpointFt ∈ held then 7 else if .pendingOps ∈ held then 4 else 1
  | .commFt c => if Completing S s c then 5 else 2
  | .pendingOps => 3
  | .endpointFt => 6

theorem lockRank_le (held : List Mutex) (m : Mutex) : lockRank S s held m ≤ 7 := by
  cases m with
  | request r => simp only [lockRank]; split <;> [skip; split] <;> decide
  | commFt c => simp only [lockRank]; split <;> decide
  | _ => simp [lockRank]

theorem lockRank_request {held held' : List Mutex} (h : held = held') {r : ReqId}
    (hE : .endpointFt ∉ held') (hP : .pendingOps ∉ held') :
    lockRank S s held (.request r) = 1 := by
  simp [lockRank, h, hE, hP]

theorem one_lt_lockRank_commFt (held : List Mutex) (c : CommId) :
    1 < lockRank S s held (.commFt c) := by
  simp only [lockRank]
  split <;> decide

/-- **The rank grows along every wait.** -/
theorem lockRank_lt (hs : Apart S s) (hx : x ∈ s.threads) (hy : y ∈ s.threads) {m m' : Mutex}
    {rest rest' : List LOp} (hxm : x.StuckAt S m rest) (hym : y.StuckAt S m' rest')
    (hm : m ∈ y.held) (hfree : m' = .waiters → y.held = []) :
    lockRank S s x.held m < lockRank S s y.held m' := by
  have hnotEmpty : y.held ≠ [] := List.ne_nil_of_mem hm
  cases m with
  | comms => exact hxm.2.elim
  | waiters =>
      obtain ⟨r, rfl, -⟩ := holder_waiters hym.2 hm
      simp only [lockRank]
      split <;> [skip; split] <;> decide
  | request r =>
      rcases holder_request hym.2 hm with
        ⟨rfl, hcheck⟩ | ⟨rfl, q, hpush⟩ | ⟨rfl, hheld⟩ | ⟨p, rfl, hheld, hp, hp'⟩
      · -- its communicator is waited for by who posts it
        rcases hxm.2 with ⟨hheld, -⟩ | ⟨hheld, hr⟩ | ⟨hheld, hr⟩ | ⟨hheld, -⟩ | ⟨q, hheld, -⟩
        · rw [lockRank_request hheld (by simp) (by simp)]
          exact one_lt_lockRank_commFt _ _
        · have hc : Completing S s (S.commOf r) := ⟨x, hx, r, ⟨hheld, hxm.before_mem hr⟩, rfl⟩
          simp [lockRank, hheld, hc]
        · exact absurd (hym.mem hcheck) (hs.reporting x hx y hy r (hxm.mem hr) hnotEmpty).1
        · rw [lockRank_request hheld (by simp) (by simp)]
          exact one_lt_lockRank_commFt _ _
        · rw [lockRank_request hheld (by simp) (by simp)]
          exact one_lt_lockRank_commFt _ _
      · rcases hxm.2 with ⟨hheld, -⟩ | ⟨hheld, hr⟩ | ⟨hheld, hr⟩ | ⟨hheld, -⟩ | ⟨q, hheld, -⟩
        · simp [lockRank, hheld]
        · exact absurd rfl (hs.completing x hx y hy r r q ⟨hheld, hxm.before_mem hr⟩ hnotEmpty
            (hym.mem hpush))
        · exact absurd (hym.mem hpush)
            ((hs.reporting x hx y hy r (hxm.mem hr) hnotEmpty).2 q)
        · simp [lockRank, hheld]
        · simp [lockRank, hheld]
      · exact absurd (hfree rfl) hnotEmpty
      · -- a thread that wakes the successor with the mutex of a request held
        refine absurd ?_ (hs.guarded y hy y hy ⟨r, .inr ⟨p, hheld, hym.before_mem hp'⟩⟩)
        exact ⟨by simp [hheld], p, hym.before_mem hp⟩
  | commFt c =>
      rcases holder_commFt hym.2 hm with ⟨rfl, r, q, rfl, hpush⟩ | ⟨rfl, -⟩
      · have hc : ¬ Completing S s (S.commOf r) := fun ⟨z, hz, p, hp, hpc⟩ =>
          hs.completing z hz y hy p r q hp hnotEmpty (hym.mem hpush) hpc
        simp [lockRank, hc]
      · simp only [lockRank]
        split <;> decide
  | pendingOps =>
      rcases holder_pendingOps hym.2 hm with ⟨hheld, r, rfl | rfl, hr⟩ | rfl
      · simp [lockRank, hheld]
      · have hc : Completing S s (S.commOf r) := ⟨y, hy, r, ⟨hheld, hym.before_mem hr⟩, rfl⟩
        simp [lockRank, hc]
      · simp [lockRank]
  | endpointFt =>
      obtain ⟨hheld, r, rfl, -⟩ := holder_endpointFt hym.2 hm
      simp [lockRank, hheld]

/-- The rank of what the thread `t` waits for. -/
noncomputable def Config.rank (S : Setting) (s : Config Mutex Call LockData) (t : ℕ) : ℕ :=
  match s.threads[t]? with
  | some x => match x.todo with
      | .lock m :: _ => lockRank S s x.held m
      | _ => 0
  | none => 0

theorem Config.rank_eq {t : ℕ} {m : Mutex} {rest : List LOp} (ht : s.threads[t]? = some x)
    (hx : x.todo = .lock m :: rest) : s.rank S t = lockRank S s x.held m := by
  simp [Config.rank, ht, hx]

/-- **No deadlock** where the threads that are stuck are apart. -/
theorem not_deadlock_of_apart (hinv : ThreadsInv (lockOrder S) s) (hs : Apart S s) :
    ¬ s.Deadlock := by
  rintro ⟨T, hT, hclosed⟩
  have hstuck : ∀ {t u}, s.WaitsFor t u → ∃ x y m rest, s.threads[t]? = some x ∧
      s.threads[u]? = some y ∧ x.StuckAt S m rest ∧ m ∈ y.held := fun hw => by
    obtain ⟨x, y, m, rest, hx, hy, htodo, hm⟩ := hinv.waitsFor hw
    have hok := hinv.fits _ x hx
    rw [htodo] at hok
    exact ⟨x, y, m, rest, hx, hy, ⟨htodo, hok.1⟩, hm⟩
  -- who waits for `waiters_mutex` here holds nothing
  have hfree : ∀ u ∈ T, ∀ y rest, s.threads[u]? = some y → y.StuckAt S .waiters rest →
      y.held = [] := by
    intro u hu y rest hy hyw
    rcases hyw.2 with ⟨hheld | ⟨q, hheld⟩, -⟩
    · exact hheld
    obtain ⟨v, hv, hwv⟩ := hclosed u hu
    obtain ⟨y', z, m, rest', hy', hz, hym, hm⟩ := hstuck hwv
    obtain rfl := Option.some.inj (hy.symm.trans hy')
    obtain ⟨w, -, hww⟩ := hclosed v hv
    obtain ⟨z', -, m', rest'', hz', -, hzm, -⟩ := hstuck hww
    obtain rfl := Option.some.inj (hz.symm.trans hz')
    obtain rfl : Mutex.waiters = m :=
      Op.lock.inj (List.cons.inj (hyw.1.symm.trans hym.1)).1
    obtain ⟨r, rfl, hr⟩ := holder_waiters hzm.2 hm
    exact absurd ⟨hm, r, hzm.before_mem hr⟩ (hs.guarded y (List.mem_of_getElem? hy) z
      (List.mem_of_getElem? hz) ⟨q, .inl ⟨hheld, rest, hyw.1⟩⟩)
  refine not_closed_of_rank hT hclosed (s.rank S) 7 (fun t ht u hu hw => ?_) (fun t ht => ?_)
  · obtain ⟨x, y, m, rest, hx, hy, hxm, hm⟩ := hstuck hw
    obtain ⟨v, -, hwv⟩ := hclosed u hu
    obtain ⟨y', -, m', rest', hy', -, hym, -⟩ := hstuck hwv
    obtain rfl := Option.some.inj (hy.symm.trans hy')
    rw [Config.rank_eq hx hxm.1, Config.rank_eq hy hym.1]
    refine lockRank_lt hs (List.mem_of_getElem? hx) (List.mem_of_getElem? hy) hxm hym hm ?_
    rintro rfl
    exact hfree u hu y rest' hy hym
  · obtain ⟨u, -, hw⟩ := hclosed t ht
    obtain ⟨x, -, m, rest, hx, -, hxm, -⟩ := hstuck hw
    rw [Config.rank_eq hx hxm.1]
    exact lockRank_le ..

theorem not_deadlock_idle (n : ℕ) (d : LockData) :
    ¬ (idle n d : Config Mutex Call LockData).Deadlock := by
  rintro ⟨T, ⟨t, ht⟩, hclosed⟩
  obtain ⟨u, -, x, y, hx, -, m, rest, hm⟩ := hclosed t ht
  simp only [idle, List.getElem?_replicate, Option.ite_none_right_eq_some,
    Option.some.injEq] at hx
  obtain ⟨-, rfl⟩ := hx
  rcases hm with ⟨htodo, -⟩ | ⟨htodo, -⟩ <;> cases htodo

/-- **Deadlock-free locking.**  However many threads call the endpoint, as long as those
that meet at the three places are kept apart no threads wait for each other. -/
theorem deadlockFree_of_careful (S : Setting) (n : ℕ) (d : LockData)
    {as : List (ThreadAction Call Branch)}
    (h : Meets (threadStep (endpointProgram S)) (fun s _ => Careful S s) (idle n d) as) :
    Always (threadStep (endpointProgram S)) (fun s => ¬ s.Deadlock) (idle n d) as := by
  have hinv : ∀ s a s', (ThreadsInv (lockOrder S) s ∧ ¬ s.Deadlock) → Careful S s →
      threadStep (endpointProgram S) s a = some s' →
      ThreadsInv (lockOrder S) s' ∧ ¬ s'.Deadlock := fun s a s' hs hc hstep =>
    ⟨hs.1.step hstep, not_deadlock_of_apart (hs.1.step hstep) (apart_of_careful hs.1 hc hstep)⟩
  exact Always.mono (fun _ hs => hs.2)
    (always_of_meets hinv ⟨threadsInv_idle n d, not_deadlock_idle n d⟩ h)

/-! ### Runs -/

/-- One communicator, which is not an any-comm. -/
def oneComm : Setting where
  comm _ := 0
  efficientProgress := true

/-- The thread `t` takes its next steps. -/
def takes (t : ℕ) (branches : List Branch) : List (ThreadAction Call Branch) :=
  branches.map (.step t)

/-- Thread 0 queues an operation for the request 0. -/
def queued : List (ThreadAction Call Branch) :=
  .begin 0 (.asyncPost (.user 0) .pendingOps) :: takes 0 (List.replicate 14 .continues)

/-- Then thread 1 hands it to the fabric and completes the request at once. -/
def completedAtOnce : List (ThreadAction Call Branch) :=
  queued ++ .begin 1 .progress :: takes 1
    ([.continues, .returns, .continues, .continues, .returns, .rejects] ++
      List.replicate 8 .continues)

theorem deadlockFree_completedAtOnce :
    Always (threadStep (endpointProgram oneComm)) (fun s => ¬ s.Deadlock)
      (idle 2 LockData.empty) completedAtOnce :=
  deadlockFree_of_careful oneComm 2 LockData.empty (by decide +kernel)

/-- The request of a queued operation is completed at once, while another operation of the
communicator is on its way to the queue. -/
def crossedLocks : List (ThreadAction Call Branch) :=
  queued ++ .begin 0 .progress :: takes 0
      [.continues, .returns, .continues, .continues, .returns, .rejects, .continues, .continues] ++
    .begin 1 (.asyncPost (.user 1) .pendingOps) :: takes 1 (List.replicate 5 .continues)

/-- **A deadlock.**  One thread holds `pending_ops_mutex` and waits for the communicator,
which the other holds, waiting for `pending_ops_mutex`. -/
theorem deadlockFree_crossedLocks :
    ¬ Always (threadStep (endpointProgram oneComm)) (fun s => ¬ s.Deadlock)
      (idle 2 LockData.empty) crossedLocks := by
  intro h
  have hrun : exec (threadStep (endpointProgram oneComm)) (idle 2 LockData.empty) crossedLocks =
      some ((exec (threadStep (endpointProgram oneComm)) (idle 2 LockData.empty)
        crossedLocks).get (by decide +kernel)) :=
    (Option.some_get _).symm
  refine h.last hrun ⟨{0, 1}, ⟨0, by simp⟩, ?_⟩
  rintro t (rfl | rfl)
  · exact ⟨1, by simp, _, _, rfl, rfl, .commFt 0, _, .inl ⟨rfl, .inl (by decide +kernel)⟩⟩
  · exact ⟨0, by simp, _, _, rfl, rfl, .pendingOps, _, .inl ⟨rfl, .inl (by decide +kernel)⟩⟩

/-- Thread 0 waits for a request that thread 1 tests, as leader. -/
def testedWhileWaiting : List (ThreadAction Call Branch) :=
  .begin 1 (.test (.user 0)) :: takes 1 (List.replicate 6 .continues) ++
    .begin 0 (.wait (.user 0)) :: takes 0
      [.continues, .continues, .continues, .continues, .continues] ++
    takes 1 ([.continues, .continues, .returns, .continues, .continues, .returns, .returns,
      .continues, .returns, .continues, .continues, .continues, .waiter 0] ++
      List.replicate 3 .continues)

/-- **A thread that waits for itself.**  `test` destroys its guard with the mutex of the
request held, and the successor waits for that request. -/
theorem deadlock_testedWhileWaiting :
    ¬ Always (threadStep (endpointProgram oneComm)) (fun s => ¬ s.Deadlock)
      (idle 2 LockData.empty) testedWhileWaiting := by
  intro h
  have hrun : exec (threadStep (endpointProgram oneComm)) (idle 2 LockData.empty)
      testedWhileWaiting =
      some ((exec (threadStep (endpointProgram oneComm)) (idle 2 LockData.empty)
        testedWhileWaiting).get (by decide +kernel)) :=
    (Option.some_get _).symm
  refine h.last hrun ⟨{1}, Set.singleton_nonempty 1, ?_⟩
  rintro t rfl
  exact ⟨1, rfl, _, _, rfl, rfl, .request (.user 0), _, .inl ⟨rfl, .inl (by decide +kernel)⟩⟩

end Locks
end Lfi
