/-
# The progress leader

A thread that waits for a request of an endpoint holds a `ProgressGuard`
(`src/include/impl/progress_guard.hpp`, `src/src/impl/progress_guard.cpp`).
Under `LFI_efficient_progress` at most one of the guards drives the endpoint, the
leader; the others sleep until their request is complete or leadership is handed
to them.  The constructor runs

    try_acquire();      // m_is_leader = !m_ep.in_progress.exchange(true)
    register_waiter();  // m_ep.waiters_list.push_back(this)

and the destructor

    unregister_waiter();         // m_ep.waiters_list.erase(this)
    transfer_leader_and_wake();  // to waiters_list.head, or in_progress.store(false)

and each of the four is one step.  A guard built with `requested = false` does
not try to acquire, but it is registered and can be handed leadership.

`GuardInv` ties the flag `in_progress` to the leader.  The acquisition and the
registration of a guard are two steps, and a leader that leaves in between finds
no waiter to hand on to: `noOrphan_iff` says that a registered waiter is without
a leader in exactly those runs in which a requesting guard registers while nobody
leads.
-/

import Lfi.Runs.Basic
import Mathlib.Data.List.Nodup
import Mathlib.Logic.Function.Basic

namespace Lfi
namespace Progress

open Runs

/-- How far a guard is: not constructed, past `try_acquire`, past
`register_waiter`, past `unregister_waiter`, destroyed. -/
inductive Phase where
  | absent
  | acquired
  | registered
  | unregistered
  | destroyed
  deriving DecidableEq, Repr

/-- Between the start of the constructor and the end of the destructor. -/
def Phase.Live (p : Phase) : Prop := p ≠ .absent ∧ p ≠ .destroyed

instance (p : Phase) : Decidable p.Live := inferInstanceAs (Decidable (_ ∧ _))

/-- A `ProgressGuard`: `m_requested` and `m_is_leader`. -/
structure Guard where
  phase : Phase
  requested : Bool
  isLeader : Bool

/-- An endpoint: `in_progress`, `waiters_list` and its guards. -/
structure Endpoint where
  inProgress : Bool
  waitersList : List ℕ
  guards : ℕ → Guard

/-- The steps of a guard. -/
inductive GuardAction where
  | tryAcquire (g : ℕ) (requested : Bool)
  | registerWaiter (g : ℕ)
  | unregisterWaiter (g : ℕ)
  | transferLeaderAndWake (g : ℕ)
  deriving DecidableEq, Repr

/-- An endpoint nobody waits on. -/
def endpointInit : Endpoint := ⟨false, [], fun _ => ⟨.absent, false, false⟩⟩

/-- The endpoint with the guard `g` replaced. -/
def Endpoint.setGuard (s : Endpoint) (g : ℕ) (x : Guard) : Endpoint :=
  { s with guards := Function.update s.guards g x }

/-- `try_acquire`: a requesting guard swaps `in_progress` for true, and leads if
it was false. -/
def tryAcquire (s : Endpoint) (g : ℕ) (requested : Bool) : Endpoint :=
  if requested then
    { s with inProgress := true }.setGuard g ⟨.acquired, true, !s.inProgress⟩
  else s.setGuard g ⟨.acquired, false, false⟩

/-- `register_waiter`. -/
def registerWaiter (s : Endpoint) (g : ℕ) : Endpoint :=
  { s with waitersList := s.waitersList ++ [g] }.setGuard g
    { s.guards g with phase := .registered }

/-- `unregister_waiter`. -/
def unregisterWaiter (s : Endpoint) (g : ℕ) : Endpoint :=
  { s with waitersList := s.waitersList.erase g }.setGuard g
    { s.guards g with phase := .unregistered }

/-- `transfer_leader_and_wake`: a leader hands on to the first waiter, and
releases leadership when there is none. -/
def transferLeaderAndWake (s : Endpoint) (g : ℕ) : Endpoint :=
  let x := s.guards g
  if x.isLeader then
    match s.waitersList with
    | successor :: _ =>
        (s.setGuard g { x with phase := .destroyed, isLeader := false }).setGuard successor
          { s.guards successor with isLeader := true }
    | [] =>
        { s with inProgress := false }.setGuard g { x with phase := .destroyed, isLeader := false }
  else s.setGuard g { x with phase := .destroyed }

/-- One step of the guards of an endpoint; each guard takes its four steps in
order. -/
def guardStep (s : Endpoint) : GuardAction → Option Endpoint
  | .tryAcquire g requested =>
      if (s.guards g).phase = .absent then some (tryAcquire s g requested) else none
  | .registerWaiter g =>
      if (s.guards g).phase = .acquired then some (registerWaiter s g) else none
  | .unregisterWaiter g =>
      if (s.guards g).phase = .registered then some (unregisterWaiter s g) else none
  | .transferLeaderAndWake g =>
      if (s.guards g).phase = .unregistered then some (transferLeaderAndWake s g) else none

/-- A requesting guard is in `waiters_list`. -/
def Waiting (s : Endpoint) : Prop :=
  ∃ g, (s.guards g).phase = .registered ∧ (s.guards g).requested = true

/-- Leadership is held: `in_progress` is set and a live guard leads. -/
def Held (s : Endpoint) : Prop :=
  s.inProgress = true ∧ ∃ g, (s.guards g).phase.Live ∧ (s.guards g).isLeader = true

/-- **No orphaned waiter.**  While a requesting guard waits, leadership is held. -/
def NoOrphan (s : Endpoint) : Prop := Waiting s → Held s

/-- Leadership has not been released when a requesting guard registers. -/
def RegistersUnderLeader (s : Endpoint) : GuardAction → Prop
  | .registerWaiter g => (s.guards g).requested = true → s.inProgress = true
  | _ => True

/-! ### The flag and the leader -/

/-- What holds at every point of a run, for the guard that leads, if any: the
waiters are the registered guards, the leader is live and no other guard says it
leads, and `in_progress` is set exactly while there is one. -/
structure GuardInv (s : Endpoint) (leader : Option ℕ) : Prop where
  nodup : s.waitersList.Nodup
  mem_waiters : ∀ g, g ∈ s.waitersList ↔ (s.guards g).phase = .registered
  isLeader_iff : ∀ g, (s.guards g).isLeader = true ↔ leader = some g
  live : ∀ g, leader = some g → (s.guards g).phase.Live
  held : s.inProgress = leader.isSome

variable {s t : Endpoint} {leader : Option ℕ}

theorem Endpoint.setGuard_guards (g h : ℕ) (x : Guard) :
    (s.setGuard g x).guards h = if h = g then x else s.guards h := by
  simp only [Endpoint.setGuard, Function.update_apply]

@[simp] theorem Endpoint.setGuard_inProgress (g : ℕ) (x : Guard) :
    (s.setGuard g x).inProgress = s.inProgress := rfl

@[simp] theorem Endpoint.setGuard_waitersList (g : ℕ) (x : Guard) :
    (s.setGuard g x).waitersList = s.waitersList := rfl

/-- Leadership is held exactly while the flag is set. -/
theorem GuardInv.held_iff (hs : GuardInv s leader) : Held s ↔ s.inProgress = true := by
  refine ⟨fun h => h.1, fun h => ⟨h, ?_⟩⟩
  obtain ⟨g, hg⟩ := Option.isSome_iff_exists.1 (hs.held ▸ h)
  exact ⟨g, hs.live g hg, (hs.isLeader_iff g).2 hg⟩

/-- A guard that is not live does not lead. -/
theorem GuardInv.ne_leader (hs : GuardInv s leader) {g : ℕ} (hg : ¬ (s.guards g).phase.Live) :
    leader ≠ some g := fun h => hg (hs.live g h)

theorem guardInv_init : GuardInv endpointInit none := by
  constructor <;> simp [endpointInit]

theorem tryAcquire_guards (s : Endpoint) (g : ℕ) (requested : Bool) (h : ℕ) :
    (tryAcquire s g requested).guards h =
      if h = g then ⟨.acquired, requested, requested && !s.inProgress⟩ else s.guards h := by
  cases requested <;> simp [tryAcquire, Endpoint.setGuard_guards]

theorem GuardInv.tryAcquire (hs : GuardInv s leader) {g : ℕ}
    (hg : (s.guards g).phase = .absent) (requested : Bool) :
    GuardInv (tryAcquire s g requested)
      (if requested ∧ s.inProgress = false then some g else leader) := by
  have hlead : leader ≠ some g := hs.ne_leader (by rw [hg]; decide)
  have hmem : g ∉ s.waitersList := by rw [hs.mem_waiters, hg]; decide
  have hheld := hs.held
  have hguards := tryAcquire_guards s g requested
  have hwaiters : (Progress.tryAcquire s g requested).waitersList = s.waitersList := by
    cases requested <;> rfl
  refine ⟨hwaiters ▸ hs.nodup, fun h => ?_, fun h => ?_, fun h => ?_, ?_⟩
  · rw [hwaiters, hguards]
    by_cases hh : h = g
    · simp [hh, hmem]
    · simp [hh, hs.mem_waiters]
  · rw [hguards]
    by_cases hh : h = g
    · subst hh
      cases requested <;> cases hf : s.inProgress <;> simp [hlead]
    · rw [if_neg hh, hs.isLeader_iff]
      split
      case isTrue hwin =>
        have hnone : leader = none := by
          rw [hwin.2] at hheld
          exact Option.not_isSome_iff_eq_none.1 (by rw [← hheld]; decide)
        simp [hnone, Ne.symm hh]
      case isFalse => exact Iff.rfl
  · rw [hguards]
    by_cases hh : h = g
    · rw [if_pos hh]; exact fun _ => ⟨nofun, nofun⟩
    · rw [if_neg hh]
      split
      case isTrue => intro hgh; exact absurd (Option.some.inj hgh).symm hh
      case isFalse => exact hs.live h
  · cases requested <;> cases hf : s.inProgress <;>
      simp_all [Progress.tryAcquire]

/-- Changing the phase of a guard to a live one, with the list of waiters
following it, keeps the invariant. -/
theorem GuardInv.setPhase (hs : GuardInv s leader) {g : ℕ} {l : List ℕ} {p : Phase}
    (hp : p.Live) (hl : l.Nodup)
    (hmem : ∀ h, h ∈ l ↔ if h = g then p = .registered else (s.guards h).phase = .registered) :
    GuardInv ({ s with waitersList := l }.setGuard g { s.guards g with phase := p }) leader := by
  refine ⟨hl, fun h => ?_, fun h => ?_, fun h => ?_, hs.held⟩ <;>
    rw [Endpoint.setGuard_guards]
  · exact (hmem h).trans (by split <;> rfl)
  · rw [← hs.isLeader_iff]
    split
    case isTrue hh => rw [hh]
    case isFalse => rfl
  · split
    case isTrue => exact fun _ => hp
    case isFalse => exact hs.live h

theorem GuardInv.registerWaiter (hs : GuardInv s leader) {g : ℕ}
    (hg : (s.guards g).phase = .acquired) : GuardInv (registerWaiter s g) leader := by
  have hmem : g ∉ s.waitersList := by rw [hs.mem_waiters, hg]; decide
  refine hs.setPhase (by decide) ?_ fun h => ?_
  · exact List.nodup_append.2 ⟨hs.nodup, List.nodup_singleton g,
      fun a ha b hb => by rintro rfl; exact hmem (List.mem_singleton.1 hb ▸ ha)⟩
  · by_cases hh : h = g
    · simp [hh]
    · simp [hh, hs.mem_waiters]

theorem GuardInv.unregisterWaiter (hs : GuardInv s leader) {g : ℕ} :
    GuardInv (unregisterWaiter s g) leader := by
  refine hs.setPhase (by decide) (hs.nodup.erase g) fun h => ?_
  by_cases hh : h = g
  · simp [hh, hs.nodup.not_mem_erase]
  · rw [List.mem_erase_of_ne hh, hs.mem_waiters, if_neg hh]

/-- A leader that leaves hands on to the first waiter. -/
theorem GuardInv.transferLeaderAndWake (hs : GuardInv s leader) {g : ℕ}
    (hg : (s.guards g).phase = .unregistered) :
    GuardInv (transferLeaderAndWake s g)
      (if leader = some g then s.waitersList.head? else leader) := by
  have hmem : g ∉ s.waitersList := by rw [hs.mem_waiters, hg]; decide
  have hne : ∀ h, (s.guards h).phase = .registered → h ≠ g := fun h hh => by
    rintro rfl; rw [hg] at hh; cases hh
  unfold Progress.transferLeaderAndWake
  by_cases hlead : leader = some g
  · rw [if_pos ((hs.isLeader_iff g).2 hlead), if_pos hlead]
    cases hw : s.waitersList with
    | nil =>
        refine ⟨List.nodup_nil, fun h => ?_, fun h => ?_, nofun, rfl⟩ <;>
          rw [Endpoint.setGuard_guards]
        · by_cases hh : h = g
          · simp [hh]
          · rw [if_neg hh, ← hs.mem_waiters h, hw]; rfl
        · by_cases hh : h = g
          · simp [hh]
          · simp [hh, hs.isLeader_iff, hlead, Ne.symm hh]
    | cons w l =>
        have hwr : (s.guards w).phase = .registered := (hs.mem_waiters w).1 (by simp [hw])
        have hwg : w ≠ g := hne w hwr
        refine ⟨hs.nodup, fun h => ?_, fun h => ?_, fun h hh => ?_, ?_⟩
        · simp only [Endpoint.setGuard_guards, Endpoint.setGuard_waitersList]
          by_cases hh : h = w
          · simp [hh, hs.mem_waiters, hwr]
          · by_cases hhg : h = g
            · simp [hhg, hmem, Ne.symm hwg]
            · simp [hh, hhg, hs.mem_waiters]
        · simp only [Endpoint.setGuard_guards, List.head?_cons]
          by_cases hh : h = w
          · simp [hh]
          · by_cases hhg : h = g
            · simp [hhg, Ne.symm hwg, hwg]
            · simp [hh, hhg, hs.isLeader_iff, hlead, Ne.symm hh, Ne.symm hhg]
        · obtain rfl : w = h := by simpa using hh
          simp only [Endpoint.setGuard_guards, if_true, hwr]
          decide
        · simp [hs.held, hlead]
  · rw [if_neg (by rw [hs.isLeader_iff]; exact hlead), if_neg hlead]
    refine ⟨hs.nodup, fun h => ?_, fun h => ?_, fun h hh => ?_, hs.held⟩ <;>
      rw [Endpoint.setGuard_guards]
    · by_cases hh : h = g
      · simp [hh, hmem]
      · rw [if_neg hh]; exact hs.mem_waiters h
    · by_cases hh : h = g
      · simp [hh, hs.isLeader_iff, hlead]
      · rw [if_neg hh]; exact hs.isLeader_iff h
    · rw [if_neg (by rintro rfl; exact hlead hh)]
      exact hs.live h hh

/-- The four steps. -/
theorem guardStep_cases {a : GuardAction} (h : guardStep s a = some t) :
    (∃ g requested, a = .tryAcquire g requested ∧ (s.guards g).phase = .absent ∧
      t = tryAcquire s g requested) ∨
    (∃ g, a = .registerWaiter g ∧ (s.guards g).phase = .acquired ∧ t = registerWaiter s g) ∨
    (∃ g, a = .unregisterWaiter g ∧ (s.guards g).phase = .registered ∧
      t = unregisterWaiter s g) ∨
    (∃ g, a = .transferLeaderAndWake g ∧ (s.guards g).phase = .unregistered ∧
      t = transferLeaderAndWake s g) := by
  cases a with
  | tryAcquire g requested =>
      exact .inl ⟨g, requested, rfl, by simpa [guardStep, eq_comm] using h⟩
  | registerWaiter g => exact .inr (.inl ⟨g, rfl, by simpa [guardStep, eq_comm] using h⟩)
  | unregisterWaiter g =>
      exact .inr (.inr (.inl ⟨g, rfl, by simpa [guardStep, eq_comm] using h⟩))
  | transferLeaderAndWake g =>
      exact .inr (.inr (.inr ⟨g, rfl, by simpa [guardStep, eq_comm] using h⟩))

/-- **The invariant survives every step.** -/
theorem GuardInv.step (hs : ∃ leader, GuardInv s leader) {a : GuardAction}
    (h : guardStep s a = some t) : ∃ leader, GuardInv t leader := by
  obtain ⟨leader, hs⟩ := hs
  rcases guardStep_cases h with ⟨g, r, -, hg, rfl⟩ | ⟨g, -, hg, rfl⟩ | ⟨g, -, hg, rfl⟩ |
    ⟨g, -, hg, rfl⟩
  · exact ⟨_, hs.tryAcquire hg r⟩
  · exact ⟨_, hs.registerWaiter hg⟩
  · exact ⟨_, hs.unregisterWaiter⟩
  · exact ⟨_, hs.transferLeaderAndWake hg⟩

/-! ### Orphaned waiters -/

/-- A step that adds no waiter and does not release leadership under one orphans
nobody. -/
theorem GuardInv.noOrphan (hs : GuardInv s leader) {leader' : Option ℕ}
    (ht : GuardInv t leader') (hno : NoOrphan s) (hw : Waiting t → Waiting s)
    (hp : Waiting s → s.inProgress = true → t.inProgress = true) : NoOrphan t :=
  fun h => ht.held_iff.2 (hp (hw h) (hs.held_iff.1 (hno (hw h))))

theorem waiting_tryAcquire {g : ℕ} {requested : Bool} (h : Waiting (tryAcquire s g requested)) :
    Waiting s := by
  obtain ⟨k, hk⟩ := h
  rw [tryAcquire_guards] at hk
  by_cases hkg : k = g
  · rw [if_pos hkg] at hk; cases hk.1
  · rw [if_neg hkg] at hk; exact ⟨k, hk⟩

theorem waiting_registerWaiter {g : ℕ} :
    Waiting (registerWaiter s g) → (s.guards g).requested = true ∨ Waiting s := by
  rintro ⟨k, hk⟩
  rw [registerWaiter, Endpoint.setGuard_guards] at hk
  by_cases hkg : k = g
  · rw [if_pos hkg] at hk; exact .inl hk.2
  · rw [if_neg hkg] at hk; exact .inr ⟨k, hk⟩

theorem waiting_unregisterWaiter {g : ℕ} (h : Waiting (unregisterWaiter s g)) : Waiting s := by
  obtain ⟨k, hk⟩ := h
  rw [unregisterWaiter, Endpoint.setGuard_guards] at hk
  by_cases hkg : k = g
  · rw [if_pos hkg] at hk; cases hk.1
  · rw [if_neg hkg] at hk; exact ⟨k, hk⟩

theorem waiting_transferLeaderAndWake {g : ℕ} (h : Waiting (transferLeaderAndWake s g)) :
    Waiting s := by
  obtain ⟨k, hk⟩ := h
  refine ⟨k, ?_⟩
  unfold transferLeaderAndWake at hk
  by_cases hl : (s.guards g).isLeader = true
  · rw [if_pos hl] at hk
    cases hw : s.waitersList with
    | nil =>
        rw [hw] at hk
        by_cases hkg : k = g <;> simp_all [Endpoint.setGuard_guards]
    | cons w l =>
        rw [hw] at hk
        by_cases hkw : k = w <;> by_cases hkg : k = g <;> simp_all [Endpoint.setGuard_guards]
  · rw [if_neg hl] at hk
    by_cases hkg : k = g <;> simp_all [Endpoint.setGuard_guards]

/-- Leadership is not released while somebody waits. -/
theorem GuardInv.transfer_inProgress (hs : GuardInv s leader) {g : ℕ} (hw : Waiting s) :
    (Progress.transferLeaderAndWake s g).inProgress = s.inProgress := by
  obtain ⟨k, hk, -⟩ := hw
  have hmem := (hs.mem_waiters k).2 hk
  unfold Progress.transferLeaderAndWake
  by_cases hl : (s.guards g).isLeader = true
  · rw [if_pos hl]
    cases hw : s.waitersList with
    | nil => rw [hw] at hmem; cases hmem
    | cons w l => rfl
  · rw [if_neg hl]; rfl

/-- A step orphans a waiter exactly if it registers one after the leader left. -/
theorem GuardInv.noOrphan_step (hs : GuardInv s leader) (hno : NoOrphan s) {a : GuardAction}
    (h : guardStep s a = some t) : NoOrphan t ↔ RegistersUnderLeader s a := by
  obtain ⟨leader', ht⟩ := GuardInv.step ⟨leader, hs⟩ h
  rcases guardStep_cases h with ⟨g, r, rfl, -, rfl⟩ | ⟨g, rfl, -, rfl⟩ | ⟨g, rfl, -, rfl⟩ |
    ⟨g, rfl, -, rfl⟩
  · refine iff_of_true (hs.noOrphan ht hno waiting_tryAcquire fun _ hp => ?_) trivial
    cases r <;> simp [Progress.tryAcquire, hp]
  · constructor
    · intro hnt hreq
      exact (hnt ⟨g, by simp [Progress.registerWaiter, Endpoint.setGuard_guards, hreq]⟩).1
    · intro hG hwt
      refine ht.held_iff.2 ?_
      rcases waiting_registerWaiter hwt with hreq | hw
      · exact hG hreq
      · exact hs.held_iff.1 (hno hw)
  · exact iff_of_true (hs.noOrphan ht hno waiting_unregisterWaiter fun _ hp => hp) trivial
  · exact iff_of_true (hs.noOrphan ht hno waiting_transferLeaderAndWake
      fun hw hp => (hs.transfer_inProgress hw).trans hp) trivial

/-- **When no waiter is orphaned.**  In a run of the guards of an endpoint a
registered, requesting guard has a leader in every state exactly if `in_progress` is
set each time such a guard registers.  It was set when the guard lost the exchange; a
leader may have released since, if another has acquired. -/
theorem noOrphan_iff (as : List GuardAction) (s : Endpoint)
    (h : exec guardStep endpointInit as = some s) :
    Always guardStep NoOrphan endpointInit as ↔
      Meets guardStep RegistersUnderLeader endpointInit as :=
  always_iff_meets (I := fun s => ∃ leader, GuardInv s leader)
    (fun _ _ _ hs _ ht _ => GuardInv.step hs ht)
    (fun _ _ _ ⟨_, hs⟩ hno ht => hs.noOrphan_step hno ht)
    ⟨none, guardInv_init⟩ (fun ⟨g, hg, _⟩ => by cases hg) h

/-- Guard 1 loses the exchange and registers before the leader leaves. -/
def handedOn : List GuardAction :=
  [.tryAcquire 0 true, .registerWaiter 0, .tryAcquire 1 true, .registerWaiter 1,
    .unregisterWaiter 0, .transferLeaderAndWake 0]

/-- Guard 1 loses the exchange, and the leader leaves before it registers. -/
def orphaned : List GuardAction :=
  [.tryAcquire 0 true, .registerWaiter 0, .tryAcquire 1 true, .unregisterWaiter 0,
    .transferLeaderAndWake 0, .registerWaiter 1]

/-- `noOrphan_iff` at a run in which leadership is handed on. -/
theorem noOrphan_handedOn :
    Always guardStep NoOrphan endpointInit handedOn ↔
      Meets guardStep RegistersUnderLeader endpointInit handedOn :=
  noOrphan_iff handedOn ((exec guardStep endpointInit handedOn).get (by decide))
    (Option.some_get _).symm

/-- **A waiter can be orphaned.**  Guard 1 waits, registered, and nobody leads. -/
theorem noOrphan_orphaned :
    ¬ ∀ as s, exec guardStep endpointInit as = some s → NoOrphan s := by
  intro h
  have hno := h orphaned ((exec guardStep endpointInit orphaned).get (by decide))
    (Option.some_get _).symm
  have hheld := hno ⟨1, by decide⟩
  exact absurd hheld.1 (by decide)

end Progress
end Lfi
