/-
# A single leader, at every point in between

`Lfi.Progress.Guard` takes each of the four parts of a `ProgressGuard` as one step.
Here they are what the processor sees: in `try_acquire` the exchange of `in_progress`
and the store to `m_is_leader`, and in

    void ProgressGuard::transfer_leader_and_wake() {
        if (!m_is_leader) return;
        std::unique_lock lock(m_ep.waiters_mutex);
        ProgressGuard* successor = m_ep.waiters_list.head;
        if (successor) {
            this->m_is_leader = false;
            successor->m_is_leader = true;
            ...
        } else {
            m_ep.in_progress.store(false);
            m_is_leader = false;
        }
    }

the check, the lock and each of the stores.  Between two of them every other guard can
go on, as far as `waiters_mutex` lets it.  Whoever holds a guard that is fully
constructed can run `progress()` while the guard says it leads.

The steps in between are invisible to `Guard`: `coarse_step` says that every step here
is one there or none, so its invariant holds here too, and `single_leader` follows.
-/

import Lfi.Progress.Guard

namespace Lfi
namespace Progress

open Runs

/-- What a guard does next: the exchange, the store of what it won, the registration,
nothing while it is registered, the check, the lock, the choice under the lock, the
store to the successor, the store to itself after `in_progress`. -/
inductive Pc where
  | absent
  | started
  | exchanged (won : Bool)
  | acquired
  | registered
  | unregistered
  | leaving
  | locked
  | handing (successor : ℕ)
  | released
  | destroyed
  deriving DecidableEq, Repr

/-- From the start of the constructor until the destructor is past the
unregistration. -/
def Pc.Live : Pc → Prop
  | .started | .exchanged _ | .acquired | .registered => True
  | _ => False

/-- The guard has left `waiters_list`. -/
def Pc.Left : Pc → Prop
  | .unregistered | .leaving | .locked | .handing _ | .released | .destroyed => True
  | _ => False

instance (pc : Pc) : Decidable pc.Live := by cases pc <;> unfold Pc.Live <;> infer_instance

instance (pc : Pc) : Decidable pc.Left := by cases pc <;> unfold Pc.Left <;> infer_instance

/-- A guard, with whether its holder is inside `progress()`. -/
structure FineGuard where
  pc : Pc
  requested : Bool
  isLeader : Bool
  running : Bool
  deriving DecidableEq, Repr

/-- An endpoint: `in_progress`, `waiters_list`, the guard that holds `waiters_mutex`
across steps, and the guards. -/
structure FineEndpoint where
  inProgress : Bool
  waitersList : List ℕ
  waitersMutex : Option ℕ
  guards : ℕ → FineGuard

/-- The constructor starts, a guard takes its next step, its holder enters or leaves
`progress()`. -/
inductive FineAction where
  | construct (g : ℕ) (requested : Bool)
  | step (g : ℕ)
  | beginProgress (g : ℕ)
  | endProgress (g : ℕ)
  deriving DecidableEq, Repr

/-- An endpoint nobody waits on. -/
def fineInit : FineEndpoint := ⟨false, [], none, fun _ => ⟨.absent, false, false, false⟩⟩

/-- The endpoint with the guard `g` replaced. -/
def FineEndpoint.setGuard (s : FineEndpoint) (g : ℕ) (x : FineGuard) : FineEndpoint :=
  { s with guards := Function.update s.guards g x }

/-- The next step of the guard `g`. -/
def pcStep (s : FineEndpoint) (g : ℕ) : Option FineEndpoint :=
  let x := s.guards g
  match x.pc with
  | .started =>
      if x.requested then
        some ({ s with inProgress := true }.setGuard g { x with pc := .exchanged (!s.inProgress) })
      else some (s.setGuard g { x with pc := .acquired })
  | .exchanged won => some (s.setGuard g { x with pc := .acquired, isLeader := won })
  | .acquired =>
      if s.waitersMutex = none then
        some ({ s with waitersList := s.waitersList ++ [g] }.setGuard g
          { x with pc := .registered })
      else none
  | .registered =>
      if s.waitersMutex = none ∧ x.running = false then
        some ({ s with waitersList := s.waitersList.erase g }.setGuard g
          { x with pc := .unregistered })
      else none
  | .unregistered =>
      some (s.setGuard g { x with pc := if x.isLeader then .leaving else .destroyed })
  | .leaving =>
      if s.waitersMutex = none then
        some ({ s with waitersMutex := some g }.setGuard g { x with pc := .locked })
      else none
  | .locked =>
      match s.waitersList with
      | successor :: _ =>
          some (s.setGuard g { x with pc := .handing successor, isLeader := false })
      | [] => some ({ s with inProgress := false }.setGuard g { x with pc := .released })
  | .handing successor =>
      some (({ s with waitersMutex := none }.setGuard g { x with pc := .destroyed }).setGuard
        successor { s.guards successor with isLeader := true })
  | .released =>
      some ({ s with waitersMutex := none }.setGuard g
        { x with pc := .destroyed, isLeader := false })
  | .absent | .destroyed => none

/-- One step. -/
def fineStep (s : FineEndpoint) : FineAction → Option FineEndpoint
  | .construct g requested =>
      if (s.guards g).pc = .absent then
        some (s.setGuard g ⟨.started, requested, false, false⟩)
      else none
  | .step g => pcStep s g
  | .beginProgress g =>
      if (s.guards g).pc = .registered ∧ (s.guards g).isLeader = true then
        some (s.setGuard g { s.guards g with running := true })
      else none
  | .endProgress g =>
      if (s.guards g).running = true then
        some (s.setGuard g { s.guards g with running := false })
      else none

/-- **Single leader.**  At most one live guard leads, `in_progress` is set while one
does, and `progress()` is run by one guard holder at a time. -/
structure SingleLeader (s : FineEndpoint) : Prop where
  unique : ∀ g h, (s.guards g).pc.Live → (s.guards h).pc.Live →
    (s.guards g).isLeader = true → (s.guards h).isLeader = true → g = h
  inProgress : ∀ g, (s.guards g).pc.Live → (s.guards g).isLeader = true → s.inProgress = true
  running : ∀ g h, (s.guards g).running = true → (s.guards h).running = true → g = h

/-! ### The four parts behind the steps -/

/-- The guard of `Lfi.Progress.Guard`: it has acquired with the exchange, leads until
the successor does, and is destroyed when it has released leadership. -/
def FineGuard.coarse (x : FineGuard) : Guard :=
  match x.pc with
  | .absent | .started => ⟨.absent, false, false⟩
  | .exchanged won => ⟨.acquired, x.requested, won⟩
  | .acquired => ⟨.acquired, x.requested, x.isLeader⟩
  | .registered => ⟨.registered, x.requested, x.isLeader⟩
  | .unregistered | .leaving | .locked => ⟨.unregistered, x.requested, x.isLeader⟩
  | .handing _ => ⟨.unregistered, x.requested, true⟩
  | .released => ⟨.destroyed, x.requested, false⟩
  | .destroyed => ⟨.destroyed, x.requested, x.isLeader⟩

/-- The endpoint of `Lfi.Progress.Guard`. -/
def FineEndpoint.coarse (s : FineEndpoint) : Endpoint :=
  ⟨s.inProgress, s.waitersList, fun g => (s.guards g).coarse⟩

/-- What is known of a guard `g` where it stands, given the list and who holds the
mutex. -/
def Placed (waiters : List ℕ) (mutex : Option ℕ) (g : ℕ) (x : FineGuard) : Prop :=
  match x.pc with
  | .absent | .started => x.isLeader = false
  | .exchanged _ => x.requested = true ∧ x.isLeader = false
  | .acquired | .registered | .unregistered => True
  | .leaving => x.isLeader = true
  | .locked => mutex = some g ∧ x.isLeader = true
  | .handing successor => mutex = some g ∧ waiters.head? = some successor ∧ x.isLeader = false
  | .released => mutex = some g
  | .destroyed => x.isLeader = false

/-- What a guard `g` may look like: `progress()` is run while it is registered and leads. -/
def Sound (waiters : List ℕ) (mutex : Option ℕ) (g : ℕ) (x : FineGuard) : Prop :=
  (x.running = true → x.pc = .registered ∧ x.isLeader = true) ∧ Placed waiters mutex g x

/-- What holds at every point of a run. -/
structure FineInv (s : FineEndpoint) : Prop where
  sound : ∀ g, Sound s.waitersList s.waitersMutex g (s.guards g)
  coarse : ∃ leader, GuardInv s.coarse leader

variable {s t : FineEndpoint} {g h : ℕ} {x : FineGuard}

theorem FineEndpoint.setGuard_guards (s : FineEndpoint) (g h : ℕ) (x : FineGuard) :
    (s.setGuard g x).guards h = if h = g then x else s.guards h := by
  simp only [FineEndpoint.setGuard, Function.update_apply]

theorem FineEndpoint.coarse_setGuard (s : FineEndpoint) (g : ℕ) (x : FineGuard) :
    (s.setGuard g x).coarse = s.coarse.setGuard g x.coarse := by
  unfold FineEndpoint.coarse Endpoint.setGuard
  congr 1
  funext h
  rw [FineEndpoint.setGuard_guards, Function.update_apply]
  split <;> rfl

/-- A step that shows nothing. -/
theorem FineEndpoint.coarse_setGuard_same (hx : x.coarse = (s.guards g).coarse) :
    (s.setGuard g x).coarse = s.coarse := by
  rw [coarse_setGuard, hx]
  unfold Endpoint.setGuard
  rw [show (s.guards g).coarse = s.coarse.guards g from rfl, Function.update_eq_self]

/-- A registered guard shows as one. -/
theorem FineGuard.pc_of_coarse (hx : x.coarse.phase = .registered) : x.pc = .registered := by
  unfold FineGuard.coarse at hx
  split at hx <;> first | assumption | cases hx

/-- Who does not hold the mutex does not care about it nor about the list. -/
theorem Sound.change {l l' : List ℕ} {m m' : Option ℕ} (hx : Sound l m g x) (hm : m ≠ some g) :
    Sound l' m' g x := by
  refine ⟨hx.1, ?_⟩
  have hpc := hx.2
  unfold Placed at hpc ⊢
  split <;> rename_i heq <;> rw [heq] at hpc <;>
    first | exact hpc | exact absurd hpc hm | exact absurd hpc.1 hm

/-- One guard takes a step, and the list and the mutex follow. -/
theorem sound_setGuard (hs : ∀ h, Sound s.waitersList s.waitersMutex h (s.guards h))
    {u : FineEndpoint} (hu : u.guards = s.guards)
    (hother : ∀ h, h ≠ g → s.waitersMutex ≠ some h ∨
      (u.waitersList = s.waitersList ∧ u.waitersMutex = s.waitersMutex))
    (hx : Sound u.waitersList u.waitersMutex g x) :
    ∀ h, Sound (u.setGuard g x).waitersList (u.setGuard g x).waitersMutex h
      ((u.setGuard g x).guards h) := by
  intro h
  rw [FineEndpoint.setGuard_guards]
  split
  case isTrue hh => exact hh ▸ hx
  case isFalse hh =>
    rw [hu]
    rcases hother h hh with hm | ⟨hl, hm⟩
    · exact (hs h).change hm
    · rw [show (u.setGuard g x).waitersList = s.waitersList from hl,
        show (u.setGuard g x).waitersMutex = s.waitersMutex from hm]
      exact hs h

/-- The successor is registered. -/
theorem FineInv.successor (hs : FineInv s) {w : ℕ} (hg : (s.guards g).pc = .handing w) :
    (s.guards w).pc = .registered := by
  obtain ⟨leader, hinv⟩ := hs.coarse
  have hhead := (hs.sound g).2
  rw [Placed, hg] at hhead
  refine FineGuard.pc_of_coarse ((hinv.mem_waiters w).1 ?_)
  exact List.mem_of_mem_head? (Option.mem_def.2 hhead.2.1)

/-- What the next step of a guard does, by where the guard stands. -/
inductive PcMoves (s : FineEndpoint) (g : ℕ) : FineEndpoint → Prop where
  | exchange (hpc : (s.guards g).pc = .started) (hreq : (s.guards g).requested = true) :
      PcMoves s g ({ s with inProgress := true }.setGuard g
        { s.guards g with pc := .exchanged (!s.inProgress) })
  | skip (hpc : (s.guards g).pc = .started) (hreq : ¬ (s.guards g).requested = true) :
      PcMoves s g (s.setGuard g { s.guards g with pc := .acquired })
  | acquire {won} (hpc : (s.guards g).pc = .exchanged won) :
      PcMoves s g (s.setGuard g { s.guards g with pc := .acquired, isLeader := won })
  | register (hpc : (s.guards g).pc = .acquired) (hm : s.waitersMutex = none) :
      PcMoves s g ({ s with waitersList := s.waitersList ++ [g] }.setGuard g
        { s.guards g with pc := .registered })
  | unregister (hpc : (s.guards g).pc = .registered) (hm : s.waitersMutex = none)
      (hidle : (s.guards g).running = false) :
      PcMoves s g ({ s with waitersList := s.waitersList.erase g }.setGuard g
        { s.guards g with pc := .unregistered })
  | leave (hpc : (s.guards g).pc = .unregistered) :
      PcMoves s g (s.setGuard g
        { s.guards g with pc := if (s.guards g).isLeader then .leaving else .destroyed })
  | lock (hpc : (s.guards g).pc = .leaving) (hm : s.waitersMutex = none) :
      PcMoves s g ({ s with waitersMutex := some g }.setGuard g
        { s.guards g with pc := .locked })
  | choose {successor rest} (hpc : (s.guards g).pc = .locked)
      (hw : s.waitersList = successor :: rest) :
      PcMoves s g (s.setGuard g
        { s.guards g with pc := .handing successor, isLeader := false })
  | release (hpc : (s.guards g).pc = .locked) (hw : s.waitersList = []) :
      PcMoves s g ({ s with inProgress := false }.setGuard g
        { s.guards g with pc := .released })
  | hand {successor} (hpc : (s.guards g).pc = .handing successor) :
      PcMoves s g (({ s with waitersMutex := none }.setGuard g
        { s.guards g with pc := .destroyed }).setGuard successor
          { s.guards successor with isLeader := true })
  | unlock (hpc : (s.guards g).pc = .released) :
      PcMoves s g ({ s with waitersMutex := none }.setGuard g
        { s.guards g with pc := .destroyed, isLeader := false })

/-- **What a guard can do next.** -/
theorem pcStep_cases (h : pcStep s g = some t) : PcMoves s g t := by
  unfold pcStep at h
  dsimp only at h
  split at h <;> rename_i hpc
  case h_1 =>
    split at h <;> obtain rfl := Option.some.inj h
    case isTrue hreq => exact .exchange hpc hreq
    case isFalse hreq => exact .skip hpc hreq
  case h_2 won =>
    obtain rfl := Option.some.inj h
    exact .acquire hpc
  case h_3 =>
    obtain ⟨hm, h⟩ := Option.ite_none_right_eq_some.1 h
    obtain rfl := Option.some.inj h
    exact .register hpc hm
  case h_4 =>
    obtain ⟨hm, h⟩ := Option.ite_none_right_eq_some.1 h
    obtain rfl := Option.some.inj h
    exact .unregister hpc hm.1 hm.2
  case h_5 =>
    obtain rfl := Option.some.inj h
    exact .leave hpc
  case h_6 =>
    obtain ⟨hm, h⟩ := Option.ite_none_right_eq_some.1 h
    obtain rfl := Option.some.inj h
    exact .lock hpc hm
  case h_7 =>
    split at h <;> obtain rfl := Option.some.inj h
    case h_1 hw => exact .choose hpc hw
    case h_2 hw => exact .release hpc hw
  case h_8 successor =>
    obtain rfl := Option.some.inj h
    exact .hand hpc
  case h_9 =>
    obtain rfl := Option.some.inj h
    exact .unlock hpc
  case h_10 => cases h
  case h_11 => cases h

/-- What holds of a guard where it stands. -/
theorem FineInv.placed (hs : FineInv s) {pc : Pc} (hpc : (s.guards g).pc = pc) :
    Placed s.waitersList s.waitersMutex g { s.guards g with pc := pc } := by
  have hsound := (hs.sound g).2
  rw [show s.guards g = { s.guards g with pc := pc } from by rw [← hpc]] at hsound
  exact hsound

/-- **Every step is one of the four parts, or shows nothing.** -/
theorem FineInv.coarse_pcStep (hs : FineInv s) (h : pcStep s g = some t) :
    t.coarse = s.coarse ∨ ∃ b, guardStep s.coarse b = some t.coarse := by
  have hguard : s.coarse.guards g = (s.guards g).coarse := rfl
  cases pcStep_cases h with
  | exchange hpc hreq =>
    refine .inr ⟨.tryAcquire g (s.guards g).requested, ?_⟩
    rw [guardStep, if_pos (by rw [hguard, FineGuard.coarse, hpc]), tryAcquire, if_pos hreq,
      FineEndpoint.coarse_setGuard, FineGuard.coarse, hreq]
    rfl
  | skip hpc hreq =>
    have hlead : (s.guards g).isLeader = false := hs.placed hpc
    refine .inr ⟨.tryAcquire g (s.guards g).requested, ?_⟩
    rw [guardStep, if_pos (by rw [hguard, FineGuard.coarse, hpc]), tryAcquire, if_neg hreq,
      FineEndpoint.coarse_setGuard, FineGuard.coarse, Bool.eq_false_iff.2 hreq, hlead]
  | acquire hpc =>
    exact .inl (FineEndpoint.coarse_setGuard_same (by simp only [FineGuard.coarse, hpc]))
  | register hpc hm =>
    refine .inr ⟨.registerWaiter g, ?_⟩
    rw [guardStep, if_pos (by rw [hguard, FineGuard.coarse, hpc]), FineEndpoint.coarse_setGuard,
      registerWaiter, hguard]
    simp only [FineGuard.coarse, hpc]
    rfl
  | unregister hpc hm hidle =>
    refine .inr ⟨.unregisterWaiter g, ?_⟩
    rw [guardStep, if_pos (by rw [hguard, FineGuard.coarse, hpc]), FineEndpoint.coarse_setGuard,
      unregisterWaiter, hguard]
    simp only [FineGuard.coarse, hpc]
    rfl
  | leave hpc =>
    by_cases hl : (s.guards g).isLeader = true
    · rw [if_pos hl]
      exact .inl (FineEndpoint.coarse_setGuard_same (by simp only [FineGuard.coarse, hpc]))
    · refine .inr ⟨.transferLeaderAndWake g, ?_⟩
      rw [if_neg hl, guardStep, if_pos (by rw [hguard, FineGuard.coarse, hpc]),
        FineEndpoint.coarse_setGuard, transferLeaderAndWake, hguard]
      simp only [FineGuard.coarse, hpc, hl]
      rfl
  | lock hpc hm =>
    refine .inl (FineEndpoint.coarse_setGuard_same ?_)
    simp only [FineGuard.coarse, hpc]
  | choose hpc hw =>
    have hlead : (s.guards g).isLeader = true := (hs.placed hpc).2
    refine .inl (FineEndpoint.coarse_setGuard_same ?_)
    simp only [FineGuard.coarse, hpc, hlead]
  | release hpc hw =>
    have hlead : (s.guards g).isLeader = true := (hs.placed hpc).2
    refine .inr ⟨.transferLeaderAndWake g, ?_⟩
    rw [guardStep, if_pos (by rw [hguard, FineGuard.coarse, hpc]), FineEndpoint.coarse_setGuard,
      transferLeaderAndWake, hguard, show s.coarse.waitersList = s.waitersList from rfl, hw]
    simp only [FineGuard.coarse, hpc, hlead]
    rfl
  | @hand w hpc =>
    obtain ⟨-, hhead, -⟩ := hs.placed hpc
    have hlead : (s.guards g).isLeader = false := (hs.placed hpc).2.2
    have hw : (s.guards w).pc = .registered := hs.successor hpc
    refine .inr ⟨.transferLeaderAndWake g, ?_⟩
    obtain ⟨l, hl⟩ : ∃ l, s.coarse.waitersList = w :: l := List.head?_eq_some_iff.1 hhead
    have hwc : s.coarse.guards w =
        ⟨.registered, (s.guards w).requested, (s.guards w).isLeader⟩ := by
      rw [show s.coarse.guards w = (s.guards w).coarse from rfl, FineGuard.coarse, hw]
    rw [guardStep, if_pos (by rw [hguard, FineGuard.coarse, hpc]), FineEndpoint.coarse_setGuard,
      FineEndpoint.coarse_setGuard, transferLeaderAndWake, hl, hguard]
    simp only [FineGuard.coarse, hpc, hw, hwc, hlead]
    rfl
  | unlock hpc =>
    exact .inl (FineEndpoint.coarse_setGuard_same (by simp only [FineGuard.coarse, hpc]))

/-- Only a registered guard has its holder inside `progress()`. -/
theorem Sound.idle {l : List ℕ} {m : Option ℕ} (hx : Sound l m g x) (hpc : x.pc ≠ .registered) :
    x.running = false :=
  Bool.eq_false_iff.2 fun hr => hpc (hx.1 hr).1

/-- A guard whose holder is outside `progress()` is judged by where it stands. -/
theorem Placed.idle {l : List ℕ} {m : Option ℕ} (hx : Placed l m g x) (hr : x.running = false) :
    Sound l m g x :=
  ⟨fun h => absurd h (by rw [hr]; decide), hx⟩

/-- The guards stay sound: the list and the mutex change only under who holds the mutex,
or while nobody does. -/
theorem FineInv.sound_pcStep (hs : FineInv s) (h : pcStep s g = some t) :
    ∀ h, Sound t.waitersList t.waitersMutex h (t.guards h) := by
  have hsound := hs.sound g
  have hown : s.waitersMutex = some g → ∀ u : FineEndpoint, ∀ h, h ≠ g →
      s.waitersMutex ≠ some h ∨ (u.waitersList = s.waitersList ∧ u.waitersMutex = s.waitersMutex) :=
    fun hm _ h hh => .inl fun he => hh (Option.some.inj (he.symm.trans hm))
  have hfree : s.waitersMutex = none → ∀ u : FineEndpoint, ∀ h, h ≠ g →
      s.waitersMutex ≠ some h ∨ (u.waitersList = s.waitersList ∧ u.waitersMutex = s.waitersMutex) :=
    fun hm _ h _ => .inl fun he => nomatch he.symm.trans hm
  have hkeep : ∀ h, h ≠ g → s.waitersMutex ≠ some h ∨
      (s.waitersList = s.waitersList ∧ s.waitersMutex = s.waitersMutex) :=
    fun _ _ => .inr ⟨rfl, rfl⟩
  have hidle : ∀ {pc}, (s.guards g).pc = pc → pc ≠ .registered → (s.guards g).running = false :=
    fun hpc hne => hsound.idle (hpc ▸ hne)
  cases pcStep_cases h with
  | exchange hpc hreq =>
    have hlead : (s.guards g).isLeader = false := hs.placed hpc
    exact sound_setGuard hs.sound rfl hkeep (Placed.idle ⟨hreq, hlead⟩ (hidle hpc nofun))
  | skip hpc => exact sound_setGuard hs.sound rfl hkeep (Placed.idle trivial (hidle hpc nofun))
  | acquire hpc => exact sound_setGuard hs.sound rfl hkeep (Placed.idle trivial (hidle hpc nofun))
  | register hpc hm =>
    exact sound_setGuard hs.sound rfl (hfree hm _) (Placed.idle trivial (hidle hpc nofun))
  | unregister hpc hm hrun =>
    exact sound_setGuard hs.sound rfl (hfree hm _) (Placed.idle trivial hrun)
  | leave hpc =>
    refine sound_setGuard hs.sound rfl hkeep (Placed.idle ?_ (hidle hpc nofun))
    by_cases hl : (s.guards g).isLeader = true
    · rw [if_pos hl]; exact hl
    · rw [if_neg hl]; exact Bool.eq_false_iff.2 hl
  | lock hpc hm =>
    have hlead := hs.placed hpc
    exact sound_setGuard hs.sound rfl (hfree hm _)
      (Placed.idle ⟨rfl, hlead⟩ (hidle hpc nofun))
  | choose hpc hw =>
    have hmutex := (hs.placed hpc).1
    refine sound_setGuard hs.sound rfl hkeep (Placed.idle ⟨hmutex, ?_, rfl⟩ (hidle hpc nofun))
    rw [hw]; rfl
  | release hpc hw =>
    have hmutex := (hs.placed hpc).1
    exact sound_setGuard hs.sound rfl (hown hmutex _) (Placed.idle hmutex (hidle hpc nofun))
  | @hand w hpc =>
    obtain ⟨hmutex, -, hlead⟩ := hs.placed hpc
    have hw : (s.guards w).pc = .registered := hs.successor hpc
    have hwg : w ≠ g := by rintro rfl; rw [hw] at hpc; cases hpc
    have hfirst := sound_setGuard (x := { s.guards g with pc := .destroyed }) hs.sound
      (u := { s with waitersMutex := none }) rfl (hown hmutex _)
      (Placed.idle hlead (hidle hpc nofun))
    refine sound_setGuard hfirst rfl (fun _ _ => .inr ⟨rfl, rfl⟩) ?_
    exact ⟨fun _ => ⟨hw, rfl⟩, by simp only [Placed, hw]⟩
  | unlock hpc =>
    have hmutex := hs.placed hpc
    exact sound_setGuard hs.sound rfl (hown hmutex _) (Placed.idle rfl (hidle hpc nofun))

/-- What a step of the endpoint is: the constructor starts, a guard goes on, or its holder
enters or leaves `progress()`. -/
theorem fineStep_cases {a : FineAction} (h : fineStep s a = some t) :
    (∃ g requested, (s.guards g).pc = .absent ∧
      t = s.setGuard g ⟨.started, requested, false, false⟩) ∨
    (∃ g, pcStep s g = some t) ∨
    (∃ g, (s.guards g).pc = .registered ∧ (s.guards g).isLeader = true ∧
      t = s.setGuard g { s.guards g with running := true }) ∨
    (∃ g, t = s.setGuard g { s.guards g with running := false }) := by
  cases a with
  | construct g requested =>
      simp only [fineStep, Option.ite_none_right_eq_some, Option.some.injEq] at h
      exact .inl ⟨g, requested, h.1, h.2.symm⟩
  | step g => exact .inr (.inl ⟨g, h⟩)
  | beginProgress g =>
      simp only [fineStep, Option.ite_none_right_eq_some, Option.some.injEq] at h
      exact .inr (.inr (.inl ⟨g, h.1.1, h.1.2, h.2.symm⟩))
  | endProgress g =>
      simp only [fineStep, Option.ite_none_right_eq_some, Option.some.injEq] at h
      exact .inr (.inr (.inr ⟨g, h.2.symm⟩))

/-- **The invariant survives every step.** -/
theorem FineInv.step (hs : FineInv s) {a : FineAction} (h : fineStep s a = some t) :
    FineInv t := by
  have hkeep : ∀ g h, h ≠ g → s.waitersMutex ≠ some h ∨
      (s.waitersList = s.waitersList ∧ s.waitersMutex = s.waitersMutex) :=
    fun _ _ _ => .inr ⟨rfl, rfl⟩
  rcases fineStep_cases h with ⟨g, r, hg, rfl⟩ | ⟨g, hg⟩ | ⟨g, hg, hl, rfl⟩ | ⟨g, rfl⟩
  · refine ⟨sound_setGuard hs.sound rfl (hkeep g) (Placed.idle rfl rfl), ?_⟩
    rw [FineEndpoint.coarse_setGuard_same]
    · exact hs.coarse
    · simp only [FineGuard.coarse, hg]
  · refine ⟨hs.sound_pcStep hg, ?_⟩
    rcases hs.coarse_pcStep hg with ht | ⟨b, hb⟩
    · rw [ht]; exact hs.coarse
    · exact GuardInv.step hs.coarse hb
  · refine ⟨sound_setGuard hs.sound rfl (hkeep g) ⟨fun _ => ⟨hg, hl⟩, (hs.sound g).2⟩, ?_⟩
    exact (FineEndpoint.coarse_setGuard_same (x := { s.guards g with running := true }) rfl) ▸
      hs.coarse
  · refine ⟨sound_setGuard hs.sound rfl (hkeep g) (Placed.idle (hs.sound g).2 rfl), ?_⟩
    exact (FineEndpoint.coarse_setGuard_same (x := { s.guards g with running := false }) rfl) ▸
      hs.coarse

theorem fineInv_init : FineInv fineInit :=
  ⟨fun _ => Placed.idle rfl rfl, none, guardInv_init⟩

/-- A live guard that says it leads is the leader of `Lfi.Progress.Guard`. -/
theorem FineInv.leads (hs : FineInv s) (hpc : (s.guards g).pc.Live)
    (hl : (s.guards g).isLeader = true) :
    (s.coarse.guards g).phase.Live ∧ (s.coarse.guards g).isLeader = true := by
  have hsound := (hs.sound g).2
  unfold Placed at hsound
  rw [show s.coarse.guards g = (s.guards g).coarse from rfl, FineGuard.coarse]
  cases hg : (s.guards g).pc with
  | started => rw [hg] at hsound; exact absurd hl (by rw [hsound]; decide)
  | exchanged won => rw [hg] at hsound; exact absurd hl (by rw [hsound.2]; decide)
  | acquired => exact ⟨⟨nofun, nofun⟩, hl⟩
  | registered => exact ⟨⟨nofun, nofun⟩, hl⟩
  | _ => rw [hg] at hpc; exact hpc.elim

/-- **The invariant gives a single leader.** -/
theorem FineInv.singleLeader (hs : FineInv s) : SingleLeader s := by
  obtain ⟨leader, hinv⟩ := hs.coarse
  have hlead : ∀ g, (s.guards g).pc.Live → (s.guards g).isLeader = true → leader = some g :=
    fun g hpc hl => (hinv.isLeader_iff g).1 (hs.leads hpc hl).2
  have hunique : ∀ g h, (s.guards g).pc.Live → (s.guards h).pc.Live →
      (s.guards g).isLeader = true → (s.guards h).isLeader = true → g = h :=
    fun g h hg hh hgl hhl => Option.some.inj ((hlead g hg hgl).symm.trans (hlead h hh hhl))
  refine ⟨hunique, fun g hg hl => ?_, fun g h hg hh => ?_⟩
  · rw [show s.inProgress = s.coarse.inProgress from rfl, hinv.held, hlead g hg hl]
    rfl
  · obtain ⟨hgp, hgl⟩ := (hs.sound g).1 hg
    obtain ⟨hhp, hhl⟩ := (hs.sound h).1 hh
    exact hunique g h (by rw [hgp]; trivial) (by rw [hhp]; trivial) hgl hhl

/-- A guard whose flag is kept or cleared is not made leader. -/
theorem isLeader_of_setGuard {k : ℕ} (hl : ((s.setGuard g x).guards k).isLeader = true)
    (hx : x.isLeader = true → (s.guards g).isLeader = true) : (s.guards k).isLeader = true := by
  rw [FineEndpoint.setGuard_guards] at hl
  split at hl
  case isTrue hk => exact hk ▸ hx hl
  case isFalse => exact hl

/-- Who a step can make leader: the guard that stores what its exchange won, and the
successor a leader hands on to. -/
theorem pcStep_isLeader (h : pcStep s g = some t) {k : ℕ} (hl : (t.guards k).isLeader = true) :
    (s.guards k).isLeader = true ∨ (k = g ∧ ∃ won, (s.guards g).pc = .exchanged won) ∨
      (s.guards g).pc = .handing k := by
  cases pcStep_cases h with
  | @acquire won hpc =>
    rw [FineEndpoint.setGuard_guards] at hl
    split at hl
    case isTrue hk => exact .inr (.inl ⟨hk, won, hpc⟩)
    case isFalse => exact .inl hl
  | @hand w hpc =>
    rw [FineEndpoint.setGuard_guards] at hl
    split at hl
    case isTrue hk => exact .inr (.inr (hk ▸ hpc))
    case isFalse => exact .inl (isLeader_of_setGuard hl id)
  -- no other step sets the flag
  | exchange => exact .inl (isLeader_of_setGuard hl id)
  | skip => exact .inl (isLeader_of_setGuard hl id)
  | register => exact .inl (isLeader_of_setGuard hl id)
  | unregister => exact .inl (isLeader_of_setGuard hl id)
  | leave => exact .inl (isLeader_of_setGuard hl id)
  | lock => exact .inl (isLeader_of_setGuard hl id)
  | choose => exact .inl (isLeader_of_setGuard hl nofun)
  | release => exact .inl (isLeader_of_setGuard hl id)
  | unlock => exact .inl (isLeader_of_setGuard hl nofun)

/-- A guard that has left `waiters_list` is not made leader. -/
theorem FineInv.left (hs : FineInv s) {a : FineAction} (h : fineStep s a = some t)
    (hg : (s.guards g).pc.Left) (hl : (t.guards g).isLeader = true) :
    (s.guards g).isLeader = true := by
  rcases fineStep_cases h with ⟨k, r, -, rfl⟩ | ⟨k, hk⟩ | ⟨k, hk, -, rfl⟩ | ⟨k, rfl⟩
  · rw [FineEndpoint.setGuard_guards] at hl
    split at hl
    case isTrue => cases hl
    case isFalse => exact hl
  · rcases pcStep_isLeader hk hl with hsl | ⟨rfl, won, hpc⟩ | hpc
    · exact hsl
    · rw [hpc] at hg; exact hg.elim
    · rw [hs.successor hpc] at hg; exact hg.elim
  · rw [FineEndpoint.setGuard_guards] at hl
    split at hl
    case isTrue hgk => exact hgk ▸ hl
    case isFalse => exact hl
  · rw [FineEndpoint.setGuard_guards] at hl
    split at hl
    case isTrue hgk => exact hgk ▸ hl
    case isFalse => exact hl

/-! ### The leader of every run -/

/-- **A single leader.**  Whatever the guards of an endpoint are and in whatever order they
take their steps, at most one live guard leads, `in_progress` is set while one does,
`progress()` is run by one of their holders at a time, and no step makes a guard leader
that has left `waiters_list`. -/
theorem single_leader {s : FineEndpoint} (h : Reachable fineStep (· = fineInit) s) :
    SingleLeader s ∧ ∀ a t, fineStep s a = some t → ∀ g, (s.guards g).pc.Left →
      (t.guards g).isLeader = true → (s.guards g).isLeader = true := by
  have hs : FineInv s := h.invariant (by rintro s rfl; exact fineInv_init)
    fun _ _ _ hs ht => hs.step ht
  exact ⟨hs.singleLeader, fun _ _ ht _ hg hl => hs.left ht hg hl⟩

/-- Guard 0 leads and hands on to guard 1, which did not ask for it, while guard 2 has lost
the exchange. -/
def handedToBystander : List FineAction :=
  [.construct 0 true, .step 0, .step 0, .construct 1 false, .step 1, .step 0, .step 1,
    .beginProgress 0, .construct 2 true, .step 2, .endProgress 0, .step 0, .step 0, .step 0,
    .step 0, .step 2, .step 0, .beginProgress 1]

/-- `single_leader` where leadership has been handed on. -/
theorem single_leader_handedToBystander :
    SingleLeader ((exec fineStep fineInit handedToBystander).get (by decide)) :=
  (single_leader ⟨fineInit, handedToBystander, rfl, (Option.some_get _).symm⟩).1

end Progress
end Lfi
