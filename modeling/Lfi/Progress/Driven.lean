/-
# Who waits is driven

The calls of `Lfi.Progress.Waiters` come to rest by themselves.  What starts them again comes from
outside: a call begins, a request is completed, a clock runs out, a sleeper wakes up for no
reason, or the leader of an endpoint makes one more call of `progress` because its own request is
not completed.

At rest (`at_rest`) nobody waits for what is completed: each call sleeps or leads, and an endpoint
whose leadership is held is driven, by one call.  A run of many steps has many events from outside
(`length_le_charged`), so the calls do not keep each other busy: a hand-over wakes one sleeper, and
has cost one leader its guard.
-/

import Lfi.Progress.Wakeups
import Lfi.Runs.Potential

namespace Lfi
namespace Progress

open Runs

/-- Its requests are not completed, and its time is not over. -/
def WaitCall.StillWaits (x : WaitCall) : Prop :=
  x.kind.sleeps = true ∧ (x.completed || x.isTimeout) = false

instance (x : WaitCall) : Decidable x.StillWaits := inferInstanceAs (Decidable (_ ∧ _))

/-- A step that the calls do not owe to each other. -/
def FromOutside (s : Waits) : WaitAction → Prop
  | .enter .. | .complete _ | .rouse .. => True
  | .step c timeUp => timeUp = true ∨ (s.call c).pc = .drive ∧ (s.call c).StillWaits
  | .notifyAll _ => False

instance (s : Waits) : DecidablePred (FromOutside s)
  | .enter .. | .complete _ | .rouse .. => .isTrue trivial
  | .step c timeUp =>
      inferInstanceAs (Decidable (timeUp = true ∨ (s.call c).pc = .drive ∧ (s.call c).StillWaits))
  | .notifyAll _ => .isFalse id

/-- Nothing happens but from outside. -/
def AtRest (s : Waits) : Prop := ∀ a, ¬ FromOutside s a → waitStep s a = none

variable {s t : Waits} {c d : ℕ} {e : Ep} {x y : WaitCall} {leads timeUp : Bool}

/-! ### The calls at rest -/

theorem AtRest.callStep (hrest : AtRest s)
    (hpc : ¬ ((s.call c).pc = .drive ∧ (s.call c).StillWaits)) : callStep s c false = none := by
  have hnone := hrest (.step c false) fun h => h.elim nofun hpc
  simpa [waitStep] using hnone

/-- Where a call may have the mutex of its loop, it can go on. -/
theorem loopStep_of_holds (leads timeUp : Bool) {locked : Bool} (h : x.pc.Holds locked) :
    loopStep leads timeUp x ≠ none := by
  cases hpc : x.pc <;> rw [hpc] at h
  case head | ask | check => simp only [loopStep, hpc]; repeat (first | split | simp)
  case doubt => simp [loopStep, hpc]
  all_goals exact h.elim

/-- At rest no mutex is held. -/
theorem AtRest.mutex (hrest : AtRest s) (hs : WaitsInv s) (c : ℕ) : (s.call c).mutex = none := by
  cases hm : (s.call c).mutex with
  | none => rfl
  | some owner =>
      cases owner with
      | completer =>
          have hnone := hrest (.notifyAll c) id
          simp [waitStep, hm] at hnone
      | caller =>
          have hholds := (hs.sound c).mutex.1 hm
          have hnone := hrest.callStep (c := c) fun h => by
            rw [h.1] at hholds
            exact hholds
          exfalso
          refine loopStep_of_holds (s.leads c) false hholds ?_
          cases hpc : (s.call c).pc <;> rw [hpc] at hholds
          case head | ask | check | doubt => simpa [Progress.callStep, hpc] using hnone
          all_goals exact hholds.elim

/-- Nor is anybody on the way to a successor. -/
theorem AtRest.not_notify (hrest : AtRest s) (hs : WaitsInv s) (c : ℕ) (e : Ep) (w : ℕ) :
    (s.call c).pc ≠ .notify e w := by
  intro hpc
  have hnone := hrest.callStep (c := c) fun h => by
    rw [hpc] at h
    cases h.1
  simp [Progress.callStep, hpc, hrest.mutex hs w] at hnone

theorem AtRest.waitersMutex (hrest : AtRest s) (hs : WaitsInv s) (e : Ep) :
    s.waitersMutex e = none := by
  cases hm : s.waitersMutex e with
  | none => rfl
  | some c =>
      obtain ⟨w, hw⟩ := (hs.waitersMutex e c).1 hm
      exact absurd hw (hrest.not_notify hs c e w)

/-- Where a call can rest. -/
theorem AtRest.pc (hrest : AtRest s) (hs : WaitsInv s) (c : ℕ) :
    (s.call c).pc = .outside ∨ (s.call c).pc = .returned ∨ (s.call c).pc = .asleep ∨
      (s.call c).pc = .drive ∧ (s.call c).StillWaits := by
  by_cases hdrive : (s.call c).pc = .drive ∧ (s.call c).StillWaits
  · exact .inr (.inr (.inr hdrive))
  have hnone := hrest.callStep hdrive
  have hm := hrest.mutex hs
  have hw := hrest.waitersMutex hs
  cases hpc : (s.call c).pc
  case outside => exact .inl rfl
  case returned => exact .inr (.inl rfl)
  case asleep => exact .inr (.inr (.inl rfl))
  case acquire todo => cases todo <;> simp [Progress.callStep, hpc, loopStep] at hnone
  case unregister =>
    cases hb : (s.call c).built <;> simp [Progress.callStep, hpc, hb, hw] at hnone
  case transfer e =>
    simp only [Progress.callStep, hpc, hw, implies_true, if_true] at hnone
    split at hnone <;> cases hnone
  case drive =>
    exfalso
    revert hnone
    simp only [Progress.callStep, hpc, loopStep, Option.map_eq_none_iff]
    repeat (first | split | simp)
  case notify e w => exact absurd hpc (hrest.not_notify hs c e w)
  case register | lock | relock | roused => simp [Progress.callStep, hpc, loopStep, hm, hw] at hnone
  case head | ask | check | doubt =>
    have hholds : (s.call c).pc.Holds true := by rw [hpc]; trivial
    refine absurd ?_ (loopStep_of_holds (s.leads c) false hholds)
    simpa [Progress.callStep, hpc] using hnone

/-- So a state of rest is one in which every call rests, with its mutex free. -/
theorem WaitsInv.atRest_iff (hs : WaitsInv s) :
    AtRest s ↔ ∀ c, (s.call c).mutex = none ∧
      ((s.call c).pc = .outside ∨ (s.call c).pc = .returned ∨ (s.call c).pc = .asleep ∨
        (s.call c).pc = .drive ∧ (s.call c).StillWaits) := by
  refine ⟨fun hrest c => ⟨hrest.mutex hs c, hrest.pc hs c⟩, fun h a hown => ?_⟩
  cases a with
  | enter | complete | rouse => exact absurd trivial hown
  | notifyAll c => simp [waitStep, (h c).1]
  | step c timeUp =>
      have hdrive := fun hpc => hown (.inr hpc)
      rcases (h c).2 with hpc | hpc | hpc | hpc
      case inr.inr.inr => exact absurd hpc hdrive
      all_goals simp [waitStep, Progress.callStep, hpc, loopStep]

/-! ### Who drives -/

/-- Whoever drives in a loop leads. -/
def DriversLead (s : Waits) : Prop :=
  ∀ c, (s.call c).pc = .drive → (s.call c).kind.sleeps = true → s.leads c = true

theorem Waits.leads_of_le (hbuilt : (t.call c).built = (s.call c).built)
    (hle : ∀ e, ((s.ep e).guards c).isLeader = true → ((t.ep e).guards c).isLeader = true)
    (hl : s.leads c = true) : t.leads c = true := by
  obtain ⟨e, he, hlead⟩ := List.any_eq_true.1 hl
  exact List.any_eq_true.2 ⟨e, hbuilt ▸ he, hle e hlead⟩

/-- No other call takes the leadership of a guard away. -/
theorem transfer_isLeader_of {s : Endpoint} {g h : ℕ} (hh : h ≠ g)
    (hl : (s.guards h).isLeader = true) :
    ((transferLeaderAndWake s g).guards h).isLeader = true := by
  unfold transferLeaderAndWake
  by_cases hg : (s.guards g).isLeader = true
  · rw [if_pos hg]
    cases s.waitersList with
    | nil => simp only [Endpoint.setGuard_guards, if_neg hh, hl]
    | cons w l =>
        simp only [Endpoint.setGuard_guards, if_neg hh]
        split <;> first | rfl | exact hl
  · rw [if_neg hg, Endpoint.setGuard_guards, if_neg hh]
    exact hl

/-- What a step of `c` leaves to the other calls: their guards stay and keep their leadership, and
their records change only if they are notified. -/
theorem CallMoves.others (h : CallMoves s c timeUp t) (hd : d ≠ c) :
    (t.call d = s.call d ∨ t.call d = (s.call d).notified) ∧
      ∀ e, ((s.ep e).guards d).isLeader = true → ((t.ep e).guards d).isLeader = true := by
  have hsetEp : ∀ {e : Ep} {ep : Endpoint},
      (((s.ep e).guards d).isLeader = true → (ep.guards d).isLeader = true) →
      ∀ e', ((s.ep e').guards d).isLeader = true →
        (((s.setEp e ep).ep e').guards d).isLeader = true := by
    intro e ep hep e' hl
    rw [Waits.setEp_ep]
    split
    case isTrue he => exact hep (he ▸ hl)
    case isFalse => exact hl
  cases h with
  | acquire | register | unregister =>
      refine ⟨.inl (by rw [Waits.setCall_call, if_neg hd]; rfl), hsetEp fun hl => ?_⟩
      simpa [tryAcquire_guards, registerWaiter_guards, unregisterWaiter_guards, hd] using hl
  | handOn | transfer =>
      refine ⟨.inl (by rw [Waits.setCall_call, if_neg hd]; rfl), hsetEp fun hl => ?_⟩
      exact transfer_isLeader_of hd hl
  | «return» | loop =>
      exact ⟨.inl (by rw [Waits.setCall_call, if_neg hd]), fun _ hl => hl⟩
  | @notify e w hpc hm =>
      refine ⟨?_, fun _ hl => hl⟩
      rw [Waits.setCall_call, if_neg hd, Waits.setCall_call]
      split
      case isTrue hw => exact .inr (by rw [hw])
      case isFalse => exact .inl rfl

@[simp] theorem WaitCall.notified_built : x.notified.built = x.built := by
  unfold WaitCall.notified; split <;> rfl

@[simp] theorem WaitCall.notified_kind : x.notified.kind = x.kind := by
  unfold WaitCall.notified; split <;> rfl

theorem WaitCall.pc_of_notified_drive (h : x.notified.pc = .drive) : x.pc = .drive := by
  unfold WaitCall.notified at h
  split at h
  case isTrue => cases h
  case isFalse => exact h

theorem DriversLead.setCall (hd : DriversLead s) (hbuilt : y.built = (s.call c).built)
    (hy : y.pc = .drive → y.kind.sleeps = true → s.leads c = true) :
    DriversLead (s.setCall c y) := by
  intro d hpc hsl
  rw [Waits.setCall_call] at hpc hsl
  have hcall : ((s.setCall c y).call d).built = (s.call d).built := by
    rw [Waits.setCall_call]
    split
    case isTrue h => rw [h, hbuilt]
    case isFalse => rfl
  refine Waits.leads_of_le hcall (fun _ hl => hl) ?_
  by_cases hdc : d = c
  · rw [if_pos hdc] at hpc hsl
    exact hdc ▸ hy hpc hsl
  · rw [if_neg hdc] at hpc hsl
    exact hd d hpc hsl

theorem LoopMoves.drive (h : LoopMoves leads timeUp x y) (hpc : y.pc = .drive)
    (hsl : y.kind.sleeps = true) : leads = true ∨ x.pc = .drive ∧ x.kind.sleeps = true := by
  cases h with
  | lead _ hl => exact .inl hl
  | progress => exact .inr ⟨hpc, hsl⟩
  | begin => cases hk : x.kind <;> simp [hk, WaitKind.body, WaitKind.sleeps] at hpc hsl
  | lock | follow => cases hk : x.kind.locked <;> simp [hk] at hpc
  | _ => cases hpc

theorem LoopMoves.built (h : LoopMoves leads timeUp x y) : y.built = x.built := h.sameGuards.built

/-- The call itself does not come to its loop and lose its guard. -/
theorem DriversLead.callStep (hd : DriversLead s) (h : CallMoves s c timeUp t) : DriversLead t := by
  have hothers : (∀ d, d ≠ c → (t.call d).pc = .drive → (t.call d).kind.sleeps = true →
      t.leads d = true) := by
    intro d hdc hpc hsl
    obtain ⟨hcall, hle⟩ := h.others hdc
    rcases hcall with hcall | hcall
    · rw [hcall] at hpc hsl
      exact Waits.leads_of_le (by rw [hcall]) hle (hd d hpc hsl)
    · rw [hcall] at hpc hsl
      rw [WaitCall.notified_kind] at hsl
      refine Waits.leads_of_le (by rw [hcall, WaitCall.notified_built]) hle ?_
      exact hd d (WaitCall.pc_of_notified_drive hpc) hsl
  cases h with
  | loop h =>
      refine hd.setCall h.built fun hpc hsl => ?_
      exact (h.drive hpc hsl).elim id fun h => hd c h.1 h.2
  | _ =>
      intro d hpc hsl
      by_cases hdc : d = c
      · rw [hdc, Waits.setCall_call, if_pos rfl] at hpc
        cases hpc
      · exact hothers d hdc hpc hsl

theorem DriversLead.step (hd : DriversLead s) {a : WaitAction} (h : waitStep s a = some t)
    (hs : WaitsInv s) : DriversLead t := by
  cases a with
  | enter c kind timed count =>
      obtain ⟨⟨hpc, -⟩, h⟩ := Option.ite_none_right_eq_some.1 h
      obtain rfl := Option.some.inj h
      exact hd.setCall ((hs.placed c).built_of_outside hpc).symm fun h => by cases h
  | step c timeUp =>
      obtain ⟨-, h⟩ := Option.ite_none_right_eq_some.1 h
      exact hd.callStep (callStep_moves h)
  | complete c =>
      obtain ⟨-, h⟩ := Option.ite_none_right_eq_some.1 h
      obtain rfl := Option.some.inj h
      exact hd.setCall rfl (hd c)
  | notifyAll c =>
      obtain ⟨hm, h⟩ := Option.ite_none_right_eq_some.1 h
      obtain rfl := Option.some.inj h
      dsimp only
      split
      · refine hd.setCall WaitCall.notified_built fun hpc hsl => ?_
        rw [WaitCall.notified_kind] at hsl
        have hpc' := WaitCall.pc_of_notified_drive hpc
        exact hd c hpc' hsl
      · exact hd.setCall rfl (hd c)
  | rouse c expired =>
      obtain ⟨-, h⟩ := Option.ite_none_right_eq_some.1 h
      obtain rfl := Option.some.inj h
      exact hd.setCall rfl fun h => by cases h

/-- **At rest.**  Nobody waits for what is completed, each call sleeps or leads, and an endpoint
whose leadership is held is driven. -/
theorem AtRest.driven (hrest : AtRest s) (hs : WaitsInv s) (hd : DriversLead s) :
    (∀ c, (s.call c).pc ≠ .outside → (s.call c).pc ≠ .returned →
      (s.call c).kind.sleeps = true ∧ (s.call c).completed = false ∧
        ((s.call c).pc = .asleep ∨ (s.call c).pc = .drive ∧ s.leads c = true)) ∧
      ∀ e, (s.ep e).inProgress = true →
        ∃! c, (s.call c).pc = .drive ∧ ((s.ep e).guards c).isLeader = true := by
  refine ⟨fun c hout hret => ?_, fun e hheld => ?_⟩
  · rcases hrest.pc hs c with hpc | hpc | hpc | ⟨hpc, hsl, hwaits⟩
    · exact absurd hpc hout
    · exact absurd hpc hret
    · refine ⟨(hs.sound c).sleeps (by rw [hpc]; trivial), ?_, .inl hpc⟩
      refine Bool.eq_false_iff.2 fun hcompleted => ?_
      have hm := (hs.sound c).asleep hpc (of_decide_eq_true hcompleted)
      rw [hrest.mutex hs c] at hm
      cases hm
    · exact ⟨hsl, (Bool.or_eq_false_iff.1 hwaits).1, .inr ⟨hpc, hd c hpc hsl⟩⟩
  · obtain ⟨leader, hinv⟩ := hs.ep e
    obtain ⟨c, hc⟩ := Option.isSome_iff_exists.1 (hinv.held ▸ hheld)
    have hlead := (hinv.isLeader_iff c).2 hc
    refine ⟨c, ⟨?_, hlead⟩, fun d hd => ?_⟩
    · have hlive := (hs.placed c).live (hinv.live c hc)
      rcases hrest.pc hs c with hpc | hpc | hpc | hpc
      · rw [(hs.placed c).built_of_outside hpc, hpc] at hlive
        simp [WaitPc.registering, WaitPc.leaving] at hlive
      · rw [(hs.placed c).returned hpc, hpc] at hlive
        simp [WaitPc.registering, WaitPc.leaving] at hlive
      · obtain ⟨w, hw⟩ := hs.handed c (by rw [hpc]; trivial) e hlead
        exact absurd hw (hrest.not_notify hs w e c)
      · exact hpc.1
    · have := (hinv.isLeader_iff d).1 hd.2
      exact Option.some.inj (this.symm.trans hc)

/-! ### Nobody is kept busy -/

/-- The steps a call in its loop still takes by itself, at most. -/
def loopWeight (done leads locked : Bool) : WaitPc → ℕ
  | .doubt => 1
  | .drive => if done then 3 else 1
  | .head => if done then 1 else if leads then 3 else 5
  | .ask => if done then 4 else if leads then 2 else 4
  | .lock => if done then 3 else if leads then 5 else if locked then 6 else 3
  | .relock => if done then 2 else if leads then 4 else 6
  | .check expired => if done then 2 else if leads then 4 else if expired then 6 else 2
  | .roused _ => if done then 3 else if leads then 5 else 7
  | _ => 0

/-- The steps of its constructors and destructors, and of the sleepers it wakes up: one for each
guard it has to destroy. -/
def WaitCall.guardWeight (x : WaitCall) : ℕ :=
  match x.pc with
  | .outside | .returned => 0
  | .acquire todo => 17 * (x.built.length + todo.length) + 9 + 2 * todo.length
  | .register _ todo => 17 * (x.built.length + 1 + todo.length) + 10 + 2 * todo.length
  | .transfer _ => 17 * x.built.length + 17
  | .notify .. => 17 * x.built.length + 9
  | _ => 17 * x.built.length + 1

/-- All of these, and those of a call that `complete` is about to notify. -/
def WaitCall.weight (x : WaitCall) (leads : Bool) : ℕ :=
  (if x.mutex = some .completer then 8 else 0) + x.guardWeight +
    loopWeight (x.completed || x.isTimeout) leads x.kind.locked x.pc

/-- The weights of the calls below `n`. -/
def Waits.weight (n : ℕ) (s : Waits) : ℕ :=
  ∑ c ∈ Finset.range n, (s.call c).weight (s.leads c)

theorem loopWeight_le (done leads locked : Bool) (pc : WaitPc) :
    loopWeight done leads locked pc ≤ 7 := by
  unfold loopWeight
  repeat (first | split | omega)

/-- Becoming the leader costs at most seven steps. -/
theorem WaitCall.weight_leads (x : WaitCall) (leads leads' : Bool) :
    x.weight leads ≤ x.weight leads' + 7 := by
  have hle := loopWeight_le (x.completed || x.isTimeout) leads x.kind.locked x.pc
  unfold WaitCall.weight
  omega

/-- So does being notified. -/
theorem WaitCall.weight_notified (x : WaitCall) (leads : Bool) :
    x.notified.weight leads ≤ x.weight leads + 7 := by
  unfold WaitCall.notified
  split
  case isTrue hpc =>
    have hle := loopWeight_le (x.completed || x.isTimeout) leads x.kind.locked (.roused false)
    simp only [WaitCall.weight, WaitCall.guardWeight, hpc, WaitCall.completed] at hle ⊢
    omega
  case isFalse => exact Nat.le_add_right _ _

/-- So does a completion, and `complete` has to notify. -/
theorem WaitCall.weight_complete (x : WaitCall) (leads : Bool) (count : ℤ) :
    WaitCall.weight { x with count := count, mutex := some .completer } leads ≤
      x.weight leads + 15 := by
  have hle := loopWeight_le (decide (count ≤ 0) || x.isTimeout) leads x.kind.locked x.pc
  simp only [WaitCall.weight, WaitCall.guardWeight, WaitCall.completed, if_true]
  omega

theorem WaitCall.weight_free (hm : x.mutex = some .completer) (leads : Bool) :
    WaitCall.weight { x with mutex := none } leads + 8 = x.weight leads := by
  simp only [WaitCall.weight, WaitCall.guardWeight, WaitCall.completed, hm, if_true]
  rw [if_neg (by simp)]
  omega

/-- A step of the loop brings the call nearer to its rest. -/
theorem LoopMoves.weight (h : LoopMoves leads false x y)
    (hown : ¬ (x.pc = .drive ∧ x.StillWaits)) : y.weight leads + 1 ≤ x.weight leads := by
  cases h with
  | begin hpc =>
      have hle := loopWeight_le (x.completed || x.isTimeout) leads x.kind.locked x.kind.body
      simp only [WaitCall.weight, WaitCall.guardWeight, hpc, WaitCall.completed,
        List.length_nil] at hle ⊢
      cases hk : x.kind <;> simp only [hk, WaitKind.body] at hle ⊢ <;> omega
  | lock hpc hm =>
      simp only [WaitCall.weight, WaitCall.guardWeight, hpc, hm, WaitCall.completed]
      cases x.kind.locked <;> simp only [loopWeight] <;> grind
  | follow hpc =>
      simp only [WaitCall.weight, WaitCall.guardWeight, hpc, WaitCall.completed]
      cases x.kind.locked <;> simp only [loopWeight] <;> grind
  | exit hpc hdone | lead hpc =>
      unfold WaitCall.leave
      split <;> simp only [WaitCall.weight, WaitCall.guardWeight, hpc, loopWeight,
        WaitCall.completed] at * <;> grind
  | progress hpc hk hdone =>
      exact absurd ⟨hpc, WaitKind.sleeps_of_locked hk, hdone⟩ hown
  | progressOnce hpc hk hsl =>
      have hdone : (x.completed || x.isTimeout) = true := by
        rw [← Bool.not_eq_false]
        exact fun h => hown ⟨hpc, hsl, h⟩
      simp only [WaitCall.weight, WaitCall.guardWeight, hpc, loopWeight, WaitCall.completed] at *
      grind
  | again hpc | late hpc | driven hpc | tested hpc | relock hpc | sleep hpc | wake hpc
  | heard hpc | doubt hpc =>
      simp only [WaitCall.weight, WaitCall.guardWeight, hpc, loopWeight, WaitCall.completed] at *
      grind

/-- Any step of the loop costs at most seven others. -/
theorem LoopMoves.weight_le (h : LoopMoves leads timeUp x y) :
    y.weight leads ≤ x.weight leads + 7 := by
  cases h with
  | begin hpc =>
      have hle := loopWeight_le (x.completed || x.isTimeout) leads x.kind.locked x.kind.body
      simp only [WaitCall.weight, WaitCall.guardWeight, hpc, WaitCall.completed,
        List.length_nil] at hle ⊢
      cases hk : x.kind <;> simp only [hk, WaitKind.body] at hle ⊢ <;> omega
  | lock hpc | follow hpc =>
      simp only [WaitCall.weight, WaitCall.guardWeight, hpc, WaitCall.completed]
      cases x.kind.locked <;> simp only [loopWeight] <;> grind
  | exit hpc | lead hpc =>
      unfold WaitCall.leave
      split <;> simp only [WaitCall.weight, WaitCall.guardWeight, hpc, loopWeight,
        WaitCall.completed] at * <;> grind
  | again hpc | late hpc | driven hpc | progress hpc | progressOnce hpc | tested hpc | relock hpc
  | sleep hpc | wake hpc | heard hpc | doubt hpc =>
      simp only [WaitCall.weight, WaitCall.guardWeight, hpc, loopWeight, WaitCall.completed] at *
      grind

/-- A step of the call `c`, as the others see it. -/
theorem Waits.weight_le {n : ℕ} (hc : c < n) (w : ℕ) {k m b : ℕ}
    (hself : (t.call c).weight (t.leads c) + k ≤ (s.call c).weight (s.leads c) + m)
    (hothers : ∀ d, d ≠ c → (t.call d).weight (t.leads d) ≤
      (s.call d).weight (s.leads d) + if d = w then b else 0) :
    t.weight n + k ≤ s.weight n + m + b :=
  sum_transfer (Finset.mem_range.2 hc) w hself hothers

theorem Waits.leads_congr (hbuilt : (t.call c).built = (s.call c).built)
    (hle : ∀ e, ((t.ep e).guards c).isLeader = ((s.ep e).guards c).isLeader) :
    t.leads c = s.leads c := by
  simp only [Waits.leads, hbuilt, hle]

/-- A call changes by itself. -/
theorem Waits.weight_setCall {n k m : ℕ} (hc : c < n) (hbuilt : y.built = (s.call c).built)
    (h : y.weight (s.leads c) + k ≤ (s.call c).weight (s.leads c) + m) :
    (s.setCall c y).weight n + k ≤ s.weight n + m := by
  have hcall : ∀ d, (s.setCall c y).call d = if d = c then y else s.call d :=
    fun d => Waits.setCall_call
  have hleads : ∀ d, (s.setCall c y).leads d = s.leads d := fun d => by
    refine Waits.leads_congr ?_ fun _ => rfl
    rw [hcall]
    split
    case isTrue hd => rw [hd, hbuilt]
    case isFalse => rfl
  refine Waits.weight_le (b := 0) hc c ?_ fun d hd => ?_
  · rw [hcall, if_pos rfl, hleads]
    exact h
  · rw [hcall, if_neg hd, hleads]
    exact Nat.le_add_right _ _

/-- A call changes with one of its guards, and `w` may come to lead. -/
theorem Waits.weight_setGuard {n k m b : ℕ} (ep : Endpoint) (hc : c < n) (w : ℕ)
    (hself : ∀ l l', y.weight l + k ≤ (s.call c).weight l' + m)
    (hothers : ∀ d, d ≠ c →
      (ep.guards d).isLeader = ((s.ep e).guards d).isLeader ∨ d = w ∧ 7 ≤ b) :
    ((s.setEp e ep).setCall c y).weight n + k ≤ s.weight n + m + b := by
  have hcall : ∀ d, ((s.setEp e ep).setCall c y).call d = if d = c then y else s.call d :=
    fun d => Waits.setCall_call
  refine Waits.weight_le hc w ?_ fun d hd => ?_
  · rw [hcall, if_pos rfl]
    exact hself _ _
  · rw [hcall, if_neg hd]
    rcases hothers d hd with hsame | ⟨hw, hb⟩
    · rw [Waits.leads_congr (s := s) (by rw [hcall, if_neg hd]) fun e' => ?_]
      · exact Nat.le_add_right _ _
      · rw [Waits.setCall_ep, Waits.setEp_ep]
        split
        case isTrue he => rw [hsame, he]
        case isFalse => rfl
    · rw [if_pos hw]
      exact le_trans ((s.call d).weight_leads _ (s.leads d)) (Nat.add_le_add_left hb _)

/-- Another guard's leadership is its own, or it has been handed over. -/
theorem transfer_isLeader_eq (s : Endpoint) {g h : ℕ} (hh : h ≠ g) :
    ((transferLeaderAndWake s g).guards h).isLeader = (s.guards h).isLeader ∨
      s.waitersList.head? = some h := by
  by_cases hl : (s.guards h).isLeader = true
  · exact .inl ((transfer_isLeader_of hh hl).trans hl.symm)
  · by_cases hl' : ((transferLeaderAndWake s g).guards h).isLeader = true
    · exact .inr ((transfer_isLeader hh hl').resolve_left hl).2
    · exact .inl ((Bool.eq_false_iff.2 hl').trans (Bool.eq_false_iff.2 hl).symm)

/-- A step that moves a guard is paid for, with the hand-over. -/
theorem CallMoves.weight {n m : ℕ} (h : CallMoves s c timeUp t) (hc : c < n)
    (hloop : ∀ y, LoopMoves (s.leads c) timeUp (s.call c) y →
      y.weight (s.leads c) + 1 ≤ (s.call c).weight (s.leads c) + m) :
    t.weight n + 1 ≤ s.weight n + m := by
  cases h with
  | @acquire e requested todo hpc =>
      refine Nat.le_add_right_of_le (Waits.weight_setGuard (k := 1) (m := 0) (b := 0) _ hc c
        (fun l l' => ?_) fun d hd => .inl ?_)
      · simp only [WaitCall.weight, WaitCall.guardWeight, loopWeight, hpc, List.length_cons]
        omega
      · rw [tryAcquire_guards, if_neg hd]
  | @register e todo hpc hm =>
      refine Nat.le_add_right_of_le (Waits.weight_setGuard (k := 1) (m := 0) (b := 0) _ hc c
        (fun l l' => ?_) fun d hd => .inl ?_)
      · simp only [WaitCall.weight, WaitCall.guardWeight, loopWeight, hpc, List.length_cons]
        omega
      · rw [registerWaiter_guards, if_neg hd]
  | «return» hpc hb =>
      refine Nat.le_add_right_of_le (Waits.weight_setCall (k := 1) (m := 0) hc rfl ?_)
      simp only [WaitCall.weight, WaitCall.guardWeight, loopWeight, hpc]
      omega
  | @unregister e built hpc hb hm =>
      refine Nat.le_add_right_of_le (Waits.weight_setGuard (k := 1) (m := 0) (b := 0) _ hc c
        (fun l l' => ?_) fun d hd => .inl ?_)
      · simp only [WaitCall.weight, WaitCall.guardWeight, loopWeight, hpc, hb, List.length_cons]
        omega
      · rw [unregisterWaiter_guards, if_neg hd]
  | @handOn e w hpc hm hw =>
      have hhead := (Waits.leader_of_toWake hw).2.1
      have hpaid := Waits.weight_setGuard (s := s) (e := e)
        (y := { s.call c with pc := .notify e w }) (k := 8) (m := 0) (b := 7)
        (transferLeaderAndWake (s.ep e) c) hc w (fun l l' => ?_) fun d hd =>
          (transfer_isLeader_eq (s.ep e) hd).imp_right fun h => ⟨?_, le_rfl⟩
      · change ((s.setEp e (transferLeaderAndWake (s.ep e) c)).setCall c
          { s.call c with pc := .notify e w }).weight n + 1 ≤ _
        omega
      · simp only [WaitCall.weight, WaitCall.guardWeight, loopWeight, hpc]
        omega
      · exact Option.some.inj (h.symm.trans hhead)
  | @transfer e hpc hm hw =>
      have hpaid := Waits.weight_setGuard (s := s) (e := e)
        (y := { s.call c with pc := .unregister }) (k := 16) (m := 0) (b := 7)
        (transferLeaderAndWake (s.ep e) c) hc ((s.ep e).waitersList.headD c) (fun l l' => ?_)
        fun d hd => (transfer_isLeader_eq (s.ep e) hd).imp_right fun h => ⟨?_, le_rfl⟩
      · omega
      · simp only [WaitCall.weight, WaitCall.guardWeight, loopWeight, hpc]
        omega
      · rw [List.headD_eq_head?_getD, h]
        rfl
  | @notify e w hpc hm =>
      have hcall : ∀ d, (((s.setWaitersMutex e none).setCall w (s.call w).notified).setCall c
          { s.call c with pc := .unregister }).call d =
          if d = c then { s.call c with pc := .unregister }
          else if d = w then (s.call w).notified else s.call d := fun d => by
        rw [Waits.setCall_call, Waits.setCall_call]
        rfl
      have hleads : ∀ d, (((s.setWaitersMutex e none).setCall w (s.call w).notified).setCall c
          { s.call c with pc := .unregister }).leads d = s.leads d := fun d => by
        refine Waits.leads_congr ?_ fun _ => rfl
        rw [hcall]
        split
        case isTrue hd => rw [hd]
        case isFalse =>
          split
          case isTrue hd => rw [hd, WaitCall.notified_built]
          case isFalse => rfl
      have hpaid := Waits.weight_le (s := s) (k := 8) (m := 0) (b := 7) hc w
        (t := ((s.setWaitersMutex e none).setCall w (s.call w).notified).setCall c
          { s.call c with pc := .unregister }) ?_ fun d hd => ?_
      · omega
      · rw [hleads, hcall, if_pos rfl]
        simp only [WaitCall.weight, WaitCall.guardWeight, loopWeight, hpc]
        omega
      · rw [hleads, hcall, if_neg hd]
        split
        case isTrue hw => exact hw ▸ (s.call w).weight_notified _
        case isFalse => exact Nat.le_add_right _ _
  | loop h => exact Waits.weight_setCall hc h.built (hloop _ h)

/-- Whom an action is about. -/
def WaitAction.caller : WaitAction → ℕ
  | .enter c _ _ _ | .step c _ | .complete c | .notifyAll c | .rouse c _ => c

/-- **What the calls do by themselves brings them nearer to their rest.** -/
theorem weight_own {n : ℕ} {a : WaitAction} (ha : a.caller < n)
    (hown : ¬ FromOutside s a) (h : waitStep s a = some t) : t.weight n + 1 ≤ s.weight n := by
  cases a with
  | enter | complete | rouse => exact absurd trivial hown
  | step c timeUp =>
      obtain ⟨-, h⟩ := Option.ite_none_right_eq_some.1 h
      obtain ⟨hover, hdrive⟩ := not_or.1 hown
      obtain rfl := Bool.eq_false_iff.2 hover
      exact (callStep_moves h).weight (m := 0) ha fun y hy => hy.weight hdrive
  | notifyAll c =>
      obtain ⟨hm, h⟩ := Option.ite_none_right_eq_some.1 h
      obtain rfl := Option.some.inj h
      have hfree := WaitCall.weight_free hm (s.leads c)
      dsimp only
      split
      · refine Waits.weight_setCall (m := 0) ha WaitCall.notified_built ?_
        refine le_trans (Nat.add_le_add_right (WaitCall.weight_notified _ (s.leads c)) 1) ?_
        rw [Nat.add_assoc, Nat.add_zero]
        exact hfree.le
      · refine Waits.weight_setCall (m := 0) ha rfl ?_
        exact le_trans (Nat.add_le_add_left (by decide) _) hfree.le

/-- An event from outside takes them 47 steps away from it, at most: as many as a call of
`wait_num` has. -/
theorem WaitsInv.weight_outside {n : ℕ} (hs : WaitsInv s) {a : WaitAction} (ha : a.caller < n)
    (h : waitStep s a = some t) : t.weight n + 1 ≤ s.weight n + 48 := by
  cases a with
  | enter c kind timed count =>
      obtain ⟨⟨hpc, -⟩, h⟩ := Option.ite_none_right_eq_some.1 h
      obtain rfl := Option.some.inj h
      refine Waits.weight_setCall ha ((hs.placed c).built_of_outside hpc).symm ?_
      cases kind <;> simp only [WaitCall.weight, WaitCall.guardWeight, loopWeight, hpc,
        WaitKind.guards, List.length_cons, List.length_nil] <;> omega
  | step c timeUp =>
      obtain ⟨-, h⟩ := Option.ite_none_right_eq_some.1 h
      refine (callStep_moves h).weight ha fun y hy => ?_
      have := hy.weight_le
      omega
  | complete c =>
      obtain ⟨hm, h⟩ := Option.ite_none_right_eq_some.1 h
      obtain rfl := Option.some.inj h
      exact Waits.weight_setCall ha rfl
        (Nat.add_le_add_right ((s.call c).weight_complete _ _) 1 |>.trans (by omega))
  | notifyAll c =>
      have := weight_own ha id h
      omega
  | rouse c expired =>
      obtain ⟨⟨hpc, -⟩, h⟩ := Option.ite_none_right_eq_some.1 h
      obtain rfl := Option.some.inj h
      refine Waits.weight_setCall ha rfl ?_
      have hle := loopWeight_le ((s.call c).completed || (s.call c).isTimeout) (s.leads c)
        (s.call c).kind.locked (.roused expired)
      simp only [WaitCall.weight, WaitCall.guardWeight, hpc, WaitCall.completed] at hle ⊢
      omega

/-- **A run of many steps has many events from outside.** -/
theorem length_le_charged {as : List WaitAction} (h : exec waitStep waitsInit as = some s) :
    as.length ≤ 48 * charged waitStep FromOutside waitsInit as := by
  obtain ⟨n, hn⟩ : ∃ n, ∀ a ∈ as, a.caller < n := by
    refine ⟨(as.map WaitAction.caller).sum + 1, fun a ha => Nat.lt_succ_of_le ?_⟩
    exact List.le_sum_of_mem (List.mem_map_of_mem ha)
  have hlen : s.weight n + as.length ≤
      waitsInit.weight n + 48 * charged waitStep FromOutside waitsInit as := by
    refine exec_charged (I := WaitsInv) (A := fun a => a.caller < n) ?_ ?_ ?_ waitsInv_init hn h
    · exact fun _ _ _ hs _ h => hs.step h
    · exact fun _ _ _ _ ha hown h => weight_own ha hown h
    · exact fun _ _ _ hs ha _ h => hs.weight_outside ha h
  have hinit : waitsInit.weight n = 0 := Finset.sum_eq_zero fun _ _ => rfl
  omega

/-! ### Waiters with a leader -/

/-- Leadership has not been released when a requesting guard registers. -/
def RegistersInTime (s : Waits) : WaitAction → Prop
  | .step c _ => ∀ e todo, (s.call c).pc = .register e todo →
      RegistersUnderLeader (s.ep e) (.registerWaiter c)
  | _ => True

theorem WaitPc.registering_eq_some_iff {x : WaitPc} :
    x.registering = some e ↔ ∃ todo, x = .register e todo := by
  constructor
  · intro h
    unfold WaitPc.registering at h
    split at h
    case h_1 e' todo => exact ⟨todo, by rw [Option.some.inj h]⟩
    case h_2 => cases h
  · rintro ⟨todo, rfl⟩
    rfl

instance (s : Waits) : DecidablePred (RegistersInTime s)
  | .step c _ => decidable_of_iff
      (∀ e ∈ (s.call c).pc.registering,
        ((s.ep e).guards c).requested = true → (s.ep e).inProgress = true)
      ⟨fun h e todo hpc => h e (WaitPc.registering_eq_some_iff.2 ⟨todo, hpc⟩), fun h e he =>
        (WaitPc.registering_eq_some_iff.1 he).elim fun todo hpc => h e todo hpc⟩
  | .enter .. | .complete _ | .notifyAll _ | .rouse .. => .isTrue trivial

theorem WaitsInv.noOrphan_setEp (hs : WaitsInv s) (hno : ∀ e, NoOrphan (s.ep e)) {ep : Endpoint}
    {a : GuardAction} (h : guardStep (s.ep e) a = some ep) (ha : RegistersUnderLeader (s.ep e) a) :
    ∀ e', NoOrphan ((s.setEp e ep).ep e') := by
  intro e'
  rw [Waits.setEp_ep]
  split
  case isTrue =>
    obtain ⟨leader, hinv⟩ := hs.ep e
    exact (hinv.noOrphan_step (hno e) h).2 ha
  case isFalse => exact hno e'

/-- A waiter that registers in time is not orphaned. -/
theorem WaitsInv.noOrphan (hs : WaitsInv s) (hno : ∀ e, NoOrphan (s.ep e)) {a : WaitAction}
    (hin : RegistersInTime s a) (h : waitStep s a = some t) : ∀ e, NoOrphan (t.ep e) := by
  cases a with
  | enter | complete | notifyAll | rouse =>
      obtain ⟨-, h⟩ := Option.ite_none_right_eq_some.1 h
      obtain rfl := Option.some.inj h
      exact hno
  | step c timeUp =>
      obtain ⟨-, h⟩ := Option.ite_none_right_eq_some.1 h
      have hplaced := hs.placed c
      cases callStep_moves h with
      | @acquire e requested todo hpc =>
          refine hs.noOrphan_setEp hno (a := .tryAcquire c requested) (if_pos ?_) trivial
          exact hplaced.absent e (by rw [hpc]; exact List.mem_cons_self)
      | @register e todo hpc hm =>
          refine hs.noOrphan_setEp hno (a := .registerWaiter c) (if_pos ?_) (hin e todo hpc)
          exact (hplaced.acquired e).2 (by rw [hpc]; rfl)
      | @unregister e built hpc hb hm =>
          refine hs.noOrphan_setEp hno (a := .unregisterWaiter c) (if_pos ?_) trivial
          exact (hplaced.registered e).2 (by rw [hb]; exact List.mem_cons_self)
      | @handOn e w hpc hm hw =>
          refine hs.noOrphan_setEp hno (a := .transferLeaderAndWake c) (if_pos ?_) trivial
          exact (hplaced.unregistered e).2 (by rw [hpc]; rfl)
      | @transfer e hpc hm hw =>
          refine hs.noOrphan_setEp hno (a := .transferLeaderAndWake c) (if_pos ?_) trivial
          exact (hplaced.unregistered e).2 (by rw [hpc]; rfl)
      | «return» | notify | loop => exact hno

/-- **Who waits is driven.**  A run has at most 48 steps for each event from outside.  When only
such an event can go on, each call in its loop waits for what is not completed, asleep or as a
leader, and an endpoint whose leadership is held is driven by one call; that is each endpoint with
a requesting guard, if no such guard has registered after leadership was released. -/
theorem waiters_driven {as : List WaitAction} (h : exec waitStep waitsInit as = some s) :
    as.length ≤ 48 * charged waitStep FromOutside waitsInit as ∧
      (AtRest s →
        (∀ c, (s.call c).pc ≠ .outside → (s.call c).pc ≠ .returned →
          (s.call c).kind.sleeps = true ∧ (s.call c).completed = false ∧
            ((s.call c).pc = .asleep ∨ (s.call c).pc = .drive ∧ s.leads c = true)) ∧
          (∀ e, (s.ep e).inProgress = true →
            ∃! c, (s.call c).pc = .drive ∧ ((s.ep e).guards c).isLeader = true) ∧
          (Meets waitStep RegistersInTime waitsInit as → ∀ c e, e ∈ (s.call c).built →
            ((s.ep e).guards c).requested = true → (s.ep e).inProgress = true)) := by
  have hs : WaitsInv s := exec_invariant (fun _ _ _ hs => hs.step) waitsInv_init h
  have hboth : WaitsInv s ∧ DriversLead s :=
    exec_invariant (P := fun s => WaitsInv s ∧ DriversLead s)
      (fun _ _ _ hs h => ⟨hs.1.step h, hs.2.step h hs.1⟩)
      ⟨waitsInv_init, fun _ hpc => by cases hpc⟩ h
  refine ⟨length_le_charged h, fun hrest => ?_⟩
  obtain ⟨hcalls, hdriven⟩ := hrest.driven hs hboth.2
  refine ⟨hcalls, hdriven, fun hmeets c e hmem hreq => ?_⟩
  have hno : WaitsInv s ∧ ∀ e, NoOrphan (s.ep e) := by
    refine (always_of_meets (P := fun s => WaitsInv s ∧ ∀ e, NoOrphan (s.ep e)) ?_ ?_ hmeets).last h
    · exact fun _ _ _ hs hin h => ⟨hs.1.step h, hs.1.noOrphan hs.2 hin h⟩
    · exact ⟨waitsInv_init, fun _ ⟨_, hg, _⟩ => by cases hg⟩
  exact (hno.2 e ⟨c, ((hs.placed c).registered e).2 hmem, hreq⟩).1

/-- The call 0 hands over to the call 1, which goes on to drive. -/
def handedOver : List WaitAction :=
  handingOver ++ [.step 0 false, .step 0 false] ++ List.replicate 4 (.step 1 false)

/-- The call that an action is about. -/
def WaitAction.about : WaitAction → ℕ
  | .enter c .. | .step c _ | .complete c | .notifyAll c | .rouse c _ => c

/-- A call that has not begun is at rest. -/
theorem rests_of_untouched {as : List WaitAction} (hc : ∀ a ∈ as, a.about ≠ c)
    (h : exec waitStep waitsInit as = some s) :
    (s.call c).mutex = none ∧ (s.call c).pc = .outside := by
  refine exec_invariant_mem (P := fun s => (s.call c).mutex = none ∧ (s.call c).pc = .outside)
    (fun s a t hs ha ht => ?_) ⟨rfl, rfl⟩ hc h
  have hset : ∀ {d x}, d ≠ c → (s.setCall d x).call c = s.call c := fun hd =>
    Function.update_of_ne hd.symm ..
  cases a with
  | step d timeUp =>
      obtain ⟨-, ht⟩ := Option.ite_none_right_eq_some.1 ht
      have hnotified : (s.call c).notified = s.call c := by
        simp [WaitCall.notified, hs.2]
      rcases ((callStep_moves ht).others (Ne.symm ha)).1 with hcall | hcall
      · rwa [hcall]
      · rwa [hcall, hnotified]
  | enter d | complete d | notifyAll d | rouse d =>
      obtain ⟨-, ht⟩ := Option.ite_none_right_eq_some.1 ht
      obtain rfl := Option.some.inj ht
      rwa [hset (d := d) ha]

/-- At the end both calls are at rest: the one has returned, and the other leads. -/
theorem waiters_driven_handedOver : ∃ s, exec waitStep waitsInit handedOver = some s ∧
    (s.call 1).pc = .drive ∧
    handedOver.length ≤ 48 * charged waitStep FromOutside waitsInit handedOver ∧
    (∀ c, (s.call c).pc ≠ .outside → (s.call c).pc ≠ .returned →
      (s.call c).kind.sleeps = true ∧ (s.call c).completed = false ∧
        ((s.call c).pc = .asleep ∨ (s.call c).pc = .drive ∧ s.leads c = true)) ∧
    (∀ e, (s.ep e).inProgress = true →
      ∃! c, (s.call c).pc = .drive ∧ ((s.ep e).guards c).isLeader = true) ∧
    ∀ c e, e ∈ (s.call c).built → ((s.ep e).guards c).requested = true →
      (s.ep e).inProgress = true := by
  have hrun := (Option.some_get (x := exec waitStep waitsInit handedOver) (by decide)).symm
  have hs := exec_invariant (fun _ _ _ hs => WaitsInv.step hs) waitsInv_init hrun
  have hrest : AtRest ((exec waitStep waitsInit handedOver).get (by decide)) := by
    refine hs.atRest_iff.2 fun c => ?_
    rcases Nat.lt_or_ge c 2 with hc | hc
    · have hboth : ∀ c < 2, (((exec waitStep waitsInit handedOver).get (by decide)).call c).mutex =
          none ∧
          ((((exec waitStep waitsInit handedOver).get (by decide)).call c).pc = .returned ∨
            (((exec waitStep waitsInit handedOver).get (by decide)).call c).pc = .drive ∧
              (((exec waitStep waitsInit handedOver).get (by decide)).call c).StillWaits) := by
        decide
      exact ⟨(hboth c hc).1, .inr ((hboth c hc).2.imp_right .inr)⟩
    · have htouch : ∀ a ∈ handedOver, a.about < 2 := by decide
      have hout := rests_of_untouched (c := c)
        (fun a ha => (Nat.lt_of_lt_of_le (htouch a ha) hc).ne) hrun
      exact ⟨hout.1, .inl hout.2⟩
  obtain ⟨hlength, hall⟩ := waiters_driven hrun
  obtain ⟨hcalls, hdriven, hled⟩ := hall hrest
  exact ⟨_, hrun, by decide, hlength, hcalls, hdriven, hled (by decide)⟩

end Progress
end Lfi
