/-
# The walk of a monitoring pass

When no any-comm receive is outstanding `one_loop` goes through `ft_comms`.

    auto comm = lfi_ep.ft_comms.head;
    while (comm) {
        if (comm == nullptr) break;
        ft_ep_lock.unlock();
        process_comm(comm, ft_ms, lfi_ep.ft_canceled_coms, now);
        ft_ep_lock.lock();
        comm = comm->next;
    }

`process_comm` takes a communicator without requests out of the list, and `erase` clears its
`next`: then the walk is over, whoever comes behind (`walk_misses`).  `walk_visits_iff` says
when everybody is visited.  Between the calls the lock is free, and other threads post, complete,
cancel and free requests; a post puts its communicator at the end of the list when it is not in
it.  A `close_comm` is not among what they do here: like a `process_comm` of a communicator without
requests it would take one out from under the walk.  `walkFtComms` is the walk on which nothing
comes in between (`walkFtComms_run`).
-/

import Lfi.Data.ListWalk
import Lfi.Impl.Engine
import Lfi.Runs.Simulation

namespace Lfi
namespace Impl

open Data Runs

section Steps

/-- The walk: where it is, and on whom `process_comm` was called, which is history. -/
structure FtWalk where
  state : State
  place : Place CommId
  visited : List CommId

inductive WalkAction where
  /-- `process_comm(comm)`; `beat` is what the clock reads after a heartbeat is posted. -/
  | process (beat : ℤ)
  /-- `comm = comm->next`. -/
  | next
  /-- What another thread does meanwhile; it closes no communicator. -/
  | other (a : EngineAction)

/-- The steps of the walk itself. -/
def WalkAction.own : WalkAction → Bool
  | .process _ | .next => true
  | .other _ => false

/-- One step.  A pass is the leader's alone. -/
def walkStep (env : Env) (now : ℤ) (w : FtWalk) : WalkAction → Option FtWalk
  | .process beat =>
      match w.place with
      | .at c => some
          ⟨processComm env now (fun _ => beat) w.state c, .after c, w.visited ++ [c]⟩
      | _ => none
  | .next =>
      match w.place with
      | .after c => some { w with place := .ofNext (w.state.ft.commNodes c).next }
      | _ => none
  | .other (.oneLoop _) => none
  | .other a => (engineStep env w.state a).map fun s => { w with state := s }

/-- Before the loop. -/
def FtWalk.start (s : State) : FtWalk := ⟨s, .ofNext s.ft.ftComms.head, []⟩

/-- `ft_comms` is a well-formed list of the communicators `xs`: they are those that are there
and `inserted`, and the others have no links. -/
structure Lists (s : Ft) (xs : List CommId) : Prop where
  rep : Rep s.commNodes s.ftComms xs
  mem : ∀ c, c ∈ xs ↔ c ∈ s.commIds ∧ (s.commNodes c).inserted = true
  free : ∀ c, (s.commNodes c).inserted = false → s.commNodes c = Node.free

/-- Of the communicators that were in the list at the beginning, all but the last have requests
when they are processed. -/
def HasRequests (xs : List CommId) (w : FtWalk) : WalkAction → Prop
  | .process _ => ∀ c, w.place = .at c → c ∈ xs.dropLast →
      (w.state.ft.comm c).ftRequests.size ≠ 0
  | _ => True

end Steps

section Pushes

variable {env : Env} {now : ℤ} {s t : State} {c : CommId}

/-- The list stays as it is, or a communicator that is not in it is put at its end. -/
def Pushes (s t : Ft) : Prop :=
  t.commIds = s.commIds ∧ ((t.commNodes = s.commNodes ∧ t.ftComms = s.ftComms) ∨
    ∃ c ∈ s.commIds, (s.commNodes c).inserted = false ∧
      t.commNodes = (pushComm s c).commNodes ∧ t.ftComms = (pushComm s c).ftComms)

theorem pushes_of_progressed (h : Progressed s t) : Pushes s.ft t.ft :=
  ⟨h.commIds, .inl ⟨h.commNodes, h.ftComms⟩⟩

theorem links_of_fixed {s t : Ft} (h : t.fixed = s.fixed) :
    t.commIds = s.commIds ∧ t.commNodes = s.commNodes ∧ t.ftComms = s.ftComms :=
  ⟨show t.fixed.commIds = s.fixed.commIds by rw [h],
    show t.fixed.commNodes = s.fixed.commNodes by rw [h],
    show t.fixed.ftComms = s.fixed.ftComms by rw [h]⟩

theorem pushes_registerRequest {s : Ft} (r : ReqId) (hc : c ∈ s.commIds) :
    Pushes s (registerRequest s r c) := by
  have hfixed := registerRequest_fixed s r c
  split at hfixed
  case isTrue =>
    obtain ⟨hids, hlinks⟩ := links_of_fixed hfixed
    exact ⟨hids, .inl hlinks⟩
  case isFalse hnot =>
    obtain ⟨hids, hlinks⟩ := links_of_fixed hfixed
    exact ⟨hids, .inr ⟨c, hc, Bool.eq_false_iff.2 fun h => hnot (.inr h), hlinks⟩⟩

theorem pushes_asyncPost (env : Env) (s : State) (r : ReqId) (call : PostCall) :
    Pushes s.ft (asyncPost env s r call).2.ft := by
  rcases asyncPost_cases env s r call with ⟨-, h⟩ | ⟨q, f, o, priority, -, hc, -, -, -, h⟩
  · rw [h]
    exact ⟨rfl, .inl ⟨rfl, rfl⟩⟩
  · rw [h, post]
    dsimp only
    split
    case isTrue => exact pushes_registerRequest r hc
    case isFalse => exact ⟨rfl, .inl ⟨rfl, rfl⟩⟩

/-- Other threads put somebody at the end at most. -/
theorem pushes_engineStep {a : EngineAction} (ha : ∀ input, a ≠ .oneLoop input)
    (h : engineStep env s a = some t) : Pushes s.ft t.ft := by
  cases a with
  | post k call =>
      rw [engineStep] at h
      split at h
      case isTrue => exact Option.some.inj h ▸ pushes_asyncPost env s (.user k) call
      case isFalse => cases h
  | fabric e => exact Option.some.inj h ▸ pushes_of_progressed (fabricEvent_progressed e)
  | cancel k events =>
      exact Option.some.inj h ▸ pushes_of_progressed (cancel_progressed (.user k) events)
  | free k events =>
      exact Option.some.inj h ▸ pushes_of_progressed (requestFree_progressed (.user k) events)
  | oneLoop input => exact absurd rfl (ha input)

/-- A heartbeat is posted as everything else. -/
theorem pushes_startHeartbeat (s : State) (c : CommId) (beat : ℤ) :
    Pushes s.ft (startHeartbeat env s c beat).ft := by
  have hget := pushes_asyncPost env ⟨reset (ensureHeartbeat s.core c) (.heartbeat c),
    clearValue s.ft c⟩ (.heartbeat c) (.get 0 8 (s.ft.comm c).ftRemoteHeartbeatAddr
      (s.ft.comm c).ftRemoteHeartbeatKey true)
  rw [startHeartbeat]
  dsimp only
  split
  case isTrue =>
    split
    case isTrue => exact hget
    case isFalse => exact hget
  case isFalse => exact ⟨rfl, .inl ⟨rfl, rfl⟩⟩

/-- `process_comm` leaves a communicator with requests in the list. -/
theorem pushes_processComm (env : Env) (now : ℤ) (beat : CommId → ℤ)
    (h : (s.ft.comm c).ftRequests.size ≠ 0) :
    Pushes s.ft (processComm env now beat s c).ft := by
  rcases processComm_cases env now beat s c with ⟨hsize, -⟩ | ⟨-, -, -, heq⟩ | ⟨-, -, -, heq⟩ |
    ⟨-, -, -, -, heq⟩ | ⟨-, -, -, heq⟩
  · exact absurd hsize h
  · rw [heq]
    exact pushes_startHeartbeat s c (beat c)
  · rw [heq]
    exact ⟨rfl, .inl ⟨rfl, rfl⟩⟩
  · rw [heq]
    exact ⟨rfl, .inl ⟨rfl, rfl⟩⟩
  · rw [heq]
    exact ⟨rfl, .inl ⟨rfl, rfl⟩⟩

end Pushes

section Links

variable {s t : Ft} {xs : List CommId} {c : CommId}

theorem Lists.congr (h : Lists s xs) (hids : t.commIds = s.commIds)
    (hnodes : t.commNodes = s.commNodes) (hlist : t.ftComms = s.ftComms) : Lists t xs := by
  refine ⟨by rw [hnodes, hlist]; exact h.rep, fun c => by rw [hids, hnodes]; exact h.mem c,
    fun c hc => ?_⟩
  rw [hnodes] at hc ⊢
  exact h.free c hc

theorem Lists.pushComm (h : Lists s xs) (hc : c ∈ s.commIds)
    (hins : (s.commNodes c).inserted = false) : Lists (pushComm s c) (xs ++ [c]) := by
  have hnot : ∀ d, (s.commNodes d).inserted = false → d ∉ xs := fun d hd hmem => by
    rw [((h.mem d).1 hmem).2] at hd
    cases hd
  refine ⟨h.rep.pushBack (h.free c hins), fun d => ?_, fun d hd => ?_⟩
  · show d ∈ xs ++ [c] ↔ d ∈ s.commIds ∧ ((pushBack s.commNodes s.ftComms c).1 d).inserted = true
    rw [List.mem_append, List.mem_singleton, h.mem, pushBack_inserted]
    constructor
    · rintro (⟨hids, hd⟩ | rfl)
      · exact ⟨hids, .inr hd⟩
      · exact ⟨hc, .inl rfl⟩
    · rintro ⟨hids, rfl | hd⟩
      · exact .inr rfl
      · exact .inl ⟨hids, hd⟩
  · have hd' : ¬ ((pushBack s.commNodes s.ftComms c).1 d).inserted = true :=
      Bool.eq_false_iff.1 hd
    rw [pushBack_inserted, not_or] at hd'
    have hfree := Bool.eq_false_iff.2 hd'.2
    exact (pushBack_frame h.rep hd'.1 (hnot d hfree)).trans (h.free d hfree)

theorem Lists.eraseComm (h : Lists s xs) (hc : c ∈ xs) :
    Lists (eraseComm s c) (xs.erase c) := by
  refine ⟨h.rep.erase hc, fun d => ?_, fun d hd => ?_⟩
  · show d ∈ xs.erase c ↔ d ∈ s.commIds ∧ ((erase s.commNodes s.ftComms c).1 d).inserted = true
    rw [h.rep.nodup.mem_erase_iff, h.mem, erase_inserted]
    exact and_left_comm
  · by_cases hdc : d = c
    · subst hdc
      exact erase_self
    · have hd' : ¬ ((erase s.commNodes s.ftComms c).1 d).inserted = true := Bool.eq_false_iff.1 hd
      rw [erase_inserted, not_and] at hd'
      have hfree := Bool.eq_false_iff.2 (hd' hdc)
      have hnot : d ∉ xs := fun hmem => hd' hdc ((h.mem d).1 hmem).2
      exact (erase_frame h.rep hc hnot).trans (h.free d hfree)

/-- `next` is the element behind. -/
theorem Lists.next (h : Lists s xs) (hc : c ∈ s.commIds) :
    (s.commNodes c).next = (ListWalk.behind xs c).head? := by
  by_cases hmem : c ∈ xs
  · obtain ⟨l, -, heq⟩ := ListWalk.eq_append_behind hmem
    have hrep := h.rep
    rw [heq] at hrep
    rw [hrep.neighbours.1]
  · have hfree : (s.commNodes c).inserted = false :=
      Bool.eq_false_iff.2 fun hins => hmem ((h.mem c).2 ⟨hc, hins⟩)
    rw [h.free c hfree, ListWalk.behind_of_notMem hmem]
    rfl

end Links

section Simulation

variable {env : Env} {now : ℤ}

/-- The walk is one along the list that `ft_comms` is. -/
structure Sim (w : FtWalk) (v : ListWalk CommId) : Prop where
  lists : Lists w.state.ft v.members
  place : w.place = v.place
  visited : w.visited = v.visited
  ids : ∀ c ∈ w.visited, c ∈ w.state.ft.commIds
  inv : v.Inv

/-- Somebody is put at the end, or nothing happens. -/
theorem Sim.pushes {w : FtWalk} {v : ListWalk CommId} {t : State} (h : Sim w v)
    (xs : List CommId) (ht : Pushes w.state.ft t.ft) :
    ∃ bs v', exec ListWalk.step v bs = some v' ∧ Sim { w with state := t } v' ∧
      Meets ListWalk.step (ListWalk.KeepsMembers xs) v bs := by
  obtain ⟨hids, ⟨hnodes, hlist⟩ | ⟨c, hc, hins, hnodes, hlist⟩⟩ := ht
  · exact ⟨[], v, rfl, ⟨h.lists.congr hids hnodes hlist, h.place, h.visited,
      fun c hc => by rw [hids]; exact h.ids c hc, h.inv⟩, trivial⟩
  · have hnot : c ∉ v.members := fun hmem => by
      rw [((h.lists.mem c).1 hmem).2] at hins
      cases hins
    have hstep : ListWalk.step v (.push c) = some { v with members := v.members ++ [c] } :=
      if_neg hnot
    refine ⟨[.push c], { v with members := v.members ++ [c] }, by rw [exec_cons, hstep]; rfl,
      ⟨?_, h.place, h.visited, fun d hd => ?_, h.inv.step hstep⟩, trivial, fun _ _ => trivial⟩
    · exact (h.lists.pushComm hc hins).congr hids hnodes hlist
    · rw [hids]
      exact h.ids d hd

theorem walkStep_other_eq (w : FtWalk) {a : EngineAction} (ha : ∀ input, a ≠ .oneLoop input) :
    walkStep env now w (.other a) =
      (engineStep env w.state a).map fun s => { w with state := s } := by
  cases a with
  | oneLoop input => exact absurd rfl (ha input)
  | _ => rfl

theorem walkStep_other {w w' : FtWalk} {a : EngineAction}
    (h : walkStep env now w (.other a) = some w') : (∀ input, a ≠ .oneLoop input) ∧
      ∃ t, engineStep env w.state a = some t ∧ w' = { w with state := t } := by
  cases a with
  | oneLoop input => cases h
  | _ =>
      rw [walkStep_other_eq w (by simp), Option.map_eq_some_iff] at h
      obtain ⟨t, ht, rfl⟩ := h
      exact ⟨by simp, t, ht, rfl⟩

/-- One step of the walk, in steps of a walk along a list. -/
theorem Sim.step {w w' : FtWalk} {v : ListWalk CommId} {a : WalkAction} (h : Sim w v)
    (xs : List CommId) (hstep : walkStep env now w a = some w') :
    ∃ bs v', exec ListWalk.step v bs = some v' ∧ Sim w' v' ∧
      (HasRequests xs w a ↔ Meets ListWalk.step (ListWalk.KeepsMembers xs) v bs) := by
  match a with
  | .process beat =>
      rw [walkStep] at hstep
      split at hstep
      case h_2 => cases hstep
      case h_1 c hp =>
        obtain rfl := Option.some.inj hstep
        have hplace : v.place = .at c := h.place.symm.trans hp
        have hmem := h.inv.here c hplace
        have hids : c ∈ w.state.ft.commIds := ((h.lists.mem c).1 hmem).1
        have hvisited : ∀ d ∈ w.visited ++ [c], d ∈ w.state.ft.commIds := by
          intro d hd
          rcases List.mem_append.1 hd with hd | hd
          · exact h.ids d hd
          · exact List.mem_singleton.1 hd ▸ hids
        have hvisit : ∀ keep, ListWalk.step v (.visit keep) = some
            ⟨if keep then v.members else v.members.erase c, .after c, v.visited ++ [c]⟩ := by
          intro keep
          rw [ListWalk.step, hplace]
        by_cases hsize : (w.state.ft.comm c).ftRequests.size = 0
        · refine ⟨[.visit false], _, by rw [exec_cons, hvisit]; rfl, ⟨?_, rfl, ?_, ?_,
            h.inv.step (hvisit false)⟩, ?_⟩
          · rw [processComm_of_empty hsize]
            exact h.lists.eraseComm hmem
          · rw [h.visited]
          · rw [processComm_of_empty hsize]
            exact hvisited
          · simp [HasRequests, Meets, ListWalk.KeepsMembers, hp, hplace, hsize]
        · have hkeep : Sim { w with place := .after c, visited := w.visited ++ [c] }
              ⟨v.members, .after c, v.visited ++ [c]⟩ :=
            ⟨h.lists, rfl, by rw [h.visited], hvisited, h.inv.step (hvisit true)⟩
          obtain ⟨bs, v', hbs, hsim, hmeets⟩ := hkeep.pushes xs
            (pushes_processComm env now (fun _ => beat) hsize)
          refine ⟨.visit true :: bs, v', by rw [exec_cons, hvisit]; exact hbs, hsim, ?_⟩
          refine iff_of_true (fun d hd _ => ?_) ⟨.inl rfl, fun u hu => ?_⟩
          · rw [hp] at hd
            exact Place.at.inj hd ▸ hsize
          · obtain rfl := Option.some.inj ((hvisit true).symm.trans hu)
            exact hmeets
  | .next =>
      rw [walkStep] at hstep
      split at hstep
      case h_2 => cases hstep
      case h_1 c hp =>
        obtain rfl := Option.some.inj hstep
        have hplace : v.place = .after c := h.place.symm.trans hp
        have hids : c ∈ w.state.ft.commIds :=
          h.ids c (h.visited ▸ h.inv.there c hplace)
        have hnext : ListWalk.step v .next = some
            { v with place := .ofNext (ListWalk.behind v.members c).head? } := by
          rw [ListWalk.step, hplace]
        refine ⟨[.next], { v with place := .ofNext (ListWalk.behind v.members c).head? },
          by rw [exec_cons, hnext]; rfl, ⟨h.lists, ?_, h.visited, h.ids,
          h.inv.step hnext⟩, iff_of_true trivial ⟨trivial, fun _ _ => trivial⟩⟩
        rw [h.lists.next hids]
  | .other a =>
      obtain ⟨ha, t, ht, rfl⟩ := walkStep_other hstep
      obtain ⟨bs, v', hbs, hsim, hmeets⟩ := h.pushes xs (pushes_engineStep ha ht)
      exact ⟨bs, v', hbs, hsim, iff_of_true trivial hmeets⟩

end Simulation

section Result

variable {env : Env} {now : ℤ} {s : State} {xs : List CommId}

theorem Sim.start (hs : Lists s.ft xs) : Sim (FtWalk.start s) (ListWalk.start xs) where
  lists := hs
  place := by rw [FtWalk.start, ListWalk.start, hs.rep.head_eq]
  visited := rfl
  ids c hc := absurd hc List.not_mem_nil
  inv := .start hs.rep.nodup

theorem Sim.run {w : FtWalk} {v : ListWalk CommId} {as : List WalkAction} {w' : FtWalk}
    (h : Sim w v) (hs : exec (walkStep env now) w as = some w') : ∃ v', Sim w' v' := by
  obtain ⟨-, v', -, hsim, -⟩ := exec_followed (R := Sim)
    (fun _ _ _ _ hsim hstep => hsim.step [] hstep) h hs
  exact ⟨v', hsim⟩

/-- Nobody is visited twice, so there are no more visits than communicators. -/
theorem Sim.length_visited_le {w : FtWalk} {v : ListWalk CommId} (h : Sim w v) :
    w.visited.length ≤ w.state.ft.commIds.card := by
  have hnodup : w.visited.Nodup := h.visited ▸ h.inv.visited
  rw [← List.toFinset_card_of_nodup hnodup]
  exact Finset.card_le_card fun c hc => h.ids c (List.mem_toFinset.1 hc)

/-- And there is one more communicator than visits before the next visit. -/
theorem Sim.length_visited_lt {w : FtWalk} {v : ListWalk CommId} (h : Sim w v) {c : CommId}
    (hp : w.place = .at c) : w.visited.length < w.state.ft.commIds.card := by
  have hplace : v.place = .at c := h.place.symm.trans hp
  have hnew : c ∉ w.visited := fun hv => h.inv.notAhead c (h.visited ▸ hv) (by
    simp only [ListWalk.ahead, hplace]
    exact List.mem_cons_self)
  have hnodup : (c :: w.visited).Nodup :=
    List.nodup_cons.2 ⟨hnew, h.visited ▸ h.inv.visited⟩
  rw [← Nat.succ_le_iff, ← Nat.add_one, ← List.length_cons (a := c),
    ← List.toFinset_card_of_nodup hnodup]
  refine Finset.card_le_card fun d hd => ?_
  rcases List.mem_cons.1 (List.mem_toFinset.1 hd) with rfl | hd
  · exact ((h.lists.mem d).1 (h.inv.here d hplace)).1
  · exact h.ids d hd

/-- The walk owes a step after a visit. -/
def owed : Place CommId → ℕ
  | .after _ => 1
  | _ => 0

/-- Its steps are two for each visit. -/
theorem countP_own {as : List WalkAction} {w : FtWalk}
    (h : exec (walkStep env now) (FtWalk.start s) as = some w) :
    as.countP WalkAction.own + owed w.place = 2 * w.visited.length ∧
      w.state.ft.commIds = s.ft.commIds := by
  refine exec_snoc_induction (M := fun as w =>
    as.countP WalkAction.own + owed w.place = 2 * w.visited.length ∧
      w.state.ft.commIds = s.ft.commIds) ?_ (fun as a u w _ hu hstep => ?_) as w h
  · cases hhead : s.ft.ftComms.head <;> simp [FtWalk.start, hhead, Place.ofNext, owed]
  · obtain ⟨hcount, hids⟩ := hu
    rw [List.countP_append, List.countP_singleton]
    match a with
    | .process beat =>
        rw [walkStep] at hstep
        split at hstep
        case h_2 => cases hstep
        case h_1 c hp =>
          obtain rfl := Option.some.inj hstep
          rw [hp] at hcount
          refine ⟨by simp [owed, WalkAction.own] at hcount ⊢; omega, ?_⟩
          by_cases hsize : (u.state.ft.comm c).ftRequests.size = 0
          · rw [processComm_of_empty hsize]
            exact hids
          · exact (pushes_processComm env now (fun _ => beat) hsize).1.trans hids
    | .next =>
        rw [walkStep] at hstep
        split at hstep
        case h_2 => cases hstep
        case h_1 c hp =>
          obtain rfl := Option.some.inj hstep
          rw [hp] at hcount
          refine ⟨?_, hids⟩
          cases hnext : (u.state.ft.commNodes c).next <;>
            simp [owed, WalkAction.own, Place.ofNext] at hcount ⊢ <;> omega
    | .other a =>
        obtain ⟨ha, t, ht, rfl⟩ := walkStep_other hstep
        exact ⟨by simpa [WalkAction.own] using hcount, (pushes_engineStep ha ht).1.trans hids⟩

/-- The walk can always go on. -/
theorem exists_own (env : Env) (now : ℤ) (w : FtWalk) : w.place = .ended ∨
    ∃ a : WalkAction, a.own = true ∧ (walkStep env now w a).isSome := by
  cases hp : w.place with
  | ended => exact .inl rfl
  | «at» c => exact .inr ⟨.process 0, rfl, by rw [walkStep, hp]; rfl⟩
  | after c => exact .inr ⟨.next, rfl, by rw [walkStep, hp]; rfl⟩

/-- **The walk of a monitoring pass.**  Whatever requests other threads post, complete, cancel and
free meanwhile, it is over after two steps for each communicator at most; and when it is over,
`process_comm` was called once on everybody who was in the list at the beginning exactly if all of
them but the last had requests when it was their turn. -/
theorem walk_visits_iff (hs : Lists s.ft xs) {as : List WalkAction} {w : FtWalk}
    (h : exec (walkStep env now) (FtWalk.start s) as = some w) :
    (as.countP WalkAction.own ≤ 2 * s.ft.commIds.card ∧
      (w.place = .ended ∨ ∃ a : WalkAction, a.own = true ∧ (walkStep env now w a).isSome)) ∧
    (w.place = .ended → ((∀ c ∈ xs, w.visited.count c = 1) ↔
      Meets (walkStep env now) (HasRequests xs) (FtWalk.start s) as)) := by
  obtain ⟨bs, v, hbs, hsim, hmeets⟩ := exec_followed (R := Sim)
    (fun _ _ _ _ hsim hstep => hsim.step xs hstep) (Sim.start hs) h
  obtain ⟨hcount, hids⟩ := countP_own h
  refine ⟨⟨?_, exists_own env now w⟩, fun hended => ?_⟩
  · have hle := hsim.length_visited_le
    rw [hids] at hle
    omega
  · have hvisits := ListWalk.visits_all_iff hs.rep.nodup hbs (hsim.place.symm.trans hended)
    rw [hmeets, ← hvisits, ← hsim.visited]
    refine forall₂_congr fun c _ => ?_
    have hnodup : w.visited.Nodup := hsim.visited ▸ hsim.inv.visited
    rw [hnodup.count]
    simp

/-- **`walkFtComms` is a walk** on which nothing comes in between, and it goes to the end. -/
theorem walkFtComms_run (hs : Lists s.ft xs) (beat : CommId → ℤ) :
    ∃ as w, exec (walkStep env now) (FtWalk.start s) as = some w ∧
      (∀ a ∈ as, WalkAction.own a = true) ∧ w.place = .ended ∧
      w.state = walkFtComms env now beat s.ft.commIds.card s.ft.ftComms.head s := by
  have hrun : ∀ (fuel : ℕ) (c : Option CommId) (w : FtWalk) (v : ListWalk CommId), Sim w v →
      w.place = .ofNext c → w.state.ft.commIds.card ≤ w.visited.length + fuel →
      ∃ as w', exec (walkStep env now) w as = some w' ∧ (∀ a ∈ as, WalkAction.own a = true) ∧
        w'.place = .ended ∧ w'.state = walkFtComms env now beat fuel c w.state := by
    intro fuel
    induction fuel with
    | zero =>
        intro c w v hsim hp hfuel
        cases c with
        | none => exact ⟨[], w, rfl, by simp, hp, rfl⟩
        | some c => exact absurd hfuel (not_le.2 (hsim.length_visited_lt hp))
    | succ fuel ih =>
        intro c w v hsim hp hfuel
        cases c with
        | none => exact ⟨[], w, rfl, by simp, hp, rfl⟩
        | some c =>
            have hprocess : walkStep env now w (.process (beat c)) = some
                ⟨processComm env now beat w.state c, .after c, w.visited ++ [c]⟩ := by
              rw [walkStep, hp]
              rfl
            obtain ⟨-, v', -, hsim', -⟩ := hsim.step [] hprocess
            have hnext : walkStep env now
                ⟨processComm env now beat w.state c, .after c, w.visited ++ [c]⟩ .next = some
                ⟨processComm env now beat w.state c,
                  .ofNext ((processComm env now beat w.state c).ft.commNodes c).next,
                  w.visited ++ [c]⟩ := rfl
            obtain ⟨-, v'', -, hsim'', -⟩ := hsim'.step [] hnext
            have hids : (processComm env now beat w.state c).ft.commIds = w.state.ft.commIds := by
              by_cases hsize : (w.state.ft.comm c).ftRequests.size = 0
              · rw [processComm_of_empty hsize]
                rfl
              · exact (pushes_processComm env now beat hsize).1
            obtain ⟨as, w', has, hown, hended, hstate⟩ := ih _ _ _ hsim'' rfl (by
              rw [hids, List.length_append, List.length_singleton]
              omega)
            refine ⟨.process (beat c) :: .next :: as, w', ?_, ?_, hended, hstate⟩
            · rw [exec_cons, hprocess, Option.bind_some, exec_cons, hnext]
              exact has
            · intro a ha
              rcases List.mem_cons.1 ha with rfl | ha
              · rfl
              · rcases List.mem_cons.1 ha with rfl | ha
                · rfl
                · exact hown a ha
  exact hrun _ _ _ _ (Sim.start hs) rfl (by simp [FtWalk.start])

/-- Two peers, and a receive of the user from each. -/
def receives : State :=
  (exec (engineStep Env.default) (freshState {1, 2} (fun k => k + 1) 0)
    [.post 0 (.recv 7 8 1 false false), .post 1 (.recv 7 8 1 false false)]).get (by decide)

/-- The receive from peer 1 is cancelled. -/
def oneReceive : State := cancel Env.default receives (.user 0) []

theorem lists_receives : Lists receives.ft [1, 2] := by
  have hnone : Lists (freshState {1, 2} (fun k => k + 1) 0).ft [] :=
    ⟨rep_empty, by simp [freshState, Node.free], fun _ _ => rfl⟩
  have hone := hnone.pushComm (c := 1) (by decide) (by decide)
  have htwo := hone.pushComm (c := 2) (by decide) (by decide)
  exact htwo.congr rfl rfl rfl

/-- A walk past peer 1, which has a request, to peer 2. -/
theorem walk_visits_receives :
    (∀ c ∈ [1, 2], ((exec (walkStep Env.default 0) (FtWalk.start receives)
      [.process 0, .next, .process 0, .next]).get (by decide)).visited.count c = 1) ↔
    Meets (walkStep Env.default 0) (HasRequests [1, 2]) (FtWalk.start receives)
      [.process 0, .next, .process 0, .next] :=
  (walk_visits_iff lists_receives (Option.some_get _).symm).2 (by decide)

/-- **Peer 2 is skipped** when peer 1, before it, has no requests. -/
theorem walk_misses : ¬ ∀ (env : Env) (now : ℤ) (s : State) (xs : List CommId)
    (as : List WalkAction) (w : FtWalk), Lists s.ft xs →
      exec (walkStep env now) (FtWalk.start s) as = some w → w.place = .ended →
      ∀ c ∈ xs, w.visited.count c = 1 := by
  intro h
  have hlists : Lists oneReceive.ft [1, 2] := lists_receives.congr rfl rfl rfl
  have hcount := h Env.default 0 oneReceive [1, 2] [.process 0, .next] _ hlists
    (Option.some_get (by decide)).symm (by decide) 2 (by decide)
  revert hcount
  decide

end Result

end Impl
end Lfi
