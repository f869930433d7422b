/-
# The two queues of an endpoint

`priority_ops` and `pending_ops` are `VectorQueue`s.  The state of `Lfi.Impl.State` has
lists for them; here the events of a run (`runTrace`) are played on two ring buffers, each
as the source does it: a post pushes, `process_queue` looks at the front and pops it unless
the fabric stalls, and a cancel erases.  The play never gets stuck, and in the end the ring
buffers hold what the lists of the state hold (`play_runTrace`).

What leaves a queue by an attempt leaves it in the order it was pushed (`play_order`).
-/

import Lfi.Data.VectorQueue
import Lfi.Impl.Trace

namespace Lfi
namespace Impl

open Runs Data

/-- What an empty slot of a queue holds. -/
instance : Inhabited LfiPendingOp := ⟨⟨.send, 0, 0, 0, 0, 0, 0, .user 0, 0⟩⟩

/-- `priority_ops` at `true` and `pending_ops` at `false`. -/
abbrev Queues := Bool → VectorQueue LfiPendingOp

/-- Both queues of a new endpoint. -/
def Queues.new : Queues := fun _ => VectorQueue.new 64

/-- What an event does to the queues; an attempt is of the operation at the front, and in
`pending_ops` only when `priority_ops` is empty. -/
def Queues.play (q : Queues) : QueueEvent → Option Queues
  | .submit priority op => some (Function.update q priority ((q priority).push op))
  | .attempt a =>
      if (q a.priority).empty = false ∧ (q a.priority).front = a.op ∧
          (a.priority = false → (q true).empty = true) then
        if a.ret = -fiEagain then some q
        else some (Function.update q a.priority (q a.priority).pop)
      else none
  | .erase ctx => some fun priority => (q priority).eraseIf fun op => op.context == ctx

/-- The queues are well formed and hold `ops`. -/
def Queues.Holds (q : Queues) (ops : Bool → List LfiPendingOp) : Prop :=
  ∀ priority, (q priority).Wf ∧ (q priority).toList = ops priority

/-- The two queues as lists. -/
def Core.queue (s : Core) (priority : Bool) : List LfiPendingOp :=
  if priority then s.priorityOps else s.pendingOps

variable {env : Env} {s t : State} {q : Queues} {ops : Bool → List LfiPendingOp}

theorem Core.queue_eq {s t : Core} (hprio : t.priorityOps = s.priorityOps)
    (hpend : t.pendingOps = s.pendingOps) : t.queue = s.queue := by
  funext priority
  unfold Core.queue
  rw [hprio, hpend]

namespace Queues

theorem holds_new : new.Holds fun _ => [] := fun _ =>
  ⟨VectorQueue.wf_new (by decide), VectorQueue.toList_new 64⟩

/-- The queues after one of them has changed. -/
theorem Holds.update (h : q.Holds ops) {priority : Bool} {v : VectorQueue LfiPendingOp}
    {xs : List LfiPendingOp} (hv : v.Wf ∧ v.toList = xs) :
    Holds (Function.update q priority v) (Function.update ops priority xs) := by
  intro p
  by_cases hp : p = priority
  · subst hp
    rw [Function.update_self, Function.update_self]
    exact hv
  · rw [Function.update_of_ne hp, Function.update_of_ne hp]
    exact h p

/-- What a post does. -/
theorem Holds.submit (h : q.Holds ops) (priority : Bool) (op : LfiPendingOp) :
    ∃ q', q.play (.submit priority op) = some q' ∧
      q'.Holds (Function.update ops priority (ops priority ++ [op])) := by
  obtain ⟨hwf, hlist⟩ := h priority
  exact ⟨_, rfl, h.update (hlist ▸ hwf.push op)⟩

/-- An attempt of the operation at the front. -/
theorem Holds.attempt (h : q.Holds ops) {a : Attempt} {rest : List LfiPendingOp}
    (hfront : ops a.priority = a.op :: rest) (hprio : a.priority = false → ops true = []) :
    ∃ q', q.play (.attempt a) = some q' ∧ q'.Holds (Function.update ops a.priority
      (if a.ret = -fiEagain then a.op :: rest else rest)) := by
  obtain ⟨hwf, hlist⟩ := h a.priority
  rw [hfront] at hlist
  have hne : (q a.priority).toList ≠ [] := by
    rw [hlist]
    exact List.cons_ne_nil a.op rest
  have hempty : (q a.priority).empty = false :=
    Bool.eq_false_iff.2 fun he => hne (VectorQueue.toList_eq_nil.2 he)
  have hop : (q a.priority).front = a.op := by
    have hhead := hwf.front hne
    rw [hlist] at hhead
    exact (Option.some.inj hhead).symm
  have hcond : a.priority = false → (q true).empty = true := fun hp =>
    VectorQueue.toList_eq_nil.1 ((h true).2.trans (hprio hp))
  unfold play
  dsimp only
  rw [if_pos ⟨hempty, hop, hcond⟩]
  split
  case isTrue =>
    rw [← hfront, Function.update_eq_self]
    exact ⟨q, rfl, h⟩
  case isFalse =>
    obtain ⟨hwf', hlist'⟩ := hwf.pop
    exact ⟨_, rfl, h.update ⟨hwf', by rw [hlist', hlist]; rfl⟩⟩

/-- What a cancel takes out. -/
theorem Holds.erase (h : q.Holds ops) (ctx : ℕ) :
    ∃ q', q.play (.erase ctx) = some q' ∧
      q'.Holds fun priority => (ops priority).filter fun op => op.context != ctx := by
  refine ⟨_, rfl, fun priority => ?_⟩
  obtain ⟨hwf, hlist⟩ := h priority
  dsimp only
  rw [← hlist]
  exact hwf.eraseIf _

/-! ### The play of a run -/

/-- The play of the events `es` goes through, and the queues hold `ops'` after it. -/
def Plays (q : Queues) (es : List QueueEvent) (ops : Bool → List LfiPendingOp) : Prop :=
  ∃ q', exec play q es = some q' ∧ q'.Holds ops

theorem Holds.plays_nil (h : q.Holds ops) : q.Plays [] ops := ⟨q, rfl, h⟩

theorem Plays.append {es es' : List QueueEvent} {ops' : Bool → List LfiPendingOp}
    (h : q.Plays es ops) (h' : ∀ q' : Queues, q'.Holds ops → q'.Plays es' ops') :
    q.Plays (es ++ es') ops' := by
  obtain ⟨q', hexec, hq'⟩ := h
  obtain ⟨q'', hexec', hq''⟩ := h' q' hq'
  exact ⟨q'', by rw [exec_append, hexec]; exact hexec', hq''⟩

theorem plays_cons {e : QueueEvent} {es : List QueueEvent} {ops' : Bool → List LfiPendingOp}
    (h : ∃ q', q.play e = some q' ∧ q'.Holds ops)
    (h' : ∀ q' : Queues, q'.Holds ops → q'.Plays es ops') : q.Plays (e :: es) ops' := by
  obtain ⟨q', hplay, hq'⟩ := h
  have hone : q.Plays [e] ops := ⟨q', by rw [exec_cons, hplay]; rfl, hq'⟩
  exact hone.append h'

/-- `process_queue`. -/
theorem Holds.queueTrace (h : q.Holds ops) (priority : Bool)
    (hprio : priority = false → ops true = []) {xs : List LfiPendingOp} (hxs : ops priority = xs)
    (answers : List ℤ) (s : State) (now : ℤ) :
    q.Plays (queueTrace env now priority xs answers s)
      (Function.update ops priority (processQueue env now xs answers s).1) := by
  induction xs generalizing answers s q ops with
  | nil =>
      show q.Plays [] (Function.update ops priority [])
      rw [← hxs, Function.update_eq_self]
      exact h.plays_nil
  | cons op xs ih =>
      cases answers with
      | nil =>
          have hstall := h.attempt (a := ⟨priority, op, -fiEagain, s⟩) hxs hprio
          exact plays_cons hstall fun q' hq' => hq'.plays_nil
      | cons ret answers =>
          have hfirst := h.attempt (a := ⟨priority, op, ret, s⟩) hxs hprio
          refine plays_cons hfirst fun q' hq' => ?_
          unfold processQueue
          by_cases hret : ret = -fiEagain
          · simp only [hret, if_true] at hq' ⊢
            exact hq'.plays_nil
          · simp only [hret, if_false] at hq' ⊢
            have hrest := ih hq' (fun hp => ?_) (Function.update_self ..) answers
              (postOp env s op ret now)
            · rwa [Function.update_idem] at hrest
            · subst hp
              rw [Function.update_of_ne (by decide)]
              exact hprio rfl

/-- `post_pending_ops`. -/
theorem Holds.postTrace (h : q.Holds s.core.queue) (answers : List ℤ) (now : ℤ) :
    q.Plays (postTrace env s answers now) (postPendingOps env s answers now).core.queue := by
  obtain ⟨hprio, hpend⟩ := @processQueue_queues env s.core.priorityOps answers s now
  have hfirst := @Holds.queueTrace env _ _ h true nofun _ rfl answers s now
  unfold Impl.postTrace postPendingOps
  refine Plays.append hfirst fun q' hq' => ?_
  change Queues.Holds q' (Function.update s.core.queue true
    (processQueue env now s.core.priorityOps answers s).1) at hq'
  generalize processQueue env now s.core.priorityOps answers s = p at hprio hpend hq' ⊢
  have hqueue : Function.update s.core.queue true p.1 =
      Core.queue { p.2.2.core with priorityOps := p.1 } := by
    funext priority
    cases priority with
    | true => exact Function.update_self ..
    | false => exact hpend.symm
  rw [hqueue] at hq'
  dsimp only
  by_cases hnil : p.1 = []
  case neg =>
    rw [if_neg hnil, if_neg hnil]
    exact hq'.plays_nil
  case pos =>
    rw [if_pos hnil, if_pos hnil]
    have hsecond := @Holds.queueTrace env _ _ hq' false (fun _ => hnil) p.2.2.core.pendingOps rfl
      p.2.1 ⟨{ p.2.2.core with priorityOps := p.1 }, p.2.2.ft⟩ now
    obtain ⟨hprio', -⟩ := @processQueue_queues env p.2.2.core.pendingOps p.2.1
      ⟨{ p.2.2.core with priorityOps := p.1 }, p.2.2.ft⟩ now
    generalize processQueue env now p.2.2.core.pendingOps p.2.1
      ⟨{ p.2.2.core with priorityOps := p.1 }, p.2.2.ft⟩ = p' at hprio' hsecond ⊢
    have hlast : Function.update (Core.queue { p.2.2.core with priorityOps := p.1 }) false p'.1 =
        Core.queue { p'.2.2.core with pendingOps := p'.1 } := by
      funext priority
      cases priority with
      | true => exact hprio'.symm
      | false => exact Function.update_self ..
    rwa [hlast] at hsecond

/-- An event of the fabric. -/
theorem Holds.fabricEvent (h : q.Holds s.core.queue) (e : FabricEvent) :
    q.Plays (eventTrace env s e) (fabricEvent env s e).core.queue := by
  cases e with
  | postPendingOps answers now => exact h.postTrace answers now
  | heartbeatValue c value => exact h.plays_nil
  | success ctx len tag now =>
      have hqueue : (Impl.fabricEvent env s (.success ctx len tag now)).core.queue =
          s.core.queue := by
        simp only [Impl.fabricEvent]
        split
        case isTrue =>
          obtain ⟨hprio, hpend, -⟩ :=
            @receiveAt_queues env ⟨takeBack s.core ctx, s.ft⟩ ctx len tag now
          exact Core.queue_eq hprio hpend
        case isFalse => rfl
      rw [hqueue]
      exact h.plays_nil
  | error ctx err =>
      have hqueue : (Impl.fabricEvent env s (.error ctx err)).core.queue = s.core.queue := by
        simp only [Impl.fabricEvent]
        split
        case isTrue =>
          obtain ⟨hprio, hpend, -⟩ :=
            @completeAt_queues env ⟨takeBack s.core ctx, s.ft⟩ ctx (cqErrorCode err) 0
          exact Core.queue_eq hprio hpend
        case isFalse => rfl
      rw [hqueue]
      exact h.plays_nil

theorem Holds.progress (h : q.Holds s.core.queue) (events : List FabricEvent) :
    q.Plays (progressTrace env events s) (progress env events s).core.queue := by
  induction events generalizing s q with
  | nil => exact h.plays_nil
  | cons e events ih => exact (h.fabricEvent e).append fun q' hq' => ih hq'

/-- `cancel`: first the queues are searched for the operation. -/
theorem Holds.cancel (h : q.Holds s.core.queue) (r : ReqId) (events : List FabricEvent) :
    q.Plays (cancelTrace env s r events) (cancel env s r events).core.queue := by
  unfold cancelTrace Impl.cancel cancelWith
  cases s.core.requests r with
  | none => exact h.plays_nil
  | some p =>
      dsimp only
      have herase : q.Plays (p.waitContext.map QueueEvent.erase).toList
          (eraseOps s.core p.waitContext).queue := by
        cases p.waitContext with
        | none => exact h.plays_nil
        | some ctx =>
            refine plays_cons (h.erase ctx) fun q' hq' => ?_
            have hqueue : (eraseOps s.core (some ctx)).queue = fun priority =>
                (s.core.queue priority).filter fun op => op.context != ctx := by
              funext priority
              cases priority <;> rfl
            rw [hqueue]
            exact hq'.plays_nil
      refine herase.append fun q' hq' => ?_
      split
      case isTrue => exact hq'.plays_nil
      case isFalse =>
        obtain ⟨hprio, hpend, -⟩ := @complete_queues env
          (Impl.progress env events ⟨eraseOps s.core p.waitContext, s.ft⟩) r (cancelError s.ft p) 0
        rw [Core.queue_eq hprio hpend]
        exact Holds.progress (s := ⟨eraseOps s.core p.waitContext, s.ft⟩) hq' events

theorem Holds.requestFree (h : q.Holds s.core.queue) (r : ReqId) (events : List FabricEvent) :
    q.Plays (freeTrace env s r events) (requestFree env s r events).core.queue := by
  unfold freeTrace Impl.requestFree freeWith
  cases s.core.requests r with
  | none => exact h.plays_nil
  | some p =>
      dsimp only
      split
      case isTrue => exact h.plays_nil
      case isFalse => exact h.cancel r events

/-- A post. -/
theorem Holds.asyncPost (h : q.Holds s.core.queue) (r : ReqId) (call : PostCall) :
    q.Plays (submitTrace s.core (asyncPost env s r call).2.core)
      (asyncPost env s r call).2.core.queue := by
  rcases asyncPost_trace env s r call with ⟨heq, htrace⟩ |
    ⟨-, -, -, priority, op, -, -, -, -, -, hprio, hpend, htrace⟩
  · rw [htrace, heq]
    exact h.plays_nil
  · rw [htrace]
    refine plays_cons (h.submit priority op) fun q' hq' => ?_
    have hqueue : Function.update s.core.queue priority (s.core.queue priority ++ [op]) =
        (Impl.asyncPost env s r call).2.core.queue := by
      funext p
      unfold Core.queue
      rw [hprio, hpend]
      cases p <;> cases priority <;> simp
    rw [← hqueue]
    exact hq'.plays_nil

/-- Every action. -/
theorem Holds.opStep (h : q.Holds s.core.queue) {a : OpAction} (ht : opStep env s a = some t) :
    q.Plays (stepTrace env s a) t.core.queue := by
  cases a with
  | create r c =>
      simp only [Impl.opStep, Option.ite_none_right_eq_some, Option.some.injEq] at ht
      obtain ⟨-, rfl⟩ := ht
      exact h.plays_nil
  | post r call =>
      obtain rfl := Option.some.inj ht
      exact h.asyncPost r call
  | fabric e =>
      obtain rfl := Option.some.inj ht
      exact h.fabricEvent e
  | cancel r events =>
      obtain rfl := Option.some.inj ht
      exact h.cancel r events
  | free r events =>
      obtain rfl := Option.some.inj ht
      exact h.requestFree r events

/-- **The play of a run goes through**, and the ring buffers hold what the state says. -/
theorem play_runTrace {s₀ : State} (h₀ : Fresh s₀) {as : List OpAction}
    (h : exec (Impl.opStep env) s₀ as = some s) : new.Plays (runTrace env s₀ as) s.core.queue := by
  have hempty : s₀.core.queue = fun _ => [] := by
    funext priority
    cases priority
    · exact h₀.pendingOps
    · exact h₀.priorityOps
  refine exec_snoc_induction
    (M := fun as (s : State) => new.Plays (runTrace env s₀ as) s.core.queue)
    ?_ (fun as a t u hexec hplays ht => ?_) as s h
  · rw [hempty]
    exact holds_new.plays_nil
  · rw [runTrace_snoc hexec ht]
    exact hplays.append fun q' hq' => hq'.opStep ht

/-! ### Order -/

/-- The operations put into a queue. -/
def submitted (priority : Bool) (es : List QueueEvent) : List LfiPendingOp :=
  es.filterMap fun e => match e with
    | .submit p op => if p = priority then some op else none
    | _ => none

/-- The operations an attempt has taken out of a queue: the fabric has accepted or refused
them. -/
def attempted (priority : Bool) (es : List QueueEvent) : List LfiPendingOp :=
  es.filterMap fun e => match e with
    | .attempt a => if a.priority = priority ∧ a.ret ≠ -fiEagain then some a.op else none
    | _ => none

/-- The operations of a queue the fabric has accepted. -/
def handedOver (priority : Bool) (es : List QueueEvent) : List LfiPendingOp :=
  es.filterMap fun e => match e with
    | .attempt a => if a.priority = priority ∧ a.ret = 0 then some a.op else none
    | _ => none

theorem handedOver_sublist (priority : Bool) (es : List QueueEvent) :
    (handedOver priority es).Sublist (attempted priority es) := by
  induction es with
  | nil => exact List.Sublist.refl _
  | cons e es ih =>
      cases e with
      | submit p op => exact ih
      | erase ctx => exact ih
      | attempt a =>
          simp only [handedOver, attempted, List.filterMap_cons]
          by_cases hout : a.priority = priority ∧ a.ret ≠ -fiEagain
          case pos =>
            simp only [hout, true_and, ne_eq, not_false_eq_true, if_true]
            split
            case h_1 => exact ih.cons a.op
            case h_2 heq =>
              split at heq
              case isTrue => exact Option.some.inj heq ▸ ih.cons_cons a.op
              case isFalse => cases heq
          case neg =>
            have hnot : ¬ (a.priority = priority ∧ a.ret = 0) := fun hin => hout ⟨hin.1, by
              rw [hin.2]
              decide⟩
            rw [if_neg hout, if_neg hnot]
            exact ih

/-- **First in, first out.**  What an attempt has taken out of a queue, and what is left in
it, was put in in this order. -/
theorem play_order {q q' : Queues} {es : List QueueEvent} (h : exec play q es = some q')
    (hq : ∀ priority, (q priority).Wf) (priority : Bool) :
    (attempted priority es ++ (q' priority).toList).Sublist
      ((q priority).toList ++ submitted priority es) := by
  induction es generalizing q with
  | nil =>
      obtain rfl := Option.some.inj h
      simp [attempted, submitted]
  | cons e es ih =>
      obtain ⟨p, hp, hexec⟩ := Option.bind_eq_some_iff.1 h
      have hold : q.Holds fun priority => (q priority).toList := fun priority => ⟨hq priority, rfl⟩
      cases e with
      | submit prio op =>
          obtain ⟨p', hp', hholds⟩ := hold.submit prio op
          obtain rfl := Option.some.inj (hp.symm.trans hp')
          have hrest := ih hexec fun priority => (hholds priority).1
          rw [(hholds priority).2] at hrest
          by_cases heq : prio = priority
          · subst heq
            rw [Function.update_self, List.append_assoc] at hrest
            simpa [attempted, submitted] using hrest
          · rw [Function.update_of_ne (Ne.symm heq)] at hrest
            simpa [attempted, submitted, heq] using hrest
      | erase ctx =>
          obtain ⟨p', hp', hholds⟩ := hold.erase ctx
          obtain rfl := Option.some.inj (hp.symm.trans hp')
          have hrest := ih hexec fun priority => (hholds priority).1
          rw [(hholds priority).2] at hrest
          exact hrest.trans (List.filter_sublist.append (List.Sublist.refl _))
      | attempt a =>
          simp only [play] at hp
          split at hp
          case isFalse => cases hp
          case isTrue hcond =>
            obtain ⟨hne, hfront, hprio⟩ := hcond
            by_cases hstall : a.ret = -fiEagain
            case pos =>
              rw [if_pos hstall] at hp
              obtain rfl := Option.some.inj hp
              simpa [attempted, submitted, hstall] using ih hexec hq
            case neg =>
              rw [if_neg hstall] at hp
              obtain rfl := Option.some.inj hp
              obtain ⟨hwf, hpop⟩ := (hq a.priority).pop
              have hrest := ih hexec fun prio => by
                by_cases heq : prio = a.priority
                · subst heq
                  rwa [Function.update_self]
                · rw [Function.update_of_ne heq]
                  exact hq prio
              by_cases heq : a.priority = priority
              · subst heq
                rw [Function.update_self, hpop] at hrest
                -- the front is what was attempted
                have hhead : (q a.priority).toList = a.op :: (q a.priority).toList.tail := by
                  have hnil : (q a.priority).toList ≠ [] := fun hnil => by
                    rw [VectorQueue.toList_eq_nil.1 hnil] at hne
                    cases hne
                  have hhead := (hq a.priority).front hnil
                  rw [hfront] at hhead
                  exact (List.cons_head?_tail hhead).symm
                rw [hhead]
                simpa [attempted, submitted, hstall] using hrest.cons_cons a.op
              · rw [Function.update_of_ne (Ne.symm heq)] at hrest
                simpa [attempted, submitted, heq] using hrest

end Queues

end Impl
end Lfi
