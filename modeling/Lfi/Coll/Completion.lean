/-
# Collectives come to an end

A group that calls the same collectives in the same order (`Lfi.Coll.Payload`) cannot hang in
them.  Every phase of `lfi_barrier`, `lfi_broadcast` and `lfi_allreduce` posts all its
requests before it waits for any, and what a process sends in a phase is received in the same
phase (`Program.count_send_eq_recv`), so the phases are batches that come to an end
(`Lfi.Runs.Liveness`).

It does not matter whether the fabric buffers messages.  `FI_DELIVERY_COMPLETE`, which
`set_hints` asks for, lets a send complete only when its message has arrived at a posted
receive; the groups that rely on nothing earlier are those that cannot continue with a
`Received` action.
-/

import Lfi.Coll.Isolation
import Lfi.Runs.Liveness

namespace Lfi
namespace Coll

open Runs Data

variable {n : ℕ} {prog : Program n} {s t : State n}

/-- The batches of the program: two phases for each call. -/
def Program.phases (prog : Program n) : ℕ := 2 * prog.calls.length

/-- No run of the program has more steps. -/
def Program.bound (prog : Program n) : ℕ := runBound prog.batch prog.phases

theorem Program.calls_iff (prog : Program n) (s : State n) (a : NetAction (Fin n) ℕ) :
    prog.Calls s a ↔ Starts prog.phases s.net a := by
  cases a with
  | start p =>
      show _ / 2 < _ ↔ _ < 2 * prog.calls.length
      omega
  | _ => exact Iff.rfl

theorem Program.effect_net (prog : Program n) (s : State n) (net : Net (Fin n) ℕ)
    (a : NetAction (Fin n) ℕ) : (prog.effect s net a).net = net := by
  cases a with
  | start p => rw [effect]; split <;> rfl
  | post p => exact (effect_post_rest prog s net p).1
  | finish p => rfl
  | deliver c => rw [effect]; split <;> rfl
  | ack c => rfl

/-- A step of the group is one of its requests. -/
theorem Program.step_net {a : NetAction (Fin n) ℕ} (h : prog.step s a = some t) :
    finiteStep prog.batch prog.phases s.net a = some t.net := by
  rw [step] at h
  split at h
  case isFalse => cases h
  case isTrue hcalls =>
    obtain ⟨net, hnet, rfl⟩ := Option.map_eq_some_iff.1 h
    rw [effect_net]
    exact finiteStep_eq_some.2 ⟨(prog.calls_iff s a).1 hcalls, hnet⟩

theorem Program.exec_net {as : List (NetAction (Fin n) ℕ)} (h : exec prog.step s as = some t) :
    exec (finiteStep prog.batch prog.phases) s.net as = some t.net := by
  induction as generalizing s with
  | nil =>
      obtain rfl := Option.some.inj h
      rfl
  | cons a as ih =>
      obtain ⟨u, hu, h⟩ := Option.bind_eq_some_iff.1 h
      rw [exec_cons, step_net hu]
      exact ih h

/-- A step of the requests is one of the group. -/
theorem Program.isSome_step {a : NetAction (Fin n) ℕ}
    (h : (finiteStep prog.batch prog.phases s.net a).isSome) : (prog.step s a).isSome := by
  obtain ⟨net, hnet⟩ := Option.isSome_iff_exists.1 h
  obtain ⟨hstart, hnet⟩ := finiteStep_eq_some.1 hnet
  rw [step, if_pos ((prog.calls_iff s a).2 hstart), hnet]
  rfl

/-- **Collectives come to an end.**  A run of a group that calls the same collectives in the
same order has a bounded number of steps; and where it cannot continue, not even with steps
that complete no send before its message was received, every process has returned from every
call, with the result of that call in its buffer. -/
theorem collectives_complete (prog : Program n) {as : List (NetAction (Fin n) ℕ)} {s : State n}
    (h : exec prog.step init as = some s) :
    as.length ≤ prog.bound ∧
      ((∀ a, Received s.net a → prog.step s a = none) →
        ∀ p i, i < prog.calls.length →
          s.Returned p i ∧ s.result p i = some (prog.holds p i 2)) := by
  have hnet := Program.exec_net h
  refine ⟨length_le_runBound hnet, fun hstop p i hi => ?_⟩
  have hfinished : prog.phases ≤ (s.net.party p).finished := by
    by_contra hlt
    obtain ⟨a, ha, hrecv⟩ := (tallyInv_exec hnet).canStep
      (fun k p q t => prog.count_send_eq_recv k p q t) (Nat.lt_of_not_le hlt)
    have hsome := Program.isSome_step ha
    rw [hstop a hrecv] at hsome
    cases hsome
  have hret : s.Returned p i := by
    unfold Program.phases at hfinished
    unfold State.Returned
    omega
  exact ⟨hret, (dataInv_exec h).result p i hret⟩

/-- The three processes of `leastOfThree` are done after the steps of `workersInTurn`. -/
theorem collectives_complete_leastOfThree : ∃ s,
    exec leastOfThree.step init workersInTurn = some s ∧
      workersInTurn.length ≤ leastOfThree.bound ∧
      ((∀ a, Received s.net a → leastOfThree.step s a = none) → ∀ p i,
        i < leastOfThree.calls.length →
          s.Returned p i ∧ s.result p i = some (leastOfThree.holds p i 2)) := by
  have hrun := (Option.some_get (x := exec leastOfThree.step init workersInTurn)
    (by decide +kernel)).symm
  exact ⟨_, hrun, collectives_complete leastOfThree hrun⟩

end Coll
end Lfi
