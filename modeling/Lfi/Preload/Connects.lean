/-
# Who connects to whom

The intercepted `connect` and `accept4` (`src/ld_preload/ld_preload.cpp`) of one connection find
each other over TCP, and then each takes the `m_map_comm_socket_mutex` of its own process,

    std::unique_lock lock(preload.m_map_comm_socket_mutex);
    auto new_fd = preload.m_lfi->reserve_comm();
    auto ret_init = preload.m_lfi->init_client(client_socket, new_fd);

`connect` for `init_client` and `accept4` for `init_server`, and keeps it until the two have sent
each other `Hello` ten times.  Neither gets through one of these without the other, so a process
that connects cannot take part in a connection to it.  One that accepts cannot connect either.

`connects_complete_iff` says when that is a deadlock: connections that cannot hang are those that
lead in no circle from process to process, whichever of them are made at the same time.  The
connections of a process are accepted one after the other, and no call fails.
-/

import Lfi.Runs.Basic
import Lfi.Runs.Potential
import Lfi.Runs.Rings
import Mathlib.Data.Fintype.Basic

namespace Lfi
namespace Preload

open Runs

/-- The connections `K` between processes `P`: whose `connect` and whose `accept4` they are. -/
structure Connects (P K : Type*) where
  client : K → P
  server : K → P

/-- How far a connection is: nobody accepts it; the two calls have found each other over TCP and
take the mutexes; they are through with `init_client`, `init_server` and the greetings, and give
them back. -/
inductive ConnectPhase where
  | waiting
  | meeting (client server : Bool)
  | greeted (client server : Bool)
  deriving DecidableEq, Repr

/-- `connect` has the mutex of its process. -/
@[grind]
def ConnectPhase.clientHolds : ConnectPhase → Bool
  | .waiting => false
  | .meeting client _ | .greeted client _ => client

/-- `accept4` has the mutex of its process. -/
@[grind]
def ConnectPhase.serverHolds : ConnectPhase → Bool
  | .waiting => false
  | .meeting _ server | .greeted _ server => server

/-- `accept4` has not returned. -/
@[grind]
def ConnectPhase.accepting : ConnectPhase → Bool
  | .waiting => false
  | .meeting .. => true
  | .greeted _ server => server

/-- The connections, and in each process which of them has `m_map_comm_socket_mutex` and which one
its `accept4` is about. -/
structure Connecting (P K : Type*) where
  phase : K → ConnectPhase
  mutex : P → Option K
  accepts : P → Option K

/-- The steps of a connection. -/
inductive ConnectAction (K : Type*) where
  | serve (k : K)
  | lockClient (k : K)
  | lockServer (k : K)
  | greet (k : K)
  | returnClient (k : K)
  | returnServer (k : K)

variable {P K : Type*}

/-- Every `connect` waits to be accepted. -/
def connectingInit : Connecting P K := ⟨fun _ => .waiting, fun _ => none, fun _ => none⟩

section Connections

variable [DecidableEq K]

/-- The state with the connection `k` replaced. -/
def Connecting.setPhase (s : Connecting P K) (k : K) (x : ConnectPhase) : Connecting P K :=
  { s with phase := Function.update s.phase k x }

@[simp] theorem Connecting.setPhase_phase (s : Connecting P K) (k k' : K)
    (x : ConnectPhase) : (s.setPhase k x).phase k' = if k' = k then x else s.phase k' :=
  Function.update_apply ..

@[simp] theorem Connecting.setPhase_mutex (s : Connecting P K) (k : K)
    (x : ConnectPhase) : (s.setPhase k x).mutex = s.mutex := rfl

@[simp] theorem Connecting.setPhase_accepts (s : Connecting P K) (k : K)
    (x : ConnectPhase) : (s.setPhase k x).accepts = s.accepts := rfl

end Connections

section Processes

variable [DecidableEq P]

/-- The state with the mutex of `p` taken or free. -/
def Connecting.setMutex (s : Connecting P K) (p : P) (o : Option K) : Connecting P K :=
  { s with mutex := Function.update s.mutex p o }

/-- The state with `p` accepting, or not. -/
def Connecting.setAccepts (s : Connecting P K) (p : P) (o : Option K) : Connecting P K :=
  { s with accepts := Function.update s.accepts p o }

@[simp] theorem Connecting.setMutex_mutex (s : Connecting P K) (p p' : P)
    (o : Option K) : (s.setMutex p o).mutex p' = if p' = p then o else s.mutex p' :=
  Function.update_apply ..

@[simp] theorem Connecting.setMutex_phase (s : Connecting P K) (p : P) (o : Option K) :
    (s.setMutex p o).phase = s.phase := rfl

@[simp] theorem Connecting.setMutex_accepts (s : Connecting P K) (p : P)
    (o : Option K) : (s.setMutex p o).accepts = s.accepts := rfl

@[simp] theorem Connecting.setAccepts_accepts (s : Connecting P K) (p p' : P)
    (o : Option K) : (s.setAccepts p o).accepts p' = if p' = p then o else s.accepts p' :=
  Function.update_apply ..

@[simp] theorem Connecting.setAccepts_phase (s : Connecting P K) (p : P)
    (o : Option K) : (s.setAccepts p o).phase = s.phase := rfl

@[simp] theorem Connecting.setAccepts_mutex (s : Connecting P K) (p : P)
    (o : Option K) : (s.setAccepts p o).mutex = s.mutex := rfl

end Processes

variable [DecidableEq P] [DecidableEq K]

/-- One step. -/
def connectStep (g : Connects P K) (s : Connecting P K) :
    ConnectAction K → Option (Connecting P K)
  | .serve k =>
      if s.phase k = .waiting ∧ s.accepts (g.server k) = none then
        some ((s.setPhase k (.meeting false false)).setAccepts (g.server k) (some k))
      else none
  | .lockClient k =>
      match s.phase k with
      | .meeting false server =>
          if s.mutex (g.client k) = none then
            some ((s.setPhase k (.meeting true server)).setMutex (g.client k) (some k))
          else none
      | _ => none
  | .lockServer k =>
      match s.phase k with
      | .meeting client false =>
          if s.mutex (g.server k) = none then
            some ((s.setPhase k (.meeting client true)).setMutex (g.server k) (some k))
          else none
      | _ => none
  | .greet k =>
      if s.phase k = .meeting true true then some (s.setPhase k (.greeted true true)) else none
  | .returnClient k =>
      match s.phase k with
      | .greeted true server =>
          some ((s.setPhase k (.greeted false server)).setMutex (g.client k) none)
      | _ => none
  | .returnServer k =>
      match s.phase k with
      | .greeted client true =>
          some (((s.setPhase k (.greeted client false)).setMutex (g.server k) none).setAccepts
            (g.server k) none)
      | _ => none

/-- What holds at every point of a run. -/
structure ConnectInv (g : Connects P K) (s : Connecting P K) : Prop where
  mutex : ∀ p k, s.mutex p = some k ↔
    (s.phase k).clientHolds = true ∧ g.client k = p ∨
      (s.phase k).serverHolds = true ∧ g.server k = p
  apart : ∀ k, (s.phase k).clientHolds = true → (s.phase k).serverHolds = true →
    g.client k ≠ g.server k
  accepts : ∀ p k, s.accepts p = some k ↔ (s.phase k).accepting = true ∧ g.server k = p

variable {g : Connects P K} {s t : Connecting P K}

omit [DecidableEq P] [DecidableEq K] in
theorem connectInv_init : ConnectInv g (connectingInit : Connecting P K) := by
  constructor <;> simp [connectingInit, ConnectPhase.clientHolds, ConnectPhase.serverHolds,
    ConnectPhase.accepting]

/-- What a connection does in a step. -/
inductive ConnectMoves (g : Connects P K) (s : Connecting P K) :
    ConnectAction K → Connecting P K → Prop where
  | serve {k} (hk : s.phase k = .waiting) (hfree : s.accepts (g.server k) = none) :
      ConnectMoves g s (.serve k)
        ((s.setPhase k (.meeting false false)).setAccepts (g.server k) (some k))
  | lockClient {k server} (hk : s.phase k = .meeting false server)
      (hfree : s.mutex (g.client k) = none) :
      ConnectMoves g s (.lockClient k)
        ((s.setPhase k (.meeting true server)).setMutex (g.client k) (some k))
  | lockServer {k client} (hk : s.phase k = .meeting client false)
      (hfree : s.mutex (g.server k) = none) :
      ConnectMoves g s (.lockServer k)
        ((s.setPhase k (.meeting client true)).setMutex (g.server k) (some k))
  | greet {k} (hk : s.phase k = .meeting true true) :
      ConnectMoves g s (.greet k) (s.setPhase k (.greeted true true))
  | returnClient {k server} (hk : s.phase k = .greeted true server) :
      ConnectMoves g s (.returnClient k)
        ((s.setPhase k (.greeted false server)).setMutex (g.client k) none)
  | returnServer {k client} (hk : s.phase k = .greeted client true) :
      ConnectMoves g s (.returnServer k)
        (((s.setPhase k (.greeted client false)).setMutex (g.server k) none).setAccepts
          (g.server k) none)

theorem connectStep_moves {a : ConnectAction K} (h : connectStep g s a = some t) :
    ConnectMoves g s a t := by
  cases a with
  | serve k =>
      obtain ⟨⟨hk, hfree⟩, h⟩ := Option.ite_none_right_eq_some.1 h
      obtain rfl := Option.some.inj h
      exact .serve hk hfree
  | lockClient k =>
      simp only [connectStep] at h
      split at h
      case h_1 hk =>
        obtain ⟨hfree, h⟩ := Option.ite_none_right_eq_some.1 h
        obtain rfl := Option.some.inj h
        exact .lockClient hk hfree
      case h_2 => cases h
  | lockServer k =>
      simp only [connectStep] at h
      split at h
      case h_1 hk =>
        obtain ⟨hfree, h⟩ := Option.ite_none_right_eq_some.1 h
        obtain rfl := Option.some.inj h
        exact .lockServer hk hfree
      case h_2 => cases h
  | greet k =>
      obtain ⟨hk, h⟩ := Option.ite_none_right_eq_some.1 h
      obtain rfl := Option.some.inj h
      exact .greet hk
  | returnClient k =>
      simp only [connectStep] at h
      split at h
      case h_1 hk =>
        obtain rfl := Option.some.inj h
        exact .returnClient hk
      case h_2 => cases h
  | returnServer k =>
      simp only [connectStep] at h
      split at h
      case h_1 hk =>
        obtain rfl := Option.some.inj h
        exact .returnServer hk
      case h_2 => cases h

theorem ConnectInv.step (hs : ConnectInv g s) {a : ConnectAction K}
    (h : connectStep g s a = some t) : ConnectInv g t := by
  have hm := hs.mutex
  have ha := hs.apart
  have hacc := hs.accepts
  cases connectStep_moves h with
  | serve hk | lockClient hk | lockServer hk | greet hk =>
      constructor <;> simp only [Connecting.setPhase_phase, Connecting.setPhase_mutex,
        Connecting.setPhase_accepts, Connecting.setMutex_mutex, Connecting.setMutex_phase,
        Connecting.setMutex_accepts, Connecting.setAccepts_accepts, Connecting.setAccepts_phase,
        Connecting.setAccepts_mutex] <;> grind
  | @returnClient k server hk =>
      have hheld : s.mutex (g.client k) = some k := (hm _ _).2 (.inl ⟨by rw [hk]; rfl, rfl⟩)
      constructor <;> simp only [Connecting.setPhase_phase, Connecting.setPhase_mutex,
        Connecting.setPhase_accepts, Connecting.setMutex_mutex, Connecting.setMutex_phase,
        Connecting.setMutex_accepts] <;> grind
  | @returnServer k client hk =>
      have hheld : s.mutex (g.server k) = some k := (hm _ _).2 (.inr ⟨by rw [hk]; rfl, rfl⟩)
      have haccepts : s.accepts (g.server k) = some k := (hacc _ _).2 ⟨by rw [hk]; rfl, rfl⟩
      constructor <;> simp only [Connecting.setPhase_phase, Connecting.setPhase_mutex,
        Connecting.setPhase_accepts, Connecting.setMutex_mutex, Connecting.setMutex_phase,
        Connecting.setMutex_accepts, Connecting.setAccepts_accepts, Connecting.setAccepts_phase,
        Connecting.setAccepts_mutex] <;> grind

/-! ## How long it takes -/

/-- How many steps of a connection are behind. -/
def ConnectPhase.rank : ConnectPhase → ℕ
  | .waiting => 0
  | .meeting client server => 1 + client.toNat + server.toNat
  | .greeted client server => 6 - client.toNat - server.toNat

theorem ConnectPhase.rank_le (x : ConnectPhase) : x.rank ≤ 6 := by
  cases x with
  | waiting => exact Nat.zero_le 6
  | meeting client server => cases client <;> cases server <;> decide
  | greeted client server => cases client <;> cases server <;> decide

/-- A step takes one connection one further. -/
theorem connectStep_rank {a : ConnectAction K} (h : connectStep g s a = some t) :
    ∃ k, (t.phase k).rank = (s.phase k).rank + 1 ∧ ∀ k', k' ≠ k → t.phase k' = s.phase k' := by
  cases connectStep_moves h with
  | @serve k hk | @greet k hk =>
      refine ⟨k, ?_, fun k' hne => by simp [hne]⟩
      simp [hk, ConnectPhase.rank]
  | @lockClient k b hk | @lockServer k b hk | @returnClient k b hk | @returnServer k b hk =>
      refine ⟨k, ?_, fun k' hne => by simp [hne]⟩
      cases b <;> simp [hk, ConnectPhase.rank]

/-- The steps of all connections. -/
def Connecting.behind [Fintype K] (s : Connecting P K) : ℕ := ∑ k, (s.phase k).rank

theorem connectStep_behind [Fintype K] {a : ConnectAction K} (h : connectStep g s a = some t) :
    t.behind = s.behind + 1 := by
  obtain ⟨k, hk, hrest⟩ := connectStep_rank h
  exact sum_succ (Finset.mem_univ k) hk fun k' hne => by rw [hrest k' hne]

omit [DecidableEq P] [DecidableEq K] in
theorem Connecting.behind_le [Fintype K] (s : Connecting P K) :
    s.behind ≤ 6 * Fintype.card K := by
  rw [Nat.mul_comm, ← smul_eq_mul, ← Finset.card_univ]
  exact Finset.sum_le_card_nsmul _ _ _ fun k _ => (s.phase k).rank_le

/-! ## Who waits for whom -/

/-- A connection leads to those that its server is the client of. -/
def Connects.Before (g : Connects P K) (k k' : K) : Prop := g.server k = g.client k'

section Stuck

variable (hs : ConnectInv g s) (hstuck : ∀ a, connectStep g s a = none)
include hs hstuck

/-- A connection that waits for nobody has both calls returned. -/
theorem ConnectInv.finished_or_meeting (k : K) : s.phase k = .greeted false false ∨
    ∃ k' client server, s.phase k' = .meeting client server := by
  cases hk : s.phase k with
  | waiting =>
      have hserve := hstuck (.serve k)
      simp only [connectStep, hk, true_and, ite_eq_right_iff, reduceCtorEq, imp_false] at hserve
      obtain ⟨k', hk'⟩ := Option.ne_none_iff_exists'.1 hserve
      obtain ⟨hacc, hserver⟩ := (hs.accepts _ _).1 hk'
      cases hphase : s.phase k' with
      | waiting => simp [hphase, ConnectPhase.accepting] at hacc
      | meeting client server => exact .inr ⟨k', client, server, hphase⟩
      | greeted client server =>
          rw [hphase] at hacc
          obtain rfl : server = true := hacc
          have hreturn := hstuck (.returnServer k')
          simp [connectStep, hphase] at hreturn
  | meeting client server => exact .inr ⟨k, client, server, hk⟩
  | greeted client server =>
      have hclient := hstuck (.returnClient k)
      have hserver := hstuck (.returnServer k)
      cases client <;> cases server <;> simp_all [connectStep]

/-- Whoever has a mutex, its connection is not through. -/
theorem ConnectInv.holder_meets {p : P} {k : K} (hk : s.mutex p = some k) :
    (∃ server, s.phase k = .meeting true server ∧ g.client k = p) ∨
      ∃ client, s.phase k = .meeting client true ∧ g.server k = p := by
  have hclient := hstuck (.returnClient k)
  have hserver := hstuck (.returnServer k)
  rcases (hs.mutex p k).1 hk with ⟨hheld, hp⟩ | ⟨hheld, hp⟩ <;>
    cases hphase : s.phase k <;> simp_all [connectStep, ConnectPhase.clientHolds,
      ConnectPhase.serverHolds]

/-- A `connect` that has its mutex waits for an `accept4`, which waits for another `connect`. -/
theorem ConnectInv.client_waits {k : K} {server : Bool} (hk : s.phase k = .meeting true server) :
    ∃ k', (∃ server', s.phase k' = .meeting true server') ∧ g.Before k k' := by
  cases server with
  | true =>
      have hgreet := hstuck (.greet k)
      simp [connectStep, hk] at hgreet
  | false =>
      have hlock := hstuck (.lockServer k)
      simp only [connectStep, hk, ite_eq_right_iff, reduceCtorEq, imp_false] at hlock
      obtain ⟨k', hk'⟩ := Option.ne_none_iff_exists'.1 hlock
      rcases hs.holder_meets hstuck hk' with ⟨server', hphase, hclient⟩ | ⟨client', hphase, hserver⟩
      · exact ⟨k', ⟨server', hphase⟩, hclient.symm⟩
      · -- two connections to one process are not accepted at one time
        have hk_acc := (hs.accepts (g.server k) k).2 ⟨by rw [hk]; rfl, rfl⟩
        have hk'_acc := (hs.accepts (g.server k) k').2 ⟨by rw [hphase]; rfl, hserver⟩
        obtain rfl : k = k' := Option.some.inj (hk_acc.symm.trans hk'_acc)
        rw [hk] at hphase
        cases hphase

/-- A `connect` without its mutex waits for whoever has it. -/
theorem ConnectInv.client_lacks {k : K} {server : Bool} (hk : s.phase k = .meeting false server) :
    ∃ k', (∃ server', s.phase k' = .meeting true server') ∨
      (∃ client', s.phase k' = .meeting client' true) ∧ g.Before k' k := by
  have hlock := hstuck (.lockClient k)
  simp only [connectStep, hk, ite_eq_right_iff, reduceCtorEq, imp_false] at hlock
  obtain ⟨k', hk'⟩ := Option.ne_none_iff_exists'.1 hlock
  rcases hs.holder_meets hstuck hk' with ⟨server', hphase, -⟩ | ⟨client', hphase, hserver⟩
  · exact ⟨k', .inl ⟨server', hphase⟩⟩
  · exact ⟨k', .inr ⟨⟨client', hphase⟩, hserver⟩⟩

/-- Where nothing goes on and not all is done, connections lead in a circle. -/
theorem ConnectInv.stuck_cycle [Finite K] {k : K} (hk : s.phase k ≠ .greeted false false) :
    ∃ k, Relation.TransGen g.Before k k := by
  by_cases hclient : ∃ k server, s.phase k = .meeting true server
  · -- along the `connect` calls that have their mutex
    exact exists_cycle (S := {k | ∃ server, s.phase k = .meeting true server}) hclient
      fun k ⟨_, hk⟩ => hs.client_waits hstuck hk
  · -- none has, so back along the `accept4` calls
    have hback : ∀ k ∈ {k | ∃ client server, s.phase k = .meeting client server},
        ∃ k' ∈ {k | ∃ client server, s.phase k = .meeting client server},
          Function.swap g.Before k k' := by
      rintro k ⟨client, server, hk⟩
      cases client with
      | true => exact absurd ⟨k, server, hk⟩ hclient
      | false =>
          obtain ⟨k', hheld | ⟨⟨client', hphase⟩, hbefore⟩⟩ := hs.client_lacks hstuck hk
          · exact absurd ⟨k', hheld⟩ hclient
          · exact ⟨k', ⟨client', true, hphase⟩, hbefore⟩
    have hmeeting := (hs.finished_or_meeting hstuck k).resolve_left hk
    obtain ⟨k, hcycle⟩ := exists_cycle hmeeting hback
    exact ⟨k, Relation.transGen_swap.1 hcycle⟩

end Stuck

/-! ## A ring hangs -/

/-- The connections of `l` are accepted, and every `connect` of them has its mutex. -/
theorem exec_ring {O : Set K} (hclient : Set.InjOn g.client O) (hserver : Set.InjOn g.server O)
    (l : List K) (hl : l.Nodup) (hO : ∀ k ∈ l, k ∈ O) :
    ∃ as t, exec (connectStep g) connectingInit as = some t ∧ ConnectInv g t ∧
      ∀ k, t.phase k = if k ∈ l then .meeting true false else .waiting := by
  induction l with
  | nil => exact ⟨[], connectingInit, rfl, connectInv_init, fun k => rfl⟩
  | cons k l ih =>
      obtain ⟨hnew, hl⟩ := List.nodup_cons.1 hl
      obtain ⟨as, s, has, hs, hphase⟩ := ih hl fun k' hk' => hO k' (List.mem_cons_of_mem k hk')
      have hk : k ∈ O := hO k List.mem_cons_self
      have hother : ∀ k', s.phase k' ≠ .waiting →
          s.phase k' = .meeting true false ∧ k' ∈ O ∧ k' ≠ k := fun k' hk' => by
        have hmem : k' ∈ l := by
          by_contra hmem
          exact hk' ((hphase k').trans (if_neg hmem))
        exact ⟨(hphase k').trans (if_pos hmem), hO k' (List.mem_cons_of_mem k hmem),
          fun heq => hnew (heq ▸ hmem)⟩
      have haccepts : s.accepts (g.server k) = none := Option.eq_none_iff_forall_not_mem.2
        fun k' hk' => by
          obtain ⟨hacc, heq⟩ := (hs.accepts _ _).1 hk'
          obtain ⟨-, hk', hne⟩ := hother k' fun h => by simp [h, ConnectPhase.accepting] at hacc
          exact hne (hserver hk' hk heq)
      have hmutex : s.mutex (g.client k) = none := Option.eq_none_iff_forall_not_mem.2
        fun k' hk' => by
          rcases (hs.mutex _ _).1 hk' with ⟨hheld, heq⟩ | ⟨hheld, -⟩
          · obtain ⟨-, hk', hne⟩ :=
              hother k' fun h => by simp [h, ConnectPhase.clientHolds] at hheld
            exact hne (hclient hk' hk heq)
          · obtain ⟨hmeeting, -, -⟩ :=
              hother k' fun h => by simp [h, ConnectPhase.serverHolds] at hheld
            simp [hmeeting, ConnectPhase.serverHolds] at hheld
      have hk_waits : s.phase k = .waiting := (hphase k).trans (if_neg hnew)
      have hserve : connectStep g s (.serve k) =
          some ((s.setPhase k (.meeting false false)).setAccepts (g.server k) (some k)) := by
        simp [connectStep, hk_waits, haccepts]
      have hs₁ := hs.step hserve
      set s₁ := (s.setPhase k (.meeting false false)).setAccepts (g.server k) (some k) with hs₁_def
      have hlock : connectStep g s₁ (.lockClient k) =
          some ((s₁.setPhase k (.meeting true false)).setMutex (g.client k) (some k)) := by
        simp [connectStep, hs₁_def, hmutex]
      refine ⟨as ++ [.serve k, .lockClient k], _, ?_, hs₁.step hlock, fun k' => ?_⟩
      · rw [exec_append, has, Option.bind_some, exec_cons, hserve, Option.bind_some, exec_cons,
          hlock]
        rfl
      · by_cases heq : k' = k
        · simp [heq]
        · simp [hs₁_def, heq, hphase k']

/-- They stay as they are. -/
theorem ConnectInv.ring_stays {O : Set K} (hring : ∀ k ∈ O, ∃ k' ∈ O, g.Before k k')
    (hs : ConnectInv g s) (hO : ∀ k ∈ O, s.phase k = .meeting true false) {a : ConnectAction K}
    (h : connectStep g s a = some t) : ∀ k ∈ O, t.phase k = .meeting true false := by
  intro k hk
  have hphase := hO k hk
  cases connectStep_moves h with
  | @serve k' hk' | @lockClient k' _ hk' | @greet k' hk' | @returnClient k' _ hk'
  | @returnServer k' _ hk' =>
      have hne : k ≠ k' := by
        rintro rfl
        rw [hphase] at hk'
        cases hk'
      simp [hne, hphase]
  | @lockServer k' _ hk' hfree =>
      have hne : k ≠ k' := by
        rintro rfl
        obtain ⟨next, hnext, hbefore⟩ := hring k hk
        have hheld := (hs.mutex (g.server k) next).2
          (.inl ⟨by rw [hO next hnext]; rfl, hbefore.symm⟩)
        rw [hfree] at hheld
        cases hheld
      simp [hne, hphase]

/-- **Connections that are made at the same time cannot hang if and only if they lead in no
circle.**  All of them take six steps each. -/
theorem connects_complete_iff [Fintype K] (g : Connects P K) :
    (∀ as t, exec (connectStep g) connectingInit as = some t →
      as.length ≤ 6 * Fintype.card K) ∧
    ((∀ as t, exec (connectStep g) connectingInit as = some t →
        (∀ a, connectStep g t a = none) → ∀ k, t.phase k = .greeted false false) ↔
      ∀ k, ¬ Relation.TransGen g.Before k k) := by
  have hinv : ∀ s a t, ConnectInv g s → connectStep g s a = some t → ConnectInv g t :=
    fun _ _ _ hs h => hs.step h
  have hcount : ∀ s a t, ConnectInv g s → connectStep g s a = some t →
      t.behind = s.behind + 1 := fun _ _ _ _ h => connectStep_behind h
  have hinit : (connectingInit : Connecting P K).behind = 0 := Finset.sum_const_zero
  refine ⟨fun as t h => ?_, fun hdone k hcycle => ?_, fun hacyclic as t h hstuck k => ?_⟩
  · have hlength := exec_count hinv hcount connectInv_init h
    rw [hinit, Nat.zero_add] at hlength
    exact hlength ▸ t.behind_le
  · obtain ⟨O, ⟨k₀, hk₀⟩, hclient, hserver, hring⟩ := exists_ring hcycle
    classical
    obtain ⟨as, s, has, hs, hphase⟩ := exec_ring hclient hserver
      (Finset.univ.filter (· ∈ O)).toList (Finset.nodup_toList _) (by simp)
    have hO : ∀ k ∈ O, s.phase k = .meeting true false := fun k hk => by
      rw [hphase k, if_pos (by simpa using hk)]
    obtain ⟨bs, t, hbs, hstuck⟩ := exec_stuck hinv hcount (fun s _ => s.behind_le) hs
    have hstays := (exec_invariant
      (P := fun s => ConnectInv g s ∧ ∀ k ∈ O, s.phase k = .meeting true false)
      (fun s a t hs h => ⟨hs.1.step h, hs.1.ring_stays hring hs.2 h⟩) ⟨hs, hO⟩ hbs).2 k₀ hk₀
    have hfinished := hdone (as ++ bs) t (by rw [exec_append, has]; exact hbs) hstuck k₀
    rw [hstays] at hfinished
    cases hfinished
  · by_contra hk
    obtain ⟨k', hcycle⟩ := (exec_invariant hinv connectInv_init h).stuck_cycle hstuck hk
    exact hacyclic k' hcycle

end Preload
end Lfi
