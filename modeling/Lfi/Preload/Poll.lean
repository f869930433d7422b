/-
# The intercepted `poll`

`poll` of `src/ld_preload/ld_preload.cpp` puts the eventfd of a socket in the place of its
descriptor, calls the `poll` of the C library and puts the descriptors back from a list it
kept.  An error returns before that, and the caller's array keeps the eventfds
(`poll_gives_back_iff`).
-/

import Mathlib.Data.List.Basic
import Mathlib.Data.Int.Notation

namespace Lfi
namespace Preload

/-- `pollfd`. -/
structure PollFd where
  fd : ℤ
  events : ℕ
  revents : ℕ
  deriving DecidableEq, Repr

/-- What the underlying `poll` makes of a call: its result, and the `revents` of every entry.
The rest of an entry it only reads. -/
structure PollResult where
  ret : ℤ
  revents : ℕ → ℕ

/-- `replace_fd`. -/
structure ReplaceFd where
  index : ℕ
  originalFd : ℤ
  deriving DecidableEq, Repr

/-- The eventfd that takes the place of a descriptor; `sockets` has those of `socket_ids`,
-1 before there is one. -/
def eventfdOf (sockets : ℤ → Option ℤ) (fd : ℤ) : Option ℤ :=
  (sockets fd).filter (· ≠ -1)

/-- The first loop, from the index `i` on: the array and `replaced_fds` after it. -/
def replaceFds (sockets : ℤ → Option ℤ) : ℕ → List PollFd → List PollFd × List ReplaceFd
  | _, [] => ([], [])
  | i, p :: ps =>
      let rest := replaceFds sockets (i + 1) ps
      match eventfdOf sockets p.fd with
      | some eventfd => ({ p with fd := eventfd } :: rest.1, ⟨i, p.fd⟩ :: rest.2)
      | none => (p :: rest.1, rest.2)

/-- The second loop. -/
def restoreFds (replaced : List ReplaceFd) (fds : List PollFd) : List PollFd :=
  replaced.foldl
    (fun fds repl => fds.modify repl.index fun p => { p with fd := repl.originalFd }) fds

/-- `PROXY(poll)`. -/
def proxyPoll (result : PollResult) (fds : List PollFd) : List PollFd :=
  fds.mapIdx fun i p => { p with revents := result.revents i }

/-- `poll`: what it returns and the array after it.  A call from libfabric is handed on. -/
def poll (callerLibfabric : Bool) (sockets : ℤ → Option ℤ) (result : PollResult)
    (fds : List PollFd) : ℤ × List PollFd :=
  if callerLibfabric then (result.ret, proxyPoll result fds)
  else
    let replaced := replaceFds sockets 0 fds
    let fds := proxyPoll result replaced.1
    if result.ret < 0 then (result.ret, fds)
    else (result.ret, restoreFds replaced.2 fds)

/-- What `poll` must leave as it was. -/
def PollFd.given (p : PollFd) : ℤ × ℕ := (p.fd, p.events)

variable {sockets : ℤ → Option ℤ}

/-- The indices count from where the loop begins. -/
theorem replaceFds_succ (i : ℕ) (fds : List PollFd) :
    replaceFds sockets (i + 1) fds = ((replaceFds sockets i fds).1,
      (replaceFds sockets i fds).2.map fun r => { r with index := r.index + 1 }) := by
  induction fds generalizing i with
  | nil => rfl
  | cons p ps ih =>
    simp only [replaceFds]
    rw [ih (i + 1)]
    cases eventfdOf sockets p.fd <;> rfl

theorem restoreFds_succ (replaced : List ReplaceFd) (p : PollFd) (fds : List PollFd) :
    restoreFds (replaced.map fun r => { r with index := r.index + 1 }) (p :: fds) =
      p :: restoreFds replaced fds := by
  induction replaced generalizing fds with
  | nil => rfl
  | cons r rs ih =>
    simp only [restoreFds, List.map_cons, List.foldl_cons, List.modify_succ_cons] at ih ⊢
    exact ih _

theorem proxyPoll_cons (result : PollResult) (p : PollFd) (fds : List PollFd) :
    proxyPoll result (p :: fds) = { p with revents := result.revents 0 } ::
      proxyPoll ⟨result.ret, fun i => result.revents (i + 1)⟩ fds := by
  rw [proxyPoll, List.mapIdx_cons]
  rfl

/-- The array as the underlying `poll` leaves it. -/
theorem given_proxyPoll (result : PollResult) (fds : List PollFd) :
    (proxyPoll result (replaceFds sockets 0 fds).1).map PollFd.given =
      fds.map fun p => ((eventfdOf sockets p.fd).getD p.fd, p.events) := by
  induction fds generalizing result with
  | nil => rfl
  | cons p ps ih =>
    simp only [replaceFds, replaceFds_succ]
    cases he : eventfdOf sockets p.fd with
    | none =>
      dsimp only
      rw [proxyPoll_cons, List.map_cons, ih, List.map_cons, he]
      rfl
    | some eventfd =>
      dsimp only
      rw [proxyPoll_cons, List.map_cons, ih, List.map_cons, he]
      rfl

/-- The second loop takes back what the first one did. -/
theorem given_restoreFds (result : PollResult) (fds : List PollFd) :
    (restoreFds (replaceFds sockets 0 fds).2
      (proxyPoll result (replaceFds sockets 0 fds).1)).map PollFd.given =
      fds.map PollFd.given := by
  induction fds generalizing result with
  | nil => rfl
  | cons p ps ih =>
    simp only [replaceFds, replaceFds_succ]
    cases eventfdOf sockets p.fd with
    | none =>
      dsimp only
      rw [proxyPoll_cons, restoreFds_succ, List.map_cons, ih]
      rfl
    | some eventfd =>
      dsimp only
      rw [proxyPoll_cons, restoreFds, List.foldl_cons, List.modify_zero_cons, ← restoreFds,
        restoreFds_succ, List.map_cons, ih]
      rfl

/-- **`poll` gives the descriptors back** exactly when libfabric called it, or the underlying
`poll` did not fail, or no entry is a socket whose eventfd is another descriptor. -/
theorem poll_gives_back_iff (callerLibfabric : Bool) (sockets : ℤ → Option ℤ)
    (result : PollResult) (fds : List PollFd) :
    (poll callerLibfabric sockets result fds).2.map PollFd.given = fds.map PollFd.given ↔
      callerLibfabric = true ∨ 0 ≤ result.ret ∨
        ∀ p ∈ fds, ∀ eventfd, sockets p.fd = some eventfd → eventfd = -1 ∨ eventfd = p.fd := by
  cases callerLibfabric with
  | true =>
    refine iff_of_true ?_ (.inl rfl)
    rw [poll, if_pos rfl]
    exact List.ext_getElem (by simp [proxyPoll]) fun i h₁ h₂ => by simp [proxyPoll, PollFd.given]
  | false =>
    by_cases hret : result.ret < 0
    · rw [poll, if_neg (by decide), if_pos hret, given_proxyPoll, List.map_inj_left]
      simp only [Bool.false_eq_true, false_or, Int.not_le.2 hret, PollFd.given, Prod.mk.injEq,
        and_true]
      refine forall₂_congr fun p hp => ?_
      cases hs : sockets p.fd with
      | none => simp [eventfdOf, hs]
      | some eventfd =>
        by_cases he : eventfd = -1
        · simp [eventfdOf, hs, he, Option.filter]
        · simp [eventfdOf, hs, he, Option.filter]
    · refine iff_of_true ?_ (.inr (.inl (Int.not_lt.1 hret)))
      rw [poll, if_neg (by decide), if_neg hret]
      exact given_restoreFds result fds

/-- A socket 5 with the eventfd 9, and a `poll` that a signal interrupts. -/
theorem poll_interrupted :
    ¬ ∀ (sockets : ℤ → Option ℤ) (result : PollResult) (fds : List PollFd),
      (poll false sockets result fds).2.map PollFd.given = fds.map PollFd.given := by
  intro h
  have hfds := h (fun fd => if fd = 5 then some 9 else none) ⟨-1, fun _ => 0⟩ [⟨5, 1, 0⟩]
  exact absurd hfds (by decide)

end Preload
end Lfi
