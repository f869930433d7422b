/-
# The descriptors of sockets

`socket::open`, `server_init`, `client_init` and `accept` of `src/src/impl/socket.cpp` as far as
descriptors go: what is opened, accepted and closed, by the results of the system calls.  One
that fails returns -1.  A call that does not return, because `retry_connect` goes on, has no
result.

A call that succeeds returns its descriptor and holds no other; one that fails holds none
(`Gives`).  Except `server_init` for an address that `inet_pton` refuses, which returns past its
`socket::close` (`serverInit_noLeak_iff`).
-/

import Lfi.Data.Ledger

namespace Lfi
namespace Socket

open Data Ledger

/-! ### The functions -/

/-- The results in `socket::open`: of `socket` and of the two `setsockopt`. -/
structure OpenResults where
  socket : Bool
  nodelay : Bool
  reuseaddr : Bool
  deriving DecidableEq, Repr

/-- `socket::open()`. -/
def socketOpen (r : OpenResults) (s : Ledger) : Except ℤ ℕ × Ledger :=
  if r.socket = false then (.error (-1), s)
  else
    let (outSocket, s) := s.acquire
    if r.nodelay = false then (.error (-1), s.release outSocket)
    else if r.reuseaddr = false then (.error (-1), s.release outSocket)
    else (.ok outSocket, s)

/-- The results in `socket::server_init`. -/
structure ServerInitResults where
  opening : OpenResults
  inetPton : Bool
  bind : Bool
  listen : Bool
  deriving DecidableEq, Repr

/-- `socket::server_init(addr, port)`. -/
def serverInit (addr : String) (r : ServerInitResults) (s : Ledger) : Except ℤ ℕ × Ledger :=
  match socketOpen r.opening s with
  | (.error e, s) => (.error e, s)
  | (.ok socket, s) =>
      if addr ≠ "" ∧ r.inetPton = false then (.error (-1), s)
      else if r.bind = false then (.error (-1), s.release socket)
      else if r.listen = false then (.error (-1), s.release socket)
      else (.ok socket, s)

/-- A `connect`, and the milliseconds since the first one when it has failed. -/
structure Attempt where
  connected : Bool
  elapsed : ℤ
  deriving DecidableEq, Repr

/-- `socket::retry_connect`: whether it connects; `none` while it tries. -/
def retryConnect (timeoutMs : ℤ) : List Attempt → Option Bool
  | [] => none
  | a :: as =>
      if a.connected then some true
      else if timeoutMs < a.elapsed then some false
      else retryConnect timeoutMs as

/-- The results for one of the addresses. -/
structure AddressResults where
  opening : OpenResults
  attempts : List Attempt
  deriving DecidableEq, Repr

/-- The loop of `socket::client_init` over the addresses. -/
def connectAddresses (timeoutMs : ℤ) : List AddressResults → Ledger →
    Option (Except ℤ ℕ × Ledger)
  | [], s => some (.error (-1), s)
  | p :: ps, s =>
      match socketOpen p.opening s with
      | (.error e, s) => some (.error e, s)
      | (.ok socket, s) =>
          (retryConnect timeoutMs p.attempts).bind fun connected =>
            if connected then some (.ok socket, s)
            else connectAddresses timeoutMs ps (s.release socket)

/-- The results in `socket::client_init`: the addresses that `getaddrinfo` finds, and of the
calls for an address that is given as such. -/
structure ClientInitResults where
  getaddrinfo : Option (List AddressResults)
  inetPton : Bool
  opening : OpenResults
  connect : Bool
  deriving DecidableEq, Repr

/-- `socket::client_init(addr, port, timeout_ms, is_ip)`. -/
def clientInit (timeoutMs : ℤ) (isIp : Bool) (r : ClientInitResults) (s : Ledger) :
    Option (Except ℤ ℕ × Ledger) :=
  if isIp then
    if r.inetPton = false then some (.error (-1), s)
    else
      match socketOpen r.opening s with
      | (.error e, s) => some (.error e, s)
      | (.ok socket, s) =>
          if r.connect = false then some (.error (-1), s.release socket)
          else some (.ok socket, s)
  else
    match r.getaddrinfo with
    | none => some (.error (-1), s)
    | some addresses => connectAddresses timeoutMs addresses s

/-- The results in `socket::accept`: of `accept_timeout` and of `setsockopt`. -/
structure AcceptResults where
  acceptTimeout : Bool
  nodelay : Bool
  deriving DecidableEq, Repr

/-- `socket::accept(socket, timeout_ms)`. -/
def socketAccept (r : AcceptResults) (s : Ledger) : Except ℤ ℕ × Ledger :=
  if r.acceptTimeout = false then (.error (-1), s)
  else
    let (newSocket, s) := s.acquire
    if r.nodelay = false then (.error (-1), s.release newSocket)
    else (.ok newSocket, s)

/-! ### When they succeed -/

/-- Everything succeeds. -/
def OpenResults.ok (r : OpenResults) : Bool := r.socket && r.nodelay && r.reuseaddr

/-- Some address is connected to, and no `socket::open` fails before. -/
def connects (timeoutMs : ℤ) : List AddressResults → Bool
  | [] => false
  | p :: ps =>
      p.opening.ok && match retryConnect timeoutMs p.attempts with
        | none => false
        | some true => true
        | some false => connects timeoutMs ps

/-- A connection is made. -/
def ClientInitResults.ok (timeoutMs : ℤ) (isIp : Bool) (r : ClientInitResults) : Bool :=
  if isIp then r.inetPton && r.opening.ok && r.connect
  else r.getaddrinfo.any (connects timeoutMs)

/-- A connection is accepted. -/
def AcceptResults.ok (r : AcceptResults) : Bool := r.acceptTimeout && r.nodelay

/-- The socket is bound to its address and listens. -/
def ServerInitResults.ok (addr : String) (r : ServerInitResults) : Bool :=
  r.opening.ok && (addr == "" || r.inetPton) && r.bind && r.listen

/-- The address is refused after the socket was opened. -/
def ServerInitResults.Refuses (addr : String) (r : ServerInitResults) : Prop :=
  r.opening.ok = true ∧ addr ≠ "" ∧ r.inetPton = false

instance (addr : String) : DecidablePred (ServerInitResults.Refuses addr) :=
  fun _ => inferInstanceAs (Decidable (_ ∧ _))

/-! ### What they hold -/

variable {s₀ s t : Ledger} {ds : List ℕ} {timeoutMs : ℤ}

/-- **What a call gives**: on success, which is when `ok` is true, its descriptor, and otherwise
nothing. -/
inductive Gives (s₀ : Ledger) (ds : List ℕ) : Bool → Except ℤ ℕ × Ledger → Prop
  | success (fd : ℕ) (t : Ledger) (h : Holding s₀ t (fd :: ds)) : Gives s₀ ds true (.ok fd, t)
  | failure (e : ℤ) (t : Ledger) (h : Holding s₀ t ds) : Gives s₀ ds false (.error e, t)

/-- A call that succeeded. -/
theorem Gives.succeeded {ok : Bool} {fd : ℕ} (h : Gives s₀ ds ok (.ok fd, t)) :
    ok = true ∧ Holding s₀ t (fd :: ds) := by
  cases h with
  | success fd t h => exact ⟨rfl, h⟩

/-- A call that failed. -/
theorem Gives.failed {ok : Bool} {e : ℤ} (h : Gives s₀ ds ok (.error e, t)) :
    ok = false ∧ Holding s₀ t ds := by
  cases h with
  | failure e t h => exact ⟨rfl, h⟩

theorem gives_socketOpen (r : OpenResults) (h : Holding s₀ s ds) :
    Gives s₀ ds r.ok (socketOpen r s) := by
  obtain ⟨socket, nodelay, reuseaddr⟩ := r
  cases socket with
  | false => exact .failure (-1) s h
  | true =>
      cases nodelay with
      | false => exact .failure (-1) _ h.acquire.release
      | true =>
          cases reuseaddr with
          | false => exact .failure (-1) _ h.acquire.release
          | true => exact .success _ _ h.acquire

theorem gives_socketAccept (r : AcceptResults) (h : Holding s₀ s ds) :
    Gives s₀ ds r.ok (socketAccept r s) := by
  obtain ⟨acceptTimeout, nodelay⟩ := r
  cases acceptTimeout with
  | false => exact .failure (-1) s h
  | true =>
      cases nodelay with
      | false => exact .failure (-1) _ h.acquire.release
      | true => exact .success _ _ h.acquire

/-- One address after the other: the descriptor of each is closed before the next is opened. -/
theorem gives_connectAddresses {addresses : List AddressResults} {p : Except ℤ ℕ × Ledger}
    (h : Holding s₀ s ds) (hp : connectAddresses timeoutMs addresses s = some p) :
    Gives s₀ ds (connects timeoutMs addresses) p := by
  induction addresses generalizing s with
  | nil =>
      obtain rfl := Option.some.inj hp
      exact .failure (-1) s h
  | cons a as ih =>
      have hopen := gives_socketOpen a.opening h
      rw [connectAddresses] at hp
      rw [connects]
      generalize socketOpen a.opening s = q at hopen hp
      generalize a.opening.ok = ok at hopen
      cases hopen with
      | failure e t ht =>
          obtain rfl := Option.some.inj hp
          exact .failure e t ht
      | success fd t ht =>
          cases hretry : retryConnect timeoutMs a.attempts with
          | none =>
              simp only [hretry] at hp
              cases hp
          | some connected =>
              simp only [hretry, Option.bind_some] at hp
              cases connected with
              | true =>
                  obtain rfl := Option.some.inj hp
                  exact .success fd t ht
              | false => exact ih ht.release hp

/-- **`client_init` gives its connection or nothing**, for any number of addresses. -/
theorem gives_clientInit {isIp : Bool} {r : ClientInitResults} {p : Except ℤ ℕ × Ledger}
    (h : Holding s₀ s ds) (hp : clientInit timeoutMs isIp r s = some p) :
    Gives s₀ ds (r.ok timeoutMs isIp) p := by
  rw [clientInit] at hp
  cases isIp with
  | false =>
      rw [ClientInitResults.ok]
      cases haddr : r.getaddrinfo with
      | none =>
          simp only [haddr] at hp
          obtain rfl := Option.some.inj hp
          exact .failure (-1) s h
      | some addresses =>
          simp only [haddr] at hp
          exact gives_connectAddresses h hp
  | true =>
      rw [ClientInitResults.ok]
      cases hpton : r.inetPton with
      | false =>
          simp only [hpton, if_true] at hp
          obtain rfl := Option.some.inj hp
          exact .failure (-1) s h
      | true =>
          have hopen := gives_socketOpen r.opening h
          simp only [hpton, if_true, Bool.true_eq_false, if_false] at hp
          generalize socketOpen r.opening s = q at hopen hp
          generalize r.opening.ok = ok at hopen
          cases hopen with
          | failure e t ht =>
              obtain rfl := Option.some.inj hp
              exact .failure e t ht
          | success fd t ht =>
              cases hconnect : r.connect with
              | false =>
                  simp only [hconnect, if_true] at hp
                  obtain rfl := Option.some.inj hp
                  exact .failure (-1) _ ht.release
              | true =>
                  simp only [hconnect, Bool.true_eq_false, if_false] at hp
                  obtain rfl := Option.some.inj hp
                  exact .success fd t ht

/-- **`server_init` gives its socket or nothing**, unless it refuses the address. -/
theorem gives_serverInit {addr : String} {r : ServerInitResults} (hr : ¬ r.Refuses addr)
    (h : Holding s₀ s ds) : Gives s₀ ds (r.ok addr) (serverInit addr r s) := by
  have hopen := gives_socketOpen r.opening h
  unfold ServerInitResults.Refuses at hr
  rw [serverInit, ServerInitResults.ok]
  generalize socketOpen r.opening s = q at hopen
  generalize r.opening.ok = ok at hopen hr
  cases hopen with
  | failure e t ht => exact .failure e t ht
  | success fd t ht =>
      have hrefuse : ¬ (addr ≠ "" ∧ r.inetPton = false) := fun h => hr ⟨rfl, h⟩
      have haddr : (addr == "" || r.inetPton) = true := by
        simpa [Classical.or_iff_not_imp_left] using hrefuse
      rw [haddr]
      simp only [if_neg hrefuse]
      cases r.bind with
      | false => exact .failure (-1) _ ht.release
      | true =>
          cases r.listen with
          | false => exact .failure (-1) _ ht.release
          | true => exact .success fd t ht

/-- An address that is refused leaves the socket open. -/
theorem serverInit_refuses {addr : String} {r : ServerInitResults} (hr : r.Refuses addr)
    (h : Holding s₀ s ds) :
    ∃ fd t, serverInit addr r s = (.error (-1), t) ∧ Holding s₀ t (fd :: ds) := by
  have hopen := gives_socketOpen r.opening h
  obtain ⟨hok, hrefuse⟩ := hr
  rw [hok] at hopen
  rw [serverInit]
  generalize socketOpen r.opening s = q at hopen
  cases hopen with
  | success fd t ht =>
      simp only [if_pos hrefuse]
      exact ⟨fd, t, rfl, ht⟩

/-! ### What they leak -/

/-- `server_init` that fails leaks its socket exactly when it refuses the address. -/
theorem serverInit_noLeak_iff {addr : String} {r : ServerInitResults} {e : ℤ}
    (hr : serverInit addr r s = (.error e, t)) : NoLeak s t ↔ ¬ r.Refuses addr := by
  by_cases hrefuse : r.Refuses addr
  · obtain ⟨fd, t', ht, hholds⟩ := serverInit_refuses hrefuse (.refl s)
    rw [hr] at ht
    obtain rfl := (Prod.mk.inj ht).2
    rw [hholds.noLeak_iff]
    exact iff_of_false (List.cons_ne_nil _ _) (not_not.2 hrefuse)
  · have hgives := gives_serverInit hrefuse (.refl s)
    rw [hr] at hgives
    exact iff_of_true (hgives.failed.2.noLeak_iff.2 rfl) hrefuse

/-- `client_init` that fails leaks nothing. -/
theorem clientInit_noLeak {isIp : Bool} {r : ClientInitResults} {e : ℤ}
    (hr : clientInit timeoutMs isIp r s = some (.error e, t)) : NoLeak s t :=
  (gives_clientInit (.refl s) hr).failed.2.noLeak_iff.2 rfl

end Socket
end Lfi
