/-
# The two ends of a handshake agree

`SideInv` survives every action.  A side waits when it has read all there is; then the
other side has no more steps that write behind it than this one has that read, and no two
places in the functions fit that in both directions (`not_stuck`).

The heartbeat is exchanged under `LFI_FAULT_TOLERANCE` only (`no_heartbeat`).
-/

import Lfi.Connection.Streams

namespace Lfi
namespace Connection

open Data HandshakeStep Runs

variable {host : Role → Host} {ft : Bool} {s t : Exchange} {r : Role} {step : HandshakeStep}
  {rest : List HandshakeStep}

theorem Exchange.setSide_side (s : Exchange) (r q : Role) (x : Side) :
    (s.setSide r x).side q = if q = r then x else s.side q := by
  simp only [Exchange.setSide, Function.update_apply]

/-- Both sides are fine when the one that acted is, and has taken back nothing. -/
theorem sideInv_of_acted (hs : ∀ q, SideInv host ft s q) (hr : SideInv host ft t r)
    (hside : t.side r.other = s.side r.other) (hw : t.written r.other = s.written r.other)
    (hc : t.consumed r.other = s.consumed r.other) (hsent : t.sent r.other = s.sent r.other)
    (hrecv : t.received r.other = s.received r.other) (horder : s.written r <+: t.written r)
    (q : Role) : SideInv host ft t q := by
  by_cases hq : q = r
  · exact hq ▸ hr
  · obtain rfl := Role.eq_other hq
    exact (hs _).frame hside hw hc hsent hrecv (by rwa [Role.other_other])

/-- **A system call.** -/
theorem sideInv_transfer (hshm : (host .server).useShm = (host .client).useShm)
    (hs : ∀ q, SideInv host ft s q) (hrest : (s.side r).rest = step :: rest) {n : ℕ}
    (h : transfer host s r n step rest = some t) : ∀ q, SideInv host ft t q := by
  have hsuf := (hs r).suffix
  have hknown := (hs r).known
  rw [hrest] at hsuf hknown
  have hspec := perform_spec hshm hsuf hknown
  have hne : r.other ≠ r := r.other_ne
  unfold transfer at h
  dsimp only at h
  cases hp : perform (host r) (s.side r) step with
  | write bytes =>
      rw [hp] at h hspec
      obtain ⟨hwrites, rfl, hk⟩ := hspec
      dsimp only at h
      rw [socketLeft_of_lt (length_out_lt r step)] at h
      split at h
      case isFalse => cases h
      case isTrue hn =>
        have ht := Option.some.inj h
        have hlt := (hs r).movedOut step (by rw [hrest]; rfl) hwrites
        have hw : t.written r =
            s.written r ++ ((out host r step).drop (s.side r).moved).take n := by
          rw [← ht]; exact Function.update_self ..
        have hwo : t.written r.other = s.written r.other := by
          rw [← ht]; exact Function.update_of_ne hne ..
        refine sideInv_of_acted hs ((hs r).wrote hrest hwrites hk (by omega) ?_ hw hwo
          (by rw [← ht]; rfl) (by rw [← ht]; rfl) (by rw [← ht]; rfl)) ?_ hwo (by rw [← ht]; rfl)
          (by rw [← ht]; rfl) (by rw [← ht]; rfl) (hw ▸ List.prefix_append _ _)
        · rw [← ht, Exchange.setSide_side, if_pos rfl]
          exact if_congr (by omega) rfl rfl
        · rw [← ht, Exchange.setSide_side, if_neg hne]
  | read len store =>
      rw [hp] at h hspec
      obtain ⟨p, hpartner, -, rfl, hk⟩ := hspec
      dsimp only at h
      rw [socketLeft_of_lt (length_out_lt r.other p)] at h
      split at h
      case isFalse => cases h
      case isTrue hn =>
        have ht := Option.some.inj h
        have hlt := (hs r).movedIn step (by rw [hrest]; rfl) p hpartner
        have hw : t.written = s.written := by rw [← ht]; rfl
        refine sideInv_of_acted hs ((hs r).read (hs _) hrest hpartner
          (y := store ((s.side r).buffer ++ (s.inFlight r).take n)) (fun hb => by rw [hb]; exact hk)
          (by omega) hn.2 ?_ ?_ hw (by rw [← ht]; rfl) (by rw [← ht]; rfl)) ?_ (by rw [hw]) ?_
          (by rw [← ht]; rfl) (by rw [← ht]; rfl) (hw ▸ List.prefix_rfl)
        · rw [← ht, Exchange.setSide_side, if_pos rfl]
          exact if_congr (by omega) rfl rfl
        · rw [← ht]; exact Function.update_self ..
        · rw [← ht, Exchange.setSide_side, if_neg hne]
        · rw [← ht]; exact Function.update_of_ne hne ..
  | fabricSend => rw [hp] at h; cases h
  | fabricRecv => rw [hp] at h; cases h
  | inside after => rw [hp] at h; cases h

/-- A side is past a step that needs no socket. -/
theorem SideInv.past (hs : ∀ q, SideInv host ft s q) (hrest : (s.side r).rest = step :: rest)
    (hwrites : writes step = false) (hpartner : partner step = none) {y : Side}
    (hk : Known host ft r rest y)
    (hside : t.side = Function.update s.side r (y.next rest)) (hw : t.written = s.written)
    (hc : t.consumed = s.consumed)
    (hsent : t.sent = Function.update s.sent r (s.sent r + [step].count .send))
    (hrecv : t.received = Function.update s.received r (s.received r + [step].count .recv)) :
    ∀ q, SideInv host ft t q := by
  have hne : r.other ≠ r := r.other_ne
  refine sideInv_of_acted hs ((hs r).next hrest (by rw [hside, Function.update_self]) hk ?_ ?_ ?_
    (by rw [hsent, Function.update_self]) (by rw [hrecv, Function.update_self])) ?_ (by rw [hw])
    (by rw [hc]) (by rw [hsent, Function.update_of_ne hne])
    (by rw [hrecv, Function.update_of_ne hne]) (hw ▸ List.prefix_rfl)
  · rw [hw, out_of_not_writes hwrites, List.drop_nil, List.append_nil]
  · rw [hc, inn_of_none hpartner, List.drop_nil, List.append_nil]
  · rw [hc, hw]; exact (hs r).inOrder
  · rw [hside, Function.update_of_ne hne]

/-- **A step that needs no socket.** -/
theorem sideInv_advance (hshm : (host .server).useShm = (host .client).useShm)
    (hs : ∀ q, SideInv host ft s q) (hrest : (s.side r).rest = step :: rest)
    (h : advance host s r step rest = some t) : ∀ q, SideInv host ft t q := by
  have hsuf := (hs r).suffix
  have hknown := (hs r).known
  rw [hrest] at hsuf hknown
  have hspec := perform_spec hshm hsuf hknown
  unfold advance at h
  dsimp only at h
  cases hp : perform (host r) (s.side r) step with
  | write bytes => rw [hp] at h; cases h
  | read len store => rw [hp] at h; cases h
  | fabricSend =>
      rw [hp] at h hspec
      obtain ⟨rfl, hk⟩ := hspec
      have ht := Option.some.inj h
      refine SideInv.past hs hrest rfl rfl hk ?_ ?_ ?_ ?_ ?_ <;> rw [← ht]
      · rfl
      · rfl
      · rfl
      · rfl
      · exact (Function.update_eq_self r s.received).symm
  | fabricRecv =>
      rw [hp] at h hspec
      obtain ⟨rfl, hk⟩ := hspec
      dsimp only at h
      split at h
      case isFalse => cases h
      case isTrue =>
        have ht := Option.some.inj h
        refine SideInv.past hs hrest rfl rfl hk ?_ ?_ ?_ ?_ ?_ <;> rw [← ht]
        · rfl
        · rfl
        · rfl
        · exact (Function.update_eq_self r s.sent).symm
        · rfl
  | inside after =>
      rw [hp] at h hspec
      obtain ⟨hpartner, hwrites, hsend, hrecv, hk⟩ := hspec
      have ht := Option.some.inj h
      refine SideInv.past hs hrest hwrites hpartner hk ?_ ?_ ?_ ?_ ?_ <;> rw [← ht]
      · rfl
      · rfl
      · rfl
      · rw [List.count_singleton, if_neg (by simpa using hsend), Nat.add_zero,
          Function.update_eq_self]
        rfl
      · rw [List.count_singleton, if_neg (by simpa using hrecv), Nat.add_zero,
          Function.update_eq_self]
        rfl

/-- What an action is. -/
theorem exchangeStep_cases {a : ExchangeAction} (h : exchangeStep host s a = some t) :
    ∃ r step rest, (s.side r).rest = step :: rest ∧
      ((∃ n, transfer host s r n step rest = some t) ∨ advance host s r step rest = some t ∨
        t = s.setSide r { s.side r with failed := true }) := by
  unfold exchangeStep at h
  dsimp only at h
  split at h
  case h_2 => cases h
  case h_1 step rest _ hrest =>
    refine ⟨_, step, rest, hrest, ?_⟩
    cases a with
    | transfer r n => exact .inl ⟨n, h⟩
    | advance r => exact .inr (.inl h)
    | fail r =>
        dsimp only at h
        split at h
        case isFalse => cases h
        case isTrue => exact .inr (.inr (Option.some.inj h).symm)

/-- **The invariant survives every action.** -/
theorem sideInv_step (hshm : (host .server).useShm = (host .client).useShm)
    (hs : ∀ q, SideInv host ft s q) {a : ExchangeAction} (h : exchangeStep host s a = some t) :
    ∀ q, SideInv host ft t q := by
  obtain ⟨r, step, rest, hrest, ⟨n, h⟩ | h | rfl⟩ := exchangeStep_cases h
  · exact sideInv_transfer hshm hs hrest h
  · exact sideInv_advance hshm hs hrest h
  · intro q
    have hq := hs q
    by_cases hqr : q = r
    · subst hqr
      have hside : (s.setSide q { s.side q with failed := true }).side q =
          { s.side q with failed := true } := by rw [Exchange.setSide_side, if_pos rfl]
      exact ⟨by rw [hside]; exact hq.suffix,
        by rw [hside]; exact fun p hp hl => by have := hq.known p hp hl; cases p <;> exact this,
        by rw [hside]; exact hq.movedOut, by rw [hside]; exact hq.movedIn,
        by rw [hside]; exact hq.written, by rw [hside]; exact hq.consumed, hq.inOrder,
        by rw [hside]; exact hq.sent, by rw [hside]; exact hq.received⟩
    · have hside : (s.setSide r { s.side r with failed := true }).side q = s.side q := by
        rw [Exchange.setSide_side, if_neg hqr]
      exact hq.frame hside rfl rfl rfl rfl List.prefix_rfl

/-! ### Waiting -/

/-- A side that has read all there is has no fewer fields to read than the other has to
write: what the other still writes would otherwise be part of what comes after the field
this side is in. -/
theorem length_fields_le (hs : ∀ q, SideInv host ft s q) (hrest : (s.side r).rest = step :: rest)
    {p : HandshakeStep} (hstep : partner step = some p) (hflight : s.inFlight r = []) :
    ((step :: rest).filterMap partner).length ≤ ((s.side r.other).rest.filter writes).length := by
  by_contra hlt
  obtain ⟨w, hw⟩ := (hs r).inOrder
  rw [Exchange.inFlight, ← hw, List.drop_left] at hflight
  rw [hflight, List.append_nil] at hw
  have hmoved := ((hs r).movedIn step (by rw [hrest]; rfl) p hstep).1
  have heq : (inStream host r (s.side r).rest).drop (s.side r).movedIn =
      (outStream host r.other (s.side r.other).rest).drop (s.side r.other).movedOut := by
    apply @List.append_cancel_left _ (s.consumed r)
    rw [(hs r).consumed, hw, (hs r.other).written, inStream_handshake]
  -- the fields the other still writes are among those after the current one
  have hfields : (s.side r.other).rest.filter writes <:+ rest.filterMap partner := by
    have hin : rest.filterMap partner <:+ (handshake r ft).filterMap partner :=
      ((List.suffix_cons step rest).trans (hrest ▸ (hs r).suffix)).filterMap partner
    have hout := (hs r.other).suffix.filter writes
    rw [lockstep] at hin
    refine List.suffix_of_suffix_length_le hout hin ?_
    rw [List.filterMap_cons_some hstep, List.length_cons] at hlt
    omega
  obtain ⟨l, hl⟩ := hfields
  have hle : (outStream host r.other (s.side r.other).rest).length ≤
      (inStream host r rest).length := by
    rw [inStream, ← hl, List.flatMap_append, List.length_append, outStream]
    exact Nat.le_add_left _ _
  have hlen := congrArg List.length heq
  rw [hrest, inStream_cons, inn_of_partner hstep, Side.movedIn_of_rest hrest, hstep,
    List.length_drop, List.length_drop, List.length_append] at hlen
  simp only [Option.isSome_some, if_true] at hlen
  omega

/-- A side that waits is stuck where it is. -/
theorem stuck_of_waits (hshm : (host .server).useShm = (host .client).useShm)
    (hs : ∀ q, SideInv host ft s q) (h : s.Waits host r) :
    stuck (s.side r).rest (s.side r.other).rest = true := by
  obtain ⟨-, step, rest, hrest, hwaits⟩ := h
  have hsuf := (hs r).suffix
  have hknown := (hs r).known
  rw [hrest] at hsuf hknown
  have hspec := perform_spec hshm hsuf hknown
  cases hp : perform (host r) (s.side r) step with
  | read len store =>
      rw [hp] at hspec hwaits
      obtain ⟨p, hpartner, -⟩ := hspec
      rw [hrest, stuck, hpartner, Option.isSome_some, Bool.true_and, Bool.or_eq_true]
      exact .inl (decide_eq_true (length_fields_le hs hrest hpartner hwaits))
  | fabricRecv =>
      rw [hp] at hspec hwaits
      obtain ⟨rfl, -⟩ := hspec
      have hsent := (hs r.other).sent
      have hrecv := (hs r).received
      rw [hrest] at hrecv
      rw [hrest, stuck, beq_self_eq_true, Bool.true_and, Bool.or_eq_true]
      refine .inr (decide_eq_true ?_)
      dsimp only at hwaits
      omega
  | write bytes => rw [hp] at hwaits; exact hwaits.elim
  | fabricSend => rw [hp] at hwaits; exact hwaits.elim
  | inside after => rw [hp] at hwaits; exact hwaits.elim

/-- What a side knows when its function has returned. -/
theorem SideInv.holds (hs : SideInv host ft s r) (hrest : (s.side r).rest = [])
    {p : HandshakeStep} (hp : p ∈ handshake r ft) : Holds host r (s.side r) p :=
  hs.known p hp (by rw [hrest]; exact List.not_mem_nil)

/-- **The invariant gives what the handshake promises.** -/
theorem inStep_of_sideInv (hshm : (host .server).useShm = (host .client).useShm)
    (hs : ∀ q, SideInv host ft s q) : s.InStep host ft where
  inOrder r := (hs r).inOrder
  notBothWaiting := by
    rintro ⟨hserver, hclient⟩
    exact not_stuck ft _ ((List.mem_tails _ _).2 (hs .server).suffix) _
      ((List.mem_tails _ _).2 (hs .client).suffix)
      ⟨stuck_of_waits hshm hs hserver, stuck_of_waits hshm hs hclient⟩
  allRead hserver hclient r := by
    have hdone : ∀ q, (s.side q).rest = [] := fun q => by
      cases q
      · exact hserver.2
      · exact hclient.2
    have hc := (hs r).consumed
    have hw := (hs r.other).written
    have hsent := (hs r.other).sent
    have hrecv := (hs r).received
    rw [hdone] at hc hw hsent hrecv
    rw [inStream, List.filterMap_nil, List.flatMap_nil, List.drop_nil, List.append_nil] at hc
    rw [outStream, List.filter_nil, List.flatMap_nil, List.drop_nil, List.append_nil] at hw
    exact ⟨by rw [hc, hw, inStream_handshake], hrecv.trans hsent.symm⟩
  agree hserver hclient := by
    have hdone : ∀ q, (s.side q).rest = [] := fun q => by
      cases q
      · exact hserver.2
      · exact hclient.2
    have hin : ∀ q : Role, ∀ p ∈ [initComm, recvRankSelfInPeer, registerAddr],
        p ∈ handshake q ft := by
      intro q
      cases q <;> cases ft <;> decide
    have hends : ∀ q, (s.side q).endpoint = some (chosen host) := fun q =>
      ((hs q).holds (hdone q) (hin q initComm (by decide))).1
    refine ⟨fun r => ?_, ?_, fun r => ⟨chosen host, hends _, ?_⟩, fun hft r => ?_, fun hft r => ?_⟩
    · have hrank : (s.side r).rankSelfInPeer = _ :=
        (hs r).holds (hdone r) (hin r recvRankSelfInPeer (by decide))
      rw [hrank, ((hs r.other).holds (hdone _) (hin _ initComm (by decide))).2]
    · rw [hends, hends]
    · exact (hs r).holds (hdone r) (hin r registerAddr (by decide))
    · subst hft
      exact (hs r).holds (hdone r) (p := recvHeartbeatAddr) (by cases r <;> decide)
    · subst hft
      exact (hs r).holds (hdone r) (p := recvHeartbeatKey) (by cases r <;> decide)

/-- Both sides keep the invariant in every run. -/
theorem sideInv_of_run (host : Role → Host)
    (hshm : (host .server).useShm = (host .client).useShm) (ft : Bool) {s : Exchange}
    (h : Reachable (exchangeStep host) (· = Exchange.start ft) s) : ∀ q, SideInv host ft s q := by
  refine h.invariant ?_ fun _ _ _ hs ht => sideInv_step hshm hs ht
  rintro s rfl q
  exact sideInv_start ft q

/-- **The handshake agrees.**  Of two processes with the same `LFI_FAULT_TOLERANCE` and
`LFI_USE_SHM`, however the bytes between them are cut up and wherever one of them fails. -/
theorem inStep_of_run (host : Role → Host)
    (hshm : (host .server).useShm = (host .client).useShm) (ft : Bool) {s : Exchange}
    (h : Reachable (exchangeStep host) (· = Exchange.start ft) s) : s.InStep host ft :=
  inStep_of_sideInv hshm (sideInv_of_run host hshm ft h)

/-- Two processes on different machines. -/
def twoHosts (r : Role) : Host where
  hostId := match r with | .server => [97, 32] | .client => [98, 32]
  commId := match r with | .server => 3 | .client => 5
  useShm := true
  address _ := match r with | .server => [1, 2] | .client => [3]
  localHeartbeat := match r with | .server => 4096 | .client => 8192
  heartbeatKey := match r with | .server => ⟨-1, 7⟩ | .client => ⟨-1, 9⟩
  hostId_pos := by cases r <;> decide
  hostId_lt := by cases r <;> decide
  address_pos _ := by cases r <;> decide
  address_lt _ := by cases r <;> decide

/-- Both functions to their end; the host identifier of the server comes in two parts. -/
def untilReady (ft : Bool) : List ExchangeAction :=
  [.transfer .server 8, .transfer .server 2, .transfer .client 8, .transfer .client 1,
    .transfer .client 1, .transfer .client 8, .transfer .client 2, .transfer .server 8,
    .transfer .server 2, .advance .server, .advance .client, .transfer .client 4,
    .transfer .server 4, .transfer .server 4, .transfer .client 4, .advance .client,
    .transfer .client 8, .transfer .client 1, .transfer .server 8, .transfer .server 1,
    .advance .server, .advance .server, .transfer .server 8, .transfer .server 2,
    .transfer .client 8, .transfer .client 2, .advance .client, .advance .client,
    .advance .server] ++
  (if ft then
    [.transfer .server 8, .transfer .server 16, .transfer .client 8, .transfer .client 16,
      .transfer .client 8, .transfer .client 16, .transfer .server 8, .transfer .server 16]
  else []) ++
  [.advance .server, .advance .client, .advance .client, .advance .server, .advance .server,
    .advance .client]

/-- `inStep_of_run` for two machines. -/
theorem inStep_twoHosts :
    ((exec (exchangeStep twoHosts) (Exchange.start true) (untilReady true)).get
      (by decide +kernel)).InStep twoHosts true :=
  inStep_of_run twoHosts rfl true ⟨_, untilReady true, rfl, (Option.some_get _).symm⟩

/-- **Without `LFI_FAULT_TOLERANCE` no heartbeat is exchanged.**  Both functions succeed and
neither side holds the other's heartbeat. -/
theorem no_heartbeat :
    ¬ ∀ (host : Role → Host) (ft : Bool) (s : Exchange),
      (host .server).useShm = (host .client).useShm →
      Reachable (exchangeStep host) (· = Exchange.start ft) s →
      s.Succeeded .server → s.Succeeded .client →
      ∀ r, (s.side r).ftRemoteHeartbeatAddr = (host r.other).localHeartbeat ∧
        (s.side r).ftRemoteHeartbeatKey = (host r.other).heartbeatKey := by
  intro h
  have hrun := h twoHosts false
    ((exec (exchangeStep twoHosts) (Exchange.start false) (untilReady false)).get
      (by decide +kernel)) rfl ⟨_, untilReady false, rfl, (Option.some_get _).symm⟩
    ⟨by decide +kernel, by decide +kernel⟩ ⟨by decide +kernel, by decide +kernel⟩ .server
  exact absurd hrun.1 (by decide +kernel)

end Connection
end Lfi
