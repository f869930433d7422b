/-
# The list of monitored communicators

`ft_comms` of an endpoint is the list of the communicators fault tolerance looks
at.  `register_request` puts a communicator in, `process_comm` takes it out when it
has no requests, `cancel_comm` and with it `close_comm` always take it out.
`DoubleLinkedList::erase` does not look at `inserted`, and the last three do not
either: on a communicator that is not in the list they empty it.

`Monitored` says what the list should be.  `monitored_iff` says which runs keep it
so: those in which `process_comm` meets no communicator without requests, and
`cancel_comm` takes none out at all, that is not in the list.  This goes for the calls
of a pass inside a `close_comm` too (`Lfi.Impl.Nested`), which may take the communicator
out before the `close_comm` does.
-/

import Lfi.Impl.Nested

namespace Lfi
namespace Impl

open Runs Checked

/-- The calls that touch `ft_comms`: a post of a completed request, a completion,
and the three functions of the pass and of the user.  The last two make a progress step
for each request that they cancel. -/
inductive MonitorAction where
  | post (k : ℕ) (call : PostCall)
  | complete (r : ReqId) (err now : ℤ)
  | processComm (c : CommId) (now beat : ℤ)
  | cancelComm (c : CommId) (nested : ReqId → Nested)
  | closeComm (c : CommId) (nested : ReqId → Nested)

/-- One call. -/
def monitorStep (env : Env) (s : State) : MonitorAction → Option State
  | .post k call =>
      if s.core.onComm (.user k) = none then some (asyncPost env s (.user k) call).2 else none
  | .complete r err now => some (complete env s r err now)
  | .processComm c now beat =>
      if c ∈ s.ft.commIds ∧ isAnyComm c = false then
        some (processComm env now (fun _ => beat) s c)
      else none
  | .cancelComm c nested =>
      if c ∈ s.ft.commIds then
        some ((cancelCommC env (fun r => nestedC env (nested r)) c).run s)
      else none
  | .closeComm c nested => some ((closeCommC env (fun r => nestedC env (nested r)) c).run s)

/-- **The monitored communicators.**  `ft_comms` is a well-formed list, its members
are the communicators that are `inserted`, and every communicator with outstanding
requests is among them, unless it is an any-comm or cancelled. -/
def Monitored (s : State) : Prop :=
  ∃ xs, Rep s.ft.commNodes s.ft.ftComms xs ∧
    (∀ c, c ∈ xs ↔ c ∈ s.ft.commIds ∧ (s.ft.commNodes c).inserted = true) ∧
    ∀ c ∈ s.ft.commIds, isAnyComm c = false → (s.ft.comm c).ftRequests.size ≠ 0 →
      (s.ft.comm c).isCanceled = false → c ∈ xs

/-- Nothing is erased that is not in the list, neither by the call nor inside of it. -/
def ErasesMembers (env : Env) (s : State) : MonitorAction → Prop
  | .processComm c now beat => (processCommC env now (fun _ => beat) c).ok s
  | .cancelComm c nested => (cancelCommC env (fun r => nestedC env (nested r)) c).ok s
  | .closeComm c nested => (closeCommC env (fun r => nestedC env (nested r)) c).ok s
  | _ => True

/-! ### The invariant behind -/

/-- What the calls keep as long as the list is well formed: requests and lists
agree, heartbeats are on their own communicators, and the links of a communicator
that is not inserted are null. -/
structure MonitorInv (s : State) : Prop where
  tracked : Tracked s
  heartbeatIds : HeartbeatIds s.core
  free : ∀ c, (s.ft.commNodes c).inserted = false → s.ft.commNodes c = Node.free

variable {env : Env} {s t : State} {c : CommId}

/-- `Monitored`, with the members named and busyness read off the requests. -/
structure Watched (s : State) (xs : List CommId) : Prop where
  rep : Rep s.ft.commNodes s.ft.ftComms xs
  mem : ∀ c, c ∈ xs ↔ c ∈ s.ft.commIds ∧ (s.ft.commNodes c).inserted = true
  busy : ∀ c r, s.core.onComm r = some c → isAnyComm c = false →
    (s.ft.comm c).isCanceled = false → c ∈ xs

/-- A communicator has requests if and only if one of them is outstanding on it. -/
theorem Tracked.size_ne_zero (h : Tracked s) (hc : c ∈ s.ft.commIds) :
    (s.ft.comm c).ftRequests.size ≠ 0 ↔ ∃ r, s.core.onComm r = some c := by
  rw [Ne, Tracks.size_eq_zero h hc, not_forall]
  exact exists_congr fun r => not_not

/-- Both ways to say what is monitored. -/
theorem monitored_iff_watched (h : Tracked s) : Monitored s ↔ ∃ xs, Watched s xs := by
  constructor
  · rintro ⟨xs, hrep, hmem, hbusy⟩
    refine ⟨xs, hrep, hmem, fun c r hr hany hcan => ?_⟩
    have hc := Tracks.there h r c hr
    exact hbusy c hc hany ((h.size_ne_zero hc).2 ⟨r, hr⟩) hcan
  · rintro ⟨xs, hw⟩
    refine ⟨xs, hw.rep, hw.mem, fun c hc hany hsize hcan => ?_⟩
    obtain ⟨r, hr⟩ := (h.size_ne_zero hc).1 hsize
    exact hw.busy c r hr hany hcan

/-- A step that completes requests, and keeps the list and the marks, keeps the
list what it should be. -/
theorem Watched.congr {xs : List CommId} (hw : Watched s xs)
    (hnodes : t.ft.commNodes = s.ft.commNodes) (hlist : t.ft.ftComms = s.ft.ftComms)
    (hids : t.ft.commIds = s.ft.commIds)
    (hcan : ∀ c, (t.ft.comm c).isCanceled = false → (s.ft.comm c).isCanceled = false)
    (hon : ∀ r c, t.core.onComm r = some c → s.core.onComm r = some c) : Watched t xs := by
  refine ⟨by rw [hnodes, hlist]; exact hw.rep, fun c => by rw [hids, hnodes]; exact hw.mem c,
    fun c r hr hany hc => hw.busy c r (hon r c hr) hany (hcan c hc)⟩

/-- A progress step has nothing to do with the list. -/
theorem Watched.progress {xs : List CommId} (hw : Watched s xs) (h : Progressed s t) :
    Watched t xs :=
  hw.congr h.commNodes h.ftComms h.commIds (fun c hc => (h.isCanceled c).symm.trans hc)
    fun _ _ hr => h.onComm_some hr

theorem MonitorInv.progress (hs : MonitorInv s) (h : Progressed s t) (ht : Tracked t) :
    MonitorInv t :=
  ⟨ht, hs.heartbeatIds.progress h, fun c hc => by
    rw [h.commNodes] at hc ⊢; exact hs.free c hc⟩

/-- A communicator without requests, or cancelled, can be taken out of the list. -/
theorem Watched.eraseComm {xs : List CommId} (hw : Watched s xs)
    (hc : c ∈ xs) (hidle : ∀ r, s.core.onComm r ≠ some c) {t : State} (hcore : t.core = s.core)
    (hft : t.ft = Impl.eraseComm s.ft c) : Watched t (xs.erase c) := by
  have hnode : ∀ d, d ≠ c → ((Impl.eraseComm s.ft c).commNodes d).inserted =
      (s.ft.commNodes d).inserted := by
    intro d hd
    obtain ⟨l₁, l₂, rfl⟩ := List.append_of_mem hc
    rw [Impl.eraseComm]
    simp only
    rw [(erase_member hw.rep).1 d hd]
    split
    case isTrue => rfl
    case isFalse => split <;> rfl
  have hself : ((Impl.eraseComm s.ft c).commNodes c).inserted = false :=
    congrArg Node.inserted (erase_self (h := s.ft.commNodes) (l := s.ft.ftComms) (x := c))
  refine ⟨by rw [hft]; exact hw.rep.erase hc, fun d => ?_, fun d r hr hany hcan => ?_⟩
  · rw [hft]
    by_cases hd : d = c
    · subst hd
      rw [hself]
      exact iff_of_false hw.rep.nodup.not_mem_erase (by simp)
    · rw [List.mem_erase_of_ne hd, hnode d hd]
      exact hw.mem d
  · rw [hcore] at hr
    have hd : d ≠ c := by rintro rfl; exact hidle r hr
    rw [hft] at hcan
    exact (List.mem_erase_of_ne hd).2 (hw.busy d r hr hany hcan)

theorem MonitorInv.eraseComm {xs : List CommId} (hs : MonitorInv s) (hw : Watched s xs)
    (hc : c ∈ xs) {t : State} (hcore : t.core = s.core) (hft : t.ft = Impl.eraseComm s.ft c) :
    MonitorInv t := by
  refine ⟨?_, by rw [hcore]; exact hs.heartbeatIds, fun d hd => ?_⟩
  · unfold Tracked
    rw [hcore, hft]
    exact Tracks.congr hs.tracked rfl rfl fun _ => rfl
  · rw [hft] at hd ⊢
    simp only [Impl.eraseComm] at hd ⊢
    by_cases hdc : d = c
    · subst hdc; exact erase_self
    · by_cases hdx : d ∈ xs
      · -- a member stays inserted
        exfalso
        obtain ⟨l₁, l₂, rfl⟩ := List.append_of_mem hc
        have hins := ((hw.mem d).1 hdx).2
        rw [(erase_member hw.rep).1 d hdc] at hd
        split at hd
        case isTrue => rw [hins] at hd; cases hd
        case isFalse => split at hd <;> (rw [hins] at hd; cases hd)
      · rw [erase_frame hw.rep hc hdx] at hd ⊢
        exact hs.free d hd

/-- A post keeps the list what it should be. -/
theorem Watched.register {xs : List CommId} (hs : MonitorInv s) (hw : Watched s xs)
    (hc : c ∈ s.ft.commIds) {r : ReqId}
    (hon : t.core.onComm = Function.update s.core.onComm r (some c))
    (hft : t.ft.fixed = (registerRequest s.ft r c).fixed) :
    (∃ ys, Watched t ys) ∧
      ∀ d, (t.ft.commNodes d).inserted = false → t.ft.commNodes d = Node.free := by
  rw [registerRequest_fixed] at hft
  have hcomm : ∀ d, (t.ft.comm d).isCanceled = (s.ft.comm d).isCanceled := fun d =>
    show (t.ft.fixed.comm d).isCanceled = (s.ft.fixed.comm d).isCanceled by
      rw [hft]; split <;> rfl
  have hids : t.ft.commIds = s.ft.commIds :=
    show t.ft.fixed.commIds = s.ft.fixed.commIds by rw [hft]; split <;> rfl
  have hbusy : ∀ ys : List CommId, (∀ d ∈ xs, d ∈ ys) → (isAnyComm c = false → c ∈ ys) →
      ∀ d r', t.core.onComm r' = some d → isAnyComm d = false →
        (t.ft.comm d).isCanceled = false → d ∈ ys := by
    intro ys hsub hcy d r' hr' hany hcan
    rw [hon] at hr'
    by_cases h : r' = r
    · subst h
      rw [Function.update_self] at hr'
      obtain rfl := Option.some.inj hr'
      exact hcy hany
    · rw [Function.update_of_ne h] at hr'
      exact hsub d (hw.busy d r' hr' hany ((hcomm d).symm.trans hcan))
  by_cases hin : isAnyComm c = true ∨ (s.ft.commNodes c).inserted = true
  · rw [if_pos hin] at hft
    have hnodes : t.ft.commNodes = s.ft.commNodes :=
      show t.ft.fixed.commNodes = s.ft.fixed.commNodes by rw [hft]
    have hlist : t.ft.ftComms = s.ft.ftComms :=
      show t.ft.fixed.ftComms = s.ft.fixed.ftComms by rw [hft]
    refine ⟨⟨xs, by rw [hnodes, hlist]; exact hw.rep,
      fun d => by rw [hids, hnodes]; exact hw.mem d, hbusy xs (fun _ h => h) fun hany => ?_⟩,
      fun d hd => ?_⟩
    · rcases hin with h | h
      · rw [hany] at h; cases h
      · exact (hw.mem c).2 ⟨hc, h⟩
    · rw [hnodes] at hd ⊢; exact hs.free d hd
  · rw [if_neg hin] at hft
    have hfree := hs.free c (by simpa using fun h => hin (.inr h))
    have hnodes : t.ft.commNodes = (pushBack s.ft.commNodes s.ft.ftComms c).1 :=
      show t.ft.fixed.commNodes = _ by rw [hft]; rfl
    have hlist : t.ft.ftComms = (pushBack s.ft.commNodes s.ft.ftComms c).2 :=
      show t.ft.fixed.ftComms = _ by rw [hft]; rfl
    have hrep := hw.rep.pushBack hfree
    refine ⟨⟨xs ++ [c], by rw [hnodes, hlist]; exact hrep, fun d => ?_,
      hbusy _ (fun d hd => List.mem_append_left _ hd) fun _ => by simp⟩, fun d hd => ?_⟩
    · rw [hids, hnodes]
      by_cases hdx : d ∈ xs ++ [c]
      · refine iff_of_true hdx ⟨?_, hrep.seg.inserted hdx⟩
        rcases List.mem_append.1 hdx with h | h
        · exact ((hw.mem d).1 h).1
        · rwa [List.mem_singleton.1 h]
      · simp only [List.mem_append, List.mem_singleton, not_or] at hdx
        rw [pushBack_frame hw.rep hdx.2 hdx.1, ← hw.mem d]
        simp [hdx]
    · rw [hnodes] at hd ⊢
      by_cases hdx : d ∈ xs ++ [c]
      · rw [hrep.seg.inserted hdx] at hd; cases hd
      · simp only [List.mem_append, List.mem_singleton, not_or] at hdx
        rw [pushBack_frame hw.rep hdx.2 hdx.1] at hd ⊢
        exact hs.free d hd

/-- What does not touch lists, links and marks keeps the invariant. -/
theorem MonitorInv.congr (hs : MonitorInv s) (hon : t.core.onComm = s.core.onComm)
    (hids : HeartbeatIds t.core) (hcomms : t.ft.commIds = s.ft.commIds)
    (hreq : t.ft.reqNodes = s.ft.reqNodes)
    (hlists : ∀ c, (t.ft.comm c).ftRequests = (s.ft.comm c).ftRequests)
    (hnodes : t.ft.commNodes = s.ft.commNodes) : MonitorInv t := by
  refine ⟨?_, hids, fun c hc => by rw [hnodes] at hc ⊢; exact hs.free c hc⟩
  unfold Tracked
  rw [hon]
  exact Tracks.congr hs.tracked hcomms hreq hlists

/-- Replacing a communicator by one with the same requests and the same mark. -/
theorem Watched.setComm {xs : List CommId} (hs : MonitorInv s) (hw : Watched s xs) {core : Core}
    (hon : core.onComm = s.core.onComm) (hids : HeartbeatIds core) {x : LfiComm}
    (hx : x.ftRequests = (s.ft.comm c).ftRequests)
    (hcan : x.isCanceled = (s.ft.comm c).isCanceled) {f : Ft}
    (hft : f = { s.ft.setComm c x with ftCanceledComs := f.ftCanceledComs }) :
    MonitorInv ⟨core, f⟩ ∧ Watched ⟨core, f⟩ xs := by
  have hcomm : ∀ d, f.comm d = if d = c then x else s.ft.comm d := fun d => by
    rw [hft]; exact Ft.setComm_comm ..
  constructor
  · refine hs.congr hon hids (by rw [hft]; rfl) (by rw [hft]; rfl) (fun d => ?_) (by rw [hft]; rfl)
    rw [hft]
    exact Ft.setComm_same (·.ftRequests) hx d
  · refine hw.congr (by rw [hft]; rfl) (by rw [hft]; rfl) (by rw [hft]; rfl) (fun d hd => ?_)
      fun r d hr => by rw [← hon]; exact hr
    dsimp only at hd
    rw [hcomm] at hd
    split at hd
    case isTrue hdc => rw [hdc, ← hcan]; exact hd
    case isFalse => exact hd

/-! ### The list that lost a member -/

section Short

variable {ids : Finset CommId}

/-- The communicators that say they are in the list. -/
def insertedIn (ids : Finset CommId) (s : Ft) : Finset CommId :=
  ids.filter fun c => (s.commNodes c).inserted = true

theorem mem_insertedIn {s : Ft} :
    c ∈ insertedIn ids s ↔ c ∈ ids ∧ (s.commNodes c).inserted = true :=
  Finset.mem_filter

/-- The list is what it should be. -/
structure Intact (ids : Finset CommId) (s : State) : Prop where
  inv : MonitorInv s
  watched : ∃ xs, Watched s xs
  commIds : s.ft.commIds = ids

/-- More communicators say they are in the list than it counts. -/
structure Short (ids : Finset CommId) (s : State) : Prop where
  heartbeatIds : HeartbeatIds s.core
  commIds : s.ft.commIds = ids
  lt : s.ft.ftComms.size < ((insertedIn ids s.ft).card : ℤ)

/-- The size of the list counts the communicators in it. -/
theorem size_eq_card {xs : List CommId} (hrep : Rep s.ft.commNodes s.ft.ftComms xs)
    (hmem : ∀ c, c ∈ xs ↔ c ∈ s.ft.commIds ∧ (s.ft.commNodes c).inserted = true) :
    s.ft.ftComms.size = ((insertedIn s.ft.commIds s.ft).card : ℤ) := by
  have hset : insertedIn s.ft.commIds s.ft = xs.toFinset := by
    ext c
    rw [mem_insertedIn, List.mem_toFinset, hmem]
  rw [hrep.size_eq, hset, List.toFinset_card_of_nodup hrep.nodup]

/-- Such a list is not what it should be, and never will be again. -/
theorem Short.not_monitored (h : Short ids s) : ¬ Monitored s := by
  rintro ⟨xs, hrep, hmem, -⟩
  have hsize := size_eq_card hrep hmem
  rw [h.commIds] at hsize
  exact absurd h.lt (by omega)

/-- An erased communicator is not in the list. -/
theorem insertedIn_eraseComm (s : Ft) (c : CommId) :
    insertedIn ids (eraseComm s c) = (insertedIn ids s).erase c := by
  ext d
  rw [Finset.mem_erase, mem_insertedIn, mem_insertedIn, eraseComm, erase_inserted]
  exact and_left_comm

/-- What is erased was not in the list, or the list was short before. -/
theorem short_eraseComm (hids : HeartbeatIds s.core) (hcomms : s.ft.commIds = ids)
    (h : s.ft.ftComms.size < ((insertedIn ids s.ft).card : ℤ) ∨
      s.ft.ftComms.size = ((insertedIn ids s.ft).card : ℤ) ∧ c ∉ insertedIn ids s.ft) :
    Short ids ⟨s.core, eraseComm s.ft c⟩ := by
  refine ⟨hids, hcomms, ?_⟩
  have hsize : (eraseComm s.ft c).ftComms.size = s.ft.ftComms.size - 1 := rfl
  rw [insertedIn_eraseComm, hsize]
  rcases h with h | ⟨h, hc⟩
  · have hcard := Finset.pred_card_le_card_erase (s := insertedIn ids s.ft) (a := c)
    omega
  · rw [Finset.erase_eq_of_notMem hc]
    omega

theorem Short.congr (h : Short ids s) (hids : HeartbeatIds t.core)
    (hcomms : t.ft.commIds = s.ft.commIds) (hnodes : t.ft.commNodes = s.ft.commNodes)
    (hlist : t.ft.ftComms = s.ft.ftComms) : Short ids t := by
  refine ⟨hids, hcomms.trans h.commIds, ?_⟩
  rw [hlist, insertedIn, hnodes]
  exact h.lt

/-- A size that is short stays short. -/
theorem short_harmless : Harmless env (Short ids) :=
  .of_progressed
    (fun _ _ hprog h => h.congr (h.heartbeatIds.progress hprog) hprog.commIds hprog.commNodes
      hprog.ftComms)
    (fun _ _ h => h.congr h.heartbeatIds rfl rfl rfl)
    (fun _ r c h => h.congr (h.heartbeatIds.reportTo r c) rfl rfl rfl)
    (fun _ _ _ _ _ _ _ h => h.congr h.heartbeatIds rfl rfl rfl)

/-- Who is registered is counted, and says so. -/
theorem Short.register (h : Short ids s) (hids : HeartbeatIds t.core) (hc : c ∈ ids) {r : ReqId}
    (hft : t.ft.fixed = (registerRequest s.ft r c).fixed) : Short ids t := by
  rw [registerRequest_fixed] at hft
  have hcomms : t.ft.fixed.commIds = s.ft.fixed.commIds := by
    rw [hft]
    split <;> rfl
  by_cases hin : isAnyComm c = true ∨ (s.ft.commNodes c).inserted = true
  · rw [if_pos hin] at hft
    have hnodes : t.ft.fixed.commNodes = s.ft.fixed.commNodes := congrArg Ft.commNodes hft
    have hlist : t.ft.fixed.ftComms = s.ft.fixed.ftComms := congrArg Ft.ftComms hft
    exact h.congr hids hcomms hnodes hlist
  · rw [if_neg hin] at hft
    have hnodes : t.ft.commNodes = (pushBack s.ft.commNodes s.ft.ftComms c).1 :=
      congrArg Ft.commNodes hft
    have hlist : t.ft.ftComms = (pushBack s.ft.commNodes s.ft.ftComms c).2 :=
      congrArg Ft.ftComms hft
    have hset : insertedIn ids t.ft = insert c (insertedIn ids s.ft) := by
      ext d
      rw [Finset.mem_insert, mem_insertedIn, mem_insertedIn, hnodes, pushBack_inserted]
      constructor
      · rintro ⟨hd, rfl | hins⟩
        · exact .inl rfl
        · exact .inr ⟨hd, hins⟩
      · rintro (rfl | ⟨hd, hins⟩)
        · exact ⟨hc, .inl rfl⟩
        · exact ⟨hd, .inr hins⟩
    have hnot : c ∉ insertedIn ids s.ft := fun hmem => hin (.inr (mem_insertedIn.1 hmem).2)
    have hsize : t.ft.ftComms.size = s.ft.ftComms.size + 1 := by
      rw [hlist, pushBack]
      cases s.ft.ftComms.tail <;> rfl
    have hlt := h.lt
    refine ⟨hids, hcomms.trans h.commIds, ?_⟩
    rw [hset, Finset.card_insert_of_notMem hnot, hsize]
    push_cast
    omega

/-- It stays short. -/
theorem Short.processComm (h : Short ids s) (now : ℤ) (beat : CommId → ℤ) (c : CommId) :
    Short ids (processComm env now beat s c) := by
  rcases processComm_cases env now beat s c with ⟨-, heq⟩ | ⟨-, -, -, heq⟩ | ⟨-, -, -, heq⟩ |
    ⟨-, -, -, -, heq⟩ | ⟨-, -, -, heq⟩ <;> rw [heq]
  · exact short_eraseComm h.heartbeatIds h.commIds (.inl h.lt)
  · rcases @startHeartbeat_cases env _ h.heartbeatIds c (beat c) with ⟨-, h'⟩ |
      ⟨core, hfree, hon, hids, -, -, ⟨-, h'⟩ | ⟨q, f, o, hc, -, -, -, h'⟩⟩ <;> rw [h']
    · exact h
    · exact h.congr hids rfl rfl rfl
    · have hpost : HeartbeatIds (postCore core (.heartbeat c) f o true) :=
        hids.postCore (hon ▸ hfree) f o true
      have hclear : Short ids ⟨s.core, clearValue s.ft c⟩ :=
        h.congr h.heartbeatIds rfl rfl rfl
      split
      case isTrue =>
        have hreg : Short ids ⟨postCore core (.heartbeat c) f o true,
            registerRequest (clearValue s.ft c) (.heartbeat c) c⟩ :=
          hclear.register hpost (h.commIds ▸ hc) rfl
        exact hreg.congr hpost rfl rfl rfl
      case isFalse => exact hclear.congr hpost rfl rfl rfl
  · exact h.congr h.heartbeatIds rfl rfl rfl
  · exact h.congr h.heartbeatIds rfl rfl rfl
  · exact h

theorem processCommsC_short (input : PassInput) : Keeps (Short ids) (processCommsC env input) := by
  intro s hs
  rw [processCommsC_run, processComms]
  split
  case isTrue => exact List.foldlRecOn _ _ hs fun s h c _ => h.processComm _ _ c
  case isFalse => exact walkFtComms_induction (fun s c h => h.processComm _ _ c) _ _ hs

end Short

/-! ### Posts and passes -/

section Intact

variable {ids : Finset CommId}

/-- Posting the request `r`, which is on `c`. -/
theorem Watched.post {xs : List CommId} (hs : MonitorInv s) (hw : Watched s xs)
    (hft : env.faultTolerance = true) {r : ReqId} {q : LfiRequest}
    (hr : s.core.requests r = some q) (hc : q.commId ∈ s.ft.commIds)
    (hon : s.core.onComm r = none) (f : RequestFields) (o : OpFields) (priority : Bool) :
    MonitorInv (Impl.post env s r q.commId f o priority) ∧
      ∃ ys, Watched (Impl.post env s r q.commId f o priority) ys := by
  obtain ⟨hys, hfree⟩ := Watched.register (t := Impl.post env s r q.commId f o priority) hs hw hc
    (postCore_onComm hr hon f o priority) (by simp [Impl.post, hft])
  exact ⟨⟨hs.tracked.post hft hr hc hon f o priority, hs.heartbeatIds.postCore hon f o priority,
    hfree⟩, hys⟩

/-- What completes requests keeps the list as it is. -/
theorem Intact.progressed (h : Intact ids s) (hprog : Progressed s t) (ht : Tracked t) :
    Intact ids t :=
  have ⟨xs, hw⟩ := h.watched
  ⟨h.inv.progress hprog ht, ⟨xs, hw.progress hprog⟩, hprog.commIds.trans h.commIds⟩

theorem intact_harmless (hft : env.faultTolerance = true) : Harmless env (Intact ids) where
  core s core hsame h :=
    h.progressed (progressed_core hsame) (h.inv.tracked.core (Core.onComm_eq hsame))
  event s e h := h.progressed (fabricEvent_progressed e) (h.inv.tracked.fabricEvent hft e)
  complete s r err now h :=
    h.progressed (complete_progressed r err now) (h.inv.tracked.complete hft r err now)
  clear s r hr h := h.progressed (clear_progressed hr) (h.inv.tracked.core (clear_onComm hr))
  mark s c h := by
    obtain ⟨xs, hw⟩ := h.watched
    refine ⟨h.inv.congr rfl h.inv.heartbeatIds rfl rfl (Ft.setComm_same (·.ftRequests) rfl) rfl,
      ⟨xs, hw.congr rfl rfl rfl (fun d hd => ?_) fun _ _ hr => hr⟩, h.commIds⟩
    rw [markCanceled, Ft.setComm_comm] at hd
    split at hd
    case isTrue => cases hd
    case isFalse => exact hd
  report s r c h := by
    obtain ⟨xs, hw⟩ := h.watched
    have hon := reportTo_onComm s r c
    exact ⟨h.inv.congr hon (h.inv.heartbeatIds.reportTo r c) rfl rfl (fun _ => rfl) rfl,
      ⟨xs, hw.congr rfl rfl rfl (fun _ hd => hd) fun r' d hr => hon ▸ hr⟩, h.commIds⟩
  note s _ _ _ _ _ _ h :=
    have ⟨xs, hw⟩ := h.watched
    ⟨h.inv.congr rfl h.inv.heartbeatIds rfl rfl (fun _ => rfl) rfl,
      ⟨xs, hw.congr rfl rfl rfl (fun _ hd => hd) fun _ _ hr => hr⟩, h.commIds⟩

/-- A communicator that is not in the list is erased. -/
theorem Intact.short (h : Intact ids s) (hins : ¬ (s.ft.commNodes c).inserted = true) :
    Short ids ⟨s.core, eraseComm s.ft c⟩ := by
  obtain ⟨xs, hw⟩ := h.watched
  refine short_eraseComm h.inv.heartbeatIds h.commIds (.inr ⟨?_, fun hmem => ?_⟩)
  · rw [← h.commIds]
    exact size_eq_card hw.rep hw.mem
  · exact hins (mem_insertedIn.1 hmem).2

/-- A member is, on which nothing is outstanding. -/
theorem Intact.erase (h : Intact ids s) (hc : c ∈ ids) (hins : (s.ft.commNodes c).inserted = true)
    (hidle : ∀ r, s.core.onComm r ≠ some c) : Intact ids ⟨s.core, eraseComm s.ft c⟩ := by
  obtain ⟨xs, hw⟩ := h.watched
  have hmem : c ∈ xs := (hw.mem c).2 ⟨h.commIds ▸ hc, hins⟩
  exact ⟨h.inv.eraseComm hw hmem rfl rfl, ⟨_, hw.eraseComm hmem hidle rfl rfl⟩, h.commIds⟩

theorem Intact.setComm (h : Intact ids s) {x : LfiComm} {f : Ft}
    (hx : x.ftRequests = (s.ft.comm c).ftRequests)
    (hcan : x.isCanceled = (s.ft.comm c).isCanceled)
    (hft : f = { s.ft.setComm c x with ftCanceledComs := f.ftCanceledComs }) :
    Intact ids ⟨s.core, f⟩ := by
  obtain ⟨xs, hw⟩ := h.watched
  obtain ⟨hinv, hw'⟩ := hw.setComm h.inv rfl h.inv.heartbeatIds hx hcan hft
  exact ⟨hinv, ⟨xs, hw'⟩, by rw [hft]; exact h.commIds⟩

/-- The heartbeat of `c` is posted, or refused. -/
theorem Intact.startHeartbeat (h : Intact ids s) (hft : env.faultTolerance = true) (c : CommId)
    (beat : ℤ) : Intact ids (startHeartbeat env s c beat) := by
  rcases @startHeartbeat_cases env _ h.inv.heartbeatIds c beat with ⟨-, h'⟩ |
    ⟨core, hfree, hon, hids, -, -, ⟨-, h'⟩ | ⟨q, f, o, hc, -, hq, hqc, h'⟩⟩ <;> rw [h']
  · exact h
  all_goals
    have hcore : Intact ids ⟨core, s.ft⟩ := by
      obtain ⟨xs, hw⟩ := h.watched
      exact ⟨h.inv.congr hon hids rfl rfl (fun _ => rfl) rfl,
        ⟨xs, hw.congr rfl rfl rfl (fun _ hd => hd) fun r d hr => hon ▸ hr⟩, h.commIds⟩
    have hclear : Intact ids ⟨core, clearValue s.ft c⟩ :=
      hcore.setComm (x := { s.ft.comm c with ftValueHeartbeat := 0 }) rfl rfl rfl
  · exact hclear.setComm (x := { (clearValue s.ft c).comm c with ftCurrentStatus := .error })
      rfl rfl rfl
  · obtain ⟨xs, hw⟩ := hclear.watched
    obtain ⟨hinv, hys⟩ := hw.post hclear.inv hft hq (hqc ▸ hc) (hon ▸ hfree) f o true
    have hpost : Intact ids (Impl.post env ⟨core, clearValue s.ft c⟩ (.heartbeat c) q.commId f o
        true) := by
      refine ⟨hinv, hys, ?_⟩
      have hfixed : (Impl.post env ⟨core, clearValue s.ft c⟩ (.heartbeat c) q.commId f o
          true).ft.fixed.commIds = (clearValue s.ft c).fixed.commIds := by
        simp only [Impl.post, hft, if_true]
        rw [registerRequest_fixed]
        split <;> rfl
      exact hfixed.trans hclear.commIds
    rw [hqc] at hpost
    rw [if_pos hft]
    simp only [Impl.post, hft, if_true] at hpost
    exact hpost.setComm (x := { (registerRequest (clearValue s.ft c) (.heartbeat c) c).comm c with
      ftCurrentStatus := .heartbeat, ftHeartbeatTimePoint := beat }) rfl rfl rfl

/-- **`process_comm`** takes out a member, or leaves the list short. -/
theorem processCommC_decides (hft : env.faultTolerance = true) (hc : c ∈ ids) (now : ℤ)
    (beat : CommId → ℤ) : Decides (Intact ids) (Short ids) (processCommC env now beat c) := by
  refine fun s => .of_or (fun h => ?_) fun h => h.processComm now beat c
  simp only [processCommC]
  rcases processComm_cases env now beat s c with ⟨hsize, heq⟩ | ⟨hsize, -, -, heq⟩ |
    ⟨hsize, -, -, heq⟩ | ⟨hsize, -, -, -, heq⟩ | ⟨hsize, -, -, heq⟩ <;> rw [heq]
  · by_cases hins : (s.ft.commNodes c).inserted = true
    · exact .inl ⟨fun _ => hins,
        h.erase hc hins ((Tracks.size_eq_zero h.inv.tracked (h.commIds ▸ hc)).1 hsize)⟩
    · exact .inr ⟨fun hok => hins (hok hsize), h.short hins⟩
  · exact .inl ⟨fun h => absurd h hsize, h.startHeartbeat hft c (beat c)⟩
  · exact .inl ⟨fun h => absurd h hsize,
      h.setComm (x := { s.ft.comm c with ftCurrentStatus := .idle }) rfl rfl rfl⟩
  · exact .inl ⟨fun h => absurd h hsize,
      h.setComm (x := { s.ft.comm c with ftCurrentStatus := .error }) rfl rfl rfl⟩
  · exact .inl ⟨fun h => absurd h hsize, h⟩

/-- Behind a member, or a communicator that was taken out, there is a member. -/
theorem Intact.next (h : Intact ids s) (hc : c ∈ ids) {d : CommId}
    (hd : (s.ft.commNodes c).next = some d) : d ∈ ids := by
  obtain ⟨xs, hw⟩ := h.watched
  by_cases hins : (s.ft.commNodes c).inserted = true
  · obtain ⟨l₁, l₂, rfl⟩ := List.append_of_mem ((hw.mem c).2 ⟨h.commIds ▸ hc, hins⟩)
    rw [hw.rep.neighbours.1] at hd
    have hmem : d ∈ l₂ := List.mem_of_mem_head? hd
    rw [← h.commIds]
    exact ((hw.mem d).1 (by simp [hmem])).1
  · rw [h.inv.free c (by simpa using hins)] at hd
    cases hd

/-- The walk meets its checks, or leaves the size short. -/
theorem walkFtCommsC_decides (hft : env.faultTolerance = true) (now : ℤ) (beat : CommId → ℤ)
    {fuel : ℕ} {x : Option CommId} (hx : ∀ c, x = some c → c ∈ ids) (h : Intact ids s) :
    (walkFtCommsC env now beat fuel x).ok s ∧
        Intact ids ((walkFtCommsC env now beat fuel x).run s) ∨
      ¬ (walkFtCommsC env now beat fuel x).ok s ∧
        Short ids ((walkFtCommsC env now beat fuel x).run s) := by
  induction fuel generalizing x s with
  | zero => exact .inl ⟨trivial, h⟩
  | succ fuel ih =>
      cases x with
      | none => exact .inl ⟨trivial, h⟩
      | some c =>
          have hc := hx c rfl
          have hone := processCommC_decides hft hc now beat s
          simp only [walkFtCommsC, seq_ok, seq_run, look_ok, look_run]
          by_cases hok : (processCommC env now beat c).ok s
          · have hkept := hone.good h hok
            rcases ih (fun d hd => hkept.next hc hd) hkept with ⟨hrest, hend⟩ | ⟨hrest, hend⟩
            · exact .inl ⟨⟨hok, hrest⟩, hend⟩
            · exact .inr ⟨fun h => hrest h.2, hend⟩
          · refine .inr ⟨fun h => hok h.1, ?_⟩
            rw [walkFtCommsC_run]
            exact walkFtComms_induction (fun s c h => h.processComm _ _ c) _ _ (hone.bad h hok)

/-- So does the pass. -/
theorem processCommsC_decides (hft : env.faultTolerance = true) (input : PassInput) :
    Decides (Intact ids) (Short ids) (processCommsC env input) := by
  refine fun s => .of_or (fun h => ?_) (processCommsC_short input s)
  simp only [processCommsC, look_ok, look_run]
  split
  case isTrue =>
    have hall : Decides (Intact ids) (Short ids) (each (processCommC env input.now input.beat)
        (input.comms.filter fun c => c ∈ s.ft.commIds ∧ isAnyComm c = false)) := by
      refine Decides.each fun c hc => processCommC_decides hft ?_ input.now input.beat
      simp only [List.mem_filter, decide_eq_true_eq] at hc
      exact h.commIds ▸ hc.2.1
    exact (em _).imp (fun hok => ⟨hok, (hall s).good h hok⟩) fun hok => ⟨hok, (hall s).bad h hok⟩
  case isFalse =>
    refine walkFtCommsC_decides hft _ _ (fun c hc => ?_) h
    obtain ⟨xs, hw⟩ := h.watched
    rw [← h.commIds]
    exact ((hw.mem c).1 (List.mem_of_mem_head? (hw.rep.head_eq ▸ hc))).1

end Intact

/-! ### `cancel_comm` and `close_comm` -/

section Cancels

variable {ids : Finset CommId} {progress : ReqId → Checked State}

/-- The loop of `cancel_comm` leaves nothing outstanding: each round completes a request, and what
is cancelled gets no new one. -/
theorem cancelRequestsC_drains (hft : env.faultTolerance = true)
    (hp : ∀ r, Decides (Intact ids) (Short ids) (progress r))
    (hconf : ∀ r R, Keeps (Confined c R) (progress r)) (hc : c ∈ ids) {fuel : ℕ}
    (h : Intact ids s) (hcan : Confined c Set.univ s)
    (hfuel : (s.ft.comm c).ftRequests.size.toNat ≤ fuel)
    (hok : (cancelRequestsC env progress c fuel).ok s) :
    Confined c ∅ ((cancelRequestsC env progress c fuel).run s) := by
  induction fuel generalizing s with
  | zero =>
      obtain ⟨xs, hrep, -⟩ := h.inv.tracked.rep c (h.commIds ▸ hc)
      have hsize : (s.ft.comm c).ftRequests.size = 0 := by
        have := hrep.size_eq
        omega
      have hidle := (Tracks.size_eq_zero h.inv.tracked (h.commIds ▸ hc)).1 hsize
      exact ⟨hcan.heartbeatIds, hcan.canceled, fun r hr => absurd hr (hidle r)⟩
  | succ fuel ih =>
      obtain ⟨xs, hrep, hmem⟩ := h.inv.tracked.rep c (h.commIds ▸ hc)
      simp only [cancelRequestsC, look_ok, look_run] at hok ⊢
      cases hhead : (s.ft.comm c).ftRequests.head with
      | none =>
          have hnil : xs = [] := hrep.head_eq_none.1 hhead
          refine ⟨hcan.heartbeatIds, hcan.canceled, fun r hr => ?_⟩
          have hr' := (hmem r).2 hr
          rw [hnil] at hr'
          cases hr'
      | some x =>
          rw [hhead] at hok
          have hround := cancelC_decides (intact_harmless hft) short_harmless (hp x) x
          have hkeeps : ∀ R, Keeps (Confined c R) (cancelC env (progress x) x) := fun R =>
            (cancelC_decides confined_harmless confined_harmless (hconf x R).decides x).keeps
          have hkept := (hround s).good h hok.1
          refine ih hkept (hkeeps _ s hcan) ?_ hok.2
          -- the list after the round has old members only, and not `x`
          obtain ⟨ys, hys, hmem'⟩ := hkept.inv.tracked.rep c (hkept.commIds ▸ hc)
          have hx : x ∈ xs := List.mem_of_mem_head? (hrep.head_eq ▸ hhead)
          have hold := hkeeps { r | r ∈ xs } s ⟨hcan.heartbeatIds, hcan.canceled,
            fun r hr => (hmem r).2 hr⟩
          have hsub : ys ⊆ xs.erase x := fun y hy => by
            have hon := (hmem' y).1 hy
            have hne : y ≠ x := by
              rintro rfl
              rw [cancelC_onComm] at hon
              cases hon
            exact (List.mem_erase_of_ne hne).2 (hold.mem y hon)
          have hlen := (List.subperm_of_subset hys.nodup hsub).length_le
          rw [List.length_erase_of_mem hx] at hlen
          have hpos := List.length_pos_of_mem hx
          rw [hrep.size_eq] at hfuel
          rw [hys.size_eq]
          omega

/-- **`cancel_comm`** takes out its communicator, with nothing outstanding on it, if that is still
in the list then. -/
theorem cancelCommC_spec (hft : env.faultTolerance = true)
    (hp : ∀ r, Decides (Intact ids) (Short ids) (progress r))
    (hconf : ∀ r R, Keeps (Confined c R) (progress r)) (hc : c ∈ ids) (h : Intact ids s) :
    ((cancelCommC env progress c).ok s ∧ Intact ids ((cancelCommC env progress c).run s) ∧
        ∀ r, ((cancelCommC env progress c).run s).core.onComm r ≠ some c) ∨
      ¬ (cancelCommC env progress c).ok s ∧ Short ids ((cancelCommC env progress c).run s) := by
  have hK : Harmless env (Intact ids) := intact_harmless hft
  have hB : Harmless env (Short ids) := short_harmless
  simp only [cancelCommC, seq_ok, look_ok, seq_run, look_run, act_run, act_ok, true_and]
  have hmark : Intact ids (markCanceled s c) := hK.mark s c h
  have hcan : Confined c Set.univ (markCanceled s c) :=
    ⟨hmark.inv.heartbeatIds, by simp [markCanceled, Ft.setComm_comm], fun _ _ => trivial⟩
  have hdrains := cancelRequestsC_drains hft hp hconf hc hmark hcan le_rfl
  have hshort : ∀ {t}, Short ids t → Short ids ((eraseCommC c).run t) := fun ht =>
    short_eraseComm ht.heartbeatIds ht.commIds (.inl ht.lt)
  revert hdrains
  generalize hloop : cancelRequestsC env progress c
    ((markCanceled s c).ft.comm c).ftRequests.size.toNat = loop
  intro hdrains
  have hl : Decides (Intact ids) (Short ids) loop :=
    hloop ▸ cancelRequestsC_decides hK hB hp c _
  have hf := freeC_decides hK hB (hp (.heartbeat c)) (.heartbeat c) (loop.run (markCanceled s c))
  by_cases hok : loop.ok (markCanceled s c)
  · have hkept := (hl _).good hmark hok
    by_cases hok' : (freeC env (progress (.heartbeat c)) (.heartbeat c)).ok
        (loop.run (markCanceled s c))
    · have hkept' := hf.good hkept hok'
      have hidle : Confined c ∅ ((freeC env (progress (.heartbeat c)) (.heartbeat c)).run
          (loop.run (markCanceled s c))) :=
        freeC_confined (hconf (.heartbeat c) ∅) (.heartbeat c) _ (hdrains hok)
      by_cases hins : (eraseCommC c).ok ((freeC env (progress (.heartbeat c)) (.heartbeat c)).run
          (loop.run (markCanceled s c)))
      · exact .inl ⟨⟨hok, hok', hins⟩, hkept'.erase hc hins fun r hr => hidle.mem r hr,
          fun r hr => hidle.mem r hr⟩
      · exact .inr ⟨fun h => hins h.2.2, hkept'.short hins⟩
    · exact .inr ⟨fun h => hok' h.2.1, hshort (hf.bad hkept hok')⟩
  · exact .inr ⟨fun h => hok h.1, hshort (hf.stays ((hl _).bad hmark hok))⟩

/-- Erasing once more does not mend the size. -/
theorem cancelCommC_short (hp : ∀ r, Keeps (Short ids) (progress r)) (c : CommId) :
    Keeps (Short ids) (cancelCommC env progress c) := by
  have hB : Harmless env (Short ids) := short_harmless
  intro s hs
  have hloop := (cancelRequestsC_decides hB hB (fun r => (hp r).decides) c
    ((markCanceled s c).ft.comm c).ftRequests.size.toNat).keeps _ (hB.mark s c hs)
  have hfree := (freeC_decides hB hB (hp (.heartbeat c)).decides (.heartbeat c)).keeps _ hloop
  exact short_eraseComm hfree.heartbeatIds hfree.commIds (.inl hfree.lt)

/-- **One `cancel_comm`.** -/
theorem cancelCommC_decides (hft : env.faultTolerance = true)
    (hp : ∀ r, Decides (Intact ids) (Short ids) (progress r))
    (hconf : ∀ r R, Keeps (Confined c R) (progress r)) (hc : c ∈ s.ft.commIds) :
    DecidesAt (Intact ids) (Short ids) (cancelCommC env progress c) s :=
  .of_or (fun h => (cancelCommC_spec hft hp hconf (h.commIds ▸ hc) h).imp_left
    fun h => ⟨h.1, h.2.1⟩) (cancelCommC_short (fun r s => (hp r s).stays) c s)

/-- **The progress step of a `cancel`**, with whatever passes are nested in it. -/
theorem nestedC_decides (hft : env.faultTolerance = true) (n : Nested) :
    Decides (Intact ids) (Short ids) (nestedC env n) := by
  induction n with
  | led => exact decides_skip
  | leads events now beat comms anys pending cancels ih =>
      have hp : ∀ r, Decides (Intact ids) (Short ids)
          (if env.efficientProgress then skip else nestedC env (cancels r)) := fun r => by
        split
        case isTrue => exact decides_skip
        case isFalse => exact ih r
      have hconf : ∀ c r R, Keeps (Confined c R)
          (if env.efficientProgress then skip else nestedC env (cancels r)) := fun c r R => by
        split
        case isTrue => exact decides_skip.keeps
        case isFalse => exact nestedC_confined _
      have hpass := oneLoopC_decides (intact_harmless hft) short_harmless hp
        (processCommsC_decides hft ⟨now, beat, comms, anys, pending, fun _ => []⟩)
      refine Decides.seq (fun s => .act ((intact_harmless hft).events events)
        (short_harmless.events events)) ?_
      rw [if_pos hft]
      exact hpass fun s c hc => cancelCommC_decides hft hp (hconf c) hc

end Cancels

/-! ### One step -/

theorem Intact.monitored {ids : Finset CommId} (h : Intact ids s) : Monitored s :=
  (monitored_iff_watched h.inv.tracked).2 h.watched

/-- Its last line takes the communicator out of the list. -/
theorem cancelCommC_commNodes (env : Env) (p : ReqId → Checked State) (s : State) (c : CommId) :
    ((cancelCommC env p c).run s).ft.commNodes c = Node.free := by
  simp only [cancelCommC, seq_run, look_run, eraseCommC, eraseComm]
  exact erase_self

/-- What a step comes to: the list stays what it should be, or something is erased
that is not in it. -/
def StepSpec (env : Env) (s t : State) (a : MonitorAction) : Prop :=
  (ErasesMembers env s a ∧ Intact t.ft.commIds t) ∨ (¬ ErasesMembers env s a ∧ ¬ Monitored t)

theorem Intact.closeComm (h : Intact s.ft.commIds s) (hft : env.faultTolerance = true)
    (c : CommId) (nested : ReqId → Nested) :
    StepSpec env s ((closeCommC env (fun r => nestedC env (nested r)) c).run s)
      (.closeComm c nested) := by
  simp only [StepSpec, ErasesMembers, closeCommC, look_run, look_ok]
  by_cases hc : c ∈ s.ft.commIds
  · simp only [hc, hft, if_true, seq_run, seq_ok, act_run, act_ok, and_true]
    have hfree := cancelCommC_commNodes env (fun r => nestedC env (nested r)) s c
    rcases cancelCommC_spec hft (fun r => nestedC_decides hft (nested r))
      (fun r R => nestedC_confined (nested r)) hc h with ⟨hok, hu, hidle⟩ | ⟨hok, hu⟩
    · obtain ⟨xs, hw⟩ := hu.watched
      refine .inl ⟨hok, ⟨⟨fun d hd => ?_, fun r d hr => ?_, hu.inv.tracked.free⟩,
        hu.inv.heartbeatIds, hu.inv.free⟩, ⟨xs, hw.rep, fun d => ?_, hw.busy⟩, rfl⟩
      · exact hu.inv.tracked.rep d (Finset.mem_of_mem_erase hd)
      · refine Finset.mem_erase.2 ⟨?_, hu.inv.tracked.there r d hr⟩
        rintro rfl
        exact hidle r hr
      · dsimp only
        rw [hw.mem, Finset.mem_erase, and_assoc]
        refine ⟨fun hd => ⟨?_, hd⟩, fun hd => hd.2⟩
        rintro rfl
        rw [hfree] at hd
        cases hd.2
    · refine .inr ⟨hok, ?_⟩
      have hset : insertedIn (s.ft.commIds.erase c)
          ((cancelCommC env (fun r => nestedC env (nested r)) c).run s).ft =
          insertedIn s.ft.commIds
            ((cancelCommC env (fun r => nestedC env (nested r)) c).run s).ft := by
        ext d
        rw [mem_insertedIn, mem_insertedIn, Finset.mem_erase, and_assoc]
        refine ⟨fun hd => hd.2, fun hd => ⟨?_, hd⟩⟩
        rintro rfl
        rw [hfree] at hd
        cases hd.2
      have hshort : Short (s.ft.commIds.erase c) ⟨_, { ((cancelCommC env
          (fun r => nestedC env (nested r)) c).run s).ft with commIds := s.ft.commIds.erase c }⟩ :=
        ⟨hu.heartbeatIds, rfl, hset ▸ hu.lt⟩
      rw [hu.commIds]
      exact hshort.not_monitored
  · simp only [hc, if_false, skip_run]
    exact .inl ⟨trivial, h⟩

/-- **One step.**  It keeps the list what it should be exactly if it erases members
only. -/
theorem monitorStep_spec (h : Intact s.ft.commIds s) (hft : env.faultTolerance = true)
    {a : MonitorAction} (ht : monitorStep env s a = some t) : StepSpec env s t a := by
  obtain ⟨xs, hw⟩ := h.watched
  have hspec : ∀ {p : Checked State}, DecidesAt (Intact s.ft.commIds) (Short s.ft.commIds) p s →
      (p.ok s ∧ Intact (p.run s).ft.commIds (p.run s)) ∨ (¬ p.ok s ∧ ¬ Monitored (p.run s)) := by
    intro p hp
    by_cases hok : p.ok s
    · have hgood := hp.good h hok
      exact .inl ⟨hok, hgood.inv, hgood.watched, rfl⟩
    · exact .inr ⟨hok, (hp.bad h hok).not_monitored⟩
  cases a with
  | post k call =>
      simp only [monitorStep] at ht
      split at ht
      case isTrue hon =>
        obtain rfl := Option.some.inj ht
        rcases asyncPost_cases env s (.user k) call with ⟨-, h'⟩ |
          ⟨q, f, o, p, hr, hc, -, -, -, h'⟩
        · rw [h']
          exact .inl ⟨trivial, h⟩
        · rw [h']
          obtain ⟨hinv, hys⟩ := hw.post h.inv hft hr hc hon f o p
          exact .inl ⟨trivial, hinv, hys, rfl⟩
      case isFalse => cases ht
  | complete r err now =>
      obtain rfl := Option.some.inj ht
      have hgood := (intact_harmless hft).complete s r err now h
      exact .inl ⟨trivial, hgood.inv, hgood.watched, rfl⟩
  | processComm c now beat =>
      simp only [monitorStep] at ht
      split at ht
      case isTrue hc =>
        obtain rfl := Option.some.inj ht
        exact hspec (processCommC_decides hft hc.1 now (fun _ => beat) s)
      case isFalse => cases ht
  | cancelComm c nested =>
      simp only [monitorStep] at ht
      split at ht
      case isTrue hc =>
        obtain rfl := Option.some.inj ht
        exact hspec (cancelCommC_decides hft (fun r => nestedC_decides hft (nested r))
          (fun r R => nestedC_confined (nested r)) hc)
      case isFalse => cases ht
  | closeComm c nested =>
      obtain rfl := Option.some.inj ht
      exact h.closeComm hft c nested

theorem Fresh.monitorInv (h : Fresh s) : MonitorInv s :=
  ⟨h.tracked, h.heartbeatIds, fun c _ => h.commNodes c⟩

theorem Fresh.monitored (h : Fresh s) : Monitored s := by
  refine ⟨[], h.ftComms ▸ rep_empty, fun c => ?_, fun c _ _ hsize => ?_⟩
  · simp [h.commNodes c, Node.free]
  · rw [h.ftRequests c] at hsize
    exact absurd rfl hsize

/-- **When the monitored communicators stay a list.**  With fault tolerance on, a run
of these calls keeps `ft_comms` what it should be in every state exactly if
`process_comm` is called on no communicator without requests, and `cancel_comm` takes
none out at all, that is not in the list; the calls of the passes inside a `cancel_comm`
or `close_comm` included. -/
theorem monitored_iff (env : Env) (hft : env.faultTolerance = true) (s₀ s : State)
    (hfresh : Fresh s₀) (as : List MonitorAction) (h : exec (monitorStep env) s₀ as = some s) :
    Always (monitorStep env) Monitored s₀ as ↔
      Meets (monitorStep env) (ErasesMembers env) s₀ as := by
  have hstep : ∀ s a t, MonitorInv s → Monitored s → monitorStep env s a = some t →
      StepSpec env s t a := fun s a t hs hm ht =>
    monitorStep_spec ⟨hs, (monitored_iff_watched hs.tracked).1 hm, rfl⟩ hft ht
  refine always_iff_meets (I := MonitorInv) (fun s a t hs hm ht hmt => ?_)
    (fun s a t hs hm ht => ?_) hfresh.monitorInv hfresh.monitored h
  · rcases hstep s a t hs hm ht with ⟨-, hinv⟩ | ⟨-, hnot⟩
    · exact hinv.inv
    · exact absurd hmt hnot
  · rcases hstep s a t hs hm ht with ⟨hG, hinv⟩ | ⟨hG, hnot⟩
    · exact iff_of_true hinv.monitored hG
    · exact iff_of_false hnot hG

/-- Two peers and the any-comm; the user's requests are on peer 0, on peer 1 and on
the any-comm. -/
def twoPeers : State :=
  freshState {0, 1, anyCommPeer} (fun k => if k < 2 then k else anyCommPeer) 0

/-- A send to peer 0, which is looked at twice, the second time without requests. -/
def servedRun : List MonitorAction :=
  [.post 0 (.send 7 8 1 false false), .processComm 0 1 1, .complete (.user 0) 0 2,
    .processComm 0 3 3]

/-- While an any-comm receive is outstanding the pass walks all communicators: it
meets peer 1, which has no requests. -/
def strayRun : List MonitorAction :=
  [.post 0 (.send 7 8 1 false false), .post 2 (.recv 7 8 1 false false), .processComm 1 1 1]

/-- Where a run of the two peers leads. -/
def twoPeersEnd (as : List MonitorAction)
    (h : (exec (monitorStep Env.default) twoPeers as).isSome) : State :=
  (exec (monitorStep Env.default) twoPeers as).get h

/-- `monitored_iff` at a send that completes. -/
theorem monitored_servedRun :
    Always (monitorStep Env.default) Monitored twoPeers servedRun ↔
      Meets (monitorStep Env.default) (ErasesMembers Env.default) twoPeers servedRun :=
  monitored_iff Env.default rfl twoPeers (twoPeersEnd servedRun (by decide))
    (fresh_freshState ..) servedRun (Option.some_get _).symm

/-- **A stray `process_comm` stops all monitoring.**  Peer 0 has a send outstanding
and is in no list any more. -/
theorem monitored_strayRun :
    ¬ ∀ (env : Env) (s₀ s : State) (as : List MonitorAction), env.faultTolerance = true →
      Fresh s₀ → exec (monitorStep env) s₀ as = some s → Monitored s := by
  intro h
  obtain ⟨xs, hrep, -, hbusy⟩ := h Env.default twoPeers (twoPeersEnd strayRun (by decide)) strayRun
    rfl (fresh_freshState ..) (Option.some_get _).symm
  have hnil : xs = [] := hrep.head_eq_none.1 (by decide)
  have hmem := hbusy 0 (by decide) (by decide) (by decide) (by decide)
  rw [hnil] at hmem
  cases hmem

/-- Peer 0 is closed with a send outstanding, and the progress step of its `cancel` makes a pass
of its own, after five silent seconds: a heartbeat for peer 0 is refused, so that the pass cancels
it and takes it out of the list before the `close_comm` does. -/
def closingRun : List MonitorAction :=
  [.post 0 (.send 7 8 1 false false), .post 1 (.send 7 8 1 false false),
    .closeComm 0 fun _ => .leads [] 5000000000 (fun _ => 5000000000) [] [] [] fun _ => .led]

/-- Peer 1 says that it is in the list, which is empty. -/
example : (exec (monitorStep Env.default) (freshState {0, 1} id 99) closingRun).map
    (fun s => (s.ft.ftComms.head, (s.ft.commNodes 1).inserted)) = some (none, true) := by
  decide

end Impl
end Lfi
