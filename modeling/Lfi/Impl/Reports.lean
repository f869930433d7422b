/-
# Failure reports along a run

A communicator that a pass cancels should be heard of once: from then on it is waiting
in `ft_pending_failed_comms`, or one any-comm receive was completed with
`-LFI_BROKEN_COMM` and it as the source (`Delivered`).  A pass looks whether an
any-comm receive is outstanding once, when it starts, and only then puts its failures
among the waiting.  `delivered_iff` says that the passes without a receive are what
loses reports, and that nothing reports twice.
-/

import Lfi.Impl.AnyComm

namespace Lfi
namespace Impl

open Runs

variable {env : Env} {s t : State} {c : CommId}

/-- **Exactly one report.**  A communicator that a pass has cancelled waits and was
reported to nobody, or waits no more and was reported to one receive. -/
def Delivered (s : State) : Prop :=
  ∀ c ∈ s.ft.failed,
    (c ∈ s.ft.ftPendingFailedComms ∧ s.core.reports c = 0) ∨
      (c ∉ s.ft.ftPendingFailedComms ∧ s.core.reports c = 1)

/-- A pass has an any-comm receive when it starts, or it gives nobody up. -/
def Heard (env : Env) (s : State) : EngineAction → Prop
  | .oneLoop input =>
      PastRateLimit input s → (∃ r c, s.core.onComm r = some c ∧ isAnyComm c = true) ∨
        ¬ WalkFails env input.now s s.ft.commIds.card s.ft.ftComms.head
  | _ => True

/-- Only a communicator that has failed waits to be reported or was reported. -/
structure Accounted (s : State) : Prop where
  between : Between s
  waiting : ∀ c ∈ s.ft.ftPendingFailedComms, c ∈ s.ft.failed
  unreported : ∀ c, c ∉ s.ft.failed → s.core.reports c = 0

theorem Fresh.accounted (h : Fresh s) : Accounted s :=
  ⟨h.between, by simp [h.pending], fun c _ => by simp [Core.reports, h.completions]⟩

theorem Fresh.delivered (h : Fresh s) : Delivered s := by simp [Delivered, h.failed]

/-! ### One action -/

/-- What is left alone by everything but a pass. -/
structure SameReports (s t : State) : Prop where
  failed : t.ft.failed = s.ft.failed
  pending : t.ft.ftPendingFailedComms = s.ft.ftPendingFailedComms
  reports : t.core.reports = s.core.reports

theorem SameReports.delivered (h : SameReports s t) : Delivered t ↔ Delivered s := by
  unfold Delivered
  rw [h.failed, h.pending, h.reports]

theorem SameReports.accounted (h : SameReports s t) (hs : Accounted s) (ht : Between t) :
    Accounted t := by
  refine ⟨ht, ?_, ?_⟩
  · rw [h.failed, h.pending]
    exact hs.waiting
  · rw [h.failed, h.reports]
    exact hs.unreported

theorem Progressed.sameReports (hp : Progressed s t) (hrep : t.core.reports = s.core.reports) :
    SameReports s t :=
  ⟨hp.failed, hp.ftPendingFailedComms, hrep⟩

theorem setCount_sameReports (s : State) (n : ℕ) : SameReports s (setCount s n) :=
  ⟨rfl, rfl, rfl⟩

/-- A post reports nothing. -/
theorem asyncPost_sameReports (s : State) (r : ReqId) (call : PostCall) :
    SameReports s (asyncPost env s r call).2 := by
  rcases asyncPost_cases env s r call with ⟨-, heq⟩ | ⟨q, f, o, p, -, -, -, -, -, heq⟩ <;> rw [heq]
  · exact ⟨rfl, rfl, rfl⟩
  · have hfixed : (post env s r q.commId f o p).ft.failed = s.ft.failed ∧
        (post env s r q.commId f o p).ft.ftPendingFailedComms = s.ft.ftPendingFailedComms := by
      have hreg := registerRequest_fixed s.ft r q.commId
      unfold post
      split
      case isFalse => exact ⟨rfl, rfl⟩
      case isTrue =>
        refine ⟨(congrArg Ft.failed hreg).trans ?_,
          (congrArg Ft.ftPendingFailedComms hreg).trans ?_⟩ <;> split <;> rfl
    refine ⟨hfixed.1, hfixed.2, ?_⟩
    unfold Core.reports
    rw [show (post env s r q.commId f o p).core.completions = s.core.completions from
      postCore_completions ..]

/-- Every action that is not a pass leaves the reports alone. -/
theorem engineStep_sameReports (h : Between s) {a : EngineAction}
    (ht : engineStep env s a = some t) :
    (SameReports s t ∧ Heard env s a) ∨ ∃ input, a = .oneLoop input ∧ env.faultTolerance = true ∧
      input.Walks s.ft ∧ PastRateLimit input s ∧ t = pass env input (setCount s 0) := by
  have hno : ∀ r, r ∉ s.ft.ftRequestsToCancel := by simp [h.toCancel]
  cases a with
  | post k call =>
      simp only [engineStep] at ht
      split at ht
      case isTrue =>
        obtain rfl := Option.some.inj ht
        exact .inl ⟨asyncPost_sameReports .., trivial⟩
      case isFalse => cases ht
  | fabric e =>
      obtain rfl := Option.some.inj ht
      exact .inl ⟨(fabricEvent_progressed e).sameReports (fabricEvent_reports e), trivial⟩
  | cancel k events =>
      obtain rfl := Option.some.inj ht
      exact .inl ⟨(cancel_progressed _ events).sameReports (cancel_reports h.inv (hno _) events),
        trivial⟩
  | free k events =>
      obtain rfl := Option.some.inj ht
      exact .inl ⟨(requestFree_progressed _ events).sameReports
        (requestFree_reports h.inv (hno _) events), trivial⟩
  | oneLoop input =>
      simp only [engineStep, Option.ite_none_right_eq_some, Option.some.injEq] at ht
      obtain ⟨hen, rfl⟩ := ht
      rcases oneLoop_cases env input s with ⟨hpast, heq⟩ | ⟨hnot, n, heq⟩
      · exact .inr ⟨input, rfl, hen.1, hen.2, hpast, heq⟩
      · exact .inl ⟨heq ▸ setCount_sameReports s n, fun hpast => absurd hpast hnot⟩

/-! ### A pass -/

/-- The waiting and the new failures of a pass are all different. -/
theorem Accounted.nodup (h : Accounted s) {pending cs : List CommId} (hpending : pending.Nodup)
    (hwait : ∀ c, c ∈ s.ft.ftPendingFailedComms ↔ c ∈ pending) (hcs : cs.Nodup)
    (hnew : ∀ c ∈ cs, c ∉ s.ft.failed) : (pending ++ cs).Nodup :=
  hpending.append hcs fun c hc hc' => hnew c hc' (h.waiting c ((hwait c).2 hc))

/-- Of a list without repetitions a member is among the first `n` or among the rest. -/
theorem count_take_of_mem {L : List CommId} (hnd : L.Nodup) (hc : c ∈ L) (n : ℕ) :
    (c ∈ L.drop n ∧ (L.take n).count c = 0) ∨ (c ∉ L.drop n ∧ (L.take n).count c = 1) := by
  have hone := List.count_eq_one_of_mem hnd hc
  rw [← List.take_append_drop n L, List.count_append] at hone
  by_cases hdrop : c ∈ L.drop n
  · exact .inl ⟨hdrop, by have := List.count_pos_iff.2 hdrop; omega⟩
  · exact .inr ⟨hdrop, by rw [List.count_eq_zero_of_not_mem hdrop] at hone; omega⟩

/-- **A pass accounts for its failures.** -/
theorem pass_accounted (h : Accounted s) (hft : env.faultTolerance = true) {input : PassInput}
    (hwalks : input.Walks s.ft) (hquiet : Quiet env input s) :
    Accounted (pass env input (setCount s 0)) := by
  obtain ⟨cs, hbetween, -, -, hfailed, hany, hnone⟩ := pass_spec (h.between.setCount 0) hft
    hwalks (t := pass env input (setCount s 0)) rfl
  have hold : ∀ c ∈ (setCount s 0).ft.failed, c ∈ (pass env input (setCount s 0)).ft.failed :=
    fun c hc => hfailed ▸ List.mem_append_left _ hc
  by_cases hopen : s.ft.ftAnyCommRequests.Nonempty
  · obtain ⟨n, pending, -, hwait, hpending, hreports⟩ := hany hopen
    have hboth : ∀ c ∈ pending ++ cs, c ∈ (pass env input (setCount s 0)).ft.failed := by
      intro c hc
      rcases List.mem_append.1 hc with hc | hc
      · exact hold c (h.waiting c ((hwait c).2 hc))
      · exact hfailed ▸ List.mem_append_right _ hc
    refine ⟨hbetween, fun c hc => hboth c (List.mem_of_mem_drop ((hpending c).1 hc)),
      fun c hc => ?_⟩
    rw [hreports hquiet c, List.count_eq_zero_of_not_mem fun htake =>
      hc (hboth c (List.mem_of_mem_take htake)), Nat.add_zero]
    exact h.unreported c fun hc' => hc (hold c hc')
  · obtain ⟨hpending, hreports⟩ := hnone hopen
    refine ⟨hbetween, fun c hc => hold c (h.waiting c (hpending ▸ hc)), fun c hc => ?_⟩
    rw [hreports]
    exact h.unreported c fun hc' => hc (hold c hc')

/-- **One pass.**  It delivers its failures exactly if it has an any-comm receive when
it starts or gives nobody up. -/
theorem pass_delivered_iff (h : Accounted s) (hs : Delivered s) (hft : env.faultTolerance = true)
    {input : PassInput} (hwalks : input.Walks s.ft) (hquiet : Quiet env input s) :
    Delivered (pass env input (setCount s 0)) ↔ s.ft.ftAnyCommRequests.Nonempty ∨
      ¬ WalkFails env input.now s s.ft.commIds.card s.ft.ftComms.head := by
  obtain ⟨cs, -, hwalk, -, hfailed, hany, hnone⟩ := pass_spec (h.between.setCount 0) hft
    hwalks (t := pass env input (setCount s 0)) rfl
  have hnew : ∀ c ∈ cs, c ∉ s.ft.failed := fun c hc => (hwalk.failed c hc).2
  unfold Delivered
  rw [hfailed]
  by_cases hopen : s.ft.ftAnyCommRequests.Nonempty
  · obtain ⟨n, pending, hpnd, hwait, hpending, hreports⟩ := hany hopen
    have hnd := h.nodup hpnd hwait (hwalk.any hopen).1 hnew
    refine iff_of_true (fun c hc => ?_) (.inl hopen)
    rw [hpending, hreports hquiet c]
    change (_ ∧ s.core.reports c + _ = 0) ∨ (_ ∧ s.core.reports c + _ = 1)
    by_cases hboth : c ∈ pending ++ cs
    · -- the waiting and the new ones were not reported before
      have hzero : s.core.reports c = 0 := by
        rcases List.mem_append.1 hboth with hc' | hc'
        · have hc'' := (hwait c).2 hc'
          exact ((hs c (h.waiting c hc'')).resolve_right fun hn => hn.1 hc'').2
        · exact h.unreported c (hnew c hc')
      rw [hzero, Nat.zero_add]
      exact count_take_of_mem hnd hboth n
    · -- the others were, and are not listed
      rw [List.mem_append, not_or] at hboth
      have hold : c ∈ s.ft.failed := (List.mem_append.1 hc).resolve_right hboth.2
      have hone := (hs c hold).resolve_left fun hn => hboth.1 ((hwait c).1 hn.1)
      have hnot : c ∉ pending ++ cs := by simp [hboth]
      refine .inr ⟨fun hd => hnot (List.mem_of_mem_drop hd), ?_⟩
      rw [List.count_eq_zero_of_not_mem fun htake => hnot (List.mem_of_mem_take htake), hone.2]
  · obtain ⟨hpending, hreports⟩ := hnone hopen
    have hcs : cs = [] ↔ ¬ WalkFails env input.now s s.ft.commIds.card s.ft.ftComms.head :=
      (hwalk.noReceive hopen).trans (not_congr (walkFails_note s s.ft.ftLastProgress 0 _ _))
    rw [hpending, hreports, or_iff_right hopen, ← hcs]
    constructor
    · intro hdel
      by_contra hcs
      obtain ⟨c, hc⟩ := List.exists_mem_of_ne_nil cs hcs
      have hno := hnew c hc
      rcases hdel c (List.mem_append_right _ hc) with ⟨hwait, -⟩ | ⟨-, hone⟩
      · exact hno (h.waiting c hwait)
      · rw [show (setCount s 0).core.reports c = s.core.reports c from rfl, h.unreported c hno]
          at hone
        cases hone
    · rintro rfl
      rw [List.append_nil]
      exact hs

/-! ### Runs -/

/-- **When no report is lost.**  With fault tolerance on, take a run in which nothing
arrives while a pass cancels an any-comm receive.  In every state it visits each
cancelled communicator is waiting or was reported to exactly one receive, if and only if
every pass that gives somebody up has an any-comm receive when it starts. -/
theorem delivered_iff (env : Env) (hft : env.faultTolerance = true) (s₀ s : State)
    (h₀ : Fresh s₀) (as : List EngineAction) (hs : exec (engineStep env) s₀ as = some s)
    (hquiet : Meets (engineStep env) (QuietStep env) s₀ as) :
    Always (engineStep env) Delivered s₀ as ↔ Meets (engineStep env) (Heard env) s₀ as := by
  refine always_iff_meets_of (I := Accounted) (fun s a t h hq _ ht _ => ?_)
    (fun s a t h hq hdel ht => ?_) h₀.accounted h₀.delivered hs hquiet
  · rcases engineStep_sameReports h.between ht with ⟨hsame, -⟩ | ⟨input, rfl, -, hwalks, -, rfl⟩
    · exact hsame.accounted h (h.between.engineStep hft ht)
    · exact pass_accounted h hft hwalks hq
  · rcases engineStep_sameReports h.between ht with ⟨hsame, hheard⟩ |
      ⟨input, rfl, -, hwalks, hpast, rfl⟩
    · exact iff_of_true (hsame.delivered.2 hdel) hheard
    · rw [pass_delivered_iff h hdel hft hwalks hq, h.between.any_iff]
      simp [Heard, hpast]

/-- A call of `one_loop` at the time `now`, in which nothing arrives. -/
def callAt (now : ℤ) : EngineAction :=
  .oneLoop ⟨now, fun _ => now, [0, anyCommPeer], [.user 0], [0], fun _ => []⟩

/-- After five seconds without an answer to the user's send the peer gets a heartbeat,
and after five more it is given up; in between come the calls that do nothing but
count. -/
def peerLost : List EngineAction :=
  [.post 1 (.send 9 8 1 false false), callAt 5000000000] ++
    List.replicate 99 (callAt 5000000000) ++ [callAt 10001000000]

/-- `delivered_iff` at a failure with an any-comm receive outstanding. -/
theorem delivered_receiving :
    Always (engineStep Env.default) Delivered anyAndPeer
        (.post 0 (.recv 7 8 1 false false) :: peerLost) ↔
      Meets (engineStep Env.default) (Heard Env.default) anyAndPeer
        (.post 0 (.recv 7 8 1 false false) :: peerLost) :=
  delivered_iff Env.default rfl anyAndPeer
    (anyAndPeerEnd (.post 0 (.recv 7 8 1 false false) :: peerLost) (by decide +kernel))
    (fresh_freshState ..) _ (Option.some_get _).symm (by decide +kernel)

/-- **A failure that nobody hears of.**  The peer is given up while no receive is
outstanding, and it neither waits nor was it reported. -/
theorem delivered_peerLost :
    ¬ ∀ (env : Env) (s₀ s : State) (as : List EngineAction), Fresh s₀ →
      exec (engineStep env) s₀ as = some s → Delivered s := by
  intro h
  have hend := h Env.default anyAndPeer (anyAndPeerEnd peerLost (by decide +kernel)) peerLost
    (fresh_freshState ..) (Option.some_get _).symm
  have hlost : (0 : CommId) ∈ (anyAndPeerEnd peerLost (by decide +kernel)).ft.failed ∧
      (0 : CommId) ∉ (anyAndPeerEnd peerLost (by decide +kernel)).ft.ftPendingFailedComms ∧
      (anyAndPeerEnd peerLost (by decide +kernel)).core.reports 0 = 0 := by decide +kernel
  rcases hend 0 hlost.1 with ⟨hwait, -⟩ | ⟨-, hone⟩
  · exact hlost.2.1 hwait
  · rw [hlost.2.2] at hone
    cases hone

end Impl
end Lfi
