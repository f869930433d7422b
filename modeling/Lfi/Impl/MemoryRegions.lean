/-
# Registered memory

`mr_reg` and `mr_unreg` of `src/src/impl/mr.cpp`.  A piece of memory is registered with the
domains of the two endpoints and entered in `m_mrs` under the pair of their keys.  Every exit of
`mr_reg` should leave behind what its key says (`Atomic`): an entry that owns the registrations
made, or nothing.

`mr_reg_atomic_iff` says which calls do.  A key that is not to be had leaks the registration it is
asked of, an entry that is there already keeps its place, and without the endpoint of the peers
the key is -1.
-/

import Lfi.Impl.State
import Mathlib.Data.Finset.Option
import Mathlib.Data.Finset.SDiff

namespace Lfi
namespace Impl

/-- `lfi_mr`; a `fid_mr *` is the number of the registration. -/
structure LfiMr where
  addr : ℕ
  size : ℕ
  shmMr : Option ℕ
  peerMr : Option ℕ
  deriving DecidableEq, Repr

/-- The registrations that it owns. -/
def LfiMr.owned (mr : LfiMr) : Finset ℕ := mr.peerMr.toFinset ∪ mr.shmMr.toFinset

/-- Whether `peer_ep` and `shm_ep` are initialized, and have one domain. -/
structure Endpoints where
  peer : Bool
  shm : Bool
  sameDomain : Bool
  deriving DecidableEq, Repr

/-- `shm_ep.initialized() && shm_ep.domain != peer_ep.domain`. -/
def Endpoints.ownShm (eps : Endpoints) : Bool := eps.shm && !eps.sameDomain

/-- What `fi_mr_reg` and `fi_mr_key` answer for the two domains; a key is an `int64_t`. -/
structure MrAnswers where
  peerReg : ℤ
  peerKey : ℤ
  shmReg : ℤ
  shmKey : ℤ
  deriving DecidableEq, Repr

/-- `m_mrs` and the registrations that are open; `fresh` is the next that `fi_mr_reg` makes. -/
structure Regions where
  mrs : LfiMrKey → Option LfiMr
  opened : Finset ℕ
  fresh : ℕ
  lt_fresh : ∀ m ∈ opened, m < fresh

/-- A successful `fi_mr_reg`. -/
def Regions.register (s : Regions) : Regions where
  mrs := s.mrs
  opened := insert s.fresh s.opened
  fresh := s.fresh + 1
  lt_fresh m hm := by
    rcases Finset.mem_insert.1 hm with rfl | hm
    · exact Nat.lt_succ_self _
    · exact Nat.lt_succ_of_lt (s.lt_fresh m hm)

/-- `if (mr) fi_close(&mr->fid)`. -/
def Regions.close (s : Regions) (mr : Option ℕ) : Regions where
  mrs := s.mrs
  opened := s.opened \ mr.toFinset
  fresh := s.fresh
  lt_fresh m hm := s.lt_fresh m (Finset.mem_sdiff.1 hm).1

/-- `m_mrs.emplace(key, mr)`, which refuses a key that is there. -/
def Regions.emplace (s : Regions) (key : LfiMrKey) (mr : LfiMr) : Regions :=
  match s.mrs key with
  | some _ => s
  | none => { s with mrs := Function.update s.mrs key (some mr) }

/-- `{-LFI_LIBFABRIC_ERROR, -LFI_LIBFABRIC_ERROR}`. -/
def errorKey : LfiMrKey := ⟨-lfiLibfabricError, -lfiLibfabricError⟩

/-- The second half of `mr_reg`, with what the first half made: the registration with the domain
of the peers and its key. -/
def regShm (eps : Endpoints) (a : MrAnswers) (addr size : ℕ) (s : Regions) (peerMr : Option ℕ)
    (peerKey : ℤ) : LfiMrKey × Regions :=
  if eps.ownShm then
    if a.shmReg < 0 then (errorKey, s.close peerMr)
    else
      let shmMr := s.fresh
      let s := s.register
      if a.shmKey < 0 then (errorKey, s.close peerMr)
      else
        let key := ⟨a.shmKey, peerKey⟩
        (key, s.emplace key ⟨addr, size, some shmMr, peerMr⟩)
  else
    let key := ⟨peerKey, peerKey⟩
    (key, s.emplace key ⟨addr, size, none, peerMr⟩)

/-- `mr_reg(addr, size)`. -/
def mrReg (eps : Endpoints) (a : MrAnswers) (addr size : ℕ) (s : Regions) : LfiMrKey × Regions :=
  if eps.peer then
    if a.peerReg < 0 then (errorKey, s)
    else
      let peerMr := s.fresh
      let s := s.register
      if a.peerKey < 0 then (errorKey, s)
      else regShm eps a addr size s (some peerMr) a.peerKey
  else regShm eps a addr size s none (-1)

/-- `LFI_MR_NOT_FOUND`. -/
def lfiMrNotFound : ℤ := 15

/-- `mr_unreg(key)`. -/
def mrUnreg (s : Regions) (key : LfiMrKey) : ℤ × Regions :=
  match s.mrs key with
  | none => (-lfiMrNotFound, s)
  | some mr =>
      let s := (s.close mr.peerMr).close mr.shmMr
      (lfiSuccess, { s with mrs := Function.update s.mrs key none })

/-- The key is good and there is one more entry, which owns what was registered, so that
`mr_unreg` takes all of it back. -/
structure Registered (s : Regions) (key : LfiMrKey) (t : Regions) : Prop where
  shmKey : 0 ≤ key.shmKey
  peerKey : 0 ≤ key.peerKey
  entry : ∃ mr, s.mrs key = none ∧ t.mrs = Function.update s.mrs key (some mr) ∧
    Disjoint s.opened mr.owned ∧ t.opened = s.opened ∪ mr.owned
  unreg : (mrUnreg t key).1 = lfiSuccess ∧ (mrUnreg t key).2.mrs = s.mrs ∧
    (mrUnreg t key).2.opened = s.opened

/-- The key says that there was an error, and nothing has changed. -/
structure Refused (s : Regions) (key : LfiMrKey) (t : Regions) : Prop where
  shmKey : key.shmKey < 0
  peerKey : key.peerKey < 0
  mrs : t.mrs = s.mrs
  opened : t.opened = s.opened

/-- **Registration is atomic.** -/
def Atomic (s : Regions) (result : LfiMrKey × Regions) : Prop :=
  Registered s result.1 result.2 ∨ Refused s result.1 result.2

/-- When the second half is as it should be. -/
def ShmSound (eps : Endpoints) (a : MrAnswers) (s : Regions) (peerKey : ℤ) : Prop :=
  if eps.ownShm then a.shmReg < 0 ∨ (0 ≤ a.shmKey ∧ s.mrs ⟨a.shmKey, peerKey⟩ = none)
  else s.mrs ⟨peerKey, peerKey⟩ = none

/-- No key is refused to a registration that was made, and the pair of keys is new.  Without the
endpoint of the peers the registration fails, or there was an entry for the key -1 before. -/
def RegSound (eps : Endpoints) (a : MrAnswers) (s : Regions) : Prop :=
  if eps.peer then a.peerReg < 0 ∨ (0 ≤ a.peerKey ∧ ShmSound eps a s a.peerKey)
  else if eps.ownShm then a.shmReg < 0
  else s.mrs ⟨-1, -1⟩ ≠ none

variable {eps : Endpoints} {a : MrAnswers} {addr size : ℕ} {s t : Regions} {key : LfiMrKey}

theorem Regions.fresh_not_mem (s : Regions) : s.fresh ∉ s.opened := fun h =>
  Nat.lt_irrefl _ (s.lt_fresh _ h)

/-! ### One exit after the other -/

theorem errorKey_neg : errorKey.shmKey < 0 ∧ errorKey.peerKey < 0 := by decide

/-- An error is as it should be when nothing is left open. -/
theorem atomic_error_iff (hmrs : t.mrs = s.mrs) :
    Atomic s (errorKey, t) ↔ t.opened = s.opened := by
  constructor
  · rintro (h | h)
    · exact absurd h.shmKey (Int.not_le.2 errorKey_neg.1)
    · exact h.opened
  · exact fun h => .inr ⟨errorKey_neg.1, errorKey_neg.2, hmrs, h⟩

/-- An entry that owns what was registered. -/
theorem registered_emplace {mr : LfiMr} (hmrs : t.mrs = s.mrs) (hkey : s.mrs key = none)
    (hshm : 0 ≤ key.shmKey) (hpeer : 0 ≤ key.peerKey) (hnew : Disjoint s.opened mr.owned)
    (hopened : t.opened = s.opened ∪ mr.owned) : Registered s key (t.emplace key mr) := by
  have heq : t.emplace key mr = { t with mrs := Function.update t.mrs key (some mr) } := by
    rw [Regions.emplace, hmrs, hkey]
  have hclosed : ((s.opened ∪ mr.owned) \ mr.peerMr.toFinset) \ mr.shmMr.toFinset = s.opened := by
    rw [sdiff_sdiff_left]
    exact Finset.union_sdiff_cancel_right hnew
  refine ⟨hshm, hpeer, ⟨mr, hkey, by rw [heq, hmrs], hnew, by rw [heq, hopened]⟩, ?_⟩
  have hunreg : mrUnreg (t.emplace key mr) key = (lfiSuccess,
      { ((t.emplace key mr).close mr.peerMr).close mr.shmMr with
        mrs := Function.update (t.emplace key mr).mrs key none }) := by
    unfold mrUnreg
    rw [show (t.emplace key mr).mrs key = some mr by rw [heq]; exact Function.update_self ..]
    rfl
  rw [hunreg]
  refine ⟨rfl, ?_, ?_⟩
  · rw [heq]
    dsimp only
    rw [Function.update_idem, hmrs, ← hkey, Function.update_eq_self]
  · rw [heq]
    dsimp only [Regions.close]
    rw [hopened, hclosed]

/-- A good key is as it should be when it is new. -/
theorem atomic_emplace_iff {mr : LfiMr} (hmrs : t.mrs = s.mrs) (hshm : 0 ≤ key.shmKey)
    (hpeer : 0 ≤ key.peerKey) (hnew : Disjoint s.opened mr.owned)
    (hopened : t.opened = s.opened ∪ mr.owned) :
    Atomic s (key, t.emplace key mr) ↔ s.mrs key = none := by
  constructor
  · rintro (h | h)
    · obtain ⟨-, hkey, -⟩ := h.entry
      exact hkey
    · exact absurd h.shmKey (Int.not_lt.2 hshm)
  · exact fun hkey => .inl (registered_emplace hmrs hkey hshm hpeer hnew hopened)

/-- The second half, after the first half has made the registration `m`. -/
theorem regShm_atomic_iff {m : ℕ} {peerKey : ℤ} (hmrs : t.mrs = s.mrs) (hm : m ∉ s.opened)
    (hopened : t.opened = insert m s.opened) (hfresh : m < t.fresh) (hpeer : 0 ≤ peerKey) :
    Atomic s (regShm eps a addr size t (some m) peerKey) ↔ ShmSound eps a s peerKey := by
  have hnot : t.fresh ∉ s.opened := fun h =>
    t.fresh_not_mem (by rw [hopened]; exact Finset.mem_insert_of_mem h)
  rw [regShm, ShmSound]
  split
  case isTrue =>
    split
    case isTrue hreg =>
      refine iff_of_true ((atomic_error_iff (s := s) (t := t.close (some m)) hmrs).2 ?_) (.inl hreg)
      simp only [Regions.close, Option.toFinset_some, hopened]
      rw [Finset.sdiff_singleton_eq_erase, Finset.erase_insert hm]
    case isFalse hreg =>
      dsimp only
      split
      case isTrue hkey =>
        -- the registration with the own domain stays open
        refine iff_of_false (fun hatomic => ?_) (by omega)
        have hopen := (atomic_error_iff (s := s) (t := t.register.close (some m)) hmrs).1 hatomic
        have hmem : t.fresh ∈ (t.register.close (some m)).opened := by
          simp [Regions.close, Regions.register, hfresh.ne']
        rw [hopen] at hmem
        exact hnot hmem
      case isFalse hkey =>
        rw [atomic_emplace_iff (t := t.register) hmrs (Int.not_lt.1 hkey) hpeer]
        · simp [hreg, Int.not_lt.1 hkey]
        · simp [LfiMr.owned, hm, hnot]
        · ext x
          simp only [Regions.register, hopened, LfiMr.owned, Option.toFinset_some,
            Finset.mem_insert, Finset.mem_union, Finset.mem_singleton]
          tauto
  case isFalse =>
    dsimp only
    rw [atomic_emplace_iff hmrs hpeer hpeer]
    · simp [LfiMr.owned, hm]
    · ext x
      simp only [hopened, LfiMr.owned, Option.toFinset_some, Option.toFinset_none,
        Finset.mem_insert, Finset.mem_union, Finset.mem_singleton, Finset.notMem_empty]
      tauto

/-- Without the endpoint of the peers there is no good key. -/
theorem regShm_none_atomic_iff :
    Atomic s (regShm eps a addr size s none (-1)) ↔
      if eps.ownShm then a.shmReg < 0 else s.mrs ⟨-1, -1⟩ ≠ none := by
  rw [regShm]
  split
  case isTrue =>
    split
    case isTrue hreg =>
      refine iff_of_true ((atomic_error_iff (s := s) (t := s.close none) rfl).2 ?_) hreg
      simp [Regions.close]
    case isFalse hreg =>
      refine iff_of_false (fun hatomic => ?_) hreg
      dsimp only at hatomic
      split at hatomic
      case isTrue hkey =>
        have hopen := (atomic_error_iff (s := s) (t := s.register.close none) rfl).1 hatomic
        simp only [Regions.close, Regions.register, Option.toFinset_none, Finset.sdiff_empty,
          Finset.insert_eq_self] at hopen
        exact s.fresh_not_mem hopen
      case isFalse hkey =>
        rcases hatomic with h | h
        · exact absurd h.peerKey (show ¬ (0 : ℤ) ≤ -1 by decide)
        · exact hkey h.shmKey
  case isFalse =>
    constructor
    · rintro (h | h) hnone
      · exact absurd h.peerKey (show ¬ (0 : ℤ) ≤ -1 by decide)
      · have hmrs := congrFun h.mrs ⟨-1, -1⟩
        simp [Regions.emplace, hnone] at hmrs
    · intro hsome
      obtain ⟨mr, hmr⟩ := Option.ne_none_iff_exists'.1 hsome
      have heq : s.emplace ⟨-1, -1⟩ ⟨addr, size, none, none⟩ = s := by rw [Regions.emplace, hmr]
      dsimp only
      rw [heq]
      exact .inr ⟨show (-1 : ℤ) < 0 by decide, show (-1 : ℤ) < 0 by decide, rfl, rfl⟩

/-- **Memory registration is atomic** in exactly these calls. -/
theorem mr_reg_atomic_iff (eps : Endpoints) (a : MrAnswers) (addr size : ℕ) (s : Regions) :
    Atomic s (mrReg eps a addr size s) ↔ RegSound eps a s := by
  rw [mrReg, RegSound]
  split
  case isTrue =>
    split
    case isTrue hreg => exact iff_of_true ((atomic_error_iff rfl).2 rfl) (.inl hreg)
    case isFalse hreg =>
      dsimp only
      split
      case isTrue hkey =>
        refine iff_of_false (fun hatomic => ?_) (by omega)
        have hopen := (atomic_error_iff (s := s) (t := s.register) rfl).1 hatomic
        exact s.fresh_not_mem (hopen ▸ Finset.mem_insert_self ..)
      case isFalse hkey =>
        rw [regShm_atomic_iff (s := s) (t := s.register) rfl s.fresh_not_mem rfl
          (Nat.lt_succ_self _) (Int.not_lt.1 hkey)]
        simp [hreg, Int.not_lt.1 hkey]
  case isFalse => exact regShm_none_atomic_iff

/-- Nothing is registered. -/
def Regions.none : Regions := ⟨fun _ => .none, ∅, 0, fun _ => nofun⟩

/-- Both domains register the memory, and that of the peers has no key for it. -/
theorem mr_reg_leaks : ¬ ∀ (eps : Endpoints) (a : MrAnswers) (addr size : ℕ) (s : Regions),
    Atomic s (mrReg eps a addr size s) := by
  intro h
  have hatomic := h ⟨true, true, false⟩ ⟨0, -1, 0, 7⟩ 4096 8 .none
  rcases hatomic with h | h
  · exact absurd h.shmKey (by decide)
  · exact absurd h.opened (by decide)

end Impl
end Lfi
