/-
# What an allreduce computes

`operate` of `src/lfi_coll.cpp`: the root starts from its own value and takes in those of
the gather buffers one after the other, each read from the first bytes of a 64-bit buffer.

The values of a type are the numbers `OpType.value` says, of `8 * w` bits with or without
a sign.  A number is the reduction of some values (`IsReduction`) when it is one of them
and none is smaller, or larger, for MIN and MAX, and when it is their sum or product
modulo `2 ^ (8 * w)` for SUM and PROD.  There is one such number
(`IsReduction.unique`), the order of the values does not matter
(`isReduction_perm`), and `operate` finds it (`isReduction_operate`).

For a type with a sign the language leaves `result + value` and `result * value` undefined when
they do not fit.  Here they are taken modulo `2 ^ (8 * w)`, as for the types without: a SUM or PROD
that wraps around is a result, and the one that does not depend on the order.  Where an `int` that
overflows is no result anybody can use, it is undefined in the model too (`Lfi.Socket.Transfer`,
`Lfi.Wait.Elapsed`).
-/

import Lfi.Data.Bytes
import Mathlib.Data.BitVec
import Mathlib.Algebra.BigOperators.Group.List.Basic

namespace Lfi
namespace Coll

open Data

/-- `lfi_op_type_enum`. -/
inductive OpType where
  | int
  | uint32
  | int32
  | uint64
  | int64
deriving DecidableEq

/-- `lfi_op_enum`. -/
inductive OpEnum where
  | min
  | max
  | sum
  | prod
deriving DecidableEq

/-- `type_size`. -/
def typeSize : OpType → ℕ
  | .int => 4
  | .uint32 => 4
  | .int32 => 4
  | .uint64 => 8
  | .int64 => 8

/-- The types with a sign. -/
def OpType.signed : OpType → Bool
  | .int => true
  | .uint32 => false
  | .int32 => true
  | .uint64 => false
  | .int64 => true

/-- A value in memory. -/
abbrev OpType.Bits (type : OpType) : Type := BitVec (8 * typeSize type)

/-- The number a value is. -/
def OpType.value (type : OpType) (x : type.Bits) : ℤ := if type.signed then x.toInt else x.toNat

/-- `a < b` of the type. -/
def OpType.less (type : OpType) (a b : type.Bits) : Bool :=
  if type.signed then a.slt b else a.ult b

/-- One round of the loop of `operate`.  Sums and products are those of the machine, which
keep the low bits. -/
def operateRound (type : OpType) (op : OpEnum) (result value : type.Bits) : type.Bits :=
  match op with
  | .min => if type.less value result then value else result
  | .max => if type.less result value then value else result
  | .sum => result + value
  | .prod => result * value

/-- `memcpy(&value, buf, sizeof(T))`. -/
def readValue (type : OpType) (buf : Bytes) : type.Bits :=
  decode (typeSize type) (buf.take (typeSize type))

/-- `operate<T>(op, data, buffers)`. -/
def operate (type : OpType) (op : OpEnum) (data : Bytes) (buffers : List Bytes) : type.Bits :=
  (buffers.map (readValue type)).foldl (operateRound type op) (readValue type data)

/-- `r` is what the operation makes of the values `xs`. -/
def IsReduction (type : OpType) (op : OpEnum) (xs : List type.Bits) (r : type.Bits) : Prop :=
  match op with
  | .min => r ∈ xs ∧ ∀ x ∈ xs, type.value r ≤ type.value x
  | .max => r ∈ xs ∧ ∀ x ∈ xs, type.value x ≤ type.value r
  | .sum => r = BitVec.ofInt _ (xs.map type.value).sum
  | .prod => r = BitVec.ofInt _ (xs.map type.value).prod

section Values

variable {type : OpType}

theorem less_iff (a b : type.Bits) : type.less a b = true ↔ type.value a < type.value b := by
  rw [OpType.less, OpType.value, OpType.value]
  split
  case isTrue => exact BitVec.slt_iff_toInt_lt
  case isFalse => rw [Nat.cast_lt, BitVec.ult_iff_lt, BitVec.lt_def]

theorem value_injective : Function.Injective type.value := by
  intro a b h
  rw [OpType.value, OpType.value] at h
  split at h
  case isTrue => exact BitVec.toInt_inj.1 h
  case isFalse => exact BitVec.eq_of_toNat_eq (Nat.cast_injective h)

/-- The low bits of the number are the value. -/
theorem ofInt_value (a : type.Bits) : BitVec.ofInt (8 * typeSize type) (type.value a) = a := by
  rw [OpType.value]
  split
  case isTrue => exact BitVec.ofInt_toInt
  case isFalse => rw [BitVec.ofInt_natCast, BitVec.ofNat_toNat, BitVec.setWidth_eq]

end Values

section Reduction

variable {type : OpType} {op : OpEnum}

/-- A reduction is one value. -/
theorem IsReduction.unique {xs : List type.Bits} {r s : type.Bits}
    (hr : IsReduction type op xs r) (hs : IsReduction type op xs s) : r = s := by
  cases op with
  | min => exact value_injective (le_antisymm (hr.2 s hs.1) (hs.2 r hr.1))
  | max => exact value_injective (le_antisymm (hs.2 r hr.1) (hr.2 s hs.1))
  | sum => exact hr.trans hs.symm
  | prod => exact hr.trans hs.symm

/-- **The order does not matter.** -/
theorem isReduction_perm {xs ys : List type.Bits} (h : xs.Perm ys) {r : type.Bits} :
    IsReduction type op xs r ↔ IsReduction type op ys r := by
  cases op with
  | min =>
      exact and_congr h.mem_iff (forall_congr' fun x => imp_congr_left h.mem_iff)
  | max =>
      exact and_congr h.mem_iff (forall_congr' fun x => imp_congr_left h.mem_iff)
  | sum => rw [IsReduction, IsReduction, (h.map type.value).sum_eq]
  | prod => rw [IsReduction, IsReduction, (h.map type.value).prod_eq]

theorem isReduction_singleton (x : type.Bits) : IsReduction type op [x] x := by
  cases op with
  | min => exact ⟨List.mem_singleton_self x, fun y hy => (List.mem_singleton.1 hy ▸ le_rfl)⟩
  | max => exact ⟨List.mem_singleton_self x, fun y hy => (List.mem_singleton.1 hy ▸ le_rfl)⟩
  | sum => rw [IsReduction, List.map_singleton, List.sum_singleton, ofInt_value]
  | prod => rw [IsReduction, List.map_singleton, List.prod_singleton, ofInt_value]

/-- Of two values a round keeps the one that is not larger. -/
theorem operateRound_min (r x : type.Bits) :
    (operateRound type .min r x = r ∨ operateRound type .min r x = x) ∧
      type.value (operateRound type .min r x) ≤ type.value r ∧
      type.value (operateRound type .min r x) ≤ type.value x := by
  rw [operateRound]
  split
  case isTrue h => exact ⟨.inr rfl, ((less_iff x r).1 h).le, le_rfl⟩
  case isFalse h => exact ⟨.inl rfl, le_rfl, not_lt.1 fun hlt => h ((less_iff x r).2 hlt)⟩

theorem operateRound_max (r x : type.Bits) :
    (operateRound type .max r x = r ∨ operateRound type .max r x = x) ∧
      type.value r ≤ type.value (operateRound type .max r x) ∧
      type.value x ≤ type.value (operateRound type .max r x) := by
  rw [operateRound]
  split
  case isTrue h => exact ⟨.inr rfl, ((less_iff r x).1 h).le, le_rfl⟩
  case isFalse h => exact ⟨.inl rfl, le_rfl, not_lt.1 fun hlt => h ((less_iff r x).2 hlt)⟩

/-- **A round takes one more value in.** -/
theorem IsReduction.round {xs : List type.Bits} {r : type.Bits} (h : IsReduction type op xs r)
    (x : type.Bits) : IsReduction type op (xs ++ [x]) (operateRound type op r x) := by
  cases op with
  | min =>
      obtain ⟨hor, hr, hx⟩ := operateRound_min r x
      refine ⟨?_, fun y hy => ?_⟩
      · rcases hor with he | he
        · exact List.mem_append_left _ (he.symm ▸ h.1)
        · exact List.mem_append_right _ (List.mem_singleton.2 he)
      · rcases List.mem_append.1 hy with hy | hy
        · exact hr.trans (h.2 y hy)
        · exact List.mem_singleton.1 hy ▸ hx
  | max =>
      obtain ⟨hor, hr, hx⟩ := operateRound_max r x
      refine ⟨?_, fun y hy => ?_⟩
      · rcases hor with he | he
        · exact List.mem_append_left _ (he.symm ▸ h.1)
        · exact List.mem_append_right _ (List.mem_singleton.2 he)
      · rcases List.mem_append.1 hy with hy | hy
        · exact (h.2 y hy).trans hr
        · exact List.mem_singleton.1 hy ▸ hx
  | sum =>
      rw [IsReduction] at h
      rw [IsReduction, List.map_append, List.sum_append, List.map_singleton, List.sum_singleton,
        BitVec.ofInt_add, ← h, ofInt_value, operateRound]
  | prod =>
      rw [IsReduction] at h
      rw [IsReduction, List.map_append, List.prod_append, List.map_singleton,
        List.prod_singleton, BitVec.ofInt_mul, ← h, ofInt_value, operateRound]

theorem IsReduction.foldl {xs : List type.Bits} {r : type.Bits} (h : IsReduction type op xs r)
    (ys : List type.Bits) :
    IsReduction type op (xs ++ ys) (ys.foldl (operateRound type op) r) := by
  induction ys generalizing xs r with
  | nil => rwa [List.append_nil]
  | cons y ys ih =>
      have hround := ih (h.round y)
      rwa [List.append_assoc] at hround

/-- **`operate` reduces the root's value and those of the buffers.** -/
theorem isReduction_operate (data : Bytes) (buffers : List Bytes) :
    IsReduction type op (readValue type data :: buffers.map (readValue type))
      (operate type op data buffers) :=
  (isReduction_singleton (readValue type data)).foldl (buffers.map (readValue type))

theorem readValue_take (bs : Bytes) :
    readValue type (bs.take (typeSize type)) = readValue type bs := by
  rw [readValue, List.take_take, Nat.min_self, readValue]

end Reduction

end Coll
end Lfi
