import Mathlib.Data.Rat.Defs
import Mathlib.Algebra.Order.Ring.Rat
import Mathlib.Data.UInt

/-
  Basic types — timestamps, values, statuses and subtree references

  Correspondence (C++ ↔ Lean):
    `Timestamp` (u64)                ↔ `UInt64`
    `double` values as written       ↔ `UInt64`, the bit pattern
    `double` aggregates              ↔ a type `V` with `[DoubleArith V]`
    `LogicAddr` (u64), `EMPTY_ADDR`  ↔ `Nat`, `emptyAddr`
    `common::Status::Code`           ↔ `Status`
    `SubtreeRef`                     ↔ `SubtreeRef V`

  The arithmetic on doubles is a parameter: `DoubleArith` names the operations
  the code performs and states no law, so a result that holds for every
  `DoubleArith V` holds for IEEE doubles with their rounding and their NaNs.
  Results about exact sums are stated at `Rat`, where `ofBits` decodes a finite
  bit pattern exactly.

  The code is built with `-c opt`, so an `assert` is no statement of it. The
  `checksum` field of a reference is left out: a store returns the blocks it
  was given, so the check on reading never fails. Levels and fanout indexes are
  `Nat` (u16 in the source: a level of 2^16 would take 32^65535 leaves).
-/
namespace FastSTDB

abbrev Timestamp := UInt64
abbrev ParamId := UInt64
abbrev LogicAddr := Nat

def emptyAddr : Nat := 2 ^ 64 - 1
def maxTimestamp : Timestamp := 0xFFFFFFFFFFFFFFFF
def minTimestamp : Timestamp := 0

def nbtreeFanout : Nat := 32
def faststdbVersion : Nat := 101
def faststdbBlockSize : Nat := 4096

/-- The status codes the modelled code returns or compares with. -/
inductive Status where
  | ok | overflow | badArg | badData | noData | unavailable | notFound | noMemory | eAccess
  | outOfRange | fileSeekError | fileWriteError | ioError
  deriving DecidableEq, Repr

inductive NBTreeBlockType where
  | leaf | inner
  deriving DecidableEq, Repr

inductive NBTreeAppendResult where
  | ok | okFlushNeeded | failLateWrite | failBadId | failBadValue
  deriving DecidableEq, Repr

structure Point where
  ts : Timestamp
  value : UInt64
  deriving DecidableEq, Repr

/-! ## Timestamps are linearly ordered -/

instance linearOrderUInt64 : LinearOrder UInt64 where
  le_refl a := UInt64.le_refl a
  le_trans a b c := UInt64.le_trans
  lt_iff_le_not_ge a b := by
    simp only [UInt64.lt_iff_toNat_lt, UInt64.le_iff_toNat_le]
    omega
  le_antisymm a b := UInt64.le_antisymm
  le_total a b := UInt64.le_total a b
  toDecidableLE := inferInstance

theorem le_maxTimestamp (t : Timestamp) : t ≤ maxTimestamp := by
  have h := t.toNat_lt
  show t.toNat ≤ 18446744073709551615
  omega

theorem minTimestamp_le (t : Timestamp) : minTimestamp ≤ t := by exact Nat.zero_le _

/-! ## Doubles -/

/-- The operations on doubles the code performs, with no law assumed. -/
class DoubleArith (V : Type) where
  ofBits : UInt64 → V
  ofNat : Nat → V
  lt : V → V → Bool
  le : V → V → Bool
  add : V → V → V
  sub : V → V → V
  div : V → V → V
  zero : V
  max : V
  lowest : V

/-- The exact value of a finite double: sign, exponent and fraction. -/
def ratOfBits (bits : UInt64) : Rat :=
  let e : Nat := bits.toNat / 2 ^ 52 % 2 ^ 11
  let f : Nat := bits.toNat % 2 ^ 52
  let mag : Rat :=
    if e = 0 then (f : Rat) / 2 ^ 1074
    else if e < 1075 then ((2 ^ 52 + f : Nat) : Rat) / 2 ^ (1075 - e)
    else ((2 ^ 52 + f : Nat) : Rat) * 2 ^ (e - 1075)
  if bits.toNat / 2 ^ 63 = 1 then -mag else mag

def dblMax : Rat := ((2 ^ 53 - 1 : Nat) : Rat) * 2 ^ 971

instance : DoubleArith Rat where
  ofBits := ratOfBits
  ofNat n := n
  lt a b := decide (a < b)
  le a b := decide (a ≤ b)
  add a b := a + b
  sub a b := a - b
  div a b := a / b
  zero := 0
  max := dblMax
  lowest := -dblMax

/-! ## Subtree references -/

/-- Reference to a tree node, and the header of every block. In a header `addr`
is the address of the previous node of the level, in a reference the address of
the node itself. -/
structure SubtreeRef (V : Type) where
  count : Nat
  id : ParamId
  beginTs : Timestamp
  endTs : Timestamp
  addr : LogicAddr
  min : V
  minTime : Timestamp
  max : V
  maxTime : Timestamp
  sum : V
  first : V
  last : V
  type : NBTreeBlockType
  level : Nat
  payloadSize : Nat
  version : Nat
  fanoutIndex : Nat
  deriving DecidableEq

open DoubleArith in
def initSubtreeRef (V : Type) [DoubleArith V] : SubtreeRef V where
  count := 0
  id := 0
  beginTs := 0
  endTs := 0
  addr := emptyAddr
  min := DoubleArith.max
  minTime := maxTimestamp
  max := lowest
  maxTime := 0
  sum := zero
  first := zero
  last := zero
  type := .leaf
  level := 0
  payloadSize := 0
  version := faststdbVersion
  fanoutIndex := 0

end FastSTDB
