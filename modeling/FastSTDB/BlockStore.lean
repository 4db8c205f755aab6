import FastSTDB.Types
import Mathlib.Data.List.Basic

/-
  Block store — an append-only sequence of blocks behind addresses

  The `n`-th block a tree appends gets the address `alloc n`. The store may be
  shared with other trees, so nothing is assumed about the addresses except
  that they differ and are not `EMPTY_ADDR`. Blocks with an address below
  `removedBelow` have expired: `exists` is false for them and reads answer
  Unavailable. A store that keeps every block has `removedBelow = 0`.

  Correspondence (C++ ↔ Lean):
    `BlockStore::exists`             ↔ `contains`
    `MemStore`                       ↔ `memStore`, addresses from 619 on
-/
namespace FastSTDB

/-- What follows the header of a block: a compressed leaf, with the counters of
the codec's own header, or the references of a superblock. -/
inductive Payload (V : Type) where
  | leaf (nchunks ntail : Nat) (bytes : List UInt8)
  | inner (refs : List (SubtreeRef V))

structure Block (V : Type) where
  header : SubtreeRef V
  payload : Payload V

structure BlockStore (V : Type) where
  alloc : Nat → LogicAddr
  alloc_inj : Function.Injective alloc
  alloc_ne_empty : ∀ n, alloc n ≠ emptyAddr
  blocks : List (Block V)
  removedBelow : LogicAddr

namespace BlockStore
variable {V : Type}

section
variable (bs : BlockStore V)

/-- Index of the block with the given address. -/
def find (addr : LogicAddr) : Option Nat :=
  (List.range bs.blocks.length).find? (fun i => bs.alloc i == addr)

def appendBlock (b : Block V) : LogicAddr × BlockStore V :=
  (bs.alloc bs.blocks.length, { bs with blocks := bs.blocks ++ [b] })

/-- `none` in the second component unless the status is Ok. -/
def readIovecBlock (addr : LogicAddr) : Status × Option (Block V) :=
  match (bs.find addr).bind (fun i => bs.blocks[i]?) with
  | none => (.badArg, none)
  | some b => if addr < bs.removedBelow then (.unavailable, none) else (.ok, some b)

def contains (addr : LogicAddr) : Bool :=
  !decide (addr < bs.removedBelow) && (bs.find addr).isSome

/-- The same store after the blocks below `addr` have expired. -/
def expire (addr : LogicAddr) : BlockStore V := { bs with removedBelow := addr }

end

theorem find_alloc (bs : BlockStore V) {i : Nat} (hi : i < bs.blocks.length) :
    bs.find (bs.alloc i) = some i := by
  rw [find, List.find?_eq_some_iff_getElem]
  refine ⟨by simp, i, by simpa using hi, by simp, ?_⟩
  intro j hj
  simp only [List.getElem_range, Bool.not_eq_eq_eq_not, Bool.not_true, beq_eq_false_iff_ne]
  intro h
  have := bs.alloc_inj h
  omega

theorem readIovecBlock_alloc (bs : BlockStore V) {i : Nat} {b : Block V}
    (hb : bs.blocks[i]? = some b) (hlive : bs.removedBelow ≤ bs.alloc i) :
    bs.readIovecBlock (bs.alloc i) = (.ok, some b) := by
  obtain ⟨hi, -⟩ := List.getElem?_eq_some_iff.mp hb
  simp [readIovecBlock, bs.find_alloc hi, hb, not_lt.mpr hlive]

theorem contains_alloc (bs : BlockStore V) {i : Nat} (hi : i < bs.blocks.length) :
    bs.contains (bs.alloc i) = decide (bs.removedBelow ≤ bs.alloc i) := by
  simp only [contains, bs.find_alloc hi]
  by_cases h : bs.alloc i < bs.removedBelow
  · simp [h]
  · simp [not_lt.mp h]

end BlockStore

def memstoreBase : Nat := 619

/-- The addresses count up from `MEMSTORE_BASE`, past `EMPTY_ADDR`. -/
def memAlloc (n : Nat) : Nat :=
  if memstoreBase + n < emptyAddr then memstoreBase + n else memstoreBase + n + 1

theorem memAlloc_strictMono {m n : Nat} (h : m < n) : memAlloc m < memAlloc n := by
  simp only [memAlloc]
  split <;> split <;> omega

theorem memAlloc_ne_empty (n : Nat) : memAlloc n ≠ emptyAddr := by
  simp only [memAlloc]
  split <;> omega

def memStore (V : Type) : BlockStore V where
  alloc := memAlloc
  alloc_inj m n h := by
    rcases Nat.lt_trichotomy m n with hlt | heq | hgt
    · exact absurd h (memAlloc_strictMono hlt).ne
    · exact heq
    · exact absurd h (memAlloc_strictMono hgt).ne'
  alloc_ne_empty := memAlloc_ne_empty
  blocks := []
  removedBelow := 0

end FastSTDB
