import FastSTDB.BlockContents
import FastSTDB.BlockStore

/-
  Tree nodes — `IOVecLeaf` and `IOVecSuperblock`

  Correspondence (C++ ↔ Lean):
    `IOVecLeaf` (new / from a block)       ↔ `IOVecLeaf.new`, `IOVecLeaf.ofBlock`
    `IOVecLeaf::append / read_all / commit` ↔ the functions of the same names
    `IOVecSuperblock` (new / from a block) ↔ `IOVecSuperblock.new`, `.ofBlock`, `.cow`
    `IOVecSuperblock::append / commit`     ↔ the functions of the same names

  `none` stands for LOG(FATAL) and for undefined behaviour: a leaf block read as
  a superblock or the other way round, the front of an empty vector. The 33
  references a superblock block can hold take 3630 bytes, so `append_chunk` does
  not run out of space.

  A node's metadata is a function of its contents: `leafMeta` of the points of a
  leaf, `innerMeta` of the references of a superblock. The header of a block and
  the reference that points to it differ from it in the address and the payload
  size only.
-/
namespace FastSTDB
open List DoubleArith SubtreeRef

variable {V : Type} [DoubleArith V]

/-! ## Leaf nodes -/

structure IOVecLeaf (V : Type) where
  prev : LogicAddr
  leafmeta : SubtreeRef V
  writer : IOVecBlockWriter
  fanoutIndex : Nat

def initLeafMeta (id : ParamId) (fanoutIndex : Nat) : SubtreeRef V where
  count := 0
  id := id
  beginTs := maxTimestamp
  endTs := 0
  addr := emptyAddr
  min := DoubleArith.max
  minTime := maxTimestamp
  max := lowest
  maxTime := 0
  sum := zero
  first := zero
  last := zero
  type := .leaf
  level := 0
  payloadSize := 0
  version := faststdbVersion
  fanoutIndex := fanoutIndex

/-- What `IOVecLeaf::append` does to the metadata. -/
def SubtreeRef.addPoint (m : SubtreeRef V) (p : Point) : SubtreeRef V :=
  let value : V := ofBits p.value
  { m with
    endTs := p.ts
    last := value
    beginTs := if m.count = 0 then p.ts else m.beginTs
    first := if m.count = 0 then value else m.first
    count := m.count + 1
    sum := add m.sum value
    max := if lt m.max value then value else m.max
    maxTime := if lt m.max value then p.ts else m.maxTime
    min := if lt value m.min then value else m.min
    minTime := if lt value m.min then p.ts else m.minTime }

namespace IOVecLeaf

def new (id : ParamId) (prev : LogicAddr) (fanoutIndex : Nat) : IOVecLeaf V where
  prev := prev
  leafmeta := { initLeafMeta id fanoutIndex with addr := prev }
  writer := .init
  fanoutIndex := fanoutIndex

/-- A leaf loaded from a block; its writer takes no data. -/
def ofBlock (b : Block V) : Option (IOVecLeaf V) :=
  match b.payload with
  | .leaf nchunks ntail bytes => some
      { prev := b.header.addr
        leafmeta := b.header
        writer := { IOVecBlockWriter.init with
          block := ⟨subtreeRefSize + blockHeaderSize, bytes⟩, nchunks, ntail }
        fanoutIndex := b.header.fanoutIndex }
  | .inner _ => none

section
variable (leaf : IOVecLeaf V)

def nelements : Nat := leaf.leafmeta.count

def getTimestamps : Timestamp × Timestamp :=
  (leaf.leafmeta.beginTs, leaf.leafmeta.endTs)

/-- The points in the stream, then those in the write buffer. -/
def readAll : Option (Status × List Point) :=
  let reader := IOVecBlockReader.init leaf.writer.nchunks leaf.writer.ntail leaf.writer.block.bytes
  (IOVecBlockReader.readN reader.nelements reader).map fun (status, pts) =>
    if status = .ok then (.ok, pts ++ leaf.writer.readTailElements) else (status, pts)

def append (p : Point) : Status × IOVecLeaf V :=
  match leaf.writer.put p with
  | (.ok, writer) => (.ok, { leaf with writer, leafmeta := leaf.leafmeta.addPoint p })
  | (status, writer) => (status, { leaf with writer })

/-- The node is written to the store; unused bytes of the block are zero. -/
def commit (bs : BlockStore V) : Option (LogicAddr × IOVecLeaf V × BlockStore V) :=
  leaf.writer.commit.map fun (size, writer) =>
    let leafmeta := { leaf.leafmeta with
      payloadSize := size - subtreeRefSize
      addr := if leaf.prev ≠ emptyAddr ∧ 0 < leaf.fanoutIndex then leaf.prev else emptyAddr
      version := faststdbVersion
      level := 0
      type := .leaf
      fanoutIndex := leaf.fanoutIndex }
    let (addr, bs) := bs.appendBlock ⟨leafmeta, .leaf writer.nchunks writer.ntail
      (writer.block.bytes ++ replicate writer.block.spaceLeft 0)⟩
    (addr, { leaf with writer, leafmeta }, bs)

end

end IOVecLeaf

def initSubtreeFromLeaf (leaf : IOVecLeaf V) : Status × SubtreeRef V :=
  if leaf.nelements = 0 then (.badArg, initSubtreeRef V)
  else (.ok, { leaf.leafmeta with payloadSize := 0, addr := emptyAddr, type := .leaf })

/-! ## Superblocks -/

/-- `refs` are the `write_pos_` references in use. -/
structure IOVecSuperblock (V : Type) where
  refs : List (SubtreeRef V)
  id : ParamId
  fanoutIndex : Nat
  level : Nat
  prev : LogicAddr
  immutable : Bool

def minStep (acc : V × Timestamp) (r : SubtreeRef V) : V × Timestamp :=
  if lt r.min acc.1 then (r.min, r.minTime) else acc

def maxStep (acc : V × Timestamp) (r : SubtreeRef V) : V × Timestamp :=
  if lt acc.1 r.max then (r.max, r.maxTime) else acc

/-- `init_subtree_from_subtree`; every field but the address is set. -/
def initSubtreeFromSubtree (node : IOVecSuperblock V) (backref : SubtreeRef V) :
    Option (SubtreeRef V) :=
  match node.refs with
  | [] => none
  | front :: rest =>
    let back := rest.getLastD front
    let mn := node.refs.foldl minStep (DoubleArith.max, 0)
    let mx := node.refs.foldl maxStep (lowest, 0)
    some { backref with
      beginTs := front.beginTs
      endTs := back.endTs
      first := front.first
      last := back.last
      count := node.refs.foldl (fun c r => c + r.count) 0
      sum := node.refs.foldl (fun s r => add s r.sum) zero
      min := mn.1
      minTime := mn.2
      max := mx.1
      maxTime := mx.2
      id := node.id
      level := node.level
      type := .inner
      version := faststdbVersion
      fanoutIndex := node.fanoutIndex
      payloadSize := 0 }

namespace IOVecSuperblock

def new (id : ParamId) (prev : LogicAddr) (fanout level : Nat) : IOVecSuperblock V :=
  ⟨[], id, fanout, level, prev, false⟩

def ofBlock (b : Block V) : Option (IOVecSuperblock V) :=
  match b.payload with
  | .leaf _ _ _ => none
  | .inner refs => some
      { refs := refs.take b.header.payloadSize
        id := b.header.id
        fanoutIndex := b.header.fanoutIndex
        level := b.header.level
        prev := b.header.addr
        immutable := true }

/-- The copy-on-write constructor. -/
def cow (b : Block V) : Option (IOVecSuperblock V) :=
  (ofBlock b).map fun node => { node with immutable := false }

section
variable (node : IOVecSuperblock V)

def nelements : Nat := node.refs.length

def isFull : Bool := decide (nbtreeFanout ≤ node.refs.length)

def append (p : SubtreeRef V) : Status × IOVecSuperblock V :=
  if node.isFull then (.overflow, node)
  else if node.immutable then (.badData, node)
  else (.ok, { node with refs := node.refs ++ [p] })

def commit (bs : BlockStore V) : Option (Status × LogicAddr × BlockStore V) :=
  if node.immutable then some (.badData, emptyAddr, bs)
  else
    (initSubtreeFromSubtree node (initSubtreeRef V)).map fun backref =>
      let header := { backref with
        addr := node.prev
        payloadSize := node.refs.length
        fanoutIndex := node.fanoutIndex
        id := node.id
        level := node.level
        type := .inner
        version := faststdbVersion }
      let (addr, bs) := bs.appendBlock ⟨header, .inner node.refs⟩
      (.ok, addr, bs)

end

end IOVecSuperblock

/-! ## Metadata of a leaf -/

def leafMeta (id : ParamId) (fanoutIndex : Nat) (pts : List Point) : SubtreeRef V :=
  pts.foldl addPoint (initLeafMeta id fanoutIndex)

theorem leafMeta_append (id : ParamId) (fanout : Nat) (pts : List Point) (p : Point) :
    (leafMeta id fanout (pts ++ [p]) : SubtreeRef V) = (leafMeta id fanout pts).addPoint p := by
  simp [leafMeta]

theorem addPoint_addr (m : SubtreeRef V) (p : Point) (addr : LogicAddr) :
    ({ m with addr := addr } : SubtreeRef V).addPoint p = { m.addPoint p with addr := addr } := rfl

theorem leafMeta_fixed (id : ParamId) (fanout : Nat) (pts : List Point) :
    (leafMeta id fanout pts : SubtreeRef V).id = id ∧
      (leafMeta id fanout pts : SubtreeRef V).addr = emptyAddr ∧
      (leafMeta id fanout pts : SubtreeRef V).type = .leaf ∧
      (leafMeta id fanout pts : SubtreeRef V).level = 0 ∧
      (leafMeta id fanout pts : SubtreeRef V).payloadSize = 0 ∧
      (leafMeta id fanout pts : SubtreeRef V).version = faststdbVersion ∧
      (leafMeta id fanout pts : SubtreeRef V).fanoutIndex = fanout ∧
      (leafMeta id fanout pts : SubtreeRef V).count = pts.length := by
  induction pts using reverseRecOn with
  | nil => exact ⟨rfl, rfl, rfl, rfl, rfl, rfl, rfl, rfl⟩
  | append_singleton pts p ih =>
    obtain ⟨h1, h2, h3, h4, h5, h6, h7, h8⟩ := ih
    rw [leafMeta_append]
    exact ⟨h1, h2, h3, h4, h5, h6, h7, by simp [addPoint, h8]⟩

/-- The time range of a nonempty leaf is that of its first and last points. -/
theorem leafMeta_range (id : ParamId) (fanout : Nat) {pts : List Point} (h : pts ≠ []) :
    (leafMeta id fanout pts : SubtreeRef V).beginTs = (pts.head h).ts ∧
      (leafMeta id fanout pts : SubtreeRef V).endTs = (pts.getLast h).ts := by
  induction pts using reverseRecOn with
  | nil => exact absurd rfl h
  | append_singleton pts p ih =>
    have hcount := (leafMeta_fixed (V := V) id fanout pts).2.2.2.2.2.2.2
    rw [leafMeta_append]
    simp only [addPoint, hcount, length_eq_zero_iff]
    by_cases hp : pts = []
    · simp [hp]
    · rw [if_neg hp, (ih hp).1]
      simp [head_append_of_ne_nil hp]

/-! ## Metadata of a superblock -/

def innerMeta (id : ParamId) (level fanoutIndex : Nat) (refs : List (SubtreeRef V)) :
    SubtreeRef V where
  count := refs.foldl (fun c r => c + r.count) 0
  id := id
  beginTs := (refs.head?.map beginTs).getD 0
  endTs := (refs.getLast?.map endTs).getD 0
  addr := emptyAddr
  min := (refs.foldl minStep (DoubleArith.max, 0)).1
  minTime := (refs.foldl minStep (DoubleArith.max, 0)).2
  max := (refs.foldl maxStep (lowest, 0)).1
  maxTime := (refs.foldl maxStep (lowest, 0)).2
  sum := refs.foldl (fun s r => add s r.sum) zero
  first := (refs.head?.map SubtreeRef.first).getD zero
  last := (refs.getLast?.map SubtreeRef.last).getD zero
  type := .inner
  level := level
  payloadSize := 0
  version := faststdbVersion
  fanoutIndex := fanoutIndex

variable {node : IOVecSuperblock V}

theorem initSubtreeFromSubtree_eq (h : node.refs ≠ [])
    (backref : SubtreeRef V) : initSubtreeFromSubtree node backref =
      some { innerMeta node.id node.level node.fanoutIndex node.refs with addr := backref.addr } := by
  unfold initSubtreeFromSubtree innerMeta
  cases hr : node.refs with
  | nil => exact absurd hr h
  | cons front rest => simp [getLast?_cons]

theorem IOVecSuperblock.commit_eq (hm : node.immutable = false) (h : node.refs ≠ [])
    (bs : BlockStore V) : node.commit bs = some (.ok, bs.appendBlock
      ⟨{ innerMeta node.id node.level node.fanoutIndex node.refs with
        addr := node.prev, payloadSize := node.refs.length }, .inner node.refs⟩) := by
  unfold IOVecSuperblock.commit
  rw [initSubtreeFromSubtree_eq h]
  simp only [hm]
  rfl

end FastSTDB
