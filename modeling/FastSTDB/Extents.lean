import FastSTDB.Iterator

/-
  Extents — the open nodes of a tree and `NBTreeExtentsList` (`nbtree.cc`)

  The vector `extents_` is empty or holds the leaf extent followed by superblock
  extents: every place that fills it pushes them in that order. `Extents` carries
  this in its type; the extent of level `l > 0` is `inner[l - 1]`.

  An extent calls back into its list (`roots_collection->append`) while it
  commits. The callback is a parameter of the extents' functions, and
  `NBTreeExtentsList.appendRef` ties the knot with a bound on the number of
  levels. The callback never touches the extent that calls it, so the caller
  writes that extent back when it returns.

  Correspondence (C++ ↔ Lean):
    `NBTreeLeafExtent`, `NBTreeSBlockExtent`     ↔ the structures of the same names
    `NBTreeExtentsList::append(SubtreeRef)`      ↔ `NBTreeExtentsList.appendRef`
    `NBTreeExtentsList::append(ts, value, dup)`  ↔ `NBTreeExtentsList.append`
    `open / repair / init / close / search` ↔ `openTree`, `repair`, `init`, `close`, `search`

  `none` stands for LOG(FATAL) and undefined behaviour.
-/
namespace FastSTDB
open Pull

/-! ## Extents -/

structure NBTreeLeafExtent (V : Type) where
  last : LogicAddr
  leaf : IOVecLeaf V
  fanoutIndex : Nat

structure NBTreeSBlockExtent (V : Type) where
  curr : IOVecSuperblock V
  last : LogicAddr
  fanoutIndex : Nat
  level : Nat
  killed : Bool

/-- A nonempty `extents_`. -/
structure Extents (V : Type) where
  leaf : NBTreeLeafExtent V
  inner : List (NBTreeSBlockExtent V)

structure NBTreeExtentsList (V : Type) where
  bstore : BlockStore V
  id : ParamId
  extents : Option (Extents V)
  last : Timestamp
  rescuePoints : List LogicAddr
  initialized : Bool
  writeCount : Nat

variable {V : Type} [DoubleArith V]

/-- What `commit` of an extent gives: was the parent saved, the address of the
new block, the list and the extent afterwards. -/
abbrev Committed (V E : Type) := Bool × LogicAddr × NBTreeExtentsList V × E

/-- `roots_collection->append(payload)` -/
abbrev RootsAppend (V : Type) :=
  NBTreeExtentsList V → SubtreeRef V → Option (Bool × NBTreeExtentsList V)

/-- Link and fanout index of the node after one with the given fanout index at
`addr`: a chain of links has at most 32 nodes. -/
def nextLink (fanoutIndex : Nat) (addr : LogicAddr) : LogicAddr × Nat :=
  if fanoutIndex + 1 = nbtreeFanout then (emptyAddr, 0) else (addr, fanoutIndex + 1)

namespace NBTreeLeafExtent

def resetLeaf (id : ParamId) (last : LogicAddr) (fanoutIndex : Nat) : NBTreeLeafExtent V :=
  ⟨last, .new id last fanoutIndex, fanoutIndex⟩

/-- The constructor; `last` is the previous leaf, if there is one. -/
def new (bs : BlockStore V) (id : ParamId) (last : LogicAddr) : Option (NBTreeLeafExtent V) :=
  if last = emptyAddr then some (resetLeaf id emptyAddr 0)
  else
    match bs.readIovecBlock last with
    | (.ok, some block) =>
      let (last, fanoutIndex) := nextLink block.header.fanoutIndex last
      some (resetLeaf id last fanoutIndex)
    | (.unavailable, _) => some (resetLeaf id emptyAddr 0)
    | _ => none

def isDirty (e : NBTreeLeafExtent V) : Bool := e.leaf.nelements != 0

def commit (roots : RootsAppend V) (t : NBTreeExtentsList V) (e : NBTreeLeafExtent V)
    (final : Bool) : Option (Committed V (NBTreeLeafExtent V)) :=
  (e.leaf.commit t.bstore).bind fun (addr, leaf, bstore) =>
    match initSubtreeFromLeaf leaf with
    | (.ok, payload) =>
      let payload := { payload with addr }
      let t := { t with bstore }
      (if !final || payload.level + 1 < t.rescuePoints.length then roots t payload
       else some (false, t)).bind fun (parentSaved, t) =>
        let (last, fanoutIndex) := nextLink e.fanoutIndex addr
        some (parentSaved, addr, t, resetLeaf t.id last fanoutIndex)
    | _ => none

/-- `fuel` bounds the retries after an overflow. -/
def append (roots : RootsAppend V) : Nat → NBTreeExtentsList V → NBTreeLeafExtent V → Point →
    Option (Committed V (NBTreeLeafExtent V))
  | 0, _, _, _ => none
  | fuel + 1, t, e, p =>
    match e.leaf.append p with
    | (.overflow, leaf) =>
      (commit roots t { e with leaf } false).bind fun (parentSaved, addr, t, e) =>
        (append roots fuel t e p).map fun (_, _, t, e) => (parentSaved, addr, t, e)
    | (_, leaf) => some (false, emptyAddr, t, { e with leaf })

end NBTreeLeafExtent

namespace NBTreeSBlockExtent

def fresh (id : ParamId) (level : Nat) : NBTreeSBlockExtent V :=
  ⟨.new id emptyAddr 0 level, emptyAddr, 0, level, false⟩

/-- The constructor; `addr` is a node to restore, if there is one. -/
def new (bs : BlockStore V) (id : ParamId) (addr : LogicAddr) (level : Nat) :
    Option (NBTreeSBlockExtent V) :=
  if addr = emptyAddr then some (fresh id level)
  else
    match bs.readIovecBlock addr with
    | (.ok, some block) =>
      -- the link is overwritten after the fanout index was reset
      let fanoutIndex := (nextLink block.header.fanoutIndex addr).2
      (IOVecSuperblock.cow block).map fun curr =>
        ⟨curr, block.header.addr, fanoutIndex, level, false⟩
    | (.unavailable, _) => some { fresh id level with killed := true }
    | _ => none

def isDirty (e : NBTreeSBlockExtent V) : Bool := e.curr.nelements != 0

def commit (roots : RootsAppend V) (t : NBTreeExtentsList V) (e : NBTreeSBlockExtent V)
    (final : Bool) : Option (Committed V (NBTreeSBlockExtent V)) :=
  (e.curr.commit t.bstore).bind fun (status, addr, bstore) =>
    if status ≠ .ok then none
    else
      (initSubtreeFromSubtree e.curr (initSubtreeRef V)).bind fun payload =>
        let payload := { payload with addr }
        let t := { t with bstore }
        (if !final || payload.level + 1 < t.rescuePoints.length then roots t payload
         else some (false, t)).bind fun (parentSaved, t) =>
          let (last, fanoutIndex) := nextLink e.fanoutIndex addr
          some (parentSaved, addr, t, { e with
            curr := .new t.id last fanoutIndex e.level, last, fanoutIndex })

/-- `fuel` bounds the retries after an overflow. -/
def append (roots : RootsAppend V) : Nat → NBTreeExtentsList V → NBTreeSBlockExtent V →
    SubtreeRef V → Option (Committed V (NBTreeSBlockExtent V))
  | 0, _, _, _ => none
  | fuel + 1, t, e, pl =>
    match e.curr.append pl with
    | (.overflow, _) =>
      (commit roots t e false).bind fun (parentSaved, addr, t, e) =>
        (append roots fuel t e pl).map fun (_, _, t, e) => (parentSaved, addr, t, e)
    | (_, curr) => some (false, emptyAddr, t, { e with curr })

end NBTreeSBlockExtent

/-! ## The list -/

namespace NBTreeExtentsList

def new (id : ParamId) (addresses : List LogicAddr) (bstore : BlockStore V) : NBTreeExtentsList V :=
  ⟨bstore, id, none, 0, addresses, false, 0⟩

section
variable (t : NBTreeExtentsList V)

def setLeaf (e : NBTreeLeafExtent V) : NBTreeExtentsList V :=
  { t with extents := t.extents.map fun x => { x with leaf := e } }

def setInner (i : Nat) (e : NBTreeSBlockExtent V) : NBTreeExtentsList V :=
  { t with extents := t.extents.map fun x => { x with inner := x.inner.set i e } }

def size : Nat :=
  match t.extents with
  | none => 0
  | some x => x.inner.length + 1

/-- The extent a reference of the given level goes to; a new top level is created
when the level below has its first node. -/
def rootFor (level : Nat) : Option (NBTreeSBlockExtent V × NBTreeExtentsList V) :=
  t.extents.bind fun x =>
    match x.inner[level]? with
    | some e => some (e, t)
    | none =>
      if level = x.inner.length then
        (NBTreeSBlockExtent.new t.bstore t.id emptyAddr (level + 1)).map fun e =>
          (e, { t with
            extents := some { x with inner := x.inner ++ [e] }
            rescuePoints := t.rescuePoints ++ [emptyAddr] })
      else none

/-- `rescue_points_.at(lvl) = addr`, or a new last element. -/
def setRescue (lvl : Nat) (addr : LogicAddr) : Option (NBTreeExtentsList V) :=
  if lvl < t.rescuePoints.length then
    some { t with rescuePoints := t.rescuePoints.set lvl addr }
  else if lvl = t.rescuePoints.length then
    some { t with rescuePoints := t.rescuePoints ++ [addr] }
  else none

end

/-- `append(SubtreeRef)`; `fuel` bounds the levels a commit can climb. -/
def appendRef : Nat → RootsAppend V
  | 0, _, _ => none
  | fuel + 1, t, pl =>
    (t.rootFor pl.level).bind fun (root, t) =>
      let t := { t with writeCount := t.writeCount + 1 }
      (root.append (appendRef fuel) 2 t pl).bind fun (_, addr, t, root) =>
        let t := t.setInner pl.level root
        if addr ≠ emptyAddr then (t.setRescue (pl.level + 1) addr).map fun t => (true, t)
        else some (false, t)

/-- Enough fuel for a commit at any level: a cascade creates at most one level. -/
def rootsAppend (t : NBTreeExtentsList V) : RootsAppend V := appendRef (t.size + 1)

/-! ## Searching -/

def searchLeaf (x : Extents V) (beginTs endTs : Timestamp) : Option (RealOp V) :=
  (LeafIter.ofLeaf beginTs endTs x.leaf.leaf).map .leaf

def searchInner (e : NBTreeSBlockExtent V) (beginTs endTs : Timestamp) : RealOp V :=
  .sblock (.ofNode e.curr beginTs endTs)

/-- One operator for each extent, in the order of the scan; a single operator is
used as it is. -/
def chainOf (leaf : RealOp V) (inner : List (RealOp V)) (forward : Bool) : RealOp V :=
  match inner with
  | [] => leaf
  | _ => .chain (if forward then (leaf :: inner).reverse else leaf :: inner) 0

section
variable (t : NBTreeExtentsList V) (beginTs endTs : Timestamp)

def searchExtents : Option (RealOp V) :=
  match t.extents with
  | none => some .empty
  | some x =>
    (searchLeaf x beginTs endTs).map fun leaf =>
      chainOf leaf (x.inner.map (searchInner · beginTs endTs)) (beginTs < endTs)

end

/-! ## Opening and repair -/

inductive RepairStatus where
  | ok | repair
  deriving DecidableEq

/-- `repair_status`: a cleanly closed tree has one address, the last. -/
def repairStatus (rescuePoints : List LogicAddr) : RepairStatus :=
  if rescuePoints.length - rescuePoints.count emptyAddr = 1 ∧
      rescuePoints.getLast? ≠ some emptyAddr then .ok
  else .repair

/-- Empty superblock extents of the levels from `lvl` on. -/
def emptyInner (id : ParamId) (lvl n : Nat) : List (NBTreeSBlockExtent V) :=
  (List.range' lvl n).map (.fresh id)

section
variable (t : NBTreeExtentsList V)

/-- The first branch of `open`: a single leaf was saved. -/
def openLeaf (addr : LogicAddr) : Option (Bool × NBTreeExtentsList V) :=
  match t.bstore.readIovecBlock addr with
  | (.ok, some block) =>
    (IOVecLeaf.ofBlock block).bind fun leaf =>
      match initSubtreeFromLeaf leaf with
      | (.ok, sref) =>
        let root : NBTreeSBlockExtent V := .fresh t.id 1
        (root.append (fun _ _ => none) 2 t { sref with addr }).bind fun (_, _, t, root) =>
          (NBTreeLeafExtent.new t.bstore t.id addr).map fun leafExtent =>
            (true, { t with
              extents := some ⟨leafExtent, [root]⟩
              rescuePoints := t.rescuePoints ++ [emptyAddr] })
      | _ => none
  | _ =>
    -- dead tree: nothing is left on the device
    some (false, { t with extents := some ⟨.resetLeaf t.id emptyAddr 0, []⟩ })

/-- The second branch of `open`: the root is restored by copy-on-write, all other
extents are empty. -/
def openRoot (addr : LogicAddr) : Option (NBTreeExtentsList V) :=
  let rootLevel := t.rescuePoints.length - 1
  (NBTreeSBlockExtent.new t.bstore t.id addr rootLevel).map fun root =>
    let inner := emptyInner t.id 1 (rootLevel - 1) ++ [root]
    { t with extents := some ⟨.resetLeaf t.id emptyAddr 0, inner⟩ }

/-- Remove the extents killed by retention from the back. -/
def dropKilled : NBTreeExtentsList V :=
  match t.extents with
  | none => t
  | some x =>
    let n := (x.inner.reverse.takeWhile (·.killed)).length
    { t with
      extents := some { x with inner := x.inner.take (x.inner.length - n) }
      rescuePoints := t.rescuePoints.take (t.rescuePoints.length - n) }

end

/-- The first timestamp an operator delivers, 0 if there is none. -/
def firstTimestamp (bs : BlockStore V) (it : RealOp V) : Option Timestamp :=
  (RealOp.read bs (RealOp.depth bs) () it 1).map fun r =>
    if r.status = .ok then (r.out.head?.map Point.ts).getD 0 else minTimestamp

/-- `last_` is the newest timestamp of the topmost extent. -/
def restoreLast (t : NBTreeExtentsList V) : Option (NBTreeExtentsList V) :=
  match t.extents with
  | none => some t
  | some x =>
    (match x.inner.getLast? with
     | some e => some (searchInner e maxTimestamp 0)
     | none => searchLeaf x maxTimestamp 0).bind fun it =>
      (firstTimestamp t.bstore it).map fun last => { t with last }

def openTree (t : NBTreeExtentsList V) : Option (NBTreeExtentsList V) :=
  match t.rescuePoints with
  | [] => none
  | [addr] =>
    (t.openLeaf addr).bind fun (loaded, t) =>
      if loaded then t.dropKilled.restoreLast else some t
  | _ => (t.openRoot (t.rescuePoints.getLastD emptyAddr)).bind fun t => t.dropKilled.restoreLast

/-- Append the references in order, ignoring the answers. -/
def appendAll : List (SubtreeRef V) → NBTreeExtentsList V → Option (NBTreeExtentsList V)
  | [], t => some t
  | ref :: refs, t => (t.rootsAppend t ref).bind fun (_, t) => appendAll refs t

/-- Reference to the node in a block, as `repair` builds it. -/
def refOfBlock (block : Block V) (addr : LogicAddr) : Option (SubtreeRef V × LogicAddr) :=
  if block.header.type = .leaf then
    (IOVecLeaf.ofBlock block).map fun leaf =>
      ({ (initSubtreeFromLeaf leaf).2 with addr }, leaf.prev)
  else
    (IOVecSuperblock.ofBlock block).bind fun node =>
      (initSubtreeFromSubtree node (initSubtreeRef V)).map fun ref => ({ ref with addr }, node.prev)

/-- The loop of `repair` over its stack of addresses; `refs` are the nodes of the
current chain, the newest first. -/
def repairLoop : Nat → List LogicAddr → List (SubtreeRef V) → NBTreeExtentsList V →
    Option (NBTreeExtentsList V)
  | 0, _, _, _ => none
  | _ + 1, [], _, t => some t
  | fuel + 1, curr :: stack, refs, t =>
    if curr = emptyAddr then
      (appendAll refs.reverse t).bind fun t => repairLoop fuel stack [] t
    else
      match t.bstore.readIovecBlock curr with
      | (.ok, some block) =>
        (refOfBlock block curr).bind fun (ref, prev) =>
          repairLoop fuel (prev :: stack) (refs ++ [ref]) t
      | _ => repairLoop fuel (emptyAddr :: stack) refs t

section
variable (t : NBTreeExtentsList V)

/-- A chain that is longer than the store has blocks would never end. -/
def repair : Option (NBTreeExtentsList V) :=
  let n := t.rescuePoints.length
  repairLoop (n * (t.bstore.blocks.length + 3) + 1) t.rescuePoints.reverse []
    { t with extents := some ⟨.resetLeaf t.id emptyAddr 0, emptyInner t.id 1 (n - 1)⟩ }

def init : Option (NBTreeExtentsList V) :=
  let t := { t with initialized := true }
  if t.rescuePoints.isEmpty then some t
  else
    match repairStatus t.rescuePoints with
    | .ok => t.openTree
    | .repair => t.repair

/-- `force_init`, which also every read operation does first. -/
def forceInit : Option (NBTreeExtentsList V) :=
  if t.initialized then some t else t.init

/-! ## Operations -/

/-- The operator and the list after the lazy initialisation. -/
def search (beginTs endTs : Timestamp) : Option (RealOp V × NBTreeExtentsList V) :=
  t.forceInit.bind fun t => (t.searchExtents beginTs endTs).map fun op => (op, t)

/-- The first leaf extent of a new tree. -/
def ensureLeaf : NBTreeExtentsList V :=
  match t.extents with
  | some _ => t
  | none => { t with
      extents := some ⟨.resetLeaf t.id emptyAddr 0, []⟩
      rescuePoints := t.rescuePoints ++ [emptyAddr] }

def append (p : Point) (allowDup : Bool) : Option (NBTreeAppendResult × NBTreeExtentsList V) :=
  t.forceInit.bind fun t =>
    if (if allowDup then decide (p.ts < t.last) else decide (p.ts ≤ t.last)) then
      some (.failLateWrite, t)
    else
      let t := { t with last := p.ts, writeCount := t.writeCount + 1 }.ensureLeaf
      t.extents.bind fun x =>
        (x.leaf.append t.rootsAppend 2 t p).bind fun (_, addr, t, leaf) =>
          let t := t.setLeaf leaf
          if addr ≠ emptyAddr then
            (if 0 < t.rescuePoints.length then t.setRescue 0 addr
             else some { t with rescuePoints := [addr] }).map fun t => (.okFlushNeeded, t)
          else some (.ok, t)

end

/-- The loop of `close` from the given level up: every dirty extent is committed.
The list may grow while it runs. -/
def closeLoop : Nat → Nat → LogicAddr → NBTreeExtentsList V →
    Option (LogicAddr × NBTreeExtentsList V)
  | 0, _, _, _ => none
  | fuel + 1, index, addr, t =>
    match t.extents with
    | none => some (addr, t)
    | some x =>
      if index = 0 then
        if x.leaf.isDirty then
          (x.leaf.commit t.rootsAppend t true).bind fun (_, addr, t, leaf) =>
            closeLoop fuel 1 addr (t.setLeaf leaf)
        else closeLoop fuel 1 addr t
      else
        match x.inner[index - 1]? with
        | none => some (addr, t)
        | some e =>
          if e.isDirty then
            (e.commit t.rootsAppend t true).bind fun (_, addr, t, e) =>
              closeLoop fuel (index + 1) addr (t.setInner (index - 1) e)
          else closeLoop fuel (index + 1) addr t

/-- The list returned by `close` and the closed tree. Each round of the loop
leaves a level behind or replaces a full top level by one with a single
reference above it, which bounds the rounds. -/
def close (t : NBTreeExtentsList V) : Option (List LogicAddr × NBTreeExtentsList V) :=
  (if t.initialized then
    if t.writeCount ≠ 0 then
      (closeLoop (33 * (t.size + 2)) 0 emptyAddr t).bind fun (addr, t) =>
        if t.rescuePoints.isEmpty then none else some { t with
          rescuePoints := List.replicate (t.rescuePoints.length - 1) emptyAddr ++ [addr] }
    else if t.rescuePoints.length = 2 ∧ t.rescuePoints.getLast? = some emptyAddr then
      some { t with rescuePoints := t.rescuePoints.dropLast }
    else some t
   else some t).map fun t => (t.rescuePoints, { t with extents := none, initialized := false })

end NBTreeExtentsList
end FastSTDB
