import FastSTDB.Extents

/-
  Aggregating operators (`nbtree.cc`, `operators/aggregate.cc`)

  Correspondence (C++ ↔ Lean):
    `NBTreeLeafAggregator`          ↔ `LeafAggregator`
    `ValueAggregator`, `EmptyAggregator`, `NBTreeSBlockAggregatorImpl`,
    `NBTreeSBlockAggregator`, `CombineAggregateOperator`
                                    ↔ the constructors of `AggOp`
    virtual `read`                  ↔ `AggOp.read`
    `aggregate`                     ↔ `NBTreeExtentsList.aggregate`

  All operators below one `NBTreeSBlockAggregator` share a reference to its
  `leftmost_leaf_found_`; the flag is the environment of `read`. `fuel` bounds the
  rounds of a loop.
-/
namespace FastSTDB
open Pull

variable {V : Type} [DoubleArith V]

/-- What an aggregating operator puts out: a timestamp and a result. -/
abbrev AggOut (V : Type) := Timestamp × AggregationResult V

/-! ## Leaf operators -/

structure LeafAggregator (V : Type) where
  iter : LeafIter
  forward : Bool
  enableCachedMetadata : Bool
  metacache : SubtreeRef V

namespace LeafAggregator

/-- The constructor: a leaf inside the range is answered from its metadata. -/
def ofLeaf (beginTs endTs : Timestamp) (leaf : IOVecLeaf V) : Option (LeafAggregator V) :=
  let (nodemin, nodemax) := leaf.getTimestamps
  if min beginTs endTs ≤ nodemin ∧ nodemax < max beginTs endTs then
    some ⟨.done .noData, beginTs < endTs, true, leaf.leafmeta⟩
  else
    (LeafIter.ofLeaf beginTs endTs leaf).map fun iter =>
      ⟨iter, beginTs < endTs, false, initSubtreeRef V⟩

def read (it : LeafAggregator V) (size : Nat) : Status × List (AggOut V) × LeafAggregator V :=
  if size = 0 then (.badArg, [], it)
  else if it.enableCachedMetadata then
    (.ok, [(it.metacache.beginTs, .copyFrom it.metacache)], { it with enableCachedMetadata := false })
  else if it.iter.getSize = 0 then (.noData, [], it)
  else
    let (status, pts, iter) := it.iter.read it.iter.getSize
    let it := { it with iter }
    if status ≠ .ok then (status, [], it)
    else
      match pts with
      | [] => (.noData, [], it)
      | p :: _ => (.ok, [(p.ts, initAggres.doTheMath pts (!it.forward))], it)

end LeafAggregator

/-! ## Superblock operators -/

def szbuf : Nat := 1024

namespace SBlockIter
variable {C Φ : Type}

/-- The loop of `NBTreeSBlockAggregatorImpl::read`; `tss` is the buffer for the
timestamps, of which the one after the last written is used. -/
def aggregateLoop (bs : BlockStore V) (m : Methods V C (AggOut V) Φ) :
    Nat → Φ → SBlockIter V C → List Timestamp → Timestamp → AggregationResult V → Nat →
    Option (Reply (AggOut V) (SBlockIter V C) Φ)
  | 0, _, _, _, _, _, _ => none
  | fuel + 1, φ, it, tss, outts, outxs, nagg =>
    (iterate bs m φ it szbuf).bind fun r =>
      let outsz := r.out.length
      let tss := r.out.map Prod.fst ++ tss.drop outsz
      if (r.status = .ok ∨ r.status = .noData) ∧ outsz ≠ 0 then
        tss[outsz]?.bind fun outts =>
          aggregateLoop bs m fuel r.env r.next tss outts
            (r.out.foldl (fun lhs rhs => lhs.combine rhs.2) outxs) (nagg + 1)
      else if r.status ≠ .ok ∧ r.status ≠ .noData then some ⟨r.status, [], r.next, r.env⟩
      else some ⟨r.status, if nagg ≠ 0 then [(outts, outxs)] else [], r.next, r.env⟩

/-- `read` of an operator that loads its superblock on first use. -/
def readInit (bs : BlockStore V) (φ : Φ) (it : SBlockIter V C)
    (k : SBlockIter V C → Option (Reply (AggOut V) (SBlockIter V C) Φ)) :
    Option (Reply (AggOut V) (SBlockIter V C) Φ) :=
  if it.fsmPos = 0 then
    (it.init bs).bind fun (status, it) =>
      if status ≠ .ok then some ⟨status, [], it, φ⟩
      else k { it with fsmPos := it.fsmPos + 1 }
  else k it

def readAggregate (bs : BlockStore V) (m : Methods V C (AggOut V) Φ) (fuel : Nat) (φ : Φ)
    (it : SBlockIter V C) (size : Nat) : Option (Reply (AggOut V) (SBlockIter V C) Φ) :=
  if size = 0 then some ⟨.badArg, [], it, φ⟩
  else
    readInit bs φ it fun it =>
      aggregateLoop bs m fuel φ it (List.replicate szbuf 0) 0 initAggres 0

end SBlockIter

/-! ## Combining operators -/

section Combine
variable {C Φ : Type}

/-- The loop of `CombineAggregateOperator::read`. -/
def combineLoop (rd : Reader Status (AggOut V) C Φ) :
    Nat → Φ → List C → Nat → Timestamp → AggregationResult V → Nat →
    Option (Reply (AggOut V) (List C × Nat) Φ)
  | 0, _, _, _, _, _, _ => none
  | fuel + 1, φ, iters, index, ts, xs, nagg =>
    match iters[index]? with
    | none => some ⟨.ok, if nagg ≠ 0 then [(ts, xs)] else [], (iters, index), φ⟩
    | some it =>
      (rd φ it szbuf).bind fun r =>
        let iters := iters.set index r.next
        let xs := r.out.foldl (fun lhs rhs => lhs.combine rhs.2) xs
        let ts := (r.out.getLast?.map Prod.fst).getD ts
        let nagg := if r.out.length ≠ 0 then nagg + 1 else nagg
        if r.status = .noData then combineLoop rd fuel r.env iters (index + 1) ts xs nagg
        else if r.status ≠ .ok then some ⟨r.status, [], (iters, index), r.env⟩
        else combineLoop rd fuel r.env iters index ts xs nagg

end Combine

/-! ## Operators over aggregates -/

inductive AggOp (V : Type) where
  | leaf (it : LeafAggregator V)
  | value (ts : Timestamp) (val : AggregationResult V) (forward used : Bool)
  | sblock (it : SBlockIter V (AggOp V))
  | sblockTop (leftmostLeafFound : Bool) (impl : SBlockIter V (AggOp V))
  | empty (forward : Bool)
  | combine (iters : List (AggOp V)) (index : Nat)

namespace AggOp

/-- A leaf operator over the block at `ref`. -/
def leafAt {Φ : Type} (bs : BlockStore V) (ref : SubtreeRef V) (φ φ' : Φ)
    (k : IOVecLeaf V → Option (AggOp V)) : Option (Status × Option (AggOp V) × Φ) :=
  match bs.readIovecBlock ref.addr with
  | (.ok, some block) =>
    (IOVecLeaf.ofBlock block).bind fun leaf => (k leaf).map fun op => (.ok, some op, φ')
  | (status, _) => some (status, none, φ)

/-- `NBTreeSBlockAggregatorImpl`: the metadata of a subtree inside the range may be
outdated until a leaf has been found. -/
def aggregateMethods (bs : BlockStore V) (rd : Reader Status (AggOut V) (AggOp V) Bool) :
    SBlockIter.Methods V (AggOp V) (AggOut V) Bool where
  makeLeafIterator beginTs endTs φ ref :=
    if !bs.contains ref.addr then some (.unavailable, none, φ)
    else leafAt bs ref φ true fun leaf => (LeafAggregator.ofLeaf beginTs endTs leaf).map .leaf
  makeSuperblockIterator beginTs endTs φ ref :=
    if !bs.contains ref.addr then some (.unavailable, none, φ)
    else if φ && decide (min beginTs endTs ≤ ref.beginTs ∧ ref.endTs < max beginTs endTs) then
      some (.ok, some (.value ref.endTs (.copyFrom ref) (beginTs < endTs) false), φ)
    else some (.ok, some (.sblock (.ofAddr ref.addr beginTs endTs)), φ)
  readChild := rd

/-- The virtual `read`, down to `depth` levels of operators. -/
def read (bs : BlockStore V) (fuel : Nat) : Nat → Reader Status (AggOut V) (AggOp V) Bool
  | 0, _, _, _ => none
  | depth + 1, φ, op, size =>
    match op with
    | .leaf it =>
      let (status, out, it) := it.read size
      some ⟨status, out, .leaf it, φ⟩
    | .value ts val fwd used =>
      if size = 0 then some ⟨.badArg, [], op, φ⟩
      else if used then some ⟨.noData, [], op, φ⟩
      else some ⟨.ok, [(ts, val)], .value ts val fwd true, φ⟩
    | .sblock it =>
      (it.readAggregate bs (aggregateMethods bs (read bs fuel depth)) fuel φ size).map
        fun r => ⟨r.status, r.out, .sblock r.next, r.env⟩
    | .sblockTop leftmost impl =>
      (impl.readAggregate bs (aggregateMethods bs (read bs fuel depth)) fuel leftmost size).map
        fun r => ⟨r.status, r.out, .sblockTop r.env r.next, φ⟩
    | .empty _ => some ⟨.noData, [], op, φ⟩
    | .combine iters index =>
      if size = 0 then some ⟨.badArg, [], op, φ⟩
      else if index = iters.length then some ⟨.noData, [], op, φ⟩
      else
        (combineLoop (read bs fuel depth) fuel φ iters index 0 initAggres 0).map
          fun r => ⟨r.status, r.out, .combine r.next.1 r.next.2, r.env⟩

end AggOp

/-! ## Extents lists -/

namespace NBTreeExtentsList

def aggregateInner (e : NBTreeSBlockExtent V) (beginTs endTs : Timestamp) : AggOp V :=
  let lo := min beginTs endTs
  let hi := max beginTs endTs
  .sblockTop (decide (lo = minTimestamp ∧ hi = maxTimestamp)) (.ofNode e.curr lo hi)

/-- A single operator stands for itself. -/
def combineOf (leaf : AggOp V) (inner : List (AggOp V)) (forward : Bool) : AggOp V :=
  match inner with
  | [] => leaf
  | _ => .combine (if forward then (leaf :: inner).reverse else leaf :: inner) 0

def aggregateExtents (t : NBTreeExtentsList V) (beginTs endTs : Timestamp) : Option (AggOp V) :=
  match t.extents with
  | none => some (.empty (beginTs < endTs))
  | some x =>
    (LeafAggregator.ofLeaf beginTs endTs x.leaf.leaf).map fun leaf =>
      combineOf (.leaf leaf) (x.inner.map (aggregateInner · beginTs endTs)) (beginTs < endTs)

def aggregate (t : NBTreeExtentsList V) (beginTs endTs : Timestamp) :
    Option (AggOp V × NBTreeExtentsList V) :=
  t.forceInit.bind fun t => (t.aggregateExtents beginTs endTs).map fun op => (op, t)

end NBTreeExtentsList
end FastSTDB
