import FastSTDB.Node
import FastSTDB.Operator

/-
  Iterators — the range scan over a tree (`nbtree.cc`)

  Correspondence (C++ ↔ Lean):
    `NBTreeLeafIterator`                ↔ `LeafIter`, `LeafIter.ofLeaf`
    `NBTreeSBlockIteratorBase<TVal>`    ↔ `SBlockIter V C`, with the type `C` of
                                          its child operators and the virtual
                                          `make_*_iterator` as parameters
    `NBTreeSBlockIterator`, `EmptyIterator`, `ChainOperator`
                                        ↔ the constructors of `RealOp`
    virtual `read`                      ↔ `RealOp.read`

  Operators are values; `read` returns the next state. Recursion into child
  operators is bounded by a depth, the loops by the number of references and
  elements they can consume; `none` is an abort or an exhausted bound.
-/
namespace FastSTDB
open Pull

variable {V : Type}

/-! ## Leaf operators -/

def lowerBound (pts : List Point) (t : Timestamp) : Nat :=
  (pts.takeWhile (fun p => decide (p.ts < t))).length

def upperBound (pts : List Point) (t : Timestamp) : Nat :=
  (pts.takeWhile (fun p => decide (p.ts ≤ t))).length

/-- The points a leaf operator still has to deliver are those of `buf` from
`pos` to `last`. -/
structure LeafIter where
  status : Status
  buf : List Point
  pos : Nat
  last : Nat

namespace LeafIter

def done (status : Status) : LeafIter := ⟨status, [], 0, 0⟩

section
variable (beginTs endTs : Timestamp)

/-- No point of the leaf is within the closed range. -/
def outside (leaf : IOVecLeaf V) : Bool :=
  decide (max beginTs endTs < leaf.getTimestamps.1 ∨ leaf.getTimestamps.2 < min beginTs endTs)

def ofLeaf (leaf : IOVecLeaf V) : Option LeafIter :=
  if outside beginTs endTs leaf then some (done .noData)
  else
    leaf.readAll.map fun (status, pts) =>
      if status ≠ .ok then done status
      else if beginTs < endTs then
        let lb := lowerBound pts beginTs
        ⟨.ok, pts, if lb ≠ pts.length then lb else 0, lowerBound pts endTs⟩
      else
        ⟨.ok, pts.reverse, pts.length - upperBound pts beginTs, pts.length - upperBound pts endTs⟩

end

def getSize (it : LeafIter) : Nat := it.last - it.pos

def read (it : LeafIter) (size : Nat) : Status × List Point × LeafIter :=
  if it.status ≠ .ok then (it.status, [], it)
  else
    let toread := min (it.last - it.pos) size
    if toread = 0 then (.noData, [], it)
    else (.ok, (it.buf.drop it.pos).take toread, { it with pos := it.pos + toread })

end LeafIter

/-! ## Superblock operators -/

def subtreeInRange (ref : SubtreeRef V) (lo hi : Timestamp) : Bool :=
  !decide (ref.endTs < lo ∨ hi < ref.beginTs)

/-- `NBTreeSBlockIteratorBase`: `C` are the child operators. -/
structure SBlockIter (V C : Type) where
  beginTs : Timestamp
  endTs : Timestamp
  addr : LogicAddr
  refs : List (SubtreeRef V)
  iter : Option C
  fsmPos : Nat
  refsPos : Int

namespace SBlockIter
variable {C β Φ : Type}

/-- Operator over a stored superblock, read on first use. -/
def ofAddr (addr : LogicAddr) (beginTs endTs : Timestamp) : SBlockIter V C :=
  ⟨beginTs, endTs, addr, [], none, 0, 0⟩

def startPos (beginTs endTs : Timestamp) (refs : List (SubtreeRef V)) : Int :=
  if beginTs < endTs then 0 else (refs.length : Int) - 1

/-- Operator over a superblock in memory. -/
def ofNode (node : IOVecSuperblock V) (beginTs endTs : Timestamp) : SBlockIter V C :=
  ⟨beginTs, endTs, emptyAddr, node.refs, none, 1, startPos beginTs endTs node.refs⟩

def forward (it : SBlockIter V C) : Bool := decide (it.beginTs < it.endTs)

def init (bs : BlockStore V) (it : SBlockIter V C) : Option (Status × SBlockIter V C) :=
  match bs.readIovecBlock it.addr with
  | (.ok, some block) =>
    (IOVecSuperblock.ofBlock block).map fun current =>
      (.ok, { it with
        refs := current.refs, refsPos := startPos it.beginTs it.endTs current.refs })
  | (status, _) => some (status, it)

/-- The reference under the cursor; the cursor moves on. -/
def nextRef (it : SBlockIter V C) : Option (SubtreeRef V × SBlockIter V C) :=
  if it.forward then
    if it.refsPos = it.refs.length then none
    else it.refs[it.refsPos.toNat]?.map fun ref => (ref, { it with refsPos := it.refsPos + 1 })
  else
    if it.refsPos < 0 then none
    else it.refs[it.refsPos.toNat]?.map fun ref => (ref, { it with refsPos := it.refsPos - 1 })

/-- The virtual methods a derived operator supplies, as functions of its range,
and how its children are read. -/
structure Methods (V C β Φ : Type) where
  makeLeafIterator : Timestamp → Timestamp → Φ → SubtreeRef V → Option (Status × Option C × Φ)
  makeSuperblockIterator :
    Timestamp → Timestamp → Φ → SubtreeRef V → Option (Status × Option C × Φ)
  readChild : Reader Status β C Φ

section
variable (bs : BlockStore V) (m : Methods V C β Φ)

/-- `get_next_iter` for the reference `ref`. -/
def openRef (beginTs endTs : Timestamp) (φ : Φ)
    (ref : SubtreeRef V) : Option (Status × Option C × Φ) :=
  if !bs.contains ref.addr then some (.unavailable, none, φ)
  else if !subtreeInRange ref (min beginTs endTs) (max beginTs endTs) then
    some (.notFound, none, φ)
  else if ref.type = .leaf then m.makeLeafIterator beginTs endTs φ ref
  else m.makeSuperblockIterator beginTs endTs φ ref

def getNextIter (φ : Φ) (it : SBlockIter V C) : Option (Status × SBlockIter V C × Φ) :=
  match it.nextRef with
  | none => some (.noData, { it with iter := none }, φ)
  | some (ref, it) =>
    (openRef bs m it.beginTs it.endTs φ ref).map fun (status, child, φ) =>
      (status, { it with iter := child }, φ)

end

/-- Read from the current child and go on with `loop`, unless it failed. -/
def pull (m : Methods V C β Φ)
    (loop : Φ → SBlockIter V C → Status → List β → Option (Reply β (SBlockIter V C) Φ))
    (size : Nat) (φ : Φ) (it : SBlockIter V C) (out : List β) :
    Option (Reply β (SBlockIter V C) Φ) :=
  it.iter.bind fun child =>
    (m.readChild φ child (size - out.length)).bind fun r =>
      let out := out ++ r.out
      if r.status = .noData ∨ (r.status = .unavailable ∧ it.forward) then
        loop r.env { it with iter := none } r.status out
      else if r.status ≠ .ok then
        some ⟨r.status, out, { it with iter := some r.next }, r.env⟩
      else loop r.env { it with iter := some r.next } r.status out

/-- The loop of `iter`. -/
def iterLoop (bs : BlockStore V) (m : Methods V C β Φ) (size : Nat) :
    Nat → Φ → SBlockIter V C → Status → List β → Option (Reply β (SBlockIter V C) Φ)
  | 0, _, _, _, _ => none
  | fuel + 1, φ, it, status, out =>
    if out.length < size then
      match it.iter with
      | some _ => pull m (iterLoop bs m size fuel) size φ it out
      | none =>
        (getNextIter bs m φ it).bind fun (status, it, φ) =>
          if status = .notFound ∨ status = .unavailable then
            iterLoop bs m size fuel φ it status out
          else if status ≠ .ok then some ⟨status, out, it, φ⟩
          else pull m (iterLoop bs m size fuel) size φ it out
    else some ⟨status, out, it, φ⟩

section
variable (bs : BlockStore V) (m : Methods V C β Φ) (φ : Φ) (it : SBlockIter V C) (size : Nat)

/-- Each round consumes a reference, delivers an element or drops a child. -/
def iterate : Option (Reply β (SBlockIter V C) Φ) :=
  iterLoop bs m size (2 * it.refs.length + 2 * size + 2) φ it .noData []

/-- `read` of the operators that only initialise themselves and iterate. -/
def read : Option (Reply β (SBlockIter V C) Φ) :=
  if it.fsmPos = 0 then
    (it.init bs).bind fun (status, it) =>
      if status ≠ .ok then some ⟨status, [], it, φ⟩
      else iterate bs m φ { it with fsmPos := it.fsmPos + 1 } size
  else iterate bs m φ it size

end

end SBlockIter

/-! ## Chaining -/

/-- The loop of `ChainOperator::read`, with the index of the current operator. -/
def chainLoop {C β : Type} (rd : Reader Status β C Unit) :
    Nat → List C → Nat → Status → List β → Nat → Option (Status × List β × List C × Nat)
  | 0, _, _, _, _, _ => none
  | fuel + 1, iters, index, status, out, size =>
    match iters[index]? with
    | none => some (status, out, iters, index)
    | some it =>
      (rd () it size).bind fun r =>
        let iters := iters.set index r.next
        let out := out ++ r.out
        let size := size - r.out.length
        if size = 0 then some (r.status, out, iters, index)
        else if r.status = .noData ∨ r.status = .unavailable then
          chainLoop rd fuel iters (index + 1) r.status out size
        else if r.status ≠ .ok then some (r.status, out, iters, index)
        else chainLoop rd fuel iters index r.status out size

/-! ## Operators over points -/

inductive RealOp (V : Type) where
  | leaf (it : LeafIter)
  | sblock (it : SBlockIter V (RealOp V))
  | empty
  | chain (iters : List (RealOp V)) (index : Nat)

namespace RealOp
variable [DoubleArith V]

/-- A leaf operator over the block at `ref`. -/
def leafAt (bs : BlockStore V) (ref : SubtreeRef V)
    (k : IOVecLeaf V → Option (RealOp V)) :
    Option (Status × Option (RealOp V) × Unit) :=
  match bs.readIovecBlock ref.addr with
  | (.ok, some block) =>
    (IOVecLeaf.ofBlock block).bind fun leaf =>
      (k leaf).map fun op => (.ok, some op, ())
  | (status, _) => some (status, none, ())

def searchMethods (bs : BlockStore V) (rd : Reader Status Point (RealOp V) Unit) :
    SBlockIter.Methods V (RealOp V) Point Unit where
  makeLeafIterator beginTs endTs _ ref :=
    leafAt bs ref fun leaf => (LeafIter.ofLeaf beginTs endTs leaf).map .leaf
  makeSuperblockIterator beginTs endTs _ ref :=
    some (.ok, some (.sblock (.ofAddr ref.addr beginTs endTs)), ())
  readChild := rd

/-- The virtual `read`, down to `depth` levels of operators. -/
def read (bs : BlockStore V) : Nat → Reader Status Point (RealOp V) Unit
  | 0, _, _, _ => none
  | depth + 1, φ, op, size =>
    match op with
    | .leaf it =>
      let (status, out, it) := it.read size
      some ⟨status, out, .leaf it, φ⟩
    | .sblock it =>
      (SBlockIter.read bs (searchMethods bs (read bs depth)) φ it size).map
        fun r => ⟨r.status, r.out, .sblock r.next, r.env⟩
    | .empty => some ⟨.noData, [], .empty, φ⟩
    | .chain iters index =>
      (chainLoop (read bs depth) (iters.length + size + 1) iters index .noData [] size).map
        fun (status, out, iters, index) => ⟨status, out, .chain iters index, φ⟩

/-- Enough depth for every tree whose nodes are distinct blocks. -/
def depth (bs : BlockStore V) : Nat := bs.blocks.length + 3

end RealOp
end FastSTDB
