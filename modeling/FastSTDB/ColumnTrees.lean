import FastSTDB.Sessions
import Mathlib.Data.List.AList

/-
  Column trees — `ColumnStore` (`column_store.cc`) as it is written and recovered

  The column store has one tree for each series. A tree that is created or opened finds
  its own blocks on the device, and what other trees write there does not concern it;
  so each tree has its own view of the device (`device`), from which its list of extents
  starts.

  Correspondence (C++ ↔ Lean):
    `columns_`                       ↔ `ColumnTrees.columns`
    `open_or_restore`                ↔ `openOrRestore`, over the entries of the map in the
                                       order in which they are visited
    `write`, `recovery_write`        ↔ `write`, `recoveryWrite`, for floats
  A session keeps pointers to the trees it has used; they are the trees of the table.
  `none` stands for an abort in one of the trees.
-/
namespace FastSTDB

variable {V : Type} [DoubleArith V]

abbrev RescueMap := AList fun _ : ParamId => List LogicAddr

structure ColumnTrees (V : Type) where
  device : ParamId → BlockStore V
  columns : AList fun _ : ParamId => NBTreeExtentsList V

/-- A tree without rescue points has nothing to read when it is initialised. -/
def newColumn (id : ParamId) (bs : BlockStore V) : NBTreeExtentsList V :=
  { NBTreeExtentsList.new id [] bs with initialized := true }

namespace ColumnTrees

def start (device : ParamId → BlockStore V) : ColumnTrees V := ⟨device, ∅⟩

def set (id : ParamId) (tree : NBTreeExtentsList V) (c : ColumnTrees V) : ColumnTrees V :=
  { c with columns := c.columns.insert id tree }

def createNewColumn (id : ParamId) (c : ColumnTrees V) : Status × ColumnTrees V :=
  if id ∈ c.columns then (.badArg, c) else (.ok, c.set id (newColumn id (c.device id)))

/-- What `open_or_restore` makes of one entry: the tree, initialised if it has to be repaired or
if `forceInit` is set, and closed again unless it is set. -/
def restoreTree (forceInit : Bool) (id : ParamId) (addrs : List LogicAddr) (bs : BlockStore V) :
    Option (NBTreeExtentsList V) :=
  let tree := .new id addrs bs
  if forceInit then tree.forceInit
  else if NBTreeExtentsList.repairStatus addrs = .repair then
    tree.forceInit.bind fun tree => tree.close.map Prod.snd
  else some tree

/-- The status, the ids that need recovery, and the trees. -/
def openOrRestore (forceInit : Bool) : List (Sigma fun _ : ParamId => List LogicAddr) →
    List ParamId → ColumnTrees V → Option ((Status × List ParamId) × ColumnTrees V)
  | [], ids, c => some ((.ok, ids), c)
  | ⟨id, addrs⟩ :: entries, ids, c =>
    if id ∈ c.columns then some ((.badArg, []), c)
    else
      (restoreTree forceInit id addrs (c.device id)).bind fun tree =>
        openOrRestore forceInit entries
          (if NBTreeExtentsList.repairStatus addrs = .repair then ids ++ [id] else ids)
          (c.set id tree)

/-- The answer of the tree, and its rescue points if they have changed. -/
def write (id : ParamId) (p : Point) (c : ColumnTrees V) :
    Option ((NBTreeAppendResult × List LogicAddr) × ColumnTrees V) :=
  match c.columns.lookup id with
  | none => some ((.failBadId, []), c)
  | some tree =>
    (tree.append p true).map fun (r, tree) =>
      ((r, if r = .okFlushNeeded then tree.rescuePoints else []), c.set id tree)

def recoveryWrite (id : ParamId) (p : Point) (allowDuplicates : Bool) (c : ColumnTrees V) :
    Option (NBTreeAppendResult × ColumnTrees V) :=
  match c.columns.lookup id with
  | none => some (.failBadId, c)
  | some tree => (tree.append p allowDuplicates).map fun (r, tree) => (r, c.set id tree)

end ColumnTrees
end FastSTDB
