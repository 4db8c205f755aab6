import FastSTDB.Extents

/-
  Cascades — an open tree as a list of levels

  `OpenTree` is an open `NBTreeExtentsList` with what all of them have in common
  taken out: there is a leaf extent, one rescue point for each extent, the node of
  level `k + 1` carries the id of the tree and its own level and is writable.
  `OpenTree.list` is the list it stands for.

  On it, `append(SubtreeRef)` is `cascade`, a recursion over the levels from the
  one the reference belongs to: it is added to a level with room; a full level is
  written to the store, its reference goes to the level above, and it starts over
  with the new reference. `appendRef_cascade` connects the two.
-/
namespace FastSTDB
open List Option NBTreeSBlockExtent

variable {V : Type}

theorem nbtreeFanout_pos : 0 < nbtreeFanout := by decide

/-- A superblock extent and the rescue point of its level. The node in memory
would be written with the link `prev` and the index `nodeFanout`; `fanout` is the
index of the extent. -/
structure Level (V : Type) where
  refs : List (SubtreeRef V)
  fits : refs.length ≤ nbtreeFanout
  prev : LogicAddr
  nodeFanout : Nat
  fanout : Nat
  rescue : LogicAddr

namespace Level

def empty : Level V := ⟨[], Nat.zero_le _, emptyAddr, 0, 0, emptyAddr⟩

def push (l : Level V) (pl : SubtreeRef V) (h : l.refs.length < nbtreeFanout) : Level V :=
  { l with refs := l.refs ++ [pl], fits := by rw [length_append]; exact h }

def cleared (l : Level V) (addr : LogicAddr) : Level V where
  refs := []
  fits := Nat.zero_le _
  prev := (nextLink l.fanout addr).1
  nodeFanout := (nextLink l.fanout addr).2
  fanout := (nextLink l.fanout addr).2
  rescue := addr

def node (id : ParamId) (k : Nat) (l : Level V) : IOVecSuperblock V :=
  ⟨l.refs, id, l.nodeFanout, k + 1, l.prev, false⟩

def extent (id : ParamId) (k : Nat) (l : Level V) : NBTreeSBlockExtent V :=
  ⟨l.node id k, l.prev, l.fanout, k + 1, false⟩

variable [DoubleArith V]

def block (id : ParamId) (k : Nat) (l : Level V) : Block V :=
  ⟨{ innerMeta id (k + 1) l.nodeFanout l.refs with
    addr := l.prev, payloadSize := l.refs.length }, .inner l.refs⟩

def ref (id : ParamId) (k : Nat) (l : Level V) (addr : LogicAddr) : SubtreeRef V :=
  { innerMeta id (k + 1) l.nodeFanout l.refs with addr := addr }

end Level

def extentsOf (id : ParamId) : Nat → List (Level V) → List (NBTreeSBlockExtent V)
  | _, [] => []
  | k, l :: ls => l.extent id k :: extentsOf id (k + 1) ls

@[simp] theorem length_extentsOf (id : ParamId) (k : Nat) (ls : List (Level V)) :
    (extentsOf id k ls).length = ls.length := by
  induction ls generalizing k with
  | nil => rfl
  | cons l ls ih => simp [extentsOf, ih]

theorem extentsOf_append (id : ParamId) (k : Nat) (ls ls' : List (Level V)) :
    extentsOf id k (ls ++ ls') = extentsOf id k ls ++ extentsOf id (k + ls.length) ls' := by
  induction ls generalizing k with
  | nil => rfl
  | cons l ls ih =>
    simp only [cons_append, extentsOf, ih, length_cons]
    rw [show k + 1 + ls.length = k + (ls.length + 1) by omega]

theorem getElem?_extentsOf_append (id : ParamId) (pre : List (Level V)) (l : Level V)
    (ls : List (Level V)) :
    (extentsOf id 0 (pre ++ l :: ls))[pre.length]? = some (l.extent id pre.length) := by
  rw [extentsOf_append]
  simp [extentsOf]

theorem set_extentsOf (id : ParamId) (pre : List (Level V)) (l l' : Level V) (ls : List (Level V)) :
    (extentsOf id 0 (pre ++ l :: ls)).set pre.length (l'.extent id pre.length) =
      extentsOf id 0 (pre ++ l' :: ls) := by
  rw [extentsOf_append, extentsOf_append]
  simp [extentsOf]

/-! ## Open trees -/

structure OpenTree (V : Type) where
  bstore : BlockStore V
  id : ParamId
  leaf : NBTreeLeafExtent V
  /-- Rescue point of the leaf level. -/
  rescue : LogicAddr
  levels : List (Level V)
  last : Timestamp
  writeCount : Nat

def OpenTree.list (s : OpenTree V) : NBTreeExtentsList V where
  bstore := s.bstore
  id := s.id
  extents := some ⟨s.leaf, extentsOf s.id 0 s.levels⟩
  last := s.last
  rescuePoints := s.rescue :: s.levels.map Level.rescue
  initialized := true
  writeCount := s.writeCount

variable [DoubleArith V] {l : Level V}

/-! ## Adding a reference -/

/-- Add a reference to a level; the store and the levels from that one on. -/
def cascade (id : ParamId) :
    Nat → BlockStore V → List (Level V) → SubtreeRef V → BlockStore V × List (Level V)
  | _, bs, [], pl => (bs, [Level.empty.push pl nbtreeFanout_pos])
  | k, bs, l :: ls, pl =>
    if h : l.refs.length < nbtreeFanout then (bs, l.push pl h :: ls)
    else
      let (addr, bs) := bs.appendBlock (l.block id k)
      let (bs, ls) := cascade id (k + 1) bs ls (l.ref id k addr)
      (bs, (l.cleared addr).push pl nbtreeFanout_pos :: ls)

namespace NBTreeSBlockExtent

section
variable (roots : RootsAppend V) (fuel : Nat) (t : NBTreeExtentsList V) (id : ParamId) (k : Nat)

theorem append_push (l : Level V) (pl : SubtreeRef V) (h : l.refs.length < nbtreeFanout) :
    (l.extent id k).append roots (fuel + 1) t pl =
      some (false, emptyAddr, t, (l.push pl h).extent id k) := by
  have hfull : (l.extent id k).curr.append pl = (.ok, (l.push pl h).node id k) := by
    simp only [IOVecSuperblock.append, IOVecSuperblock.isFull, Level.extent, Level.node,
      not_le.mpr h]
    rfl
  rw [append, hfull]
  rfl

theorem append_full (l : Level V) (pl : SubtreeRef V) (h : ¬ l.refs.length < nbtreeFanout) :
    (l.extent id k).append roots (fuel + 1) t pl =
      ((l.extent id k).commit roots t false).bind fun (parentSaved, addr, t, e) =>
        (append roots fuel t e pl).map fun (_, _, t, e) => (parentSaved, addr, t, e) := by
  have hfull : (l.extent id k).curr.append pl = (.overflow, l.node id k) := by
    simp [IOVecSuperblock.append, IOVecSuperblock.isFull, Level.extent, Level.node, not_lt.mp h]
  rw [append, hfull]

end

/-- Committing a node: the block is written, the reference goes up unless this is
the last commit of the topmost level. -/
theorem commit_eq (roots : RootsAppend V) (t : NBTreeExtentsList V) (id : ParamId) (k : Nat)
    (hne : l.refs ≠ []) (final : Bool) : (l.extent id k).commit roots t final =
      (let addr := t.bstore.alloc t.bstore.blocks.length
       let t := { t with bstore := (t.bstore.appendBlock (l.block id k)).2 }
       (if !final || k + 1 + 1 < t.rescuePoints.length then roots t (l.ref id k addr)
        else some (false, t)).bind fun (parentSaved, t) =>
          some (parentSaved, addr, t, { l.extent id k with
            curr := .new t.id (nextLink l.fanout addr).1 (nextLink l.fanout addr).2 (k + 1)
            last := (nextLink l.fanout addr).1
            fanoutIndex := (nextLink l.fanout addr).2 })) := by
  have hc : (l.extent id k).curr.commit t.bstore = some (.ok, t.bstore.appendBlock (l.block id k)) :=
    IOVecSuperblock.commit_eq rfl hne t.bstore
  have hp : initSubtreeFromSubtree (l.extent id k).curr (initSubtreeRef V) =
      some { innerMeta id (k + 1) l.nodeFanout l.refs with addr := (initSubtreeRef V).addr } :=
    initSubtreeFromSubtree_eq hne _
  rw [commit, hc]
  simp only [hp]
  rfl

end NBTreeSBlockExtent

namespace NBTreeExtentsList

section
omit [DoubleArith V]

section
variable (s : OpenTree V) {pre ls : List (Level V)} (hs : s.levels = pre ++ l :: ls)
include hs

theorem setInner_list (l' : Level V) : s.list.setInner pre.length (l'.extent s.id pre.length) =
      OpenTree.list { s with levels := pre ++ { l' with rescue := l.rescue } :: ls } := by
  have hext : l'.extent s.id pre.length =
    ({ l' with rescue := l.rescue }).extent s.id pre.length := rfl
  simp only [setInner, OpenTree.list, map_some, hs, hext, set_extentsOf, map_append, map_cons]

theorem setRescue_list (addr : LogicAddr) : s.list.setRescue (pre.length + 1) addr =
      some (OpenTree.list { s with levels := pre ++ { l with rescue := addr } :: ls }) := by
  have hlt : pre.length + 1 < s.list.rescuePoints.length := by simp [OpenTree.list, hs]
  simp only [setRescue, hlt, if_true]
  simp only [OpenTree.list, hs, extentsOf_append]
  congr 2
  simp

theorem rootFor_some : s.list.rootFor pre.length = some (l.extent s.id pre.length, s.list) := by
  simp only [rootFor, OpenTree.list, bind_some, hs, getElem?_extentsOf_append]

end

theorem rootFor_none (s : OpenTree V) {pre : List (Level V)} (hs : s.levels = pre) :
    s.list.rootFor pre.length = some (Level.empty.extent s.id pre.length,
      OpenTree.list { s with levels := pre ++ [.empty] }) := by
  subst hs
  simp only [rootFor, OpenTree.list, bind_some, getElem?_eq_none,
    length_extentsOf, le_refl, extentsOf_append, map_append, zero_add]
  rfl

end

theorem appendRef_cascade (fuel : Nat) (s : OpenTree V) (pre ls : List (Level V))
    (pl : SubtreeRef V) (hs : s.levels = pre ++ ls) (hpl : pl.level = pre.length)
    (hf : ls.length < fuel) :
    ∃ saved w, s.writeCount < w ∧ appendRef fuel s.list pl = some (saved, OpenTree.list { s with
      bstore := (cascade s.id pre.length s.bstore ls pl).1
      levels := pre ++ (cascade s.id pre.length s.bstore ls pl).2
      writeCount := w }) := by
  induction fuel generalizing s pre ls pl with
  | zero => omega
  | succ fuel ih =>
    cases ls with
    | nil =>
      rw [append_nil] at hs
      let s' : OpenTree V := { s with
        levels := pre ++ [.empty], writeCount := s.writeCount + 1 }
      refine ⟨false, s.writeCount + 1, by omega, ?_⟩
      rw [appendRef, hpl, rootFor_none s hs, bind_some]
      show (((Level.empty.extent s.id pre.length).append (appendRef fuel) 2 s'.list pl).bind _) = _
      rw [append_push _ 1 _ _ _ .empty _ nbtreeFanout_pos]
      exact congrArg (fun t => some (false, t)) (setInner_list s' rfl _)
    | cons l ls =>
      let s' : OpenTree V := { s with writeCount := s.writeCount + 1 }
      rw [appendRef, hpl, rootFor_some s hs]
      show ∃ saved w, s.writeCount < w ∧
        (((l.extent s.id pre.length).append (appendRef fuel) 2 s'.list pl).bind _) = _
      by_cases hroom : l.refs.length < nbtreeFanout
      · refine ⟨false, s.writeCount + 1, by omega, ?_⟩
        rw [append_push _ 1 _ _ _ _ _ hroom]
        simp only [cascade, hroom]
        exact congrArg (fun t => some (false, t)) (setInner_list s' hs _)
      · -- the node is written and its reference climbs; the level starts over
        let addr := s.bstore.alloc s.bstore.blocks.length
        let s1 : OpenTree V := { s' with
          bstore := (s.bstore.appendBlock (l.block s.id pre.length)).2 }
        obtain ⟨saved, w, hw, hup⟩ := ih s1 (pre ++ [l]) ls (l.ref s.id pre.length addr)
          (by simp [s1, s', hs]) (by simp [Level.ref, innerMeta]) (by simpa using hf)
        have hne : l.refs ≠ [] := by
          intro h0
          rw [h0] at hroom
          exact hroom nbtreeFanout_pos
        have haddr : addr ≠ emptyAddr := s.bstore.alloc_ne_empty _
        have hcascade : cascade s.id pre.length s.bstore (l :: ls) pl =
            ((cascade s.id (pre.length + 1) s1.bstore ls (l.ref s.id pre.length addr)).1,
              (l.cleared addr).push pl nbtreeFanout_pos ::
                (cascade s.id (pre.length + 1) s1.bstore ls (l.ref s.id pre.length addr)).2) := by
          rw [cascade, dif_neg hroom]
          rfl
        rw [length_append] at hup
        rw [hcascade]
        generalize cascade s.id (pre.length + 1) s1.bstore ls (l.ref s.id pre.length addr) = res
          at hup ⊢
        let s2 : OpenTree V := { s1 with
          bstore := res.1, levels := pre ++ [l] ++ res.2, writeCount := w }
        refine ⟨true, w, by simp only [s1, s'] at hw; omega, ?_⟩
        have hcommit : (l.extent s.id pre.length).commit (appendRef fuel) s'.list false =
            some (saved, addr, s2.list, (l.cleared addr).extent s.id pre.length) := by
          rw [commit_eq _ _ _ _ hne]
          show ((appendRef fuel s1.list (l.ref s.id pre.length addr)).bind _) = _
          rw [hup]
          rfl
        have happ : (l.extent s.id pre.length).append (appendRef fuel) 2 s'.list pl =
            some (saved, addr, s2.list,
              ((l.cleared addr).push pl nbtreeFanout_pos).extent s.id pre.length) := by
          rw [append_full _ 1 _ _ _ _ _ hroom, hcommit]
          rfl
        have hlv : s2.levels = pre ++ l :: res.2 := by simp [s2]
        have hset : s2.list.setInner pre.length (((l.cleared addr).push pl nbtreeFanout_pos).extent
            s.id pre.length) = OpenTree.list { s2 with levels := pre ++
              { (l.cleared addr).push pl nbtreeFanout_pos with rescue := l.rescue } :: res.2 } :=
          setInner_list s2 hlv _
        rw [happ, bind_some]
        simp only [haddr, ne_eq]
        rw [hset, setRescue_list _ rfl addr]
        rfl

end NBTreeExtentsList
end FastSTDB
