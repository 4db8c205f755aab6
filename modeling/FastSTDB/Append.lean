import FastSTDB.Cascade
import FastSTDB.Subtree

/-
  Appending — what an open tree holds

  `Stores bs id k ls leaves`: the levels from `k + 1` on refer to the stored
  leaves `leaves`, the oldest first; a level higher up holds older leaves. An open
  tree holds the points of its stored leaves and then those of its open leaf
  (`OpenTree.Holds`). `Appended` says what one `append` does to an open tree:
  the point is late and nothing changes, it goes to the open leaf, or the open
  leaf is written, cascades into the levels, and a new leaf is started.
-/
namespace FastSTDB
open List Option IOVecLeaf OpenTree

variable {V : Type} [DoubleArith V]
variable {id : ParamId} {n : Nat} {pts tail tail' : List Point} {s s' : OpenTree V}
  {leaves new : List StoredLeaf} {p : Point} {allowDup : Bool} {r : NBTreeAppendResult}

/-! ## Levels -/

/-- The levels from `k + 1` on hold references to `leaves`. -/
def Stores (bs : BlockStore V) (id : ParamId) : Nat → List (Level V) → List StoredLeaf → Prop
  | _, [], leaves => leaves = []
  | k, l :: ls, leaves => ∃ upper groups, leaves = upper ++ groups.flatten ∧
      Forall₂ (Sub bs id k) l.refs groups ∧ Stores bs id (k + 1) ls upper

theorem Stores.mono {bs bs' : BlockStore V} (h : bs.Extends bs') :
    ∀ {ls : List (Level V)} {k : Nat} {leaves : List StoredLeaf},
      Stores bs id k ls leaves → Stores bs' id k ls leaves
  | [], _, _, hs => hs
  | _ :: _, _, _, ⟨upper, groups, hl, hall, hup⟩ =>
    ⟨upper, groups, hl, hall.imp (fun _ _ hs => hs.mono h), hup.mono h⟩

theorem Level.sub_block {bs : BlockStore V} {k : Nat} {l : Level V}
    {groups : List (List StoredLeaf)} (hne : l.refs ≠ [])
    (hall : Forall₂ (Sub bs id k) l.refs groups) : Sub (bs.appendBlock (l.block id k)).2 id (k + 1)
      (l.ref id k (bs.alloc bs.blocks.length)) groups.flatten := by
  refine ⟨bs.blocks.length, l.nodeFanout, l.prev, l.refs, groups, appendBlock_getElem? _, hne,
    l.fits, rfl, ?_, hall.imp (fun _ _ hs => hs.mono (bs.extends_appendBlock _)), rfl⟩
  intro r hr
  obtain ⟨g, -, hsub⟩ := Pairs.exists_right hall hr
  obtain ⟨j, hj, haddr, -⟩ := hsub.block
  exact ⟨j, hj, haddr⟩

/-- The topmost level is not empty and its node has no link. -/
def TopUsed (ls : List (Level V)) : Prop :=
  ∀ l, ls.getLast? = some l → l.refs ≠ [] ∧ l.prev = emptyAddr

/-- `bs'` has new blocks, none of them a leaf, and nothing expired. -/
structure BlockStore.Grows (bs bs' : BlockStore V) : Prop where
  ext : bs.Extends bs'
  expired : bs'.removedBelow = bs.removedBelow
  leaves : ∀ n, n ≤ bs.blocks.length → bs'.leavesFrom n = bs.leavesFrom n

omit [DoubleArith V] in
theorem BlockStore.Grows.refl (bs : BlockStore V) : bs.Grows bs :=
  ⟨.refl bs, rfl, fun _ _ => rfl⟩

omit [DoubleArith V] in
theorem BlockStore.Grows.trans {bs bs' bs'' : BlockStore V} (h : bs.Grows bs')
    (h' : bs'.Grows bs'') : bs.Grows bs'' where
  ext := h.ext.trans h'.ext
  expired := h'.expired.trans h.expired
  leaves n hn := by
    rw [h'.leaves n (hn.trans h.ext.2.length_le), h.leaves n hn]

theorem grows_block (bs : BlockStore V) (id : ParamId) (k : Nat) (l : Level V) :
    bs.Grows (bs.appendBlock (l.block id k)).2 where
  ext := bs.extends_appendBlock _
  expired := rfl
  leaves n hn := by
    rw [leavesFrom_appendBlock _ hn]
    exact append_nil _

/-- All a cascade does to the store is to write the nodes of full levels. -/
theorem cascade_grows (id : ParamId) : ∀ (ls : List (Level V)) (k : Nat) (bs : BlockStore V)
    (pl : SubtreeRef V), bs.Grows (cascade id k bs ls pl).1
  | [], _, bs, _ => .refl bs
  | l :: ls, k, bs, pl => by
    rw [cascade]
    by_cases hroom : l.refs.length < nbtreeFanout
    · rw [dif_pos hroom]
      exact .refl bs
    · rw [dif_neg hroom]
      exact (grows_block bs id k l).trans (cascade_grows id ls (k + 1) _ _)

/-- A cascade adds the leaves of the new subtree after the others. -/
theorem cascade_stores : ∀ {ls : List (Level V)} {k : Nat} {bs : BlockStore V}
    {pl : SubtreeRef V} {leaves new : List StoredLeaf}, Stores bs id k ls leaves →
    Sub bs id k pl new →
      Stores (cascade id k bs ls pl).1 id k (cascade id k bs ls pl).2 (leaves ++ new)
  | [], k, bs, pl, leaves, new, hs, hpl => by
    obtain rfl : leaves = [] := hs
    exact ⟨[], [new], by simp, .cons hpl .nil, rfl⟩
  | l :: ls, k, bs, pl, leaves, new, ⟨upper, groups, hl, hall, hup⟩, hpl => by
    have hext := (cascade_grows id (l :: ls) k bs pl).ext
    rw [cascade] at hext ⊢
    by_cases hroom : l.refs.length < nbtreeFanout
    · rw [dif_pos hroom]
      refine ⟨upper, groups ++ [new], ?_, Pairs.concat hall hpl, hup⟩
      rw [hl]
      simp
    · rw [dif_neg hroom] at hext ⊢
      have hne : l.refs ≠ [] := fun h0 => hroom (by rw [h0]; exact nbtreeFanout_pos)
      have hst := cascade_stores (hup.mono (bs.extends_appendBlock (l.block id k)))
        (Level.sub_block hne hall)
      refine ⟨upper ++ groups.flatten, [new], ?_, .cons (hpl.mono hext) .nil, hst⟩
      rw [hl]
      simp

theorem cascade_ne_nil (id : ParamId) (k : Nat) (bs : BlockStore V) (ls : List (Level V))
    (pl : SubtreeRef V) : (cascade id k bs ls pl).2 ≠ [] := by
  cases ls with
  | nil => exact cons_ne_nil _ _
  | cons l ls =>
    rw [cascade]
    split <;> exact cons_ne_nil _ _

theorem cascade_topUsed : ∀ {ls : List (Level V)} {k : Nat} {bs : BlockStore V}
    {pl : SubtreeRef V}, TopUsed ls → TopUsed (cascade id k bs ls pl).2
  | [], k, bs, pl, _ => by
    intro l hl
    obtain rfl : Level.empty.push pl nbtreeFanout_pos = l := by simpa [cascade] using hl
    exact ⟨cons_ne_nil _ _, rfl⟩
  | l :: ls, k, bs, pl, h => by
    rw [cascade]
    by_cases hroom : l.refs.length < nbtreeFanout
    · rw [dif_pos hroom]
      intro l' hl'
      cases ls with
      | nil =>
        obtain rfl : l.push pl hroom = l' := by simpa using hl'
        exact ⟨by simp [Level.push], (h l rfl).2⟩
      | cons l2 ls => exact h l' hl'
    · rw [dif_neg hroom]
      intro l' hl'
      rw [getLast?_cons_of_ne_nil (cascade_ne_nil _ _ _ _ _)] at hl'
      exact cascade_topUsed (fun l2 hl2 => h l2 (by
        cases ls with
        | nil => cases hl2
        | cons _ _ => exact hl2)) l' hl'

/-! ## The leaf extent -/

def leafRef (id : ParamId) (fanout : Nat) (pts : List Point) (addr : LogicAddr) : SubtreeRef V :=
  { leafMeta id fanout pts with addr := addr }

def NBTreeLeafExtent.cleared (e : NBTreeLeafExtent V) (id : ParamId) (addr : LogicAddr) :
    NBTreeLeafExtent V :=
  .resetLeaf id (nextLink e.fanoutIndex addr).1 (nextLink e.fanoutIndex addr).2

variable {t : NBTreeExtentsList V}

/-- Committing a leaf: the block is written, the reference goes up unless this is
the last commit of a tree that has no other level. -/
theorem NBTreeLeafExtent.commit_eq {e : NBTreeLeafExtent V} (h : e.leaf.Has t.id pts)
    (hf : e.leaf.fanoutIndex = e.fanoutIndex) (hne : pts ≠ []) :
    ∃ block, LeafAt (t.bstore.appendBlock block).2 t.id t.bstore.blocks.length
      e.fanoutIndex e.leaf.link pts ∧ ∀ roots final, e.commit roots t final =
        (let addr := t.bstore.alloc t.bstore.blocks.length
         let t := { t with bstore := (t.bstore.appendBlock block).2 }
         (if !final || 1 < t.rescuePoints.length then roots t (leafRef t.id e.fanoutIndex pts addr)
          else some (false, t)).bind fun (saved, t) =>
            some (saved, addr, t, e.cleared t.id addr)) := by
  obtain ⟨leaf, block, hc, hs, hat⟩ := IOVecLeaf.commit_spec h hne t.bstore
  rw [hf] at hat hs
  refine ⟨block, hat, fun roots final => ?_⟩
  have hlevel : (leafMeta t.id e.fanoutIndex pts : SubtreeRef V).level = 0 :=
    (leafMeta_fixed t.id e.fanoutIndex pts).2.2.2.1
  rw [commit, hc, bind_some]
  simp only [hs, leafRef, hlevel]
  rfl

/-! ## Open trees -/

namespace OpenTree

/-- The tree holds the points of `leaves`, then those of its open leaf. -/
structure Holds (s : OpenTree V) (leaves : List StoredLeaf) (tail : List Point) : Prop where
  leaf : s.leaf.leaf.Accepts s.id tail
  prev : s.leaf.leaf.prev = s.leaf.last
  fanout : s.leaf.leaf.fanoutIndex = s.leaf.fanoutIndex
  levels : Stores s.bstore s.id 0 s.levels leaves
  top : TopUsed s.levels
  single : s.levels = [] → s.leaf.last = emptyAddr

/-- The tree after the points `pts` of its open leaf were written as `block`. -/
def flushed (s : OpenTree V) (block : Block V) (pts : List Point) (w : Nat) : OpenTree V :=
  let addr := s.bstore.alloc s.bstore.blocks.length
  let c := cascade s.id 0 (s.bstore.appendBlock block).2 s.levels
    (leafRef s.id s.leaf.fanoutIndex pts addr)
  { s with
    bstore := c.1
    leaf := s.leaf.cleared s.id addr
    levels := c.2
    writeCount := w }

theorem flushed_bstore (block : Block V) (w : Nat) :
    s.bstore.Extends (s.flushed block pts w).bstore ∧
      (s.flushed block pts w).bstore.removedBelow = s.bstore.removedBelow := by
  have hgrow := cascade_grows s.id s.levels 0 (s.bstore.appendBlock block).2
    (leafRef s.id s.leaf.fanoutIndex pts (s.bstore.alloc s.bstore.blocks.length))
  exact ⟨(s.bstore.extends_appendBlock block).trans hgrow.ext, hgrow.expired⟩

theorem flushed_stores {block : Block V} {link : LogicAddr} (w : Nat)
    (h : Stores s.bstore s.id 0 s.levels leaves)
    (hat : LeafAt (s.bstore.appendBlock block).2 s.id s.bstore.blocks.length s.leaf.fanoutIndex link pts)
    (hne : pts ≠ []) : Stores (s.flushed block pts w).bstore s.id 0 (s.flushed block pts w).levels
      (leaves ++ [⟨s.bstore.alloc s.bstore.blocks.length, pts⟩]) :=
  cascade_stores (h.mono (s.bstore.extends_appendBlock block)) (hat.sub hne)

theorem flushed_leavesFrom {block : Block V} {link : LogicAddr}
    (hat : LeafAt (s.bstore.appendBlock block).2 s.id s.bstore.blocks.length s.leaf.fanoutIndex link pts)
    (w : Nat) (hn : n ≤ s.bstore.blocks.length) : (s.flushed block pts w).bstore.leavesFrom n =
        s.bstore.leavesFrom n ++ [⟨s.bstore.alloc s.bstore.blocks.length, pts⟩] ∧
      n ≤ (s.flushed block pts w).bstore.blocks.length := by
  have hgrow := cascade_grows s.id s.levels 0 (s.bstore.appendBlock block).2
    (leafRef s.id s.leaf.fanoutIndex pts (s.bstore.alloc s.bstore.blocks.length))
  refine ⟨(hgrow.leaves n (hn.trans (s.bstore.extends_appendBlock block).2.length_le)).trans ?_,
    hn.trans (flushed_bstore block w).1.2.length_le⟩
  rw [leavesFrom_appendBlock _ hn, hat.storedLeaf (appendBlock_getElem? _)]
  rfl

/-- The commit of the open leaf, unless it is the last of a tree without other
levels. -/
theorem commit_leaf {leaf : IOVecLeaf V} (h : leaf.Has s.id pts)
    (hf : leaf.fanoutIndex = s.leaf.fanoutIndex) (hne : pts ≠ []) (final : Bool)
    (hup : final = false ∨ s.levels ≠ []) :
    ∃ block w saved, LeafAt (s.bstore.appendBlock block).2 s.id s.bstore.blocks.length
        s.leaf.fanoutIndex leaf.link pts ∧ s.writeCount < w ∧
      ({ s.leaf with leaf } : NBTreeLeafExtent V).commit s.list.rootsAppend s.list final =
        some (saved, s.bstore.alloc s.bstore.blocks.length,
          list { s.flushed block pts w with leaf := s.leaf }, (s.flushed block pts w).leaf) := by
  obtain ⟨block, hat, hcommit⟩ := NBTreeLeafExtent.commit_eq (t := s.list)
    (e := { s.leaf with leaf }) h hf hne
  let addr := s.bstore.alloc s.bstore.blocks.length
  let s1 : OpenTree V := { s with bstore := (s.bstore.appendBlock block).2 }
  obtain ⟨saved, w, hw, hroots⟩ := NBTreeExtentsList.appendRef_cascade (s.list.size + 1) s1 []
    s.levels (leafRef s.id s.leaf.fanoutIndex pts addr) rfl
    (leafMeta_fixed s.id s.leaf.fanoutIndex pts).2.2.2.1 (by
      simp only [NBTreeExtentsList.size, list, length_extentsOf]; omega)
  refine ⟨block, w, saved, hat, hw, ?_⟩
  have hcond : (!final || decide (1 < s.list.rescuePoints.length)) = true := by
    rcases hup with rfl | hl
    · rfl
    · have := length_pos_iff.mpr hl
      simp only [list, length_cons, length_map, Bool.or_eq_true, decide_eq_true_eq]
      right; omega
  rw [hcommit]
  show ((if (!final || decide (1 < s.list.rescuePoints.length)) = true then
    NBTreeExtentsList.appendRef (s.list.size + 1) s1.list _ else _).bind _) = _
  rw [if_pos hcond]
  erw [hroots]
  rfl

section
variable (s : OpenTree V) (p : Point)

def late (allowDup : Bool) : Bool :=
  if allowDup then decide (p.ts < s.last) else decide (p.ts ≤ s.last)

/-- The tree after a point that fits into the open leaf. -/
def pushed (leaf : IOVecLeaf V) : OpenTree V :=
  { s with leaf := { s.leaf with leaf }, last := p.ts, writeCount := s.writeCount + 1 }

/-- The tree after a point that starts a new leaf. -/
def spilled (leaf : IOVecLeaf V) (block : Block V) (pts : List Point) (w : Nat) : OpenTree V :=
  { s.flushed block pts w with
    leaf := { (s.flushed block pts w).leaf with leaf }
    rescue := s.bstore.alloc s.bstore.blocks.length
    last := p.ts }

end

theorem append_eq (h : s.late p allowDup = false) : s.list.append p allowDup =
      (let s1 : OpenTree V := { s with last := p.ts, writeCount := s.writeCount + 1 }
       (s.leaf.append s1.list.rootsAppend 2 s1.list p).bind fun (_, addr, t, leaf) =>
        let t := t.setLeaf leaf
        if addr ≠ emptyAddr then (if 0 < t.rescuePoints.length then t.setRescue 0 addr
           else some { t with rescuePoints := [addr] }).map fun t => (.okFlushNeeded, t)
        else some (.ok, t)) := by
  unfold late at h
  show (if (if allowDup = true then decide (p.ts < s.last) else decide (p.ts ≤ s.last)) = true
    then _ else _) = _
  rw [h]
  rfl

/-- One append to a tree whose open leaf holds `tail`: the answer, the tree
afterwards, the leaves written and the points of the open leaf. -/
inductive Appended (s : OpenTree V) (tail : List Point) (p : Point) (allowDup : Bool) :
    NBTreeAppendResult → OpenTree V → List StoredLeaf → List Point → Prop where
  | late (h : s.late p allowDup = true) : Appended s tail p allowDup .failLateWrite s [] tail
  | pushed (h : s.late p allowDup = false) {leaf : IOVecLeaf V}
      (hacc : leaf.Accepts s.id (tail ++ [p])) (hprev : leaf.prev = s.leaf.leaf.prev)
      (hfan : leaf.fanoutIndex = s.leaf.leaf.fanoutIndex) :
      Appended s tail p allowDup .ok (s.pushed p leaf) [] (tail ++ [p])
  | spilled (h : s.late p allowDup = false ∧ (s.leaf.leaf.append p).1 = .overflow)
      (hne : tail ≠ []) {leaf : IOVecLeaf V}
      {block : Block V} {w : Nat} (hw : s.writeCount < w)
      (hat : LeafAt (s.bstore.appendBlock block).2 s.id s.bstore.blocks.length s.leaf.fanoutIndex
        s.leaf.leaf.link tail)
      (hacc : leaf.Accepts s.id [p]) (hprev : leaf.prev = (s.flushed block tail w).leaf.last)
      (hfan : leaf.fanoutIndex = (s.flushed block tail w).leaf.fanoutIndex) :
      Appended s tail p allowDup .okFlushNeeded (s.spilled p leaf block tail w)
        [⟨s.bstore.alloc s.bstore.blocks.length, tail⟩] [p]

theorem append_step (h : s.Holds leaves tail) (p : Point) (allowDup : Bool) :
    ∃ r s' new tail', s.Appended tail p allowDup r s' new tail' ∧
      s.list.append p allowDup = some (r, s'.list) := by
  cases hlate : s.late p allowDup with
  | true =>
    refine ⟨_, s, _, _, .late hlate, ?_⟩
    unfold late at hlate
    show (if (if allowDup = true then decide (p.ts < s.last) else decide (p.ts ≤ s.last)) = true
      then _ else _) = _
    rw [hlate]
    rfl
  | false =>
    let s1 : OpenTree V := { s with last := p.ts, writeCount := s.writeCount + 1 }
    rw [append_eq hlate]
    rcases append_spec h.leaf p with ⟨leaf, happ, hacc, hprev, hfan⟩ |
      ⟨leaf, happ, hhas, hne, hprev, hfan⟩
    · refine ⟨_, _, _, _, .pushed hlate hacc hprev hfan, ?_⟩
      have hleaf : s.leaf.append s1.list.rootsAppend 2 s1.list p =
          some (false, emptyAddr, s1.list, { s.leaf with leaf }) := by
        rw [NBTreeLeafExtent.append, happ]
      simp only
      rw [hleaf]
      rfl
    · have haddr : s.bstore.alloc s.bstore.blocks.length ≠ emptyAddr := s.bstore.alloc_ne_empty _
      obtain ⟨block, w, saved, hat, hw, hcommit⟩ := commit_leaf (s := s1) hhas
        (hfan.trans h.fanout) hne false (.inl rfl)
      obtain ⟨leaf', happ', hacc, hprev', hfan'⟩ := append_new (V := V) s.id
        (s1.flushed block tail w).leaf.last (s1.flushed block tail w).leaf.fanoutIndex p
      have hlink : leaf.link = s.leaf.leaf.link := by rw [link, link, hprev, hfan]
      rw [hlink] at hat
      refine ⟨_, _, _, _, .spilled ⟨hlate, by rw [happ]⟩ hne (Nat.lt_of_succ_lt hw) hat hacc hprev'
        hfan', ?_⟩
      have hleaf : s.leaf.append s1.list.rootsAppend 2 s1.list p =
          some (saved, s.bstore.alloc s.bstore.blocks.length,
            list { s1.flushed block tail w with leaf := s.leaf },
            { (s1.flushed block tail w).leaf with leaf := leaf' }) := by
        rw [NBTreeLeafExtent.append, happ]
        simp only
        rw [hcommit, bind_some]
        rw [NBTreeLeafExtent.append]
        have hnew : (s1.flushed block tail w).leaf.leaf.append p = (.ok, leaf') := happ'
        rw [hnew]
        rfl
      simp only
      rw [hleaf]
      simp only [bind_some, haddr, ne_eq]
      rfl

theorem Appended.holds (h : s.Holds leaves tail) (ha : s.Appended tail p allowDup r s' new tail') :
    s'.Holds (leaves ++ new) tail' := by
  cases ha with
  | late _ => rw [append_nil]; exact h
  | pushed _ hacc hprev hfan =>
    rw [append_nil]
    exact ⟨hacc, hprev.trans h.prev, hfan.trans h.fanout, h.levels, h.top, h.single⟩
  | @spilled _ hne leaf block w _ hat hacc hprev hfan =>
    exact ⟨hacc, hprev, hfan, flushed_stores w h.levels hat hne, cascade_topUsed h.top,
      fun hnil => absurd hnil (cascade_ne_nil _ _ _ _ _)⟩

section
variable (ha : s.Appended tail p allowDup r s' new tail')
include ha

theorem Appended.late_of_nil (hnil : tail' = []) : tail = [] ∧ s.late p allowDup = true := by
  cases ha with
  | late hlate => exact ⟨hnil, hlate⟩
  | pushed _ _ _ _ => exact absurd hnil (append_ne_nil_of_right_ne_nil _ (cons_ne_nil p []))
  | spilled _ _ _ _ _ _ _ => cases hnil

theorem Appended.bstore :
    s.bstore.Extends s'.bstore ∧ s'.bstore.removedBelow = s.bstore.removedBelow := by
  cases ha with
  | late _ => exact ⟨.refl _, rfl⟩
  | pushed _ _ _ _ => exact ⟨.refl _, rfl⟩
  | @spilled _ _ _ block w _ _ _ _ _ => exact flushed_bstore block w

theorem Appended.leavesFrom (hn : n ≤ s.bstore.blocks.length) :
    s'.bstore.leavesFrom n = s.bstore.leavesFrom n ++ new ∧ n ≤ s'.bstore.blocks.length := by
  cases ha with
  | late _ => exact ⟨(append_nil _).symm, hn⟩
  | pushed _ _ _ _ => exact ⟨(append_nil _).symm, hn⟩
  | @spilled _ _ leaf block w _ hat _ _ _ => exact flushed_leavesFrom hat w hn

theorem Appended.points_eq :
    points new ++ tail' = tail ++ if r = .failLateWrite then [] else [p] := by
  cases ha with
  | late _ => simp [points]
  | pushed _ _ _ _ => simp [points]
  | spilled _ _ _ _ _ _ _ => simp [points]

/-- A point is refused when it is late, and otherwise becomes the newest. -/
theorem Appended.accepts : s.late p allowDup = true ∧ r = .failLateWrite ∧ s'.last = s.last ∨
      s.late p allowDup = false ∧ r ≠ .failLateWrite ∧ s'.last = p.ts := by
  cases ha with
  | late h => exact .inl ⟨h, rfl, rfl⟩
  | pushed h _ _ _ => exact .inr ⟨h, by simp, rfl⟩
  | spilled h _ _ _ _ _ _ => exact .inr ⟨h.1, by simp, rfl⟩

theorem Appended.last : r = .failLateWrite ∧ s'.last = s.last ∨
      r ≠ .failLateWrite ∧ s'.last = p.ts ∧ s.last ≤ p.ts := by
  have hle : s.late p allowDup = false → s.last ≤ p.ts := by
    intro h
    unfold OpenTree.late at h
    cases allowDup with
    | true => simpa using h
    | false => exact le_of_lt (by simpa using h)
  rcases ha.accepts with ⟨-, hr, hl⟩ | ⟨hlate, hr, hl⟩
  · exact .inl ⟨hr, hl⟩
  · exact .inr ⟨hr, hl, hle hlate⟩

end

/-! ## Fresh trees -/

def fresh (bs : BlockStore V) (id : ParamId) : OpenTree V :=
  ⟨bs, id, .resetLeaf id emptyAddr 0, emptyAddr, [], 0, 0⟩

theorem fresh_holds (bs : BlockStore V) : (fresh bs id).Holds [] [] :=
  ⟨accepts_new _, rfl, rfl, rfl, (fun _ h => by cases h), fun _ => rfl⟩

/-- The list is the open tree, or a new list that has not got its first extent. -/
def Shows (t : NBTreeExtentsList V) (s : OpenTree V) : Prop :=
  t = s.list ∨ s = fresh s.bstore s.id ∧
    ∃ i, t = { NBTreeExtentsList.new s.id [] s.bstore with initialized := i }

theorem shows_new (bs : BlockStore V) :
    Shows (.new id [] bs) (fresh bs id) := Or.inr ⟨rfl, false, rfl⟩

theorem append_new (bs : BlockStore V) (id : ParamId) (i : Bool) (p : Point) (allowDup : Bool) :
    ({ NBTreeExtentsList.new id [] bs with initialized := i } : NBTreeExtentsList V).append p
      allowDup = if (fresh bs id).late p allowDup then
        some (.failLateWrite, { NBTreeExtentsList.new id [] bs with initialized := true })
      else (fresh bs id).list.append p allowDup := by
  cases hlate : (fresh bs id).late p allowDup with
  | true =>
    unfold late at hlate
    cases i <;>
    · show (if (if allowDup = true then decide (p.ts < 0) else decide (p.ts ≤ 0)) = true
        then _ else _) = _
      erw [hlate]
      rfl
  | false =>
    rw [append_eq hlate]
    unfold late at hlate
    cases i <;>
    · show (if (if allowDup = true then decide (p.ts < 0) else decide (p.ts ≤ 0)) = true
        then _ else _) = _
      erw [hlate]
      rfl

theorem Shows.append_step (hsh : Shows t s) (h : s.Holds leaves tail) (p : Point)
    (allowDup : Bool) :
    ∃ r t' s' new tail', s.Appended tail p allowDup r s' new tail' ∧ Shows t' s' ∧
      t.append p allowDup = some (r, t') ∧ (t' = s'.list → tail' = [] → t = s.list ∧ tail = []) := by
  obtain ⟨r, s', new, tail', hstep, happ⟩ := OpenTree.append_step h p allowDup
  rcases hsh with rfl | ⟨hfresh, i, rfl⟩
  · exact ⟨r, s'.list, s', new, tail', hstep, .inl rfl, happ,
      fun _ hnil => ⟨rfl, (hstep.late_of_nil hnil).1⟩⟩
  · rw [append_new, ← hfresh]
    cases hlate : s.late p allowDup with
    | true =>
      exact ⟨_, _, s, _, _, .late hlate, .inr ⟨hfresh, true, rfl⟩, rfl, fun hlist => by cases hlist⟩
    | false =>
      refine ⟨r, s'.list, s', new, tail', hstep, .inl rfl, happ, fun _ hnil => ?_⟩
      rw [(hstep.late_of_nil hnil).2] at hlate
      cases hlate

end OpenTree

/-! ## Sequences of appends -/

/-- Append points, each with its `allow_duplicate_timestamps`; the points that
were not refused, and the tree. -/
def feed : List (Point × Bool) → NBTreeExtentsList V → Option (List Point × NBTreeExtentsList V)
  | [], t => some ([], t)
  | (p, allowDup) :: ops, t =>
    (t.append p allowDup).bind fun (r, t) =>
      (feed ops t).map fun (acc, t) => (if r = .failLateWrite then acc else p :: acc, t)

section Induct
variable (I : OpenTree V → List StoredLeaf → List Point → Prop)
  (hstep : ∀ {s leaves tail p allowDup r s' new tail'}, s.Holds leaves tail → I s leaves tail →
    s.Appended tail p allowDup r s' new tail' → I s' (leaves ++ new) tail')
include hstep

/-- Induction over a sequence of appends: what every step keeps holds at its end. -/
theorem feed_induct (ops : List (Point × Bool)) (hsh : OpenTree.Shows t s)
    (h : s.Holds leaves tail) (hI : I s leaves tail) :
    ∃ acc t' s' leaves' tail', feed ops t = some (acc, t') ∧
      OpenTree.Shows t' s' ∧ s'.Holds leaves' tail' ∧ I s' leaves' tail' ∧
      (t' = s'.list → tail' = [] → t = s.list ∧ tail = []) ∧
      points leaves' ++ tail' = points leaves ++ tail ++ acc := by
  induction ops generalizing t s leaves tail with
  | nil => exact ⟨[], t, s, leaves, tail, rfl, hsh, h, hI, .intro, by simp⟩
  | cons op ops ih =>
    obtain ⟨p, allowDup⟩ := op
    obtain ⟨r, t1, s1, new, tail1, ha, hsh1, happ, hnil⟩ := hsh.append_step h p allowDup
    obtain ⟨acc, t', s', leaves', tail', hfeed, hsh', h', hI', hnil', heq⟩ :=
      ih hsh1 (ha.holds h) (hstep h hI ha)
    refine ⟨if r = .failLateWrite then acc else p :: acc, t', s', leaves', tail', ?_, hsh', h', hI',
      fun ht htail => ?_, ?_⟩
    · simp [feed, happ, hfeed]
    · obtain ⟨ht1, htail1⟩ := hnil' ht htail
      exact hnil ht1 htail1
    · rw [heq, points_append, append_assoc (points leaves), ha.points_eq]
      split <;> simp

/-- From a new list on; once it has an extent, its open leaf is not empty. -/
theorem feed_from_new {bs : BlockStore V} {id : ParamId} (hI : I (.fresh bs id) [] [])
    (ops : List (Point × Bool)) : ∃ acc t s leaves tail, feed ops (.new id [] bs) = some (acc, t) ∧
      OpenTree.Shows t s ∧ s.Holds leaves tail ∧ I s leaves tail ∧ (t = s.list → tail ≠ []) ∧
      acc = points leaves ++ tail := by
  obtain ⟨acc, t, s, leaves, tail, hfeed, hsh, h, hI', hnil, heq⟩ :=
    feed_induct I hstep ops (shows_new bs) (fresh_holds bs) hI
  refine ⟨acc, t, s, leaves, tail, hfeed, hsh, h, hI', fun ht htail => ?_,
    by simpa [points] using heq.symm⟩
  cases (hnil ht htail).1

end Induct

/-- The points accepted when the newest timestamp so far is `last`. -/
def accepted : Timestamp → List (Point × Bool) → List Point
  | _, [] => []
  | last, (p, allowDup) :: ops =>
    if (if allowDup then decide (p.ts < last) else decide (p.ts ≤ last)) then accepted last ops
    else p :: accepted p.ts ops

/-- What a sequence of appends accepts depends on the newest timestamp only. -/
theorem feed_accepted : ∀ (ops : List (Point × Bool)) {t : NBTreeExtentsList V} {s : OpenTree V}
    {leaves : List StoredLeaf} {tail : List Point}, OpenTree.Shows t s → s.Holds leaves tail →
    ∃ t', feed ops t = some (accepted s.last ops, t')
  | [], t, _, _, _, _, _ => ⟨t, rfl⟩
  | (p, allowDup) :: ops, t, s, _, _, hsh, h => by
    obtain ⟨r, t1, s1, new, tail1, ha, hsh1, happ, -⟩ := hsh.append_step h p allowDup
    obtain ⟨t', hfeed⟩ := feed_accepted ops hsh1 (ha.holds h)
    refine ⟨t', ?_⟩
    simp only [feed, happ, bind_some, hfeed, map_some, accepted]
    rcases ha.accepts with ⟨hlate, hr, hlast⟩ | ⟨hlate, hr, hlast⟩
    · unfold late at hlate
      rw [hlate, if_pos rfl, if_pos hr, hlast]
    · unfold late at hlate
      rw [hlate, if_neg Bool.false_ne_true, if_neg hr, hlast]

/-- Points in order are accepted when duplicate timestamps are allowed. -/
theorem accepted_sorted : ∀ {ps : List Point} {last : Timestamp},
    ps.Pairwise (fun p q => p.ts ≤ q.ts) → (∀ p ∈ ps, last ≤ p.ts) →
    accepted last (ps.map (·, true)) = ps
  | [], _, _, _ => rfl
  | p :: ps, last, hs, hlast => by
    obtain ⟨hfirst, hs⟩ := pairwise_cons.mp hs
    have hnot : ¬ p.ts < last := not_lt.mpr (hlast p mem_cons_self)
    simp [accepted, hnot, accepted_sorted hs hfirst]

theorem feed_sorted (bs : BlockStore V) {ps : List Point}
    (h : ps.Pairwise (fun p q => p.ts ≤ q.ts)) :
    ∃ t, feed (ps.map (·, true)) (.new id [] bs) = some (ps, t) := by
  obtain ⟨t, hfeed⟩ := feed_accepted (ps.map (·, true)) (shows_new bs) (fresh_holds bs)
  have hnew : ∀ p ∈ ps, (fresh bs id).last ≤ p.ts := fun p _ => minTimestamp_le p.ts
  exact ⟨t, by rw [hfeed, accepted_sorted h hnew]⟩

/-- A new list behaves like a tree without points, once a point is accepted. -/
theorem feed_new (bs : BlockStore V)
    (h : (fresh bs id).late p allowDup = false) (ops : List (Point × Bool)) :
    feed ((p, allowDup) :: ops) (.new id [] bs) =
      feed ((p, allowDup) :: ops) (fresh bs id).list := by
  have happ := append_new bs id false p allowDup
  rw [h] at happ
  have hnew : (NBTreeExtentsList.new id [] bs).append p allowDup =
    (fresh bs id).list.append p allowDup := happ
  rw [feed, feed, hnew]

/-! ## Filling the open leaf -/

/-- The most points a leaf can hold, and more. -/
def leafBound : Nat := chunkSize * (faststdbBlockSize + 1)

namespace OpenTree

/-- More points than a leaf can hold are not all in the open one. -/
theorem Holds.leaves_ne_nil
    (h : s.Holds leaves tail) (hlen : leafBound < (points leaves ++ tail).length) : leaves ≠ [] := by
  rintro rfl
  have hle : tail.length ≤ leafBound := h.leaf.writer.length_le
  exact absurd hlen (not_lt.mpr hle)

/-- `s'` is `s` after its open leaf has been filled up with `pts` and written, and
`p` has started a new one. -/
structure Refilled (s : OpenTree V) (leaves : List StoredLeaf) (pts : List Point) (p : Point)
    (s' : OpenTree V) (block : Block V) (w : Nat) : Prop where
  ne : pts ≠ []
  leaf : LeafAt (s.bstore.appendBlock block).2 s.id s.bstore.blocks.length s.leaf.fanoutIndex
    s.leaf.leaf.link pts
  bstore : s'.bstore = (s.flushed block pts w).bstore
  levels : s'.levels = (s.flushed block pts w).levels
  rescue : s'.rescue = s.bstore.alloc s.bstore.blocks.length
  ident : s'.id = s.id
  holds : s'.Holds (leaves ++ [⟨s.bstore.alloc s.bstore.blocks.length, pts⟩]) [p]

/-- The points go to the open leaf, one after the other. -/
inductive Pushes : OpenTree V → List Point → OpenTree V → Prop where
  | nil (s : OpenTree V) : Pushes s [] s
  | cons {s s₁ s₂ : OpenTree V} {p : Point} {ps : List Point} :
      s.list.append p true = some (.ok, s₁.list) → Pushes s₁ ps s₂ → Pushes s (p :: ps) s₂

theorem Pushes.feed {ps : List Point} (h : Pushes s ps s') (ops : List (Point × Bool)) :
    FastSTDB.feed (ps.map (·, true) ++ ops) s.list =
      (FastSTDB.feed ops s'.list).map fun (acc, t) => (ps ++ acc, t) := by
  induction h with
  | nil s =>
    cases hfeed : FastSTDB.feed ops s.list <;> simp [hfeed]
  | cons happ _ ih =>
    simp only [map_cons, cons_append, FastSTDB.feed, happ, bind_some, ih,
      Option.map_map]
    rfl

/-- One point, appended until the leaf is written; `k` is enough for that. -/
theorem exists_filled (k : Nat) (h : s.Holds leaves tail) (hlast : s.last ≤ p.ts)
    (hlen : leafBound < tail.length + k) : ∃ n s1 s' block w, Pushes s (replicate n p) s1 ∧
      s1.list.append p true = some (.okFlushNeeded, s'.list) ∧ s'.last = p.ts ∧
      s.Refilled leaves (tail ++ replicate n p) p s' block w := by
  induction k generalizing s leaves tail with
  | zero =>
    have := h.leaf.writer.length_le
    simp only [leafBound] at hlen
    omega
  | succ k ih =>
    obtain ⟨r, s1, new, tail1, ha, happ⟩ := append_step h p true
    have hholds := ha.holds h
    cases ha with
    | late hlate =>
      have hlt : p.ts < s.last := by simpa [late] using hlate
      exact absurd hlast (not_le.mpr hlt)
    | @pushed _ leaf _ hprev hfan =>
      rw [append_nil] at hholds
      obtain ⟨n, s1, s', block, w, hpushes, hspill, hts, hr⟩ := ih hholds le_rfl (by
        simp only [length_append, length_singleton]
        omega)
      have hlink : (s.pushed p leaf).leaf.leaf.link = s.leaf.leaf.link := by
        rw [link, link]
        simp only [pushed, hprev, hfan]
      refine ⟨n + 1, s1, s', block, w, .cons happ hpushes, hspill, hts, ?_⟩
      have hleaf := hr.leaf
      rw [hlink] at hleaf
      have htail : tail ++ replicate (n + 1) p = tail ++ [p] ++ replicate n p := by
        simp [replicate_succ]
      rw [htail]
      exact ⟨hr.ne, hleaf, hr.bstore, hr.levels, hr.rescue, hr.ident, hr.holds⟩
    | @spilled _ hne leaf block w _ hat _ _ _ =>
      refine ⟨0, s, s.spilled p leaf block tail w, block, w, .nil s, happ, rfl, ?_⟩
      rw [replicate_zero, append_nil]
      exact ⟨hne, hat, rfl, rfl, rfl, rfl, hholds⟩

theorem exists_refilled (h : s.Holds leaves tail) (hlast : s.last ≤ p.ts) : ∃ n s' block w,
      feed ((replicate (n + 1) p).map (·, true)) s.list = some (replicate (n + 1) p, s'.list) ∧
      s.Refilled leaves (tail ++ replicate n p) p s' block w := by
  obtain ⟨n, s1, s', block, w, hpushes, hspill, -, hr⟩ :=
    exists_filled (leafBound + 1) h hlast (by omega)
  refine ⟨n, s', block, w, ?_, hr⟩
  rw [replicate_succ', map_append, hpushes.feed]
  simp [feed, hspill]

end OpenTree
end FastSTDB
