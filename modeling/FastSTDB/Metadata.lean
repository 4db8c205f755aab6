import FastSTDB.Summary
import FastSTDB.TreeSearch
import Mathlib.Algebra.Order.BigOperators.Group.List
import Mathlib.Algebra.Order.Field.Rat
import Mathlib.Tactic.Positivity

/-
  Metadata — what the references of a tree say

  A reference carries the number, the ends, the extreme values and the sum of the points
  below it. They are computed while points are appended to a leaf, and from other
  references when a superblock is written. Here they are compared with the points that
  are read back from the store, starting at the address in the reference.

  The smallest value is searched from `DBL_MAX` on and the largest from `-DBL_MAX` on,
  with comparisons that are strict: a leaf with the value `DBL_MAX` only would keep the
  time the search started with. Such a leaf has two points at least, because a smaller
  one is not full, so its sum is no double.

  Correspondence (C++ ↔ Lean):
    `SubtreeRef` in an open extent            ↔ `NBTreeExtentsList.Node.opened`
    `SubtreeRef` in a committed superblock    ↔ `NBTreeExtentsList.Node.committed`
    the points of the subtree at an address   ↔ `subtreePoints`

  1. `Sub.describes`: by induction on the height, a reference describes its points.
  2. `Appended.wroteNodes`: every superblock an append writes refers to consecutive leaves.
  3. `metadata_feed`: all references in all nodes, after any sequence of appends.
-/
namespace FastSTDB
open List Option AggregationResult Folding IOVecSuperblock OpenTree

variable {V : Type}
variable {pts tail tail' : List Point} {s s' : OpenTree V} {new : List StoredLeaf} {p : Point}
  {allowDup : Bool} {r : NBTreeAppendResult}

/-! ## Points of a subtree -/

/-- The points below an address, as the blocks have them; `depth` bounds the height. -/
def subtreePoints (bs : BlockStore V) : Nat → LogicAddr → Option (List Point)
  | 0, _ => none
  | depth + 1, addr =>
    ((bs.find addr).bind fun i => bs.blocks[i]?).bind fun b =>
      match b.payload with
      | .leaf .. => (b.storedLeaf addr).map StoredLeaf.pts
      | .inner .. => (ofBlock b).bind fun node =>
        (node.refs.mapM fun r => subtreePoints bs depth r.addr).map flatten

/-- What a reference says about the points. -/
structure Describes (ref : SubtreeRef Rat) (pts : List Point) : Prop where
  count : ref.count = pts.length
  ends : ∃ p q, pts.head? = some p ∧ pts.getLast? = some q ∧
    ref.beginTs = p.ts ∧ ref.first = val p ∧ ref.endTs = q.ts ∧ ref.last = val q
  min_le : ∀ p ∈ pts, ref.min ≤ val p
  min_at : ∃ p ∈ pts, val p = ref.min ∧ p.ts = ref.minTime
  le_max : ∀ p ∈ pts, val p ≤ ref.max
  max_at : ∃ p ∈ pts, val p = ref.max ∧ p.ts = ref.maxTime
  sum : ref.sum = (pts.map val).sum

/-- The references of a node describe their subtrees, which follow each other in time. -/
def NodeDescribes (bs : BlockStore Rat) (refs : List (SubtreeRef Rat)) : Prop :=
  ∃ groups : List (List Point),
    Forall₂ (fun r pts => subtreePoints bs (r.level + 1) r.addr = some pts ∧ Describes r pts)
      refs groups ∧
    groups.Pairwise fun pts pts' => ∀ p ∈ pts, ∀ q ∈ pts', p.ts ≤ q.ts

/-- The references in a superblock of the tree: one of an open extent, or one that was written
when the store had at least `n` blocks. -/
inductive NBTreeExtentsList.Node (t : NBTreeExtentsList V) (n : Nat) :
    List (SubtreeRef V) → Prop where
  | opened {x : Extents V} {e : NBTreeSBlockExtent V} (hx : t.extents = some x) (he : e ∈ x.inner) :
      Node t n e.curr.refs
  | committed {i : Nat} {b : Block V} {node : IOVecSuperblock V} (hi : n ≤ i)
      (hb : t.bstore.blocks[i]? = some b) (hnode : ofBlock b = some node) :
      Node t n node.refs

/-! ## Leaves -/

/-- Not all values are `DBL_MAX`, and not all are `-DBL_MAX`. -/
def Spread (pts : List Point) : Prop := (∃ p ∈ pts, val p < dblMax) ∧ ∃ p ∈ pts, -dblMax < val p

/-- Two points with a sum that is a double are not both extreme. -/
theorem spread_of_sum (hlen : 2 ≤ pts.length) (hsum : |(pts.map val).sum| ≤ dblMax) :
    Spread pts := by
  have hpos : 0 < dblMax := by
    rw [dblMax]
    positivity
  have htwo : (2 : Rat) ≤ pts.length := by exact_mod_cast hlen
  have htwice : 2 * dblMax ≤ pts.length * dblMax := mul_le_mul_of_nonneg_right htwo hpos.le
  obtain ⟨hlow, hhigh⟩ := abs_le.mp hsum
  constructor
  · by_contra hnone
    push Not at hnone
    have hge := card_nsmul_le_sum (pts.map val) dblMax (forall_mem_map.mpr hnone)
    rw [length_map, nsmul_eq_mul] at hge
    linarith
  · by_contra hnone
    push Not at hnone
    have hle := sum_le_card_nsmul (pts.map val) (-dblMax) (forall_mem_map.mpr hnone)
    rw [length_map, nsmul_eq_mul] at hle
    linarith

section Leaf
variable (id : ParamId) (fanout : Nat) (pts : List Point)

/-- What every point brings up to date is found by a search over the points. -/
theorem leafMeta_search {f : SubtreeRef Rat → Rat × Timestamp}
    {step : Rat × Timestamp → Rat × Timestamp → Rat × Timestamp}
    (h : ∀ m p, f (m.addPoint p) = step (f m) (val p, p.ts)) : f (leafMeta id fanout pts) =
      (pts.map fun p => (val p, p.ts)).foldl step (f (leafMeta id fanout [])) := by
  induction pts using reverseRecOn with
  | nil => rfl
  | append_singleton pts p ih => rw [leafMeta_append, h, ih, map_append, foldl_append]; rfl

theorem leafMeta_least :
    ((leafMeta id fanout pts : SubtreeRef Rat).min, (leafMeta id fanout pts : SubtreeRef Rat).minTime) =
      (pts.map fun p => (val p, p.ts)).foldl least (dblMax, maxTimestamp) := by
  refine leafMeta_search id fanout pts (f := fun m => (m.min, m.minTime)) fun m p => ?_
  simp only [SubtreeRef.addPoint, lt_rat]
  exact apply_ite₂ Prod.mk (val p < m.min) _ _ _ _

theorem leafMeta_greatest :
    ((leafMeta id fanout pts : SubtreeRef Rat).max, (leafMeta id fanout pts : SubtreeRef Rat).maxTime) =
      (pts.map fun p => (val p, p.ts)).foldl greatest (-dblMax, 0) := by
  refine leafMeta_search id fanout pts (f := fun m => (m.max, m.maxTime)) fun m p => ?_
  simp only [SubtreeRef.addPoint, lt_rat]
  exact apply_ite₂ Prod.mk (m.max < val p) _ _ _ _

theorem describes_leafMeta {pts : List Point} (hne : pts ≠ []) (hspread : Spread pts) :
    Describes (leafMeta id fanout pts) pts := by
  have hcopy := copyFrom_leafMeta (V := Rat) id fanout pts
  have hcore := (congrArg core hcopy).trans (core_ofPoints.trans core_summary)
  simp only [core, Prod.mk.injEq] at hcore
  obtain ⟨⟨p, hp, hlow⟩, ⟨q, hq, hhigh⟩⟩ := hspread
  obtain ⟨hminat, hmin⟩ := foldl_least (pts.map fun p => (val p, p.ts))
    (dblMax, maxTimestamp) ⟨_, mem_map_of_mem hp, hlow⟩
  obtain ⟨hmaxat, hmax⟩ := foldl_greatest (pts.map fun p => (val p, p.ts))
    (-dblMax, 0) ⟨_, mem_map_of_mem hq, hhigh⟩
  rw [← leafMeta_least id fanout] at hminat hmin
  rw [← leafMeta_greatest id fanout] at hmaxat hmax
  rw [List.forall_mem_map] at hmin hmax
  refine ⟨hcore.1, ?_, hmin, ?_, hmax, ?_, hcore.2.1⟩
  · obtain ⟨p, rest, rfl⟩ := exists_cons_of_ne_nil hne
    have hends := hcopy.trans (ofPoints_cons rest)
    refine ⟨p, rest.getLastD p, rfl, ?_, congrArg _begin hends, congrArg first hends,
      congrArg _end hends, congrArg AggregationResult.last hends⟩
    rw [getLast?_cons, getLastD_eq_getLast?]
  · obtain ⟨p, hp, heq⟩ := mem_map.mp hminat
    obtain ⟨hval, hts⟩ := Prod.mk.inj heq
    exact ⟨p, hp, hval, hts⟩
  · obtain ⟨p, hp, heq⟩ := mem_map.mp hmaxat
    obtain ⟨hval, hts⟩ := Prod.mk.inj heq
    exact ⟨p, hp, hval, hts⟩

end Leaf

/-! ## Superblocks -/

theorem foldl_minStep (refs : List (SubtreeRef Rat)) (acc : Rat × Timestamp) :
    refs.foldl minStep acc = (refs.map fun r => (r.min, r.minTime)).foldl least acc := by
  rw [foldl_map]
  congr 1
  funext acc r
  simp only [minStep, least, lt_rat]

theorem foldl_maxStep (refs : List (SubtreeRef Rat)) (acc : Rat × Timestamp) :
    refs.foldl maxStep acc = (refs.map fun r => (r.max, r.maxTime)).foldl greatest acc := by
  rw [foldl_map]
  congr 1
  funext acc r
  simp only [maxStep, greatest, lt_rat]

section Inner
variable {refs : List (SubtreeRef Rat)} {groups : List (List Point)}

theorem foldl_count (h : Forall₂ Describes refs groups) (n : Nat) :
    refs.foldl (fun c r => c + r.count) n = n + groups.flatten.length := by
  induction h generalizing n with
  | nil => rfl
  | cons hr _ ih => rw [foldl_cons, ih, hr.count, flatten_cons, length_append, add_assoc]

theorem foldl_sum (h : Forall₂ Describes refs groups) (s : Rat) :
    refs.foldl (fun s r => DoubleArith.add s r.sum) s = s + (groups.flatten.map val).sum := by
  induction h generalizing s with
  | nil => exact (add_zero s).symm
  | @cons r pts refs groups hr _ ih =>
    calc (r :: refs).foldl (fun s r => DoubleArith.add s r.sum) s
        = s + r.sum + (groups.flatten.map val).sum := ih _
      _ = s + ((pts :: groups).flatten.map val).sum := by
        rw [hr.sum, flatten_cons, map_append, sum_append, add_assoc]

theorem describes_innerMeta (id : ParamId) (level fanout : Nat) (hne : refs ≠ [])
    (hall : Forall₂ Describes refs groups) (hspread : Spread groups.flatten) :
    Describes (innerMeta id level fanout refs) groups.flatten := by
  have hmem : ∀ {p : Point}, p ∈ groups.flatten → ∃ r ∈ refs, ∃ pts ∈ groups,
      p ∈ pts ∧ Describes r pts := by
    intro p hp
    obtain ⟨pts, hpts, hp⟩ := mem_flatten.mp hp
    obtain ⟨r, hr, hd⟩ := Pairs.exists_left hall hpts
    exact ⟨r, hr, pts, hpts, hp, hd⟩
  obtain ⟨⟨p, hp, hlow⟩, ⟨q, hq, hhigh⟩⟩ := hspread
  have hmin := foldl_least (refs.map fun r => (r.min, r.minTime)) (dblMax, 0) (by
    obtain ⟨r, hr, pts, -, hp, hd⟩ := hmem hp
    exact ⟨_, mem_map_of_mem hr, (hd.min_le p hp).trans_lt hlow⟩)
  have hmax := foldl_greatest (refs.map fun r => (r.max, r.maxTime)) (-dblMax, 0) (by
    obtain ⟨r, hr, pts, -, hq, hd⟩ := hmem hq
    exact ⟨_, mem_map_of_mem hr, hhigh.trans_le (hd.le_max q hq)⟩)
  rw [← foldl_minStep, List.forall_mem_map] at hmin
  rw [← foldl_maxStep, List.forall_mem_map] at hmax
  refine ⟨?_, ?_, ?_, ?_, ?_, ?_, ?_⟩
  · exact (foldl_count hall 0).trans (zero_add _)
  · obtain ⟨r, g, rest, hr, rfl, hfirst⟩ := Pairs.head hall hne
    obtain ⟨r', g', front, hr', hg', hlast⟩ := Pairs.last hall hne
    obtain ⟨p, -, hp, -, hb, hf, -, -⟩ := hfirst.ends
    obtain ⟨-, q, -, hq, -, -, he, hl⟩ := hlast.ends
    refine ⟨p, q, ?_, ?_, ?_, ?_, ?_, ?_⟩
    · rw [flatten_cons, head?_append, hp, some_or]
    · rw [hg', flatten_append, flatten_cons, flatten_nil, append_nil, getLast?_append, hq, some_or]
    · simp [innerMeta, hr, hb]
    · simp [innerMeta, hr, hf]
    · simp [innerMeta, hr', he]
    · simp [innerMeta, hr', hl]
  · intro p hp
    obtain ⟨r, hr, pts, -, hp, hd⟩ := hmem hp
    exact (hmin.2 r hr).trans (hd.min_le p hp)
  · obtain ⟨r, hr, heq⟩ := mem_map.mp hmin.1
    obtain ⟨pts, hpts, hd⟩ := Pairs.exists_right hall hr
    obtain ⟨p, hp, hval, hts⟩ := hd.min_at
    exact ⟨p, mem_flatten_of_mem hpts hp, hval.trans (congrArg Prod.fst heq),
      hts.trans (congrArg Prod.snd heq)⟩
  · intro p hp
    obtain ⟨r, hr, pts, -, hp, hd⟩ := hmem hp
    exact (hd.le_max p hp).trans (hmax.2 r hr)
  · obtain ⟨r, hr, heq⟩ := mem_map.mp hmax.1
    obtain ⟨pts, hpts, hd⟩ := Pairs.exists_right hall hr
    obtain ⟨p, hp, hval, hts⟩ := hd.max_at
    exact ⟨p, mem_flatten_of_mem hpts hp, hval.trans (congrArg Prod.fst heq),
      hts.trans (congrArg Prod.snd heq)⟩
  · exact (foldl_sum hall 0).trans (zero_add _)

end Inner

/-! ## Subtrees -/

section Subtrees
variable {id : ParamId}

theorem Spread.mono {pts' : List Point} (h : Spread pts) (hsub : ∀ p ∈ pts, p ∈ pts') :
    Spread pts' := by
  obtain ⟨⟨p, hp, hlow⟩, ⟨q, hq, hhigh⟩⟩ := h
  exact ⟨⟨p, hsub p hp, hlow⟩, ⟨q, hsub q hq, hhigh⟩⟩

variable {leaves : List StoredLeaf}

theorem spread_points (hne : points leaves ≠ [])
    (h : ∀ l ∈ leaves, Spread l.pts) : Spread (points leaves) := by
  cases leaves with
  | nil => exact absurd rfl hne
  | cons l leaves =>
    refine (h l mem_cons_self).mono ?_
    intro p hp
    exact mem_append_left _ hp

theorem Sub.describes {bs : BlockStore Rat} {k : Nat} {ref : SubtreeRef Rat}
    (h : Sub bs id k ref leaves) (hspread : ∀ l ∈ leaves, Spread l.pts) :
    Describes ref (points leaves) := by
  induction k generalizing ref leaves with
  | zero =>
    obtain ⟨i, fanout, link, pts, -, hne, rfl, rfl⟩ := h
    have hpts : points [⟨bs.alloc i, pts⟩] = pts := append_nil pts
    have hd := describes_leafMeta id fanout hne (hspread _ (mem_singleton.mpr rfl))
    rw [hpts]
    exact ⟨hd.count, hd.ends, hd.min_le, hd.min_at, hd.le_max, hd.max_at, hd.sum⟩
  | succ k ih =>
    have hpts := h.points_ne_nil
    obtain ⟨i, fanout, link, refs, groups, -, hne, -, rfl, -, hall, rfl⟩ := h
    have hdesc : Forall₂ Describes refs (groups.map points) := by
      rw [forall₂_map_right_iff]
      refine Pairs.imp_mem hall fun r _ g hg hsub => ih hsub ?_
      intro l hl
      exact hspread l (mem_flatten_of_mem hg hl)
    have hd := describes_innerMeta id (k + 1) fanout hne hdesc (by
      rw [← points_flatten]
      exact spread_points hpts hspread)
    rw [points_flatten]
    exact ⟨hd.count, hd.ends, hd.min_le, hd.min_at, hd.le_max, hd.max_at, hd.sum⟩

variable [DoubleArith V]

omit [DoubleArith V] in
theorem ofBlock_inner (header : SubtreeRef V) (refs : List (SubtreeRef V))
    (hsize : header.payloadSize = refs.length) : ∃ node,
      ofBlock ⟨header, .inner refs⟩ = some node ∧ node.refs = refs := by
  refine ⟨_, rfl, ?_⟩
  show refs.take header.payloadSize = refs
  rw [hsize, take_length]

theorem Sub.subtreePoints_eq {bs : BlockStore V} {k : Nat} {ref : SubtreeRef V}
    (h : Sub bs id k ref leaves) : subtreePoints bs (k + 1) ref.addr = some (points leaves) := by
  induction k generalizing ref leaves with
  | zero =>
    obtain ⟨i, fanout, link, pts, hat, -, rfl, rfl⟩ := h
    have hpts : points [⟨bs.alloc i, pts⟩] = pts := append_nil pts
    have hstored := fun b hb => hat.storedLeaf (b := b) hb
    obtain ⟨size, nchunks, ntail, bytes, -, hb⟩ := hat
    have hi := lt_of_getElem? hb
    rw [subtreePoints, bs.find_alloc hi, bind_some, hb]
    simp [hstored _ hb, hpts]
  | succ k ih =>
    obtain ⟨i, fanout, link, refs, groups, hb, -, -, rfl, -, hall, rfl⟩ := h
    have hi := lt_of_getElem? hb
    obtain ⟨node, hnode, hrefs⟩ := ofBlock_inner
      { innerMeta id (k + 1) fanout refs with addr := link, payloadSize := refs.length } refs rfl
    have hbelow : (refs.mapM fun r => subtreePoints bs (k + 1) r.addr) = some (groups.map points) :=
      Pairs.mapM_pure (hall.imp fun _ _ hsub => ih hsub)
    rw [subtreePoints, bs.find_alloc hi, bind_some, hb]
    simp [hnode, hrefs, hbelow, points_flatten]

end Subtrees

/-! ## Superblocks that are written -/

section Nodes
variable [DoubleArith V] {bs : BlockStore V} {id : ParamId} {n : Nat} {leaves : List StoredLeaf}
  {refs : List (SubtreeRef V)} {t : NBTreeExtentsList V}

/-- The references of a node lead to consecutive leaves. -/
def RefersTo (bs : BlockStore V) (id : ParamId) (leaves : List StoredLeaf)
    (refs : List (SubtreeRef V)) : Prop :=
  ∃ k groups, Forall₂ (Sub bs id k) refs groups ∧ groups.flatten <:+: leaves

theorem RefersTo.mono {bs' : BlockStore V} {leaves' : List StoredLeaf}
    (h : RefersTo bs id leaves refs) (hext : bs.Extends bs') (hleaves : leaves <:+: leaves') :
    RefersTo bs' id leaves' refs := by
  obtain ⟨k, groups, hall, hpart⟩ := h
  exact ⟨k, groups, hall.imp fun _ _ hsub => hsub.mono hext, hpart.trans hleaves⟩

/-- So do all superblocks written since the store had `n` blocks. -/
def WroteNodes (bs : BlockStore V) (id : ParamId) (n : Nat) (leaves : List StoredLeaf) : Prop :=
  ∀ i b node, n ≤ i → bs.blocks[i]? = some b → ofBlock b = some node →
    RefersTo bs id leaves node.refs

theorem WroteNodes.append (h : WroteNodes bs id n leaves) {b : Block V}
    (hb : ∀ node, ofBlock b = some node → RefersTo (bs.appendBlock b).2 id leaves node.refs) :
    WroteNodes (bs.appendBlock b).2 id n leaves := by
  intro i b' node hi hb' hnode
  rcases lt_or_ge i bs.blocks.length with hlt | hge
  · have hold : bs.blocks[i]? = some b' := by
      rw [← hb']
      exact (getElem?_append_left hlt).symm
    exact (h i b' node hi hold hnode).mono (bs.extends_appendBlock b) (infix_refl _)
  · have hnew : (bs.blocks ++ [b])[i]? = some b' := hb'
    rw [getElem?_append_right hge, getElem?_singleton] at hnew
    obtain ⟨-, heq⟩ := ite_none_right_eq_some.mp hnew
    cases heq
    exact hb node hnode

theorem cascade_wroteNodes : ∀ {ls : List (Level V)} {k : Nat} {bs : BlockStore V}
    {pl : SubtreeRef V} {lower : List StoredLeaf}, Stores bs id k ls lower → lower <:+: leaves →
    WroteNodes bs id n leaves → WroteNodes (cascade id k bs ls pl).1 id n leaves
  | [], _, _, _, _, _, _, h => h
  | l :: ls, k, bs, pl, lower, ⟨upper, groups, hl, hall, hup⟩, hlower, h => by
    rw [cascade]
    by_cases hroom : l.refs.length < nbtreeFanout
    · rw [dif_pos hroom]
      exact h
    · rw [dif_neg hroom]
      have hext := bs.extends_appendBlock (l.block id k)
      refine cascade_wroteNodes (hup.mono hext) ?_ (h.append ?_)
      · rw [hl] at hlower
        exact (prefix_append _ _).isInfix.trans hlower
      · intro node hnode
        obtain ⟨node', hnode', hrefs⟩ := ofBlock_inner
          { innerMeta id (k + 1) l.nodeFanout l.refs with addr := l.prev, payloadSize := l.refs.length }
          l.refs rfl
        have heq : node' = node := some.inj (hnode'.symm.trans hnode)
        rw [← heq, hrefs]
        refine ⟨k, groups, hall.imp fun _ _ hsub => hsub.mono hext, ?_⟩
        rw [hl] at hlower
        exact (suffix_append _ _).isInfix.trans hlower

theorem OpenTree.Appended.wroteNodes (hs : s.Holds leaves tail)
    (h : WroteNodes s.bstore s.id n leaves) (ha : s.Appended tail p allowDup r s' new tail') :
    WroteNodes s'.bstore s'.id n (leaves ++ new) := by
  have hgrown : leaves <:+: leaves ++ new := (prefix_append _ _).isInfix
  have hmore : WroteNodes s.bstore s.id n (leaves ++ new) := fun i b node hi hb hnode =>
    (h i b node hi hb hnode).mono (.refl _) hgrown
  cases ha with
  | late _ => exact hmore
  | pushed _ _ _ _ => exact hmore
  | @spilled _ hne leaf block w _ hat _ _ _ =>
    have hext := s.bstore.extends_appendBlock block
    refine cascade_wroteNodes (hs.levels.mono hext) hgrown (hmore.append ?_)
    -- the block of the leaf is no superblock
    intro node hnode
    obtain ⟨size, nchunks, ntail, bytes, -, hb⟩ := hat
    rw [appendBlock_getElem?, some.injEq] at hb
    rw [hb] at hnode
    cases hnode

theorem OpenTree.Appended.two_le (hs : s.Holds leaves tail)
    (ha : s.Appended tail p allowDup r s' new tail') : ∀ l ∈ new, 2 ≤ l.pts.length := by
  cases ha with
  | late _ => exact forall_mem_nil _
  | pushed _ _ _ _ => exact forall_mem_nil _
  | spilled h _ _ _ _ _ _ =>
    intro l hl
    rw [mem_singleton.mp hl]
    have hover := h.2
    rw [IOVecLeaf.append] at hover
    rcases put_spec hs.leaf.writer p with ⟨w, hput, -⟩ | ⟨w, hput, -⟩
    · rw [hput] at hover
      cases hover
    · exact two_le_of_overflow hs.leaf.writer hput

/-- What a tree filled by appends is made of. -/
structure Built (bs : BlockStore V) (s : OpenTree V) (leaves : List StoredLeaf)
    (tail : List Point) : Prop extends Filled bs s leaves tail where
  nodes : WroteNodes s.bstore s.id bs.blocks.length leaves
  full : ∀ l ∈ leaves, 2 ≤ l.pts.length

theorem built_fresh : Built bs (.fresh bs id) [] [] := by
  refine ⟨filled_fresh id, ?_, forall_mem_nil _⟩
  intro i b node hi hb _
  have hlt := lt_of_getElem? hb
  exact absurd hi (not_le.mpr hlt)

theorem Built.step (hs : s.Holds leaves tail) (h : Built bs s leaves tail)
    (ha : s.Appended tail p allowDup r s' new tail') : Built bs s' (leaves ++ new) tail' := by
  refine ⟨h.toFilled.step ha, ha.wroteNodes hs h.nodes, ?_⟩
  exact forall_mem_append.mpr ⟨h.full, ha.two_le hs⟩

theorem Stores.refersTo : ∀ {ls : List (Level V)} {k : Nat} {lower : List StoredLeaf},
    Stores bs id k ls lower → ∀ l ∈ ls, RefersTo bs id lower l.refs
  | [], _, _, _, l, hl => by cases hl
  | l :: ls, k, lower, ⟨upper, groups, hlower, hall, hup⟩, l', hl' => by
    rw [hlower]
    rcases mem_cons.mp hl' with rfl | hl'
    · exact ⟨k, groups, hall, (suffix_append _ _).isInfix⟩
    · exact (hup.refersTo l' hl').mono (.refl _) (prefix_append _ _).isInfix

omit [DoubleArith V] in
theorem mem_extentsOf {e : NBTreeSBlockExtent V} : ∀ {ls : List (Level V)} {k : Nat},
    e ∈ extentsOf id k ls → ∃ l ∈ ls, e.curr.refs = l.refs
  | [], _, h => by cases h
  | l :: ls, k, h => by
    rcases mem_cons.mp h with rfl | h
    · exact ⟨l, mem_cons_self, rfl⟩
    · obtain ⟨l', hl', heq⟩ := mem_extentsOf h
      exact ⟨l', mem_cons_of_mem _ hl', heq⟩

theorem Built.refersTo (hsh : Shows t s) (hs : s.Holds leaves tail) (h : Built bs s leaves tail)
    (hnode : t.Node bs.blocks.length refs) : RefersTo t.bstore s.id leaves refs := by
  have hstore : t.bstore = s.bstore := hsh.bstore
  cases hnode with
  | @opened x e hx he =>
    rcases hsh with rfl | ⟨-, i, rfl⟩
    · cases hx
      obtain ⟨l, hl, heq⟩ := mem_extentsOf he
      rw [heq]
      exact hs.levels.refersTo l hl
    · cases hx
  | committed hi hb hofBlock =>
    rw [hstore] at hb ⊢
    exact h.nodes _ _ _ hi hb hofBlock

/-- A tree with a written leaf has a reference in an open superblock. -/
theorem OpenTree.Shows.exists_node (hsh : Shows t s) (hs : s.Holds leaves tail)
    (hne : leaves ≠ []) (n : Nat) : ∃ refs, t.Node n refs ∧ refs ≠ [] := by
  have hlevels : s.levels ≠ [] := by
    intro hnil
    have hstores := hs.levels
    rw [hnil] at hstores
    exact hne hstores
  rcases hsh with rfl | ⟨hfresh, i, rfl⟩
  · obtain ⟨front, l, hl⟩ := eq_nil_or_concat s.levels |>.resolve_left hlevels
    have htop := hs.top l (by rw [hl, concat_eq_append, getLast?_concat])
    refine ⟨l.refs, .opened (e := l.extent s.id front.length) rfl ?_, htop.1⟩
    rw [hl, concat_eq_append, extentsOf_append, zero_add]
    exact mem_append_right _ mem_cons_self
  · rw [hfresh] at hlevels
    exact absurd rfl hlevels

end Nodes

/-! ## All references -/

/-- After any sequence of appends to a new tree, every reference in every superblock, open or
written, describes exactly the points stored below its address, and the references of one
superblock follow each other in time. The sums of the leaves have to be doubles, as they are if
the code takes them exactly. -/
theorem metadata_feed {bs : BlockStore Rat} {id : ParamId} {ops : List (Point × Bool)}
    {acc : List Point} {t : NBTreeExtentsList Rat}
    (hfeed : feed ops (.new id [] bs) = some (acc, t))
    (hsums : ∀ l ∈ t.bstore.leavesFrom bs.blocks.length, |(l.pts.map val).sum| ≤ dblMax)
    {refs : List (SubtreeRef Rat)} (hnode : t.Node bs.blocks.length refs) :
    NodeDescribes t.bstore refs := by
  obtain ⟨acc', t', s, leaves, tail, hfeed', hsh, hs, hb, -, -⟩ :=
    feed_from_new (Built bs) (fun hs hb ha => hb.step hs ha) built_fresh ops
  rw [hfeed] at hfeed'
  cases hfeed'
  obtain ⟨k, groups, hall, hpart⟩ := hb.refersTo hsh hs hnode
  rw [hsh.bstore, hb.written] at hsums
  have hspread : ∀ l ∈ leaves, Spread l.pts := fun l hl => spread_of_sum (hb.full l hl) (hsums l hl)
  refine ⟨groups.map points, ?_, ?_⟩
  · rw [forall₂_map_right_iff]
    refine Pairs.imp_mem hall fun r _ g hg hsub => ⟨?_, hsub.describes ?_⟩
    · rw [hsub.level]
      exact hsub.subtreePoints_eq
    · intro l hl
      exact hspread l (hpart.subset (mem_flatten_of_mem hg hl))
  · have hsorted : Sorted (points groups.flatten) := by
      obtain ⟨before, after, rfl⟩ := hpart
      have hpts := hb.sorted
      rw [points_append, points_append] at hpts
      exact hpts.sublist (((sublist_append_right _ _).trans (sublist_append_left _ _)).trans
        (sublist_append_left _ _))
    rw [points_flatten] at hsorted
    exact (pairwise_flatten.mp hsorted).2

/-- A tree of zeros with a full leaf. -/
theorem metadata_feed_zeros : ∃ ops acc t refs,
    feed ops (.new 1 [] (memStore Rat)) = some (acc, t) ∧ t.Node 0 refs ∧
      refs ≠ [] ∧ NodeDescribes t.bstore refs := by
  let zeros : List Point := replicate (leafBound + 1) ⟨1, 0⟩
  have hsorted : zeros.Pairwise fun p q => p.ts ≤ q.ts := pairwise_replicate.mpr (.inr le_rfl)
  obtain ⟨acc, t, s, leaves, tail, hfeed, hsh, hs, hb, -, hacc⟩ :=
    feed_from_new (Built (memStore Rat)) (fun hs hb ha => hb.step hs ha) built_fresh (zeros.map (·, true))
  obtain ⟨t', hfeed'⟩ := feed_sorted (memStore Rat) hsorted
  have hzeros : acc = zeros := by
    rw [hfeed] at hfeed'
    exact (Prod.mk.inj (some.inj hfeed')).1
  have hne : leaves ≠ [] := by
    apply hs.leaves_ne_nil
    rw [← hacc, hzeros, length_replicate]
    omega
  obtain ⟨refs, hnode, hrefs⟩ := hsh.exists_node hs hne 0
  refine ⟨_, acc, t, refs, hfeed, hnode, hrefs, metadata_feed hfeed ?_ hnode⟩
  intro l hl
  rw [hsh.bstore, hb.written] at hl
  have hval : ∀ v ∈ l.pts.map val, v = 0 := by
    refine forall_mem_map.mpr ?_
    intro p hp
    have hmem : p ∈ zeros := by
      rw [← hzeros, hacc]
      exact mem_append_left _ (mem_flatMap.mpr ⟨l, hl, hp⟩)
    rw [eq_of_mem_replicate hmem]
    simp [val, DoubleArith.ofBits, ratOfBits]
  rw [sum_eq_zero hval, dblMax]
  positivity

end FastSTDB
