import FastSTDB.Extents
import FastSTDB.Scan
import FastSTDB.Subtree
import Mathlib.Data.List.Flatten

/-
  Searching — what `search` delivers

  The search over a stored subtree delivers the scan of the points of its leaves
  that have not expired (`Sub.opens_search`), by induction on the height: a
  superblock operator is the loop of `IteratorSpec` over its references. The
  search over the open extents chains these (`search_delivers`).

  `opens_of_child` is the part all range operators share: expired references and
  references outside the range are skipped, and have nothing to deliver.
-/
namespace FastSTDB
open List Pull SBlockIter RealOp

variable {V : Type} [DoubleArith V]
variable {bs : BlockStore V} {groups : List (List StoredLeaf)} {id : ParamId} {k : Nat}
  {ref : SubtreeRef V} {leaves : List StoredLeaf} {pts : List Point} {b e : Timestamp}
  {leaf : IOVecLeaf V}

/-! ## Expiry -/

namespace BlockStore

/-- Blocks expire in the order they were written. -/
def Aged (bs : BlockStore V) : Prop :=
  ∀ i j, i ≤ j → bs.removedBelow ≤ bs.alloc i → bs.removedBelow ≤ bs.alloc j

def live (bs : BlockStore V) (leaves : List StoredLeaf) : List StoredLeaf :=
  leaves.filter (fun l => decide (bs.removedBelow ≤ l.addr))

section
omit [DoubleArith V]

theorem aged_of_keeps (h : bs.removedBelow = 0) : bs.Aged :=
  fun _ _ _ _ => by rw [h]; exact zero_le

theorem aged_of_strictMono (h : StrictMono bs.alloc) : bs.Aged :=
  fun _ _ hij hi => hi.trans (h.monotone hij)

theorem live_of_keeps (h : bs.removedBelow = 0) : bs.live leaves = leaves := by
  rw [live, h]
  exact filter_eq_self.mpr (fun _ _ => decide_eq_true zero_le)

theorem live_flatten (bs : BlockStore V) (groups : List (List StoredLeaf)) :
    bs.live groups.flatten = (groups.map bs.live).flatten := filter_flatten

end

end BlockStore

omit [DoubleArith V] in
theorem points_live_sublist (bs : BlockStore V) (leaves : List StoredLeaf) :
    (points (bs.live leaves)).Sublist (points leaves) :=
  filter_sublist.flatMap _

variable {g : List StoredLeaf}

theorem points_sublist_flatten (hg : g ∈ groups) : (points g).Sublist (points groups.flatten) := by
  rw [points_flatten]
  exact sublist_flatten_of_mem (mem_map_of_mem hg)

theorem Sub.live_eq_nil (haged : bs.Aged) (h : Sub bs id k ref leaves)
    (hexp : ref.addr < bs.removedBelow) : bs.live leaves = [] := by
  obtain ⟨i, -, haddr, hleaves⟩ := h.block
  refine filter_eq_nil_iff.mpr (fun l hl hlive => ?_)
  obtain ⟨j, hj, hla⟩ := hleaves l hl
  rw [hla, decide_eq_true_eq] at hlive
  rw [haddr] at hexp
  exact not_lt.mpr (haged j i hj hlive) hexp

/-! ## Time ranges -/

theorem sorted_bounds (hs : Sorted pts) {p q : Point} (hp : pts.head? = some p)
    (hq : pts.getLast? = some q) : ∀ r ∈ pts, p.ts ≤ r.ts ∧ r.ts ≤ q.ts := by
  intro r hr
  constructor
  · cases pts with
    | nil => cases hr
    | cons p' rest =>
      obtain rfl : p' = p := by simpa using hp
      rcases mem_cons.mp hr with rfl | hr
      · exact le_rfl
      · exact (pairwise_cons.mp hs).1 r hr
  · rw [getLast?_eq_some_iff] at hq
    obtain ⟨front, rfl⟩ := hq
    rcases mem_append.mp hr with hr | hr
    · exact (pairwise_append.mp hs).2.2 r hr q (by simp)
    · rw [mem_singleton.mp hr]

theorem Sub.bounds (h : Sub bs id k ref leaves) (hs : Sorted (points leaves)) :
    ∀ p ∈ points leaves, ref.beginTs ≤ p.ts ∧ p.ts ≤ ref.endTs := by
  obtain ⟨p, q, hp, hq, hb, he⟩ := h.range
  rw [hb, he]
  exact sorted_bounds hs hp hq

/-- The leaves can be scanned from `b` to `e`: the points are in order, or at
least those of each leaf are and the range covers all time. -/
def Scannable (b e : Timestamp) (leaves : List StoredLeaf) : Prop :=
  (∀ l ∈ leaves, Sorted l.pts) ∧
    (Sorted (points leaves) ∨ min b e = minTimestamp ∧ max b e = maxTimestamp)

theorem scannable_of_sorted (hs : Sorted (points leaves)) (b e : Timestamp) :
    Scannable b e leaves :=
  ⟨fun _ hl => hs.sublist (sublist_flatten_of_mem (mem_map_of_mem hl)), .inl hs⟩

theorem Scannable.group (h : Scannable b e groups.flatten) (hg : g ∈ groups) : Scannable b e g :=
  ⟨fun l hl => h.1 l (mem_flatten_of_mem hg hl),
    h.2.imp (fun hs => hs.sublist (points_sublist_flatten hg)) (fun hc => hc)⟩

theorem scan_outside (h : Sub bs id k ref leaves) (hs : Scannable b e leaves)
    (hout : ref.endTs < min b e ∨ max b e < ref.beginTs) :
    scan b e (points (bs.live leaves)) = [] := by
  rcases hs.2 with hs | ⟨hmin, hmax⟩
  · have hmem : ∀ p ∈ points (bs.live leaves), p ∈ points leaves :=
      fun p hp => (points_live_sublist bs leaves).mem hp
    exact scan_eq_nil_of_outside (fun p hp => (h.bounds hs p (hmem p hp)).1)
      (fun p hp => (h.bounds hs p (hmem p hp)).2) hout.symm
  · rw [hmin, hmax] at hout
    rcases hout with hlt | hlt
    · exact absurd (minTimestamp_le _) (not_le.mpr hlt)
    · exact absurd (le_maxTimestamp _) (not_le.mpr hlt)

/-! ## Leaves that can be read -/

/-- The leaf reads back as `pts` and its metadata describe them. -/
structure IOVecLeaf.Reads (id : ParamId) (leaf : IOVecLeaf V) (pts : List Point) : Prop where
  readAll : leaf.readAll = some (.ok, pts)
  leafmeta : ∃ fanout addr size, leaf.leafmeta =
    { leafMeta id fanout pts with addr := addr, payloadSize := size }

theorem IOVecLeaf.Has.reads (h : leaf.Has id pts) : leaf.Reads id pts :=
  ⟨h.readAll, leaf.fanoutIndex, leaf.prev, _, h.leafmeta⟩

theorem LeafAt.load {i fanout : Nat} {link : LogicAddr} (h : LeafAt bs id i fanout link pts) :
    ∃ block leaf size, bs.blocks[i]? = some block ∧ IOVecLeaf.ofBlock block = some leaf ∧
      leaf.Reads id pts ∧ leaf.leafmeta = block.header ∧ leaf.prev = link ∧
      block.header = { leafMeta id fanout pts with addr := link, payloadSize := size } := by
  obtain ⟨size, nchunks, ntail, bytes, hc, hb⟩ := h
  refine ⟨_, _, size, hb, rfl, ⟨?_, fanout, link, size, rfl⟩, rfl, rfl, rfl⟩
  simp only [IOVecLeaf.readAll, readN_contents hc]
  simp [IOVecBlockWriter.readTailElements, IOVecBlockWriter.init]

theorem IOVecLeaf.Reads.bounds (h : leaf.Reads id pts) (hs : Sorted pts) : ∀ p ∈ pts,
      leaf.getTimestamps.1 ≤ p.ts ∧ p.ts ≤ leaf.getTimestamps.2 := by
  intro p hp
  obtain ⟨fanout, addr, size, hm⟩ := h.leafmeta
  have hne : pts ≠ [] := ne_nil_of_mem hp
  obtain ⟨hb, he⟩ := leafMeta_range (V := V) id fanout hne
  simp only [IOVecLeaf.getTimestamps, hm, hb, he]
  exact sorted_bounds hs (head?_eq_some_head hne) (getLast?_eq_some_getLast hne) p hp

theorem IOVecLeaf.Reads.ofLeaf (h : leaf.Reads id pts) (hs : Sorted pts) (b e : Timestamp) :
    ∃ it, LeafIter.ofLeaf b e leaf = some it ∧ it.Good ∧ it.rest = scan b e pts := by
  refine LeafIter.ofLeaf_spec hs h.readAll (fun p hp => (h.bounds hs p hp).1) (fun hne => ?_)
    (fun p hp => (h.bounds hs p hp).2) b e
  obtain ⟨fanout, addr, size, hm⟩ := h.leafmeta
  refine ⟨pts.getLast hne, getLast_mem hne, ?_⟩
  simp [IOVecLeaf.getTimestamps, hm, (leafMeta_range id fanout hne).2]

/-! ## Subtrees -/

section Subtrees
variable {C α β Φ : Type} {bs : BlockStore V} {id : ParamId} {F : Format α β}

theorem Sub.contains (h : Sub bs id k ref leaves) :
    bs.contains ref.addr = decide (bs.removedBelow ≤ ref.addr) := by
  obtain ⟨i, hi, haddr, -⟩ := h.block
  rw [haddr, bs.contains_alloc hi]

/-- Visiting a subtree: it is skipped when it has expired or lies outside the
range; otherwise the operator over it has to deliver the items. -/
theorem opens_of_child {m : Methods V C β Φ} (h : Sub bs id k ref leaves) {xs : List α}
    (hexp : ref.addr < bs.removedBelow → xs = [])
    (hout : ref.endTs < min b e ∨ max b e < ref.beginTs → xs = [])
    (hchild : bs.removedBelow ≤ ref.addr → ¬ (ref.endTs < min b e ∨ max b e < ref.beginTs) →
      ∀ φ, ∃ c φ',
        (if k = 0 then m.makeLeafIterator b e φ ref else m.makeSuperblockIterator b e φ ref) =
        some (.ok, some c, φ') ∧ Delivers m.readChild F c xs) :
    Opens bs m F b e ref xs := by
  intro φ
  unfold openRef
  rw [h.contains]
  by_cases hlive : bs.removedBelow ≤ ref.addr
  · rw [if_neg (by simp [hlive])]
    by_cases hr : ref.endTs < min b e ∨ max b e < ref.beginTs
    · rw [if_pos (by simp only [subtreeInRange, hr, decide_true, Bool.not_true, Bool.not_false])]
      exact .inl ⟨.notFound, φ, rfl, .inl rfl, hout hr⟩
    · rw [if_neg (by simp only [subtreeInRange, hr, decide_false, Bool.not_false, Bool.not_true,
        Bool.false_eq_true, not_false_eq_true]), h.type]
      obtain ⟨c, φ', hmake, hserve⟩ := hchild hlive hr φ
      refine .inr ⟨c, φ', ?_, hserve⟩
      rw [← hmake]
      by_cases hk : k = 0 <;> simp [hk]
  · rw [if_pos (by simp [hlive])]
    exact .inl ⟨.unavailable, φ, rfl, .inr rfl, hexp (not_le.mp hlive)⟩

theorem InnerAt.read {level i fanout : Nat} {link : LogicAddr} {refs : List (SubtreeRef V)}
    (h : InnerAt bs id level i fanout link refs) (hlive : bs.removedBelow ≤ bs.alloc i) :
    ∃ block, bs.readIovecBlock (bs.alloc i) = (.ok, some block) ∧ block.payload = .inner refs ∧
      block.header.payloadSize = refs.length := ⟨_, bs.readIovecBlock_alloc h hlive, rfl, rfl⟩

end Subtrees

/-! ## The search over a subtree -/

section Search
variable {bs : BlockStore V} {id : ParamId}

omit [DoubleArith V] in
theorem leaf_delivers {it : LeafIter} (hg : it.Good) (depth : Nat) :
    Delivers (RealOp.read bs (depth + 1)) Same (.leaf it) it.rest :=
  (LeafIter.delivers hg).map_state leaf (fun _ _ _ => rfl)

omit [DoubleArith V] in
theorem sblock_delivers {it : SBlockIter V (RealOp V)} {xs : List Point} {depth : Nat}
    (h : SBlockIter.Unread bs (searchMethods bs (read bs depth)) Same it xs ∨
      Left bs (searchMethods bs (read bs depth)) Same it xs) :
    Delivers (RealOp.read bs (depth + 1)) Same (.sblock it) xs :=
  (serves_read (Format.same_lawful Point) h).map_state sblock (fun _ _ _ => rfl)

omit [DoubleArith V] in
theorem scan_live_flatten : scan b e (points (bs.live groups.flatten)) =
      (scanOrder b e (groups.map (fun g => scan b e (points (bs.live g))))).flatten := by
  rw [bs.live_flatten, points_flatten, scan_flatten, map_map, ← scanOrder_map, map_map]
  rfl

theorem forall₂_opens {C α β Φ : Type} {m : Methods V C β Φ} {F : Format α β}
    {refs : List (SubtreeRef V)} {f : List StoredLeaf → List α}
    (hall : Forall₂ (Sub bs id k) refs groups)
    (h : ∀ ref, ∀ g ∈ groups, Sub bs id k ref g → Opens bs m F b e ref (f g)) :
    Forall₂ (Opens bs m F b e) (scanOrder b e refs) (scanOrder b e (groups.map f)) := by
  apply forall₂_scanOrder b e
  rw [forall₂_map_right_iff]
  exact Pairs.imp_mem hall (fun ref _ g hg hsub => h ref g hg hsub)

theorem Sub.opens_search (haged : bs.Aged) (b e : Timestamp)
    {depth : Nat} (h : Sub bs id k ref leaves) (hs : Scannable b e leaves) (hdepth : k < depth) :
    Opens bs (searchMethods bs (read bs depth)) Same b e ref
    (scan b e (points (bs.live leaves))) := by
  induction k generalizing ref leaves depth
  all_goals
    obtain ⟨depth, rfl⟩ : ∃ d, depth = d + 1 := ⟨depth - 1, by omega⟩
    refine opens_of_child h (fun hexp => ?_) (fun hout => ?_) (fun hlive _ φ => ?_)
    · rw [h.live_eq_nil haged hexp]; exact scan_nil
    · exact scan_outside h hs hout
  case zero.refine_3 =>
    obtain ⟨i, fanout, link, pts, hleaf, -, rfl, rfl⟩ := h
    obtain ⟨block, leaf, size, hb, hof, hreads, -⟩ := hleaf.load
    have hpts : points [⟨bs.alloc i, pts⟩] = pts := by simp [points]
    obtain ⟨it, hit, hg, hrest⟩ := hreads.ofLeaf (hs.1 _ mem_cons_self) b e
    refine ⟨.leaf it, (), ?_, ?_⟩
    · simp [searchMethods, leafAt, bs.readIovecBlock_alloc hb hlive, hof, hit]
    · have : bs.live [⟨bs.alloc i, pts⟩] = [⟨bs.alloc i, pts⟩] := filter_eq_self.mpr (fun l hl => by
          rw [mem_singleton.mp hl]; exact decide_eq_true hlive)
      rw [this, hpts, ← hrest]
      exact leaf_delivers hg depth
  case succ.refine_3 k ih _ =>
    obtain ⟨i, fanout, link, refs, groups, hinner, -, -, rfl, -, hall, rfl⟩ := h
    obtain ⟨block, hread, hpl, hsize⟩ := hinner.read hlive
    refine ⟨.sblock (.ofAddr (bs.alloc i) b e), (), rfl, ?_⟩
    rw [scan_live_flatten]
    refine sblock_delivers (.inl (unread_ofAddr hread hpl hsize ?_))
    exact forall₂_opens hall (fun ref g hg hsub => ih hsub (hs.group hg) (by omega))

end Search
end FastSTDB
