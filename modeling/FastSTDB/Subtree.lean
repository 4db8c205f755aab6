import FastSTDB.Lib.Pairs
import FastSTDB.Node

/-
  Subtrees — what a reference stands for

  `Sub bs id k ref leaves` says that `ref` is the reference to a stored tree of
  height `k` whose leaves, the oldest first, are `leaves`: the blocks it leads to
  exist, hold what their headers say, and were written before their parents. It
  depends on the blocks only, not on which of them have expired, and it is kept
  when blocks are added (`Sub.mono`).

  Writing a leaf makes one of height 0 (`IOVecLeaf.commit_spec`).
-/
namespace FastSTDB
open List Option IOVecLeaf

variable {V : Type} [DoubleArith V]
variable {id : ParamId} {leaf : IOVecLeaf V} {pts : List Point} {bs bs' : BlockStore V}
  {i fanout : Nat}

/-! ## Leaves in memory -/

namespace IOVecLeaf

section
variable (id : ParamId) (leaf : IOVecLeaf V) (pts : List Point)

/-- The leaf has accepted `pts`. -/
structure Has : Prop where
  leafmeta : leaf.leafmeta = { leafMeta id leaf.fanoutIndex pts with addr := leaf.prev }
  writer : Holds leaf.writer pts

/-- The leaf has accepted `pts` and never refused a point. -/
structure Accepts : Prop where
  leafmeta : leaf.leafmeta = { leafMeta id leaf.fanoutIndex pts with addr := leaf.prev }
  writer : Open leaf.writer pts

end

theorem Accepts.has (h : leaf.Accepts id pts) : leaf.Has id pts := ⟨h.leafmeta, h.writer.holds⟩

theorem accepts_new (prev : LogicAddr) :
    (new id prev fanout : IOVecLeaf V).Accepts id [] := ⟨rfl, open_init⟩

theorem Has.nelements (h : leaf.Has id pts) : leaf.nelements = pts.length := by
  rw [IOVecLeaf.nelements, h.leafmeta]
  exact (leafMeta_fixed id leaf.fanoutIndex pts).2.2.2.2.2.2.2

theorem Has.readAll (h : leaf.Has id pts) : leaf.readAll = some (.ok, pts) := by
  obtain ⟨front, hc, rfl⟩ := h.writer.contents_stream
  simp only [readAll, readN_contents hc]
  rfl

theorem append_spec (h : leaf.Accepts id pts) (p : Point) :
    (∃ leaf', leaf.append p = (.ok, leaf') ∧ leaf'.Accepts id (pts ++ [p]) ∧
      leaf'.prev = leaf.prev ∧ leaf'.fanoutIndex = leaf.fanoutIndex) ∨
    ∃ leaf', leaf.append p = (.overflow, leaf') ∧ leaf'.Has id pts ∧ pts ≠ [] ∧
      leaf'.prev = leaf.prev ∧ leaf'.fanoutIndex = leaf.fanoutIndex := by
  rcases put_spec h.writer p with ⟨w, hw, ho⟩ | ⟨w, hw, ho⟩
  · refine .inl ⟨{ leaf with writer := w, leafmeta := leaf.leafmeta.addPoint p },
      by rw [append, hw], ⟨?_, ho⟩, rfl, rfl⟩
    rw [leafMeta_append, h.leafmeta]
    exact addPoint_addr _ _ _
  · exact .inr ⟨{ leaf with writer := w }, by rw [append, hw], ⟨h.leafmeta, ho⟩,
      ne_nil_of_overflow h.writer hw, rfl, rfl⟩

theorem append_new (id : ParamId) (prev : LogicAddr) (fanout : Nat) (p : Point) :
    ∃ leaf', (new id prev fanout : IOVecLeaf V).append p = (.ok, leaf') ∧
      leaf'.Accepts id [p] ∧ leaf'.prev = prev ∧ leaf'.fanoutIndex = fanout := by
  obtain ⟨w, hw, ho⟩ := put_init p
  exact ⟨_, by rw [append]; simp only [new, hw]; rfl, ⟨rfl, ho⟩, rfl, rfl⟩

end IOVecLeaf

/-! ## Nodes in the store -/

def LeafAt (bs : BlockStore V) (id : ParamId) (i fanout : Nat) (link : LogicAddr)
    (pts : List Point) : Prop :=
  ∃ size nchunks ntail bytes, Contents bytes nchunks ntail pts ∧
    bs.blocks[i]? = some ⟨{ leafMeta id fanout pts with addr := link, payloadSize := size },
      .leaf nchunks ntail bytes⟩

def InnerAt (bs : BlockStore V) (id : ParamId) (level i fanout : Nat) (link : LogicAddr)
    (refs : List (SubtreeRef V)) : Prop :=
  bs.blocks[i]? = some
    ⟨{ innerMeta id level fanout refs with addr := link, payloadSize := refs.length }, .inner refs⟩

structure StoredLeaf where
  addr : LogicAddr
  pts : List Point

def points (leaves : List StoredLeaf) : List Point := leaves.flatMap StoredLeaf.pts

theorem points_append (ls ls' : List StoredLeaf) : points (ls ++ ls') = points ls ++ points ls' :=
  flatMap_append

theorem points_flatten (groups : List (List StoredLeaf)) :
    points groups.flatten = (groups.map points).flatten := by
  induction groups with
  | nil => rfl
  | cons g groups ih => rw [flatten_cons, points_append, ih]; rfl

/-- `ref` refers to a tree of height `k` with the given leaves. -/
def Sub (bs : BlockStore V) (id : ParamId) : Nat → SubtreeRef V → List StoredLeaf → Prop
  | 0, ref, leaves => ∃ i fanout link pts, LeafAt bs id i fanout link pts ∧ pts ≠ [] ∧
      ref = { leafMeta id fanout pts with addr := bs.alloc i } ∧ leaves = [⟨bs.alloc i, pts⟩]
  | k + 1, ref, leaves => ∃ i fanout link refs groups, InnerAt bs id (k + 1) i fanout link refs ∧
      refs ≠ [] ∧ refs.length ≤ nbtreeFanout ∧
      ref = { innerMeta id (k + 1) fanout refs with addr := bs.alloc i } ∧
      (∀ r ∈ refs, ∃ j, j < i ∧ r.addr = bs.alloc j) ∧
      Forall₂ (Sub bs id k) refs groups ∧ leaves = groups.flatten

namespace BlockStore

/-- `bs'` holds the blocks of `bs` and perhaps newer ones. -/
def Extends (bs bs' : BlockStore V) : Prop :=
  bs'.alloc = bs.alloc ∧ bs.blocks <+: bs'.blocks

section
omit [DoubleArith V]

theorem Extends.refl (bs : BlockStore V) : bs.Extends bs := ⟨rfl, prefix_rfl⟩

theorem Extends.trans {bs'' : BlockStore V} (h : bs.Extends bs') (h' : bs'.Extends bs'') :
    bs.Extends bs'' := ⟨h'.1.trans h.1, h.2.trans h'.2⟩

theorem extends_appendBlock (bs : BlockStore V) (b : Block V) :
    bs.Extends (bs.appendBlock b).2 := ⟨rfl, prefix_append _ _⟩

theorem extends_expire (bs : BlockStore V) (addr : LogicAddr) : bs.Extends (bs.expire addr) :=
  ⟨rfl, prefix_rfl⟩

theorem Extends.getElem? (h : bs.Extends bs') {b : Block V} (hb : bs.blocks[i]? = some b) :
    bs'.blocks[i]? = some b := by
  obtain ⟨more, hmore⟩ := h.2
  have hi := lt_of_getElem? hb
  rw [← hmore, getElem?_append_left hi, hb]

end

end BlockStore

theorem LeafAt.mono (h : bs.Extends bs') {link : LogicAddr} (hl : LeafAt bs id i fanout link pts) :
    LeafAt bs' id i fanout link pts := by
  obtain ⟨size, nchunks, ntail, bytes, hc, hb⟩ := hl
  exact ⟨size, nchunks, ntail, bytes, hc, h.getElem? hb⟩

theorem Sub.mono (h : bs.Extends bs') : ∀ {k : Nat} {ref : SubtreeRef V} {leaves : List StoredLeaf},
      Sub bs id k ref leaves → Sub bs' id k ref leaves
  | 0, _, _, ⟨i, fanout, link, pts, hl, hne, hr, hls⟩ =>
    ⟨i, fanout, link, pts, hl.mono h, hne, by rw [hr, h.1], by rw [hls, h.1]⟩
  | k + 1, _, _, ⟨i, fanout, link, refs, groups, hi, hne, hfits, hr, hold, hall, hls⟩ =>
    ⟨i, fanout, link, refs, groups, h.getElem? hi, hne, hfits, by rw [hr, h.1],
      by rw [h.1]; exact hold, hall.imp (fun _ _ hs => .mono h hs), hls⟩

/-! ## What a reference says about its tree -/

section Facts
variable {bs : BlockStore V} {id : ParamId} {k : Nat} {ref : SubtreeRef V}
  {leaves : List StoredLeaf}

section
variable (h : Sub bs id k ref leaves)
include h

/-- A reference leads to a block that is no older than the leaves below it. -/
theorem Sub.block : ∃ i, i < bs.blocks.length ∧
    ref.addr = bs.alloc i ∧ ∀ l ∈ leaves, ∃ j, j ≤ i ∧ l.addr = bs.alloc j := by
  induction k generalizing ref leaves with
  | zero =>
    obtain ⟨i, fanout, link, pts, ⟨size, nchunks, ntail, bytes, -, hb⟩, -, rfl, rfl⟩ := h
    refine ⟨i, (lt_of_getElem? hb), rfl, fun l hl => ⟨i, le_refl i, ?_⟩⟩
    rw [mem_singleton.mp hl]
  | succ k ih =>
    obtain ⟨i, fanout, link, refs, groups, hb, -, -, rfl, hold, hall, rfl⟩ := h
    refine ⟨i, (lt_of_getElem? hb), rfl, fun l hl => ?_⟩
    obtain ⟨g, hg, hlg⟩ := mem_flatten.mp hl
    obtain ⟨r, hr, hsub⟩ := Pairs.exists_left hall hg
    obtain ⟨j, -, haddr, hleaves⟩ := ih hsub
    obtain ⟨j', hj', haddr'⟩ := hold r hr
    obtain ⟨n, hn, hl⟩ := hleaves l hlg
    have hjj : j = j' := bs.alloc_inj (haddr.symm.trans haddr')
    exact ⟨n, by omega, hl⟩

theorem Sub.type : ref.type = if k = 0 then .leaf else .inner := by
  cases k with
  | zero =>
    obtain ⟨i, fanout, link, pts, -, -, rfl, -⟩ := h
    exact (leafMeta_fixed id fanout pts).2.2.1
  | succ k =>
    obtain ⟨i, fanout, link, refs, groups, -, -, -, rfl, -⟩ := h
    rfl

theorem Sub.level : ref.level = k := by
  cases k with
  | zero =>
    obtain ⟨i, fanout, link, pts, -, -, rfl, -⟩ := h
    exact (leafMeta_fixed id fanout pts).2.2.2.1
  | succ k =>
    obtain ⟨i, fanout, link, refs, groups, -, -, -, rfl, -⟩ := h
    rfl

/-- The time range of a reference is that of the first and last points below it. -/
theorem Sub.range : ∃ p q, (points leaves).head? = some p ∧
    (points leaves).getLast? = some q ∧ ref.beginTs = p.ts ∧ ref.endTs = q.ts := by
  induction k generalizing ref leaves with
  | zero =>
    obtain ⟨i, fanout, link, pts, -, hne, rfl, rfl⟩ := h
    obtain ⟨hb, he⟩ := leafMeta_range (V := V) id fanout hne
    refine ⟨pts.head hne, pts.getLast hne, ?_, ?_, hb, he⟩
    · simp [points, head?_eq_some_head hne]
    · simp [points, getLast?_eq_some_getLast hne]
  | succ k ih =>
    obtain ⟨i, fanout, link, refs, groups, -, hne, -, rfl, -, hall, rfl⟩ := h
    obtain ⟨r, g, _, hr, hg, hfirst⟩ := Pairs.head hall hne
    obtain ⟨r', g', front, hr', hg', hlast⟩ := Pairs.last hall hne
    obtain ⟨p, _, hp, -, hb, -⟩ := ih hfirst
    obtain ⟨_, q, -, hq, -, he⟩ := ih hlast
    refine ⟨p, q, ?_, ?_, ?_, ?_⟩
    · rw [hg, flatten_cons, points_append, head?_append, hp, some_or]
    · rw [hg', flatten_append, points_append, flatten_cons, flatten_nil,
        append_nil, getLast?_append, hq, some_or]
    · simp [innerMeta, hr, hb]
    · simp [innerMeta, hr', he]

theorem Sub.points_ne_nil : points leaves ≠ [] := by
  obtain ⟨p, -, hp, -⟩ := h.range
  intro hnil
  rw [hnil] at hp
  cases hp

end

end Facts

/-! ## Writing nodes -/

omit [DoubleArith V] in
theorem appendBlock_getElem? (b : Block V) :
    (bs.appendBlock b).2.blocks[bs.blocks.length]? = some b := by
  simp [BlockStore.appendBlock]

/-- The leaf in a block. -/
def Block.storedLeaf (b : Block V) (addr : LogicAddr) : Option StoredLeaf :=
  match b.payload with
  | .leaf nchunks ntail bytes =>
    let reader := IOVecBlockReader.init nchunks ntail bytes
    (IOVecBlockReader.readN reader.nelements reader).map fun (_, pts) => ⟨addr, pts⟩
  | .inner _ => none

/-- The leaves written since the store had `n` blocks, in the order they were
written. -/
def BlockStore.leavesFrom (bs : BlockStore V) (n : Nat) : List StoredLeaf :=
  (bs.blocks.zipIdx.drop n).filterMap (fun (b, i) => b.storedLeaf (bs.alloc i))

omit [DoubleArith V] in
theorem leavesFrom_appendBlock (b : Block V) {n : Nat}
    (hn : n ≤ bs.blocks.length) : (bs.appendBlock b).2.leavesFrom n =
      bs.leavesFrom n ++ (b.storedLeaf (bs.alloc bs.blocks.length)).toList := by
  simp only [BlockStore.leavesFrom, BlockStore.appendBlock, zipIdx_append,
    drop_append_of_le_length (show n ≤ bs.blocks.zipIdx.length by simpa using hn),
    filterMap_append, zero_add, zipIdx_cons, zipIdx_nil]
  cases hb : b.storedLeaf (bs.alloc bs.blocks.length) <;> simp [hb]

omit [DoubleArith V] in
theorem leavesFrom_length : bs.leavesFrom bs.blocks.length = [] := by
  rw [BlockStore.leavesFrom, drop_eq_nil_of_le (by simp)]
  rfl

theorem LeafAt.storedLeaf {link : LogicAddr} (h : LeafAt bs id i fanout link pts) {b : Block V}
    (hb : bs.blocks[i]? = some b) (addr : LogicAddr) : b.storedLeaf addr = some ⟨addr, pts⟩ := by
  obtain ⟨size, nchunks, ntail, bytes, hc, hat⟩ := h
  rw [hb, some.injEq] at hat
  rw [hat]
  simp [Block.storedLeaf, readN_contents hc]

/-- Link a leaf writes into its header. -/
def IOVecLeaf.link (leaf : IOVecLeaf V) : LogicAddr :=
  if leaf.prev ≠ emptyAddr ∧ 0 < leaf.fanoutIndex then leaf.prev else emptyAddr

theorem IOVecLeaf.commit_spec (h : leaf.Has id pts) (hne : pts ≠ []) (bs : BlockStore V) :
    ∃ leaf' block, leaf.commit bs = some
        (bs.alloc bs.blocks.length, leaf', (bs.appendBlock block).2) ∧
      initSubtreeFromLeaf leaf' = (.ok, leafMeta id leaf.fanoutIndex pts) ∧
      LeafAt (bs.appendBlock block).2 id bs.blocks.length leaf.fanoutIndex leaf.link pts := by
  obtain ⟨size, w, hw, -, hc⟩ := FastSTDB.commit_spec h.writer
  have hfix := leafMeta_fixed (V := V) id leaf.fanoutIndex pts
  simp only [commit, hw, h.leafmeta]
  refine ⟨_, _, rfl, ?_, size - subtreeRefSize, w.nchunks, w.ntail, _,
    hc.append (replicate w.block.spaceLeft 0), ?_⟩
  · simp only [initSubtreeFromLeaf, nelements]
    generalize (leafMeta id leaf.fanoutIndex pts : SubtreeRef V) = m at hfix
    cases m
    simp_all
  · rw [appendBlock_getElem?]
    generalize (leafMeta id leaf.fanoutIndex pts : SubtreeRef V) = m at hfix
    obtain ⟨-, -, h3, h4, -, h6, h7, -⟩ := hfix
    simp only [link, ← h3, ← h4, ← h6, ← h7]

theorem LeafAt.sub {link : LogicAddr} (h : LeafAt bs id i fanout link pts) (hne : pts ≠ []) :
    Sub bs id 0 { leafMeta id fanout pts with addr := bs.alloc i } [⟨bs.alloc i, pts⟩] :=
  ⟨i, fanout, link, pts, h, hne, rfl, rfl⟩

end FastSTDB
