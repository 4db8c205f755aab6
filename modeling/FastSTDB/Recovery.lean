import FastSTDB.TreeSearch

/-
  Recovery — rebuilding a tree from its rescue points

  The header of a node carries the address of the node written before it at the
  same level (its link). After a crash only the rescue points and the blocks are
  left; `repair` follows the links from each rescue point and adds the nodes it
  finds to the extent above.

  `Chained bs id n saved k r ls`: from the rescue point `r`, the links lead exactly
  through the references of the lowest of the levels `ls`, the newest first, and so
  on upwards. The topmost rescue point is empty, or it is the root of a tree that
  was opened again: then the topmost level starts with the references `saved` of
  that root, and the links lead through the others. From such a state every level
  can be restored.

  A tree stays in it as long as every node it writes is linked to the rescue point
  of its level when the extent above has room for it, and to nothing when that
  extent is full or missing (`LinksInStep`, `cascade_chained`). In the first
  session the fanout indices see to that (`Synced`), so a crash loses nothing that
  was written (`recover_feed`).
-/
namespace FastSTDB
open List Option NBTreeExtentsList

variable {V : Type} [DoubleArith V]
variable {bs bs' : BlockStore V} {id : ParamId} {k n : Nat} {leaves : List StoredLeaf}
  {t : NBTreeExtentsList V} {ls : List (Level V)} {s : OpenTree V} {addr : LogicAddr}
  {saved : List (SubtreeRef V)}

/-! ## Links -/

/-- From `addr`, the links lead through the nodes of `refs` and then end. Links
point to older blocks; all are among the first `n`. -/
def Links (bs : BlockStore V) : Nat → LogicAddr → List (SubtreeRef V) → Prop
  | _, addr, [] => addr = emptyAddr
  | n, addr, ref :: refs => addr = ref.addr ∧ ∃ i b, i < n ∧ addr = bs.alloc i ∧
      bs.blocks[i]? = some b ∧ Links bs i b.header.addr refs

/-- The addresses on the way from `addr` along the links. -/
def followLinks (bs : BlockStore V) : Nat → LogicAddr → Option (List LogicAddr)
  | 0, _ => none
  | fuel + 1, addr =>
    if addr = emptyAddr then some []
    else
      match bs.readIovecBlock addr with
      | (.ok, some b) => (followLinks bs fuel b.header.addr).map (addr :: ·)
      | _ => none

section Links
variable {bs bs' : BlockStore V}

section
omit [DoubleArith V]

theorem Links.mono (h : bs.Extends bs') : ∀ {refs : List (SubtreeRef V)} {n n' : Nat}
    {addr : LogicAddr}, n ≤ n' → Links bs n addr refs → Links bs' n' addr refs
  | [], _, _, _, _, hl => hl
  | _ :: _, _, _, _, hn, ⟨ha, i, b, hi, hai, hb, hl⟩ =>
    ⟨ha, i, b, hi.trans_le hn, by rw [hai, h.1], h.getElem? hb, hl.mono h (le_refl i)⟩

theorem Links.length_le : ∀ {refs : List (SubtreeRef V)} {n : Nat} {addr : LogicAddr},
    Links bs n addr refs → refs.length ≤ n
  | [], _, _, _ => zero_le
  | _ :: refs, n, _, ⟨_, i, _, hi, _, _, hl⟩ => by
    have := hl.length_le
    simp only [length_cons]
    omega

theorem Links.follow (hkeep : bs.removedBelow = 0) : ∀ {refs : List (SubtreeRef V)} {n : Nat}
    {addr : LogicAddr}, Links bs n addr refs → ∀ fuel, n < fuel →
    followLinks bs fuel addr = some (refs.map SubtreeRef.addr)
  | [], _, addr, hl, fuel, hf => by
    obtain rfl : addr = emptyAddr := hl
    obtain ⟨fuel, rfl⟩ : ∃ f, fuel = f + 1 := ⟨fuel - 1, by omega⟩
    rfl
  | ref :: refs, n, _, ⟨rfl, i, b, hi, hai, hb, hl⟩, fuel, hf => by
    obtain ⟨fuel, rfl⟩ : ∃ f, fuel = f + 1 := ⟨fuel - 1, by omega⟩
    have hne : ref.addr ≠ emptyAddr := by rw [hai]; exact bs.alloc_ne_empty i
    have hread := bs.readIovecBlock_alloc hb (by rw [hkeep]; exact zero_le)
    have ih := hl.follow hkeep fuel (by omega)
    rw [hai] at hne ⊢
    simp [followLinks, hne, hread, ih, hai]

end

end Links

theorem Sub.refOfBlock {ref : SubtreeRef V} (h : Sub bs id k ref leaves) {i : Nat} {b : Block V}
    (hi : ref.addr = bs.alloc i) (hb : bs.blocks[i]? = some b) :
    refOfBlock b ref.addr = some (ref, b.header.addr) := by
  cases k with
  | zero =>
    obtain ⟨j, fanout, link, pts, hat, hne, rfl, -⟩ := h
    obtain rfl : j = i := bs.alloc_inj hi
    obtain ⟨size, nchunks, ntail, bytes, -, hat⟩ := hat
    obtain rfl := some.inj (hb.symm.trans hat)
    have hfix := leafMeta_fixed (V := V) id fanout pts
    have hcount : (leafMeta id fanout pts : SubtreeRef V).count ≠ 0 := by
      rw [hfix.2.2.2.2.2.2.2]
      intro h0
      exact hne (eq_nil_of_length_eq_zero h0)
    have hpay := hfix.2.2.2.2.1
    have htype := hfix.2.2.1
    -- only the address and the payload size differ between header and reference
    simp only [refOfBlock, htype, if_true, IOVecLeaf.ofBlock, map_some,
      initSubtreeFromLeaf, IOVecLeaf.nelements, hcount, if_false]
    rw [← hpay]
  | succ k =>
    obtain ⟨j, fanout, link, refs, groups, hat, hne, -, rfl, -⟩ := h
    obtain rfl : j = i := bs.alloc_inj hi
    obtain rfl := some.inj (hb.symm.trans hat)
    let node : IOVecSuperblock V := ⟨refs, id, fanout, k + 1, link, true⟩
    have hnode : node.refs ≠ [] := hne
    have hof : IOVecSuperblock.ofBlock ⟨{ innerMeta id (k + 1) fanout refs with
        addr := link, payloadSize := refs.length }, .inner refs⟩ = some node := by
      simp only [IOVecSuperblock.ofBlock, take_length]
      rfl
    rw [refOfBlock, if_neg (by simp [innerMeta]), hof, bind_some,
      initSubtreeFromSubtree_eq hnode, map_some]

/-! ## The repair loop -/

/-- A level with one reference. -/
abbrev oneRef (ref : SubtreeRef V) : Level V := Level.empty.push ref nbtreeFanout_pos

namespace NBTreeExtentsList

theorem appendAll_push : ∀ (refs : List (SubtreeRef V)) (s : OpenTree V) (pre ls : List (Level V))
    (l : Level V) (h : l.refs.length + refs.length ≤ nbtreeFanout), s.levels = pre ++ l :: ls →
    (∀ r ∈ refs, r.level = pre.length) → ∃ w, s.writeCount + refs.length ≤ w ∧
      appendAll refs s.list = some (OpenTree.list { s with
        levels := pre ++ { l with refs := l.refs ++ refs, fits := by simpa using h } :: ls
        writeCount := w })
  | [], s, pre, ls, l, _, hs, _ => by
    refine ⟨s.writeCount, le_rfl, ?_⟩
    simp [appendAll, ← hs]
  | r :: refs, s, pre, ls, l, h, hs, hlevel => by
    have hroom : l.refs.length < nbtreeFanout := by
      simp only [length_cons] at h
      omega
    obtain ⟨saved, w, hw, happ⟩ := appendRef_cascade (s.list.size + 1) s pre (l :: ls) r hs
      (hlevel r mem_cons_self) (by
        simp only [size, OpenTree.list, length_extentsOf, hs, length_append]
        omega)
    simp only [cascade, hroom] at happ
    obtain ⟨w', hw', hrest⟩ := appendAll_push refs
      { s with levels := pre ++ l.push r hroom :: ls, writeCount := w } pre ls (l.push r hroom)
      (by simp only [Level.push, length_append, length_cons, length_nil] at h ⊢; omega)
      rfl (forall_mem_cons.mp hlevel).2
    refine ⟨w', by simp only [length_cons] at hw' ⊢; omega, ?_⟩
    rw [appendAll, rootsAppend, happ]
    apply hrest.trans
    simp [Level.push]

theorem appendAll_top (s : OpenTree V) (top : Option (SubtreeRef V))
    (h : ∀ ref ∈ top, ref.level = s.levels.length) : ∃ w, s.writeCount + top.toList.length ≤ w ∧
      appendAll top.toList.reverse s.list = some (OpenTree.list { s with
        levels := s.levels ++ top.toList.map oneRef
        writeCount := w }) := by
  cases top with
  | none =>
    refine ⟨s.writeCount, le_rfl, ?_⟩
    simp [appendAll]
  | some ref =>
    obtain ⟨saved, w, hw, happ⟩ := appendRef_cascade (s.list.size + 1) s s.levels [] ref
      (append_nil _).symm (h ref rfl) (Nat.succ_pos _)
    refine ⟨w, hw, ?_⟩
    rw [toList_some, reverse_singleton, appendAll, rootsAppend, happ]
    rfl

/-- One chain of links is collected and then added, the oldest node first. -/
theorem repairLoop_chain (hkeep : t.bstore.removedBelow = 0) (stack : List LogicAddr) (fuel : Nat) :
    ∀ (refs acc : List (SubtreeRef V)) (n : Nat) (addr : LogicAddr), Links t.bstore n addr refs →
    (∀ r ∈ refs, ∃ leaves, Sub t.bstore id k r leaves) →
    repairLoop (fuel + refs.length + 1) (addr :: stack) acc t =
      (appendAll (acc ++ refs).reverse t).bind fun t => repairLoop fuel stack [] t
  | [], acc, _, addr, hl, _ => by
    obtain rfl : addr = emptyAddr := hl
    simp [repairLoop]
  | ref :: refs, acc, n, _, ⟨rfl, i, b, hi, hai, hb, hl⟩, hsub => by
    obtain ⟨leaves, href⟩ := hsub ref mem_cons_self
    have hne : ref.addr ≠ emptyAddr := by rw [hai]; exact t.bstore.alloc_ne_empty i
    have hread : t.bstore.readIovecBlock ref.addr = (.ok, some b) := by
      rw [hai]
      exact t.bstore.readIovecBlock_alloc hb (by rw [hkeep]; exact zero_le)
    have ih := repairLoop_chain hkeep stack fuel refs (acc ++ [ref]) i b.header.addr hl
      (forall_mem_cons.mp hsub).2
    rw [length_cons, ← add_assoc, repairLoop]
    simp only [hne, if_false, hread, href.refOfBlock hai hb, bind_some]
    rw [ih, append_assoc, singleton_append]

end NBTreeExtentsList

/-! ## Linked levels -/

/-- From the rescue point below each level, the links lead through its references;
all nodes are among the first `n` blocks. -/
def Linked (bs : BlockStore V) (n : Nat) : LogicAddr → List (Level V) → Prop
  | _, [] => True
  | r, l :: ls => Links bs n r l.refs.reverse ∧ Linked bs n l.rescue ls

def feet : LogicAddr → List (Level V) → List LogicAddr
  | _, [] => []
  | r, l :: ls => r :: feet l.rescue ls

def topRescue : LogicAddr → List (Level V) → LogicAddr
  | r, [] => r
  | _, l :: ls => topRescue l.rescue ls

omit [DoubleArith V] in
theorem rescues_eq : ∀ (ls : List (Level V)) (r : LogicAddr),
    r :: ls.map Level.rescue = feet r ls ++ [topRescue r ls]
  | [], _ => rfl
  | l :: ls, r => by
    rw [feet, topRescue, map_cons, rescues_eq ls l.rescue]
    rfl

def Level.blank (l : Level V) : Level V := { l with refs := [], fits := Nat.zero_le _ }

def refCount (ls : List (Level V)) : Nat := (ls.map (fun l => l.refs.length)).sum

/-- The loop restores levels below `top`, each after those above it. -/
theorem repairLoop_levels : ∀ (ls pre top : List (Level V)) (r : LogicAddr)
    (stack : List LogicAddr) (fuel : Nat) (s : OpenTree V) (leaves : List StoredLeaf),
    s.bstore.removedBelow = 0 → s.levels = pre ++ ls.map .blank ++ top →
    Linked s.bstore s.bstore.blocks.length r ls → Stores s.bstore id pre.length ls leaves →
    ∃ w, s.writeCount + refCount ls ≤ w ∧
      repairLoop (fuel + (refCount ls + ls.length)) ((feet r ls).reverse ++ stack)
        [] s.list = repairLoop fuel stack []
          (OpenTree.list { s with levels := pre ++ ls ++ top, writeCount := w })
  | [], pre, top, r, stack, fuel, s, _, _, hs, _, _ => by
    refine ⟨s.writeCount, le_rfl, ?_⟩
    rw [append_nil, ← show s.levels = pre ++ top by simpa using hs]
    rfl
  | l :: ls, pre, top, r, stack, fuel, s, _, hkeep, hs, ⟨hlink, hup⟩,
      ⟨upper, groups, _, hall, hst⟩ => by
    have hs' : s.levels = (pre ++ [l.blank]) ++ ls.map .blank ++ top := by simpa using hs
    have hst' : Stores s.bstore id (pre ++ [l.blank]).length ls upper := by simpa using hst
    obtain ⟨w, hw, hrest⟩ := repairLoop_levels ls (pre ++ [l.blank]) top l.rescue (r :: stack)
      (fuel + l.refs.length + 1) s upper hkeep hs' hup hst'
    let s1 : OpenTree V := { s with levels := pre ++ [l.blank] ++ ls ++ top, writeCount := w }
    have hsub : ∀ ref ∈ l.refs.reverse, ∃ leaves, Sub s1.list.bstore id pre.length ref leaves := by
      intro ref hr
      obtain ⟨g, -, hg⟩ := Pairs.exists_right hall (mem_reverse.mp hr)
      exact ⟨g, hg⟩
    have hlevel : ∀ ref ∈ l.refs, ref.level = pre.length := by
      intro ref hr
      obtain ⟨g, hg⟩ := hsub ref (mem_reverse.mpr hr)
      exact hg.level
    have hlen : l.blank.refs.length + l.refs.length ≤ nbtreeFanout := by
      simpa [Level.blank] using l.fits
    obtain ⟨w', hw', hpush⟩ := appendAll_push l.refs s1 pre (ls ++ top) l.blank
      hlen (by simp [s1]) hlevel
    have hchain := repairLoop_chain hkeep stack fuel l.refs.reverse [] _ r hlink hsub
    have hcount : refCount (l :: ls) = l.refs.length + refCount ls := by simp [refCount]
    have hrounds : fuel + (refCount (l :: ls) + (l :: ls).length) =
        fuel + l.refs.length + 1 + (refCount ls + ls.length) := by
      rw [length_cons]
      omega
    have hstack : (feet r (l :: ls)).reverse ++ stack =
        (feet l.rescue ls).reverse ++ r :: stack := by simp [feet]
    refine ⟨w', by simp only [s1] at hw'; omega, ?_⟩
    rw [hrounds, hstack, hrest]
    rw [length_reverse, nil_append, reverse_reverse, hpush] at hchain
    refine hchain.trans ?_
    simp only [append_assoc]
    rfl

/-- A level as `repair` sets it up: its node starts a new chain of links. -/
def Level.reset (l : Level V) : Level V := { l with prev := emptyAddr, nodeFanout := 0, fanout := 0 }

omit [DoubleArith V] in
theorem Linked.reset : ∀ {ls : List (Level V)} {r : LogicAddr},
    Linked bs n r ls → Linked bs n r (ls.map .reset)
  | [], _, h => h
  | _ :: _, _, ⟨hl, hup⟩ => ⟨hl, hup.reset⟩

theorem Stores.reset : ∀ {ls : List (Level V)} {k : Nat}
    {leaves : List StoredLeaf}, Stores bs id k ls leaves → Stores bs id k (ls.map .reset) leaves
  | [], _, _, h => h
  | _ :: _, _, _, ⟨upper, groups, hl, hall, hup⟩ => ⟨upper, groups, hl, hall, hup.reset⟩

section
omit [DoubleArith V]

theorem TopUsed.reset (h : TopUsed ls) : TopUsed (ls.map .reset) := by
  intro l hl
  rw [getLast?_map] at hl
  obtain ⟨l', hl', rfl⟩ := map_eq_some_iff.mp hl
  exact ⟨(h l' hl').1, rfl⟩

theorem feet_reset : ∀ (ls : List (Level V)) (r : LogicAddr), feet r (ls.map .reset) = feet r ls
  | [], _ => rfl
  | l :: ls, r => by rw [map_cons, feet, feet, ← feet_reset ls l.rescue]; rfl

theorem refCount_reset : refCount (ls.map .reset) = refCount ls := by
  rw [refCount, List.map_map]
  rfl

theorem Linked.refCount_le : ∀ {ls : List (Level V)} {r : LogicAddr},
    Linked bs n r ls → refCount ls ≤ ls.length * n
  | [], _, _ => zero_le
  | l :: ls, _, ⟨hl, hup⟩ => by
    have hlen := hl.length_le
    have ih := hup.refCount_le
    simp only [refCount, map_cons, sum_cons, length_cons, length_reverse] at hlen ih ⊢
    rw [Nat.succ_mul]
    omega

theorem emptyInner_eq (id : ParamId) : ∀ (ls : List (Level V)) (k : Nat),
    (∀ l ∈ ls, l.refs = [] ∧ l.prev = emptyAddr ∧ l.nodeFanout = 0 ∧ l.fanout = 0) →
    emptyInner id (k + 1) ls.length = extentsOf id k ls
  | [], _, _ => rfl
  | l :: ls, k, h => by
    obtain ⟨h1, h2, h3, h4⟩ := h l mem_cons_self
    have hfirst : .fresh id (k + 1) = l.extent id k := by
      simp only [Level.extent, Level.node, h1, h2, h3, h4]
      rfl
    have ih := emptyInner_eq id ls (k + 1) (forall_mem_cons.mp h).2
    rw [emptyInner, length_cons, range'_succ, map_cons, hfirst]
    exact congrArg (l.extent id k :: ·) ih

end

namespace OpenTree

/-- A tree with the store and the leaf level's rescue point of `s`, as `repair`
leaves it. -/
def repaired (s : OpenTree V) (ls : List (Level V)) (w : Nat) : OpenTree V :=
  ⟨s.bstore, s.id, .resetLeaf s.id emptyAddr 0, s.rescue, ls, 0, w⟩

theorem repaired_holds (hst : Stores s.bstore s.id 0 ls leaves) (htop : TopUsed ls) (w : Nat) :
    (s.repaired ls w).Holds leaves [] :=
  ⟨IOVecLeaf.accepts_new _, rfl, rfl, hst, htop, fun _ => rfl⟩

/-- Rebuilding a tree whose levels were `ls`, up to the links of their nodes.
The topmost rescue point leads to the node `top`, if any. -/
theorem init_repair (top : Option (SubtreeRef V))
    (hresc : ls.map Level.rescue = s.levels.map Level.rescue) (hkeep : s.bstore.removedBelow = 0)
    (hst : Stores s.bstore s.id 0 ls leaves)
    (hl : Linked s.bstore s.bstore.blocks.length s.rescue ls)
    (htop : Links s.bstore s.bstore.blocks.length (topRescue s.rescue ls) top.toList)
    (hsub : ∀ ref ∈ top, ∃ g, Sub s.bstore s.id ls.length ref g)
    (hstatus : repairStatus s.list.rescuePoints = .repair) :
    ∃ w, refCount ls + top.toList.length ≤ w ∧
      (NBTreeExtentsList.new s.id s.list.rescuePoints s.bstore).init =
        some (s.repaired (ls.map .reset ++ top.toList.map oneRef) w).list := by
  let s0 : OpenTree V := s.repaired ((ls.map .reset).map .blank) 0
  have hlen : s.levels.length = ls.length := by simpa using (congrArg length hresc).symm
  -- the topmost rescue point
  obtain ⟨w1, hw1, happ⟩ := appendAll_top s0 top fun ref href => by
    obtain ⟨g, hg⟩ := hsub ref href
    simpa [s0, repaired] using hg.level
  -- the other levels
  let s1 : OpenTree V := { s0 with
    levels := s0.levels ++ top.toList.map oneRef
    writeCount := w1 }
  have hcount := hl.refCount_le
  have hchain := htop.length_le
  obtain ⟨fuel, hfuel⟩ : ∃ fuel, (ls.length + 1) * (s.bstore.blocks.length + 3) + 1 =
      fuel + 1 + (refCount ls + ls.length) + top.toList.length + 1 := by
    refine ⟨(ls.length + 1) * (s.bstore.blocks.length + 3) - (refCount ls + ls.length) -
      top.toList.length - 1, ?_⟩
    rw [add_mul, mul_add]
    omega
  obtain ⟨w, hw, hloop⟩ := repairLoop_levels (ls.map .reset) []
    (top.toList.map oneRef) s.rescue [] (fuel + 1) s1 leaves hkeep rfl hl.reset hst.reset
  rw [append_nil, feet_reset, refCount_reset, length_map] at hloop
  rw [refCount_reset] at hw
  have hfirst := repairLoop_chain (t := s0.list) hkeep (feet s.rescue ls).reverse
    (fuel + 1 + (refCount ls + ls.length)) top.toList [] _ _ htop
    (fun ref href => hsub ref (mem_toList.mp href))
  rw [nil_append, happ, ← hfuel] at hfirst
  have hstart : ({ new s.id s.list.rescuePoints s.bstore with
      initialized := true, extents := some ⟨.resetLeaf s.id emptyAddr 0,
        emptyInner s.id 1 ls.length⟩ }) = s0.list := by
    have hblank : ((ls.map Level.reset).map Level.blank).map Level.rescue =
        s.levels.map Level.rescue := by
      rw [← hresc, List.map_map, List.map_map]
      rfl
    have hempty := emptyInner_eq s.id ((ls.map .reset).map .blank) 0 (by
      intro l hl
      obtain ⟨_, hl', rfl⟩ := mem_map.mp hl
      obtain ⟨_, -, rfl⟩ := mem_map.mp hl'
      exact ⟨rfl, rfl, rfl, rfl⟩)
    rw [length_map, length_map] at hempty
    simp only [new, list, s0, repaired, hblank, hempty]
  refine ⟨w, by simp only [s1] at hw hw1; omega, ?_⟩
  have hstack : s.list.rescuePoints.reverse =
      topRescue s.rescue ls :: (feet s.rescue ls).reverse := by
    rw [list, ← hresc, rescues_eq, reverse_append]
    rfl
  have hn : s.list.rescuePoints.length = ls.length + 1 := by simp [list, hlen]
  simp only [init, new, hstatus, repair, hn, Nat.add_sub_cancel, hstack] at hstart ⊢
  rw [hstart, hfirst]
  exact hloop

end OpenTree

/-! ## Writing nodes in step -/

/-- The links of the nodes a commit writes: `link` is that of the node at hand,
`rescue` the rescue point of its level, and the levels are those above. A node is
linked to the node before it when both end up in one superblock. -/
def LinksInStep : LogicAddr → LogicAddr → List (Level V) → Prop
  | link, _, [] => link = emptyAddr
  | link, rescue, l :: ls =>
    if l.refs.length < nbtreeFanout then link = rescue
    else link = emptyAddr ∧ LinksInStep l.prev l.rescue ls

/-- The link in the header of block `n`. -/
def HasLink (bs : BlockStore V) (n : Nat) (link : LogicAddr) : Prop :=
  ∃ b, bs.blocks[n]? = some b ∧ b.header.addr = link

section
omit [DoubleArith V]

variable {link : LogicAddr}

theorem HasLink.links {m : Nat} {pl : SubtreeRef V}
    {refs : List (SubtreeRef V)} (h : HasLink bs n link) (hpl : pl.addr = bs.alloc n) (hm : n < m)
    (hl : Links bs n link refs) : Links bs m pl.addr (pl :: refs) := by
  obtain ⟨b, hb, hlink⟩ := h
  exact ⟨rfl, n, b, hm, hpl, hb, by rw [hlink]; exact hl⟩

theorem HasLink.mono (hext : bs.Extends bs') (h : HasLink bs n link) : HasLink bs' n link := by
  obtain ⟨b, hb, hlink⟩ := h
  exact ⟨b, hext.getElem? hb, hlink⟩

theorem HasLink.lt (h : HasLink bs n link) : n < bs.blocks.length := by
  obtain ⟨b, hb, -⟩ := h
  exact lt_of_getElem? hb

end

/-- The node at `addr` is the root of a tree of height `k + 1` and has no link. -/
def RootAt (bs : BlockStore V) (id : ParamId) (k : Nat) (addr : LogicAddr)
    (refs : List (SubtreeRef V)) : Prop :=
  ∃ i fanout, addr = bs.alloc i ∧ InnerAt bs id (k + 1) i fanout emptyAddr refs ∧
    ∀ r ∈ refs, ∃ j, j < i ∧ r.addr = bs.alloc j

theorem RootAt.mono (h : bs.Extends bs') {refs : List (SubtreeRef V)}
    (hr : RootAt bs id k addr refs) : RootAt bs' id k addr refs := by
  obtain ⟨i, fanout, haddr, hat, hold⟩ := hr
  exact ⟨i, fanout, by rw [haddr, h.1], h.getElem? hat, by rw [h.1]; exact hold⟩

/-- From the rescue points, the links lead through the references of the levels,
apart from the references `saved` of a root that was opened again. -/
def Chained (bs : BlockStore V) (id : ParamId) (n : Nat) (saved : List (SubtreeRef V)) :
    Nat → LogicAddr → List (Level V) → Prop
  | _, r, [] => r = emptyAddr ∧ saved = []
  | k, r, l :: ls =>
    Links bs n r l.refs.reverse ∧ Chained bs id n saved (k + 1) l.rescue ls ∨
    ls = [] ∧ saved ≠ [] ∧ ∃ new, l.refs = saved ++ new ∧ Links bs n r new.reverse ∧
      RootAt bs id k l.rescue saved

/-- The rescue points of the tree lead through its levels. -/
abbrev OpenTree.Chains (s : OpenTree V) (saved : List (SubtreeRef V)) : Prop :=
  Chained s.bstore s.id s.bstore.blocks.length saved 0 s.rescue s.levels

theorem Chained.mono (h : bs.Extends bs') {n' : Nat} (hn : n ≤ n') :
    ∀ {ls : List (Level V)} {k : Nat}
    {r : LogicAddr}, Chained bs id n saved k r ls → Chained bs' id n' saved k r ls
  | [], _, _, hc => hc
  | _ :: _, _, _, hc => by
    rcases hc with ⟨hl, hup⟩ | ⟨hnil, hsaved, new, hrefs, hl, hroot⟩
    · exact .inl ⟨hl.mono h hn, hup.mono h hn⟩
    · exact .inr ⟨hnil, hsaved, new, hrefs, hl.mono h hn, hroot.mono h⟩

/-- A cascade of nodes whose links are in step keeps the levels chained; a root
that was opened again may be written anew. -/
theorem cascade_chained {id : ParamId} {saved : List (SubtreeRef V)} : ∀ {ls : List (Level V)}
    {k : Nat} {bs : BlockStore V} {pl : SubtreeRef V} {link r : LogicAddr} {n : Nat},
    Chained bs id n saved k r ls → LinksInStep link r ls → pl.addr = bs.alloc n →
    HasLink bs n link → ∃ saved', (saved' = saved ∨ saved' = []) ∧
      Chained (cascade id k bs ls pl).1 id (cascade id k bs ls pl).1.blocks.length saved' k pl.addr
        (cascade id k bs ls pl).2
  | [], k, bs, pl, link, r, n, ⟨_, hnil⟩, hstep, hpl, hat => by
    obtain rfl : link = emptyAddr := hstep
    exact ⟨saved, .inl rfl, .inl ⟨hat.links hpl hat.lt rfl, rfl, hnil⟩⟩
  | l :: ls, k, bs, pl, link, r, n, hc, hstep, hpl, hat => by
    have hn := hat.lt
    have hext := (cascade_grows id (l :: ls) k bs pl).ext
    rw [cascade] at hext ⊢
    by_cases hroom : l.refs.length < nbtreeFanout
    · -- the reference joins the chain
      rw [dif_pos hroom]
      obtain rfl : link = r := by simpa only [LinksInStep, hroom, if_true] using hstep
      refine ⟨saved, .inl rfl, ?_⟩
      rcases hc with ⟨hl, hup⟩ | ⟨hnil, hsaved, new, hrefs, hl, hroot⟩
      · refine .inl ⟨?_, hup.mono (.refl bs) hn.le⟩
        rw [Level.push, reverse_append]
        exact hat.links hpl hn hl
      · refine .inr ⟨hnil, hsaved, new ++ [pl], ?_, ?_, hroot⟩
        · rw [← append_assoc, ← hrefs]
          rfl
        · rw [reverse_append]
          exact hat.links hpl hn hl
    · -- the new node is the only one of its chain
      rw [dif_neg hroom] at hext ⊢
      obtain ⟨rfl, hstep'⟩ : link = emptyAddr ∧ LinksInStep l.prev l.rescue ls := by
        simpa only [LinksInStep, hroom, if_false] using hstep
      have hext1 := bs.extends_appendBlock (l.block id k)
      have hat1 : HasLink (bs.appendBlock (l.block id k)).2 bs.blocks.length l.prev :=
        ⟨_, appendBlock_getElem? _, rfl⟩
      have hpl1 : (l.ref id k (bs.appendBlock (l.block id k)).1).addr = _ := rfl
      have hlinks : Links _ _ pl.addr [pl] := (hat.mono hext).links (by rw [hext.1]; exact hpl)
        (hn.trans_le hext.2.length_le) rfl
      rcases hc with ⟨-, hup⟩ | ⟨rfl, -⟩
      · obtain ⟨saved', hsaved', hup'⟩ := cascade_chained (hup.mono hext1 hn.le) hstep' hpl1 hat1
        exact ⟨saved', hsaved', .inl ⟨hlinks, hup'⟩⟩
      · have hnone : Chained (bs.appendBlock (l.block id k)).2 id bs.blocks.length [] (k + 1)
            emptyAddr [] := ⟨rfl, rfl⟩
        obtain ⟨saved', hsaved', hup'⟩ := cascade_chained hnone hstep' hpl1 hat1
        exact ⟨saved', .inr (or_self_iff.mp hsaved'), .inl ⟨hlinks, hup'⟩⟩

theorem Chained.linked : ∀ {ls : List (Level V)}
    {k : Nat} {r : LogicAddr}, Chained bs id n [] k r ls →
    Linked bs n r ls ∧ topRescue r ls = emptyAddr
  | [], _, _, ⟨hr, _⟩ => ⟨trivial, hr⟩
  | _ :: _, _, _, .inl ⟨hl, hup⟩ => ⟨⟨hl, hup.linked.1⟩, hup.linked.2⟩
  | _ :: _, _, _, .inr ⟨_, hne, _⟩ => absurd rfl hne

/-! ## The first session -/

/-- Link and fanout index of the next node agree with the extent above: the node
continues the chain while that extent has room, and starts a new one when it is
full or missing. -/
def Synced : LogicAddr → Nat → LogicAddr → List (Level V) → Prop
  | prev, fanout, _, [] => prev = emptyAddr ∧ fanout = 0
  | prev, fanout, rescue, l :: ls =>
    (if l.refs.length < nbtreeFanout then prev = rescue ∧ fanout = l.refs.length
     else prev = emptyAddr ∧ fanout = 0) ∧
    l.fanout = l.nodeFanout ∧ Synced l.prev l.nodeFanout l.rescue ls

omit [DoubleArith V] in
theorem Synced.linksInStep : ∀ {ls : List (Level V)} {prev : LogicAddr} {fanout : Nat}
    {rescue : LogicAddr}, Synced prev fanout rescue ls → LinksInStep prev rescue ls
  | [], _, _, _, h => h.1
  | l :: ls, _, _, _, ⟨h, _, hup⟩ => by
    rw [LinksInStep]
    by_cases hroom : l.refs.length < nbtreeFanout
    · rw [if_pos hroom] at h ⊢
      exact h.1
    · rw [if_neg hroom] at h ⊢
      exact ⟨h.1, hup.linksInStep⟩

/-- Writing a node and passing its reference up keeps a level in sync. -/
theorem cascade_synced {id : ParamId} {addr : LogicAddr} : ∀ {ls : List (Level V)} {k : Nat}
    {bs : BlockStore V} {pl : SubtreeRef V} {prev rescue : LogicAddr} {fanout : Nat},
    Synced prev fanout rescue ls →
    Synced (nextLink fanout addr).1 (nextLink fanout addr).2 addr (cascade id k bs ls pl).2
  | [], k, bs, pl, prev, rescue, fanout, ⟨_, hf⟩ => by
    subst hf
    exact ⟨⟨rfl, rfl⟩, rfl, rfl, rfl⟩
  | l :: ls, k, bs, pl, prev, rescue, fanout, ⟨h, hfan, hup⟩ => by
    rw [cascade]
    by_cases hroom : l.refs.length < nbtreeFanout
    · rw [if_pos hroom] at h
      rw [dif_pos hroom, h.2]
      refine ⟨?_, hfan, hup⟩
      have hlen : (l.push pl hroom).refs.length = l.refs.length + 1 := by simp [Level.push]
      rw [hlen, nextLink]
      by_cases hlast : l.refs.length + 1 = nbtreeFanout
      · rw [if_neg (by omega), if_pos hlast]
        exact ⟨rfl, rfl⟩
      · rw [if_pos (by omega), if_neg hlast]
        exact ⟨rfl, rfl⟩
    · rw [if_neg hroom] at h
      rw [dif_neg hroom, h.2]
      refine ⟨⟨rfl, rfl⟩, rfl, ?_⟩
      simp only [Level.cleared, hfan]
      exact cascade_synced hup

namespace OpenTree

/-- The tree can be rebuilt, and stays so while it is appended to. -/
structure InSync (s : OpenTree V) : Prop where
  chained : Chained s.bstore s.id s.bstore.blocks.length [] 0 s.rescue s.levels
  synced : Synced s.leaf.last s.leaf.fanoutIndex s.rescue s.levels

theorem InSync.link (h : s.InSync) (hprev : s.leaf.leaf.prev = s.leaf.last)
    (hfan : s.leaf.leaf.fanoutIndex = s.leaf.fanoutIndex) : s.leaf.leaf.link = s.leaf.last := by
  have hzero : s.leaf.fanoutIndex = 0 → s.leaf.last = emptyAddr := by
    intro h0
    obtain ⟨hc, hs⟩ := h
    have hl := hc.linked.1
    cases hlv : s.levels with
    | nil =>
      rw [hlv] at hs
      exact hs.1
    | cons l ls =>
      rw [hlv] at hl hs
      obtain ⟨hs, -, -⟩ := hs
      by_cases hroom : l.refs.length < nbtreeFanout
      · rw [if_pos hroom, h0] at hs
        have hnil : l.refs = [] := eq_nil_of_length_eq_zero hs.2.symm
        have hr := hl.1
        rw [hnil] at hr
        exact hs.1.trans hr
      · rw [if_neg hroom] at hs
        exact hs.1
  rw [IOVecLeaf.link, hprev, hfan]
  by_cases h0 : s.leaf.fanoutIndex = 0
  · rw [if_neg (by omega), hzero h0]
  · by_cases hl : s.leaf.last = emptyAddr
    · rw [if_neg (by simp [hl]), hl]
    · rw [if_pos ⟨hl, pos_of_ne_zero h0⟩]

theorem inSync_fresh : (fresh bs id).InSync := ⟨⟨rfl, rfl⟩, rfl, rfl⟩

theorem flushed_chained {block : Block V} {link : LogicAddr} {pts : List Point} (w : Nat)
    (hc : s.Chains saved) (hstep : LinksInStep link s.rescue s.levels)
    (hat : LeafAt (s.bstore.appendBlock block).2 s.id s.bstore.blocks.length s.leaf.fanoutIndex link pts) :
    ∃ saved', (saved' = saved ∨ saved' = []) ∧
      Chained (s.flushed block pts w).bstore s.id (s.flushed block pts w).bstore.blocks.length saved'
        0 (s.bstore.alloc s.bstore.blocks.length) (s.flushed block pts w).levels := by
  have hlink : HasLink (s.bstore.appendBlock block).2 s.bstore.blocks.length link := by
    obtain ⟨size, nchunks, ntail, bytes, -, hb⟩ := hat
    exact ⟨_, hb, rfl⟩
  exact cascade_chained (hc.mono (s.bstore.extends_appendBlock block) le_rfl) hstep rfl hlink

theorem InSync.step {s' : OpenTree V} {new : List StoredLeaf} {tail tail' : List Point}
    {p : Point} {allowDup : Bool} {r : NBTreeAppendResult} (hh : s.Holds leaves tail)
    (h : s.InSync) (ha : s.Appended tail p allowDup r s' new tail') : s'.InSync := by
  cases ha with
  | late _ => exact h
  | pushed _ _ _ _ => exact ⟨h.chained, h.synced⟩
  | @spilled _ _ leaf block w _ hat _ _ _ =>
    rw [h.link hh.prev hh.fanout] at hat
    obtain ⟨saved', hsaved', hc⟩ := flushed_chained w h.chained h.synced.linksInStep hat
    obtain rfl : saved' = [] := or_self_iff.mp hsaved'
    exact ⟨hc, cascade_synced h.synced⟩

end OpenTree

/-! ## After a crash -/

namespace NBTreeExtentsList

/-- What a crash leaves: the rescue points and the store. -/
def crash (t : NBTreeExtentsList V) : NBTreeExtentsList V := .new t.id t.rescuePoints t.bstore

/-- The references of the open extent of level `k + 1`. -/
def openRefs (t : NBTreeExtentsList V) (k : Nat) : List (SubtreeRef V) :=
  match t.extents with
  | none => []
  | some x => (x.inner[k]?.map (fun e => e.curr.refs)).getD []

end NBTreeExtentsList

theorem Chained.getElem? : ∀ {ls : List (Level V)}
    {r addr : LogicAddr} {i k : Nat}, Chained bs id n [] i r ls →
    (r :: ls.map Level.rescue)[k]? = some addr →
    Links bs n addr (((extentsOf id i ls)[k]?.map (fun e => e.curr.refs)).getD []).reverse
  | [], r, addr, _, 0, h, hk => by
    obtain rfl : r = addr := by simpa using hk
    exact h.1
  | [], _, _, _, k + 1, _, hk => by simp at hk
  | l :: ls, r, addr, _, 0, h, hk => by
    obtain rfl : r = addr := by simpa using hk
    exact h.linked.1.1
  | l :: ls, _, _, i, k + 1, h, hk => by
    rcases h with ⟨-, hup⟩ | ⟨-, hne, -⟩
    · exact hup.getElem? hk
    · exact absurd rfl hne

namespace OpenTree

omit [DoubleArith V] in
theorem repairStatus_of_top (h : topRescue s.rescue s.levels = emptyAddr) :
    repairStatus s.list.rescuePoints = .repair := by
  rw [repairStatus, if_neg]
  rintro ⟨-, hne⟩
  rw [list, rescues_eq, getLast?_concat, h] at hne
  exact hne rfl

theorem init_linked (hst : Stores s.bstore s.id 0 s.levels leaves)
    (hkeep : s.bstore.removedBelow = 0) (hc : s.Chains []) : ∃ w, refCount s.levels ≤ w ∧
      s.list.crash.init = some (s.repaired (s.levels.map .reset) w).list := by
  obtain ⟨hl, htop⟩ := hc.linked
  obtain ⟨w, hw, hinit⟩ := init_repair none rfl hkeep hst hl htop (by simp)
    (repairStatus_of_top htop)
  rw [toList_none, map_nil, append_nil] at hinit
  exact ⟨w, hw, hinit⟩

theorem Shows.crash_init {tail : List Point} (hsh : Shows t s) (h : s.Holds leaves tail)
    (hkeep : s.bstore.removedBelow = 0) (hc : s.Chains []) :
    ∃ t' s', t.crash.init = some t' ∧ Shows t' s' ∧ s'.Holds leaves [] ∧ s'.bstore = s.bstore := by
  rcases hsh with rfl | ⟨hfresh, i, rfl⟩
  · obtain ⟨w, -, hinit⟩ := init_linked h.levels hkeep hc
    exact ⟨_, _, hinit, .inl rfl, repaired_holds h.levels.reset h.top.reset w, rfl⟩
  · rw [hfresh] at h
    obtain ⟨rfl, rfl⟩ := h.eq_nil_of_fresh
    exact ⟨_, fresh s.bstore s.id, rfl, .inr ⟨rfl, true, rfl⟩, h, rfl⟩

theorem Shows.followLinks (hsh : Shows t s) (hkeep : s.bstore.removedBelow = 0) (hc : s.Chains [])
    (hk : t.rescuePoints[k]? = some addr) :
    FastSTDB.followLinks t.bstore (t.bstore.blocks.length + 1) addr =
      some ((t.openRefs k).map SubtreeRef.addr).reverse := by
  rcases hsh with rfl | ⟨-, i, rfl⟩
  · have hlinks : Links s.bstore s.bstore.blocks.length addr (s.list.openRefs k).reverse :=
      hc.getElem? hk
    rw [← map_reverse]
    exact hlinks.follow hkeep _ (lt_add_one _)
  · cases hk

end OpenTree

theorem scan_all (pts : List Point) :
    scan minTimestamp maxTimestamp pts = pts.filter (fun p => decide (p.ts < maxTimestamp)) := by
  rw [scan_forward (by decide)]
  apply filter_congr
  intro p _
  rw [decide_eq_true (minTimestamp_le p.ts), Bool.true_and]

/-- A tree that was filled by appends and crashed is rebuilt with all its stored
leaves; the links from a rescue point lead through the nodes of the extent above,
the newest first. -/
theorem recover_feed (bs : BlockStore V) (hkeep : bs.removedBelow = 0) (id : ParamId)
    (ops : List (Point × Bool)) : ∃ acc t t',
      feed ops (.new id [] bs) = some (acc, t) ∧ t.crash.init = some t' ∧
      (∀ sizes : Nat → Nat, (∀ i, 0 < sizes i) → ∀ fuel, acc.length < fuel →
        t'.drainSearch minTimestamp maxTimestamp fuel sizes =
          some ((points (t.bstore.leavesFrom bs.blocks.length)).filter
            (fun p => decide (p.ts < maxTimestamp)), .noData)) ∧
      ∀ k addr, t.rescuePoints[k]? = some addr →
        followLinks t.bstore (t.bstore.blocks.length + 1) addr =
          some ((t.openRefs k).map SubtreeRef.addr).reverse := by
  obtain ⟨acc, t, s, leaves, tail, hfeed, hsh, h, ⟨hf, hsync⟩, -, rfl⟩ :=
    feed_from_new (fun s leaves tail => OpenTree.Filled bs s leaves tail ∧ s.InSync)
      (fun h hI ha => ⟨hI.1.step ha, hI.2.step h ha⟩)
      ⟨OpenTree.filled_fresh id, OpenTree.inSync_fresh⟩ ops
  have hkeep' : s.bstore.removedBelow = 0 := hf.expired.trans hkeep
  obtain ⟨t', s', hinit, hsh', h', hbs⟩ := hsh.crash_init h hkeep' hsync.chained
  refine ⟨_, t, t', hfeed, hinit, ?_, fun k addr hk => hsh.followLinks hkeep' hsync.chained hk⟩
  intro sizes hsizes fuel hfuel
  have hkeep'' : s'.bstore.removedBelow = 0 := by rw [hbs, hkeep']
  have hsorted : Sorted (points leaves ++ []) := by
    rw [append_nil]
    exact hf.sorted.sublist (sublist_append_left _ _)
  rw [hsh'.drainSearch_kept h' hkeep'' hsorted hsizes
    (by simp only [length_append, length_nil] at hfuel ⊢; omega), append_nil, scan_all, hsh.bstore, hf.written]

/-- More points than a leaf holds: the stored leaves come back. -/
theorem recover_feed_ticks : (memStore Rat).removedBelow = 0 ∧ ∃ t t',
    feed ((ticks 10 (leafBound + 1)).map (·, true)) (.new 7 [] (memStore Rat)) =
      some (ticks 10 (leafBound + 1), t) ∧ t.crash.init = some t' ∧ t.bstore.leavesFrom 0 ≠ [] ∧
    ∀ fuel, leafBound + 1 < fuel → t'.drainSearch minTimestamp maxTimestamp fuel (fun _ => 8) =
      some ((points (t.bstore.leavesFrom 0)).filter (fun p => decide (p.ts < maxTimestamp)),
        .noData) := by
  obtain ⟨acc, t, t', hfeed, hinit, hsearch, -⟩ := recover_feed (memStore Rat) rfl 7
    ((ticks 10 (leafBound + 1)).map (·, true))
  obtain ⟨s, leaves, tail, hticks, -, hf, hne, -⟩ :=
    OpenTree.feed_ticks (memStore Rat) 7 (by decide : 10 + (leafBound + 1) ≤ 2 ^ 64)
  obtain ⟨rfl, rfl⟩ := Prod.mk.inj (some.inj (hfeed.symm.trans hticks))
  refine ⟨rfl, s.list, t', hticks, hinit, ?_, fun fuel hfuel => ?_⟩
  · exact (congrArg (· ≠ []) hf.written).mpr hne
  · exact hsearch (fun _ => 8) (fun _ => by decide) fuel (by simpa [ticks] using hfuel)

end FastSTDB
