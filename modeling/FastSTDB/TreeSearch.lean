import FastSTDB.Append
import FastSTDB.SearchSpec

/-
  Searching a tree

  `search` on a tree chains one operator per extent. Older points are higher up,
  so a forward scan starts at the topmost extent and a backward scan at the open
  leaf (`search_delivers`). Draining the operator of a tree that was filled by
  appends gives the accepted points of the range, also when old blocks have
  expired, for the leaves that are left.
-/
namespace FastSTDB
open List Option Pull SBlockIter NBTreeExtentsList RealOp

variable {V : Type} [DoubleArith V]
variable {leaves : List StoredLeaf} {b e : Timestamp} {bs : BlockStore V} {tail : List Point}
  {s : OpenTree V} {t : NBTreeExtentsList V}

/-! ## Extents -/

section Extents
variable {bs : BlockStore V} {id : ParamId}

theorem Sub.height_lt {k : Nat} {ref : SubtreeRef V} (h : Sub bs id k ref leaves) :
    k < bs.blocks.length := by
  suffices hidx : ∀ k ref leaves i, Sub bs id k ref leaves → ref.addr = bs.alloc i → k ≤ i by
    obtain ⟨i, hi, haddr, -⟩ := h.block
    exact (hidx k ref leaves i h haddr).trans_lt hi
  intro k
  induction k with
  | zero => intro _ _ i _ _; exact Nat.zero_le i
  | succ k ih =>
    intro ref leaves i h haddr
    obtain ⟨i', fanout, link, refs, groups, -, hne, -, rfl, hold, hall, -⟩ := h
    obtain ⟨r, g, -, hr, -, hsub⟩ := Pairs.head hall hne
    obtain ⟨j, hj, hja⟩ := hold r (mem_of_mem_head? hr)
    have hk := ih r g j hsub hja
    have hi : i' = i := bs.alloc_inj haddr
    omega

theorem Stores.height_lt : ∀ {ls : List (Level V)} {k : Nat} {leaves : List StoredLeaf},
    Stores bs id k ls leaves → TopUsed ls → ls ≠ [] → k + ls.length ≤ bs.blocks.length
  | [], _, _, _, _, hne => absurd rfl hne
  | [l], k, _, ⟨_, groups, _, hall, _⟩, htop, _ => by
    obtain ⟨r, g, -, -, -, hsub⟩ := Pairs.head hall (htop l rfl).1
    exact hsub.height_lt
  | l :: l2 :: ls, k, _, ⟨_, _, _, _, hup⟩, htop, _ => by
    have := Stores.height_lt hup (fun l' hl' => htop l' hl') (by simp)
    simp only [length_cons] at this ⊢
    omega

theorem searchInner_delivers (haged : bs.Aged) {k : Nat} {l : Level V}
    {groups : List (List StoredLeaf)} (hall : Forall₂ (Sub bs id k) l.refs groups)
    (hs : Scannable b e groups.flatten) {depth : Nat} (hd : k < depth) :
    Delivers (RealOp.read bs (depth + 1)) Same (searchInner (l.extent id k) b e)
      (scan b e (points (bs.live groups.flatten))) := by
  rw [scan_live_flatten]
  refine sblock_delivers (.inr (left_ofNode ?_))
  exact forall₂_opens hall (fun _ _ hg hsub => hsub.opens_search haged b e (hs.group hg) hd)

/-- The operators over the extents, from the lowest, deliver the pieces of the
leaves, from the newest. -/
theorem Stores.delivers (haged : bs.Aged) (depth : Nat) :
    ∀ {ls : List (Level V)} {k : Nat} {leaves : List StoredLeaf}, Stores bs id k ls leaves →
      Scannable b e leaves → k + ls.length ≤ depth →
      ∃ pieces : List (List StoredLeaf), leaves = pieces.reverse.flatten ∧
        Forall₂ (Delivers (RealOp.read bs (depth + 1)) Same)
          ((extentsOf id k ls).map (searchInner · b e))
          (pieces.map (fun g => scan b e (points (bs.live g))))
  | [], _, leaves, hs, _, _ => by
    obtain rfl : leaves = [] := hs
    exact ⟨[], rfl, .nil⟩
  | l :: ls, k, _, ⟨upper, groups, rfl, hall, hup⟩, hs, hd => by
    have hs' : Scannable b e [upper, groups.flatten].flatten := by simpa using hs
    simp only [length_cons] at hd
    obtain ⟨pieces, rfl, hpieces⟩ := Stores.delivers haged depth hup
      (hs'.group (by simp)) (by omega)
    refine ⟨groups.flatten :: pieces, by simp, .cons ?_ hpieces⟩
    exact searchInner_delivers haged hall (hs'.group (by simp)) (by omega)

end Extents

/-! ## The whole tree -/

theorem scan_append (pts pts' : List Point) :
    scan b e (pts ++ pts') = if b < e then scan b e pts ++ scan b e pts'
      else scan b e pts' ++ scan b e pts := by
  unfold scan
  by_cases h : b < e <;> simp [h]

theorem scan_length_le (b e : Timestamp) (pts : List Point) :
    (scan b e pts).length ≤ pts.length := by
  unfold scan
  split
  · exact length_filter_le _ _
  · rw [length_reverse]; exact length_filter_le _ _

theorem chainOf_delivers {depth : Nat} {leaf : RealOp V} {inner : List (RealOp V)}
    {xs : List Point} {xss : List (List Point)}
    (hleaf : ∀ depth, Delivers (read bs (depth + 1)) Same leaf xs)
    (hinner : Forall₂ (Delivers (RealOp.read bs (depth + 1)) Same) inner xss) (forward : Bool) :
    Delivers (RealOp.read bs (depth + 2)) Same (chainOf leaf inner forward)
      (if forward then (xs :: xss).reverse else xs :: xss).flatten := by
  cases hinner with
  | nil =>
    have hflat : (if forward then [xs].reverse else [xs]).flatten = xs := by cases forward <;> simp
    rw [hflat]
    exact hleaf (depth + 1)
  | cons h hrest =>
    have hall := Forall₂.cons (hleaf depth) (Forall₂.cons h hrest)
    cases forward with
    | true => exact chain_delivers (rel_reverse hall)
    | false => exact chain_delivers hall

namespace OpenTree

/-- Everything in the tree is in order, or each leaf is and the range covers all
time. -/
def Searchable (b e : Timestamp) (leaves : List StoredLeaf) (tail : List Point) : Prop :=
  Scannable b e leaves ∧ Sorted tail

theorem searchable_of_sorted (h : Sorted (points leaves ++ tail)) : Searchable b e leaves tail :=
  ⟨scannable_of_sorted (h.sublist (sublist_append_left _ _)) b e,
    h.sublist (sublist_append_right _ _)⟩

theorem Holds.levels_le (h : s.Holds leaves tail) : s.levels.length ≤ s.bstore.blocks.length := by
  by_cases hne : s.levels = []
  · rw [hne]; exact zero_le
  · have := h.levels.height_lt h.top hne
    omega

theorem searchExtents_delivers (h : s.Holds leaves tail) (haged : s.bstore.Aged)
    (hs : Searchable b e leaves tail) : ∃ op, s.list.searchExtents b e = some op ∧
      Delivers (read s.bstore (depth s.bstore)) Same op
        (scan b e (points (s.bstore.live leaves) ++ tail)) := by
  obtain ⟨it, hit, hg, hrest⟩ := h.leaf.has.reads.ofLeaf hs.2 b e
  have hleaf : searchLeaf ⟨s.leaf, extentsOf s.id 0 s.levels⟩ b e = some (.leaf it) := by
    simp [searchLeaf, hit]
  have hlen := h.levels_le
  obtain ⟨pieces, rfl, hpieces⟩ := Stores.delivers haged (s.bstore.blocks.length + 1)
    h.levels hs.1 (by omega)
  refine ⟨_, by simp only [searchExtents, list, hleaf]; rfl, ?_⟩
  have hchain := chainOf_delivers (leaf_delivers hg) hpieces (decide (b < e))
  rw [scan_append, scan_live_flatten, ← hrest]
  show Delivers (RealOp.read s.bstore (s.bstore.blocks.length + 1 + 2)) _ _ _
  by_cases hbe : b < e <;> simpa [scanOrder, hbe] using hchain

omit [DoubleArith V] in
theorem empty_delivers (depth : Nat) : Delivers (RealOp.read bs (depth + 1)) Same .empty [] := by
  refine .coinduct (fun op xs => op = .empty ∧ xs = []) ?_ ⟨rfl, rfl⟩
  rintro _ _ ⟨rfl, rfl⟩ φ n hn
  exact ⟨⟨.noData, [], .empty, φ⟩, [], [], rfl, rfl, rfl, zero_le, ⟨rfl, rfl⟩, .inr ⟨rfl, rfl, hn⟩⟩

theorem Holds.eq_nil_of_fresh {id : ParamId} (h : (fresh bs id).Holds leaves tail) :
    leaves = [] ∧ tail = [] := ⟨h.levels, eq_nil_of_length_eq_zero h.leaf.has.nelements.symm⟩

theorem Shows.search_delivers (hsh : Shows t s) (h : s.Holds leaves tail) (haged : s.bstore.Aged)
    (hs : Searchable b e leaves tail) :
    ∃ op t', t.search b e = some (op, t') ∧ t'.bstore = s.bstore ∧
      Delivers (read s.bstore (depth s.bstore)) Same op
        (scan b e (points (s.bstore.live leaves) ++ tail)) := by
  obtain ⟨op, hop, hdel⟩ := searchExtents_delivers h haged hs
  rcases hsh with rfl | ⟨hfresh, i, rfl⟩
  · refine ⟨op, s.list, ?_, rfl, hdel⟩
    show ((some s.list).bind _) = _
    simp [hop]
  · rw [hfresh] at h
    obtain ⟨rfl, rfl⟩ := h.eq_nil_of_fresh
    refine ⟨.empty, { new s.id [] s.bstore with initialized := true }, ?_, rfl, ?_⟩
    · cases i <;> rfl
    · have hnil : scan b e (points (s.bstore.live []) ++ []) = [] := scan_nil
      rw [hnil]
      exact empty_delivers _

end OpenTree

/-! ## Trees filled by appends -/

namespace NBTreeExtentsList

section
variable (t : NBTreeExtentsList V)

/-- Drain `search(begin, end)`, reading with the given buffer sizes. -/
def drainSearch (beginTs endTs : Timestamp) (fuel : Nat)
    (sizes : Nat → Nat) : Option (List Point × Status) :=
  (t.search beginTs endTs).bind fun (op, t) =>
    drain (read t.bstore (depth t.bstore)) .ok fuel () op sizes

def openPoints : List Point :=
  match t.extents with
  | none => []
  | some x => (x.leaf.leaf.readAll.map Prod.snd).getD []

def expire (addr : LogicAddr) : NBTreeExtentsList V :=
  { t with bstore := t.bstore.expire addr }

end

end NBTreeExtentsList

namespace OpenTree

section
variable (hsh : Shows t s)
include hsh

theorem Shows.drainSearch (h : s.Holds leaves tail) (haged : s.bstore.Aged)
    (hs : Searchable b e leaves tail) {sizes : Nat → Nat} (hsizes : ∀ i, 0 < sizes i) {fuel : Nat}
    (hfuel : (points leaves ++ tail).length < fuel) : t.drainSearch b e fuel sizes =
      some (scan b e (points (s.bstore.live leaves) ++ tail), .noData) := by
  obtain ⟨op, t', hop, hbs, hdel⟩ := hsh.search_delivers h haged hs
  have hlen : (scan b e (points (s.bstore.live leaves) ++ tail)).length < fuel := by
    have h1 := (points_live_sublist s.bstore leaves).length_le
    have h2 := (scan_length_le b e (points (s.bstore.live leaves) ++ tail))
    rw [length_append] at h2 hfuel
    omega
  rw [NBTreeExtentsList.drainSearch, hop, bind_some]
  simp only [hbs]
  exact hdel.drain_eq fuel () sizes hlen hsizes

theorem Shows.drainSearch_kept (h : s.Holds leaves tail) (hkeep : s.bstore.removedBelow = 0)
    (hs : Sorted (points leaves ++ tail)) {sizes : Nat → Nat} (hsizes : ∀ i, 0 < sizes i)
    {fuel : Nat} (hfuel : (points leaves ++ tail).length < fuel) :
    t.drainSearch b e fuel sizes = some (scan b e (points leaves ++ tail), .noData) := by
  rw [hsh.drainSearch h (BlockStore.aged_of_keeps hkeep) (searchable_of_sorted hs) hsizes hfuel,
    BlockStore.live_of_keeps hkeep]

theorem Shows.bstore : t.bstore = s.bstore := by rcases hsh with rfl | ⟨-, i, rfl⟩ <;> rfl

theorem Shows.last : t.last = s.last := by
  rcases hsh with rfl | ⟨hfresh, i, rfl⟩
  · rfl
  · rw [hfresh]
    rfl

theorem Shows.openPoints (h : s.Holds leaves tail) : t.openPoints = tail := by
  rcases hsh with rfl | ⟨hfresh, i, rfl⟩
  · simp [openPoints, list, h.leaf.has.readAll]
  · rw [hfresh] at h
    rw [h.eq_nil_of_fresh.2]
    rfl

theorem Shows.expire (addr : LogicAddr) :
    Shows (t.expire addr) { s with bstore := s.bstore.expire addr } := by
  rcases hsh with rfl | ⟨hfresh, i, rfl⟩
  · exact .inl rfl
  · refine .inr ⟨?_, i, rfl⟩
    rw [hfresh]
    rfl

end

theorem Holds.expire (h : s.Holds leaves tail) (addr : LogicAddr) :
    OpenTree.Holds { s with bstore := s.bstore.expire addr } leaves tail :=
  ⟨h.leaf, h.prev, h.fanout, h.levels.mono (s.bstore.extends_expire addr), h.top, h.single⟩

/-- The leaves of the tree are those written since the store was `bs`, which lost
nothing meanwhile. -/
structure Kept (bs : BlockStore V) (s : OpenTree V) (leaves : List StoredLeaf) : Prop where
  grown : bs.Extends s.bstore
  expired : s.bstore.removedBelow = bs.removedBelow
  written : s.bstore.leavesFrom bs.blocks.length = leaves

theorem kept_fresh (id : ParamId) : Kept bs (fresh bs id) [] := ⟨.refl bs, rfl, leavesFrom_length⟩

variable {r : NBTreeAppendResult} {new : List StoredLeaf} {tail' : List Point}

theorem Kept.step {s' : OpenTree V} {p : Point} {allowDup : Bool} (hk : Kept bs s leaves)
    (ha : s.Appended tail p allowDup r s' new tail') : Kept bs s' (leaves ++ new) where
  grown := hk.grown.trans ha.bstore.1
  expired := ha.bstore.2.trans hk.expired
  written := by rw [(ha.leavesFrom hk.grown.2.length_le).1, hk.written]

/-- What holds of a tree that was created over the store `bs` and filled by
appends. -/
structure Filled (bs : BlockStore V) (s : OpenTree V) (leaves : List StoredLeaf)
    (tail : List Point) : Prop extends Kept bs s leaves where
  sorted : Sorted (points leaves ++ tail)
  newest : ∀ p ∈ points leaves ++ tail, p.ts ≤ s.last

theorem filled_fresh (id : ParamId) : Filled bs (fresh bs id) [] [] :=
  ⟨kept_fresh id, .nil, fun _ h => (by cases h)⟩

theorem Filled.step {s' : OpenTree V} {p : Point} {allowDup : Bool} (hf : Filled bs s leaves tail)
    (ha : s.Appended tail p allowDup r s' new tail') : Filled bs s' (leaves ++ new) tail' := by
  have hpts : points (leaves ++ new) ++ tail' =
      points leaves ++ tail ++ if r = .failLateWrite then [] else [p] := by
    rw [points_append, append_assoc, ha.points_eq, append_assoc]
  refine ⟨hf.toKept.step ha, ?_, ?_⟩
  · rw [hpts]
    rcases ha.last with ⟨hr, -⟩ | ⟨hr, -, hle⟩
    · rw [if_pos hr, append_nil]; exact hf.sorted
    · rw [if_neg hr]
      refine pairwise_append.mpr ⟨hf.sorted, pairwise_singleton _ _, fun q hq q' hq' => ?_⟩
      rw [mem_singleton.mp hq']
      exact (hf.newest q hq).trans hle
  · rw [hpts]
    rcases ha.last with ⟨hr, hl⟩ | ⟨hr, hl, hle⟩
    · rw [if_pos hr, append_nil, hl]; exact hf.newest
    · rw [if_neg hr, hl]
      intro q hq
      rcases mem_append.mp hq with hq | hq
      · exact (hf.newest q hq).trans hle
      · rw [mem_singleton.mp hq]

theorem feed_filled (bs : BlockStore V) (id : ParamId) (ops : List (Point × Bool)) :
    ∃ acc t s leaves tail, feed ops (.new id [] bs) = some (acc, t) ∧
      Shows t s ∧ s.Holds leaves tail ∧ Filled bs s leaves tail ∧ (t = s.list → tail ≠ []) ∧
      acc = points leaves ++ tail :=
  feed_from_new (Filled bs) (fun _ hf ha => hf.step ha) (filled_fresh id) ops

end OpenTree

/-- Points of value 1, one at each time from `first` on. -/
@[irreducible] def ticks (first n : Nat) : List Point :=
  (List.range n).map fun i => ⟨.ofNat (first + i), 0x3ff0000000000000⟩

theorem ticks_increase {first n : Nat} (h : first + n ≤ 2 ^ 64) :
    (ticks first n).Pairwise fun p q => p.ts < q.ts := by
  rw [ticks]
  refine pairwise_map.mpr (pairwise_lt_range.imp_of_mem fun ha hb hab => ?_)
  have hb' := mem_range.mp hb
  rw [UInt64.lt_iff_toNat_lt, UInt64.toNat_ofNat', UInt64.toNat_ofNat']
  omega

theorem ticks_range {first n : Nat} (h : first + n ≤ 2 ^ 64) {p : Point} (hp : p ∈ ticks first n) :
    first ≤ p.ts.toNat ∧ p.ts.toNat < first + n := by
  rw [ticks] at hp
  obtain ⟨i, hi, rfl⟩ := mem_map.mp hp
  have hi' := mem_range.mp hi
  rw [UInt64.toNat_ofNat']
  omega

/-- More ticks than a leaf holds: a leaf is stored. -/
theorem OpenTree.feed_ticks (bs : BlockStore V) (id : ParamId) {first : Nat}
    (hfirst : first + (leafBound + 1) ≤ 2 ^ 64) : ∃ s leaves tail,
      feed ((ticks first (leafBound + 1)).map (·, true)) (.new id [] bs) =
        some (ticks first (leafBound + 1), s.list) ∧
      s.Holds leaves tail ∧ Filled bs s leaves tail ∧ leaves ≠ [] ∧ tail ≠ [] ∧
      ticks first (leafBound + 1) = points leaves ++ tail := by
  obtain ⟨acc, t, s, leaves, tail, hfeed, hsh, h, hf, hopen, hacc⟩ :=
    feed_filled bs id ((ticks first (leafBound + 1)).map (·, true))
  obtain ⟨t', hfeed'⟩ := feed_sorted bs ((ticks_increase hfirst).imp le_of_lt)
  obtain ⟨rfl, rfl⟩ := Prod.mk.inj (some.inj (hfeed.symm.trans hfeed'))
  have hne : leaves ≠ [] := h.leaves_ne_nil (by rw [← hacc]; simp [ticks])
  rcases hsh with rfl | ⟨hfresh, i, rfl⟩
  · exact ⟨s, leaves, tail, hfeed, h, hf, hne, hopen rfl, hacc⟩
  · rw [hfresh] at h
    exact absurd h.eq_nil_of_fresh.1 hne

/-- A search over a tree that was filled by appends gives the accepted points of
its range, in the order they were appended or in reverse order. -/
theorem search_feed (bs : BlockStore V) (hkeep : bs.removedBelow = 0) (id : ParamId)
    (ops : List (Point × Bool)) : ∃ acc t, feed ops (.new id [] bs) = some (acc, t) ∧
      ∀ (b e : Timestamp) (sizes : Nat → Nat), (∀ i, 0 < sizes i) →
        (b < e → ∀ fuel, acc.length < fuel → t.drainSearch b e fuel sizes =
          some (acc.filter (fun p => decide (b ≤ p.ts) && decide (p.ts < e)), .noData)) ∧
        (e < b → ∀ fuel, acc.length < fuel → t.drainSearch b e fuel sizes =
          some ((acc.filter (fun p => decide (e < p.ts) && decide (p.ts ≤ b))).reverse,
            .noData)) := by
  obtain ⟨acc, t, s, leaves, tail, hfeed, hsh, h, hf, -, rfl⟩ := OpenTree.feed_filled bs id ops
  have hkeep' : s.bstore.removedBelow = 0 := hf.expired.trans hkeep
  refine ⟨_, t, hfeed, fun b e sizes hsizes => ⟨?_, ?_⟩⟩
  · intro hbe fuel hfuel
    rw [hsh.drainSearch_kept h hkeep' hf.sorted hsizes hfuel, scan_forward hbe]
  · intro hbe fuel hfuel
    rw [hsh.drainSearch_kept h hkeep' hf.sorted hsizes hfuel, scan_backward (not_lt.mpr hbe.le)]

theorem search_feed_memStore : (memStore Rat).removedBelow = 0 ∧ ∃ acc t,
    feed [(⟨10, 1⟩, false), (⟨10, 2⟩, false), (⟨20, 3⟩, true)]
      (.new 7 [] (memStore Rat)) = some (acc, t) ∧
    ∀ fuel, acc.length < fuel → t.drainSearch 0 15 fuel (fun _ => 1) =
      some (acc.filter (fun p => decide (0 ≤ p.ts) && decide (p.ts < 15)), .noData) := by
  obtain ⟨acc, t, hfeed, h⟩ := search_feed (memStore Rat) rfl 7
    [(⟨10, 1⟩, false), (⟨10, 2⟩, false), (⟨20, 3⟩, true)]
  exact ⟨rfl, acc, t, hfeed, (h 0 15 (fun _ => 1) (fun _ => one_pos)).1 (by decide)⟩

/-- A search after the blocks below `limit` have expired gives the accepted points
of its range that lie in a leaf that is left or in the open leaf. -/
theorem search_expired (bs : BlockStore V) (hmono : StrictMono bs.alloc) (id : ParamId)
    (ops : List (Point × Bool)) : ∃ acc t, feed ops (.new id [] bs) = some (acc, t) ∧
      acc = points (t.bstore.leavesFrom bs.blocks.length) ++ t.openPoints ∧
      ∀ (limit : LogicAddr) (b e : Timestamp) (sizes : Nat → Nat), (∀ i, 0 < sizes i) →
        ∀ fuel, acc.length < fuel → (t.expire limit).drainSearch b e fuel sizes =
          some (scan b e (points ((t.bstore.leavesFrom bs.blocks.length).filter
            (fun l => decide (limit ≤ l.addr))) ++ t.openPoints), .noData) := by
  obtain ⟨acc, t, s, leaves, tail, hfeed, hsh, h, hf, -, rfl⟩ := OpenTree.feed_filled bs id ops
  have hmono' : StrictMono s.bstore.alloc := by rw [hf.grown.1]; exact hmono
  have hleaves : t.bstore.leavesFrom bs.blocks.length = leaves := by rw [hsh.bstore, hf.written]
  refine ⟨_, t, hfeed, by rw [hleaves, hsh.openPoints h], fun limit b e sizes hsizes fuel hfuel => ?_⟩
  rw [hleaves, hsh.openPoints h]
  exact (hsh.expire limit).drainSearch (h.expire limit) (BlockStore.aged_of_strictMono hmono')
    (OpenTree.searchable_of_sorted hf.sorted) hsizes hfuel

/-- More points than a leaf holds, and the first stored leaf expires. -/
theorem search_expired_ticks : StrictMono (memStore Rat).alloc ∧ ∃ t l rest,
    feed ((ticks 10 (leafBound + 1)).map (·, true)) (.new 7 [] (memStore Rat)) =
      some (ticks 10 (leafBound + 1), t) ∧ t.bstore.leavesFrom 0 = l :: rest ∧
    ∀ fuel, leafBound + 1 < fuel → (t.expire (l.addr + 1)).drainSearch maxTimestamp 0 fuel (fun _ => 2) =
      some (scan maxTimestamp 0 (points (rest.filter (fun l' => decide (l.addr + 1 ≤ l'.addr))) ++
        t.openPoints), .noData) := by
  have hmono : StrictMono (memStore Rat).alloc := fun _ _ h => memAlloc_strictMono h
  obtain ⟨acc, t, hfeed, -, h⟩ := search_expired (memStore Rat) hmono 7
    ((ticks 10 (leafBound + 1)).map (·, true))
  obtain ⟨s, leaves, tail, hticks, -, hf, hne, -⟩ :=
    OpenTree.feed_ticks (memStore Rat) 7 (by decide : 10 + (leafBound + 1) ≤ 2 ^ 64)
  obtain ⟨rfl, rfl⟩ := Prod.mk.inj (some.inj (hfeed.symm.trans hticks))
  obtain ⟨l, rest, rfl⟩ := exists_cons_of_ne_nil hne
  have hleaves : s.list.bstore.leavesFrom 0 = l :: rest := hf.written
  refine ⟨hmono, s.list, l, rest, hticks, hleaves, fun fuel hfuel => ?_⟩
  have hlen : (ticks 10 (leafBound + 1)).length < fuel := by simpa [ticks] using hfuel
  rw [h (l.addr + 1) maxTimestamp 0 (fun _ => 2) (fun _ => Nat.two_pos) fuel hlen]
  have hblocks : (memStore Rat).blocks.length = 0 := rfl
  rw [hblocks, hleaves, filter_cons_of_neg (by simp)]

end FastSTDB
