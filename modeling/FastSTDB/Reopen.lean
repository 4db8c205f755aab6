import FastSTDB.Close

/-
  Opening a closed tree

  `init` on the addresses returned by `close` gives a tree with the same leaves
  (`Closed.opened`): the root is restored as the topmost level, the levels below it
  are empty; a single leaf becomes the only reference of a first level. `last_` is
  read back from the topmost extent, by a backward scan over all time.

  `Opened` collects what holds of such a tree until it is written to. Closing it
  again returns the same addresses.
-/
namespace FastSTDB
open List Option Pull NBTreeExtentsList OpenTree

variable {V : Type} [DoubleArith V]
variable {pts : List Point} {bs : BlockStore V} {s : OpenTree V} {leaves : List StoredLeaf}
  {k fanout i : Nat} {id : ParamId}

/-! ## The newest timestamp -/

def newest (pts : List Point) : Timestamp := (pts.map Point.ts).foldl max 0

theorem newest_append (p : Point) : newest (pts ++ [p]) = max (newest pts) p.ts := by simp [newest]

theorem newest_le {t : Timestamp} (h : ∀ p ∈ pts, p.ts ≤ t) : newest pts ≤ t := by
  induction pts using reverseRecOn with
  | nil => exact minTimestamp_le t
  | append_singleton pts p ih =>
    rw [newest_append]
    exact max_le (ih (fun q hq => h q (by simp [hq]))) (h p (by simp))

theorem le_newest {p : Point} (h : p ∈ pts) : p.ts ≤ newest pts := by
  induction pts using reverseRecOn with
  | nil => cases h
  | append_singleton pts q ih =>
    rw [newest_append]
    rcases mem_append.mp h with hp | hp
    · exact (ih hp).trans (le_max_left _ _)
    · rw [mem_singleton.mp hp]
      exact le_max_right _ _

/-- A backward scan over all time starts with the newest point, unless that is at
time 0. -/
theorem head_scan_newest (hs : Sorted pts) :
    ((scan maxTimestamp 0 pts).head?.map Point.ts).getD 0 = newest pts := by
  have hback : ¬ maxTimestamp < 0 := by decide
  induction pts using reverseRecOn with
  | nil => rw [scan_nil]; rfl
  | append_singleton pts p _ =>
    have hold : ∀ q ∈ pts, q.ts ≤ p.ts := fun q hq =>
      (pairwise_append.mp hs).2.2 q hq p (mem_singleton_self p)
    rw [newest_append, max_eq_right (newest_le hold), scan_append]
    by_cases hpos : 0 < p.ts
    · have hp : scan maxTimestamp 0 [p] = [p] := by
        rw [scan_backward hback]
        simp [hpos, le_maxTimestamp]
      rw [hp]
      rfl
    · have hzero : p.ts = 0 := le_antisymm (not_lt.mp hpos) (minTimestamp_le _)
      have hnone : ∀ l : List Point, (∀ q ∈ l, q.ts ≤ p.ts) → scan maxTimestamp 0 l = [] := by
        intro l hl
        rw [scan_backward hback, filter_eq_nil_iff.mpr]
        · rfl
        · intro q hq hin
          have hlt : 0 < q.ts := by simpa using (Bool.and_eq_true_iff.mp hin).1
          exact hpos (hlt.trans_le (hl q hq))
      rw [hnone [p] (by simp), hnone pts hold, hzero]
      rfl

/-! ## Restoring `last_` -/

variable {groups : List (List StoredLeaf)} {ls : List (Level V)} {saved : List (SubtreeRef V)}
  {addrs : List LogicAddr}

namespace NBTreeExtentsList

omit [DoubleArith V] in
theorem firstTimestamp_delivers {op : RealOp V} {xs : List Point}
    (h : Delivers (RealOp.read bs (RealOp.depth bs)) Same op xs) :
    firstTimestamp bs op = some ((xs.head?.map Point.ts).getD 0) := by
  obtain ⟨r, xs1, xs2, hread, rfl, he, hlen, -, hst⟩ := h.step () 1 one_pos
  obtain rfl : r.out = xs1 := he
  rw [firstTimestamp, hread, map_some]
  rcases hst with ⟨hok, hne⟩ | ⟨hend, rfl, hroom⟩
  · obtain ⟨p, ps, hout⟩ := exists_cons_of_ne_nil hne
    rw [if_pos hok, hout]
    rfl
  · have hnil : r.out = [] := eq_nil_of_length_eq_zero (by omega)
    rw [if_neg (by rw [hend]; decide), hnil]
    rfl

omit [DoubleArith V] in
theorem dropKilled_list : s.list.dropKilled = s.list := by
  have hkilled : ∀ (ls : List (Level V)) (k : Nat), ∀ e ∈ extentsOf s.id k ls, e.killed = false := by
    intro ls
    induction ls with
    | nil => intro _ e he; cases he
    | cons l ls ih =>
      intro k e he
      rcases mem_cons.mp he with rfl | he
      · rfl
      · exact ih (k + 1) e he
  have hnone : (extentsOf s.id 0 s.levels).reverse.takeWhile (·.killed) = [] := by
    cases hr : (extentsOf s.id 0 s.levels).reverse with
    | nil => rfl
    | cons e es =>
      have he : e ∈ extentsOf s.id 0 s.levels :=
        mem_reverse.mp (by rw [hr]; exact mem_cons_self)
      rw [takeWhile_cons, hkilled _ _ e he]
      rfl
  simp [dropKilled, list, hnone]

/-- The first timestamp of a backward scan over all time. -/
def newestScanned (leaves : List StoredLeaf) : Timestamp :=
  ((scan maxTimestamp 0 (points leaves)).head?.map Point.ts).getD 0

/-- `last_` after opening a tree with the topmost level `l`. -/
theorem restoreLast_list (pre : List (Level V)) {l : Level V} (hs : s.levels = pre ++ [l])
    (hne : l.refs ≠ []) (hkeep : s.bstore.removedBelow = 0)
    (hall : Forall₂ (Sub s.bstore s.id pre.length) l.refs groups)
    (hleaves : leaves = groups.flatten) (hsorted : ∀ leaf ∈ leaves, Sorted leaf.pts) :
    s.list.restoreLast = some (list { s with last := newestScanned leaves }) := by
  subst hleaves
  have hlast : (extentsOf s.id 0 s.levels).getLast? = some (l.extent s.id pre.length) := by
    rw [hs, extentsOf_append, zero_add]
    exact getLast?_concat
  have hheight : pre.length < s.bstore.blocks.length := by
    obtain ⟨r, g, -, -, -, hsub⟩ := Pairs.head hall hne
    exact hsub.height_lt
  have hdel := searchInner_delivers (b := maxTimestamp) (e := 0)
    (BlockStore.aged_of_keeps hkeep) hall ⟨hsorted, .inr (by decide)⟩ (Nat.lt_add_right 2 hheight)
  rw [BlockStore.live_of_keeps hkeep] at hdel
  rw [restoreLast]
  simp only [list, hlast, bind_some]
  rw [firstTimestamp_delivers hdel]
  rfl

/-- The rescue points `close` returns when nothing was written. -/
def idlePoints (rescuePoints : List LogicAddr) : List LogicAddr :=
  if rescuePoints.length = 2 ∧ rescuePoints.getLast? = some emptyAddr then rescuePoints.dropLast
  else rescuePoints

omit [DoubleArith V] in
theorem repairStatus_root {addr : LogicAddr} (h : addr ≠ emptyAddr) :
    repairStatus (replicate k emptyAddr ++ [addr]) = .ok := by
  rw [repairStatus, if_pos]
  constructor
  · simp [h]
  · simpa using h

theorem openTree_root {t : NBTreeExtentsList V} (h : 2 ≤ t.rescuePoints.length) :
    t.openTree = (t.openRoot (t.rescuePoints.getLastD emptyAddr)).bind
      fun t => t.dropKilled.restoreLast := by
  unfold openTree
  match hr : t.rescuePoints with
  | [] => rw [hr] at h; simp at h
  | [_] => rw [hr] at h; simp at h
  | _ :: _ :: _ => rfl

end NBTreeExtentsList

/-! ## The restored levels -/

/-- The topmost level `open` restores from the root at `addr`. -/
def rootLevel (refs : List (SubtreeRef V)) (fits : refs.length ≤ nbtreeFanout) (fanout : Nat)
    (addr : LogicAddr) : Level V :=
  ⟨refs, fits, emptyAddr, fanout, (nextLink fanout addr).2, addr⟩

theorem stores_replicate : ∀ (m k : Nat), Stores bs id (k + m) ls leaves →
    Stores bs id k (replicate m .empty ++ ls) leaves
  | 0, _, h => h
  | m + 1, k, h => by
    have h' : Stores bs id (k + 1 + m) ls leaves := by rwa [show k + 1 + m = k + (m + 1) by omega]
    exact ⟨leaves, [], (append_nil _).symm, .nil, stores_replicate m (k + 1) h'⟩

theorem chained_replicate {n : Nat} : ∀ (m k : Nat), Chained bs id n saved (k + m) emptyAddr ls →
    Chained bs id n saved k emptyAddr (replicate m .empty ++ ls)
  | 0, _, h => h
  | m + 1, k, h => by
    have h' : Chained bs id n saved (k + 1 + m) emptyAddr ls := by
      rwa [show k + 1 + m = k + (m + 1) by omega]
    exact .inl ⟨rfl, chained_replicate m (k + 1) h'⟩

namespace OpenTree

/-- The tree with its root restored. -/
def ofRoot (bs : BlockStore V) (id : ParamId) (k : Nat) (l : Level V) (last : Timestamp) :
    OpenTree V :=
  ⟨bs, id, .resetLeaf id emptyAddr 0, emptyAddr, replicate k .empty ++ [l], last, 0⟩

/-- The tree with its only leaf restored, the reference `ref` to it and its fanout
index. -/
def ofLeafRef (bs : BlockStore V) (id : ParamId) (fanout : Nat) (ref : SubtreeRef V)
    (last : Timestamp) : OpenTree V :=
  ⟨bs, id, .resetLeaf id (nextLink fanout ref.addr).1 (nextLink fanout ref.addr).2, ref.addr,
    [Level.empty.push ref nbtreeFanout_pos], last, 0⟩

theorem ofRoot_holds {l : Level V} (hne : l.refs ≠ []) (hprev : l.prev = emptyAddr)
    (hall : Forall₂ (Sub bs id k) l.refs groups)
    (last : Timestamp) : (ofRoot bs id k l last).Holds groups.flatten [] where
  leaf := IOVecLeaf.accepts_new _
  prev := rfl
  fanout := rfl
  levels := stores_replicate k 0 (by
    rw [zero_add]
    exact ⟨[], groups, rfl, hall, rfl⟩)
  top := by
    intro l' hl'
    obtain rfl : l = l' := by simpa [ofRoot] using hl'
    exact ⟨hne, hprev⟩
  single := fun _ => rfl

theorem ofLeafRef_holds {ref : SubtreeRef V} (h : Sub bs id 0 ref leaves) (last : Timestamp) :
    (ofLeafRef bs id fanout ref last).Holds leaves [] where
  leaf := IOVecLeaf.accepts_new _
  prev := rfl
  fanout := rfl
  levels := ⟨[], [leaves], by simp, .cons h .nil, rfl⟩
  top := by
    intro l hl
    obtain rfl : Level.empty.push ref nbtreeFanout_pos = l := by simpa [ofLeafRef] using hl
    exact ⟨cons_ne_nil _ _, rfl⟩
  single := fun h => absurd h (cons_ne_nil _ _)

/-- A tree that was not written to is already closed. -/
def Idle (s : OpenTree V) (leaves : List StoredLeaf) (tail : List Point) : Prop :=
  s.writeCount = 0 → tail = [] ∧
    Closed s.bstore s.id (idlePoints s.list.rescuePoints) leaves

theorem close_idle (h : s.writeCount = 0) :
    s.list.close = some (idlePoints s.list.rescuePoints, { s.list with
      rescuePoints := idlePoints s.list.rescuePoints
      extents := none
      initialized := false }) := by
  have hinit : s.list.initialized = true := rfl
  have hw : ¬ s.list.writeCount ≠ 0 := fun hn => hn h
  rw [close]
  simp only [hinit, if_true, if_neg hw, idlePoints]
  split <;> rfl

/-- A tree `t`, which is the open tree `s`, was opened from `addrs`. -/
structure Opened (bs : BlockStore V) (id : ParamId) (addrs : List LogicAddr)
    (leaves : List StoredLeaf) (t : NBTreeExtentsList V) (s : OpenTree V) : Prop where
  init : (NBTreeExtentsList.new id addrs bs).init = some t
  shows : Shows t s
  holds : s.Holds leaves []
  bstore : s.bstore = bs
  ident : s.id = id
  idle : s.Idle leaves []
  close : ∃ t', t.close = some (addrs, t') ∧ t'.bstore = bs ∧ t'.id = id
  chained : ∃ saved, Chained bs id bs.blocks.length saved 0 s.rescue s.levels
  last : Sorted (points leaves) → s.last = newest (points leaves)

theorem opened_of_list (hinit : (NBTreeExtentsList.new s.id addrs s.bstore).init = some s.list)
    (h : s.Holds leaves []) (hw : s.writeCount = 0) (hidle : idlePoints s.list.rescuePoints = addrs)
    (hclosed : Closed s.bstore s.id addrs leaves) (hc : s.Chains saved)
    (hlast : Sorted (points leaves) → s.last = newest (points leaves)) :
    Opened s.bstore s.id addrs leaves s.list s where
  init := hinit
  shows := .inl rfl
  holds := h
  bstore := rfl
  ident := rfl
  idle := fun _ => ⟨rfl, by rw [hidle]; exact hclosed⟩
  close := by
    have hclose := close_idle hw
    rw [hidle] at hclose
    exact ⟨_, hclose, rfl, rfl⟩
  chained := ⟨saved, hc⟩
  last := hlast

theorem opened_none : Opened bs id [] [] { NBTreeExtentsList.new id [] bs with initialized := true }
      (fresh bs id) where
  init := rfl
  shows := .inr ⟨rfl, true, rfl⟩
  holds := fresh_holds bs
  bstore := rfl
  ident := rfl
  idle := fun _ => ⟨rfl, .blank⟩
  close := ⟨_, rfl, rfl, rfl⟩
  chained := ⟨[], rfl, rfl⟩
  last := fun _ => rfl

theorem opened_blank : Opened bs id [emptyAddr] [] (fresh bs id).list (fresh bs id) := by
  have hinit : (new id [emptyAddr] bs).init = some (fresh bs id).list := by rfl
  exact opened_of_list hinit (fresh_holds bs) rfl rfl .blank ⟨rfl, rfl⟩
    (fun _ => rfl)

theorem openLeaf_eq {link : LogicAddr} (hat : LeafAt bs id i fanout link pts) (hne : pts ≠ [])
    (hkeep : bs.removedBelow = 0) :
    openLeaf { NBTreeExtentsList.new id [bs.alloc i] bs with initialized := true } (bs.alloc i) =
      some (true, (ofLeafRef bs id fanout (leafRef id fanout pts (bs.alloc i)) 0).list) := by
  obtain ⟨block, leaf, size, hb, hof, -, hmeta, -, hheader⟩ := hat.load
  have hfix := leafMeta_fixed (V := V) id fanout pts
  have hread : bs.readIovecBlock (bs.alloc i) = (.ok, some block) :=
    bs.readIovecBlock_alloc hb (by rw [hkeep]; exact zero_le)
  have hcount : leaf.nelements ≠ 0 := by
    rw [IOVecLeaf.nelements, hmeta, hheader]
    intro h0
    exact hne (eq_nil_of_length_eq_zero (hfix.2.2.2.2.2.2.2.symm.trans h0))
  -- the reference is the one `repair` would build
  have href := (hat.sub hne).refOfBlock rfl hb
  have htype : block.header.type = .leaf := by rw [hheader]; exact hfix.2.2.1
  rw [refOfBlock, if_pos htype, hof, map_some, some.injEq, Prod.mk.injEq] at href
  have hstatus : initSubtreeFromLeaf leaf = (.ok, (initSubtreeFromLeaf leaf).2) := by
    rw [initSubtreeFromLeaf, if_neg hcount]
  have hroot : (.fresh id 1 : NBTreeSBlockExtent V) = Level.empty.extent id 0 := rfl
  have hleaf : NBTreeLeafExtent.new bs id (bs.alloc i) = some (.resetLeaf id
      (nextLink fanout (bs.alloc i)).1 (nextLink fanout (bs.alloc i)).2) := by
    have hfan : block.header.fanoutIndex = fanout := by rw [hheader]; exact hfix.2.2.2.2.2.2.1
    rw [NBTreeLeafExtent.new, if_neg (bs.alloc_ne_empty i), hread]
    simp only [hfan]
  rw [openLeaf]
  simp only [new, hread, hof, bind_some]
  rw [hstatus]
  simp only [href.1, hroot]
  rw [NBTreeSBlockExtent.append_push _ 1 _ _ _ .empty _ nbtreeFanout_pos, bind_some]
  simp only [hleaf]
  rfl

theorem openRoot_eq {refs : List (SubtreeRef V)}
    (hat : InnerAt bs id (k + 1) i fanout emptyAddr refs) (fits : refs.length ≤ nbtreeFanout)
    (hkeep : bs.removedBelow = 0) : openRoot { NBTreeExtentsList.new id
        (replicate (k + 1) emptyAddr ++ [bs.alloc i]) bs with initialized := true } (bs.alloc i) =
      some (ofRoot bs id k (rootLevel refs fits fanout (bs.alloc i)) 0).list := by
  set l := rootLevel refs fits fanout (bs.alloc i)
  have hread := bs.readIovecBlock_alloc hat (by rw [hkeep]; exact zero_le)
  have hnew : NBTreeSBlockExtent.new bs id (bs.alloc i) (k + 1) = some (l.extent id k) := by
    rw [NBTreeSBlockExtent.new, if_neg (bs.alloc_ne_empty i), hread]
    simp only [IOVecSuperblock.cow, IOVecSuperblock.ofBlock, take_length]
    rfl
  have hinner : emptyInner id 1 k ++ [l.extent id k] = extentsOf id 0 (replicate k .empty ++ [l]) := by
    have hempty := emptyInner_eq id (replicate k (.empty : Level V)) 0 (by
      intro l hl
      rw [(mem_replicate.mp hl).2]
      exact ⟨rfl, rfl, rfl, rfl⟩)
    rw [length_replicate] at hempty
    rw [hempty, extentsOf_append, length_replicate, zero_add]
    rfl
  have hrescue : emptyAddr :: (replicate k (.empty : Level V) ++ [l]).map Level.rescue =
      replicate (k + 1) emptyAddr ++ [bs.alloc i] := by
    rw [map_append, map_replicate]
    rfl
  rw [openRoot]
  simp only [new, length_append, length_replicate,
    length_singleton, Nat.add_sub_cancel, hnew, map_some, hinner]
  simp only [ofRoot, list, hrescue]

theorem opened_leaf (hat : LeafAt bs id i fanout emptyAddr pts) (hne : pts ≠ [])
    (hkeep : bs.removedBelow = 0) (hsorted : Sorted pts) :
    ∃ s, Opened bs id [bs.alloc i] [⟨bs.alloc i, pts⟩] s.list s := by
  have hsub : Sub bs id 0 (leafRef id fanout pts (bs.alloc i)) [⟨bs.alloc i, pts⟩] := hat.sub hne
  have hopen := openLeaf_eq hat hne hkeep
  have haddr : (leafRef id fanout pts (bs.alloc i) : SubtreeRef V).addr = bs.alloc i := rfl
  generalize (leafRef id fanout pts (bs.alloc i) : SubtreeRef V) = ref at hsub hopen haddr
  let last := newestScanned [⟨bs.alloc i, pts⟩]
  have hstatus : repairStatus (replicate 0 emptyAddr ++ [bs.alloc i]) = .ok :=
    repairStatus_root (bs.alloc_ne_empty i)
  have hrestore : (ofLeafRef bs id fanout ref 0).list.restoreLast =
      some (ofLeafRef bs id fanout ref last).list :=
    restoreLast_list [] rfl (cons_ne_nil _ _) hkeep (.cons hsub .nil)
      (by simp) (by simpa using hsorted)
  have hinit : (new id [bs.alloc i] bs).init =
      some (ofLeafRef bs id fanout ref last).list := by
    rw [init]
    simp only [new] at hopen ⊢
    rw [replicate_zero, nil_append] at hstatus
    simp only [isEmpty_cons, Bool.false_eq_true, if_false, hstatus]
    rw [openTree]
    simp only [hopen, bind_some, if_true]
    rw [dropKilled_list, hrestore]
  have hlinks : Links bs bs.blocks.length ref.addr [ref] := by
    obtain ⟨size, nchunks, ntail, bytes, -, hb⟩ := hat
    exact ⟨rfl, i, _, (lt_of_getElem? hb), haddr, hb, rfl⟩
  have hidle : idlePoints (ofLeafRef bs id fanout ref last).list.rescuePoints = [bs.alloc i] := by
    rw [← haddr]
    rfl
  exact ⟨_, opened_of_list hinit (ofLeafRef_holds hsub last)
    rfl hidle (.leaf hat hne) (.inl ⟨hlinks, rfl, rfl⟩) head_scan_newest⟩

theorem opened_root {addr : LogicAddr} (h : StoredRoot bs id k addr leaves)
    (hkeep : bs.removedBelow = 0) (hsorted : ∀ l ∈ leaves, Sorted l.pts) :
    ∃ s, Opened bs id (replicate (k + 1) emptyAddr ++ [addr]) leaves s.list s := by
  have hclosed : Closed bs id _ leaves := .root h
  obtain ⟨refs, groups, hne, fits, hroot, hall, hleaves⟩ := h
  obtain ⟨i, fanout, rfl, hat, hold⟩ := hroot
  let l := rootLevel refs fits fanout (bs.alloc i)
  let last := newestScanned leaves
  have hstatus := repairStatus_root (k := k + 1) (bs.alloc_ne_empty i)
  have hrestore : (ofRoot bs id k l 0).list.restoreLast = some (ofRoot bs id k l last).list :=
    restoreLast_list (replicate k .empty) rfl hne hkeep
      (by rw [length_replicate]; exact hall) hleaves hsorted
  have hopen := openRoot_eq hat fits hkeep
  have hrescue : (ofRoot bs id k l last).list.rescuePoints =
      replicate (k + 1) emptyAddr ++ [bs.alloc i] := by
    simp only [ofRoot, list, map_append, map_replicate]
    rfl
  have hinit : (new id (replicate (k + 1) emptyAddr ++ [bs.alloc i]) bs).init
      = some (ofRoot bs id k l last).list := by
    have hlast : (replicate (k + 1) emptyAddr ++ [bs.alloc i]).getLastD emptyAddr = bs.alloc i := by
      rw [getLastD_eq_getLast?, getLast?_concat]
      rfl
    have hne' : (replicate (k + 1) emptyAddr ++ [bs.alloc i]).isEmpty = false := by simp
    rw [init]
    simp only [new, hne', Bool.false_eq_true, if_false, hstatus] at hopen ⊢
    rw [openTree_root (by simp), hlast, hopen, bind_some, dropKilled_list, hrestore]
  have hidle : idlePoints (ofRoot bs id k l last).list.rescuePoints =
      replicate (k + 1) emptyAddr ++ [bs.alloc i] := by
    rw [hrescue, idlePoints, if_neg]
    rintro ⟨-, hempty⟩
    rw [getLast?_concat, some.injEq] at hempty
    exact bs.alloc_ne_empty i hempty
  have hchained : Chained bs id bs.blocks.length refs (0 + k) emptyAddr [l] := by
    rw [zero_add]
    exact .inr ⟨rfl, hne, [], (append_nil _).symm, rfl, i, fanout, rfl, hat, hold⟩
  refine ⟨_, opened_of_list hinit ?_ rfl hidle hclosed
    (chained_replicate k 0 hchained) head_scan_newest⟩
  rw [hleaves]
  exact ofRoot_holds hne rfl hall last

end OpenTree

theorem Closed.opened (h : Closed bs id addrs leaves) (hkeep : bs.removedBelow = 0)
    (hsorted : ∀ l ∈ leaves, Sorted l.pts) : ∃ t s, OpenTree.Opened bs id addrs leaves t s := by
  cases h with
  | none => exact ⟨_, _, opened_none⟩
  | blank => exact ⟨_, _, opened_blank⟩
  | leaf hat hne =>
    obtain ⟨s, hs⟩ := opened_leaf hat hne hkeep (hsorted _ mem_cons_self)
    exact ⟨_, s, hs⟩
  | root hroot =>
    obtain ⟨s, hs⟩ := opened_root hroot hkeep hsorted
    exact ⟨_, s, hs⟩

end FastSTDB
