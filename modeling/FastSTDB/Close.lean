import FastSTDB.Recovery

/-
  Closing a tree

  `close` commits the dirty extents from the leaf up. A commit of a level that is
  not the topmost one adds a reference to the level above, which may overflow and
  make the tree higher while the loop runs. The loop ends all the same: each round
  leaves a level behind, and a new topmost level starts with one reference in place
  of a full one below it (`closeRounds`).

  What is left is the root (`StoredRoot`), or the only leaf; `Closed` says which
  addresses `close` returns for a tree with given leaves.
-/
namespace FastSTDB
open List Option NBTreeExtentsList NBTreeSBlockExtent OpenTree Level

variable {V : Type} [DoubleArith V]
variable {ls pre : List (Level V)} {l : Level V} {s : OpenTree V} {leaves : List StoredLeaf}
  {tail : List Point}

/-! ## The rounds of the loop -/

/-- A bound on the rounds `close` needs for the levels. -/
def closeRounds : List (Level V) → Nat
  | [] => 0
  | [l] => nbtreeFanout + 1 + l.refs.length
  | _ :: l :: ls => nbtreeFanout + 1 + closeRounds (l :: ls)

omit [DoubleArith V] in
theorem closeRounds_cons (h : ls ≠ []) :
    closeRounds (l :: ls) = nbtreeFanout + 1 + closeRounds ls := by
  cases ls with
  | nil => exact absurd rfl h
  | cons l2 ls => rfl

omit [DoubleArith V] in
theorem closeRounds_le : ∀ (ls : List (Level V)),
    closeRounds ls ≤ (nbtreeFanout + 1) * ls.length + nbtreeFanout
  | [] => zero_le
  | [l] => by
    have := l.fits
    simp only [closeRounds, length_singleton, mul_one]
    omega
  | _ :: l :: ls => by
    have ih := closeRounds_le (l :: ls)
    simp only [closeRounds, length_cons, mul_add, mul_one] at ih ⊢
    omega

/-- A cascade makes the rest of the loop hardly longer, even if it adds a level. -/
theorem cascade_closeRounds (id : ParamId) : ∀ {ls : List (Level V)}, ls ≠ [] → ∀ (k : Nat)
    (bs : BlockStore V) (pl : SubtreeRef V),
    closeRounds (cascade id k bs ls pl).2 ≤ closeRounds ls + 2
  | [], h, _, _, _ => absurd rfl h
  | [l], _, k, bs, pl => by
    rw [cascade]
    by_cases hroom : l.refs.length < nbtreeFanout
    · rw [dif_pos hroom]
      simp only [closeRounds, push, length_append, length_singleton]
      omega
    · rw [dif_neg hroom]
      simp only [cascade, closeRounds, push, empty, nil_append, length_singleton]
      omega
  | l :: l2 :: ls, _, k, bs, pl => by
    have hne : l2 :: ls ≠ [] := cons_ne_nil _ _
    rw [cascade]
    by_cases hroom : l.refs.length < nbtreeFanout
    · rw [dif_pos hroom, closeRounds_cons hne, closeRounds_cons hne]
      omega
    · have ih := cascade_closeRounds id hne (k + 1) (bs.appendBlock (l.block id k)).2
        (l.ref id k (bs.appendBlock (l.block id k)).1)
      rw [dif_neg hroom, closeRounds_cons hne]
      rw [closeRounds_cons (cascade_ne_nil _ _ _ _ _)]
      omega

/-! ## What closing writes -/

/-- The node at `addr` is the root of a tree of height `k + 1` with the leaves. -/
def StoredRoot (bs : BlockStore V) (id : ParamId) (k : Nat) (addr : LogicAddr)
    (leaves : List StoredLeaf) : Prop :=
  ∃ refs groups, refs ≠ [] ∧ refs.length ≤ nbtreeFanout ∧ RootAt bs id k addr refs ∧
    Forall₂ (Sub bs id k) refs groups ∧ leaves = groups.flatten

theorem storedRoot_block {bs : BlockStore V} {id : ParamId} {k : Nat}
    {groups : List (List StoredLeaf)} (hne : l.refs ≠ []) (hprev : l.prev = emptyAddr)
    (hall : Forall₂ (Sub bs id k) l.refs groups) :
    StoredRoot (bs.appendBlock (l.block id k)).2 id k (bs.alloc bs.blocks.length)
      groups.flatten := by
  refine ⟨l.refs, groups, hne, l.fits, ⟨bs.blocks.length, l.nodeFanout, rfl, ?_, ?_⟩,
    hall.imp (fun _ _ hs => hs.mono (bs.extends_appendBlock _)), rfl⟩
  · rw [← hprev]
    exact appendBlock_getElem? _
  · intro r hr
    obtain ⟨g, -, hsub⟩ := Pairs.exists_right hall hr
    obtain ⟨j, hj, haddr, -⟩ := hsub.block
    exact ⟨j, hj, haddr⟩

/-! ## The loop over the levels -/

namespace NBTreeExtentsList

omit [DoubleArith V] in
theorem setInner_cleared (s : OpenTree V) (hs : s.levels = pre ++ l :: ls) (addr : LogicAddr) :
    s.list.setInner pre.length ((l.cleared addr).extent s.id pre.length) =
      list { s with
        levels := pre ++ { l.cleared addr with rescue := l.rescue } :: ls } :=
  setInner_list s hs _

section
variable (fuel : Nat) (addr : LogicAddr) (s : OpenTree V)

theorem closeLoop_clean (hs : s.levels = pre ++ l :: ls) (h : l.refs = []) :
    closeLoop (fuel + 1) (pre.length + 1) addr s.list =
      closeLoop fuel (pre.length + 1 + 1) addr s.list := by
  have hclean : (l.extent s.id pre.length).isDirty = false := by
    simp [isDirty, IOVecSuperblock.nelements, extent, node, h]
  rw [closeLoop]
  simp only [list, hs, Nat.succ_ne_zero, if_false, Nat.add_sub_cancel,
    getElem?_extentsOf_append, hclean, Bool.false_eq_true]

theorem closeLoop_end :
    closeLoop (fuel + 1) (s.levels.length + 1) addr s.list = some (addr, s.list) := by
  have hnone : (extentsOf s.id 0 s.levels)[s.levels.length]? = none := by
    rw [getElem?_eq_none_iff, length_extentsOf]
  rw [closeLoop]
  simp only [list, Nat.succ_ne_zero, if_false, Nat.add_sub_cancel, hnone]

theorem closeLoop_dirty (hs : s.levels = pre ++ l :: ls) (h : l.refs ≠ []) :
    closeLoop (fuel + 1) (pre.length + 1) addr s.list =
      ((l.extent s.id pre.length).commit s.list.rootsAppend s.list true).bind fun (_, addr, t, e) =>
        closeLoop fuel (pre.length + 1 + 1) addr (t.setInner pre.length e) := by
  have hdirty : (l.extent s.id pre.length).isDirty = true := by
    have := length_pos_iff.mpr h
    simp only [isDirty, IOVecSuperblock.nelements, extent, node, bne_iff_ne]
    omega
  rw [closeLoop]
  simp only [list, hs, Nat.succ_ne_zero, if_false, Nat.add_sub_cancel,
    getElem?_extentsOf_append, hdirty, if_true]

theorem closeLoop_top (hs : s.levels = pre ++ [l]) (h : l.refs ≠ []) :
    closeLoop (fuel + 2) (pre.length + 1) addr s.list =
      some (s.bstore.alloc s.bstore.blocks.length, list { s with
        bstore := (s.bstore.appendBlock (l.block s.id pre.length)).2
        levels := pre ++ [{ l.cleared (s.bstore.alloc s.bstore.blocks.length) with
          rescue := l.rescue }] }) := by
  let a := s.bstore.alloc s.bstore.blocks.length
  let s1 : OpenTree V := { s with bstore := (s.bstore.appendBlock (l.block s.id pre.length)).2 }
  have hcommit : (l.extent s.id pre.length).commit s.list.rootsAppend s.list true =
      some (false, a, s1.list, (l.cleared a).extent s.id pre.length) := by
    have hlast : ¬ pre.length + 1 + 1 < s.list.rescuePoints.length := by simp [list, hs]
    rw [commit_eq _ _ _ _ h]
    simp only [Bool.not_true, Bool.false_or, decide_eq_true_eq, if_neg hlast]
    rfl
  have hset : s1.list.setInner pre.length ((l.cleared a).extent s.id pre.length) =
      list { s1 with levels := pre ++ [{ l.cleared a with rescue := l.rescue }] } :=
    setInner_cleared s1 hs a
  rw [closeLoop_dirty (fuel + 1) addr s hs h, hcommit, bind_some]
  simp only
  rw [hset]
  have hend := closeLoop_end fuel a
    { s1 with levels := pre ++ [{ l.cleared a with rescue := l.rescue }] }
  rw [length_append] at hend
  exact hend

theorem closeLoop_up (hs : s.levels = pre ++ l :: ls) (h : l.refs ≠ []) (hup : ls ≠ []) :
    ∃ w, closeLoop (fuel + 1) (pre.length + 1) addr s.list =
      (let a := s.bstore.alloc s.bstore.blocks.length
       let c := cascade s.id (pre.length + 1) (s.bstore.appendBlock (l.block s.id pre.length)).2 ls
         (l.ref s.id pre.length a)
       closeLoop fuel (pre.length + 1 + 1) a (list { s with
         bstore := c.1
         levels := pre ++ { l.cleared a with rescue := l.rescue } :: c.2
         writeCount := w })) := by
  let a := s.bstore.alloc s.bstore.blocks.length
  let s1 : OpenTree V := { s with bstore := (s.bstore.appendBlock (l.block s.id pre.length)).2 }
  obtain ⟨saved, w, -, happ⟩ := appendRef_cascade (s.list.size + 1) s1 (pre ++ [l]) ls
    (l.ref s.id pre.length a) (by simp [s1, hs]) (by simp [ref, innerMeta]) (by
      simp only [size, list, length_extentsOf, hs, length_append, length_cons]
      omega)
  rw [length_append] at happ
  refine ⟨w, ?_⟩
  have hroom : pre.length + 1 + 1 < s.list.rescuePoints.length := by
    have := length_pos_iff.mpr hup
    simp only [list, hs, length_cons, length_map, length_append]
    omega
  rw [closeLoop_dirty fuel addr s hs h, commit_eq _ _ _ _ h]
  simp only [Bool.not_true, Bool.false_or, decide_eq_true_eq, if_pos hroom]
  show (((appendRef (s.list.size + 1) s1.list (l.ref s.id pre.length a)).bind _).bind _) = _
  rw [happ]
  generalize cascade s.id (pre.length + 1) s1.bstore ls (l.ref s.id pre.length a) = c
  let s2 : OpenTree V := { s1 with bstore := c.1, levels := pre ++ [l] ++ c.2, writeCount := w }
  have hset : s2.list.setInner pre.length ((l.cleared a).extent s.id pre.length) =
      list { s2 with levels := pre ++ { l.cleared a with rescue := l.rescue } :: c.2 } :=
    setInner_cleared s2 (by simp [s2]) a
  exact congrArg (closeLoop fuel (pre.length + 1 + 1) a) hset

end

/-- From a level on, the loop writes what the levels hold as one tree. -/
theorem closeLoop_levels (fuel : Nat) (s : OpenTree V) (pre ls : List (Level V))
    (leaves : List StoredLeaf) (addr : LogicAddr) (hs : s.levels = pre ++ ls) (hne : ls ≠ [])
    (htop : TopUsed ls) (hst : Stores s.bstore s.id pre.length ls leaves)
    (hf : closeRounds ls < fuel) :
    ∃ addr' t k, closeLoop fuel (pre.length + 1) addr s.list = some (addr', t) ∧ t.id = s.id ∧
    t.rescuePoints.length = k + 2 ∧ StoredRoot t.bstore s.id k addr' leaves ∧
    s.bstore.Grows t.bstore := by
  induction fuel generalizing s pre ls leaves addr with
  | zero => omega
  | succ fuel ih =>
    cases ls with
    | nil => exact absurd rfl hne
    | cons l ls =>
      obtain ⟨upper, groups, rfl, hall, hup⟩ := hst
      have htop' : ls ≠ [] → TopUsed ls := by
        intro hls l' hl'
        exact htop l' (by rw [getLast?_cons_of_ne_nil hls, hl'])
      by_cases hrefs : l.refs = []
      · -- a level without references cannot be the topmost one
        have hls : ls ≠ [] := by
          rintro rfl
          exact (htop l rfl).1 hrefs
        obtain rfl : groups = [] := by
          rw [hrefs] at hall
          cases hall
          rfl
        obtain ⟨addr', t, k, hloop, hrest⟩ := ih s (pre ++ [l]) ls upper addr (by simp [hs]) hls
          (htop' hls) (by simpa using hup) (by rw [closeRounds_cons hls] at hf; omega)
        rw [length_append] at hloop
        rw [closeLoop_clean fuel addr s hs hrefs, flatten_nil, append_nil]
        exact ⟨addr', t, k, hloop, hrest⟩
      · by_cases hls : ls = []
        · subst hls
          obtain rfl : upper = [] := hup
          obtain ⟨fuel, rfl⟩ : ∃ f, fuel = f + 1 := ⟨fuel - 1, by
            simp only [closeRounds] at hf
            omega⟩
          refine ⟨_, _, pre.length, closeLoop_top fuel addr s hs hrefs, rfl, ?_, ?_, ?_⟩
          · simp [list]
          · exact storedRoot_block hrefs (htop l rfl).2 hall
          · exact grows_block _ _ _ _
        · obtain ⟨w, hstep⟩ := closeLoop_up fuel addr s hs hrefs hls
          let a := s.bstore.alloc s.bstore.blocks.length
          let bs := (s.bstore.appendBlock (l.block s.id pre.length)).2
          let up := l.ref s.id pre.length a
          have hgrow := (grows_block s.bstore s.id pre.length l).trans
            (cascade_grows s.id ls (pre.length + 1) _ up)
          have hst' := cascade_stores (hup.mono (s.bstore.extends_appendBlock _))
            (sub_block hrefs hall)
          have hrounds := cascade_closeRounds s.id hls (pre.length + 1) bs up
          have htop2 : TopUsed (cascade s.id (pre.length + 1) bs ls up).2 :=
            cascade_topUsed (htop' hls)
          have hne2 := cascade_ne_nil s.id (pre.length + 1) bs ls up
          rw [closeRounds_cons hls] at hf
          simp only at hstep
          rw [hstep]
          generalize cascade s.id (pre.length + 1) bs ls up = c at hgrow hst' hrounds htop2 hne2 ⊢
          let l' : Level V := { l.cleared a with rescue := l.rescue }
          obtain ⟨addr', t, k, hloop, hid, hlen, hroot, hgrow'⟩ := ih
            { s with bstore := c.1, levels := pre ++ l' :: c.2, writeCount := w } (pre ++ [l']) c.2
            (upper ++ groups.flatten) a (by simp) hne2 htop2 (by simpa using hst')
            (by have := nbtreeFanout_pos; simp only [nbtreeFanout] at *; omega)
          rw [length_append] at hloop
          exact ⟨addr', t, k, hloop, hid, hlen, hroot, hgrow.trans hgrow'⟩

end NBTreeExtentsList

/-! ## Closing -/

/-- The addresses `close` returns for a tree with the given leaves. -/
inductive Closed (bs : BlockStore V) (id : ParamId) : List LogicAddr → List StoredLeaf → Prop where
  | none : Closed bs id [] []
  | blank : Closed bs id [emptyAddr] []
  | leaf {i fanout : Nat} {pts : List Point} (h : LeafAt bs id i fanout emptyAddr pts)
      (hne : pts ≠ []) : Closed bs id [bs.alloc i] [⟨bs.alloc i, pts⟩]
  | root {k : Nat} {addr : LogicAddr} {leaves : List StoredLeaf}
      (h : StoredRoot bs id k addr leaves) :
      Closed bs id (replicate (k + 1) emptyAddr ++ [addr]) leaves

namespace OpenTree

def lastLeaf (s : OpenTree V) (tail : List Point) : List StoredLeaf :=
  if tail = [] then [] else [⟨s.bstore.alloc s.bstore.blocks.length, tail⟩]

theorem close_of_loop (hw : s.writeCount ≠ 0) {addr : LogicAddr} {t : NBTreeExtentsList V}
    {m : Nat} (hlen : t.rescuePoints.length = m + 1)
    (hloop : closeLoop (33 * (s.list.size + 2)) 0 emptyAddr s.list = some (addr, t)) :
    s.list.close = some (replicate m emptyAddr ++ [addr], { t with
      rescuePoints := replicate m emptyAddr ++ [addr]
      extents := none
      initialized := false }) := by
  have hne : t.rescuePoints.isEmpty = false := by
    cases hr : t.rescuePoints with
    | nil => rw [hr] at hlen; cases hlen
    | cons _ _ => rfl
  have hinit : s.list.initialized = true := rfl
  have hw' : s.list.writeCount ≠ 0 := hw
  rw [close]
  simp only [hinit, if_true, hw', ne_eq, not_false_eq_true, hloop, bind_some, hne,
    Bool.false_eq_true, if_false, hlen, Nat.add_sub_cancel, map_some]

theorem closeLoop_leaf (h : s.Holds leaves tail) (hne : tail ≠ []) (fuel : Nat) (addr : LogicAddr) :
    closeLoop (fuel + 1) 0 addr s.list =
      (s.leaf.commit s.list.rootsAppend s.list true).bind fun (_, addr, t, leaf) =>
        closeLoop fuel 1 addr (t.setLeaf leaf) := by
  have hdirty : s.leaf.isDirty = true := by
    have := length_pos_iff.mpr hne
    rw [NBTreeLeafExtent.isDirty, h.leaf.has.nelements, bne_iff_ne]
    omega
  rw [closeLoop]
  simp only [list, if_true, hdirty]

theorem closeLoop_noLeaf (h : s.Holds leaves []) (fuel : Nat) (addr : LogicAddr) :
    closeLoop (fuel + 1) 0 addr s.list = closeLoop fuel 1 addr s.list := by
  have hclean : s.leaf.isDirty = false := by
    rw [NBTreeLeafExtent.isDirty, h.leaf.has.nelements]
    rfl
  rw [closeLoop]
  simp only [list, if_true, hclean, Bool.false_eq_true, if_false]

/-- What `close` leaves behind of a tree with `leaves` and an open leaf with
`tail`. -/
def ClosedAs (s : OpenTree V) (leaves : List StoredLeaf) (tail : List Point)
    (addrs : List LogicAddr) (bs : BlockStore V) : Prop :=
  Closed bs s.id addrs (leaves ++ s.lastLeaf tail) ∧ s.bstore.Extends bs ∧
    bs.removedBelow = s.bstore.removedBelow ∧
    ∀ n, n ≤ s.bstore.blocks.length →
      bs.leavesFrom n = s.bstore.leavesFrom n ++ s.lastLeaf tail

section
variable (h : s.Holds leaves tail) (hw : s.writeCount ≠ 0)
include h hw

theorem close_single (hl : s.levels = []) :
    ∃ addrs t, s.list.close = some (addrs, t) ∧ t.id = s.id ∧
      s.ClosedAs leaves tail addrs t.bstore := by
  have hleaves : leaves = [] := by
    have := h.levels
    rw [hl] at this
    exact this
  have hend : ∀ (fuel : Nat) (addr : LogicAddr) (s' : OpenTree V), s'.levels = [] →
      closeLoop (fuel + 1) 1 addr s'.list = some (addr, s'.list) := by
    intro fuel addr s' hl'
    have := closeLoop_end fuel addr s'
    rwa [hl'] at this
  have hfuel : ∃ f, 33 * (s.list.size + 2) = f + 1 + 1 := ⟨33 * (s.list.size + 2) - 2, by omega⟩
  obtain ⟨fuel, hfuel⟩ := hfuel
  by_cases hne : tail = []
  · subst hne
    have hloop : closeLoop (33 * (s.list.size + 2)) 0 emptyAddr s.list =
        some (emptyAddr, s.list) := by rw [hfuel, closeLoop_noLeaf h, hend _ _ s hl]
    have hnone : s.lastLeaf [] = [] := if_pos rfl
    refine ⟨_, _, close_of_loop hw (m := 0) (by simp [list, hl]) hloop, rfl, ?_, .refl _, rfl, ?_⟩
    · rw [hleaves]
      exact .blank
    · intro n _
      rw [hnone, append_nil]
      rfl
  · obtain ⟨block, hat, hcommit⟩ := NBTreeLeafExtent.commit_eq (t := s.list) h.leaf.has h.fanout hne
    let a := s.bstore.alloc s.bstore.blocks.length
    let s1 : OpenTree V := { s with
      bstore := (s.bstore.appendBlock block).2, leaf := s.leaf.cleared s.id a }
    have hloop : closeLoop (33 * (s.list.size + 2)) 0 emptyAddr s.list = some (a, s1.list) := by
      have hone : ¬ 1 < s.list.rescuePoints.length := by simp [list, hl]
      rw [hfuel, closeLoop_leaf h hne, hcommit]
      simp only [Bool.not_true, Bool.false_or, decide_eq_true_eq, if_neg hone]
      exact hend fuel a s1 hl
    have hlast : s.lastLeaf tail = [⟨a, tail⟩] := if_neg hne
    have hlink : s.leaf.leaf.link = emptyAddr := by
      rw [IOVecLeaf.link, h.prev, h.single hl]
      exact if_neg (fun hc => hc.1 rfl)
    rw [hlink] at hat
    refine ⟨_, _, close_of_loop hw (m := 0) (by simp [list, s1, hl]) hloop, rfl, ?_,
      s.bstore.extends_appendBlock block, rfl, ?_⟩
    · rw [hleaves, hlast]
      exact .leaf hat hne
    · intro n hn
      rw [hlast]
      refine (leavesFrom_appendBlock block hn).trans ?_
      rw [hat.storedLeaf (appendBlock_getElem? _)]
      rfl

theorem close_levels (hl : s.levels ≠ []) :
    ∃ addrs t, s.list.close = some (addrs, t) ∧ t.id = s.id ∧
      s.ClosedAs leaves tail addrs t.bstore := by
  have hbound := closeRounds_le s.levels
  have hsize : s.list.size = s.levels.length + 1 := by simp [size, list]
  obtain ⟨fuel, hfuel⟩ : ∃ f, 33 * (s.list.size + 2) = f + 1 :=
    ⟨33 * (s.list.size + 2) - 1, by omega⟩
  have hrounds : closeRounds s.levels + 2 < fuel := by
    simp only [nbtreeFanout] at hbound
    omega
  by_cases hne : tail = []
  · subst hne
    obtain ⟨addr, t, k, hloop, hid, hlen, hroot, hgrow⟩ := closeLoop_levels fuel s
      [] s.levels leaves emptyAddr rfl hl h.top h.levels (by omega)
    have hnone : s.lastLeaf [] = [] := if_pos rfl
    refine ⟨_, _, close_of_loop hw hlen (by rw [hfuel, closeLoop_noLeaf h]; exact hloop), hid, ?_,
      hgrow.ext, hgrow.expired, ?_⟩
    · rw [hnone, append_nil]
      exact .root hroot
    · intro n hn
      rw [hnone, append_nil]
      exact hgrow.leaves n hn
  · obtain ⟨block, w, saved, hat, -, hcommit⟩ := commit_leaf h.leaf.has h.fanout hne true (.inr hl)
    have hst := flushed_stores w h.levels hat hne
    obtain ⟨addr, t, k, hloop, hid, hlen, hroot, hgrow⟩ := closeLoop_levels fuel
      (s.flushed block tail w) [] (s.flushed block tail w).levels _
      (s.bstore.alloc s.bstore.blocks.length) rfl (cascade_ne_nil _ _ _ _ _) (cascade_topUsed h.top)
      hst ((cascade_closeRounds s.id hl 0 _ _).trans_lt hrounds)
    have hlast : s.lastLeaf tail = [⟨s.bstore.alloc s.bstore.blocks.length, tail⟩] := if_neg hne
    have hstart : closeLoop (33 * (s.list.size + 2)) 0 emptyAddr s.list = some (addr, t) := by
      rw [hfuel, closeLoop_leaf h hne, hcommit]
      exact hloop
    obtain ⟨hext, hexp⟩ := flushed_bstore block w
    refine ⟨_, _, close_of_loop hw hlen hstart, hid, ?_, hext.trans hgrow.ext,
      hgrow.expired.trans hexp, ?_⟩
    · rw [hlast]
      exact .root hroot
    · intro n hn
      obtain ⟨hfrom, hn'⟩ := flushed_leavesFrom hat w hn
      rw [hlast, ← hfrom]
      exact hgrow.leaves n hn'

/-- A tree that was written to is closed with all its points in the store. -/
theorem close_written : ∃ addrs t, s.list.close = some (addrs, t) ∧ t.id = s.id ∧
      s.ClosedAs leaves tail addrs t.bstore := by
  by_cases hl : s.levels = []
  · exact close_single h hw hl
  · exact close_levels h hw hl

end

end OpenTree
end FastSTDB
