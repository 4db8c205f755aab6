import FastSTDB.Sessions

/-
  Crashes in later sessions

  A tree that was opened again or repaired goes on with its own choice of links and
  fanout indices. As long as each append that writes the open leaf finds the links
  of the nodes it writes in step with the levels (`appendInStep`), the tree stays
  chained, and a crash loses no stored leaf (`recover_run`).

  The condition can fail after a repair: the first leaf written then has no link,
  although the level above holds references the links have to lead to, and a second
  crash loses these (`recover_run_lost`).
-/
namespace FastSTDB
open List Option NBTreeExtentsList OpenTree

variable {V : Type} [DoubleArith V]
variable {bs : BlockStore V} {id : ParamId} {n w : Nat} {saved : List (SubtreeRef V)}
  {s s' : OpenTree V} {leaves : List StoredLeaf} {t' t : NBTreeExtentsList V}
  {tail pts : List Point} {p : Point} {block : Block V}

/-! ## Rebuilding from a restored root -/

theorem RootAt.sub {k : Nat} {addr : LogicAddr} {refs : List (SubtreeRef V)}
    {groups : List (List StoredLeaf)} (h : RootAt bs id k addr refs) (hne : refs ≠ [])
    (hfits : refs.length ≤ nbtreeFanout) (hall : Forall₂ (Sub bs id k) refs groups) :
    ∃ ref, Sub bs id (k + 1) ref groups.flatten ∧ Links bs bs.blocks.length addr [ref] := by
  obtain ⟨i, fanout, rfl, hat, hold⟩ := h
  refine ⟨{ innerMeta id (k + 1) fanout refs with addr := bs.alloc i },
    ⟨i, fanout, emptyAddr, refs, groups, hat, hne, hfits, rfl, hold, hall, rfl⟩, rfl, i, _, ?_, rfl,
    hat, rfl⟩
  exact lt_of_getElem? hat

/-- The levels above a restored root's references, and what the root holds. -/
theorem Chained.split (hsaved : saved ≠ []) : ∀ {ls : List (Level V)} {k : Nat} {r : LogicAddr}
    {leaves : List StoredLeaf}, Chained bs id n saved k r ls → Stores bs id k ls leaves →
    ∃ ls' m groups rest, ls'.map Level.rescue = ls.map Level.rescue ∧ ls'.length = m + 1 ∧
      topRescue r ls' = topRescue r ls ∧ Linked bs n r ls' ∧ Stores bs id k ls' rest ∧
      RootAt bs id (k + m) (topRescue r ls) saved ∧ saved.length ≤ nbtreeFanout ∧
      Forall₂ (Sub bs id (k + m)) saved groups ∧ leaves = groups.flatten ++ rest
  | [], _, _, _, ⟨_, hnil⟩, _ => absurd hnil hsaved
  | l :: ls, k, r, _, hc, ⟨upper, grp, rfl, hall, hup⟩ => by
    rcases hc with ⟨hl, hc⟩ | ⟨rfl, -, new, hrefs, hl, hroot⟩
    · obtain ⟨ls', m, groups, rest, hresc, hlen, htop, hlinked, hst, hroot, hfits, hsub, rfl⟩ :=
        hc.split hsaved hup
      have hkm : k + 1 + m = k + (m + 1) := by omega
      rw [hkm] at hroot hsub
      refine ⟨l :: ls', m + 1, groups, rest ++ grp.flatten, ?_, ?_, htop, ⟨hl, hlinked⟩,
        ⟨rest, grp, rfl, hall, hst⟩, hroot, hfits, hsub, append_assoc _ _ _⟩
      · rw [map_cons, map_cons, hresc]
      · rw [length_cons, hlen]
    · obtain rfl : upper = [] := hup
      -- the references of the root come first
      rw [hrefs] at hall
      obtain ⟨groups, rest, hg, hr, rfl⟩ := Pairs.split hall
      have hlen : saved.length + new.length ≤ nbtreeFanout := by
        rw [← length_append, ← hrefs]
        exact l.fits
      let l' : Level V := { l with refs := new, fits := by omega }
      refine ⟨[l'], 0, groups, rest.flatten, rfl, rfl, rfl, ⟨hl, trivial⟩,
        ⟨[], rest, rfl, hr, rfl⟩, hroot, by omega, hg, by simp⟩

variable {ref : SubtreeRef V} {addrs : List LogicAddr}

theorem stores_top {g : List StoredLeaf} :
    ∀ {ls : List (Level V)} {k : Nat} {leaves : List StoredLeaf}, Stores bs id k ls leaves →
    Sub bs id (k + ls.length) ref g → Stores bs id k (ls ++ [oneRef ref]) (g ++ leaves)
  | [], _, leaves, h, hsub => by
    obtain rfl : leaves = [] := h
    exact ⟨[], [g], by simp, .cons hsub .nil, rfl⟩
  | l :: ls, k, _, ⟨upper, groups, rfl, hall, hup⟩, hsub => by
    have hsub' : Sub bs id (k + 1 + ls.length) ref g := by
      rwa [show k + 1 + ls.length = k + (l :: ls).length by simp only [length_cons]; omega]
    exact ⟨g ++ upper, groups, (append_assoc _ _ _).symm, hall, stores_top hup hsub'⟩

theorem chained_top : ∀ {ls : List (Level V)} {k : Nat} {r : LogicAddr}, Linked bs n r ls →
    Links bs n (topRescue r ls) [ref] → Chained bs id n [] k r (ls ++ [oneRef ref])
  | [], _, _, _, h => .inl ⟨h, rfl, rfl⟩
  | _ :: _, _, _, ⟨hl, hup⟩, h => .inl ⟨hl, chained_top hup h⟩

theorem Chained.reset : ∀ {ls : List (Level V)}
    {k : Nat} {r : LogicAddr}, Chained bs id n [] k r ls → Chained bs id n [] k r (ls.map .reset)
  | [], _, _, h => h
  | _ :: _, _, _, .inl ⟨hl, hup⟩ => .inl ⟨hl, hup.reset⟩
  | _ :: _, _, _, .inr ⟨_, hne, _⟩ => absurd rfl hne

omit [DoubleArith V] in
theorem topRescue_reset : ∀ (ls : List (Level V)) (r : LogicAddr),
    topRescue r (ls.map .reset) = topRescue r ls
  | [], _ => rfl
  | l :: ls, _ => topRescue_reset ls l.rescue

theorem Linked.eq_nil_of_feet :
    ∀ {ls : List (Level V)} {k : Nat} {r : LogicAddr} {leaves : List StoredLeaf},
    Linked bs n r ls → Stores bs id k ls leaves → (∀ a ∈ feet r ls, a = emptyAddr) → leaves = []
  | [], _, _, _, _, hst, _ => hst
  | l :: ls, _, r, _, ⟨hl, hup⟩, ⟨upper, groups, rfl, hall, hst⟩, hfeet => by
    obtain rfl : r = emptyAddr := hfeet r mem_cons_self
    have hrefs : l.refs = [] := by
      rw [← reverse_eq_nil_iff]
      cases hr : l.refs.reverse with
      | nil => rfl
      | cons ref refs =>
        rw [hr] at hl
        obtain ⟨-, i, b, -, hi, -⟩ := hl
        exact absurd hi.symm (bs.alloc_ne_empty i)
    rw [hrefs] at hall
    cases hall
    rw [Linked.eq_nil_of_feet hup hst (forall_mem_cons.mp hfeet).2]
    rfl

namespace OpenTree

omit [DoubleArith V] in
theorem feet_of_status_ok (h : repairStatus s.list.rescuePoints = .ok) :
    ∀ a ∈ feet s.rescue s.levels, a = emptyAddr := by
  have hcond : s.list.rescuePoints.length - s.list.rescuePoints.count emptyAddr = 1 ∧
      s.list.rescuePoints.getLast? ≠ some emptyAddr := by
    by_contra hc
    rw [repairStatus, if_neg hc] at h
    cases h
  have hresc : s.list.rescuePoints = feet s.rescue s.levels ++ [topRescue s.rescue s.levels] :=
    rescues_eq s.levels s.rescue
  rw [hresc, getLast?_concat, length_append, count_append] at hcond
  obtain ⟨hcount, htop⟩ := hcond
  have hne : topRescue s.rescue s.levels ≠ emptyAddr := fun he => htop (by rw [he])
  rw [count_singleton, if_neg (by simpa using hne), length_singleton] at hcount
  have hall : (feet s.rescue s.levels).count emptyAddr = (feet s.rescue s.levels).length := by omega
  intro a ha
  exact (count_eq_length.mp hall a ha).symm

/-- A tree rebuilt after a crash of `s`. -/
structure Rebuilt (s : OpenTree V) (leaves : List StoredLeaf) (t' : NBTreeExtentsList V)
    (s' : OpenTree V) : Prop where
  shows : Shows t' s'
  holds : s'.Holds leaves []
  bstore : s'.bstore = s.bstore
  idle : s'.Idle leaves []
  chained : ∃ saved, Chained s'.bstore s'.id s'.bstore.blocks.length saved 0 s'.rescue s'.levels

theorem Opened.rebuilt (h : Opened s.bstore s.id addrs leaves t' s') : Rebuilt s leaves t' s' where
  shows := h.shows
  holds := h.holds
  bstore := h.bstore
  idle := h.idle
  chained := by
    obtain ⟨saved, hc⟩ := h.chained
    rw [h.bstore, h.ident]
    exact ⟨saved, hc⟩

/-- `last_` of a rebuilt tree: `open` reads it back, `repair` leaves it zero. -/
def LastRestored (s : OpenTree V) (leaves : List StoredLeaf) : Prop :=
  s.last = 0 ∨ (Sorted (points leaves) → s.last = newest (points leaves))

theorem rebuild_linked (h : s.Holds leaves tail) (hkeep : s.bstore.removedBelow = 0)
    (hc : s.Chains []) :
    ∃ t' s', s.list.crash.init = some t' ∧ Rebuilt s leaves t' s' ∧ s'.LastRestored leaves := by
  obtain ⟨w, hw, hinit⟩ := init_linked h.levels hkeep hc
  refine ⟨_, _, hinit, ⟨.inl rfl, repaired_holds h.levels.reset h.top.reset w, rfl, ?_,
    [], hc.reset⟩, .inl rfl⟩
  -- a repair that wrote nothing found nothing
  intro hw0
  have hcount : refCount s.levels = 0 := by
    have : w = 0 := hw0
    omega
  have hnil : s.levels = [] := by
    by_contra hne
    have hlast := getLast?_eq_some_getLast hne
    generalize s.levels.getLast hne = l at hlast
    have hmem : l.refs.length ∈ s.levels.map (fun l => l.refs.length) :=
      mem_map_of_mem (mem_of_getLast? hlast)
    have hzero := List.sum_eq_zero_iff_forall_eq_nat.mp hcount _ hmem
    exact (h.top l hlast).1 (eq_nil_of_length_eq_zero hzero)
  have hleaves : leaves = [] := by
    have := h.levels
    rw [hnil] at this
    exact this
  have hrescue : s.rescue = emptyAddr := by
    rw [Chains, hnil] at hc
    exact hc.1
  refine ⟨rfl, ?_⟩
  have hpoints : (s.repaired (s.levels.map .reset) w).list.rescuePoints = [emptyAddr] := by
    simp [repaired, list, hnil, hrescue]
  rw [hpoints, hleaves]
  exact .blank

/-- A tree with a restored root is opened as it was closed, or repaired with the
root as a node of a new level. -/
theorem rebuild_root (h : s.Holds leaves tail) (hkeep : s.bstore.removedBelow = 0)
    (hsorted : ∀ l ∈ leaves, Sorted l.pts) (hsaved : saved ≠ []) (hc : s.Chains saved) :
    ∃ t' s', s.list.crash.init = some t' ∧ Rebuilt s leaves t' s' ∧ s'.LastRestored leaves := by
  obtain ⟨ls, m, groups, rest, hresc, hlen, htop, hl, hst, hroot, hfits, hsub, hleaves⟩ :=
    hc.split hsaved h.levels
  rw [zero_add] at hroot hsub
  have hpoints : s.list.rescuePoints = feet s.rescue ls ++ [topRescue s.rescue ls] := by
    rw [list, ← hresc, rescues_eq]
  cases hstatus : repairStatus s.list.rescuePoints with
  | ok =>
    have hfeet : ∀ a ∈ feet s.rescue ls, a = emptyAddr := by
      have hok := feet_of_status_ok hstatus
      have hsame : feet s.rescue ls = feet s.rescue s.levels := by
        have := hpoints.symm.trans (rescues_eq s.levels s.rescue)
        exact (append_inj_left' this rfl)
      rw [hsame]
      exact hok
    obtain rfl := hl.eq_nil_of_feet hst hfeet
    have hclosed : Closed s.bstore s.id s.list.rescuePoints leaves := by
      have hreplicate : feet s.rescue ls = replicate (m + 1) emptyAddr := by
        rw [eq_replicate_iff]
        refine ⟨?_, hfeet⟩
        have := congrArg length (rescues_eq ls s.rescue)
        simp only [length_cons, length_map, length_append, length_nil] at this
        omega
      rw [hpoints, hreplicate, htop]
      exact .root ⟨saved, groups, hsaved, hfits, hroot, hsub, by rw [hleaves, append_nil]⟩
    obtain ⟨t', s', ho⟩ := hclosed.opened hkeep hsorted
    exact ⟨t', s', ho.init, ho.rebuilt, .inr ho.last⟩
  | repair =>
    obtain ⟨ref, href, hlinks⟩ := hroot.sub hsaved hfits hsub
    rw [← hlen] at href
    rw [← htop] at hlinks
    obtain ⟨w, hw, hinit⟩ := init_repair (some ref) hresc hkeep hst hl hlinks
      (by rintro _ ⟨⟩; exact ⟨_, href⟩) hstatus
    have hst' := stores_top hst.reset (show Sub s.bstore s.id (0 + (ls.map Level.reset).length) ref _
      by rw [zero_add, length_map]; exact href)
    have hused : TopUsed (ls.map .reset ++ [oneRef ref]) := by
      intro l hlast
      rw [getLast?_concat, some.injEq] at hlast
      subst hlast
      exact ⟨cons_ne_nil _ _, rfl⟩
    rw [← hleaves] at hst'
    refine ⟨_, _, hinit, ⟨.inl rfl, repaired_holds hst' hused w, rfl, ?_, [], ?_⟩, .inl rfl⟩
    · intro hw0
      have : w = 0 := hw0
      rw [toList_some, length_singleton] at hw
      omega
    · exact chained_top hl.reset (by rw [topRescue_reset]; exact hlinks)

theorem Shows.rebuild (hsh : Shows t s) (h : s.Holds leaves tail)
    (hkeep : s.bstore.removedBelow = 0) (hsorted : ∀ l ∈ leaves, Sorted l.pts)
    (hc : s.Chains saved) :
    ∃ t' s', t.crash.init = some t' ∧ Rebuilt s leaves t' s' ∧ s'.LastRestored leaves := by
  rcases hsh with rfl | ⟨hfresh, i, rfl⟩
  · by_cases hsaved : saved = []
    · subst hsaved
      exact rebuild_linked h hkeep hc
    · exact rebuild_root h hkeep hsorted hsaved hc
  · rw [hfresh] at h
    obtain ⟨rfl, rfl⟩ := h.eq_nil_of_fresh
    exact ⟨_, _, opened_none.init, opened_none.rebuilt, .inl rfl⟩

end OpenTree

/-! ## Appends in step -/

namespace NBTreeExtentsList

/-- The append is not refused and does not fit into the open leaf. -/
def spills (t : NBTreeExtentsList V) (p : Point) (allowDup : Bool) : Bool :=
  match t.extents with
  | none => false
  | some x =>
    !(if allowDup then decide (p.ts < t.last) else decide (p.ts ≤ t.last)) &&
      decide ((x.leaf.leaf.append p).1 = .overflow)

/-- A node with the link `link` is about to be written; its level has the first of
the rescue points, the extents are those above. It has to be linked to the rescue
point if the extent above has room for it, and otherwise to nothing, and so has the
node of that extent, which is then written as well. -/
def linksInStep : LogicAddr → List LogicAddr → List (NBTreeSBlockExtent V) → Bool
  | link, _, [] => link == emptyAddr
  | _, [], _ :: _ => false
  | link, rescue :: rescues, e :: es =>
    if e.curr.nelements < nbtreeFanout then link == rescue
    else link == emptyAddr && linksInStep e.curr.prev rescues es

/-- If the append writes the open leaf, the nodes it writes are linked in step. -/
def appendInStep (t : NBTreeExtentsList V) (p : Point) (allowDup : Bool) : Bool :=
  !t.spills p allowDup ||
    match t.extents with
    | none => true
    | some x => linksInStep x.leaf.leaf.link t.rescuePoints x.inner

omit [DoubleArith V] in
theorem linksInStep_extentsOf : ∀ {ls : List (Level V)} {k : Nat}
    {link r : LogicAddr}, linksInStep link (r :: ls.map Level.rescue) (extentsOf id k ls) = true →
    LinksInStep link r ls
  | [], _, _, _, h => by
    rw [LinksInStep]
    simpa [linksInStep, extentsOf] using h
  | l :: ls, k, link, r, h => by
    have hlen : (l.extent id k).curr.nelements = l.refs.length := rfl
    rw [extentsOf, map_cons, linksInStep, hlen] at h
    rw [LinksInStep]
    by_cases hroom : l.refs.length < nbtreeFanout
    · rw [if_pos hroom] at h ⊢
      simpa using h
    · rw [if_neg hroom, Bool.and_eq_true] at h
      rw [if_neg hroom]
      exact ⟨by simpa using h.1, linksInStep_extentsOf h.2⟩

end NBTreeExtentsList

/-- The condition on a step; closing and rebuilding need none. -/
def SessionOp.inStep (op : SessionOp) (t : NBTreeExtentsList V) : Bool :=
  match op with
  | .append p allowDup => t.appendInStep p allowDup
  | .reopen => true
  | .crash => true

def inStep : List SessionOp → NBTreeExtentsList V → Bool
  | [], _ => true
  | op :: ops, t =>
    op.inStep t &&
      match op.step t with
      | some (_, t) => inStep ops t
      | none => true

namespace OpenTree

/-- What holds of a tree that can be rebuilt. -/
structure Recoverable (bs : BlockStore V) (s : OpenTree V) (leaves : List StoredLeaf)
    (tail : List Point) : Prop extends Kept bs s leaves where
  sorted : ∀ l ∈ leaves, Sorted l.pts
  tailSorted : Sorted tail
  newest : ∀ p ∈ tail, p.ts ≤ s.last
  idle : s.Idle leaves tail
  chained : ∃ saved, Chained s.bstore s.id s.bstore.blocks.length saved 0 s.rescue s.levels

theorem recoverable_fresh : Recoverable bs (fresh bs id) [] [] :=
  ⟨kept_fresh id, fun _ h => (by cases h), .nil, fun _ h => (by cases h),
    fun _ => ⟨rfl, .blank⟩, [], rfl, rfl⟩

variable {r : NBTreeAppendResult} {new : List StoredLeaf} {tail' : List Point}

theorem Appended.chained {allowDup : Bool} (ha : s.Appended tail p allowDup r s' new tail')
    (hsh : Shows t s) (hh : s.Holds leaves tail) (hin : t.appendInStep p allowDup = true)
    (h : ∃ saved, s.Chains saved) : ∃ saved, s'.Chains saved := by
  cases ha with
  | late _ => exact h
  | pushed _ _ _ _ => exact h
  | @spilled hspill hne leaf block w _ hat _ _ _ =>
    -- the tree has an open leaf, so the list is the tree itself
    have hlist : t = s.list := by
      rcases hsh with rfl | ⟨hfresh, -⟩
      · rfl
      · rw [hfresh] at hh
        exact absurd hh.eq_nil_of_fresh.2 hne
    have hstep : LinksInStep s.leaf.leaf.link s.rescue s.levels := by
      have hsp : s.list.spills p allowDup = true := by
        have hlate := hspill.1
        unfold OpenTree.late at hlate
        show (!(if allowDup = true then decide (p.ts < s.last) else decide (p.ts ≤ s.last)) &&
          decide ((s.leaf.leaf.append p).1 = .overflow)) = true
        rw [hlate, hspill.2]
        rfl
      rw [hlist, appendInStep, hsp] at hin
      exact linksInStep_extentsOf hin
    obtain ⟨saved, hc⟩ := h
    obtain ⟨saved', -, hc'⟩ := flushed_chained w hc hstep hat
    exact ⟨saved', hc'⟩

section
variable (h : Recoverable bs s leaves tail)
include h

theorem Recoverable.step {allowDup : Bool} (hsh : Shows t s)
    (hh : s.Holds leaves tail) (hin : t.appendInStep p allowDup = true)
    (ha : s.Appended tail p allowDup r s' new tail') : Recoverable bs s' (leaves ++ new) tail' := by
  have hkept := h.toKept.step ha
  have hidle := h.idle.step ha
  have hlast := ha.last
  have hchained := ha.chained hsh hh hin h.chained
  cases ha with
  | late _ =>
    rw [append_nil] at hkept ⊢
    exact h
  | pushed hlate _ _ _ =>
    obtain ⟨hr, -⟩ | ⟨-, -, hle⟩ := hlast
    · cases hr
    rw [append_nil] at hkept hidle ⊢
    refine ⟨hkept, h.sorted, ?_, ?_, hidle, hchained⟩
    · refine pairwise_append.mpr ⟨h.tailSorted, pairwise_singleton _ _, ?_⟩
      intro q hq q' hq'
      rw [mem_singleton.mp hq']
      exact (h.newest q hq).trans hle
    · exact forall_mem_append.mpr ⟨fun q hq => (h.newest q hq).trans hle,
        forall_mem_singleton.mpr le_rfl⟩
  | spilled _ _ _ _ _ _ _ =>
    refine ⟨hkept, ?_, pairwise_singleton _ _, ?_, hidle, hchained⟩
    · exact forall_mem_append.mpr ⟨h.sorted, forall_mem_singleton.mpr h.tailSorted⟩
    · intro q hq
      rw [mem_singleton.mp hq]
      exact le_rfl

theorem Recoverable.reopened {bs' : BlockStore V} (hc : s.ClosedAs leaves tail addrs bs')
    (ho : Opened bs' s.id addrs (leaves ++ s.lastLeaf tail) t' s') :
    Recoverable bs s' (leaves ++ s.lastLeaf tail) [] := by
  refine ⟨h.toKept.reopened hc ho, ?_, .nil, fun _ hp => (by cases hp), ho.idle, ?_⟩
  · intro l hl
    rcases mem_append.mp hl with hl | hl
    · exact h.sorted l hl
    · unfold lastLeaf at hl
      split at hl
      · cases hl
      · rw [mem_singleton.mp hl]
        exact h.tailSorted
  · obtain ⟨saved, hch⟩ := ho.chained
    rw [ho.bstore, ho.ident]
    exact ⟨saved, hch⟩

theorem Recoverable.rebuilt (hr : Rebuilt s leaves t' s') : Recoverable bs s' leaves [] where
  grown := by rw [hr.bstore]; exact h.grown
  expired := by rw [hr.bstore]; exact h.expired
  written := by rw [hr.bstore]; exact h.written
  sorted := h.sorted
  tailSorted := .nil
  newest := fun _ hp => (by cases hp)
  idle := hr.idle
  chained := hr.chained

end

/-- What a step of a session makes of a tree. -/
inductive Moved (s : OpenTree V) (leaves : List StoredLeaf) (tail : List Point) :
    SessionOp → OpenTree V → List StoredLeaf → List Point → Prop where
  | append {p : Point} {allowDup : Bool} {r : NBTreeAppendResult} {s' : OpenTree V}
      {new : List StoredLeaf} {tail' : List Point}
      (h : s.Appended tail p allowDup r s' new tail') :
      Moved s leaves tail (.append p allowDup) s' (leaves ++ new) tail'
  | reopen {bs : BlockStore V} {addrs : List LogicAddr} {t' : NBTreeExtentsList V}
      {s' : OpenTree V} (h : Opened bs s.id addrs (leaves ++ s.lastLeaf tail) t' s') :
      Moved s leaves tail .reopen s' (leaves ++ s.lastLeaf tail) []
  | crash {s' : OpenTree V} (h : s'.LastRestored leaves) : Moved s leaves tail .crash s' leaves []

/-- One step, in step with the links, leads to a tree that can be rebuilt. -/
theorem Recoverable.move (hkeep : bs.removedBelow = 0) {op : SessionOp}
    (hrec : Recoverable bs s leaves tail) (hsh : Shows t s) (h : s.Holds leaves tail)
    (hop : op.inStep t = true) : ∃ acc t' s' leaves' tail', op.step t = some (acc, t') ∧
      Shows t' s' ∧ s'.Holds leaves' tail' ∧ Recoverable bs s' leaves' tail' ∧
      s.Moved leaves tail op s' leaves' tail' := by
  have hkeep' : s.bstore.removedBelow = 0 := hrec.expired.trans hkeep
  cases op with
  | append p allowDup =>
    obtain ⟨r, t1, s1, new, tail1, ha, hsh1, happ, -⟩ := hsh.append_step h p allowDup
    exact ⟨_, t1, s1, _, tail1, by rw [SessionOp.step, happ]; rfl, hsh1, ha.holds h,
      hrec.step hsh h hop ha, .append ha⟩
  | reopen =>
    obtain ⟨addrs, bs', t1, s1, hre, hc, ho⟩ := hsh.reopen h hrec.idle hkeep' hrec.sorted
      hrec.tailSorted
    exact ⟨_, t1, s1, _, [], by rw [SessionOp.step, hre]; rfl, ho.shows, ho.holds,
      hrec.reopened hc ho, .reopen ho⟩
  | crash =>
    obtain ⟨saved, hc⟩ := hrec.chained
    obtain ⟨t1, s1, hinit, hr, hlast⟩ := hsh.rebuild h hkeep' hrec.sorted hc
    exact ⟨_, t1, s1, _, [], by rw [SessionOp.step, hinit]; rfl, hr.shows, hr.holds,
      hrec.rebuilt hr, .crash hlast⟩

end OpenTree

/-- A run all of whose appends are in step ends with a tree that can be rebuilt. -/
theorem runOps_recoverable (hkeep : bs.removedBelow = 0) (ops : List SessionOp)
    (hin : inStep ops t = true) (hsh : OpenTree.Shows t s) (h : s.Holds leaves tail)
    (hrec : OpenTree.Recoverable bs s leaves tail) :
    ∃ acc t' s' leaves' tail', runOps ops t = some (acc, t') ∧ OpenTree.Shows t' s' ∧
      s'.Holds leaves' tail' ∧ OpenTree.Recoverable bs s' leaves' tail' := by
  induction ops generalizing t s leaves tail with
  | nil => exact ⟨[], t, s, leaves, tail, rfl, hsh, h, hrec⟩
  | cons op ops ih =>
    rw [inStep, Bool.and_eq_true] at hin
    obtain ⟨hop, hrest⟩ := hin
    obtain ⟨acc1, t1, s1, leaves1, tail1, hstep, hsh1, h1, hrec1, -⟩ := hrec.move hkeep hsh h hop
    rw [hstep] at hrest
    obtain ⟨acc, t', s', leaves', tail', hrun, hsh', h', hrec'⟩ := ih hrest hsh1 h1 hrec1
    refine ⟨acc1 ++ acc, t', s', leaves', tail', ?_, hsh', h', hrec'⟩
    simp [runOps, hstep, hrun]

/-- After a run all of whose appends are in step, a crash loses no stored leaf and
repeats none. -/
theorem recover_run (bs : BlockStore V) (hkeep : bs.removedBelow = 0) (id : ParamId)
    (ops : List SessionOp) (hin : inStep ops (.new id [] bs) = true) :
    ∃ acc t t', runOps ops (.new id [] bs) = some (acc, t) ∧ t.crash.init = some t' ∧
      ∀ sizes : Nat → Nat, (∀ i, 0 < sizes i) → ∀ fuel,
        (points (t.bstore.leavesFrom bs.blocks.length)).length < fuel →
        t'.drainSearch minTimestamp maxTimestamp fuel sizes =
          some ((points (t.bstore.leavesFrom bs.blocks.length)).filter
            (fun p => decide (p.ts < maxTimestamp)), .noData) := by
  obtain ⟨acc, t, s, leaves, tail, hrun, hsh, h, hrec⟩ := runOps_recoverable hkeep ops hin
    (shows_new bs) (fresh_holds bs) recoverable_fresh
  have hkeep' : s.bstore.removedBelow = 0 := hrec.expired.trans hkeep
  obtain ⟨saved, hc⟩ := hrec.chained
  obtain ⟨t', s', hinit, hr, -⟩ := hsh.rebuild h hkeep' hrec.sorted hc
  refine ⟨acc, t, t', hrun, hinit, ?_⟩
  intro sizes hsizes fuel hfuel
  rw [hsh.bstore, hrec.written] at hfuel ⊢
  have hkeep'' : s'.bstore.removedBelow = 0 := by rw [hr.bstore, hkeep']
  rw [hr.shows.drainSearch hr.holds (BlockStore.aged_of_keeps hkeep'')
    ⟨⟨hrec.sorted, Or.inr (by decide)⟩, .nil⟩ hsizes (by rw [append_nil]; exact hfuel),
    BlockStore.live_of_keeps hkeep'', append_nil, scan_all]

theorem recover_run_memStore : (memStore Rat).removedBelow = 0 ∧
    inStep [.append ⟨10, 1⟩ false, .reopen, .append ⟨20, 2⟩ false, .crash]
      (.new 7 [] (memStore Rat)) = true ∧ ∃ acc t t',
    runOps [.append ⟨10, 1⟩ false, .reopen, .append ⟨20, 2⟩ false, .crash]
      (.new 7 [] (memStore Rat)) = some (acc, t) ∧ t.crash.init = some t' ∧
    ∀ fuel, (points (t.bstore.leavesFrom 0)).length < fuel →
      t'.drainSearch minTimestamp maxTimestamp fuel (fun _ => 5) =
        some ((points (t.bstore.leavesFrom 0)).filter (fun p => decide (p.ts < maxTimestamp)),
          .noData) := by
  have hin : inStep [.append ⟨10, 1⟩ false, .reopen, .append ⟨20, 2⟩ false, .crash]
      (.new 7 [] (memStore Rat)) = true := by decide +kernel
  obtain ⟨acc, t, t', hrun, hinit, hsearch⟩ := recover_run (memStore Rat) rfl 7 _ hin
  exact ⟨rfl, hin, acc, t, t', hrun, hinit, hsearch (fun _ => 5) (fun _ => by decide)⟩

/-! ## A leaf that is lost -/

theorem runOps_append : ∀ (ops ops' : List SessionOp) (t : NBTreeExtentsList V),
    runOps (ops ++ ops') t = (runOps ops t).bind fun (acc, t) =>
      (runOps ops' t).map fun (acc', t) => (acc ++ acc', t)
  | [], ops', t => by cases h : runOps ops' t <;> simp [runOps]
  | op :: ops, ops', t => by
    rw [cons_append, runOps, runOps]
    cases op.step t with
    | none => rfl
    | some r =>
      simp only [bind_some, runOps_append ops ops' r.2]
      cases runOps ops r.2 with
      | none => rfl
      | some r' =>
        simp only [bind_some, map_some]
        cases runOps ops' r'.2 with
        | none => rfl
        | some r'' => simp

theorem runOps_feed : ∀ (ps : List Point) (t : NBTreeExtentsList V),
    runOps (ps.map (.append · true)) t = feed (ps.map (·, true)) t
  | [], _ => rfl
  | p :: ps, t => by
    simp only [map_cons, runOps, SessionOp.step, feed]
    cases t.append p true with
    | none => rfl
    | some r =>
      simp only [map_some, bind_some, runOps_feed ps]
      cases feed (ps.map (·, true)) r.2 with
      | none => rfl
      | some r' => split <;> rfl

namespace OpenTree

section
variable (h : s.Refilled leaves pts p s' block w)
include h

/-- A leaf without a link that joins others in the first level hides them from the
repair. -/
theorem Refilled.hides (hkeep : s.bstore.removedBelow = 0) (hlink : s.leaf.leaf.link = emptyAddr)
    {l : Level V} (hl : s.levels = [l]) (hresc : l.rescue = emptyAddr)
    (hroom : l.refs.length < nbtreeFanout) :
    ∃ t s'', s'.list.crash.init = some t ∧ Shows t s'' ∧ s''.bstore = s'.bstore ∧
      s''.Holds [⟨s.bstore.alloc s.bstore.blocks.length, pts⟩] [] := by
  let ref : SubtreeRef V := leafRef s.id s.leaf.fanoutIndex pts
    (s.bstore.alloc s.bstore.blocks.length)
  have hcascade : cascade s.id 0 (s.bstore.appendBlock block).2 s.levels ref =
      ((s.bstore.appendBlock block).2, [l.push ref hroom]) := by rw [hl, cascade, dif_pos hroom]
  have hbs : s'.bstore = (s.bstore.appendBlock block).2 :=
    h.bstore.trans (congrArg Prod.fst hcascade)
  have hlv : s'.levels = [l.push ref hroom] := h.levels.trans (congrArg Prod.snd hcascade)
  have hat := h.leaf
  rw [hlink, ← hbs] at hat
  have hsub : Sub s'.bstore s'.id 0 ref [⟨s.bstore.alloc s.bstore.blocks.length, pts⟩] := by
    rw [h.ident, hbs]
    rw [hbs] at hat
    exact hat.sub h.ne
  -- the repair finds the new leaf only
  let l' : Level V := { l with refs := [ref], fits := nbtreeFanout_pos }
  have hst : Stores s'.bstore s'.id 0 [l'] [⟨s.bstore.alloc s.bstore.blocks.length, pts⟩] :=
    ⟨[], [_], rfl, .cons hsub .nil, rfl⟩
  have hlinked : Linked s'.bstore s'.bstore.blocks.length s'.rescue [l'] := by
    obtain ⟨size, nchunks, ntail, bytes, -, hb⟩ := hat
    refine ⟨⟨h.rescue, s.bstore.blocks.length, _, (lt_of_getElem? hb), ?_, hb, rfl⟩, trivial⟩
    rw [h.rescue, hbs]
    rfl
  have htop : topRescue s'.rescue [l'] = emptyAddr := hresc
  have htop' : topRescue s'.rescue s'.levels = emptyAddr := by
    rw [hlv]
    exact hresc
  obtain ⟨w', -, hinit⟩ := init_repair none (by rw [hlv]; rfl) (by rw [hbs]; exact hkeep) hst
    hlinked htop (by simp) (repairStatus_of_top htop')
  refine ⟨_, _, hinit, .inl rfl, rfl, repaired_holds hst.reset ?_ w'⟩
  intro l2 hl2
  obtain rfl : l'.reset = l2 := by simpa using hl2
  exact ⟨cons_ne_nil _ _, rfl⟩

theorem Refilled.chained (hlink : s.leaf.leaf.link = emptyAddr) (hl : s.levels = []) :
    s'.Chains [] := by
  have hnone : Chained s.bstore s.id s.bstore.blocks.length [] 0 emptyAddr s.levels := by
    rw [hl]
    exact ⟨rfl, rfl⟩
  obtain ⟨saved, hsaved, hc⟩ := flushed_chained (s := { s with rescue := emptyAddr }) w hnone
    (by rw [hl]; exact hlink) h.leaf
  obtain rfl : saved = [] := or_self_iff.mp hsaved
  rw [Chains, h.bstore, h.levels, h.rescue, h.ident]
  exact hc

theorem Refilled.leavesFrom (hn : n ≤ s.bstore.blocks.length) : s'.bstore.leavesFrom n =
        s.bstore.leavesFrom n ++ [⟨s.bstore.alloc s.bstore.blocks.length, pts⟩] ∧
      n ≤ s'.bstore.blocks.length := by
  rw [h.bstore]
  exact flushed_leavesFrom h.leaf w hn

end

end OpenTree

theorem exists_crashed (p : Point) : ∃ n s block w v,
    (fresh (memStore Rat) 7).Refilled [] (replicate n p) p s block w ∧
    runOps ((replicate (n + 1) p).map (.append · true)) (.new 7 [] (memStore Rat)) =
      some (replicate (n + 1) p, s.list) ∧ s.bstore.removedBelow = 0 ∧
    s.list.crash.init = some (s.repaired (s.levels.map .reset) v).list := by
  obtain ⟨n, s, block, w, hfeed, hr⟩ := exists_refilled (fresh_holds (memStore Rat))
    (minTimestamp_le p.ts)
  have hkeep : s.bstore.removedBelow = 0 := by
    rw [hr.bstore]
    exact (flushed_bstore block w).2
  obtain ⟨v, -, hinit⟩ := init_linked hr.holds.levels hkeep (hr.chained rfl rfl)
  refine ⟨n, s, block, w, v, hr, ?_, hkeep, hinit⟩
  have hlate : (fresh (memStore Rat) 7).late p true = false :=
    decide_eq_false (not_lt.mpr (minTimestamp_le p.ts))
  rw [runOps_feed, ← hfeed]
  exact feed_new (memStore Rat) hlate _

/-- Two leaves are written with a crash between them; a second crash loses the
first leaf. -/
theorem recover_run_lost : ∃ (ps ps' acc found : List Point) (t t' : NBTreeExtentsList Rat),
    runOps (ps.map (.append · true) ++ .crash :: ps'.map (.append · true))
      (.new 7 [] (memStore Rat)) = some (acc, t) ∧ t.crash.init = some t' ∧
    (∀ sizes : Nat → Nat, (∀ i, 0 < sizes i) → ∀ fuel, found.length < fuel →
      t'.drainSearch minTimestamp maxTimestamp fuel sizes = some (found, .noData)) ∧
    found ≠ (points (t.bstore.leavesFrom 0)).filter (fun p => decide (p.ts < maxTimestamp)) := by
  let p : Point := ⟨1, 0⟩
  obtain ⟨n, s1, block1, w1, v1, hr1, hfirst, hkeep1, hinit1⟩ := exists_crashed p
  let s2 := s1.repaired (s1.levels.map .reset) v1
  have hholds2 : s2.Holds _ [] := repaired_holds hr1.holds.levels.reset hr1.holds.top.reset v1
  -- the second leaf, and the second crash
  obtain ⟨m, s3, block3, w3, hfeed2, hr2⟩ := exists_refilled hholds2 (minTimestamp_le p.ts)
  rw [nil_append (replicate m p)] at hr2
  have hlv : s2.levels = [(Level.empty.push (leafRef 7 0 (replicate n p) ((memStore Rat).alloc 0))
      nbtreeFanout_pos).reset] := by
    show s1.levels.map Level.reset = _
    rw [hr1.levels]
    rfl
  obtain ⟨t', s4, hinit2, hsh, hbs, hholds4⟩ := hr2.hides hkeep1 rfl hlv rfl
    (show 1 < nbtreeFanout by decide)
  -- what was stored, and what is found
  have hfilter : ∀ k, (replicate k p).filter (fun p => decide (p.ts < maxTimestamp)) =
      replicate k p := fun k => filter_replicate_of_pos (by decide)
  have hstored : points (s3.bstore.leavesFrom 0) = replicate n p ++ replicate m p := by
    obtain ⟨h1, hn1⟩ := hr1.leavesFrom (Nat.zero_le 0)
    obtain ⟨h2, -⟩ := hr2.leavesFrom hn1
    rw [h2]
    show points (s1.bstore.leavesFrom 0 ++ _) = _
    have h0 : (fresh (memStore Rat) 7).bstore.leavesFrom 0 = [] := rfl
    rw [h1, h0]
    simp [points]
  refine ⟨replicate (n + 1) p, replicate (m + 1) p, replicate (n + 1) p ++ replicate (m + 1) p,
    replicate m p, s3.list, t', ?_, hinit2, ?_, ?_⟩
  · rw [runOps_append, hfirst]
    simp only [runOps, SessionOp.step, hinit1, map_some, bind_some]
    rw [runOps_feed, hfeed2]
    rfl
  · intro sizes hsizes fuel hfuel
    have hkeep4 : s4.bstore.removedBelow = 0 := by
      rw [hbs, hr2.bstore, (flushed_bstore block3 w3).2]
      exact hkeep1
    have hpoints : points [⟨s2.bstore.alloc s2.bstore.blocks.length, replicate m p⟩] ++ [] =
        replicate m p := by simp [points]
    have hsorted : Sorted (replicate m p) := pairwise_replicate.mpr (.inr le_rfl)
    rw [hsh.drainSearch_kept hholds4 hkeep4 (by rw [hpoints]; exact hsorted) hsizes
      (by rw [hpoints]; exact hfuel), hpoints, scan_all, hfilter]
  · show replicate m p ≠ (points (s3.bstore.leavesFrom 0)).filter _
    rw [hstored, filter_append, hfilter, hfilter]
    intro hc
    have hlen := congrArg length hc
    simp only [length_append, length_replicate] at hlen
    have hzero : n = 0 := by omega
    exact hr1.ne (by rw [hzero]; rfl)

end FastSTDB
