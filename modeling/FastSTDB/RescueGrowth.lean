import FastSTDB.Sessions

/-
  Rescue points — what the operations of a tree do to them

  Whatever the extents of a tree are, an operation only adds blocks, never shortens the
  list of rescue points, and an address that it puts there is `EMPTY_ADDR` or that of a
  block it has written (`Advances`). The extents call back into the list while they
  commit, so this is shown for an arbitrary callback that advances the list, and then by
  induction for the list itself.

  An append that asks for a flush puts the address of a new block into the list
  (`append_advances`). This is what makes a list newer than another one.
-/
namespace FastSTDB
open List Option NBTreeSBlockExtent

variable {V : Type} [DoubleArith V]
variable {addr : LogicAddr} {bs : BlockStore V} {e : NBTreeSBlockExtent V}

/-- The address of a block that is in `bs'` and not in `bs`. -/
def BlockStore.Fresh (bs bs' : BlockStore V) (addr : LogicAddr) : Prop :=
  ∃ i, bs.blocks.length ≤ i ∧ i < bs'.blocks.length ∧ addr = bs.alloc i

namespace BlockStore
variable {bs bs' bs'' : BlockStore V} {addr : LogicAddr}

section
omit [DoubleArith V]

theorem Fresh.later (h : bs.Fresh bs' addr) (hext : bs'.Extends bs'') : bs.Fresh bs'' addr := by
  obtain ⟨i, hle, hlt, heq⟩ := h
  exact ⟨i, hle, hlt.trans_le hext.2.length_le, heq⟩

theorem Fresh.earlier (h : bs'.Fresh bs'' addr) (hext : bs.Extends bs') : bs.Fresh bs'' addr := by
  obtain ⟨i, hle, hlt, heq⟩ := h
  exact ⟨i, hext.2.length_le.trans hle, hlt, heq.trans (congrFun hext.1 i)⟩

theorem fresh_appendBlock (bs : BlockStore V) (b : Block V) :
    bs.Fresh (bs.appendBlock b).2 (bs.appendBlock b).1 := by
  refine ⟨bs.blocks.length, le_rfl, ?_, rfl⟩
  simp [appendBlock]

end

end BlockStore

variable {addrs : List LogicAddr} {bs' : BlockStore V}

namespace NBTreeExtentsList

/-- What an operation may do to the store and to the rescue points. -/
structure Advances (t t' : NBTreeExtentsList V) : Prop where
  ext : t.bstore.Extends t'.bstore
  kept : t'.bstore.removedBelow = t.bstore.removedBelow
  writes : t.writeCount ≤ t'.writeCount
  levels : t.rescuePoints.length ≤ t'.rescuePoints.length
  entries : ∀ a ∈ t'.rescuePoints,
    a ∈ t.rescuePoints ∨ a = emptyAddr ∨ t.bstore.Fresh t'.bstore a

/-- The callback of the extents advances the list. -/
def RootsAdvance (roots : RootsAppend V) : Prop :=
  ∀ (t t' : NBTreeExtentsList V) (pl : SubtreeRef V) (saved : Bool),
    roots t pl = some (saved, t') → t.Advances t'

section
omit [DoubleArith V]
variable {t t' t'' : NBTreeExtentsList V}

theorem advances_same (hbs : t'.bstore = t.bstore) (hw : t.writeCount ≤ t'.writeCount)
    (hr : t'.rescuePoints = t.rescuePoints) : t.Advances t' := by
  refine ⟨?_, ?_, hw, ?_, fun a ha => .inl ?_⟩
  · rw [hbs]
    exact .refl _
  · rw [hbs]
  · rw [hr]
  · rw [← hr]
    exact ha

theorem Advances.refl (t : NBTreeExtentsList V) : t.Advances t := advances_same rfl le_rfl rfl

theorem advances_extents (extents : Option (Extents V)) :
    t.Advances { t with extents } := advances_same rfl le_rfl rfl

theorem Advances.trans (h : t.Advances t') (h' : t'.Advances t'') : t.Advances t'' := by
  refine ⟨h.ext.trans h'.ext, h'.kept.trans h.kept, h.writes.trans h'.writes,
    h.levels.trans h'.levels, fun a ha => ?_⟩
  rcases h'.entries a ha with ha | ha | ha
  · exact (h.entries a ha).imp_right (.imp_right fun hf => hf.later h'.ext)
  · exact .inr (.inl ha)
  · exact .inr (.inr (ha.earlier h.ext))

theorem advances_appendBlock (t : NBTreeExtentsList V) (b : Block V) :
    t.Advances { t with bstore := (t.bstore.appendBlock b).2 } :=
  ⟨t.bstore.extends_appendBlock b, rfl, le_rfl, le_rfl, fun _ ha => .inl ha⟩

theorem Advances.setRescuePoints (h : t.Advances t') (hlen : t.rescuePoints.length ≤ addrs.length)
    (hentries : ∀ a ∈ addrs, a ∈ t'.rescuePoints ∨ a = emptyAddr ∨ t.bstore.Fresh t'.bstore a) :
    t.Advances { t' with rescuePoints := addrs } := by
  refine ⟨h.ext, h.kept, h.writes, hlen, fun a ha => ?_⟩
  rcases hentries a ha with ha | ha
  · exact h.entries a ha
  · exact .inr ha

theorem Advances.setRescue (h : t.Advances t') {lvl : Nat}
    (hfresh : t.bstore.Fresh t'.bstore addr) (hset : t'.setRescue lvl addr = some t'') :
    t.Advances t'' ∧ addr ∈ t''.rescuePoints ∧ t''.bstore = t'.bstore := by
  rw [NBTreeExtentsList.setRescue] at hset
  split at hset
  · next hlt =>
    cases hset
    refine ⟨h.setRescuePoints ?_ fun a ha => ?_, mem_set hlt addr, rfl⟩
    · rw [length_set]
      exact h.levels
    · rcases mem_or_eq_of_mem_set ha with ha | rfl
      · exact .inl ha
      · exact .inr (.inr hfresh)
  · split at hset
    · cases hset
      refine ⟨h.setRescuePoints ?_ fun a ha => ?_, mem_append_right _ (mem_singleton_self _), rfl⟩
      · rw [length_append]
        exact Nat.le_add_right_of_le h.levels
      · rcases mem_append.mp ha with ha | ha
        · exact .inl ha
        · rw [mem_singleton.mp ha]
          exact .inr (.inr hfresh)
    · cases hset

theorem advances_newLevel (extents : Option (Extents V)) :
    t.Advances { t with extents, rescuePoints := t.rescuePoints ++ [emptyAddr] } := by
  refine ⟨.refl _, rfl, le_rfl, ?_, fun a ha => ?_⟩
  · rw [length_append]
    exact le_self_add
  · rcases mem_append.mp ha with ha | ha
    · exact .inl ha
    · exact .inr (.inl (mem_singleton.mp ha))

end
end NBTreeExtentsList

open NBTreeExtentsList

/-! ## Extents -/

omit [DoubleArith V] in
theorem IOVecLeaf.commit_appends {leaf leaf' : IOVecLeaf V}
    (h : leaf.commit bs = some (addr, leaf', bs')) : ∃ b, bs.appendBlock b = (addr, bs') := by
  obtain ⟨r, -, h⟩ := map_eq_some_iff.mp h
  cases h
  exact ⟨_, rfl⟩

theorem IOVecSuperblock.commit_appends {node : IOVecSuperblock V}
    (h : node.commit bs = some (.ok, addr, bs')) : ∃ b, bs.appendBlock b = (addr, bs') := by
  rw [IOVecSuperblock.commit] at h
  split at h
  · cases h
  · obtain ⟨r, -, h⟩ := map_eq_some_iff.mp h
    cases h
    exact ⟨_, rfl⟩

section Commit
variable {roots : RootsAppend V} (hroots : RootsAdvance roots) {t t' : NBTreeExtentsList V}
  {final saved : Bool} {addr : LogicAddr}
include hroots

omit [DoubleArith V] in
theorem advances_referred {b : Block V} {pl : SubtreeRef V} {up : Bool}
    (hblock : t.bstore.appendBlock b = (addr, bs))
    (h : (if up then roots { t with bstore := bs } pl else some (false, { t with bstore := bs })) =
      some (saved, t')) :
    t.Advances t' ∧ t.bstore.Fresh t'.bstore addr := by
  have hnew : t.Advances { t with bstore := bs } := by
    have h := advances_appendBlock t b
    rw [hblock] at h
    exact h
  have hfresh : t.bstore.Fresh bs addr := by
    have h := t.bstore.fresh_appendBlock b
    rw [hblock] at h
    exact h
  split at h
  · have hup := hroots _ _ _ _ h
    exact ⟨hnew.trans hup, hfresh.later hup.ext⟩
  · cases h
    exact ⟨hnew, hfresh⟩

theorem NBTreeLeafExtent.commit_advances {e e' : NBTreeLeafExtent V}
    (h : e.commit roots t final = some (saved, addr, t', e')) :
    t.Advances t' ∧ t.bstore.Fresh t'.bstore addr := by
  obtain ⟨⟨addr1, leaf, bs⟩, hcommit, h⟩ := bind_eq_some_iff.mp h
  obtain ⟨b, hblock⟩ := IOVecLeaf.commit_appends hcommit
  dsimp only at h
  split at h
  · obtain ⟨⟨saved1, t1⟩, hup, h⟩ := bind_eq_some_iff.mp h
    cases h
    exact advances_referred hroots hblock hup
  · cases h

theorem NBTreeLeafExtent.append_advances : ∀ {fuel : Nat} {t t' : NBTreeExtentsList V}
    {e e' : NBTreeLeafExtent V} {p : Point} {saved : Bool} {addr : LogicAddr},
    e.append roots fuel t p = some (saved, addr, t', e') →
    t.Advances t' ∧ (addr = emptyAddr ∨ t.bstore.Fresh t'.bstore addr)
  | 0, _, _, _, _, _, _, _, h => by cases h
  | fuel + 1, t, t', e, e', p, saved, addr, h => by
    rw [NBTreeLeafExtent.append] at h
    split at h
    · obtain ⟨⟨saved1, addr1, t1, e1⟩, hcommit, h⟩ := bind_eq_some_iff.mp h
      obtain ⟨⟨saved2, addr2, t2, e2⟩, happend, h⟩ := map_eq_some_iff.mp h
      cases h
      obtain ⟨hadv1, hfresh⟩ := NBTreeLeafExtent.commit_advances hroots hcommit
      obtain ⟨hadv2, -⟩ := append_advances happend
      exact ⟨hadv1.trans hadv2, .inr (hfresh.later hadv2.ext)⟩
    · cases h
      exact ⟨.refl _, .inl rfl⟩

theorem NBTreeSBlockExtent.commit_advances {e' : NBTreeSBlockExtent V}
    (h : e.commit roots t final = some (saved, addr, t', e')) :
    t.Advances t' ∧ t.bstore.Fresh t'.bstore addr := by
  obtain ⟨⟨status, addr1, bs⟩, hcommit, h⟩ := bind_eq_some_iff.mp h
  dsimp only at h
  split at h
  · cases h
  · next hstatus =>
    rw [of_not_not hstatus] at hcommit
    obtain ⟨b, hblock⟩ := IOVecSuperblock.commit_appends hcommit
    obtain ⟨payload, -, h⟩ := bind_eq_some_iff.mp h
    obtain ⟨⟨saved1, t1⟩, hup, h⟩ := bind_eq_some_iff.mp h
    cases h
    exact advances_referred hroots hblock hup

theorem NBTreeSBlockExtent.append_advances : ∀ {fuel : Nat} {t t' : NBTreeExtentsList V}
    {e e' : NBTreeSBlockExtent V} {pl : SubtreeRef V} {saved : Bool} {addr : LogicAddr},
    e.append roots fuel t pl = some (saved, addr, t', e') →
    t.Advances t' ∧ (addr = emptyAddr ∨ t.bstore.Fresh t'.bstore addr)
  | 0, _, _, _, _, _, _, _, h => by cases h
  | fuel + 1, t, t', e, e', pl, saved, addr, h => by
    rw [NBTreeSBlockExtent.append] at h
    split at h
    · obtain ⟨⟨saved1, addr1, t1, e1⟩, hcommit, h⟩ := bind_eq_some_iff.mp h
      obtain ⟨⟨saved2, addr2, t2, e2⟩, happend, h⟩ := map_eq_some_iff.mp h
      cases h
      obtain ⟨hadv1, hfresh⟩ := commit_advances hroots hcommit
      obtain ⟨hadv2, -⟩ := append_advances happend
      exact ⟨hadv1.trans hadv2, .inr (hfresh.later hadv2.ext)⟩
    · cases h
      exact ⟨.refl _, .inl rfl⟩

end Commit

/-! ## The list -/

namespace NBTreeExtentsList
variable {t t' : NBTreeExtentsList V}

omit [DoubleArith V] in
theorem rootFor_advances {level : Nat} (h : t.rootFor level = some (e, t')) : t.Advances t' := by
  obtain ⟨x, -, h⟩ := bind_eq_some_iff.mp h
  split at h
  · cases h
    exact .refl _
  · split at h
    · obtain ⟨e1, -, h⟩ := map_eq_some_iff.mp h
      cases h
      exact advances_newLevel _
    · cases h

/-- A reference that goes up, by induction on the levels it can climb. -/
theorem appendRef_advances (fuel : Nat) : RootsAdvance (appendRef fuel : RootsAppend V) := by
  induction fuel with
  | zero => intro t t' pl saved h; cases h
  | succ fuel ih =>
    intro t t' pl saved h
    obtain ⟨⟨root, t1⟩, hroot, h⟩ := bind_eq_some_iff.mp h
    obtain ⟨⟨saved2, addr, t2, root2⟩, happend, h⟩ := bind_eq_some_iff.mp h
    have hcount : t1.Advances { t1 with writeCount := t1.writeCount + 1 } :=
      advances_same rfl (Nat.le_succ _) rfl
    obtain ⟨hup, hfresh⟩ := append_advances ih happend
    have hadv : t.Advances (t2.setInner pl.level root2) :=
      ((rootFor_advances hroot).trans hcount).trans (hup.trans (advances_extents _))
    dsimp only at h
    split at h
    · next hne =>
      obtain ⟨t3, hset, h⟩ := map_eq_some_iff.mp h
      cases h
      have hfresh := (hfresh.resolve_left hne).earlier (rootFor_advances hroot).ext
      exact (hadv.setRescue hfresh hset).1
    · cases h
      exact hadv

theorem ensureLeaf_advances : t.Advances t.ensureLeaf := by
  rw [ensureLeaf]
  split
  · exact .refl _
  · exact advances_newLevel _

theorem appendAll_advances : ∀ {refs : List (SubtreeRef V)} {t t' : NBTreeExtentsList V},
    appendAll refs t = some t' → t.Advances t'
  | [], t, t', h => by
    cases h
    exact .refl _
  | ref :: refs, t, t', h => by
    obtain ⟨⟨saved, t1⟩, hroots, h⟩ := bind_eq_some_iff.mp h
    exact (appendRef_advances _ _ _ _ _ hroots).trans (appendAll_advances h)

theorem repairLoop_advances : ∀ {fuel : Nat} {stack : List LogicAddr} {refs : List (SubtreeRef V)}
    {t t' : NBTreeExtentsList V}, repairLoop fuel stack refs t = some t' → t.Advances t'
  | 0, _, _, _, _, h => by cases h
  | fuel + 1, [], _, t, t', h => by
    cases h
    exact .refl _
  | fuel + 1, curr :: stack, refs, t, t', h => by
    rw [repairLoop] at h
    split at h
    · obtain ⟨t1, hall, h⟩ := bind_eq_some_iff.mp h
      exact (appendAll_advances hall).trans (repairLoop_advances h)
    · split at h
      · obtain ⟨r, -, h⟩ := bind_eq_some_iff.mp h
        exact repairLoop_advances h
      · exact repairLoop_advances h

theorem repair_advances (h : t.repair = some t') : t.Advances t' := by
  exact (advances_extents _).trans (repairLoop_advances h)

/-! ## Opening -/

end NBTreeExtentsList

omit [DoubleArith V] in
/-- A store that keeps its blocks kills no extent. -/
theorem NBTreeSBlockExtent.new_alive (hkeep : bs.removedBelow = 0) {id : ParamId} {level : Nat}
    (h : new bs id addr level = some e) : e.killed = false := by
  rw [new] at h
  split at h
  · cases h
    rfl
  · split at h
    · obtain ⟨curr, -, h⟩ := map_eq_some_iff.mp h
      cases h
      rfl
    · next hread =>
      rw [BlockStore.readIovecBlock] at hread
      split at hread
      · cases hread
      · split at hread
        · next hlt =>
          rw [hkeep] at hlt
          exact absurd hlt (Nat.not_lt_zero _)
        · cases hread
    · cases h

theorem NBTreeSBlockExtent.append_killed : ∀ {roots : RootsAppend V} {fuel : Nat}
    {t t' : NBTreeExtentsList V} {e e' : NBTreeSBlockExtent V} {pl : SubtreeRef V} {saved : Bool}
    {addr : LogicAddr}, e.append roots fuel t pl = some (saved, addr, t', e') → e'.killed = e.killed
  | _, 0, _, _, _, _, _, _, _, h => by cases h
  | roots, fuel + 1, t, t', e, e', pl, saved, addr, h => by
    rw [NBTreeSBlockExtent.append] at h
    split at h
    · obtain ⟨⟨saved1, addr1, t1, e1⟩, hcommit, h⟩ := bind_eq_some_iff.mp h
      obtain ⟨⟨saved2, addr2, t2, e2⟩, happend, h⟩ := map_eq_some_iff.mp h
      cases h
      rw [append_killed happend]
      obtain ⟨r, -, hcommit⟩ := bind_eq_some_iff.mp hcommit
      dsimp only at hcommit
      split at hcommit
      · cases hcommit
      · obtain ⟨payload, -, hcommit⟩ := bind_eq_some_iff.mp hcommit
        obtain ⟨r', -, hcommit⟩ := bind_eq_some_iff.mp hcommit
        cases hcommit
        rfl
    · cases h
      rfl

namespace NBTreeExtentsList
variable {t t' : NBTreeExtentsList V}

omit [DoubleArith V] in
theorem dropKilled_advances {x : Extents V} (hx : t.extents = some x)
    (halive : ∀ e ∈ x.inner.getLast?, e.killed = false) : t.Advances t.dropKilled := by
  have hnone : x.inner.reverse.takeWhile (·.killed) = [] := by
    cases hrev : x.inner.reverse with
    | nil => rfl
    | cons e es =>
      have hlast : x.inner.getLast? = some e := by rw [← head?_reverse, hrev, head?_cons]
      rw [takeWhile_cons, halive e hlast]
      rfl
  rw [dropKilled, hx]
  simp only [hnone, length_nil, Nat.sub_zero, take_length]
  exact advances_extents _

omit [DoubleArith V] in
theorem restoreLast_advances (h : t.restoreLast = some t') : t.Advances t' := by
  rw [restoreLast] at h
  split at h
  · cases h
    exact .refl _
  · obtain ⟨it, -, h⟩ := bind_eq_some_iff.mp h
    obtain ⟨last, -, h⟩ := map_eq_some_iff.mp h
    cases h
    exact advances_same rfl le_rfl rfl

/-- The last extent was not killed. -/
def TopAlive (t : NBTreeExtentsList V) : Prop :=
  ∃ x, t.extents = some x ∧ ∀ e ∈ x.inner.getLast?, e.killed = false

theorem openLeaf_advances {loaded : Bool} (h : t.openLeaf addr = some (loaded, t')) :
    t.Advances t' ∧ (loaded = true → t'.TopAlive) := by
  rw [openLeaf] at h
  split at h
  · obtain ⟨leaf, -, h⟩ := bind_eq_some_iff.mp h
    split at h
    · obtain ⟨⟨saved, addr1, t1, root⟩, happend, h⟩ := bind_eq_some_iff.mp h
      obtain ⟨leafExtent, -, h⟩ := map_eq_some_iff.mp h
      cases h
      have hnone : RootsAdvance (fun _ _ => none : RootsAppend V) := fun _ _ _ _ h => by cases h
      obtain ⟨hadv, -⟩ := append_advances hnone happend
      refine ⟨hadv.trans (advances_newLevel _), fun _ => ⟨_, rfl, fun e he => ?_⟩⟩
      cases he
      exact append_killed happend
    · cases h
  · cases h
    exact ⟨advances_extents _, fun h => by cases h⟩

theorem openRoot_advances (hkeep : t.bstore.removedBelow = 0) (h : t.openRoot addr = some t') :
    t.Advances t' ∧ t'.TopAlive := by
  obtain ⟨root, hroot, h⟩ := map_eq_some_iff.mp h
  cases h
  refine ⟨advances_extents _, _, rfl, fun e he => ?_⟩
  rw [getLast?_concat] at he
  cases he
  exact new_alive hkeep hroot

theorem loaded_advances (halive : t.TopAlive) (h : t.dropKilled.restoreLast = some t') :
    t.Advances t' := by
  obtain ⟨x, hx, hlast⟩ := halive
  exact (dropKilled_advances hx hlast).trans (restoreLast_advances h)

section
variable (hkeep : t.bstore.removedBelow = 0)
include hkeep

theorem openTree_advances (h : t.openTree = some t') : t.Advances t' := by
  rw [openTree] at h
  split at h
  · cases h
  · obtain ⟨⟨loaded, t1⟩, hopen, h⟩ := bind_eq_some_iff.mp h
    obtain ⟨hadv, halive⟩ := openLeaf_advances hopen
    dsimp only at h
    split at h
    · next hloaded => exact hadv.trans (loaded_advances (halive hloaded) h)
    · cases h
      exact hadv
  · obtain ⟨t1, hopen, h⟩ := bind_eq_some_iff.mp h
    obtain ⟨hadv, halive⟩ := openRoot_advances hkeep hopen
    exact hadv.trans (loaded_advances halive h)

theorem init_advances (h : t.init = some t') : t.Advances t' := by
  have hmarked : t.Advances { t with initialized := true } := advances_same rfl le_rfl rfl
  rw [init] at h
  split at h
  · cases h
    exact hmarked
  · split at h
    · exact hmarked.trans (openTree_advances hkeep h)
    · exact hmarked.trans (repair_advances h)

theorem forceInit_advances (h : t.forceInit = some t') : t.Advances t' := by
  rw [forceInit] at h
  split at h
  · cases h
    exact .refl _
  · exact init_advances hkeep h

/-! ## Operations -/

/-- An append that asks for a flush has put the address of a new block into the list. -/
theorem append_advances {p : Point} {allowDup : Bool} {r : NBTreeAppendResult}
    (h : t.append p allowDup = some (r, t')) :
    t.Advances t' ∧ (r = .okFlushNeeded → 0 < t'.writeCount ∧
      ∃ a ∈ t'.rescuePoints, t.bstore.Fresh t'.bstore a) := by
  obtain ⟨t1, hinit, h⟩ := bind_eq_some_iff.mp h
  have hadv1 := forceInit_advances hkeep hinit
  by_cases hlate : (if allowDup then decide (p.ts < t1.last) else decide (p.ts ≤ t1.last)) = true
  · rw [if_pos hlate] at h
    cases h
    exact ⟨hadv1, fun h => by cases h⟩
  · rw [if_neg hlate] at h
    -- the point is accepted
    have hcount : t1.Advances { t1 with last := p.ts, writeCount := t1.writeCount + 1 } :=
      advances_same rfl (Nat.le_succ _) rfl
    have hpos : 0 < ({ t1 with last := p.ts, writeCount := t1.writeCount + 1 }).writeCount :=
      Nat.succ_pos _
    generalize ({ t1 with last := p.ts, writeCount := t1.writeCount + 1 }) = t0 at h hcount hpos
    obtain ⟨x, -, h⟩ := bind_eq_some_iff.mp h
    obtain ⟨⟨saved, addr, t2, leaf⟩, happend, h⟩ := bind_eq_some_iff.mp h
    obtain ⟨hup, hfresh⟩ := NBTreeLeafExtent.append_advances (appendRef_advances _) happend
    have hadv0 : t0.Advances (t2.setLeaf leaf) :=
      ensureLeaf_advances.trans (hup.trans (advances_extents _))
    dsimp only at h
    split at h
    · next hne =>
      have hfresh := (hfresh.resolve_left hne).earlier ensureLeaf_advances.ext
      obtain ⟨t3, hset, h⟩ := map_eq_some_iff.mp h
      cases h
      obtain ⟨hadv, hmem, hbs⟩ : t0.Advances t' ∧ addr ∈ t'.rescuePoints ∧
          t'.bstore = (t2.setLeaf leaf).bstore := by
        split at hset
        · exact hadv0.setRescue hfresh hset
        · next hnone =>
          cases hset
          refine ⟨hadv0.setRescuePoints ?_ fun a ha => ?_, mem_singleton_self _, rfl⟩
          · have := hadv0.levels
            omega
          · rw [mem_singleton.mp ha]
            exact .inr (.inr hfresh)
      refine ⟨(hadv1.trans hcount).trans hadv, fun _ => ⟨hpos.trans_le hadv.writes, addr, hmem, ?_⟩⟩
      rw [hbs]
      exact hfresh.earlier (hadv1.trans hcount).ext
    · cases h
      exact ⟨(hadv1.trans hcount).trans hadv0, fun h => by cases h⟩

end

/-- The loop of `close`; the address it ends with is empty, new, or the one it began with. -/
theorem closeLoop_advances : ∀ {fuel index : Nat} {addr addr' : LogicAddr}
    {t t' : NBTreeExtentsList V}, closeLoop fuel index addr t = some (addr', t') →
    t.Advances t' ∧ (addr' = addr ∨ t.bstore.Fresh t'.bstore addr')
  | 0, _, _, _, _, _, h => by cases h
  | fuel + 1, index, addr, addr', t, t', h => by
    -- one more round behind a commit
    have hcommitted : ∀ {t1 : NBTreeExtentsList V} {index1 : Nat} {addr1 : LogicAddr},
        t.Advances t1 → t.bstore.Fresh t1.bstore addr1 →
        closeLoop fuel index1 addr1 t1 = some (addr', t') →
        t.Advances t' ∧ (addr' = addr ∨ t.bstore.Fresh t'.bstore addr') := by
      intro t1 index1 addr1 hadv1 hfresh h
      obtain ⟨hadv, hlast⟩ := closeLoop_advances h
      refine ⟨hadv1.trans hadv, .inr ?_⟩
      rcases hlast with rfl | hlast
      · exact hfresh.later hadv.ext
      · exact hlast.earlier hadv1.ext
    rw [closeLoop] at h
    split at h
    · cases h
      exact ⟨.refl _, .inl rfl⟩
    · split at h
      · split at h
        · obtain ⟨⟨saved, addr1, t1, leaf⟩, hcommit, h⟩ := bind_eq_some_iff.mp h
          obtain ⟨hadv, hfresh⟩ := NBTreeLeafExtent.commit_advances (appendRef_advances _) hcommit
          have hset : t.Advances (t1.setLeaf leaf) := hadv.trans (advances_extents _)
          exact hcommitted hset hfresh h
        · exact closeLoop_advances h
      · split at h
        · cases h
          exact ⟨.refl _, .inl rfl⟩
        · split at h
          · obtain ⟨⟨saved, addr1, t1, e⟩, hcommit, h⟩ := bind_eq_some_iff.mp h
            obtain ⟨hadv, hfresh⟩ := commit_advances (appendRef_advances _) hcommit
            have hset : t.Advances (t1.setInner (index - 1) e) := hadv.trans (advances_extents _)
            exact hcommitted hset hfresh h
          · exact closeLoop_advances h

theorem close_advances (hw : t.writeCount ≠ 0)
    (h : t.close = some (addrs, t')) : t.Advances t' := by
  obtain ⟨t1, hclose, h⟩ := map_eq_some_iff.mp h
  cases h
  have hadv : t.Advances t1 := by
    split at hclose
    · obtain ⟨⟨addr, t2⟩, hloop, hclose⟩ := bind_eq_some_iff.mp hclose
      obtain ⟨hadv, haddr⟩ := closeLoop_advances hloop
      dsimp only at hclose
      split at hclose
      · cases hclose
      · next hne =>
        cases hclose
        refine hadv.setRescuePoints ?_ fun a ha => ?_
        · have := hadv.levels
          rw [length_append, length_replicate, length_singleton]
          omega
        · rcases mem_append.mp ha with ha | ha
          · exact .inr (.inl (mem_replicate.mp ha).2)
          · rw [mem_singleton.mp ha]
            exact .inr haddr
    · cases hclose
      exact .refl _
  exact hadv.trans (advances_same rfl le_rfl rfl)

end NBTreeExtentsList
end FastSTDB
