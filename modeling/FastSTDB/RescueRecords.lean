import FastSTDB.MetadataRecovery
import FastSTDB.RescueGrowth

/-
  Rescue records — which rescue points are in force after a recovery

  When an append asks for a flush, the rescue points of the tree go to the log. Recovery
  replaces the rescue points of the database by those of a record if the record has no
  fewer levels, its largest address is not smaller, and that address is below the top of
  the store. `EMPTY_ADDR` is a level without a rescue point, and larger than every
  address. So a list that has it is never taken in place of another one, and never
  replaced.

  Correspondence (C++ ↔ Lean):
    one session on a tree: `append`, `close(ids)`  ↔ `TreeOp`, `recordRescue`
    `get_roots()` after an append                  ↔ `NBTreeExtentsList.rescuePoints`
    the records of a series in the log             ↔ `rescueRecords`
    `BlockStore::get_top_address`                  ↔ `topAddr`, above all addresses

  What is proved:
    1. `recordRescue_newer` — of two records of a session the later one has no fewer
       levels and an address above all of the earlier one.
    2. `newest_rescue_iff` — exactly when the last record of the log is in force.
    3. `newest_rescue_ignored` — a new tree with two leaves: the first record stays.
-/
namespace FastSTDB
open List Option OpenTree

variable {V : Type} [DoubleArith V]

/-! ## The records of a session -/

/-- What a session does to a tree; a tree that was closed is opened by the next append. -/
inductive TreeOp where
  | append (p : Point)
  | close

/-- The rescue points that go to the log, and the tree. -/
def TreeOp.step : TreeOp → NBTreeExtentsList V → Option (List (List LogicAddr) × NBTreeExtentsList V)
  | .append p, t => (t.append p true).map fun (r, t) =>
      (if r = .okFlushNeeded then [t.rescuePoints] else [], t)
  | .close, t => t.close.map fun (_, t) => ([], t)

def recordRescue : List TreeOp → NBTreeExtentsList V →
    Option (List (List LogicAddr) × NBTreeExtentsList V)
  | [], t => some ([], t)
  | op :: ops, t => (op.step t).bind fun (lists, t) =>
      (recordRescue ops t).map fun (lists', t) => (lists ++ lists', t)

/-- The addresses are empty or those of blocks. -/
def BlockStore.Placed (bs : BlockStore V) (addrs : List LogicAddr) : Prop :=
  ∀ a ∈ addrs, a = emptyAddr ∨ ∃ i < bs.blocks.length, a = bs.alloc i

/-- The second list has an address above all of the first, and no fewer levels. -/
structure Newer (r r' : List LogicAddr) : Prop where
  levels : r.length ≤ r'.length
  above : ∃ a ∈ r', ∀ b ∈ r, b = emptyAddr ∨ b < a

section Records
omit [DoubleArith V]
variable {bs bs' : BlockStore V} {addrs : List LogicAddr}

theorem BlockStore.Placed.mono (h : bs.Placed addrs) (hext : bs.Extends bs') : bs'.Placed addrs := by
  intro a ha
  refine (h a ha).imp_right ?_
  rintro ⟨i, hi, heq⟩
  exact ⟨i, hi.trans_le hext.2.length_le, heq.trans (congrFun hext.1 i).symm⟩

theorem NBTreeExtentsList.Advances.placed {t t' : NBTreeExtentsList V} (h : t.Advances t')
    (hplaced : t.bstore.Placed t.rescuePoints) : t'.bstore.Placed t'.rescuePoints := by
  intro a ha
  rcases h.entries a ha with ha | ha | ⟨i, -, hi, heq⟩
  · exact hplaced.mono h.ext a ha
  · exact .inl ha
  · exact .inr ⟨i, hi, heq.trans (congrFun h.ext.1 i).symm⟩

theorem BlockStore.Placed.below (h : bs.Placed addrs) (hmono : StrictMono bs.alloc) {a : LogicAddr}
    (ha : bs.Fresh bs' a) : ∀ b ∈ addrs, b = emptyAddr ∨ b < a := by
  obtain ⟨i, hi, -, rfl⟩ := ha
  intro b hb
  refine (h b hb).imp_right ?_
  rintro ⟨j, hj, rfl⟩
  exact hmono (hj.trans_le hi)

end Records

variable {addrs : List LogicAddr}

theorem NBTreeExtentsList.close_placed {t t' : NBTreeExtentsList V}
    (hplaced : t.bstore.Placed t.rescuePoints) (h : t.close = some (addrs, t')) :
    t.bstore.Extends t'.bstore ∧ t'.bstore.removedBelow = t.bstore.removedBelow ∧
      t'.bstore.Placed t'.rescuePoints := by
  by_cases hw : t.writeCount = 0
  · -- nothing is written, and at most the last rescue point goes
    obtain ⟨t1, hclose, h⟩ := map_eq_some_iff.mp h
    cases h
    have hsame : t1.bstore = t.bstore ∧ ∀ a ∈ t1.rescuePoints, a ∈ t.rescuePoints := by
      rw [if_neg (not_not.mpr hw)] at hclose
      split at hclose
      · split at hclose
        · cases hclose
          exact ⟨rfl, fun a ha => mem_of_mem_dropLast ha⟩
        · cases hclose
          exact ⟨rfl, fun a ha => ha⟩
      · cases hclose
        exact ⟨rfl, fun a ha => ha⟩
    obtain ⟨hbs, hsub⟩ := hsame
    rw [hbs]
    exact ⟨.refl _, rfl, fun a ha => hplaced a (hsub a ha)⟩
  · have hadv := close_advances hw h
    exact ⟨hadv.ext, hadv.kept, hadv.placed hplaced⟩

/-- What a session records, from the tree `t` on. -/
structure RescueRecorded (t : NBTreeExtentsList V) (rs : List (List LogicAddr))
    (t' : NBTreeExtentsList V) : Prop where
  ext : t.bstore.Extends t'.bstore
  placed : t'.bstore.Placed t'.rescuePoints
  records : ∀ r ∈ rs, t'.bstore.Placed r ∧ ∃ a ∈ r, t.bstore.Fresh t'.bstore a
  levels : t.writeCount ≠ 0 → ∀ r ∈ rs, t.rescuePoints.length ≤ r.length
  newer : rs.Pairwise Newer

/-- By induction over the session: every record has the address of a block that was written
after the records before it. -/
theorem recordRescue_newer : ∀ (ops : List TreeOp) {t t' : NBTreeExtentsList V}
    {rs : List (List LogicAddr)}, StrictMono t.bstore.alloc → t.bstore.removedBelow = 0 →
    t.bstore.Placed t.rescuePoints → recordRescue ops t = some (rs, t') → RescueRecorded t rs t'
  | [], t, t', rs, _, _, hplaced, h => by
    cases h
    exact ⟨.refl _, hplaced, forall_mem_nil _, fun _ => forall_mem_nil _, .nil⟩
  | op :: ops, t, t', rs, hmono, hkeep, hplaced, h => by
    obtain ⟨⟨lists, t1⟩, hstep, h⟩ := bind_eq_some_iff.mp h
    obtain ⟨⟨rest, t2⟩, hrest, h⟩ := map_eq_some_iff.mp h
    cases h
    -- a step without a record
    have hquiet : t.bstore.Extends t1.bstore → t1.bstore.removedBelow = t.bstore.removedBelow →
        t1.bstore.Placed t1.rescuePoints → (t.writeCount ≠ 0 → t.Advances t1) → lists = [] →
        RescueRecorded t (lists ++ rest) t' := by
      rintro hext hkept hplaced1 hadv rfl
      have ih := recordRescue_newer ops (by rw [hext.1]; exact hmono) (hkept.trans hkeep) hplaced1 hrest
      refine ⟨hext.trans ih.ext, ih.placed, fun r hr => ?_, fun hw r hr => ?_, ih.newer⟩
      · obtain ⟨hr, a, ha, hfresh⟩ := ih.records r hr
        exact ⟨hr, a, ha, hfresh.earlier hext⟩
      · have hadv := hadv hw
        refine hadv.levels.trans (ih.levels ?_ r hr)
        have := hadv.writes
        omega
    cases op with
    | close =>
      obtain ⟨⟨addrs, t3⟩, hclose, hstep⟩ := map_eq_some_iff.mp hstep
      cases hstep
      obtain ⟨hext, hkept, hplaced1⟩ := NBTreeExtentsList.close_placed hplaced hclose
      exact hquiet hext hkept hplaced1 (fun hw => NBTreeExtentsList.close_advances hw hclose) rfl
    | append p =>
      obtain ⟨⟨r, t3⟩, happend, hstep⟩ := map_eq_some_iff.mp hstep
      obtain ⟨hadv, hflush⟩ := NBTreeExtentsList.append_advances hkeep happend
      dsimp only at hstep
      by_cases hr : r = .okFlushNeeded
      · rw [if_pos hr] at hstep
        cases hstep
        obtain ⟨hcount, a, ha, hfresh⟩ := hflush hr
        have hmono1 : StrictMono t1.bstore.alloc := by
          rw [hadv.ext.1]
          exact hmono
        have hplaced1 := hadv.placed hplaced
        have ih := recordRescue_newer ops hmono1 (hadv.kept.trans hkeep) hplaced1 hrest
        have hlevels := ih.levels hcount.ne'
        refine ⟨hadv.ext.trans ih.ext, ih.placed, ?_, ?_, pairwise_cons.mpr ⟨?_, ih.newer⟩⟩
        · intro r' hr'
          rcases mem_cons.mp hr' with rfl | hr'
          · exact ⟨hplaced1.mono ih.ext, a, ha, hfresh.later ih.ext⟩
          · obtain ⟨hr', b, hb, hfresh'⟩ := ih.records r' hr'
            exact ⟨hr', b, hb, hfresh'.earlier hadv.ext⟩
        · intro _ r' hr'
          rcases mem_cons.mp hr' with rfl | hr'
          · exact hadv.levels
          · exact hadv.levels.trans (hlevels r' hr')
        · intro r' hr'
          obtain ⟨-, b, hb, hfresh'⟩ := ih.records r' hr'
          exact ⟨hlevels r' hr', b, hb, hplaced1.below hmono1 hfresh'⟩
      · rw [if_neg hr] at hstep
        cases hstep
        exact hquiet hadv.ext hadv.kept (hadv.placed hplaced) (fun _ => hadv) rfl

/-! ## Which record is in force -/

theorem maxElement_spec (hne : addrs ≠ []) :
    maxElement addrs ∈ addrs ∧ ∀ a ∈ addrs, a ≤ maxElement addrs := by
  cases hmax : addrs.max? with
  | none => exact absurd (max?_eq_none_iff.mp hmax) hne
  | some m =>
    rw [maxElement, hmax]
    exact max?_eq_some_iff.mp hmax

/-- The rescue points of a series after a record. -/
def keepNewer (topAddr : LogicAddr) (current : Option (List LogicAddr)) (data : List LogicAddr) :
    Option (List LogicAddr) := if replaces topAddr current data then some data else current

/-- Records that the top address of the store fits: the addresses are below it, and `EMPTY_ADDR` is
not. -/
def Below (topAddr : LogicAddr) (r : List LogicAddr) : Prop :=
  r ≠ [] ∧ (emptyAddr ∉ r → maxElement r < topAddr)

section Keep
variable {topAddr : LogicAddr} {q r last : List LogicAddr} {rs : List (List LogicAddr)}

theorem emptyAddr_le_max (h : emptyAddr ∈ r) : emptyAddr ≤ maxElement r :=
  (maxElement_spec (ne_nil_of_mem h)).2 _ h

/-- A list is taken in place of another one if it has no fewer levels, and its largest address is
below the top address and no smaller. -/
theorem replaces_iff (hq : q ≠ []) (hr : r ≠ []) : replaces topAddr (some q) r = true ↔
    q.length ≤ r.length ∧ maxElement r < topAddr ∧ maxElement q ≤ maxElement r := by
  simp only [replaces, if_neg hr, if_neg hq]
  split
  next hlt => exact iff_of_false Bool.false_ne_true fun h => absurd h.1 (not_le.mpr hlt)
  next hge => simp [not_lt.mp hge]

theorem keepNewer_empty (htop : topAddr ≤ emptyAddr) (hq : q ≠ []) (hr : emptyAddr ∈ r) :
    keepNewer topAddr (some q) r = some q := by
  refine if_neg fun h => ?_
  have hlt := ((replaces_iff hq (ne_nil_of_mem hr)).mp h).2.1
  exact absurd (htop.trans (emptyAddr_le_max hr)) (not_le.mpr hlt)

theorem keepNewer_of_empty (htop : topAddr ≤ emptyAddr) (hq : emptyAddr ∈ q) (hr : Below topAddr r) :
    keepNewer topAddr (some q) r = some q := by
  by_cases hempty : emptyAddr ∈ r
  · exact keepNewer_empty htop (ne_nil_of_mem hq) hempty
  · have hlt : maxElement r < maxElement q :=
      (hr.2 hempty).trans_le (htop.trans (emptyAddr_le_max hq))
    exact if_neg fun h => absurd ((replaces_iff (ne_nil_of_mem hq) hr.1).mp h).2.2 (not_le.mpr hlt)

/-- A list without empty addresses is taken if it has no fewer levels and no smaller address. -/
theorem keepNewer_full (hq : q ≠ []) (hr : Below topAddr r) (hempty : emptyAddr ∉ r)
    (hlen : q.length ≤ r.length) (hmax : maxElement q ≤ maxElement r) :
    keepNewer topAddr (some q) r = some r :=
  if_pos ((replaces_iff hq hr.1).mpr ⟨hlen, hr.2 hempty, hmax⟩)

theorem foldl_of_empty (htop : topAddr ≤ emptyAddr) (hq : emptyAddr ∈ q) :
    ∀ {rs : List (List LogicAddr)}, (∀ r ∈ rs, Below topAddr r) →
      rs.foldl (keepNewer topAddr) (some q) = some q
  | [], _ => rfl
  | r :: rs, hrs => by
    rw [foldl_cons, keepNewer_of_empty htop hq (hrs r mem_cons_self)]
    exact foldl_of_empty htop hq (forall_mem_cons.mp hrs).2

theorem foldl_full (htop : topAddr ≤ emptyAddr) : ∀ {rs : List (List LogicAddr)}
    {q : List LogicAddr}, q ≠ [] → emptyAddr ∉ q → (∀ r ∈ rs, Below topAddr r) →
    ∃ c, rs.foldl (keepNewer topAddr) (some q) = some c ∧ c ≠ [] ∧ emptyAddr ∉ c ∧ (c = q ∨ c ∈ rs)
  | [], q, hne, hq, _ => ⟨q, rfl, hne, hq, .inl rfl⟩
  | r :: rs, q, hne, hq, hrs => by
    have hrest : ∀ r ∈ rs, Below topAddr r := (forall_mem_cons.mp hrs).2
    rw [foldl_cons]
    by_cases htaken : keepNewer topAddr (some q) r = some q
    · rw [htaken]
      obtain ⟨c, hc, hcne, hcempty, hmem⟩ := foldl_full htop hne hq hrest
      exact ⟨c, hc, hcne, hcempty, hmem.imp_right (mem_cons_of_mem _)⟩
    · have hr : emptyAddr ∉ r := fun h => htaken (keepNewer_empty htop hne h)
      have hnew : keepNewer topAddr (some q) r = some r := by
        rw [keepNewer] at htaken ⊢
        split
        · rfl
        · next h => exact absurd (if_neg h) htaken
      rw [hnew]
      obtain ⟨c, hc, hcne, hcempty, hmem⟩ := foldl_full htop (hrs r mem_cons_self).1 hr hrest
      refine ⟨c, hc, hcne, hcempty, .inr ?_⟩
      rcases hmem with rfl | hmem
      · exact mem_cons_self
      · exact mem_cons_of_mem _ hmem

/-- Of lists without empty addresses, the newer one has the larger address. -/
theorem Newer.max_lt (h : Newer q r) (hne : q ≠ []) (hq : emptyAddr ∉ q) :
    maxElement q < maxElement r := by
  obtain ⟨a, ha, habove⟩ := h.above
  have hmax := maxElement_spec hne
  rcases habove _ hmax.1 with heq | hlt
  · rw [heq] at hmax
    exact absurd hmax.1 hq
  · exact hlt.trans_le ((maxElement_spec (ne_nil_of_mem ha)).2 a ha)

/-- Starting with some rescue points: the last record is in force if it was from the begin, or
if neither it nor what was in force at the begin has an empty address. -/
theorem foldl_last_iff (htop : topAddr ≤ emptyAddr) (hrs : ∀ r ∈ rs ++ [last], Below topAddr r)
    (hnewer : (rs ++ [last]).Pairwise Newer) (hne : q ≠ [])
    (hold : q = last ∨ q ∈ rs ∨ q.length ≤ last.length ∧
      (emptyAddr ∉ q → maxElement q ≤ maxElement last)) :
    (rs ++ [last]).foldl (keepNewer topAddr) (some q) = some last ↔
      q = last ∨ emptyAddr ∉ q ∧ emptyAddr ∉ last := by
  have hlast := hrs last (mem_append_right _ (mem_singleton_self _))
  have hinit : ∀ r ∈ rs, Below topAddr r := fun r hr => hrs r (mem_append_left _ hr)
  have hbefore : ∀ r ∈ rs, Newer r last :=
    fun r hr => (pairwise_append.mp hnewer).2.2 r hr last (mem_singleton_self _)
  by_cases hq : emptyAddr ∈ q
  · rw [foldl_of_empty htop hq hrs, some.injEq]
    exact ⟨.inl, fun h => h.resolve_right fun h => h.1 hq⟩
  · obtain ⟨c, hc, hcne, hcempty, hmem⟩ := foldl_full htop hne hq hinit
    rw [foldl_append, hc, foldl_cons, foldl_nil]
    by_cases hempty : emptyAddr ∈ last
    · rw [keepNewer_empty htop hcne hempty, some.injEq]
      constructor
      · rintro rfl
        exact absurd hempty hcempty
      · rintro (rfl | h)
        · exact absurd hempty hq
        · exact absurd hempty h.2
    · refine ⟨fun _ => .inr ⟨hq, hempty⟩, fun _ => ?_⟩
      -- what is in force before the last record is older
      obtain ⟨hlen, hmax⟩ : c.length ≤ last.length ∧ maxElement c ≤ maxElement last := by
        have hrecord : ∀ r ∈ rs, emptyAddr ∉ r → r.length ≤ last.length ∧
            maxElement r ≤ maxElement last := fun r hr hr' =>
          ⟨(hbefore r hr).levels, ((hbefore r hr).max_lt (hinit r hr).1 hr').le⟩
        rcases hmem with rfl | hmem
        · rcases hold with rfl | hold | ⟨hlen, hmax⟩
          · exact ⟨le_rfl, le_rfl⟩
          · exact hrecord c hold hcempty
          · exact ⟨hlen, hmax hcempty⟩
        · exact hrecord c hmem hcempty
      exact keepNewer_full hcne hlast hempty hlen hmax

/-- The first list that is in force: that of the database, or the first record if it has none. -/
def firstInForce (current : Option (List LogicAddr)) (first : List LogicAddr) : List LogicAddr :=
  match current with
  | some (a :: q) => a :: q
  | _ => first

theorem foldl_newest_iff {current : Option (List LogicAddr)} {first : List LogicAddr}
    (htop : topAddr ≤ emptyAddr) (hrs : ∀ r ∈ first :: rs, Below topAddr r)
    (hnewer : (first :: rs).Pairwise Newer) (hlast : (first :: rs).getLast? = some last)
    (hold : ∀ q, current = some q → q ∈ first :: rs ∨ q.length ≤ last.length ∧
      (emptyAddr ∉ q → maxElement q ≤ maxElement last)) :
    (first :: rs).foldl (keepNewer topAddr) current = some last ↔
      firstInForce current first = last ∨
        emptyAddr ∉ firstInForce current first ∧ emptyAddr ∉ last := by
  -- without rescue points the first record is taken
  have hnone : current = none ∨ current = some [] →
      ((first :: rs).foldl (keepNewer topAddr) current = some last ↔
        first = last ∨ emptyAddr ∉ first ∧ emptyAddr ∉ last) := by
    intro hcurrent
    have hfirst := hrs first mem_cons_self
    have htaken : keepNewer topAddr current first = some first := by
      apply if_pos
      rcases hcurrent with rfl | rfl
      · rfl
      · simp [replaces, if_neg hfirst.1]
    rw [foldl_cons, htaken]
    rcases eq_nil_or_concat rs with rfl | ⟨rs', last', rfl⟩
    · cases hlast
      simp
    · rw [concat_eq_append, ← cons_append, getLast?_concat] at hlast
      cases hlast
      rw [concat_eq_append] at hrs hnewer ⊢
      obtain ⟨hfirstnew, hnewer⟩ := pairwise_cons.mp hnewer
      have hnew := hfirstnew last (mem_append_right _ (mem_singleton_self _))
      exact foldl_last_iff htop (forall_mem_cons.mp hrs).2 hnewer hfirst.1
        (.inr (.inr ⟨hnew.levels, fun hempty => (hnew.max_lt hfirst.1 hempty).le⟩))
  rcases current with _ | _ | ⟨a, q⟩
  · exact hnone (.inl rfl)
  · exact hnone (.inr rfl)
  · obtain ⟨rs', hsplit⟩ := getLast?_eq_some_iff.mp hlast
    have hold := hold _ rfl
    rw [hsplit] at hrs hnewer hold ⊢
    apply foldl_last_iff htop hrs hnewer (cons_ne_nil _ _)
    rcases hold with hold | hold
    · rcases mem_append.mp hold with hold | hold
      · exact .inr (.inl hold)
      · exact .inl (mem_singleton.mp hold)
    · exact .inr (.inr hold)

end Keep

/-! ## The records of the log -/

def rescueRecords (id : ParamId) (rows : List InputLogRow) : List (List LogicAddr) :=
  rows.filterMap fun row =>
    match row.payload with
    | .recoveryInfo data => if row.id = id then some (data.map UInt64.toNat) else none
    | _ => none

namespace MetadataRecovery
variable {topAddr : LogicAddr} {id : ParamId}

/-- The name of the series is known whenever one of its records is visited. -/
def KnownAt (topAddr : LogicAddr) (id : ParamId) (rows : List InputLogRow)
    (s : MetadataRecovery V) : Prop :=
  ∀ front row back, rows = front ++ row :: back → row.id = id →
    row.payload.frameType = .recoveryEntry →
    (s.visitAll topAddr front).matcher.id2str id.toInt64 ≠ []

omit [DoubleArith V] in
theorem lookup_visitAll : ∀ {rows : List InputLogRow} {s : MetadataRecovery V},
    s.KnownAt topAddr id rows → (s.visitAll topAddr rows).mapping.lookup id =
      (rescueRecords id rows).foldl (keepNewer topAddr) (s.mapping.lookup id)
  | [], _, _ => rfl
  | row :: rows, s, hknown => by
    have hrest : (s.visit topAddr row).KnownAt topAddr id rows := by
      rintro front row' back rfl
      exact hknown (row :: front) row' back rfl
    have hstep : (s.visit topAddr row).mapping.lookup id =
        (rescueRecords id [row]).foldl (keepNewer topAddr) (s.mapping.lookup id) := by
      obtain ⟨rid, payload⟩ := row
      cases payload with
      | dataPoint p => rfl
      | seriesName value =>
        simp only [visit, visitName]
        split
        · rfl
        · split <;> rfl
      | recoveryInfo data =>
        simp only [visit, visitRescue, rescueRecords, filterMap_cons, filterMap_nil]
        by_cases hid : rid = id
        · subst hid
          have hnamed : s.matcher.id2str rid.toInt64 ≠ [] := hknown [] _ rows rfl rfl rfl
          rw [if_neg hnamed, if_pos rfl, foldl_cons, foldl_nil, keepNewer]
          split
          · exact AList.lookup_insert _
          · rfl
        · split
          · rfl
          · split
            · exact AList.lookup_insert_ne (.symm hid)
            · rfl
    have hsplit : rescueRecords id (row :: rows) = rescueRecords id [row] ++ rescueRecords id rows :=
      filterMap_append (l := [row])
    rw [hsplit, foldl_append, ← hstep]
    exact lookup_visitAll hrest

end MetadataRecovery

/-- Newest rescue points. A session on an arbitrary tree, with appends and with closing in between,
records some rescue points, and the log has these records for the series, whose name is known.
The database has one of them for the series, or a list from before the session, or nothing.
After metadata recovery the last record is in force exactly if the first list that was in
force is the last record, or neither of the two has an empty address. -/
theorem newest_rescue_iff {ρ : Type} {rd : Pull.Reader Status InputLogRow ρ Unit} {log : ρ}
    {rows : List InputLogRow} (hserves : Pull.Serves rd .ok .noData (.same InputLogRow) log rows)
    (names : List NameRow) (device : ParamId → BlockStore V) (mapping : RescueMap)
    {t t' : NBTreeExtentsList V} (hmono : StrictMono t.bstore.alloc)
    (hkeep : t.bstore.removedBelow = 0) (hplaced : t.bstore.Placed t.rescuePoints)
    {ops : List TreeOp} {first last : List LogicAddr} {rs : List (List LogicAddr)}
    (hrun : recordRescue ops t = some (first :: rs, t'))
    (hlast : (first :: rs).getLast? = some last) {topAddr : LogicAddr} (htop : topAddr ≤ emptyAddr)
    (habove : ∀ i < t'.bstore.blocks.length, t'.bstore.alloc i < topAddr) {id : ParamId}
    (hrecords : rescueRecords id rows = first :: rs)
    (hknown : (MetadataRecovery.start names device mapping).KnownAt topAddr id rows)
    (hold : ∀ q, mapping.lookup id = some q →
      q ∈ first :: rs ∨ q.length ≤ last.length ∧ t.bstore.Placed q) :
    (∃ bound, ∀ fuel, bound ≤ fuel → ∃ s,
        runInputlogMetadataRecovery rd fuel log topAddr (.start names device mapping) = some s ∧
        s.mapping.lookup id = some last) ↔ firstInForce (mapping.lookup id) first = last ∨
        emptyAddr ∉ firstInForce (mapping.lookup id) first ∧ emptyAddr ∉ last := by
  have hrecorded := recordRescue_newer ops hmono hkeep hplaced hrun
  have hbelow : ∀ r ∈ first :: rs, Below topAddr r := by
    intro r hr
    obtain ⟨hplacedr, a, ha, -⟩ := hrecorded.records r hr
    refine ⟨ne_nil_of_mem ha, fun hempty => ?_⟩
    have hmem := (maxElement_spec (ne_nil_of_mem ha)).1
    rcases hplacedr _ hmem with heq | ⟨i, hi, heq⟩
    · rw [heq] at hmem
      exact absurd hmem hempty
    · rw [heq]
      exact habove i hi
  have hold' : ∀ q, mapping.lookup id = some q → q ∈ first :: rs ∨ q.length ≤ last.length ∧
      (emptyAddr ∉ q → maxElement q ≤ maxElement last) := by
    intro q hq
    refine (hold q hq).imp_right fun ⟨hlen, hplacedq⟩ => ⟨hlen, fun hempty => ?_⟩
    obtain ⟨-, a, ha, hfresh⟩ := hrecorded.records last (mem_of_getLast? hlast)
    by_cases hne : q = []
    · rw [hne]
      exact zero_le
    · exact (Newer.max_lt ⟨hlen, a, ha, hplacedq.below hmono hfresh⟩ hne hempty).le
  rw [← foldl_newest_iff htop hbelow hrecorded.newer hlast hold', ← hrecords]
  refine (recovery_iff hserves).trans ?_
  rw [MetadataRecovery.lookup_visitAll hknown]
  rfl

/-! ## A new tree -/

theorem OpenTree.Pushes.recordRescue {s s' : OpenTree V} {ps : List Point} (h : Pushes s ps s')
    (ops : List TreeOp) : FastSTDB.recordRescue (ps.map .append ++ ops) s.list =
      FastSTDB.recordRescue ops s'.list := by
  induction h with
  | nil s => rfl
  | cons happ _ ih =>
    simp only [map_cons, cons_append, FastSTDB.recordRescue, TreeOp.step, happ,
      map_some, bind_some, ih]
    exact map_id'

theorem exists_record {s : OpenTree V} {leaves : List StoredLeaf} {tail : List Point}
    (h : s.Holds leaves tail) {p : Point} (hlast : s.last ≤ p.ts) : ∃ n s' block w,
      (∀ ops, recordRescue (replicate (n + 1) (.append p) ++ ops) s.list =
        (recordRescue ops s'.list).map fun (rs, t) => (s'.list.rescuePoints :: rs, t)) ∧
      s'.last = p.ts ∧ s.Refilled leaves (tail ++ replicate n p) p s' block w := by
  obtain ⟨n, s1, s', block, w, hpushes, hspill, hts, hr⟩ :=
    exists_filled (leafBound + 1) h hlast (by omega)
  refine ⟨n, s', block, w, fun ops => ?_, hts, hr⟩
  rw [replicate_succ', append_assoc, ← map_replicate, hpushes.recordRescue]
  simp [recordRescue, TreeOp.step, hspill]

/-- The first two leaves of a new tree in a `MemStore`, and what is recorded for them. -/
theorem new_tree_records : ∃ (n m : Nat) (t t' : NBTreeExtentsList Rat),
    recordRescue (replicate (n + 1) (.append ⟨1, 0⟩)) (newColumn 7 (memStore Rat)) =
      some ([[619, emptyAddr]], t) ∧ t.bstore.alloc = memAlloc ∧ t.bstore.blocks.length = 1 ∧
    recordRescue (replicate (n + 1) (.append ⟨1, 0⟩) ++ replicate (m + 1) (.append ⟨1, 0⟩))
      (newColumn 7 (memStore Rat)) = some ([[619, emptyAddr], [620, emptyAddr]], t') := by
  obtain ⟨n, s1, block1, w1, hrun1, hlast1, hr1⟩ := exists_record (p := ⟨1, 0⟩)
    (fresh_holds (memStore Rat)) (minTimestamp_le _)
  obtain ⟨m, s2, block2, w2, hrun2, -, hr2⟩ := exists_record hr1.holds (le_of_eq hlast1)
  -- the column behaves like an open tree without points
  have hnew : ∀ ops, recordRescue (replicate (n + 1) (.append ⟨1, 0⟩) ++ ops)
      (newColumn 7 (memStore Rat)) = recordRescue (replicate (n + 1) (.append ⟨1, 0⟩) ++ ops)
          (fresh (memStore Rat) 7).list := by
    have happend : (newColumn 7 (memStore Rat)).append ⟨1, 0⟩ true =
        (fresh (memStore Rat) 7).list.append ⟨1, 0⟩ true :=
      append_new (memStore Rat) 7 true ⟨1, 0⟩ true
    simp [replicate_succ, recordRescue, TreeOp.step, happend]
  -- the store and the rescue points after each leaf
  let ref : SubtreeRef Rat := leafRef 7 0 ([] ++ replicate n ⟨1, 0⟩) 619
  have hbs1 : s1.bstore = ((memStore Rat).appendBlock block1).2 := hr1.bstore
  have hlevels1 : s1.levels = [Level.empty.push ref nbtreeFanout_pos] := hr1.levels
  have hrescue1 : s1.list.rescuePoints = [619, emptyAddr] := by
    rw [list, hr1.rescue, hlevels1]
    rfl
  have hrescue2 : s2.list.rescuePoints = [620, emptyAddr] := by
    have hlevels2 := hr2.levels
    rw [flushed, hlevels1] at hlevels2
    rw [list, hr2.rescue, hbs1, hlevels2]
    rfl
  refine ⟨n, m, s1.list, s2.list, ?_, ?_, ?_, ?_⟩
  · have hrun := hrun1 []
    rw [← hnew, append_nil] at hrun
    rw [hrun, hrescue1]
    rfl
  · show s1.bstore.alloc = _
    rw [hbs1]
    rfl
  · show s1.bstore.blocks.length = _
    rw [hbs1]
    rfl
  · have hrun := hrun2 []
    rw [append_nil] at hrun
    rw [hnew, hrun1, hrun, hrescue1, hrescue2]
    rfl

/-- One leaf of a new series, whose list in the database is still empty. -/
theorem newest_rescue_first :
    let ops : List LogOp := [.append ⟨7, .recoveryInfo [619, 0xffffffffffffffff]⟩]
    let dir := (runLog plainLz4 (ops ++ [.flush]) (.new plainLz4 4 65536, 0)).1.files
    ∃ (session : List TreeOp) (t : NBTreeExtentsList Rat),
      recordRescue session (newColumn 7 (memStore Rat)) = some ([[619, emptyAddr]], t) ∧
      ∃ k bound, ∀ fuel, bound ≤ fuel → ∃ s,
        runInputlogMetadataRecovery (ShardedReader.reader plainLz4 k) fuel (openShards plainLz4 [dir])
          1000 (.start [("cpu h=a".toList, 7)] (fun _ => memStore Rat) (.singleton 7 [])) =
            some s ∧ s.mapping.lookup 7 = some [619, emptyAddr] := by
  obtain ⟨n, -, t, -, hrun, halloc, hblocks, -⟩ := new_tree_records
  obtain ⟨k, hserves⟩ := serves_appended
    [⟨7, .recoveryInfo [619, 0xffffffffffffffff]⟩] (by decide) (by decide)
  refine ⟨_, t, hrun, k, ?_⟩
  have habove : ∀ i < t.bstore.blocks.length, t.bstore.alloc i < 1000 := by
    intro i hi
    rw [hblocks] at hi
    rw [halloc, Nat.lt_one_iff.mp hi]
    decide
  have hknown : (MetadataRecovery.start [("cpu h=a".toList, 7)] (fun _ => memStore Rat)
      (.singleton 7 [])).KnownAt 1000 7 [⟨7, .recoveryInfo [619, 0xffffffffffffffff]⟩] := by
    intro front row back hsplit _ _
    obtain rfl : front = [] := by
      have hlen := congrArg length hsplit
      simp only [length_append, length_cons, length_nil] at hlen
      exact length_eq_zero_iff.mp (by omega)
    decide
  apply (newest_rescue_iff hserves [("cpu h=a".toList, 7)]
    (fun _ => memStore Rat) (.singleton 7 []) (fun _ _ => memAlloc_strictMono) rfl
    (fun a ha => by cases ha) hrun rfl (show 1000 ≤ emptyAddr by decide) habove rfl hknown
    (fun q hq => .inr ?_)).mpr
  · exact .inl rfl
  · cases hq
    exact ⟨zero_le, fun a ha => by cases ha⟩

/-- Two leaves of a new series: the record of the second leaf does not count. -/
theorem newest_rescue_ignored :
    let rows : List InputLogRow := [⟨7, .recoveryInfo [619, 0xffffffffffffffff]⟩,
      ⟨7, .recoveryInfo [620, 0xffffffffffffffff]⟩]
    let ops : List LogOp := rows.map .append
    let dir := (runLog plainLz4 (ops ++ [.flush]) (.new plainLz4 4 65536, 0)).1.files
    ∃ (session : List TreeOp) (t : NBTreeExtentsList Rat),
      recordRescue session (newColumn 7 (memStore Rat)) =
        some ([[619, emptyAddr], [620, emptyAddr]], t) ∧
      rescueRecords 7 rows = [[619, emptyAddr], [620, emptyAddr]] ∧
      ∃ k bound, ∀ fuel, bound ≤ fuel → ∃ s,
        runInputlogMetadataRecovery (ShardedReader.reader plainLz4 k) fuel (openShards plainLz4 [dir])
          1000 (.start [("cpu h=a".toList, 7)] (fun _ => memStore Rat) (.singleton 7 [])) =
            some s ∧ s.mapping.lookup 7 = some [619, emptyAddr] := by
  intro rows ops dir
  obtain ⟨n, m, -, t, -, -, -, hrun⟩ := new_tree_records
  obtain ⟨k, hserves⟩ := serves_appended rows (by decide) (by decide)
  exact ⟨_, t, hrun, rfl, k, (recovery_iff hserves).mpr (by decide)⟩

end FastSTDB
