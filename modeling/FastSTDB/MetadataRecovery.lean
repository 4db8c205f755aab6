import FastSTDB.SeriesIndex
import FastSTDB.ColumnTrees
import FastSTDB.ShardedLogSpec

/-
  Metadata recovery — names and rescue points from the log (`storage.cc`)

  A storage that is opened loads the names and the rescue points of its database. The log
  may have newer ones: its records are read once for names and rescue points before the
  trees are opened. A name that is not known yet gets its id back and a new column; rescue
  points replace those of the database if they seem to be newer.

  Correspondence (C++ ↔ Lean):
    `get_prev_largest_id`, `load_matcher_data`    ↔ `prevLargestId`, `loadMatcher`
    the loop of both recoveries                   ↔ `replayLog`
    `Visitor` of the metadata recovery            ↔ `MetadataRecovery`, `visit`
    `open_or_restore` behind it                   ↔ `ColumnTrees.openOrRestore`

  Ids are unsigned in the log and signed in the matcher. What `add_rescue_point` notes for
  the database is not read here and left out. The bytes of a name are its characters.

  What is proved:
    1. `replayLog_eq` — the loop visits the records that the log serves, and ends.
    2. `columns_opened_iff` — the trees of all series are opened if and only if no series
       whose name came from the log has rescue points too, and no repair aborts.
    3. `columns_not_opened` — a series with a name and rescue points in the log is not the
       only one that is not opened.
-/
namespace FastSTDB
open List AList ColumnTrees

variable {V : Type} {rows : List InputLogRow}

/-! ## The names of the database -/

/-- A row of the table of names: the name and its id. -/
abbrev NameRow := Text × Int64

/-- `max(abs(storage_id))`; `none` for an empty table. -/
def prevLargestId (rows : List NameRow) : Option Nat := (rows.map fun row => row.2.toInt.natAbs).max?

def startingSeriesId : Nat := 1024

/-- The counter goes on behind the largest id. -/
def nextSeriesId (rows : List NameRow) : Nat :=
  match prevLargestId rows with
  | some largest => largest + 1
  | none => startingSeriesId

def loadMatcher (rows : List NameRow) : SeriesMatcher :=
  rows.foldl (fun m row => m.addWithId row.1 row.2) (.new (.ofNat (nextSeriesId rows)))

/-! ## Reading a log -/

/-- The records are read and visited until there are no more, or the visitor does not want to go
on after the last record of a buffer. -/
def replayLog {ρ τ : Type} (rd : Pull.Reader Status InputLogRow ρ Unit)
    (visit : InputLogRow → τ → Bool × τ) : Nat → ρ → τ → Option τ
  | 0, _, _ => none
  | fuel + 1, log, s =>
    (rd () log 0x1000).bind fun r =>
      if r.status = .ok ∨ r.status = .noData ∧ r.out ≠ [] then
        let (proceed, s) := r.out.foldl (fun seen row => visit row seen.2) (true, s)
        if proceed then replayLog rd visit fuel r.next s else some s
      else some s

section Replay
variable {ρ τ : Type} {rd : Pull.Reader Status InputLogRow ρ Unit}
  {visit : InputLogRow → τ → Bool × τ}

theorem foldl_proceed (hvisit : ∀ row s, (visit row s).1 = true) : ∀ (rows : List InputLogRow) (s : τ),
    rows.foldl (fun seen row => visit row seen.2) (true, s) =
      (true, rows.foldl (fun s row => (visit row s).2) s)
  | [], s => rfl
  | row :: rows, s => by
    have hpair : visit row s = (true, (visit row s).2) := Prod.ext (hvisit row s) rfl
    simp only [foldl_cons]
    rw [hpair]
    exact foldl_proceed hvisit rows _

/-- A visitor that always goes on visits the records that the log serves. -/
theorem replayLog_eq (hvisit : ∀ row s, (visit row s).1 = true) (fuel : Nat) {log : ρ} (s : τ)
    (hserves : Pull.Serves rd .ok .noData (.same InputLogRow) log rows)
    (hfuel : rows.length + 1 < fuel) :
    replayLog rd visit fuel log s = some (rows.foldl (fun s row => (visit row s).2) s) := by
  induction fuel generalizing log rows s with
  | zero => omega
  | succ fuel ih =>
    obtain ⟨r, front, rest, hread, rfl, hout, -, hnext, hstatus⟩ :=
      hserves.step () 0x1000 (show 0 < 0x1000 by decide)
    rw [replayLog, hread, Option.bind_some]
    by_cases hempty : r.out = []
    · -- only the end of the log comes without records
      obtain ⟨hnodata, hrest⟩ : r.status = .noData ∧ rest = [] := by
        rcases hstatus with ⟨-, hne⟩ | ⟨hnodata, hrest, -⟩
        · exact absurd hempty hne
        · exact ⟨hnodata, hrest⟩
      have hstop : ¬ (r.status = .ok ∨ r.status = .noData ∧ r.out ≠ []) := by
        rw [hnodata]
        rintro (h | ⟨-, hne⟩)
        · cases h
        · exact hne hempty
      rw [if_neg hstop, hrest, ← hout, hempty]
      rfl
    · have hmore : r.status = .ok ∨ r.status = .noData ∧ r.out ≠ [] := by
        rcases hstatus with ⟨hok, -⟩ | ⟨hnodata, -, -⟩
        · exact .inl hok
        · exact .inr ⟨hnodata, hempty⟩
      have hlen : rest.length + 1 < fuel := by
        have := length_pos_iff.mpr hempty
        rw [length_append, ← hout] at hfuel
        omega
      simp only [if_pos hmore, foldl_proceed hvisit, if_true]
      rw [ih _ hnext hlen, foldl_append, hout]

end Replay

/-! ## The visitor -/

/-- What a storage knows about its series. -/
structure Storage (V : Type) where
  matcher : SeriesMatcher
  trees : ColumnTrees V

/-- The visitor: the storage, the rescue points and the ids whose names were recovered. -/
structure MetadataRecovery (V : Type) extends Storage V where
  mapping : RescueMap
  restoredIds : List ParamId

def nameText (bytes : List UInt8) : Text := bytes.map fun b => .ofNat b.toNat

def maxElement (addrs : List LogicAddr) : LogicAddr := addrs.max?.getD 0

/-- Do the rescue points of a record replace those of the mapping? -/
def replaces (topAddr : LogicAddr) (current : Option (List LogicAddr)) (data : List LogicAddr) :
    Bool :=
  match current with
  | none => true
  | some current =>
    if data = [] then false
    else if current = [] then true
    else if data.length < current.length then false
    else !(decide (topAddr ≤ maxElement data) || decide (maxElement data < maxElement current))

namespace MetadataRecovery
variable (topAddr : LogicAddr)

/-- The conflict that the source looks for behind the first test cannot occur there. -/
def visitName (id : ParamId) (value : List UInt8) (s : MetadataRecovery V) : MetadataRecovery V :=
  if s.matcher.id2str id.toInt64 ≠ [] then s
  else if s.matcher.matchName (nameText value) = 0 then
    { s with
      matcher := s.matcher.addWithId (nameText value) id.toInt64
      trees := (s.trees.createNewColumn id).2
      restoredIds := s.restoredIds ++ [id] }
  else s

def visitRescue (id : ParamId) (data : List UInt64) (s : MetadataRecovery V) : MetadataRecovery V :=
  let data := data.map UInt64.toNat
  if s.matcher.id2str id.toInt64 = [] then s
  else if replaces topAddr (s.mapping.lookup id) data then
    { s with mapping := s.mapping.insert id data }
  else s

def visit (row : InputLogRow) (s : MetadataRecovery V) : MetadataRecovery V :=
  match row.payload with
  | .dataPoint _ => s
  | .seriesName value => s.visitName row.id value
  | .recoveryInfo data => s.visitRescue topAddr row.id data

def visitAll (rows : List InputLogRow) (s : MetadataRecovery V) : MetadataRecovery V :=
  rows.foldl (fun s row => s.visit topAddr row) s

/-- The storage before recovery: the names and rescue points of the database, and no trees. -/
def start (names : List NameRow) (device : ParamId → BlockStore V) (mapping : RescueMap) :
    MetadataRecovery V := ⟨⟨loadMatcher names, .start device⟩, mapping, []⟩

end MetadataRecovery

def runInputlogMetadataRecovery {ρ : Type} (rd : Pull.Reader Status InputLogRow ρ Unit) (fuel : Nat)
    (log : ρ) (topAddr : LogicAddr) (s : MetadataRecovery V) : Option (MetadataRecovery V) :=
  replayLog rd (fun row s => (true, s.visit topAddr row)) fuel log s

/-- Recovery visits the records that the log serves: what holds of the storage that it ends with
is what holds after these visits. -/
theorem recovery_iff {ρ : Type} {rd : Pull.Reader Status InputLogRow ρ Unit} {log : ρ}
    (hserves : Pull.Serves rd .ok .noData (.same InputLogRow) log rows) {topAddr : LogicAddr}
    {s0 : MetadataRecovery V} {P : MetadataRecovery V → Prop} :
    (∃ bound, ∀ fuel, bound ≤ fuel → ∃ s,
      runInputlogMetadataRecovery rd fuel log topAddr s0 = some s ∧ P s) ↔
        P (s0.visitAll topAddr rows) := by
  have hrun : ∀ fuel, rows.length + 2 ≤ fuel →
      runInputlogMetadataRecovery rd fuel log topAddr s0 = some (s0.visitAll topAddr rows) :=
    fun fuel hfuel => replayLog_eq (fun _ _ => rfl) fuel s0 hserves hfuel
  constructor
  · rintro ⟨bound, h⟩
    obtain ⟨s, hs, hP⟩ := h (max bound (rows.length + 2)) (le_max_left _ _)
    rw [hrun _ (le_max_right _ _)] at hs
    cases hs
    exact hP
  · intro hP
    exact ⟨rows.length + 2, fun fuel hfuel => ⟨_, hrun fuel hfuel, hP⟩⟩

/-! ## Which columns there are -/

namespace MetadataRecovery
variable {s : MetadataRecovery V} {topAddr : LogicAddr}

/-- The columns are those of the names that came from the log. -/
def OnlyRestored (s : MetadataRecovery V) : Prop := ∀ id, id ∈ s.trees.columns ↔ id ∈ s.restoredIds

theorem mem_createNewColumn {c : ColumnTrees V} {id id' : ParamId} :
    id' ∈ (c.createNewColumn id).2.columns ↔ id' ∈ c.columns ∨ id' = id := by
  rw [createNewColumn]
  split
  · next h =>
    refine ⟨.inl, ?_⟩
    rintro (h' | rfl)
    · exact h'
    · exact h
  · rw [ColumnTrees.set, mem_insert, or_comm]

theorem OnlyRestored.visit (h : s.OnlyRestored) (row : InputLogRow) :
    (s.visit topAddr row).OnlyRestored := by
  rw [MetadataRecovery.visit]
  split
  · exact h
  · rw [visitName]
    split
    · exact h
    · split
      · intro id
        simp [mem_createNewColumn, h id]
      · exact h
  · rw [visitRescue]
    split
    · exact h
    · split <;> exact h

theorem OnlyRestored.visitAll (h : s.OnlyRestored) (rows : List InputLogRow) :
    (s.visitAll topAddr rows).OnlyRestored := by
  induction rows generalizing s with
  | nil => exact h
  | cons row rows ih => exact ih (h.visit row)

end MetadataRecovery

/-! ## Opening the columns -/

section Opening
variable [DoubleArith V]

namespace ColumnTrees
variable {forceInit : Bool}

/-- No tree of the map makes the process abort when it is opened. -/
def Opens (forceInit : Bool) (c : ColumnTrees V)
    (entries : List (Sigma fun _ : ParamId => List LogicAddr)) : Prop :=
  ∀ e ∈ entries, (restoreTree forceInit e.1 e.2 (c.device e.1)).isSome

/-- Trees that are not there yet are opened one after the other, and the others stay. -/
theorem openOrRestore_ok : ∀ {entries : List (Sigma fun _ : ParamId => List LogicAddr)}
    (ids : List ParamId) {c : ColumnTrees V}, entries.NodupKeys →
    (∀ e ∈ entries, e.1 ∉ c.columns) → c.Opens forceInit entries →
    ∃ ids' c', openOrRestore forceInit entries ids c = some ((.ok, ids'), c') ∧
      ∀ id, id ∈ c'.columns ↔ id ∈ c.columns ∨ id ∈ entries.keys
  | [], ids, c, _, _, _ => by
    refine ⟨ids, c, rfl, fun id => ?_⟩
    simp
  | ⟨id, addrs⟩ :: entries, ids, c, hnodup, hnew, hopens => by
    obtain ⟨hid, hnodup⟩ := nodupKeys_cons.mp hnodup
    obtain ⟨tree, htree⟩ := Option.isSome_iff_exists.mp (hopens _ mem_cons_self)
    have hnew' : ∀ e ∈ entries, e.1 ∉ (c.set id tree).columns := by
      intro e he hmem
      rcases (mem_insert c.columns).mp hmem with heq | hmem
      · have hmem := mem_keys_of_mem he
        rw [heq] at hmem
        exact hid hmem
      · exact hnew e (mem_cons_of_mem _ he) hmem
    obtain ⟨ids', c', hopen, hmem⟩ := openOrRestore_ok
      (if NBTreeExtentsList.repairStatus addrs = .repair then ids ++ [id] else ids) hnodup hnew'
      (forall_mem_cons.mp hopens).2
    refine ⟨ids', c', ?_, fun id' => ?_⟩
    · rw [openOrRestore, if_neg (hnew _ mem_cons_self)]
      rw [htree]
      exact hopen
    · rw [hmem, set, mem_insert, keys_cons, mem_cons, or_assoc, or_left_comm]

/-- If everything went well, no tree was there before and none aborted. -/
theorem of_openOrRestore_ok : ∀ {entries : List (Sigma fun _ : ParamId => List LogicAddr)}
    {ids ids' : List ParamId} {c c' : ColumnTrees V},
    openOrRestore forceInit entries ids c = some ((.ok, ids'), c') →
    (∀ e ∈ entries, e.1 ∉ c.columns) ∧ c.Opens forceInit entries
  | [], _, _, _, _, _ => ⟨fun _ he => absurd he not_mem_nil, fun _ he => absurd he not_mem_nil⟩
  | ⟨id, addrs⟩ :: entries, ids, ids', c, c', h => by
    rw [openOrRestore] at h
    split at h
    · cases h
    · next hid =>
      obtain ⟨tree, htree, h⟩ := Option.bind_eq_some_iff.mp h
      obtain ⟨hnew, hopens⟩ := of_openOrRestore_ok h
      constructor
      · intro e he
        rcases mem_cons.mp he with rfl | he
        · exact hid
        · intro hmem
          exact hnew e he ((mem_insert c.columns).mpr (.inr hmem))
      · intro e he
        rcases mem_cons.mp he with rfl | he
        · rw [htree]
          rfl
        · exact hopens e he

end ColumnTrees

/-- Every column is opened. The names, the rescue points and the device are arbitrary, and the
log serves arbitrary records. Metadata recovery ends, and whatever the order in which the
mapping is visited afterwards, all its trees are opened and every series with rescue points
or a recovered name has a tree, exactly if no recovered name has rescue points and no tree of
the mapping aborts when it is opened. -/
theorem columns_opened_iff {ρ : Type} {rd : Pull.Reader Status InputLogRow ρ Unit} {log : ρ}
    {rows : List InputLogRow} (hserves : Pull.Serves rd .ok .noData (.same InputLogRow) log rows)
    (names : List NameRow) (device : ParamId → BlockStore V) (mapping : RescueMap)
    (topAddr : LogicAddr) :
    let recovered := (MetadataRecovery.start names device mapping).visitAll topAddr rows
    (∃ bound, ∀ fuel, bound ≤ fuel → ∃ s,
        runInputlogMetadataRecovery rd fuel log topAddr (.start names device mapping) = some s ∧
        ∀ order, order.Perm s.mapping.entries → ∃ ids trees,
          s.trees.openOrRestore false order [] = some ((.ok, ids), trees) ∧
          ∀ id, id ∈ s.mapping ∨ id ∈ s.restoredIds → id ∈ trees.columns) ↔
      (∀ id ∈ recovered.restoredIds, id ∉ recovered.mapping) ∧
        recovered.trees.Opens false recovered.mapping.entries := by
  intro recovered
  have honly : recovered.OnlyRestored :=
    MetadataRecovery.OnlyRestored.visitAll (fun id => by simp [MetadataRecovery.start, start]) rows
  refine (recovery_iff hserves).trans ⟨?_, ?_⟩
  · intro hopen
    obtain ⟨ids, trees, hok, -⟩ := hopen _ (Perm.refl _)
    obtain ⟨hnew, hopens⟩ := of_openOrRestore_ok hok
    refine ⟨fun id hid hmem => ?_, hopens⟩
    obtain ⟨e, he, rfl⟩ := mem_map.mp (AList.mem_keys.mp hmem)
    exact hnew e he ((honly _).mpr hid)
  · rintro ⟨hfree, hopens⟩ order horder
    have hnew : ∀ e ∈ order, e.1 ∉ recovered.trees.columns := by
      intro e he hmem
      refine hfree e.1 ((honly e.1).mp hmem) (AList.mem_keys.mpr ?_)
      exact mem_keys_of_mem (horder.subset he)
    obtain ⟨ids, trees, hok, hcolumns⟩ := openOrRestore_ok []
      ((perm_nodupKeys horder).mpr recovered.mapping.nodupKeys) hnew
      (fun e he => hopens e (horder.subset he))
    refine ⟨ids, trees, hok, fun id hid => (hcolumns id).mpr ?_⟩
    rcases hid with hid | hid
    · exact .inr ((horder.map _).mem_iff.mpr (AList.mem_keys.mp hid))
    · exact .inl ((honly id).mpr hid)

end Opening

theorem serves_name :
    let row : InputLogRow := ⟨1024, .seriesName [99, 112, 117, 32, 104, 61, 97]⟩
    ∃ k, Pull.Serves (ShardedReader.reader plainLz4 k) .ok .noData (.same InputLogRow)
      (openShards plainLz4 [(runLog plainLz4 [.append row, .flush]
        (.new plainLz4 4 65536, 0)).1.files]) [row] := by
  intro row
  exact serves_appended [row] (by decide) (by decide)

/-- One recovered name, and rescue points of another series. -/
theorem columns_opened_name :
    let ops : List LogOp := [.append ⟨1024, .seriesName [99, 112, 117, 32, 104, 61, 97]⟩]
    let dir := (runLog plainLz4 (ops ++ [.flush]) (.new plainLz4 4 65536, 0)).1.files
    let mapping : RescueMap := singleton 7 [619]
    ∃ k bound, ∀ fuel, bound ≤ fuel → ∃ s,
      runInputlogMetadataRecovery (ShardedReader.reader plainLz4 k) fuel (openShards plainLz4 [dir])
        1000 (.start [] (fun _ => memStore Rat) mapping) = some s ∧
      ∀ order, order.Perm s.mapping.entries → ∃ ids trees,
        s.trees.openOrRestore false order [] = some ((.ok, ids), trees) ∧
        ∀ id, id ∈ s.mapping ∨ id ∈ s.restoredIds → id ∈ trees.columns := by
  intro ops dir mapping
  obtain ⟨k, hserves⟩ := serves_name
  refine ⟨k, (columns_opened_iff hserves [] (fun _ => memStore Rat) mapping 1000).mpr
    ⟨forall_mem_singleton.mpr (by decide), ?_⟩⟩
  intro e he
  rw [mem_singleton.mp he]
  rfl

/-- The series 1024 was registered and has written a leaf; opening its column again fails, and
so the series 7 is not opened. -/
theorem columns_not_opened :
    let ops : List LogOp := [.append ⟨1024, .seriesName [99, 112, 117, 32, 104, 61, 97]⟩,
      .append ⟨1024, .recoveryInfo [619, 0xffffffffffffffff]⟩]
    let dir := (runLog plainLz4 (ops ++ [.flush]) (.new plainLz4 4 65536, 0)).1.files
    let mapping : RescueMap := singleton 7 [620]
    ∃ k bound, ∀ fuel, bound ≤ fuel → ∃ s,
      runInputlogMetadataRecovery (ShardedReader.reader plainLz4 k) fuel (openShards plainLz4 [dir])
        1000 (.start [] (fun _ => memStore Rat) mapping) = some s ∧
      ∃ order, order.Perm s.mapping.entries ∧ ∃ trees,
        s.trees.openOrRestore false order [] = some ((.badArg, []), trees) ∧
        7 ∈ s.mapping ∧ 7 ∉ trees.columns := by
  obtain ⟨k, hserves⟩ := serves_appended [⟨1024, .seriesName [99, 112, 117, 32, 104, 61, 97]⟩,
      ⟨1024, .recoveryInfo [619, 0xffffffffffffffff]⟩] (by decide) (by decide)
  refine ⟨k, (recovery_iff hserves).mpr ⟨_, Perm.refl _, _, rfl, ?_, ?_⟩⟩
  · decide
  · decide

end FastSTDB
