import FastSTDB.MetadataRecovery

/-
  Series ids — what the counter hands out after a recovery (`storage.cc`, `seriesparser.cc`)

  A new series gets the value of a counter as its id, with a minus sign if it is an event.
  The counter starts behind the largest id of the database. Names from the log keep the ids
  they had, and the counter does not move past them.

  Correspondence (C++ ↔ Lean):
    `Storage::init_series_id`    ↔ `Storage.initSeriesId`: status, `create_new`, and the id
                                   of the sample if it is set
    `SeriesMatcher::add`         ↔ `SeriesMatcher.add`, of which 0 is a refusal

  Registering names one after the other hands out consecutive numbers (`registerAll_ids`),
  unless an event name is refused, which turns the counter negative. So the ids are new
  exactly if no recovered name has one of these numbers (`series_ids_unique_iff`). In a new
  matcher, names and ids belong together one to one if in addition the names are in
  canonical form, since a name is stored in this form and looked up as it is
  (`registered_run`). The names that a recovery enters are not handed to the database with
  the new ones, and are lost with the log (`recovered_names_iff`).
-/
namespace FastSTDB
open List Option SeriesMatcher ShardedReader

variable {V : Type}

/-! ## Registration -/

namespace Storage

def initSeriesId (text : Text) (s : Storage V) : (Status × Bool × Option ParamId) × Storage V :=
  let found := s.matcher.matchName text
  if found = 0 then
    let (id, matcher) := s.matcher.add text
    let (status, trees) := s.trees.createNewColumn id.toUInt64
    if status = .ok then ((.ok, true, some id.toUInt64), ⟨matcher, trees⟩)
    else ((status, false, none), ⟨matcher, trees⟩)
  else ((.ok, false, some found.toUInt64), s)

/-- The id that `add` hands out when the name is registered. -/
def newId (text : Text) (s : Storage V) : Option Int64 :=
  if s.matcher.matchName text = 0 ∧ (s.matcher.add text).1 ≠ 0 then some (s.matcher.add text).1
  else none

def registerAll : List Text → Storage V → List Int64 × Storage V
  | [], s => ([], s)
  | text :: texts, s =>
    let (ids, s') := registerAll texts (s.initSeriesId text).2
    ((s.newId text).toList ++ ids, s')

def knownIds (s : Storage V) : List Int64 := s.matcher.invTable.map Prod.fst

end Storage

/-! ## The counter -/

variable {n : Nat} {text : Text} {m : SeriesMatcher} {row : NameRow}

theorem natAbs_ofNat (hn : n < 2 ^ 63) : (Int64.ofNat n).toInt.natAbs = n := by
  rw [Int64.toInt_ofNat_of_lt hn, Int.natAbs_natCast]

theorem natAbs_neg_ofNat (hn : n < 2 ^ 63) : (-Int64.ofNat n).toInt.natAbs = n := by
  rw [Int64.toInt_neg, Int64.toInt_ofNat_of_lt hn, Int.bmod_eq_of_le (by omega) (by omega),
    Int.natAbs_neg, Int.natAbs_natCast]

/-- A name without canonical form is refused; only an event would change the counter. -/
theorem SeriesMatcher.add_refused (hname : toCanonicalForm text = none)
    (hplain : text.head? ≠ some '!') (m : SeriesMatcher) : m.add text = (0, m) := by
  have hrefused : m.index.append text = (none, m.index) := by rw [Index.append, hname]
  rw [add, hrefused, if_neg hplain]

/-- A canonical form is entered under the next number, with the sign of the name. -/
theorem SeriesMatcher.add_accepted {name : CanonicalName} (hname : toCanonicalForm text = some name)
    (hcounter : m.seriesId = .ofNat n) (hpos : 0 < n) (hn : n < 2 ^ 63) :
    ∃ index id, m.add text = (id, ⟨index, (name.text, id) :: m.table, (id, name.text) :: m.invTable,
        .ofNat (n + 1)⟩) ∧
      id.toInt.natAbs = n ∧ if text.head? = some '!' then id < 0 else 0 < id := by
  obtain ⟨index, haccepted⟩ : ∃ index, m.index.append text = (some name.text, index) := by
    rw [Index.append, hname]
    by_cases hmem : name.text ∈ m.index.pool
    · exact ⟨_, if_pos hmem⟩
    · exact ⟨_, if_neg hmem⟩
  have hnext : m.seriesId + 1 = .ofNat (n + 1) := by
    rw [hcounter, Int64.ofNat_add]
    rfl
  refine ⟨index, if text.head? = some '!' then -m.seriesId else m.seriesId, ?_, ?_, ?_⟩
  · rw [add, haccepted, ← hnext]
  all_goals rw [hcounter]; split
  · exact natAbs_neg_ofNat hn
  · exact natAbs_ofNat hn
  · rw [Int64.lt_iff_toInt_lt, Int64.toInt_neg, Int64.toInt_ofNat_of_lt hn,
      Int.bmod_eq_of_le (by omega) (by omega), Int64.toInt_zero]
    omega
  · rw [Int64.lt_iff_toInt_lt, Int64.toInt_ofNat_of_lt hn, Int64.toInt_zero]
    omega

/-- What `add` does when the counter is `n`: a name is refused, or it gets the number `n`. -/
theorem SeriesMatcher.add_cases (hcounter : m.seriesId = .ofNat n) (hpos : 0 < n) (hn : n < 2 ^ 63)
    (hevent : text.head? = some '!' → (toCanonicalForm text).isSome) :
    (m.add text).1 = 0 ∧ (m.add text).2.seriesId = .ofNat n ∨
      (m.add text).1.toInt.natAbs = n ∧ (m.add text).2.seriesId = .ofNat (n + 1) := by
  cases hname : toCanonicalForm text with
  | none =>
    have hplain : text.head? ≠ some '!' := by
      intro h
      have hsome := hevent h
      rw [hname] at hsome
      cases hsome
    rw [add_refused hname hplain]
    exact .inl ⟨rfl, hcounter⟩
  | some name =>
    obtain ⟨index, id, hadd, hid, -⟩ := add_accepted hname hcounter hpos hn
    rw [hadd]
    exact .inr ⟨hid, rfl⟩

theorem Storage.initSeriesId_matcher (text : Text) (s : Storage V) :
    (s.initSeriesId text).2.matcher =
      if s.matcher.matchName text = 0 then (s.matcher.add text).2 else s.matcher := by
  rw [initSeriesId]
  by_cases hnew : s.matcher.matchName text = 0
  · simp only [if_pos hnew]
    split <;> rfl
  · simp only [if_neg hnew]

theorem Storage.registerAll_ids : ∀ (texts : List Text) {s : Storage V} {n : Nat},
    s.matcher.seriesId = .ofNat n → 0 < n → n + texts.length < 2 ^ 63 →
    (∀ text ∈ texts, text.head? = some '!' → (toCanonicalForm text).isSome) →
    (registerAll texts s).1.map (fun id => id.toInt.natAbs) =
      range' n (registerAll texts s).1.length
  | [], _, _, _, _, _, _ => rfl
  | text :: texts, s, n, hcounter, hpos, hbound, hevents => by
    rw [length_cons] at hbound
    have hrest : ∀ t ∈ texts, t.head? = some '!' → (toCanonicalForm t).isSome :=
      (forall_mem_cons.mp hevents).2
    have hmatcher := initSeriesId_matcher text s
    rw [registerAll]
    by_cases hnew : s.matcher.matchName text = 0
    · rw [if_pos hnew] at hmatcher
      rcases add_cases hcounter hpos (by omega) (hevents text mem_cons_self) with
        ⟨hzero, hnext⟩ | ⟨hid, hnext⟩
      · have hnone : s.newId text = none := if_neg fun h => h.2 hzero
        rw [← hmatcher] at hnext
        rw [hnone]
        exact registerAll_ids texts hnext hpos (by omega) hrest
      · have hne : (s.matcher.add text).1 ≠ 0 := by
          intro hzero
          rw [hzero] at hid
          exact hpos.ne hid
        have hsome : s.newId text = some (s.matcher.add text).1 := if_pos ⟨hnew, hne⟩
        rw [← hmatcher] at hnext
        have ih := registerAll_ids texts hnext (Nat.succ_pos n) (by omega) hrest
        rw [hsome]
        simp [range'_succ, hid, ih]
    · have hnone : s.newId text = none := if_neg fun h => hnew h.1
      rw [if_neg hnew] at hmatcher
      rw [hnone]
      exact registerAll_ids texts (hmatcher ▸ hcounter) hpos (by omega) hrest

/-! ## The registry of a new matcher -/

/-- Names are added one after the other if they do not match: the names that are accepted, each
with the id that `add` returns. -/
def SeriesMatcher.addNew : List Text → SeriesMatcher → List (Text × Int64) × SeriesMatcher
  | [], m => ([], m)
  | text :: texts, m =>
    if m.matchName text = 0 then
      let rest := addNew texts (m.add text).2
      (if (toCanonicalForm text).isSome then (text, (m.add text).1) :: rest.1 else rest.1, rest.2)
    else addNew texts m

/-- Names and ids belong together one to one, with the sign of the name. -/
structure Registered (given : List (Text × Int64)) (m : SeriesMatcher) : Prop where
  signs : ∀ r ∈ given, if r.1.head? = some '!' then r.2 < 0 else 0 < r.2
  distinct : given.Pairwise fun r s => r.2.toInt.natAbs ≠ s.2.toInt.natAbs
  found : ∀ r ∈ given, m.matchName r.1 = r.2
  back : ∀ r ∈ given, m.id2str r.2 = r.1

/-- A name that can be added: it is in canonical form, or refused and not an event. -/
def Addable (text : Text) : Prop :=
  (toCanonicalForm text = none → text.head? ≠ some '!') ∧
    ∀ name ∈ toCanonicalForm text, name.text = text

section Registry
variable {m : SeriesMatcher} {text : Text} {n : Nat} {given : List (Text × Int64)}
open SeriesMatcher

theorem Registered.add (h : Registered given m) (hless : ∀ r ∈ given, r.2.toInt.natAbs < n)
    (hnew : m.matchName text = 0) {id : Int64} {index : Index} {next : Int64}
    (hid : id.toInt.natAbs = n) (hsign : if text.head? = some '!' then id < 0 else 0 < id) :
    Registered (given ++ [(text, id)])
      ⟨index, (text, id) :: m.table, (id, text) :: m.invTable, next⟩ := by
  have hboth : ∀ {P : Text × Int64 → Prop}, (∀ r ∈ given, P r) → P (text, id) →
      ∀ r ∈ given ++ [(text, id)], P r := fun hold hlast =>
    forall_mem_append.mpr ⟨hold, forall_mem_singleton.mpr hlast⟩
  refine ⟨hboth h.signs hsign, ?_, hboth ?_ ?_, hboth ?_ ?_⟩
  · refine pairwise_append.mpr ⟨h.distinct, pairwise_singleton _ _, ?_⟩
    intro r hr s hs
    obtain rfl := mem_singleton.mp hs
    rw [hid]
    exact (hless r hr).ne
  · intro r hr
    have hdiff : (r.1 == text) = false := by
      rw [beq_eq_false_iff_ne]
      rintro rfl
      have hsign := h.signs r hr
      rw [← h.found r hr, hnew] at hsign
      split at hsign <;> exact absurd hsign (by decide)
    rw [matchName, lookup_cons, hdiff]
    exact h.found r hr
  · rw [matchName, lookup_cons, beq_self_eq_true]
    rfl
  · intro r hr
    have hdiff : (r.2 == id) = false := by
      rw [beq_eq_false_iff_ne]
      rintro rfl
      exact (hless r hr).ne hid
    rw [id2str, lookup_cons, hdiff]
    exact h.back r hr
  · rw [id2str, lookup_cons, beq_self_eq_true]
    rfl

theorem Registered.addNew {texts : List Text} (h : Registered given m)
    (hless : ∀ r ∈ given, r.2.toInt.natAbs < n) (hcounter : m.seriesId = .ofNat n) (hpos : 0 < n)
    (hbound : n + texts.length ≤ 2 ^ 63) (htexts : ∀ text ∈ texts, Addable text) :
    Registered (given ++ (addNew texts m).1) (addNew texts m).2 := by
  induction texts generalizing m n given with
  | nil => simpa [addNew] using h
  | cons text texts ih =>
    obtain ⟨htext, htexts⟩ := forall_mem_cons.mp htexts
    rw [length_cons] at hbound
    rw [addNew]
    by_cases hnew : m.matchName text = 0
    · rw [if_pos hnew]
      by_cases hname : toCanonicalForm text = none
      · rw [add_refused hname (htext.1 hname)]
        dsimp only
        rw [if_neg (by simp [hname])]
        exact ih h hless hcounter hpos (by omega) htexts
      · obtain ⟨name, hsome⟩ := ne_none_iff_exists'.mp hname
        obtain ⟨index, id, hadd, hid, hsign⟩ := add_accepted hsome hcounter hpos (by omega)
        rw [hadd, htext.2 name hsome]
        dsimp only
        rw [if_pos (isSome_iff_ne_none.mpr hname), append_cons]
        refine ih (h.add hless hnew hid hsign) ?_ rfl (Nat.succ_pos n) (by omega) htexts
        intro r hr
        rcases mem_append.mp hr with hr | hr
        · exact Nat.lt_succ_of_lt (hless r hr)
        · rw [mem_singleton.mp hr, hid]
          exact Nat.lt_succ_self n
    · rw [if_neg hnew]
      exact ih h hless hcounter hpos (by omega) htexts

/-- The registry of a new matcher. Names are added in any order, fewer than 2^63. If those that are
accepted are in canonical form and those that are refused are no events, names and ids belong
together one to one and a refusal changes nothing. -/
theorem registered_run {texts : List Text} (hbound : texts.length < 2 ^ 63)
    (htexts : ∀ text ∈ texts, Addable text) :
    Registered (addNew texts (.new 1)).1 (addNew texts (.new 1)).2 ∧
      ∀ text ∈ texts, toCanonicalForm text = none → ∀ m : SeriesMatcher, m.add text = (0, m) := by
  refine ⟨?_, fun text htext hname => add_refused hname ((htexts text htext).1 hname)⟩
  have hempty : Registered [] (.new 1) := ⟨by simp, .nil, by simp, by simp⟩
  exact hempty.addNew (n := 1) (by simp) rfl one_pos (by omega) htexts

/-- A series, an event, and a name without tags. -/
theorem registered_three : Registered
    (addNew ["cpu h=a".toList, "!start h=a".toList, "cpu".toList] (.new 1)).1
    (addNew ["cpu h=a".toList, "!start h=a".toList, "cpu".toList] (.new 1)).2 :=
  (registered_run (by decide) (by unfold Addable; decide)).1

/-- An event name without tags is refused and changes the matcher: the next series gets the id -1,
as an event would. A name with its tags in another order is not found. -/
theorem not_registered :
    (addNew ["!start".toList, "cpu h=a".toList] (.new 1)).1 = [("cpu h=a".toList, -1)] ∧
    (addNew ["cpu h=a g=b".toList] (.new 1)).1 = [("cpu h=a g=b".toList, 1)] ∧
    (addNew ["cpu h=a g=b".toList] (.new 1)).2.matchName "cpu h=a g=b".toList = 0 := by decide

end Registry

/-! ## The ids that are known -/

theorem SeriesMatcher.addWithId_seriesId (m : SeriesMatcher) (text : Text) (id : Int64) :
    (m.addWithId text id).seriesId = m.seriesId := by
  rw [addWithId]
  split <;> rfl

theorem SeriesMatcher.mem_addWithId {id id' : Int64}
    (h : id' ∈ (m.addWithId text id).invTable.map Prod.fst) :
    id' ∈ m.invTable.map Prod.fst ∨ id' = id := by
  rw [addWithId] at h
  split at h
  · exact .inl h
  · exact (mem_cons.mp h).symm

theorem nextSeriesId_pos (names : List NameRow) : 0 < nextSeriesId names := by
  rw [nextSeriesId]
  split
  · exact Nat.succ_pos _
  · decide

theorem lt_nextSeriesId {names : List NameRow} (h : row ∈ names) :
    row.2.toInt.natAbs < nextSeriesId names := by
  have hmem : row.2.toInt.natAbs ∈ names.map fun row => row.2.toInt.natAbs := mem_map_of_mem h
  rw [nextSeriesId, prevLargestId]
  cases hmax : (names.map fun row => row.2.toInt.natAbs).max? with
  | none =>
    rw [max?_eq_none_iff.mp hmax] at hmem
    cases hmem
  | some largest => exact Nat.lt_succ_of_le ((max?_eq_some_iff.mp hmax).2 _ hmem)

theorem loadMatcher_spec (names : List NameRow) :
    (loadMatcher names).seriesId = .ofNat (nextSeriesId names) ∧
      ∀ id ∈ (loadMatcher names).invTable.map Prod.fst, ∃ row ∈ names, row.2 = id := by
  have hrun : ∀ (rows : List NameRow) (m : SeriesMatcher),
      (rows.foldl (fun m row => m.addWithId row.1 row.2) m).seriesId = m.seriesId ∧
      ∀ id ∈ (rows.foldl (fun m row => m.addWithId row.1 row.2) m).invTable.map Prod.fst,
        id ∈ m.invTable.map Prod.fst ∨ ∃ row ∈ rows, row.2 = id := by
    intro rows
    induction rows with
    | nil => exact fun m => ⟨rfl, fun _ => .inl⟩
    | cons row rows ih =>
      intro m
      obtain ⟨hcounter, hknown⟩ := ih (m.addWithId row.1 row.2)
      refine ⟨hcounter.trans (m.addWithId_seriesId _ _), fun id hid => ?_⟩
      rcases hknown id hid with hid | ⟨row', hrow', heq⟩
      · exact (mem_addWithId hid).imp_right fun heq => ⟨row, mem_cons_self, heq.symm⟩
      · exact .inr ⟨row', mem_cons_of_mem _ hrow', heq⟩
  obtain ⟨hcounter, hknown⟩ := hrun names (.new (.ofNat (nextSeriesId names)))
  refine ⟨hcounter, fun id hid => (hknown id hid).resolve_left ?_⟩
  exact not_mem_nil

namespace MetadataRecovery
variable {s : MetadataRecovery V} {topAddr : LogicAddr} {names : List NameRow}

/-- The counter is where the database put it, and every known id is from the database or from
the log. -/
structure Counted (names : List NameRow) (s : MetadataRecovery V) : Prop where
  counter : s.matcher.seriesId = .ofNat (nextSeriesId names)
  known : ∀ id ∈ s.knownIds, (∃ row ∈ names, row.2 = id) ∨ ∃ r ∈ s.restoredIds, r.toInt64 = id

theorem counted_start (device : ParamId → BlockStore V)
    (mapping : RescueMap) : (start names device mapping).Counted names :=
  ⟨(loadMatcher_spec names).1, fun id hid => .inl ((loadMatcher_spec names).2 id hid)⟩

theorem Counted.visitName (h : s.Counted names) (id : ParamId) (value : List UInt8) :
    (s.visitName id value).Counted names := by
  rw [MetadataRecovery.visitName]
  split
  · exact h
  · split
    · refine ⟨(s.matcher.addWithId_seriesId _ _).trans h.counter, fun id' hid' => ?_⟩
      rcases mem_addWithId hid' with hid' | rfl
      · refine (h.known id' hid').imp_right ?_
        rintro ⟨r, hr, heq⟩
        exact ⟨r, mem_append_left _ hr, heq⟩
      · exact .inr ⟨id, mem_append_right _ (mem_singleton_self id), rfl⟩
    · exact h

theorem Counted.visit (h : s.Counted names) (row : InputLogRow) :
    (s.visit topAddr row).Counted names := by
  rw [MetadataRecovery.visit]
  split
  · exact h
  · exact h.visitName _ _
  · rw [visitRescue]
    split
    · exact h
    · split
      · exact ⟨h.counter, h.known⟩
      · exact h

theorem Counted.visitAll (h : s.Counted names) (rows : List InputLogRow) :
    (s.visitAll topAddr rows).Counted names := by
  induction rows generalizing s with
  | nil => exact h
  | cons row rows ih => exact ih (h.visit row)

end MetadataRecovery

/-- Unique ids. The database has arbitrary names, the log serves arbitrary records, and
afterwards arbitrary names are registered; the counter does not overflow, and no event name is
refused. The ids that are handed out differ in absolute value from each other and from all
that are known, exactly if no name from the log is known under one of the next numbers of the
counter. -/
theorem series_ids_unique_iff {ρ : Type} {rd : Pull.Reader Status InputLogRow ρ Unit} {log : ρ}
    {rows : List InputLogRow} (hserves : Pull.Serves rd .ok .noData (.same InputLogRow) log rows)
    (names : List NameRow) (device : ParamId → BlockStore V) (mapping : RescueMap)
    (topAddr : LogicAddr) {texts : List Text} (hbound : nextSeriesId names + texts.length < 2 ^ 63)
    (hevents : ∀ text ∈ texts, text.head? = some '!' → (toCanonicalForm text).isSome) :
    let recovered := (MetadataRecovery.start names device mapping).visitAll topAddr rows
    let first := nextSeriesId names
    let count := (recovered.registerAll texts).1.length
    (∃ bound, ∀ fuel, bound ≤ fuel → ∃ s,
        runInputlogMetadataRecovery rd fuel log topAddr (.start names device mapping) = some s ∧
        ((s.registerAll texts).1.map fun id => id.toInt.natAbs).Nodup ∧
        ∀ id ∈ (s.registerAll texts).1, ∀ known ∈ s.knownIds,
          id.toInt.natAbs ≠ known.toInt.natAbs) ↔
      ∀ id ∈ recovered.restoredIds, id.toInt64 ∈ recovered.knownIds →
        id.toInt64.toInt.natAbs < first ∨ first + count ≤ id.toInt64.toInt.natAbs := by
  intro recovered first count
  have hcounted : recovered.Counted names :=
    (MetadataRecovery.counted_start device mapping).visitAll rows
  have hids := Storage.registerAll_ids texts hcounted.counter (nextSeriesId_pos names) hbound hevents
  refine (recovery_iff hserves).trans ⟨?_, ?_⟩
  · rintro ⟨-, hnew⟩ known - hknown
    by_contra hinside
    -- the number of the known id is handed out
    have hmem : known.toInt64.toInt.natAbs ∈
        (recovered.registerAll texts).1.map fun id => id.toInt.natAbs := by
      rw [hids, mem_range'_1]
      omega
    obtain ⟨id, hid, heq⟩ := mem_map.mp hmem
    exact hnew id hid _ hknown heq
  · intro hfree
    refine ⟨?_, ?_⟩
    · rw [hids]
      exact nodup_range' 1 (by decide)
    · intro id hid known hknown heq
      have hrange : id.toInt.natAbs ∈ range' first count := by
        rw [← hids]
        exact mem_map_of_mem hid
      rw [mem_range'_1] at hrange
      rcases hcounted.known known hknown with ⟨row, hrow, rfl⟩ | ⟨r, hr, rfl⟩
      · have := lt_nextSeriesId hrow
        omega
      · have := hfree r hr hknown
        omega

/-- The log has the series 1024, which the database does not have; its counter starts behind 2000.
Two new names get ids that differ from all others. -/
theorem series_ids_unique_recovered :
    let ops : List LogOp := [.append ⟨1024, .seriesName [99, 112, 117, 32, 104, 61, 97]⟩]
    let dir := (runLog plainLz4 (ops ++ [.flush]) (.new plainLz4 4 65536, 0)).1.files
    let names : List NameRow := [("mem h=b".toList, 2000)]
    let texts : List Text := ["mem h=a".toList, "!start h=a".toList]
    ((MetadataRecovery.start names (fun _ => memStore Rat) ∅).visitAll 1000
      [⟨1024, .seriesName [99, 112, 117, 32, 104, 61, 97]⟩]).restoredIds = [1024] ∧
    ∃ k bound, ∀ fuel, bound ≤ fuel → ∃ s,
      runInputlogMetadataRecovery (reader plainLz4 k) fuel (openShards plainLz4 [dir])
        1000 (.start names (fun _ => memStore Rat) ∅) = some s ∧
      ((s.registerAll texts).1.map fun id => id.toInt.natAbs).Nodup ∧
      ∀ id ∈ (s.registerAll texts).1, ∀ known ∈ s.knownIds,
        id.toInt.natAbs ≠ known.toInt.natAbs := by
  intro ops dir names texts
  obtain ⟨k, hserves⟩ := serves_name
  have hrestored : ((MetadataRecovery.start names (fun _ => memStore Rat) ∅).visitAll 1000
      [⟨1024, .seriesName [99, 112, 117, 32, 104, 61, 97]⟩]).restoredIds = [1024] := by decide
  refine ⟨hrestored, k, (series_ids_unique_iff hserves names (fun _ => memStore Rat) ∅ 1000
    (by decide) (by decide)).mpr ?_⟩
  exact forall_mem_singleton.mpr fun _ => .inl (by decide)

/-- The database is empty, and the log has the series 1024. The next series that is registered
gets the same id: the first call fails, because there is such a column, and the second call
returns the id. -/
theorem series_ids_shared :
    let ops : List LogOp := [.append ⟨1024, .seriesName [99, 112, 117, 32, 104, 61, 97]⟩]
    let dir := (runLog plainLz4 (ops ++ [.flush]) (.new plainLz4 4 65536, 0)).1.files
    let text : Text := "mem h=a".toList
    ∃ k bound, ∀ fuel, bound ≤ fuel → ∃ s,
      runInputlogMetadataRecovery (reader plainLz4 k) fuel (openShards plainLz4 [dir])
        1000 (.start [] (fun _ => memStore Rat) ∅) = some s ∧
      s.matcher.matchName "cpu h=a".toList = 1024 ∧ s.newId text = some 1024 ∧
      (s.initSeriesId text).1 = (.badArg, false, none) ∧
      ((s.initSeriesId text).2.initSeriesId text).1 = (.ok, false, some 1024) := by
  obtain ⟨k, hserves⟩ := serves_name
  refine ⟨k, (recovery_iff hserves).mpr ⟨?_, ?_, ?_, ?_⟩⟩
  · decide
  · decide
  · decide
  · decide

/-! ## What the next synchronisation writes -/

/-- What `add` appends to the list `names` of the matcher. `_add`, by which names are loaded and
recovered, appends nothing. -/
def SeriesMatcher.noted (m : SeriesMatcher) (text : Text) : List NameRow :=
  ((m.index.append text).1.map fun sname => (sname, (m.add text).1)).toList

/-- The names that `pull_new_names` hands to the database after names have been registered. -/
def Storage.newNames : List Text → Storage V → List NameRow
  | [], _ => []
  | text :: texts, s =>
    (if s.matcher.matchName text = 0 then s.matcher.noted text else []) ++
      newNames texts (s.initSeriesId text).2

theorem SeriesMatcher.noted_name (htext : ∀ name ∈ toCanonicalForm text, name.text = text)
    (h : row ∈ m.noted text) : row.1 = text := by
  obtain ⟨sname, hsname, rfl⟩ := map_eq_some_iff.mp (mem_toList.mp h)
  rw [Index.append] at hsname
  split at hsname
  next => cases hsname
  next name hname =>
    rw [← htext name hname]
    split at hsname <;> exact (some.inj hsname).symm

theorem SeriesMatcher.add_table : (m.add text).2.table = m.noted text ++ m.table := by
  rw [noted, add]
  cases m.index.append text with
  | mk sname index => cases sname <;> rfl

theorem Storage.newNames_unknown {texts : List Text} {s : Storage V}
    (htexts : ∀ text ∈ texts, ∀ name ∈ toCanonicalForm text, name.text = text)
    (h : row ∈ s.newNames texts) : s.matcher.matchName row.1 = 0 := by
  induction texts generalizing s with
  | nil => cases h
  | cons text texts ih =>
    obtain ⟨htext, htexts⟩ := forall_mem_cons.mp htexts
    have hlater := ih (s := (s.initSeriesId text).2) htexts
    rw [initSeriesId_matcher] at hlater
    rw [newNames] at h
    by_cases hnew : s.matcher.matchName text = 0
    · rw [if_pos hnew] at h hlater
      by_cases heq : row.1 = text
      · rw [heq, hnew]
      · -- what `add` enters has another name
        have hother : (s.matcher.noted text).lookup row.1 = none := by
          refine lookup_eq_none_iff.mpr fun r hr => ?_
          rw [noted_name htext hr]
          simpa using heq
        have hmem := (mem_append.mp h).resolve_left fun hr => heq (noted_name htext hr)
        have hzero := hlater hmem
        rwa [matchName, add_table, lookup_append, hother] at hzero
    · rw [if_neg hnew] at h hlater
      exact hlater h

/-- Durable names. The database has arbitrary names, the log serves arbitrary records, and names in
canonical form are registered before the next synchronisation. It writes every name that was only in
the log, and the name has its id after a restart without the log, exactly if there is no such name. -/
theorem recovered_names_iff {ρ : Type} {rd : Pull.Reader Status InputLogRow ρ Unit} {log : ρ}
    {rows : List InputLogRow} (hserves : Pull.Serves rd .ok .noData (.same InputLogRow) log rows)
    (names : List NameRow) (device : ParamId → BlockStore V) (mapping : RescueMap)
    (topAddr : LogicAddr) {texts : List Text}
    (htexts : ∀ text ∈ texts, ∀ name ∈ toCanonicalForm text, name.text = text) :
    let recovered := (MetadataRecovery.start names device mapping).visitAll topAddr rows
    (∃ bound, ∀ fuel, bound ≤ fuel → ∃ s,
        runInputlogMetadataRecovery rd fuel log topAddr (.start names device mapping) = some s ∧
        ∀ name, (loadMatcher names).matchName name = 0 → s.matcher.matchName name ≠ 0 →
          (name, s.matcher.matchName name) ∈ s.newNames texts ∧
          (loadMatcher (names ++ s.newNames texts)).matchName name = s.matcher.matchName name) ↔
      ∀ name, (loadMatcher names).matchName name = 0 → recovered.matcher.matchName name = 0 := by
  refine (recovery_iff hserves).trans ⟨?_, ?_⟩
  · intro hnames name hold
    by_contra hknown
    exact hknown (Storage.newNames_unknown htexts (hnames name hold hknown).1)
  · intro hnone name hold hknown
    exact absurd (hnone name hold) hknown

/-- The log has a name that the database has, and another one is registered. -/
theorem recovered_names_known :
    let ops : List LogOp := [.append ⟨1024, .seriesName [99, 112, 117, 32, 104, 61, 97]⟩]
    let dir := (runLog plainLz4 (ops ++ [.flush]) (.new plainLz4 4 65536, 0)).1.files
    let names : List NameRow := [("cpu h=a".toList, 1024)]
    let texts : List Text := ["mem h=a".toList]
    ∃ k bound, ∀ fuel, bound ≤ fuel → ∃ s,
      runInputlogMetadataRecovery (reader plainLz4 k) fuel (openShards plainLz4 [dir])
        1000 (.start names (fun _ => memStore Rat) ∅) = some s ∧
      ∀ name, (loadMatcher names).matchName name = 0 → s.matcher.matchName name ≠ 0 →
        (name, s.matcher.matchName name) ∈ s.newNames texts ∧
        (loadMatcher (names ++ s.newNames texts)).matchName name = s.matcher.matchName name := by
  intro ops dir names texts
  obtain ⟨k, hserves⟩ := serves_name
  exact ⟨k, (recovered_names_iff hserves names (fun _ => memStore Rat) ∅ 1000 (by decide)).mpr
    fun name hold => hold⟩

/-- The database is empty, and the log has the series 1024: the next synchronisation writes
nothing, and after a restart the name is not known. -/
theorem recovered_name_lost :
    let ops : List LogOp := [.append ⟨1024, .seriesName [99, 112, 117, 32, 104, 61, 97]⟩]
    let dir := (runLog plainLz4 (ops ++ [.flush]) (.new plainLz4 4 65536, 0)).1.files
    ∃ k bound, ∀ fuel, bound ≤ fuel → ∃ s,
      runInputlogMetadataRecovery (reader plainLz4 k) fuel (openShards plainLz4 [dir])
        1000 (.start [] (fun _ => memStore Rat) ∅) = some s ∧
      s.matcher.matchName "cpu h=a".toList = 1024 ∧ s.newNames [] = [] ∧
      (loadMatcher ([] ++ s.newNames [])).matchName "cpu h=a".toList = 0 := by
  obtain ⟨k, hserves⟩ := serves_name
  refine ⟨k, (recovery_iff hserves).mpr ⟨?_, rfl, ?_⟩⟩
  · decide
  · decide

end FastSTDB
