import FastSTDB.SeriesName

/-
  Series index — `Index` (`index/invertedindex.cc`) and `SeriesMatcher`
  (`index/seriesparser.cc`)

  The index keeps the canonical names in a string pool and, by the hash of a metric
  and of a `tag=value` pair, the list of the ids of the names they occur in. A query
  combines such lists and removes false positives, which hashes that collide cause.
  The matcher gives each name an id of its own, negative for events.

  Correspondence (C++ ↔ Lean):
    `StringTools::hash`                     ↔ `djb2`
    `StringPool`, its ids                   ↔ `Index.pool`, positions counted from 1
    `CompressedPList`, `&`, `|`, `unique`   ↔ `List Nat`, `setIntersection`, `setUnion`,
                                              `uniqueCopy`
    `InvertedIndex`                         ↔ `InvertedIndex`
    `skip_tag`, `write_tags` of the index   ↔ `indexSkipTag`, `writeTags`
    `MetricName::check`, `TagValuePair::check` ↔ `checkMetric`, `checkTagValue`
    `IndexQueryResults::filter`             ↔ `Index.filter`, `Index.filterAny`
    `IncludeMany2Many::query`               ↔ `Index.many2Many`
    `SeriesMatcher`                         ↔ `SeriesMatcher`; an abort is `none`

  Names have no NUL byte: the pool ends its strings with one. `table_` of the index maps
  each string of the pool to its id.
-/
namespace FastSTDB
open List

/-! ## Hashes and posting lists -/

/-- `static_cast<size_t>` of a signed character. -/
def charBits (c : Char) : UInt64 := .ofInt (signedChar c)

def djb2 (text : Text) : UInt64 := text.foldl (fun hash c => (hash <<< 5) + hash + charBits c) 5381

/-- `std::set_intersection`; the first argument bounds the steps. -/
def intersectFrom : Nat → List Nat → List Nat → List Nat
  | n + 1, a :: as, b :: bs =>
    if a < b then intersectFrom n as (b :: bs)
    else if b < a then intersectFrom n (a :: as) bs
    else a :: intersectFrom n as bs
  | _, _, _ => []

def setIntersection (as bs : List Nat) : List Nat := intersectFrom (as.length + bs.length) as bs

def unionFrom : Nat → List Nat → List Nat → List Nat
  | n + 1, a :: as, b :: bs =>
    if a < b then a :: unionFrom n as (b :: bs)
    else if b < a then b :: unionFrom n (a :: as) bs
    else a :: unionFrom n as bs
  | _, as, [] => as
  | _, _, bs => bs

def setUnion (as bs : List Nat) : List Nat := unionFrom (as.length + bs.length) as bs

def uniqueCopy : List Nat → List Nat
  | a :: b :: as => if a = b then uniqueCopy (b :: as) else a :: uniqueCopy (b :: as)
  | as => as

/-- What was added, in order: a hash and the id of a name. -/
structure InvertedIndex where
  entries : List (UInt64 × Nat)

def InvertedIndex.add (index : InvertedIndex) (key : UInt64) (value : Nat) : InvertedIndex :=
  ⟨index.entries ++ [(key, value)]⟩

def InvertedIndex.extract (index : InvertedIndex) (key : UInt64) : List Nat :=
  (index.entries.filter fun e => e.1 == key).map Prod.snd

/-! ## Names as the index reads them -/

/-- `skip_tag` of the index: the text behind the tag; `none` if `error` is set. -/
def indexSkipTag (text : Text) : Option Text :=
  match text.dropWhile fun c => !(c == '=' || c == ' ' || c == '\t') with
  | '=' :: rest => some (rest.dropWhile fun c => c != ' ')
  | _ => none

/-- The front of a text that ends with `rest`. -/
def frontOf (text rest : Text) : Text := text.take (text.length - rest.length)

/-- The tags `write_tags` adds. After an error the rest of the text counts as a tag. -/
def writeTags : Nat → Text → List Text
  | 0, _ => []
  | n + 1, text =>
    if text = [] then []
    else
      match indexSkipTag (skipSpace text) with
      | none => [skipSpace text]
      | some rest => frontOf (skipSpace text) rest :: writeTags n rest

/-- `skip_metric_name`; the source reads on if there is no space. -/
def skipMetricName (text : Text) : Text := (skipSpace text).takeWhile fun c => c != ' '

def checkMetric (metric text : Text) : Bool :=
  let name := skipMetricName text
  if name = [] then false else name == metric

/-- The loop of `TagValuePair::check`. -/
def checkTags (value : Text) : Nat → Text → Bool
  | 0, _ => false
  | n + 1, text =>
    if text = [] then false
    else
      match indexSkipTag text with
      | none => text == value
      | some rest => frontOf text rest == value || checkTags value n (skipSpace rest)

def checkTagValue (value text : Text) : Bool :=
  checkTags value text.length (skipSpace ((skipSpace text).dropWhile fun c => c != ' '))

/-! ## Index -/

structure Index where
  pool : List Text
  metricsNames : InvertedIndex
  tagvaluePairs : InvertedIndex

namespace Index

def empty : Index := ⟨[], ⟨[]⟩, ⟨[]⟩⟩

section
variable (index : Index)

def str (id : Nat) : Text := index.pool.getD (id - 1) []

/-- `append`: the canonical name, `none` for `BadData`. -/
def append (text : Text) : Option Text × Index :=
  match toCanonicalForm text with
  | none => (none, index)
  | some name =>
    if name.text ∈ index.pool then (some name.text, index)
    else
      let id := index.pool.length + 1
      -- `tags_begin` points behind the space after the metric
      let tags := writeTags name.text.length (tagText name.tags).tail
      (some name.text,
        { pool := index.pool ++ [name.text]
          tagvaluePairs := tags.foldl (fun t tag => t.add (djb2 tag) id) index.tagvaluePairs
          metricsNames := index.metricsNames.add (djb2 (skipMetricName name.text)) id })

def tagvalueQuery (value : Text) : List Nat :=
  index.tagvaluePairs.extract (djb2 value)

def metricQuery (metric : Text) : List Nat :=
  index.metricsNames.extract (djb2 metric)

def filter (check : Text → Bool) (ids : List Nat) : List Nat :=
  ids.filter fun id => check (index.str id)

/-- `filter(std::vector<Checkable> const&)`: the list itself if every string passes a check. The
loop that writes a new list leaves the checks of a string before it could add it. -/
def filterAny (checks : List (Text → Bool)) (ids : List Nat) : List Nat :=
  if ids.all fun id => checks.any fun check => check (index.str id) then ids else []

/-- The names with one of the values of a tag. -/
def valuesQuery (tag value : Text) (values : List Text) : List Nat :=
  values.foldl
    (fun results v => uniqueCopy (setUnion results (index.tagvalueQuery (tag ++ '=' :: v))))
    (index.tagvalueQuery (tag ++ '=' :: value))

end

/-- The loop of `IncludeMany2Many::query`: the pairs, and what the tags have in common; `none`
before the first tag. -/
def tagsQuery (index : Index) : List (Text × List Text) → List Text → Option (List Nat) →
    List Text × Option (List Nat)
  | [], pairs, res => (pairs, res)
  | (_, []) :: tags, pairs, res => tagsQuery index tags pairs res
  | (tag, value :: values) :: tags, pairs, res =>
    let results := index.valuesQuery tag value values
    tagsQuery index tags (pairs ++ (value :: values).map fun v => tag ++ '=' :: v)
      (some (match res with
        | none => results
        | some res => setIntersection res results))

def many2Many (index : Index) (metric : Text) (tags : List (Text × List Text)) : List Nat :=
  let allmetric := index.metricQuery metric
  match index.tagsQuery tags [] none with
  | ([], _) => index.filter (checkMetric metric) allmetric
  | (pairs, res) =>
    index.filterAny (pairs.map checkTagValue)
      (index.filter (checkMetric metric) (setIntersection (res.getD []) allmetric))

end Index

/-! ## Matcher -/

/-- Of several entries for a name or an id, the first one counts. -/
structure SeriesMatcher where
  index : Index
  table : List (Text × Int64)
  invTable : List (Int64 × Text)
  seriesId : Int64

namespace SeriesMatcher

def new (startingId : Int64) : SeriesMatcher := ⟨.empty, [], [], startingId⟩

section
variable (m : SeriesMatcher)

/-- `add`: the id, 0 if the index refuses the name. -/
def add (text : Text) : Int64 × SeriesMatcher :=
  let id := if text.head? = some '!' then -m.seriesId else m.seriesId
  match m.index.append text with
  | (none, index) => (0, { m with index := index, seriesId := id })
  | (some sname, index) =>
    (id, ⟨index, (sname, id) :: m.table, (id, sname) :: m.invTable, m.seriesId + 1⟩)

/-- `_add`: a name under a given id. A name that the index refuses counts as the empty name. -/
def addWithId (text : Text) (id : Int64) : SeriesMatcher :=
  if text = [] then m
  else
    let (sname, index) := m.index.append text
    { m with
      index
      table := (sname.getD [], id) :: m.table
      invTable := (id, sname.getD []) :: m.invTable }

/-- `match`: the id of a name, 0 if it is new. -/
def matchName (name : Text) : Int64 := (m.table.lookup name).getD 0

/-- `id2str`, empty if there is no such id. -/
def id2str (id : Int64) : Text := (m.invTable.lookup id).getD []

end

/-- The loop of `search`; a name that has no id aborts. -/
def findNames (m : SeriesMatcher) : List Nat → Option (List (Text × Int64))
  | [] => some []
  | id :: ids =>
    (m.table.lookup (m.index.str id)).bind fun sid =>
      (m.findNames ids).map ((m.index.str id, sid) :: ·)

/-- `search` for an `IncludeMany2Many` query. -/
def search (m : SeriesMatcher) (metric : Text) (tags : List (Text × List Text)) :
    Option (List (Text × Int64)) :=
  m.findNames (m.index.many2Many metric tags)

end SeriesMatcher

/-! ## What a search finds -/

section Search
variable {index : Index} {metric : Text} {id : Nat} {tags : List (Text × List Text)}

variable {ids : List Nat} {m : SeriesMatcher} {r : Text × Int64}

theorem Index.mem_of_filterAny {checks : List (Text → Bool)}
    (h : id ∈ index.filterAny checks ids) : id ∈ ids := by
  rw [filterAny] at h
  split at h
  · exact h
  · cases h

theorem Index.many2Many_sound
    (h : id ∈ index.many2Many metric tags) : checkMetric metric (index.str id) = true := by
  rw [many2Many] at h
  split at h
  · exact (mem_filter.mp h).2
  · exact (mem_filter.mp (mem_of_filterAny h)).2

theorem Index.str_mem (h : index.str id ≠ []) : index.str id ∈ index.pool := by
  rw [str, getD_eq_getElem?_getD] at h ⊢
  cases hget : index.pool[id - 1]? with
  | none => rw [hget] at h; exact absurd rfl h
  | some name => exact mem_of_getElem? hget

variable {results : List (Text × Int64)}

theorem SeriesMatcher.mem_findNames (h : m.findNames ids = some results) (hr : r ∈ results) :
    ∃ id ∈ ids, r.1 = m.index.str id ∧ m.table.lookup r.1 = some r.2 := by
  induction ids generalizing results with
  | nil =>
    cases h
    cases hr
  | cons id ids ih =>
    obtain ⟨sid, hsid, h⟩ := Option.bind_eq_some_iff.mp h
    obtain ⟨rest, hrest, rfl⟩ := Option.map_eq_some_iff.mp h
    rcases mem_cons.mp hr with rfl | hr
    · exact ⟨id, mem_cons_self, rfl, hsid⟩
    · obtain ⟨id', hid', heq⟩ := ih hrest hr
      exact ⟨id', mem_cons_of_mem _ hid', heq⟩

/-- A search finds names of the pool with the metric of the query, and their ids. -/
theorem SeriesMatcher.search_sound (h : m.search metric tags = some results) (hr : r ∈ results) :
    r.1 ∈ m.index.pool ∧ checkMetric metric r.1 = true ∧ m.table.lookup r.1 = some r.2 := by
  obtain ⟨id, hid, hname, hlookup⟩ := mem_findNames h hr
  have hcheck := Index.many2Many_sound hid
  rw [hname]
  refine ⟨Index.str_mem ?_, hcheck, hname ▸ hlookup⟩
  intro hnil
  rw [hnil] at hcheck
  cases hcheck

end Search

/-! ## Well-formed matchers -/

/-- The names of the pool are canonical, each has an id, and the id leads back to it. -/
structure SeriesMatcher.WellFormed (m : SeriesMatcher) : Prop where
  canonical : ∀ name ∈ m.index.pool, ∃ c : CanonicalName, name = c.text ∧ c.tags ≠ [] ∧
    ∃ a metric, c.metric = a :: metric ∧ isSpace a = false
  named : ∀ name ∈ m.index.pool, ∃ id, m.table.lookup name = some id ∧ id ≠ 0 ∧
    m.invTable.lookup id = some name
  known : ∀ name id, m.table.lookup name = some id → name ∈ m.index.pool

namespace SeriesMatcher
variable {m : SeriesMatcher}

theorem wellFormed_new (startingId : Int64) : (new startingId).WellFormed where
  canonical := by simp [new, Index.empty]
  named := by simp [new, Index.empty]
  known := by simp [new]

/-- A name with an id other than 0 is known, and the id leads back to it. -/
theorem WellFormed.back (h : m.WellFormed) {name : Text} (hid : m.matchName name ≠ 0) :
    m.id2str (m.matchName name) = name := by
  rw [matchName] at hid ⊢
  cases hlookup : m.table.lookup name with
  | none => rw [hlookup] at hid; exact absurd rfl hid
  | some id =>
    obtain ⟨id', hid', -, hinv⟩ := h.named name (h.known name id hlookup)
    rw [hlookup] at hid'
    cases hid'
    rw [Option.getD_some, id2str, hinv]
    rfl

theorem WellFormed.injective (h : m.WellFormed) {name name' : Text} (hid : m.matchName name ≠ 0)
    (heq : m.matchName name = m.matchName name') : name = name' := by
  calc name = m.id2str (m.matchName name) := (h.back hid).symm
    _ = m.id2str (m.matchName name') := by rw [heq]
    _ = name' := h.back (heq ▸ hid)

theorem WellFormed.add (h : m.WellFormed) {text name : Text} {index : Index} {id : Int64}
    (hid : id = if text.head? = some '!' then -m.seriesId else m.seriesId)
    (happend : m.index.append text = (some name, index)) (hnew : name ∉ m.index.pool)
    (hne : id ≠ 0) (hfree : m.invTable.lookup id = none) : (m.add text).2.WellFormed := by
  -- the pool has one more name
  obtain ⟨c, hc, rfl, hpool⟩ : ∃ c, toCanonicalForm text = some c ∧ name = c.text ∧
      index.pool = m.index.pool ++ [c.text] := by
    rw [Index.append] at happend
    cases hc : toCanonicalForm text with
    | none => rw [hc] at happend; cases happend
    | some c =>
      rw [hc] at happend
      dsimp only at happend
      split at happend
      next hmem =>
        cases happend
        exact absurd hmem hnew
      next =>
        cases happend
        exact ⟨c, rfl, rfl, rfl⟩
  have hadd : (m.add text).2 =
      ⟨index, (c.text, id) :: m.table, (id, c.text) :: m.invTable, m.seriesId + 1⟩ := by
    rw [SeriesMatcher.add, happend, hid]
  have hold : ∀ {name : Text}, name ∈ m.index.pool → (name == c.text) = false := by
    intro name hname
    rw [beq_eq_false_iff_ne]
    rintro rfl
    exact hnew hname
  obtain ⟨hmetric, htags⟩ := toCanonicalForm_shape hc
  rw [hadd]
  refine ⟨?_, ?_, ?_⟩
  · intro name hname
    rw [hpool] at hname
    rcases mem_append.mp hname with hname | hname
    · exact h.canonical name hname
    · obtain rfl := mem_singleton.mp hname
      exact ⟨c, rfl, htags, hmetric⟩
  · intro name hname
    rw [hpool] at hname
    rcases mem_append.mp hname with hname | hname
    · obtain ⟨id', hid', hne', hinv⟩ := h.named name hname
      have hdiff : (id' == id) = false := by
        rw [beq_eq_false_iff_ne]
        rintro rfl
        rw [hfree] at hinv
        cases hinv
      refine ⟨id', ?_, hne', ?_⟩
      · rw [lookup_cons, hold hname]
        exact hid'
      · rw [lookup_cons, hdiff]
        exact hinv
    · obtain rfl := mem_singleton.mp hname
      refine ⟨id, ?_, hne, ?_⟩
      · rw [lookup_cons, beq_self_eq_true]
      · rw [lookup_cons, beq_self_eq_true]
  · intro name id' hlookup
    rw [hpool]
    rw [lookup_cons] at hlookup
    split at hlookup
    next heq => simp [eq_of_beq heq]
    next => exact mem_append_left _ (h.known name id' hlookup)

end SeriesMatcher
end FastSTDB
