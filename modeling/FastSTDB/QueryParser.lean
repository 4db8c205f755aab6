import Mathlib.Data.List.Sort
import FastSTDB.SeriesIndex
import FastSTDB.QueryPlan

/-
  Query parser — join queries (`query/queryparser.cc`)

  A join query names k metrics. Its where clause selects series: without one, or with
  tags and their values, the series of the first metric are looked up in the index and
  those of the other metrics by the same tags; with a list of tag objects, the series
  of each object and each metric are looked up by name. In all cases the ids are in
  one list, which is cut into k columns.

  Correspondence (C++ ↔ Lean):
    `SeriesRetreiver`                    ↔ `SeriesRetreiver`; `tags` is sorted by name
    `extract_ids`                        ↔ `SeriesRetreiver.extractIds`
    `parse_*`, `validate_query`          ↔ the functions of the same names
    `init_matcher_in_join_query`         ↔ `initMatcherInJoinQuery`, which returns what
                                            `select.matcher` is given
    `QueryParser::parse_join_query`      ↔ `parseJoinQuery`
    `from_iso_string`, `lexical_cast`    ↔ fields of the parameter `ParseEnv`

  A text of a property tree is a `String`, one character for each byte.
-/
namespace FastSTDB

/-- How parsing ends without a result. -/
inductive ParseFailure where
  | error (e : QueryError)
  /-- `LOG(FATAL)` -/
  | fatal (msg : String)
  deriving DecidableEq, Repr

def parsingError {α : Type} (msg : String) : Except QueryError α := .error ⟨.queryParsingError, msg⟩

/-- What the parser calls of other libraries; `zero` is 0.0. -/
structure ParseEnv (V : Type) where
  fromIsoString : String → Except String Timestamp
  lexicalCast : String → Option V
  zero : V

/-! ## Series selection -/

structure SeriesRetreiver where
  metric : List Text
  tags : List (Text × List Text)
  series : List Text

/-- `tags_[name] = values` for a new name. -/
def insertTagValues (name : Text) (values : List Text) :
    List (Text × List Text) → List (Text × List Text)
  | [] => [(name, values)]
  | kv :: tags =>
    if kv.1.map Char.toNat < name.map Char.toNat then kv :: insertTagValues name values tags
    else (name, values) :: kv :: tags

namespace SeriesRetreiver

def new (metric : List Text) : SeriesRetreiver := ⟨metric, [], []⟩

/-- `add_tags`, and `add_tag` for a single value. -/
def addTags (r : SeriesRetreiver) (name : Text) (values : List Text) :
    Except Status SeriesRetreiver :=
  if r.metric = [] then .error .badArg
  else if r.series ≠ [] then .error .badArg
  else if r.tags.any fun kv => kv.1 == name then .error .badArg
  else .ok { r with tags := insertTagValues name values r.tags }

def addSeriesName (r : SeriesRetreiver) (name : Text) : Except Status SeriesRetreiver :=
  if r.tags ≠ [] then .error .badArg
  else
    match toCanonicalForm name with
    | none => .error .badData
    | some c => .ok { r with series := r.series ++ [c.text] }

/-- The ids of the other metrics, for the ids of the first one. -/
def metricIds (m : SeriesMatcher) (first : Text) : List Text → List Int64 →
    Except ParseFailure (List Int64)
  | [], _ => .ok []
  | metric :: tail, ids => do
    let found ← ids.mapM fun id =>
      let name := m.id2str id
      if name = [] then
        .error (.fatal s!"Matcher data is broken, can read series name for {id.toUInt64}")
      else .ok (m.matchName (metric ++ name.drop first.length))
    let rest ← metricIds m first tail ids
    .ok (found ++ rest)

def allIds (m : SeriesMatcher) : List Int64 :=
  (m.invTable.map Prod.fst).dedup.insertionSort (· ≤ ·)

def extractIds (r : SeriesRetreiver) (m : SeriesMatcher) : Except ParseFailure (List ParamId) :=
  if r.series ≠ [] then
    let ids := (r.series.map m.matchName).filter (· ≠ 0)
    if ids = [] then .error (.error ⟨.notFound, ""⟩) else .ok (ids.map Int64.toUInt64)
  else
    match r.metric with
    | [] => .ok ((allIds m).map Int64.toUInt64)
    | first :: tail =>
      match m.search first r.tags with
      | none => .error (.fatal "Invalid index state")
      | some results => do
        let ids := results.map Prod.snd
        let rest ← metricIds m first tail ids
        .ok ((ids ++ rest).map Int64.toUInt64)

end SeriesRetreiver

/-- The tags of an object of the where clause, each with a space behind it. -/
def objectText (object : PTree) : Text :=
  object.children.flatMap fun tgv => tgv.1.toList ++ '=' :: tgv.2.data.toList ++ [' ']

/-- A rejected tag or name is passed over. -/
def orUnchanged (r : SeriesRetreiver) (res : Except Status SeriesRetreiver) : SeriesRetreiver :=
  match res with
  | .ok r' => r'
  | .error _ => r

/-- One item of the where clause. -/
def whereItem (metrics : List Text) (r : SeriesRetreiver) (item : String × PTree) :
    SeriesRetreiver :=
  if item.1 = "" then
    metrics.foldl
      (fun r m => orUnchanged r (r.addSeriesName (m ++ ' ' :: objectText item.2))) r
  else if item.2.children ≠ [] then
    orUnchanged r (r.addTags item.1.toList (item.2.children.map fun node => node.2.data.toList))
  else orUnchanged r (r.addTags item.1.toList [item.2.data.toList])

/-- What the where clause selects, given the metrics of the query. -/
def whereRetreiver (ptree : PTree) (metrics : List Text) : SeriesRetreiver :=
  match ptree.child "where" with
  | some w => w.children.foldl (whereItem metrics) (.new metrics)
  | none => .new metrics

def parseWhereClause (ptree : PTree) (metrics : List Text) (m : SeriesMatcher) :
    Except ParseFailure (List ParamId) :=
  if (ptree.child "where").isSome ∧ metrics = [] then
    .error (.error ⟨.queryParsingError, "Invalid where clause, metric is not set"⟩)
  else (whereRetreiver ptree metrics).extractIds m

/-! ## Other statements -/

def uniqueStmts : List String :=
  ["select", "aggregate", "join", "group-aggregate", "group-aggregate-join", "select-events"]

def allowedStmts : List String :=
  ["select", "aggregate", "join", "output", "order-by", "group-by", "group-by-tag",
    "pivot-by-tag", "limit", "offset", "range", "where", "group-aggregate",
    "group-aggregate-join", "apply", "eval", "filter", "select-events"]

/-- The loop of `validate_query`; nothing is put into `keywords`. -/
def validateItems (keywords : List String) : List (String × PTree) → Except QueryError Unit
  | [] => .ok ()
  | (keyword, _) :: items =>
    if keyword ∉ allowedStmts then
      parsingError s!"Query object contains unexpected field `{keyword}`"
    else if keyword ∈ keywords then
      parsingError s!"Query object contains duplicate field `{keyword}`"
    else
      match uniqueStmts.find? fun kw => keywords.contains kw with
      | some kw => parsingError s!"Field `{keyword}` can't be used with `{kw}`"
      | none => validateItems keywords items

def validateQuery (ptree : PTree) : Except QueryError Unit := validateItems [] ptree.children

/-- What the fields of a query should be. -/
structure ValidFields (fields : List String) : Prop where
  allowed : ∀ field ∈ fields, field ∈ allowedStmts
  distinct : fields.Nodup
  one_kind : (fields.filter (· ∈ uniqueStmts)).length ≤ 1

theorem validateItems_ok (items : List (String × PTree)) :
    validateItems [] items = .ok () ↔ ∀ field ∈ items.map Prod.fst, field ∈ allowedStmts := by
  induction items with
  | nil => simp [validateItems]
  | cons item items ih =>
    rw [List.map_cons, List.forall_mem_cons, ← ih, validateItems]
    by_cases h : item.1 ∈ allowedStmts
    · simp [h, uniqueStmts]
    · simp [h, parsingError]

/-- The answer is right exactly if some field is not known or the fields are as they should be: a
field that comes twice is not noticed, nor is a second kind of query. -/
theorem validateQuery_right_iff (ptree : PTree) :
    let fields := ptree.children.map Prod.fst
    (validateQuery ptree = .ok () ↔ ValidFields fields) ↔
      (∃ field ∈ fields, field ∉ allowedStmts) ∨ ValidFields fields := by
  intro fields
  rw [validateQuery, validateItems_ok]
  constructor
  · intro h
    by_cases hall : ∀ field ∈ fields, field ∈ allowedStmts
    · exact .inr (h.mp hall)
    · push Not at hall
      exact .inl hall
  · rintro (⟨field, hmem, hnot⟩ | h)
    · exact ⟨fun hall => absurd (hall field hmem) hnot, fun h => absurd (h.allowed field hmem) hnot⟩
    · exact ⟨fun _ => h, fun h => h.allowed⟩

/-- A query with two selections, and one that is a selection and a join. -/
theorem validateQuery_two_kinds :
    let twice := .node "" [("select", .node "cpu" []), ("select", .node "mem" [])]
    let both := .node "" [("select", .node "cpu" []), ("join", .node "" [])]
    (validateQuery twice = .ok () ∧ ¬ ValidFields (twice.children.map Prod.fst)) ∧
      validateQuery both = .ok () ∧ ¬ ValidFields (both.children.map Prod.fst) := by
  refine ⟨⟨rfl, fun h => ?_⟩, rfl, fun h => ?_⟩
  · exact absurd h.distinct (by decide)
  · exact absurd h.one_kind (by decide)

/-- The loop of `parse_join_stmt`. -/
def joinMetrics : List (String × PTree) → Except QueryError (List Text)
  | [] => .ok []
  | item :: items =>
    let str := item.2.data.toList
    if str ≠ [] ∧ str.head? ≠ some '!' then (joinMetrics items).map (str :: ·)
    else parsingError "Metric name can't be empty or start with '!' symbol"

def parseJoinStmt (ptree : PTree) : Except QueryError (List Text) := do
  let result ← joinMetrics ((ptree.child "join").elim [] PTree.children)
  if result = [] then parsingError "Metric name should be set" else .ok result

def parseOrderby (ptree : PTree) : Except QueryError OrderBy :=
  match ptree.child "order-by" with
  | none => .ok .time
  | some orderby =>
    if orderby.data = "time" then .ok .time
    else if orderby.data = "series" then .ok .series
    else parsingError s!"Unexpected `order-by` field value `{orderby.data}`"

inductive GroupByOpType where
  | pivot | group
  deriving DecidableEq, Repr

def parseGroupby (ptree : PTree) : List Text × GroupByOpType :=
  let (groupby, op) : Option PTree × GroupByOpType :=
    match ptree.child "group-by" with
    | some g => (some g, .pivot)
    | none =>
      match ptree.child "pivot-by-tag" with
      | some g => (some g, .pivot)
      | none => (ptree.child "group-by-tag", .group)
  ((groupby.elim [] PTree.children).map fun item => item.2.data.toList, op)

/-- The variables of `parse_range_timestamp`. -/
structure RangeParse where
  beginTs : Option Timestamp
  endTs : Option Timestamp
  error : Bool
  fmt : String

section Range
variable {V : Type} (env : ParseEnv V)

def rangeItem (s : RangeParse) (child : String × PTree) : RangeParse :=
  let isoString := child.2.data
  if child.1 = "from" then
    match env.fromIsoString isoString with
    | .ok ts => { s with beginTs := some ts }
    | .error what =>
      { s with
        error := true
        fmt := s.fmt ++ s!"can't parse {isoString} as begin timestamp, {what}" }
  else if child.1 = "to" then
    match env.fromIsoString isoString with
    | .ok ts => { s with endTs := some ts }
    | .error what =>
      { s with
        error := true
        fmt := s.fmt ++ (if s.beginTs.isNone then ", " else "") ++
          s!"can't parse {isoString} as end timestamp, {what}" }
  else s

def parseRangeTimestamp (ptree : PTree) (allowEmpty : Bool) :
    Except QueryError (Timestamp × Timestamp) :=
  let s := ((ptree.child "range").elim [] PTree.children).foldl (rangeItem env)
    ⟨none, none, false, ""⟩
  match s.beginTs, s.endTs with
  | some b, some e => .ok (b, e)
  | b, e =>
    if allowEmpty ∧ b = none ∧ e = none ∧ s.error = false then .ok (minTimestamp, maxTimestamp)
    else if s.error then parsingError ("Range field error: " ++ s.fmt)
    else parsingError "Range field is not set"

end Range

/-! ## Filters -/

section Filters
variable {V : Type} (env : ParseEnv V)

def filterNames : List (String × Cmp) := [("gt", .gt), ("lt", .lt), ("ge", .ge), ("le", .le)]

/-- The comparisons of one metric; stops at a value that is no number. -/
def parseComparisons (child : PTree) : List (String × Cmp) → Filter V → Filter V × Bool
  | [], f => (f, true)
  | (name, c) :: names, f =>
    match child.child name with
    | none => parseComparisons child names f
    | some item =>
      let f := { f with flags := fun c' => if c' = c then true else f.flags c' }
      match env.lexicalCast item.data with
      | none => (f, false)
      | some v =>
        parseComparisons child names
          { f with enabled := true, bounds := fun c' => if c' = c then v else f.bounds c' }

/-- The variables of `parse_filter`. -/
structure FilterParse (V : Type) where
  badArg : Bool
  filters : List (Filter V)
  found : Bool
  nfound : Nat
  error : String

/-- Parse the comparisons of the metric into its filter. -/
def filterMetric (s : FilterParse V) (metric : Text) (f : Filter V) (child : Option PTree) :
    FilterParse V :=
  match child with
  | none => { s with filters := s.filters ++ [f] }
  | some child =>
    match parseComparisons env child filterNames f with
    | (f, true) => { s with filters := s.filters ++ [f], found := true, nfound := s.nfound + 1 }
    | (f, false) =>
      { badArg := true, filters := s.filters ++ [f], found := false, nfound := 0
        error := s.error ++ s!"Query object filter field: {String.ofList metric}" ++
          " has bad value, can't parse floating point" }

/-- `get_child_optional` for a path. -/
def PTree.descend (t : PTree) : List String → Option PTree
  | [] => some t
  | key :: keys => (t.child key).bind fun c => c.descend keys

def parseCombiner : List (String × PTree) → FilterCombinationRule →
    Except String FilterCombinationRule
  | [], rule => .ok rule
  | (key, sub) :: subs, _ =>
    if key = "require" then
      if sub.data = "all" then parseCombiner subs .all
      else if sub.data = "any" then parseCombiner subs .any
      else .error s!"Query object filter field has unknown filter combiner {sub.data}"
    else .error s!"Unknown filter meta key{key}"

def parseFilter (ptree : PTree) (metrics : List Text) :
    Except QueryError (List (Filter V) × FilterCombinationRule) :=
  let none' : Filter V := ⟨false, fun _ => false, fun _ => env.zero⟩
  match ptree.child "filter" with
  | none => .ok (metrics.map fun _ => none', .all)
  | some filter =>
    let s := metrics.foldl
      (fun s metric => filterMetric env s metric none'
        (filter.descend ((String.ofList metric).splitOn ":")))
      ⟨false, [], false, 0, ""⟩
    let rule :=
      if 1 < s.nfound then
        parseCombiner ((filter.child "=").elim [] PTree.children) .all
      else .ok .all
    match rule with
    | .error e => parsingError (s.error ++ e)
    | .ok rule =>
      let s :=
        match s.found, metrics with
        | false, [metric] =>
          filterMetric env { s with filters := [] } metric (s.filters.headD none') (some filter)
        | _, _ => s
      if s.badArg then .error ⟨.badArg, s.error⟩ else .ok (s.filters, rule)

end Filters

/-! ## Join queries -/

/-- Cut the ids into `ncolumns` columns of `nentries` ids. -/
def cutColumns (nentries : Nat) : Nat → List ParamId → List (List ParamId)
  | 0, _ => []
  | ncolumns + 1, ids => ids.take nentries :: cutColumns nentries ncolumns (ids.drop nentries)

/-- The names of the joined series, with the ids of the first metric. -/
def initMatcherInJoinQuery (columns : List (List ParamId)) (m : SeriesMatcher)
    (metrics : List Text) : Except QueryError (List (Text × ParamId)) :=
  if columns.length < 2 then
    .error ⟨.badArg, "Can't initialize matcher. Query is not a `JOIN` query."⟩
  else if columns.length ≠ metrics.length then
    .error ⟨.badArg, "Can't initialize matcher. Invalid metric names."⟩
  else
    (columns.headD []).mapM fun id =>
      let name := m.id2str id.toInt64
      let first := metrics.headD []
      if first.isPrefixOf name then
        .ok (['|'].intercalate metrics ++ name.drop first.length, id)
      else .error ⟨.badData, "Matcher initialization failed. Invalid metric names."⟩

section JoinQuery
variable {V : Type} (env : ParseEnv V)

def liftError {α : Type} (res : Except QueryError α) : Except ParseFailure α :=
  res.mapError .error

/-- `parse_join_query`: the request and the names of its `select.matcher`. -/
def parseJoinQuery (ptree : PTree) (m : SeriesMatcher) :
    Except ParseFailure (ReshapeRequest V × List (Text × ParamId)) := do
  liftError (validateQuery ptree)
  let metrics ← liftError (parseJoinStmt ptree)
  let order ← liftError (parseOrderby ptree)
  let ids ← parseWhereClause ptree metrics m
  let (tsBegin, tsEnd) ← liftError (parseRangeTimestamp env ptree false)
  if (parseGroupby ptree).1 ≠ [] then
    .error (.error ⟨.queryParsingError, "Group-by-tag/pivot-by-tag is not supported"⟩)
  else
    let (filters, rule) ← liftError (parseFilter env ptree metrics)
    let ncolumns := metrics.length
    let nentries := ids.length / ncolumns
    if ids.length % ncolumns ≠ 0 then
      .error (.fatal "Invalid `where` statement processing results")
    else
      let columns := cutColumns nentries ncolumns ids
      let names ← liftError (initMatcherInJoinQuery columns m metrics)
      .ok ({ agg := ⟨false, [], 0⟩
             select := ⟨columns, filters, rule, tsBegin, tsEnd, false, ""⟩
             groupBy := ⟨false, fun _ => none⟩
             orderBy := order }, names)

end JoinQuery
end FastSTDB
