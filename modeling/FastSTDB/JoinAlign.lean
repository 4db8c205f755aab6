import Mathlib.Data.List.TakeWhile
import FastSTDB.Lib.Pairs
import FastSTDB.QueryParser

/-
  Join queries — which series stand in one row

  A row of a join should consist of the series of one tag set, one for each metric.
  With tags and values in the where clause this holds: the ids are collected metric
  by metric. With a list of tag objects they are collected object by object, names
  that are not stored are left out, and the list is cut as if it went by metrics.

  1. `extractIds_search` — without a list of objects, the ids are found
     metric by metric.
  2. `retreiver_collected` — what the names of the where clause are, if there are any.
  3. `join_aligned` — the rows are right if the names of the list that are stored are
     those of one tag set and all metrics; for plain metrics, only then.
  4. `where_ids_iff` — when the number of ids is a multiple of the number of metrics, which
     `parse_join_query` and `parse_group_aggregate_join_query` take for granted.
-/
namespace FastSTDB
open List SeriesRetreiver SeriesMatcher
open CanonicalName (text)

variable {ids : List ParamId} {r : SeriesRetreiver}

def seriesName (metric tags : Text) : Text := metric ++ ' ' :: tags

/-- Each column belongs to its metric and each row to a tag set: the ids are those of the series
with that metric and these tags, 0 if there is none. -/
def AlignedColumns (m : SeriesMatcher) (metrics : List Text) (columns : List (List ParamId)) :
    Prop :=
  ∃ tags : List Text, columns =
    metrics.map fun metric => tags.map fun t => (m.matchName (seriesName metric t)).toUInt64

/-- The names that are stored are those of all metrics with one tag set, in the order of the
metrics. -/
def OneTagSet (m : SeriesMatcher) (metrics names : List Text) : Prop :=
  ∃ tags, (names.filter fun name => m.matchName name ≠ 0) = metrics.map (seriesName · tags)

/-! ## Columns -/

section Columns

theorem cutColumns_flatMap {n : Nat} (metrics : List Text) {f : Text → List ParamId}
    (hf : ∀ metric, (f metric).length = n) :
    cutColumns n metrics.length (metrics.flatMap f) = metrics.map f := by
  induction metrics with
  | nil => rfl
  | cons metric metrics ih =>
    rw [length_cons, cutColumns, flatMap_cons, map_cons,
      take_left' (hf metric), drop_left' (hf metric), ih]

theorem cutColumns_flatten {n k : Nat} (h : ids.length = k * n) :
    (cutColumns n k ids).flatten = ids := by
  induction k generalizing ids with
  | zero =>
    rw [zero_mul] at h
    rw [length_eq_zero_iff.mp h]
    rfl
  | succ k ih =>
    rw [Nat.succ_mul] at h
    rw [cutColumns, flatten_cons, ih (by rw [length_drop]; omega), take_append_drop]

end Columns

/-! ## Series found by tags -/

section Search
variable {m : SeriesMatcher}

theorem takeWhile_seriesName {metric tags : Text} (h : ' ' ∉ metric) :
    (seriesName metric tags).takeWhile (· != ' ') = metric := by
  have hne : ∀ c ∈ metric, (c != ' ') = true :=
    fun c hc => bne_iff_ne.mpr (ne_of_mem_of_not_mem hc h)
  simp [seriesName, takeWhile_append_of_pos hne]

/-- A stored name with the metric of a query is that metric and tags. -/
theorem SeriesMatcher.WellFormed.split (hm : m.WellFormed) {name metric : Text}
    (hname : name ∈ m.index.pool) (hcheck : checkMetric metric name = true) :
    name = seriesName metric (name.drop (metric.length + 1)) := by
  obtain ⟨c, rfl, htags, a, rest, hmetric, ha⟩ := hm.canonical name hname
  obtain ⟨tag, tags, hcons⟩ := exists_cons_of_ne_nil htags
  have hhead : c.text = a :: (rest ++ tagText c.tags) := by rw [text, hmetric, cons_append]
  have hskip : skipSpace c.text = c.text := by
    rw [hhead, skipSpace, dropWhile_cons, ha]
    rfl
  have hspace : ' ' ∈ c.text := by
    rw [text, hcons, tagText]
    simp
  have htake : c.text.takeWhile (fun c => c != ' ') = metric := by
    rw [checkMetric, skipMetricName, hskip] at hcheck
    split at hcheck
    · cases hcheck
    · exact eq_of_beq hcheck
  -- the metric is what stands before the first space
  obtain ⟨front, tail, htext, hfront⟩ := eq_append_cons_of_mem hspace
  obtain rfl : front = metric := by
    rw [← htake, htext]
    exact (takeWhile_seriesName hfront).symm
  rw [htext]
  simp [seriesName]

variable {first : Text}

/-- The ids of the other metrics are looked up by the tags of the first one. -/
theorem SeriesRetreiver.metricIds_eq (tail : List Text) {ids : List Int64}
    (hids : ∀ id ∈ ids, m.id2str id ≠ []) : metricIds m first tail ids =
      .ok (tail.flatMap fun metric => ids.map fun id =>
        m.matchName (metric ++ (m.id2str id).drop first.length)) := by
  induction tail with
  | nil => rfl
  | cons metric tail ih =>
    rw [metricIds, ih, Pairs.mapM_pure (forall₂_same.mpr ?_)]
    rotate_left 2
    · exact fun id hid => if_neg (hids id hid)
    · rfl

theorem mapM_length {ε α β : Type} {f : α → Except ε β} {l : List α} {found : List β}
    (h : l.mapM f = .ok found) : found.length = l.length := by
  induction l generalizing found with
  | nil => cases h; rfl
  | cons a l ih =>
    rw [mapM_cons] at h
    obtain ⟨b, -, h⟩ := bind_eq_ok h
    obtain ⟨rest, hrest, h⟩ := bind_eq_ok h
    cases h
    rw [length_cons, length_cons, ih hrest]

theorem SeriesRetreiver.metricIds_length {tail : List Text} {found rest : List Int64}
    (h : metricIds m first tail found = .ok rest) : rest.length = tail.length * found.length := by
  induction tail generalizing rest with
  | nil => cases h; simp
  | cons metric tail ih =>
    obtain ⟨ids, hids, h⟩ := bind_eq_ok h
    obtain ⟨others, hothers, h⟩ := bind_eq_ok h
    cases h
    rw [length_append, mapM_length hids, ih hothers, length_cons, Nat.succ_mul, add_comm]

/-- Without series names, the ids are those of the found tag sets, metric by metric. -/
theorem SeriesRetreiver.extractIds_search (hm : m.WellFormed) {tail : List Text}
    (hmetric : r.metric = first :: tail) (hseries : r.series = []) (h : r.extractIds m = .ok ids) :
    ∃ found : List Text, ids = (first :: tail).flatMap fun metric =>
      found.map fun t => (m.matchName (seriesName metric t)).toUInt64 := by
  rw [extractIds, if_neg (not_not.mpr hseries), hmetric] at h
  dsimp only at h
  cases hsearch : m.search first r.tags with
  | none => rw [hsearch] at h; cases h
  | some results =>
    rw [hsearch] at h
    dsimp only at h
    -- each result is the id of the first metric with some tags, and leads back to its name
    have hresult : ∀ r ∈ results, r.1 = seriesName first (r.1.drop (first.length + 1)) ∧
        m.matchName r.1 = r.2 ∧ m.id2str r.2 = r.1 := by
      intro r hr
      obtain ⟨hpool, hcheck, hlookup⟩ := search_sound hsearch hr
      have hmatch : m.matchName r.1 = r.2 := by rw [matchName, hlookup]; rfl
      obtain ⟨id, hid, hne, -⟩ := hm.named r.1 hpool
      rw [hlookup] at hid
      cases hid
      refine ⟨hm.split hpool hcheck, hmatch, ?_⟩
      have hback : m.id2str (m.matchName r.1) = r.1 := hm.back (by rw [hmatch]; exact hne)
      rwa [hmatch] at hback
    have hnames : ∀ id ∈ results.map Prod.snd, m.id2str id ≠ [] := by
      intro id hid
      obtain ⟨r, hr, rfl⟩ := mem_map.mp hid
      obtain ⟨hname, -, hback⟩ := hresult r hr
      rw [hback, hname, seriesName]
      simp
    rw [metricIds_eq tail hnames] at h
    cases h
    refine ⟨results.map fun r => r.1.drop (first.length + 1), ?_⟩
    have hfirst : results.map Prod.snd = results.map fun r =>
        m.matchName (seriesName first (r.1.drop (first.length + 1))) := by
      apply map_congr_left
      intro r hr
      obtain ⟨hname, hmatch, -⟩ := hresult r hr
      rw [← hname, hmatch]
    have hothers : ∀ metric : Text, ((results.map Prod.snd).map fun id =>
        m.matchName (metric ++ (m.id2str id).drop first.length)) = results.map fun r =>
          m.matchName (seriesName metric (r.1.drop (first.length + 1))) := by
      intro metric
      rw [map_map]
      apply map_congr_left
      intro r hr
      obtain ⟨hname, -, hback⟩ := hresult r hr
      have hdrop : r.1.drop first.length = ' ' :: r.1.drop (first.length + 1) := by
        conv => lhs; rw [hname]
        rw [seriesName, drop_left]
      show m.matchName (metric ++ (m.id2str r.2).drop first.length) = _
      rw [hback, hdrop, seriesName]
    simp only [hothers]
    rw [hfirst, map_append, map_flatMap]
    simp only [map_map]
    rfl

end Search

/-! ## Series named by a list of objects -/

section Names
variable {m : SeriesMatcher} {metrics : List Text}

/-- The names of one object that have a canonical form. -/
def objectNames (metrics : List Text) (object : PTree) : List Text :=
  metrics.filterMap fun metric =>
    (toCanonicalForm (metric ++ ' ' :: objectText object)).map text

def objectsOf (items : List (String × PTree)) : List PTree :=
  (items.filter fun item => item.1 = "").map Prod.snd

def whereItems (ptree : PTree) : List (String × PTree) :=
  (ptree.child "where").elim [] PTree.children

def whereObjects (ptree : PTree) : List PTree := objectsOf (whereItems ptree)

theorem whereItem_object (h : r.tags = []) (object : PTree) : metrics.foldl (fun r metric =>
      orUnchanged r (r.addSeriesName (metric ++ ' ' :: objectText object))) r =
      { r with series := r.series ++ objectNames metrics object } := by
  induction metrics generalizing r with
  | nil => simp [objectNames]
  | cons metric metrics ih =>
    rw [foldl_cons, addSeriesName, if_neg (by simp [h])]
    cases hc : toCanonicalForm (metric ++ ' ' :: objectText object) with
    | none =>
      rw [show orUnchanged r (.error .badData) = r from rfl, ih h]
      simp [objectNames, hc]
    | some c =>
      have hnext : (⟨r.metric, r.tags, r.series ++ [c.text]⟩ : SeriesRetreiver).tags = [] := h
      refine (ih hnext).trans ?_
      simp [objectNames, hc]

theorem whereItem_object_tags (h : r.tags ≠ []) (object : PTree) : metrics.foldl (fun r metric =>
      orUnchanged r (r.addSeriesName (metric ++ ' ' :: objectText object))) r = r := by
  induction metrics with
  | nil => rfl
  | cons metric metrics ih =>
    rw [foldl_cons, addSeriesName, if_pos h]
    exact ih

theorem insertTagValues_ne_nil (name : Text) (values : List Text) (tags : List (Text × List Text)) :
    insertTagValues name values tags ≠ [] := by
  cases tags with
  | nil => simp [insertTagValues]
  | cons kv tags =>
    rw [insertTagValues]
    split <;> simp

/-- Adding tags either changes nothing or leaves a retreiver with tags and without names. -/
theorem addTags_cases (name : Text) (values : List Text) :
    orUnchanged r (r.addTags name values) = r ∨ (orUnchanged r (r.addTags name values)).tags ≠ [] ∧
        (orUnchanged r (r.addTags name values)).series = [] := by
  rw [addTags]
  split
  · exact .inl rfl
  · split
    · exact .inl rfl
    · split
      · exact .inl rfl
      next hseries _ => exact .inr ⟨insertTagValues_ne_nil _ _ _, not_not.mp hseries⟩

/-- A retreiver has tags and no names, or no tags and the names of all objects so far. -/
def Collected (metrics : List Text) (items : List (String × PTree)) (r : SeriesRetreiver) : Prop :=
  r.tags ≠ [] ∧ r.series = [] ∨
    r.tags = [] ∧ r.series = (objectsOf items).flatMap (objectNames metrics)

theorem Collected.step {items : List (String × PTree)} (h : Collected metrics items r)
    (item : String × PTree) : Collected metrics (items ++ [item]) (whereItem metrics r item) := by
  rw [whereItem]
  by_cases hkey : item.1 = ""
  · rw [if_pos hkey]
    rcases h with ⟨htags, hseries⟩ | ⟨htags, hseries⟩
    · rw [whereItem_object_tags htags]
      exact .inl ⟨htags, hseries⟩
    · rw [whereItem_object htags]
      refine .inr ⟨htags, ?_⟩
      simp [objectsOf, hkey, hseries]
  · rw [if_neg hkey]
    have hobjects : objectsOf (items ++ [item]) = objectsOf items := by simp [objectsOf, hkey]
    -- whatever the values are
    have hadd : ∀ values, Collected metrics (items ++ [item])
        (orUnchanged r (r.addTags item.1.toList values)) := by
      intro values
      rcases addTags_cases item.1.toList values with hsame | ⟨htags, hseries⟩
      · rw [hsame, Collected, hobjects]
        exact h
      · exact .inl ⟨htags, hseries⟩
    split
    · exact hadd _
    · exact hadd _

theorem whereRetreiver_eq (ptree : PTree) (metrics : List Text) : whereRetreiver ptree metrics =
    (whereItems ptree).foldl (whereItem metrics) (.new metrics) := by
  rw [whereRetreiver, whereItems]
  cases ptree.child "where" <;> rfl

/-- If the where clause names series, they are the names of its objects, object by object. -/
theorem retreiver_collected (ptree : PTree) (metrics : List Text) :
    Collected metrics (whereItems ptree) (whereRetreiver ptree metrics) := by
  have hrun : ∀ items done r, Collected metrics done r →
      Collected metrics (done ++ items) (items.foldl (whereItem metrics) r) := by
    intro items
    induction items with
    | nil => intro done r hr; simpa using hr
    | cons item items ih =>
      intro done r hr
      have hnext := ih (done ++ [item]) _ (hr.step item)
      rwa [append_assoc] at hnext
  rw [whereRetreiver_eq]
  exact hrun (whereItems ptree) [] (.new metrics) (.inr ⟨rfl, rfl⟩)

/-- A list of objects gives no tags. -/
theorem retreiver_objects {ptree : PTree} (h : ∀ item ∈ whereItems ptree, item.1 = "") :
    (whereRetreiver ptree metrics).series = (whereObjects ptree).flatMap (objectNames metrics) := by
  have htags : (whereRetreiver ptree metrics).tags = [] := by
    have hrun : ∀ items : List (String × PTree), (∀ item ∈ items, item.1 = "") →
        ∀ r : SeriesRetreiver, r.tags = [] → (items.foldl (whereItem metrics) r).tags = [] := by
      intro items
      induction items with
      | nil => exact fun _ r hr => hr
      | cons item items ih =>
        intro hitems r hr
        obtain ⟨hitem, hitems⟩ := forall_mem_cons.mp hitems
        refine ih hitems _ ?_
        rw [whereItem, if_pos hitem, whereItem_object hr]
        exact hr
    rw [whereRetreiver_eq]
    exact hrun _ h _ rfl
  rcases retreiver_collected ptree metrics with ⟨hne, -⟩ | ⟨-, hseries⟩
  · exact absurd htags hne
  · exact hseries

theorem whereRetreiver_metric (ptree : PTree) (metrics : List Text) :
    (whereRetreiver ptree metrics).metric = metrics := by
  have hfold : ∀ {α : Type} {f : SeriesRetreiver → α → SeriesRetreiver},
      (∀ r a, (f r a).metric = r.metric) → ∀ (l : List α) r, (l.foldl f r).metric = r.metric := by
    intro α f hf l
    induction l with
    | nil => exact fun r => rfl
    | cons a l ih => intro r; rw [foldl_cons, ih, hf]
  have htags : ∀ (r : SeriesRetreiver) name values,
      (orUnchanged r (r.addTags name values)).metric = r.metric := by
    intro r name values
    rw [addTags]
    split
    · rfl
    · split
      · rfl
      · split <;> rfl
  have hname : ∀ (r : SeriesRetreiver) name,
      (orUnchanged r (r.addSeriesName name)).metric = r.metric := by
    intro r name
    rw [addSeriesName]
    split
    · rfl
    · split <;> rfl
  rw [whereRetreiver]
  split
  · refine hfold (fun r item => ?_) _ _
    rw [whereItem]
    split
    · exact hfold (fun r metric => hname r _) metrics r
    · split <;> exact htags _ _ _
  · rfl

/-- The tags of the names of an object; for plain metrics they depend on the object only. -/
def objectTags (object : PTree) : Option Text :=
  (canonicalTags (' ' :: objectText object)).map fun tags => (tagText tags).tail

theorem objectNames_plain {object : PTree} (hplain : ∀ metric ∈ metrics, PlainMetric metric)
    (hfit : ∀ metric ∈ metrics, (metric ++ ' ' :: objectText object).length ≤ limitsMaxSname) :
    objectNames metrics object =
      (objectTags object).elim [] fun tags => metrics.map (seriesName · tags) := by
  have hform : ∀ metric ∈ metrics, (toCanonicalForm (metric ++ ' ' :: objectText object)).map text =
        (objectTags object).map (seriesName metric) := by
    intro metric hmem
    rw [toCanonicalForm_plain (hplain metric hmem) (hfit metric hmem), objectTags]
    cases htags : canonicalTags (' ' :: objectText object) with
    | none => rfl
    | some tags =>
      obtain ⟨tag, rest, rfl⟩ := exists_cons_of_ne_nil (canonicalTags_ne_nil htags)
      rfl
  rw [objectNames, filterMap_congr hform]
  cases objectTags object with
  | none => simp
  | some tags => simp

/-- A plain metric and the tags can be read off a name. -/
theorem seriesName_inj {metric metric' tags tags' : Text} (h : ' ' ∉ metric) (h' : ' ' ∉ metric')
    (heq : seriesName metric tags = seriesName metric' tags') :
    metric = metric' ∧ tags = tags' := by
  obtain rfl : metric = metric' := by rw [← takeWhile_seriesName h, heq, takeWhile_seriesName h']
  exact ⟨rfl, tail_eq_of_cons_eq (append_cancel_left heq)⟩

theorem SeriesMatcher.WellFormed.map_injective (hm : m.WellFormed) :
    ∀ {names names' : List Text}, (∀ name ∈ names, m.matchName name ≠ 0) →
      (names.map fun name => (m.matchName name).toUInt64) =
        names'.map (fun name => (m.matchName name).toUInt64) → names = names' := by
  intro names
  induction names with
  | nil =>
    intro names' _ heq
    exact (map_eq_nil_iff.mp heq.symm).symm
  | cons name names ih =>
    intro names' hne heq
    cases names' with
    | nil => cases heq
    | cons name' names' =>
      rw [map_cons, map_cons, cons.injEq] at heq
      have hid : m.matchName name = m.matchName name' := congrArg Int64.ofUInt64 heq.1
      rw [hm.injective (hne name mem_cons_self) hid, ih (forall_mem_cons.mp hne).2 heq.2]

/-- If names collected object by object are also ordered metric by metric, there is one tag set:
the second name belongs to the second metric. -/
theorem one_tag_set {stored : Text → Bool} (hlen : 2 ≤ metrics.length) (hnodup : metrics.Nodup)
    (hspace : ∀ metric ∈ metrics, ' ' ∉ metric) {objects : List (Option Text)} {tags : List Text}
    (heq : (objects.flatMap fun o => o.elim [] fun t => metrics.map (seriesName · t)).filter stored =
      metrics.flatMap fun metric => tags.map (seriesName metric))
    (hne : tags ≠ []) : ∃ t, tags = [t] := by
  obtain ⟨first, second, rest, hmetrics⟩ : ∃ a b rest, metrics = a :: b :: rest := by
    match metrics, hlen with
    | a :: b :: rest, _ => exact ⟨a, b, rest, rfl⟩
  obtain ⟨t, tags, rfl⟩ := exists_cons_of_ne_nil hne
  induction objects with
  | nil => simp [hmetrics] at heq
  | cons o objects ih =>
    rw [flatMap_cons, filter_append] at heq
    by_cases hgroup : (o.elim [] fun t => metrics.map (seriesName · t)).filter stored = []
    · -- nothing of this object is stored
      rw [hgroup] at heq
      exact ih heq
    · cases o with
      | none => exact absurd rfl hgroup
      | some t0 =>
        dsimp only [Option.elim] at heq hgroup
        obtain ⟨name, names, hcons⟩ := exists_cons_of_ne_nil hgroup
        -- the first name tells that the tags of the object are the first tags
        have hname : name ∈ metrics.map (seriesName · t0) :=
          (mem_filter.mp (hcons ▸ mem_cons_self)).1
        obtain ⟨metric, hmetric, rfl⟩ := mem_map.mp hname
        have hfirst : seriesName metric t0 = seriesName first t := by
          rw [hcons, hmetrics] at heq
          exact head_eq_of_cons_eq heq
        have hspace1 := hspace first (by simp [hmetrics])
        obtain ⟨-, rfl⟩ := seriesName_inj (hspace metric hmetric) hspace1 hfirst
        -- so all names of the object are stored
        have hall : ∀ metric ∈ metrics, stored (seriesName metric t0) = true := by
          intro metric hmetric
          have hmem : seriesName metric t0 ∈ metrics.flatMap fun metric =>
              (t0 :: tags).map (seriesName metric) :=
            mem_flatMap.mpr ⟨metric, hmetric, mem_map.mpr ⟨t0, mem_cons_self, rfl⟩⟩
          rw [← heq, ← filter_append] at hmem
          exact (mem_filter.mp hmem).2
        have hfilter : (metrics.map (seriesName · t0)).filter stored =
            metrics.map (seriesName · t0) := by
          apply filter_eq_self.mpr
          intro name hname
          obtain ⟨metric, hmetric, rfl⟩ := mem_map.mp hname
          exact hall metric hmetric
        rw [hfilter, hmetrics] at heq
        cases tags with
        | nil => exact ⟨t0, rfl⟩
        | cons t' tags =>
          -- the second name would have the first metric
          have hsecond : seriesName second t0 = seriesName first t' :=
            head_eq_of_cons_eq (tail_eq_of_cons_eq heq)
          obtain ⟨rfl, -⟩ := seriesName_inj (hspace second (by simp [hmetrics])) hspace1 hsecond
          simp [hmetrics] at hnodup

end Names

/-! ## Join queries -/

section JoinQuery
variable {V : Type} {env : ParseEnv V} {ptree : PTree} {m : SeriesMatcher} {metrics : List Text}
  {req : ReshapeRequest V} {names : List (Text × ParamId)}

theorem liftError_eq_ok {α : Type} {res : Except QueryError α} {a : α} (h : liftError res = .ok a) :
    res = .ok a := by
  cases res with
  | error e => cases h
  | ok b => cases h; rfl

theorem length_cutColumns (n k : Nat) : (cutColumns n k ids).length = k := by
  induction k generalizing ids with
  | zero => rfl
  | succ k ih => rw [cutColumns, length_cons, ih]

theorem parseJoinQuery_columns (hjoin : parseJoinStmt ptree = .ok metrics)
    (h : parseJoinQuery env ptree m = .ok (req, names)) :
    ∃ ids, (whereRetreiver ptree metrics).extractIds m = .ok ids ∧ 2 ≤ metrics.length ∧
      ids.length = metrics.length * (ids.length / metrics.length) ∧
      req.select.columns = cutColumns (ids.length / metrics.length) metrics.length ids := by
  obtain ⟨-, -, h⟩ := bind_eq_ok h
  obtain ⟨metrics', hmetrics, h⟩ := bind_eq_ok h
  obtain rfl : metrics = metrics' := by
    have heq := liftError_eq_ok hmetrics
    rw [hjoin] at heq
    exact Except.ok.inj heq
  obtain ⟨order, -, h⟩ := bind_eq_ok h
  obtain ⟨ids, hids, h⟩ := bind_eq_ok h
  obtain ⟨⟨tsBegin, tsEnd⟩, -, h⟩ := bind_eq_ok h
  dsimp only at h
  split at h
  next => cases h
  next =>
    obtain ⟨⟨filters, rule⟩, -, h⟩ := bind_eq_ok h
    split at h
    next => cases h
    next hmod =>
      obtain ⟨names', hnames, h⟩ := bind_eq_ok h
      cases h
      have hextract : (whereRetreiver ptree metrics).extractIds m = .ok ids := by
        rw [parseWhereClause] at hids
        split at hids
        · cases hids
        · exact hids
      have htwo : ¬ metrics.length < 2 := by
        intro hlt
        rw [initMatcherInJoinQuery, length_cutColumns, if_pos hlt] at hnames
        cases hnames
      refine ⟨ids, hextract, not_lt.mp htwo, ?_, rfl⟩
      exact (Nat.mul_div_cancel' (Nat.dvd_of_mod_eq_zero (not_not.mp hmod))).symm

theorem aligned_of_ids {tags : List Text} (hlen : 0 < metrics.length)
    (hids : ids = metrics.flatMap fun metric =>
      tags.map fun t => (m.matchName (seriesName metric t)).toUInt64) :
    AlignedColumns m metrics (cutColumns (ids.length / metrics.length) metrics.length ids) := by
  have hlength : ids.length / metrics.length = tags.length := by
    rw [hids]
    simp only [length_flatMap, length_map, map_const', sum_replicate_nat]
    exact Nat.mul_div_cancel_left _ hlen
  refine ⟨tags, ?_⟩
  rw [hlength, hids]
  exact cutColumns_flatMap metrics fun metric => by rw [length_map]

theorem SeriesRetreiver.extractIds_names (hseries : r.series ≠ []) (h : r.extractIds m = .ok ids) :
    ids = (r.series.filter fun name => m.matchName name ≠ 0).map
      (fun name => (m.matchName name).toUInt64) ∧ ids ≠ [] := by
  rw [extractIds, if_pos hseries] at h
  dsimp only at h
  split at h
  next => cases h
  next hne =>
    cases h
    refine ⟨?_, fun hnil => hne (map_eq_nil_iff.mp hnil)⟩
    rw [filter_map, map_map]
    rfl

/-- A join query aligns its columns if its where clause names no series, or those it names and that
are stored are the series of one tag set. For plain and different metrics it does so only then. -/
theorem join_aligned (hm : m.WellFormed) (hjoin : parseJoinStmt ptree = .ok metrics)
    (h : parseJoinQuery env ptree m = .ok (req, names)) :
    ((whereRetreiver ptree metrics).series = [] ∨
        OneTagSet m metrics (whereRetreiver ptree metrics).series →
      AlignedColumns m metrics req.select.columns) ∧
    (metrics.Nodup → (∀ metric ∈ metrics, PlainMetric metric) →
      (∀ object ∈ whereObjects ptree, ∀ metric ∈ metrics,
        (metric ++ ' ' :: objectText object).length ≤ limitsMaxSname) →
      AlignedColumns m metrics req.select.columns → (whereRetreiver ptree metrics).series = [] ∨
          OneTagSet m metrics (whereRetreiver ptree metrics).series) := by
  obtain ⟨ids, hids, htwo, hlen, hcolumns⟩ := parseJoinQuery_columns hjoin h
  rw [hcolumns]
  constructor
  · intro hwhere
    by_cases hseries : (whereRetreiver ptree metrics).series = []
    · -- ids found by tags
      have hpos : 0 < metrics.length := by omega
      obtain ⟨first, tail, rfl⟩ := exists_cons_of_length_pos hpos
      obtain ⟨found, hfound⟩ := extractIds_search hm (whereRetreiver_metric ..) hseries hids
      exact aligned_of_ids (by simp) hfound
    · -- one row
      obtain ⟨tags, htags⟩ := hwhere.resolve_left hseries
      obtain ⟨hnames, -⟩ := extractIds_names hseries hids
      rw [htags] at hnames
      have hrow : ids = metrics.flatMap fun metric =>
          [tags].map fun t => (m.matchName (seriesName metric t)).toUInt64 := by
        rw [hnames, map_map, map_eq_flatMap]
        rfl
      exact aligned_of_ids (by omega) hrow
  · intro hnodup hplain hfit ⟨tags, haligned⟩
    by_cases hseries : (whereRetreiver ptree metrics).series = []
    · exact .inl hseries
    · right
      obtain ⟨hnames, hne⟩ := extractIds_names hseries hids
      obtain ⟨-, hobjects⟩ := (retreiver_collected ptree metrics).resolve_left fun h => hseries h.2
      -- the stored names, in the order of the columns
      have hflat : ids = (metrics.flatMap fun metric => tags.map (seriesName metric)).map
          fun name => (m.matchName name).toUInt64 := by
        rw [← cutColumns_flatten hlen, haligned, map_flatMap]
        simp only [map_map]
        rfl
      have hstored := hm.map_injective (fun name hname => by simpa using (mem_filter.mp hname).2)
        (hnames.symm.trans hflat)
      have hgroups : (whereRetreiver ptree metrics).series =
          ((whereObjects ptree).map objectTags).flatMap fun o =>
            o.elim [] fun t => metrics.map (seriesName · t) := by
        rw [hobjects, flatMap_map]
        apply flatMap_congr
        intro object hobject
        exact objectNames_plain hplain (hfit object hobject)
      have htags : tags ≠ [] := by
        rintro rfl
        apply hne
        rw [hflat]
        simp
      have hspace : ∀ metric ∈ metrics, ' ' ∉ metric := fun metric hmetric =>
        (hplain metric hmetric).no_space
      obtain ⟨t, rfl⟩ := one_tag_set htwo hnodup hspace (hgroups ▸ hstored) htags
      refine ⟨t, ?_⟩
      rw [hstored, map_eq_flatMap]
      rfl

/-! ### Two hosts -/

def twoNames (first second : String) : SeriesMatcher :=
  (((SeriesMatcher.new 1024).add first.toList).2.add second.toList).2

/-- Join `cpu` and `mem` for the given hosts. -/
def hostsQuery (hosts : List String) : PTree :=
  .node "" [("join", .node "" [("", .node "cpu" []), ("", .node "mem" [])]),
    ("range", .node "" [("from", .node "" []), ("to", .node "" [])]),
    ("where", .node "" (hosts.map fun host => ("", .node "" [("host", .node host [])])))]

def noEnv : ParseEnv Unit := ⟨fun _ => .ok 0, fun _ => none, ()⟩

theorem twoNames_wellFormed {second : String} {name : Text} {index : Index}
    (happend : ((SeriesMatcher.new 1024).add "cpu host=a".toList).2.index.append second.toList =
      (some name, index))
    (hhead : second.toList.head? = some 'm') (hnew : name ≠ "cpu host=a".toList) :
    (twoNames "cpu host=a" second).WellFormed := by
  have hone : ((SeriesMatcher.new 1024).add "cpu host=a".toList).2.WellFormed :=
    (wellFormed_new 1024).add rfl rfl (by simp [SeriesMatcher.new, Index.empty])
      (by decide) rfl
  have hid : (1025 : Int64) = if second.toList.head? = some '!' then -1025 else 1025 := by
    rw [hhead]
    rfl
  refine hone.add hid happend ?_ (by decide) rfl
  · intro hmem
    exact hnew (mem_singleton.mp hmem)

/-- One host with both metrics: one row. -/
theorem join_aligned_host : ∃ req names,
    parseJoinQuery noEnv (hostsQuery ["a"]) (twoNames "cpu host=a" "mem host=a") =
      .ok (req, names) ∧
    AlignedColumns (twoNames "cpu host=a" "mem host=a") ["cpu".toList, "mem".toList]
      req.select.columns := by
  have hjoin : parseJoinStmt (hostsQuery ["a"]) = .ok ["cpu".toList, "mem".toList] := rfl
  obtain ⟨req, names, h⟩ : ∃ req names, parseJoinQuery noEnv (hostsQuery ["a"])
      (twoNames "cpu host=a" "mem host=a") = .ok (req, names) := ⟨_, _, rfl⟩
  refine ⟨req, names, h, ?_⟩
  apply (join_aligned (twoNames_wellFormed rfl rfl (by decide)) hjoin h).1
  exact .inr ⟨"host=a".toList, rfl⟩

/-- Two hosts, each with one of the metrics: their series stand in one row. -/
theorem join_mixes_hosts : ∃ req names,
    parseJoinQuery noEnv (hostsQuery ["a", "b"]) (twoNames "cpu host=a" "mem host=b") =
      .ok (req, names) ∧ req.select.columns = [[1024], [1025]] ∧
    ¬ AlignedColumns (twoNames "cpu host=a" "mem host=b") ["cpu".toList, "mem".toList]
      req.select.columns := by
  refine ⟨_, _, rfl, rfl, ?_⟩
  rintro ⟨tags, haligned⟩
  have hm : (twoNames "cpu host=a" "mem host=b").WellFormed :=
    twoNames_wellFormed rfl rfl (by decide)
  have hcolumns : [[1024], [1025]] = ["cpu".toList, "mem".toList].map fun metric =>
      tags.map fun t =>
        ((twoNames "cpu host=a" "mem host=b").matchName (seriesName metric t)).toUInt64 := haligned
  rw [map_cons, cons.injEq, map_cons, cons.injEq] at hcolumns
  obtain ⟨hcpu, hmem, -⟩ := hcolumns
  obtain ⟨t, rfl⟩ : ∃ t, tags = [t] := by
    apply length_eq_one_iff.mp
    rw [← length_map, ← hcpu]
    rfl
  -- the id of the row's first series fixes its tags
  have hname : seriesName "cpu".toList "host=a".toList = seriesName "cpu".toList t :=
    hm.injective (by decide) (congrArg Int64.ofUInt64 (head_eq_of_cons_eq hcpu))
  obtain ⟨-, rfl⟩ := seriesName_inj (by decide) (by decide) hname
  exact absurd hmem (by decide)

/-! ### How many ids -/

/-- How many series of an object are stored, of one for each metric. -/
def storedCount (m : SeriesMatcher) (metrics : List Text) (object : PTree) : Nat :=
  (objectNames metrics object).countP fun name => m.matchName name ≠ 0

/-- Some of the series of the object are stored, but not all. -/
def partlyStored (m : SeriesMatcher) (metrics : List Text) (object : PTree) : Bool :=
  decide (0 < storedCount m metrics object ∧ storedCount m metrics object < metrics.length)

theorem storedCount_le (object : PTree) : storedCount m metrics object ≤ metrics.length :=
  countP_le_length.trans (length_filterMap_le _ _)

/-- Modulo the number of metrics, only the objects that are partly stored count. -/
theorem sum_storedCount (objects : List PTree) :
    (objects.map (storedCount m metrics)).sum % metrics.length =
      ((objects.filter (partlyStored m metrics)).map (storedCount m metrics)).sum %
        metrics.length := by
  induction objects with
  | nil => rfl
  | cons object objects ih =>
    rw [map_cons, sum_cons, Nat.add_mod, ih, filter_cons]
    split
    · rw [map_cons, sum_cons, ← Nat.add_mod]
    · next hpartly =>
      have hle : storedCount m metrics object ≤ metrics.length := storedCount_le object
      have hcount : storedCount m metrics object % metrics.length = 0 := by
        rw [partlyStored, decide_eq_true_iff] at hpartly
        rcases Nat.eq_zero_or_pos (storedCount m metrics object) with hzero | hpos
        · rw [hzero, Nat.zero_mod]
        · rw [show storedCount m metrics object = metrics.length by omega, Nat.mod_self]
      rw [hcount, zero_add, Nat.mod_mod]

/-- Ids that are found by tags are as many for each metric. -/
theorem searched_ids (hmetrics : metrics ≠ [])
    (hseries : (whereRetreiver ptree metrics).series = [])
    (h : (whereRetreiver ptree metrics).extractIds m = .ok ids) : ids.length % metrics.length = 0 := by
  rw [extractIds, if_neg (not_not.mpr hseries), whereRetreiver_metric] at h
  obtain ⟨first, tail, rfl⟩ := exists_cons_of_ne_nil hmetrics
  dsimp only at h
  split at h
  next => cases h
  next results _ =>
    obtain ⟨rest, hrest, h⟩ := bind_eq_ok h
    cases h
    rw [length_map, length_append, metricIds_length hrest, add_comm, ← Nat.succ_mul]
    exact Nat.mul_mod_right _ _

/-- The number of ids that the where clause gives is a multiple of the number of metrics, as the
parsers of join queries demand, for tags and their values. For a list of objects it is one exactly
if the stored series of the objects that are partly stored are; one such object is too few. -/
theorem where_ids_iff (hmetrics : metrics ≠ []) (h : parseWhereClause ptree metrics m = .ok ids) :
    ((∀ item ∈ whereItems ptree, item.1 ≠ "") → ids.length % metrics.length = 0) ∧
    ((∀ item ∈ whereItems ptree, item.1 = "") →
      let partly := (whereObjects ptree).filter (partlyStored m metrics)
      (ids.length % metrics.length = 0 ↔
        (partly.map (storedCount m metrics)).sum % metrics.length = 0) ∧
      (partly.length ≤ 1 → (ids.length % metrics.length = 0 ↔ partly = []))) := by
  rw [parseWhereClause, if_neg fun hw => hmetrics hw.2] at h
  constructor
  · intro hkeys
    refine searched_ids hmetrics ?_ h
    have hobjects : objectsOf (whereItems ptree) = [] := by
      rw [objectsOf, map_eq_nil_iff, filter_eq_nil_iff]
      exact fun item hitem => by simpa using hkeys item hitem
    rcases retreiver_collected ptree metrics with ⟨-, hnil⟩ | ⟨-, hnames⟩
    · exact hnil
    · rw [hnames, hobjects, flatMap_nil]
  · intro hkeys partly
    have hobjects : (whereRetreiver ptree metrics).series = _ := retreiver_objects hkeys
    have hcount : ids.length % metrics.length =
        (partly.map (storedCount m metrics)).sum % metrics.length := by
      rw [← sum_storedCount]
      by_cases hseries : (whereRetreiver ptree metrics).series = []
      · rw [searched_ids hmetrics hseries h,
          List.sum_eq_zero_iff_forall_eq_nat.mpr ?_, Nat.zero_mod]
        intro n hn
        obtain ⟨object, hobject, rfl⟩ := mem_map.mp hn
        rw [storedCount, flatMap_eq_nil_iff.mp (hobjects.symm.trans hseries) object hobject,
          countP_nil]
      · obtain ⟨hnames, -⟩ := extractIds_names hseries h
        rw [hnames, length_map, ← countP_eq_length_filter, hobjects, countP_flatMap]
        rfl
    rw [hcount]
    refine ⟨Iff.rfl, fun hle => ⟨fun hzero => ?_, fun hnil => by rw [hnil]; exact Nat.zero_mod _⟩⟩
    -- one object that is partly stored has less series than there are metrics
    by_contra hne
    obtain ⟨object, hone⟩ := length_eq_one_iff.mp (hle.antisymm (length_pos_iff.mpr hne))
    have hmem : object ∈ partly := hone ▸ mem_singleton_self object
    have hpartly := of_decide_eq_true (mem_filter.mp hmem).2
    rw [hone, map_singleton, sum_singleton, Nat.mod_eq_of_lt hpartly.2] at hzero
    omega

/-- A host with both metrics, and one without any: two ids. -/
theorem where_ids_hosts : ∃ ids,
    parseWhereClause (hostsQuery ["a", "c"]) ["cpu".toList, "mem".toList]
      (twoNames "cpu host=a" "mem host=a") = .ok ids ∧ ids.length % 2 = 0 := by
  have h : parseWhereClause (hostsQuery ["a", "c"]) ["cpu".toList, "mem".toList]
      (twoNames "cpu host=a" "mem host=a") = .ok [1024, 1025] := rfl
  exact ⟨_, h, ((where_ids_iff (cons_ne_nil _ _) h).2 (by decide)).1.mpr (by decide)⟩

/-- A host with one of the metrics: its id cannot be cut into two columns. -/
theorem where_ids_odd : parseWhereClause (hostsQuery ["b"]) ["cpu".toList, "mem".toList]
      (twoNames "cpu host=a" "mem host=b") = .ok [1025] ∧
    parseJoinQuery noEnv (hostsQuery ["b"]) (twoNames "cpu host=a" "mem host=b") =
      .error (.fatal "Invalid `where` statement processing results") := ⟨rfl, rfl⟩

end JoinQuery
end FastSTDB
