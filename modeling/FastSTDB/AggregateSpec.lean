import FastSTDB.Aggregate
import FastSTDB.SearchSpec
import FastSTDB.Summary

/-
  Aggregating — what the operators below `aggregate` deliver

  An item of an aggregating operator is a list of points, its output one result
  for them (`results`). The operator over a subtree delivers at most one item, the
  points of the scan of the subtree: from the metadata of the reference, or by
  combining what the children deliver (`Sub.opens_aggregate`).

  What is known of a result is a parameter: a `Measure` is an observation that
  `combine` respects, together with the point lists whose results and metadata it
  sees correctly.
-/
namespace FastSTDB
open List Option Pull SBlockIter AggregationResult Folding AggOp LeafAggregator

variable {xs xss : List (List Point)} {b e : Timestamp} {it : SBlockIter Rat (AggOp Rat)}
  {id : ParamId} {pts : List Point} {depth : Nat}

/-! ## Formats -/

section Results
variable {V : Type} {R R' : List Point → AggOut V → Prop}

/-- Each output is a result with its timestamp, related to its points by `R`. -/
def results (R : List Point → AggOut V → Prop) : Format (List Point) (AggOut V) where
  room xs := xs.length
  Emits xs out := Forall₂ R xs out

theorem results_lawful : (results R).Lawful where
  nil := .nil
  append h h' := Pairs.append h h'
  front xs ys := by simp [results]
  rest {xs ys out n} h hroom _ := by
    have hlen : xs.length = out.length := h.length_eq
    simp only [results, length_append] at hroom ⊢
    omega

theorem results_mono {S C Φ : Type} {rd : Reader S (AggOut V) C Φ} {ok eod : S} {c : C}
    (h : ∀ g o, R g o → R' g o) (hs : Serves rd ok eod (results R) c xs) :
    Serves rd ok eod (results R') c xs := by
  have hroom : ∀ xs, (results R).room xs ≤ (results R').room xs := fun _ => le_rfl
  apply hs.weaken hroom
  intro xs out he
  exact he.imp h

/-- The points as one item, unless there are none. -/
def whole (g : List Point) : List (List Point) := if g = [] then [] else [g]

theorem whole_flatten (g : List Point) : (whole g).flatten = g := by
  unfold whole
  split
  · next h => rw [h]; rfl
  · exact append_nil g

theorem whole_length_le (g : List Point) : (whole g).length ≤ 1 := by
  unfold whole
  split <;> simp

theorem ne_nil_of_mem_whole {g g' : List Point} (h : g' ∈ whole g) : g' ≠ [] := by
  unfold whole at h
  split at h
  · cases h
  · next hne => rw [mem_singleton.mp h]; exact hne

end Results

/-! ## Leaf operators -/

section Leaves
variable {V : Type} [DoubleArith V] {R : List Point → AggOut V → Prop}

/-- The points of a leaf that are counted: all of them when the leaf begins at the
earlier end of the range or later and ends before the other. -/
def leafCounted (b e : Timestamp) (pts : List Point) : List Point :=
  if pts.all (fun p => decide (min b e ≤ p.ts ∧ p.ts < max b e)) then pts else scan b e pts

theorem leafCounted_forward (h : b < e) : leafCounted b e pts = scan b e pts := by
  unfold leafCounted
  split
  · next hall =>
    rw [scan_forward h, filter_eq_self.mpr]
    intro p hp
    have := all_eq_true.mp hall p hp
    simpa only [min_eq_left h.le, max_eq_right h.le, Bool.decide_and] using this
  · rfl

/-- State of a leaf operator that has `xs` to deliver. -/
def LeafAggregator.Has (R : List Point → AggOut V → Prop) (it : LeafAggregator V)
    (xs : List (List Point)) : Prop :=
  it.iter.Good ∧ if it.enableCachedMetadata then
      it.iter.rest = [] ∧ ∃ g, xs = [g] ∧ R g (it.metacache.beginTs, .copyFrom it.metacache)
    else xs = whole it.iter.rest ∧
      ∀ p ∈ it.iter.rest.head?, R it.iter.rest (p.ts, ofPoints it.iter.rest it.forward)

variable {it : LeafAggregator V} {leaf : IOVecLeaf V}

theorem LeafAggregator.read_spec (h : it.Has R xs) {n : Nat} (hn0 : ¬ n = 0) : ∃ out it',
      it.read n = (if xs = [] then .noData else .ok, out, it') ∧
      Forall₂ R xs out ∧ it'.Has R [] := by
  obtain ⟨hg, h⟩ := h
  cases hc : it.enableCachedMetadata with
  | true =>
    rw [hc] at h
    obtain ⟨hrest, g, rfl, hR⟩ := h
    refine ⟨[(it.metacache.beginTs, .copyFrom it.metacache)],
      { it with enableCachedMetadata := false }, ?_, .cons hR .nil, hg, ?_⟩
    · simp [LeafAggregator.read, hn0, hc]
    · simp [hrest, whole]
  | false =>
    rw [hc] at h
    obtain ⟨rfl, hR⟩ := h
    by_cases hnil : it.iter.rest = []
    · have hwhole : whole it.iter.rest = [] := if_pos hnil
      have hread : it.read n = (.noData, [], it) := by
        by_cases hsize : it.iter.getSize = 0
        · simp [LeafAggregator.read, hn0, hc, hsize]
        · simp only [LeafAggregator.read, hn0, hc, if_false, hsize, LeafIter.read_nil hg hnil,
            ne_eq, reduceCtorEq, not_false_eq_true, if_true]
          rw [← hc]
      rw [hread, hwhole]
      refine ⟨[], it, rfl, .nil, hg, ?_⟩
      rw [hc]
      exact ⟨hwhole.symm, hR⟩
    · have hwhole : whole it.iter.rest = [it.iter.rest] := if_neg hnil
      have hok : it.iter.status = .ok := by
        by_contra hst
        exact hnil (if_neg hst)
      have hsize := LeafIter.getSize_eq hg hok
      have hpos := pos_of_ne_zero (LeafIter.getSize_ne_zero hg hnil)
      obtain ⟨iter', hread, hg', hrest'⟩ := LeafIter.read_cons hg hnil hpos
      rw [hsize, take_length] at hread
      rw [hsize] at hrest'
      obtain ⟨p, ps, hps⟩ := exists_cons_of_ne_nil hnil
      have hread' : it.read n = (.ok, [(p.ts, initAggres.doTheMath it.iter.rest (!it.forward))],
          { it with iter := iter' }) := by
        rw [← hsize] at hread
        simp only [LeafAggregator.read, hn0, hc, hpos.ne', if_false, hread, Bool.false_eq_true,
          ne_eq, not_true_eq_false]
        rw [hps]
      rw [hread', hwhole]
      refine ⟨_, _, rfl, .cons ?_ .nil, hg', ?_⟩
      · rw [doTheMath_eq hnil, Bool.not_not]
        exact hR p (by rw [hps]; rfl)
      · simp [hc, hrest', whole]

theorem LeafAggregator.read_leaf {n fuel : Nat} {status : Status} {out : List (AggOut V)}
    {it' : LeafAggregator V} {bs : BlockStore V} {φ : Bool} (h : it.read n = (status, out, it')) :
    AggOp.read bs fuel (depth + 1) φ (.leaf it) n = some ⟨status, out, .leaf it', φ⟩ := by
  simp only [AggOp.read, h]

theorem LeafAggregator.delivers (h : it.Has R xs) (bs : BlockStore V)
    (fuel depth : Nat) : Delivers (AggOp.read bs fuel (depth + 1)) (results R) (.leaf it) xs := by
  refine .coinduct (fun op xs => ∃ it, op = .leaf it ∧ it.Has R xs) ?_ ⟨it, rfl, h⟩
  rintro _ xs ⟨it, rfl, h⟩ φ n hn
  obtain ⟨out, it', hread, he, hit'⟩ := it.read_spec h (by omega : ¬ n = 0)
  have hlen : xs.length = out.length := he.length_eq
  refine ⟨_, xs, [], read_leaf hread, by simp, he, hlen ▸ hn.le, ⟨it', rfl, hit'⟩, ?_⟩
  by_cases h0 : xs = []
  · exact .inr ⟨if_pos h0, rfl, hlen ▸ hn⟩
  · exact .inl ⟨if_neg h0, fun hout => h0 (eq_nil_of_length_eq_zero
      (hlen.trans (length_eq_zero_iff.mpr hout)))⟩

/-- The ends of a leaf say whether all of its points are within bounds. -/
theorem IOVecLeaf.Reads.covered (h : leaf.Reads id pts) (hs : Sorted pts) (hne : pts ≠ [])
    (lo hi : Timestamp) : (lo ≤ leaf.getTimestamps.1 ∧ leaf.getTimestamps.2 < hi) ↔
      ∀ p ∈ pts, lo ≤ p.ts ∧ p.ts < hi := by
  constructor
  · intro ⟨hlo, hhi⟩ p hp
    obtain ⟨hmin, hmax⟩ := h.bounds hs p hp
    exact ⟨hlo.trans hmin, hmax.trans_lt hhi⟩
  · intro hall
    obtain ⟨fanout, addr, size, hm⟩ := h.leafmeta
    obtain ⟨hb, he⟩ := leafMeta_range (V := V) id fanout hne
    simp only [IOVecLeaf.getTimestamps, hm, hb, he]
    exact ⟨(hall _ (head_mem hne)).1, (hall _ (getLast_mem hne)).2⟩

theorem IOVecLeaf.Reads.copyFrom (h : leaf.Reads id pts) :
    .copyFrom leaf.leafmeta = ofPoints pts true := by
  obtain ⟨fanout, addr, size, hm⟩ := h.leafmeta
  rw [hm]
  exact copyFrom_leafMeta id fanout pts

theorem IOVecLeaf.Reads.beginTs (h : leaf.Reads id pts) (hne : pts ≠ []) :
    leaf.leafmeta.beginTs = (pts.head hne).ts := by
  obtain ⟨fanout, addr, size, hm⟩ := h.leafmeta
  rw [hm]
  exact (leafMeta_range id fanout hne).1

theorem LeafAggregator.ofLeaf_spec (h : leaf.Reads id pts) (hs : Sorted pts) (hne : pts ≠ [])
    (hall : ∀ p ∈ pts.head?, R pts (p.ts, ofPoints pts true)) (hscan : ∀ p ∈ (scan b e pts).head?,
      R (scan b e pts) (p.ts, ofPoints (scan b e pts) (decide (b < e)))) :
    ∃ it, ofLeaf b e leaf = some it ∧ it.Has R (whole (leafCounted b e pts)) := by
  have hcov := h.covered hs hne (min b e) (max b e)
  unfold ofLeaf leafCounted
  by_cases hin : ∀ p ∈ pts, min b e ≤ p.ts ∧ p.ts < max b e
  · have hdec : pts.all (fun p => decide (min b e ≤ p.ts ∧ p.ts < max b e)) = true :=
      all_eq_true.mpr (fun p hp => decide_eq_true (hin p hp))
    simp only [hcov.mpr hin, hdec]
    refine ⟨_, rfl, ⟨.inr rfl, le_rfl⟩, rfl, pts, if_neg hne, ?_⟩
    rw [h.copyFrom, h.beginTs hne]
    exact hall _ (head?_eq_some_head hne)
  · have hdec : ¬ pts.all (fun p => decide (min b e ≤ p.ts ∧ p.ts < max b e)) = true := by
      intro hd
      exact hin (fun p hp => of_decide_eq_true (all_eq_true.mp hd p hp))
    obtain ⟨iter, hiter, hg, hrest⟩ := h.ofLeaf hs b e
    simp only [mt hcov.mp hin, hdec, hiter]
    refine ⟨_, rfl, hg, ?_⟩
    simp only [Bool.false_eq_true, if_false, hrest]
    exact ⟨trivial, hscan⟩

/-- An empty leaf is in every range, and its operator puts out what no point has given. -/
theorem LeafAggregator.ofLeaf_empty (h : leaf.Reads id []) (hbe : b < e)
    (hR : R [] (maxTimestamp, initAggres)) : ∃ it, ofLeaf b e leaf = some it ∧ it.Has R [[]] := by
  obtain ⟨fanout, addr, size, hm⟩ := h.leafmeta
  have hcov : min b e ≤ leaf.leafmeta.beginTs ∧ leaf.leafmeta.endTs < max b e := by
    rw [hm]
    exact ⟨le_maxTimestamp _, (minTimestamp_le b).trans_lt (hbe.trans_le (le_max_right b e))⟩
  have hbegin : leaf.leafmeta.beginTs = maxTimestamp := by rw [hm]; rfl
  refine ⟨⟨.done .noData, decide (b < e), true, leaf.leafmeta⟩, if_pos hcov, ⟨.inr rfl, le_rfl⟩, rfl,
    [], rfl, ?_⟩
  rw [h.copyFrom, hbegin]
  exact hR

end Leaves

/-! ## Superblock operators -/

/-- An observation of results, and point lists of which it sees the results and
the metadata as they should be. -/
structure Measure {γ : Type} (obs : AggregationResult Rat → γ) (P : List Point → Prop) : Prop where
  respects : Respects combine obs
  sublist : ∀ {g pts : List Point}, P pts → g.Sublist pts → P g
  added : ∀ {g : List Point}, P g → obs (ofPoints g true).sealed = obs (summary g)
  ref : ∀ {bs : BlockStore Rat} {id : ParamId} {k : Nat} {ref : SubtreeRef Rat}
    {leaves : List StoredLeaf}, Sub bs id k ref leaves → P (points leaves) →
    obs (AggregationResult.copyFrom ref).sealed = obs (summary (points leaves))

/-- Of points with increasing timestamps everything is right. -/
theorem exactMeasure : Measure (fun a => a) (Along true) where
  respects := eq_respects
  sublist h hg := h.sublist hg
  added h := sealed_ofPoints h
  ref h hs := h.observed eq_respects (fun h hg => h.sublist hg) sealed_ofPoints
    (fun _ hne hall hs => sealed_innerMeta _ _ _ hne (ordered_of_along hall hs)) hs

/-- Number, sum, minimum and maximum of points are right in any order. -/
theorem coreMeasure : Measure core (fun _ => True) where
  respects := core_respects
  sublist _ _ := trivial
  added _ := core_sealed
  ref h _ := h.observed core_respects (fun _ _ => trivial) (fun _ => core_sealed)
    (fun _ hne _ _ => core_innerMeta _ _ _ hne) trivial

section Superblocks
variable {γ : Type} (obs : AggregationResult Rat → γ)

/-- The result of `o` stands for the points `g`. -/
def Sums (g : List Point) (o : AggOut Rat) : Prop := obs o.2.sealed = obs (summary g)

/-- It does, with the timestamp 0 that stands in the buffer behind those that were written. -/
def SumsAtZero (g : List Point) (o : AggOut Rat) : Prop := o.1 = 0 ∧ Sums obs g o

variable {obs} {P : List Point → Prop}

theorem value_delivers {g : List Point} {ts : Timestamp} {a : AggregationResult Rat}
    (h : Sums obs g (ts, a)) (bs : BlockStore Rat) (fuel depth : Nat) (fwd : Bool) :
    Delivers (AggOp.read bs fuel (depth + 1)) (results (Sums obs)) (.value ts a fwd false) [g] := by
  refine .coinduct (fun op xs => ∃ used, op = .value ts a fwd used ∧
    xs = if used then [] else [g]) ?_ ⟨false, rfl, rfl⟩
  rintro _ _ ⟨used, rfl, rfl⟩ φ n hn
  have hn0 : ¬ n = 0 := fun h0 => by rw [h0] at hn; exact Nat.not_lt_zero _ hn
  cases used with
  | true =>
    refine ⟨⟨.noData, [], .value ts a fwd true, φ⟩, [], [], ?_, rfl, .nil, zero_le,
      ⟨true, rfl, rfl⟩, .inr ⟨rfl, rfl, pos_of_ne_zero hn0⟩⟩
    simp [AggOp.read, hn0]
  | false =>
    refine ⟨⟨.ok, [(ts, a)], .value ts a fwd true, φ⟩, [g], [], ?_, rfl, .cons h .nil,
      pos_of_ne_zero hn0, ⟨true, rfl, rfl⟩, .inl ⟨rfl, cons_ne_nil _ _⟩⟩
    simp [AggOp.read, hn0]

section Children
variable {fuel : Nat} (hobs : Respects combine obs) (hne : ∀ g ∈ xss, g ≠ [])
  (hlen : xss.length < szbuf) (hfuel : 2 ≤ fuel)

section Loop
variable {C Φ : Type} {bs : BlockStore Rat} {m : Methods Rat C (AggOut Rat) Φ}
  {it : SBlockIter Rat C}

theorem iterate_all {R : List Point → AggOut Rat → Prop} (hlen : xss.length < szbuf)
    (h : Left bs m (results R) it xss) (φ : Φ) :
    ∃ r, iterate bs m φ it szbuf = some r ∧ r.status = .noData ∧
      Forall₂ R xss r.out ∧ Left bs m (results R) r.next [] := by
  obtain ⟨r, xs1, xs2, more, hr, ho, hx, he, -, hleft, hst⟩ :=
    iterate_spec results_lawful h szbuf hlen
  have hxlen : xss.length = xs1.length + xs2.length := by rw [hx, length_append]
  rw [nil_append] at ho
  rcases hst with ⟨-, hfull⟩ | ⟨hnd, hnil, -⟩
  · rw [ho, ← he.length_eq] at hfull
    omega
  · rw [hnil, append_nil] at hx
    rw [hnil] at hleft
    exact ⟨r, hr, hnd, by rw [hx, ho]; exact he, hleft⟩

include hobs hne hlen hfuel

/-- `read` combines what the children deliver into one result. -/
theorem aggregateLoop_spec (h : Left bs m (results (Sums obs)) it xss) (φ : Φ) :
    ∃ r, aggregateLoop bs m fuel φ it (replicate szbuf 0) 0 initAggres 0 = some r ∧
      r.status = .noData ∧ Forall₂ (SumsAtZero obs) (whole xss.flatten) r.out ∧
      Left bs m (results (Sums obs)) r.next [] := by
  obtain ⟨fuel, rfl⟩ : ∃ n, fuel = n + 2 := ⟨fuel - 2, by omega⟩
  obtain ⟨r, hr, hst, he, hleft⟩ := iterate_all hlen h φ
  have hout : xss.length = r.out.length := he.length_eq
  rw [aggregateLoop, hr]
  simp only [bind_some, hst, ne_eq]
  by_cases h0 : r.out = []
  · have hnil : xss = [] := eq_nil_of_length_eq_zero (by rw [hout, h0]; rfl)
    subst hnil
    simp only [h0]
    exact ⟨_, rfl, rfl, .nil, hleft⟩
  · -- one more round finds nothing and puts the result out
    obtain ⟨r', hr', hst', he', hleft'⟩ := iterate_all (by decide) hleft r.env
    have hout' : r'.out = [] := forall₂_nil_left_iff.mp he'
    have hpos : ¬ r.out.length = 0 := fun h => h0 (eq_nil_of_length_eq_zero h)
    have hstamp : (r.out.map Prod.fst ++ (replicate szbuf 0).drop r.out.length)[r.out.length]? =
        some 0 := by
      rw [getElem?_append_right (by simp), length_map, drop_replicate,
        getElem?_replicate, if_pos (by omega)]
    simp only [hpos, hstamp, bind_some]
    rw [aggregateLoop, hr']
    simp only [bind_some, hst', hout']
    refine ⟨_, rfl, rfl, ?_, hleft'⟩
    have hflat : xss.flatten ≠ [] := by
      intro hnil
      have hx : xss ≠ [] := fun hx => hpos (by rw [← hout, hx]; rfl)
      obtain ⟨g, rest, rfl⟩ := exists_cons_of_ne_nil hx
      rw [flatten_cons, append_eq_nil_iff] at hnil
      exact hne g mem_cons_self hnil.1
    rw [whole, if_neg hflat]
    refine .cons ⟨rfl, ?_⟩ .nil
    have htotal : r.out.foldl (fun lhs rhs => lhs.combine rhs.2) initAggres =
        total combine initAggres (r.out.map Prod.snd) := by rw [total, foldl_map]
    rw [Sums, htotal, sealed, combine_law.total_sealed]
    apply obs_total hobs
    rw [forall₂_map_right_iff]
    exact he

theorem readAggregate_spec
    (h : SBlockIter.Unread bs m (results (Sums obs)) it xss ∨ Left bs m (results (Sums obs)) it xss)
    (φ : Φ) {n : Nat} (hn : n ≠ 0) : ∃ r, it.readAggregate bs m fuel φ n = some r ∧ r.status = .noData ∧
      Forall₂ (SumsAtZero obs) (whole xss.flatten) r.out ∧
      Left bs m (results (Sums obs)) r.next [] := by
  rcases h with ⟨hfsm, it', hinit, hleft⟩ | hleft
  · simp only [readAggregate, hn, readInit, hfsm, hinit]
    exact aggregateLoop_spec hobs hne hlen hfuel hleft φ
  · simp only [readAggregate, hn, readInit, hleft.2.1]
    exact aggregateLoop_spec hobs hne hlen hfuel hleft φ

end Loop

variable {bs : BlockStore Rat}
include hobs hne hlen hfuel

/-- An operator that reads as `NBTreeSBlockAggregatorImpl` does, whatever becomes
of the flag. -/
theorem readAggregate_delivers {m : Methods Rat (AggOp Rat) (AggOut Rat) Bool}
    (wraps : AggOp Rat → SBlockIter Rat (AggOp Rat) → Prop)
    (hwraps : ∀ op it φ n, wraps op it → ∃ φ0 f, AggOp.read bs fuel (depth + 1) φ op n =
        (it.readAggregate bs m fuel φ0 n).map f ∧
      ∀ r, (f r).status = r.status ∧ (f r).out = r.out ∧ wraps (f r).next r.next)
    {op : AggOp Rat} (hop : wraps op it) (h : SBlockIter.Unread bs m (results (Sums obs)) it xss ∨
      Left bs m (results (Sums obs)) it xss) :
    Delivers (AggOp.read bs fuel (depth + 1)) (results (SumsAtZero obs)) op
      (whole xss.flatten) := by
  refine .coinduct (fun op xs => ∃ it xss, wraps op it ∧
    (SBlockIter.Unread bs m (results (Sums obs)) it xss ∨ Left bs m (results (Sums obs)) it xss) ∧
    (∀ g ∈ xss, g ≠ []) ∧ xss.length < szbuf ∧ xs = whole xss.flatten) ?_
    ⟨it, xss, hop, h, hne, hlen, rfl⟩
  rintro op _ ⟨it, xss, hop, h, hne, hlen, rfl⟩ φ n hn
  have hn : (whole xss.flatten).length < n := hn
  obtain ⟨φ0, f, hread, hf⟩ := hwraps op it φ n hop
  obtain ⟨r, hr, hst, he, hleft⟩ := readAggregate_spec hobs hne hlen hfuel h φ0 (by omega : n ≠ 0)
  obtain ⟨hfst, hfout, hfnext⟩ := hf r
  have hout : (whole xss.flatten).length = r.out.length := Forall₂.length_eq he
  refine ⟨f r, whole xss.flatten, [], ?_, by simp, ?_, ?_, ?_, .inr ⟨?_, rfl, ?_⟩⟩
  · rw [hread, hr, map_some]
  · rw [hfout]; exact he
  · rw [hfout]; omega
  · exact ⟨r.next, [], hfnext, .inr hleft, by simp, by decide, rfl⟩
  · rw [hfst, hst]
  · rw [hfout]; omega

theorem sblockAggregate_delivers
    (h : SBlockIter.Unread bs (aggregateMethods bs (AggOp.read bs fuel depth))
      (results (Sums obs)) it xss) :
    Delivers (AggOp.read bs fuel (depth + 1)) (results (Sums obs)) (.sblock it)
      (whole xss.flatten) := by
  have hread : ∀ op it φ n, op = sblock it → ∃ φ0 f, AggOp.read bs fuel (depth + 1) φ op n =
        (it.readAggregate bs (aggregateMethods bs (AggOp.read bs fuel depth)) fuel φ0 n).map f ∧
      ∀ r, (f r).status = r.status ∧ (f r).out = r.out ∧ (f r).next = sblock r.next := by
    rintro _ it φ n rfl
    exact ⟨φ, _, rfl, fun r => ⟨rfl, rfl, rfl⟩⟩
  exact results_mono (fun _ _ h => h.2)
    (readAggregate_delivers hobs hne hlen hfuel (fun op it => op = .sblock it) hread rfl (.inl h))

theorem sblockTop_delivers (leftmost : Bool)
    (h : Left bs (aggregateMethods bs (AggOp.read bs fuel depth)) (results (Sums obs)) it xss) :
    Delivers (AggOp.read bs fuel (depth + 1)) (results (SumsAtZero obs)) (.sblockTop leftmost it)
      (whole xss.flatten) := by
  refine readAggregate_delivers hobs hne hlen hfuel (fun op it => ∃ flag, op = .sblockTop flag it)
    ?_ ⟨leftmost, rfl⟩ (.inr h)
  rintro _ it φ n ⟨flag, rfl⟩
  exact ⟨flag, _, rfl, fun r => ⟨rfl, rfl, r.env, rfl⟩⟩

end Children

variable {bs : BlockStore Rat} {id : ParamId} {fuel : Nat}

theorem flatten_whole_scan (hbe : b < e) (groups : List (List StoredLeaf)) :
    (scanOrder b e (groups.map (fun g => whole (scan b e (points g))))).flatten.flatten =
      scan b e (points groups.flatten) := by
  simp only [scanOrder, hbe, if_true]
  induction groups with
  | nil => exact scan_nil.symm
  | cons g groups ih =>
    rw [map_cons, flatten_cons, flatten_append, ih, whole_flatten, flatten_cons,
      points_append, scan_forward hbe, scan_forward hbe, scan_forward hbe, filter_append]

theorem whole_scan_items (groups : List (List StoredLeaf)) :
    (∀ x ∈ (scanOrder b e (groups.map (fun g => whole (scan b e (points g))))).flatten, x ≠ []) ∧
      (scanOrder b e (groups.map (fun g => whole (scan b e (points g))))).flatten.length ≤
        groups.length := by
  constructor
  · intro x hx
    obtain ⟨xs, hxs, hx⟩ := mem_flatten.mp hx
    obtain ⟨g, -, rfl⟩ := mem_map.mp ((scanOrder_perm b e _).mem_iff.mp hxs)
    exact ne_nil_of_mem_whole hx
  · rw [(scanOrder_perm b e _).flatten.length_eq]
    induction groups with
    | nil => exact le_refl 0
    | cons g groups ih =>
      have := whole_length_le (scan b e (points g))
      simp only [map_cons, flatten_cons, length_append, length_cons]
      omega

/-- The aggregating operator over a subtree delivers the points of its scan, as one
item. -/
theorem Sub.opens_aggregate (M : Measure obs P) (hkeep : bs.removedBelow = 0) (hfuel : 2 ≤ fuel)
    (hbe : b < e) {k : Nat} {ref : SubtreeRef Rat} {leaves : List StoredLeaf}
    (h : Sub bs id k ref leaves) (hs : Sorted (points leaves)) (hP : P (points leaves))
    (hdepth : k < depth) :
    Opens bs (aggregateMethods bs (AggOp.read bs fuel depth)) (results (Sums obs)) b e ref
    (whole (scan b e (points leaves))) := by
  induction k generalizing ref leaves depth
  all_goals
    obtain ⟨depth, rfl⟩ : ∃ d, depth = d + 1 := ⟨depth - 1, by omega⟩
    refine opens_of_child h (fun hexp => ?_) (fun hout => ?_) (fun hlive _ φ => ?_)
    · rw [hkeep] at hexp; exact absurd hexp (Nat.not_lt_zero _)
    · have := scan_outside h (scannable_of_sorted hs b e) hout
      rw [BlockStore.live_of_keeps hkeep] at this
      exact if_pos this
    have hcontains := (Sub.contains h).trans (decide_eq_true hlive)
  case zero.refine_3 =>
    obtain ⟨i, fanout, link, pts, hleaf, hne, rfl, rfl⟩ := h
    obtain ⟨block, leaf, size, hb, hof, hreads, -⟩ := hleaf.load
    have hpts : points [⟨bs.alloc i, pts⟩] = pts := append_nil pts
    rw [hpts] at hs hP ⊢
    have hscan : ∀ p ∈ (scan b e pts).head?,
        Sums obs (scan b e pts) (p.ts, ofPoints (scan b e pts) (decide (b < e))) := by
      intro p _
      rw [decide_eq_true hbe]
      refine M.added (M.sublist hP ?_)
      rw [scan_forward hbe]
      exact filter_sublist
    obtain ⟨it, hit, hhas⟩ := ofLeaf_spec hreads hs hne (fun _ _ => M.added hP) hscan
    rw [leafCounted_forward hbe] at hhas
    refine ⟨.leaf it, true, ?_, delivers hhas bs fuel depth⟩
    simp [aggregateMethods, leafAt, hcontains, bs.readIovecBlock_alloc hb hlive, hof, hit]
  case succ.refine_3 k ih _ =>
    by_cases hcov : φ = true ∧ b ≤ ref.beginTs ∧ ref.endTs < e
    · -- the metadata stand for the whole subtree
      obtain ⟨rfl, hlo, hhi⟩ := hcov
      have hscan : scan b e (points leaves) = points leaves := by
        rw [scan_forward hbe, filter_eq_self]
        intro p hp
        obtain ⟨h1, h2⟩ := h.bounds hs p hp
        rw [decide_eq_true (hlo.trans h1), decide_eq_true (h2.trans_lt hhi)]
        rfl
      rw [hscan, whole, if_neg h.points_ne_nil]
      refine ⟨.value ref.endTs (.copyFrom ref) (b < e) false, true, ?_,
        value_delivers (M.ref h hP) bs fuel depth _⟩
      simp only [aggregateMethods, hcontains, Bool.not_true, Bool.false_eq_true, if_false,
        min_eq_left hbe.le, max_eq_right hbe.le, hlo, hhi, and_self, decide_true, Bool.and_self,
        if_true, Nat.add_eq_zero_iff, Nat.one_ne_zero, and_false]
    · refine ⟨.sblock (.ofAddr ref.addr b e), φ, ?_, ?_⟩
      · have hif : (φ && decide (min b e ≤ ref.beginTs ∧ ref.endTs < max b e)) = false := by
          rw [min_eq_left hbe.le, max_eq_right hbe.le, ← Bool.not_eq_true, Bool.and_eq_true,
            decide_eq_true_eq]
          exact hcov
        simp only [aggregateMethods, hcontains, Bool.not_true, Bool.false_eq_true, if_false,
          hif, Nat.add_eq_zero_iff, Nat.one_ne_zero, and_false]
      · obtain ⟨i, fanout, link, refs, groups, hinner, -, hfits, rfl, -, hall, rfl⟩ := h
        obtain ⟨block, hread, hpl, hsize⟩ := hinner.read hlive
        obtain ⟨hne, hlen⟩ := whole_scan_items groups
        rw [← flatten_whole_scan hbe]
        refine sblockAggregate_delivers M.respects hne ?_ hfuel (unread_ofAddr hread hpl hsize ?_)
        · have : refs.length = groups.length := hall.length_eq
          have hf : nbtreeFanout < szbuf := by decide
          omega
        · refine forall₂_opens hall (fun r g hg hsub => ih hsub ?_ ?_ (by omega))
          · exact hs.sublist (points_sublist_flatten hg)
          · exact M.sublist hP (points_sublist_flatten hg)

end Superblocks

/-! ## Combining operators -/

section Combine
variable {C Φ : Type} {V : Type} [DoubleArith V] {rd : Reader Status (AggOut V) C Φ}

/-- What an operator has left to put out: its items, and how the outputs are related to them. -/
structure Share (V : Type) where
  Rel : List Point → AggOut V → Prop
  items : List (List Point)

/-- What is put out for several results: their combination, with the timestamp of the last. -/
def combinedOut (ts : Timestamp) (xs : AggregationResult V) (os : List (AggOut V)) : AggOut V :=
  ((os.getLast?.map Prod.fst).getD ts, os.foldl (fun lhs rhs => lhs.combine rhs.2) xs)

theorem combinedOut_append (ts : Timestamp) (xs : AggregationResult V) (os os' : List (AggOut V)) :
    combinedOut ts xs (os ++ os') =
      combinedOut (combinedOut ts xs os).1 (combinedOut ts xs os).2 os' := by
  rw [combinedOut, combinedOut, foldl_append, getLast?_append]
  cases os'.getLast? <;> rfl

/-- What the loop of `CombineAggregateOperator::read` achieves when the shares are left to its
operators: it combines all results, and puts out what it has unless there was nothing. -/
def Combined (shares : List (Share V)) (nagg : Nat) (ts : Timestamp) (xs : AggregationResult V)
    (res : Option (Reply (AggOut V) (List C × Nat) Φ)) : Prop :=
  ∃ r outs, res = some r ∧ r.status = .ok ∧ r.next.2 = r.next.1.length ∧
    Forall₂ (fun share => Forall₂ share.Rel share.items) shares outs ∧
    r.out = if nagg = 0 ∧ outs.flatten = [] then [] else [combinedOut ts xs outs.flatten]

theorem Combined.extend {R : List Point → AggOut V → Prop} {gs gs' : List (List Point)}
    {shares : List (Share V)} {out : List (AggOut V)} {nagg : Nat} {ts : Timestamp}
    {xs : AggregationResult V} {res : Option (Reply (AggOut V) (List C × Nat) Φ)}
    (he : Forall₂ R gs out) (h : Combined (⟨R, gs'⟩ :: shares)
      (if out.length ≠ 0 then nagg + 1 else nagg) (combinedOut ts xs out).1
      (combinedOut ts xs out).2 res) : Combined (⟨R, gs ++ gs'⟩ :: shares) nagg ts xs res := by
  obtain ⟨r, _, hr, hst, hnext, hall, hout⟩ := h
  obtain ⟨os, outs, hos, hrest, rfl⟩ := forall₂_cons_left_iff.mp hall
  refine ⟨r, (out ++ os) :: outs, hr, hst, hnext, .cons (Pairs.append he hos) hrest, ?_⟩
  have hflat : ((out ++ os) :: outs).flatten = out ++ (os :: outs).flatten := append_assoc ..
  rw [hout, hflat, combinedOut_append]
  by_cases h0 : out = []
  · subst h0
    rfl
  · have hlen : out.length ≠ 0 := fun h => h0 (eq_nil_of_length_eq_zero h)
    rw [if_pos hlen, if_neg (fun h => Nat.succ_ne_zero _ h.1),
      if_neg (fun h => h0 (append_eq_nil_iff.mp h.2).1)]

theorem combineLoop_spec (fuel : Nat) (φ : Φ) (iters : List C) (index : Nat) (ts : Timestamp)
    (xs : AggregationResult V) (nagg : Nat) (shares : List (Share V))
    (hall : Forall₂ (fun it share => Delivers rd (results share.Rel) it share.items)
      (iters.drop index) shares)
    (hidx : index ≤ iters.length) (hlen : ∀ x ∈ shares, x.items.length < szbuf)
    (hf : (shares.map (·.items.length)).sum + (iters.length - index) < fuel) :
    Combined shares nagg ts xs (combineLoop rd fuel φ iters index ts xs nagg) := by
  induction fuel generalizing φ iters index ts xs nagg shares with
  | zero => omega
  | succ fuel ih =>
    rw [combineLoop]
    cases hget : iters[index]? with
    | none =>
      have hge : iters.length ≤ index := getElem?_eq_none_iff.mp hget
      rw [drop_eq_nil_of_le hge] at hall
      cases hall
      refine ⟨_, [], rfl, rfl, le_antisymm hidx hge, .nil, ?_⟩
      by_cases h0 : nagg = 0 <;> simp [combinedOut]
    | some it =>
      obtain ⟨hlt, hit⟩ := List.getElem?_eq_some_iff.mp hget
      rw [drop_eq_getElem_cons hlt, hit] at hall
      obtain ⟨⟨R, x⟩, shares, hserve, hrest, rfl⟩ := forall₂_cons_left_iff.mp hall
      rw [map_cons, sum_cons] at hf
      have hxs := hlen _ mem_cons_self
      have hlen' := (forall_mem_cons.mp hlen).2
      obtain ⟨r, x1, x2, hr, rfl, he, -, hR, hst⟩ := hserve.step φ szbuf hxs
      simp only [length_append] at hf hxs
      have hset : (iters.set index r.next).length = iters.length := length_set
      simp only [hr, bind_some]
      apply Combined.extend he
      rcases hst with ⟨hok, hout⟩ | ⟨hnd, rfl, -⟩
      · -- the operator may have more
        have hpos : 0 < r.out.length := length_pos_iff.mpr hout
        have hx1 := he.length_eq
        simp only [hok]
        refine ih _ _ _ _ _ _ (⟨R, x2⟩ :: shares) ?_ (by omega) ?_ ?_
        · rw [drop_set_self hlt]
          exact .cons hR hrest
        · exact forall_mem_cons.mpr ⟨by dsimp only; omega, hlen'⟩
        · rw [map_cons, sum_cons]; dsimp only; omega
      · simp only [hnd]
        obtain ⟨r', outs, hr', hst', hnext, has, hout⟩ := ih r.env (iters.set index r.next) (index + 1)
          (combinedOut ts xs r.out).1 (combinedOut ts xs r.out).2
          (if r.out.length ≠ 0 then nagg + 1 else nagg) shares
          (by rw [drop_set_of_lt (Nat.lt_succ_self index)]; exact hrest) (by omega) hlen' (by omega)
        exact ⟨r', [] :: outs, hr', hst', hnext, .cons .nil has, hout⟩

end Combine
end FastSTDB
