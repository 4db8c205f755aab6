import Mathlib.Data.List.Sort
import FastSTDB.JoinTrace

/-
  Join materializer — draining a join

  A join should put out one tuple for each timestamp that some series has. It does so
  under three conditions, which the series do not fulfil by themselves:

  * no series behind an empty one needs a second read (the merge, `MergeDrain`);
  * the series of one timestamp come in the order of their numbers. The heap of the
    merge gives out first what was pushed first, so of two series with a point at the
    same timestamp the one comes first whose point *before* was put out first;
  * the last series has a point at the last timestamp: the join notices the end of
    the data while it waits for the next series of a tuple, and drops the tuple.

  `join_drain` states that these are exactly the conditions.
-/
namespace FastSTDB
open List Option Pull Merging MergeKind Ties

variable {σ Φ : Type}
variable {i : Nat} {t : Timestamp} {x : ParamId × Point} {rest : List (ParamId × Point)}
  {id : ParamId} {b' : Buffers Point} {chunks : List (List (ParamId × Point))}

/-! ## What a join is for -/

def HasPoint (xs : List Point) (t : Timestamp) : Prop := ∃ p ∈ xs, p.ts = t

instance (xs : List Point) (t : Timestamp) : Decidable (HasPoint xs t) :=
  inferInstanceAs (Decidable (∃ p ∈ xs, p.ts = t))

def valueAt (xs : List Point) (t : Timestamp) : Option UInt64 :=
  (xs.find? fun p => p.ts == t).map Point.value

/-- `out` is the join of the series: in increasing order, a tuple for each timestamp of a series;
its bitmap tells which series have a point there, and their values follow. -/
structure IsJoin (id : ParamId) (xss : List (List Point)) (out : List Sample) : Prop where
  increasing : out.Pairwise fun s s' => s.timestamp < s'.timestamp
  times : ∀ t, (∃ s ∈ out, s.timestamp = t) ↔ ∃ xs ∈ xss, HasPoint xs t
  tuples : ∀ s ∈ out, s.paramid = id ∧
    ∃ ctrl, s.payload = .tuple ctrl (xss.filterMap fun xs => valueAt xs s.timestamp) ∧
      ∀ i xs, xss[i]? = some xs → (ctrl.toNat.testBit i = true ↔ HasPoint xs s.timestamp)

/-- The last series has a point at the last timestamp. -/
def EndsFull (xss : List (List Point)) : Prop :=
  ∀ t, (∃ xs ∈ xss, HasPoint xs t) → (∀ xs ∈ xss, ∀ p ∈ xs, p.ts ≤ t) →
    ∀ xs ∈ xss.getLast?, HasPoint xs t

def places (xss : List (List Point)) : List (Nat × Timestamp) :=
  xss.zipIdx.flatMap fun q => q.1.map fun p => (q.2, p.ts)

/-! ## Places -/

section Places
variable {xss : List (List Point)} {ids : List ParamId}

theorem mem_places : (i, t) ∈ places xss ↔ ∃ xs, xss[i]? = some xs ∧ HasPoint xs t := by
  simp only [places, mem_flatMap, List.mem_map, Prod.mk.injEq, Prod.exists,
    mem_zipIdx_iff_getElem?]
  constructor
  · rintro ⟨xs, j, hj, p, hp, rfl, rfl⟩
    exact ⟨xs, hj, p, hp, rfl⟩
  · rintro ⟨xs, hi, p, hp, rfl⟩
    exact ⟨xs, i, hi, p, hp, rfl, rfl⟩

theorem hasPoint_iff_places : (∃ xs ∈ xss, HasPoint xs t) ↔ ∃ i, (i, t) ∈ places xss := by
  constructor
  · rintro ⟨xs, hmem, h⟩
    obtain ⟨i, hi⟩ := mem_iff_getElem?.mp hmem
    exact ⟨i, mem_places.mpr ⟨xs, hi, h⟩⟩
  · rintro ⟨i, hi⟩
    obtain ⟨xs, hxs, h⟩ := mem_places.mp hi
    exact ⟨xs, mem_of_getElem? hxs, h⟩

theorem places_lt {x : Nat × Timestamp} (h : x ∈ places xss) : x.1 < xss.length := by
  obtain ⟨xs, hi, -⟩ := mem_places.mp h
  exact lt_of_getElem? hi

theorem mem_ids_of_labelled (h : x ∈ labelled ids xss) : x.1 ∈ ids := by
  obtain ⟨q, hq, hx⟩ := mem_flatMap.mp h
  obtain ⟨a, -, rfl⟩ := mem_map.mp hx
  exact (of_mem_zip hq).1

theorem map_place_labelled (hids : ids.Nodup) (hlen : ids.length = xss.length) :
    (labelled ids xss).map (real.place ids) = places xss := by
  have hzip : xss.zipIdx = (ids.zip xss).map fun q => (q.2, ids.idxOf q.1) := by
    apply ext_getElem
    · simp [hlen]
    · intro i h1 h2
      have hi : i < ids.length := by simp at h1; omega
      simp [hids.idxOf_getElem i hi]
  rw [places, hzip, flatMap_map, labelled, map_flatMap]
  simp only [List.map_map]
  rfl

theorem mem_places_labelled (hids : ids.Nodup) (hlen : ids.length = xss.length) :
    (i, t) ∈ places xss ↔ ∃ x ∈ labelled ids xss, x.2.ts = t ∧ ids.idxOf x.1 = i := by
  rw [← map_place_labelled hids hlen]
  simp [place, real, and_comm]

theorem length_places : (places xss).length = xss.flatten.length := by
  rw [places, length_flatMap, length_flatten]
  congr 1
  apply ext_getElem
  · simp
  · simp

theorem places_nodup (hsorted : ∀ xs ∈ xss, xs.Pairwise fun p q => p.ts < q.ts) :
    (places xss).Nodup := by
  rw [places, nodup_flatMap]
  constructor
  · rintro ⟨xs, i⟩ hq
    have hxs : xs ∈ xss := mem_of_getElem? (mem_zipIdx_iff_getElem?.mp hq)
    rw [Nodup, pairwise_map]
    refine (hsorted xs hxs).imp ?_
    intro p q hlt heq
    exact absurd (congrArg Prod.snd heq) (ne_of_lt hlt)
  · rw [pairwise_iff_getElem]
    intro i j hi hj hij x hx hy
    simp only [getElem_zipIdx, List.mem_map] at hx hy
    obtain ⟨p, -, rfl⟩ := hx
    obtain ⟨q, -, heq⟩ := hy
    have := congrArg Prod.fst heq
    omega

end Places

/-! ## Tuples -/

section Tuples
variable {ids : List ParamId} {taken g : List (ParamId × Point)}
  {gs : List (List (ParamId × Point))}

theorem Follows.trans {a b c : ParamId × Point} (hab : Follows ids a b) (hbc : Follows ids b c) :
    Follows ids a c := ⟨hab.1.trans hbc.1, hab.2.trans hbc.2⟩

instance : Trans (Follows ids) (Follows ids) (Follows ids) := ⟨.trans⟩

theorem IsTuple.pairwise (h : IsTuple ids g rest) :
    g.Pairwise (Follows ids) := isChain_iff_pairwise.mp h.chain

theorem tuple_ts (hg : g.Pairwise (Follows ids)) (id : ParamId) (hx : x ∈ g) :
    x.2.ts = (tupleSample ids id g).timestamp := by
  cases g with
  | nil => cases hx
  | cons a g =>
    rcases mem_cons.mp hx with rfl | hx
    · rfl
    · exact ((pairwise_cons.mp hg).1 x hx).1.symm

theorem Emits.tuple (h : Emits ids taken gs rest) :
    ∀ g ∈ gs, g ≠ [] ∧ g.Pairwise (Follows ids) := by
  induction h with
  | refl => simp
  | cons tuple _ ih => exact forall_mem_cons.mpr ⟨⟨tuple.ne_nil, tuple.pairwise⟩, ih⟩

/-- If a sequence ends with a tuple that is put out, it ends with the last series. -/
theorem Emits.last_full (h : Emits ids taken gs []) :
    ∀ a ∈ taken.getLast?, ids.idxOf a.1 + 1 = ids.length := by
  generalize hrest : [] = rest at h
  induction h with
  | refl =>
    subst hrest
    intro a ha
    cases ha
  | @cons g taken rest gs tuple more ih =>
    intro a ha
    by_cases hnil : taken = []
    · rw [hnil, append_nil] at ha
      exact tuple.full hnil a ha
    · rw [getLast?_append_of_ne_nil _ hnil] at ha
      exact ih hrest a ha

theorem Emits.times (h : Emits ids taken gs rest)
    (hsorted : (taken.map (real.place ids)).Pairwise Earlier) :
    gs.Pairwise fun g g' => ∀ x ∈ g, ∀ y ∈ g', x.2.ts < y.2.ts := by
  induction h with
  | refl => exact Pairwise.nil
  | @cons g taken rest gs tuple more ih =>
    rw [map_append] at hsorted
    obtain ⟨-, htaken, hcross⟩ := pairwise_append.mp hsorted
    refine Pairwise.cons ?_ (ih htaken)
    intro g' hg' x hx y hy
    have hy' : y ∈ taken := by
      rw [more.flatten]
      exact mem_append_left _ (mem_flatten.mpr ⟨g', hg', hy⟩)
    -- the last element of the tuple, and the first one behind it
    have hne := tuple.ne_nil
    obtain ⟨b, taken, rfl⟩ := exists_cons_of_ne_nil (ne_nil_of_mem hy')
    have hlast := getLast_mem hne
    have hstop := tuple.stop _ (getLast?_eq_some_getLast hne) b rfl
    have hlt : (g.getLast hne).2.ts < b.2.ts := by
      rcases hcross _ (mem_map_of_mem hlast) _ (mem_map_of_mem mem_cons_self) with
        h | ⟨h1, h2⟩
      · exact h
      · exact absurd ⟨h1, h2⟩ hstop
    have hle : b.2.ts ≤ y.2.ts := by
      rcases mem_cons.mp hy' with rfl | hy'
      · exact le_rfl
      · exact ((pairwise_cons.mp htaken).1 _ (mem_map_of_mem hy')).time_le
    calc x.2.ts = (g.getLast hne).2.ts :=
          (tuple_ts tuple.pairwise 0 hx).trans (tuple_ts tuple.pairwise 0 hlast).symm
      _ < b.2.ts := hlt
      _ ≤ y.2.ts := hle

/-- Tuples with increasing timestamps come from a sequence in order. -/
theorem sorted_of_times (hg : ∀ g ∈ gs, g.Pairwise (Follows ids))
    (htimes : gs.Pairwise fun g g' => ∀ x ∈ g, ∀ y ∈ g', x.2.ts < y.2.ts) :
    (gs.flatten.map (real.place ids)).Pairwise Earlier := by
  rw [pairwise_map, pairwise_flatten]
  constructor
  · intro g hmem
    exact (hg g hmem).imp .inr
  · exact htimes.imp fun h x hx y hy => .inl (h x hx y hy)

/-- Bit `i` of the bitmap is set exactly if series `i` is in the tuple. -/
theorem testBit_bitmap (hg : ∀ x ∈ g, x.1 ∈ ids) (hn : ids.length ≤ 58) (hi : i < 58)
    (ctrl : UInt64) : (bitmap ids ctrl g).toNat.testBit i =
      (ctrl.toNat.testBit i || g.any fun x => ids.idxOf x.1 == i) := by
  induction g generalizing ctrl with
  | nil => simp [bitmap]
  | cons x g ih =>
    have hx := idxOf_lt_length_of_mem (hg x mem_cons_self)
    have hbit : ((1 : UInt64) <<< .ofNat (ids.idxOf x.1)).toNat.testBit i =
        (ids.idxOf x.1 == i) := by
      have hmod : (UInt64.ofNat (ids.idxOf x.1)).toNat % 64 = ids.idxOf x.1 := by
        rw [UInt64.toNat_ofNat']
        omega
      rw [UInt64.toNat_shiftLeft, hmod, Nat.testBit_mod_two_pow]
      show (decide (i < 64) && (1 <<< ids.idxOf x.1).testBit i) = (ids.idxOf x.1 == i)
      rw [Nat.one_shiftLeft, Nat.testBit_two_pow, decide_eq_true (show i < 64 by omega)]
      rfl
    rw [bitmap, foldl_cons, ← bitmap, ih (forall_mem_cons.mp hg).2,
      UInt64.toNat_or, Nat.testBit_or, hbit, any_cons, Bool.or_assoc]

theorem testBit_tuple (hg : ∀ x ∈ g, x.1 ∈ ids) (hn : ids.length ≤ 58) (hi : i < 58) :
    (bitmap ids 0 g ||| (UInt64.ofNat ids.length <<< 58)).toNat.testBit i = true ↔
      ∃ x ∈ g, ids.idxOf x.1 = i := by
  -- the number of series stands in the bits from 58 on
  have hhigh : (UInt64.ofNat ids.length <<< 58).toNat.testBit i = false := by
    rw [UInt64.toNat_shiftLeft, Nat.testBit_mod_two_pow]
    show (decide (i < 64) && ((UInt64.ofNat ids.length).toNat <<< 58).testBit i) = false
    rw [Nat.testBit_shiftLeft, decide_eq_false (show ¬ i ≥ 58 by omega), Bool.false_and,
      Bool.and_false]
  rw [UInt64.toNat_or, Nat.testBit_or, hhigh, testBit_bitmap hg hn hi]
  simp

end Tuples

/-! ## The conditions suffice -/

section Sufficient
variable {ids : List ParamId} {xss : List (List Point)} {taken : List (ParamId × Point)}
  {gs : List (List (ParamId × Point))}

/-- The points of a time, in the order of the series. -/
def row (ids : List ParamId) (xss : List (List Point)) (t : Timestamp) : List (ParamId × Point) :=
  (ids.zip xss).filterMap fun q => (q.2.find? fun p => p.ts == t).map fun p => (q.1, p)

theorem row_values (hlen : ids.length = xss.length) :
    ((row ids xss t).map fun x => x.2.value) = xss.filterMap fun xs => valueAt xs t := by
  have hzip : (ids.zip xss).map Prod.snd = xss := map_snd_zip hlen.symm.le
  conv => rhs; rw [← hzip]
  rw [row, map_filterMap, filterMap_map]
  apply filterMap_congr
  intro q _
  simp only [Option.map_map]
  rfl

theorem mem_row (hsorted : ∀ xs ∈ xss, xs.Pairwise fun p q => p.ts < q.ts) :
    x ∈ row ids xss t ↔ x ∈ labelled ids xss ∧ x.2.ts = t := by
  simp only [row, labelled, mem_filterMap, mem_flatMap, List.mem_map, map_eq_some_iff]
  constructor
  · rintro ⟨q, hq, p, hp, rfl⟩
    exact ⟨⟨q, hq, p, mem_of_find?_eq_some hp, rfl⟩, by simpa using find?_some hp⟩
  · rintro ⟨⟨q, hq, p, hp, rfl⟩, rfl⟩
    refine ⟨q, hq, p, ?_, rfl⟩
    -- the series has only one point at that time
    have hpair := hsorted q.2 (of_mem_zip hq).2
    obtain ⟨r, hr⟩ : ∃ r, (q.2.find? fun r => r.ts == p.ts) = some r := by
      rw [← isSome_iff_exists, find?_isSome]
      exact ⟨p, hp, by simp⟩
    have hmem := mem_of_find?_eq_some hr
    have hts : r.ts = p.ts := by simpa using find?_some hr
    have hnodup : (q.2.map Point.ts).Nodup := by
      rw [Nodup, pairwise_map]
      exact hpair.imp ne_of_lt
    rw [hr, inj_on_of_nodup_map hnodup hmem hp hts]

section
variable (hids : ids.Nodup) (hlen : ids.length = xss.length)
include hids hlen

theorem row_pairwise (t : Timestamp) :
    (row ids xss t).Pairwise fun x y => ids.idxOf x.1 < ids.idxOf y.1 := by
  have hzip : (ids.zip xss).Pairwise fun q r => ids.idxOf q.1 < ids.idxOf r.1 := by
    have hmap : (ids.zip xss).map Prod.fst = ids := map_fst_zip hlen.le
    rw [← pairwise_map (R := fun a b => ids.idxOf a < ids.idxOf b), hmap]
    exact pairwise_idxOf hids
  rw [row, pairwise_filterMap]
  refine hzip.imp ?_
  intro q r hlt x hx y hy
  obtain ⟨p, -, rfl⟩ := map_eq_some_iff.mp hx
  obtain ⟨p', -, rfl⟩ := map_eq_some_iff.mp hy
  exact hlt

theorem eq_row (hsorted : ∀ xs ∈ xss, xs.Pairwise fun p q => p.ts < q.ts)
    {g : List (ParamId × Point)} (hg : g.Pairwise (Follows ids))
    (hmem : ∀ x, x ∈ g ↔ x ∈ labelled ids xss ∧ x.2.ts = t) : g = row ids xss t := by
  apply Pairwise.eq_of_mem_iff (hg.imp fun h => h.2) (row_pairwise hids hlen t)
  intro x
  rw [hmem, mem_row hsorted]

/-- If the points come in order and nothing is dropped, the tuples are the join. -/
theorem isJoin_of_sorted (hn : ids.length ≤ 58)
    (hsorted : ∀ xs ∈ xss, xs.Pairwise fun p q => p.ts < q.ts)
    (hperm : taken.Perm (labelled ids xss)) (hemits : Emits ids taken gs [])
    (hearlier : (taken.map (real.place ids)).Pairwise Earlier) (id : ParamId) :
    IsJoin id xss (gs.map (tupleSample ids id)) := by
  have hflat : taken = gs.flatten := by simpa using hemits.flatten
  have htuple := hemits.tuple
  have hincr : gs.Pairwise fun g g' =>
      (tupleSample ids id g).timestamp < (tupleSample ids id g').timestamp := by
    refine (hemits.times hearlier).imp_of_mem ?_
    intro g g' hg hg' hlt
    obtain ⟨x, hx⟩ := exists_mem_of_ne_nil _ (htuple g hg).1
    obtain ⟨y, hy⟩ := exists_mem_of_ne_nil _ (htuple g' hg').1
    rw [← tuple_ts (htuple g hg).2 id hx, ← tuple_ts (htuple g' hg').2 id hy]
    exact hlt x hx y hy
  have hnodup : (gs.map fun g => (tupleSample ids id g).timestamp).Nodup := by
    rw [Nodup, pairwise_map]
    exact hincr.imp ne_of_lt
  -- a point stands in the tuple of its time
  have hmem : ∀ x, x ∈ labelled ids xss →
      ∃ g ∈ gs, x ∈ g ∧ x.2.ts = (tupleSample ids id g).timestamp := by
    intro x hx
    have hx' : x ∈ gs.flatten := by rwa [← hflat, hperm.mem_iff]
    obtain ⟨g, hg, hxg⟩ := mem_flatten.mp hx'
    exact ⟨g, hg, hxg, tuple_ts (htuple g hg).2 id hxg⟩
  have hlabelled : ∀ g ∈ gs, ∀ x ∈ g, x ∈ labelled ids xss := by
    intro g hg x hx
    rw [← hperm.mem_iff, hflat]
    exact mem_flatten.mpr ⟨g, hg, hx⟩
  have hall : ∀ g ∈ gs, ∀ x, x ∈ g ↔
      x ∈ labelled ids xss ∧ x.2.ts = (tupleSample ids id g).timestamp := by
    intro g hg x
    constructor
    · exact fun hx => ⟨hlabelled g hg x hx, tuple_ts (htuple g hg).2 id hx⟩
    · rintro ⟨hx, hts⟩
      obtain ⟨g', hg', hxg, hts'⟩ := hmem x hx
      rwa [inj_on_of_nodup_map hnodup hg hg' (hts.symm.trans hts')]
  refine ⟨pairwise_map.mpr hincr, ?_, ?_⟩
  · intro t
    rw [hasPoint_iff_places]
    constructor
    · rintro ⟨s, hs, rfl⟩
      obtain ⟨g, hg, rfl⟩ := mem_map.mp hs
      obtain ⟨x, hx⟩ := exists_mem_of_ne_nil _ (htuple g hg).1
      obtain ⟨hx, hts⟩ := (hall g hg x).mp hx
      exact ⟨_, (mem_places_labelled hids hlen).mpr ⟨x, hx, hts, rfl⟩⟩
    · rintro ⟨i, hi⟩
      obtain ⟨x, hx, rfl, -⟩ := (mem_places_labelled hids hlen).mp hi
      obtain ⟨g, hg, -, hts⟩ := hmem x hx
      exact ⟨_, mem_map_of_mem hg, hts.symm⟩
  · intro s hs
    obtain ⟨g, hg, rfl⟩ := mem_map.mp hs
    refine ⟨rfl, bitmap ids 0 g ||| (UInt64.ofNat ids.length <<< 58), ?_, ?_⟩
    · rw [← row_values hlen, ← eq_row hids hlen hsorted (htuple g hg).2 (hall g hg)]
      rfl
    · intro i xs hi
      have hlt := lt_of_getElem? hi
      have hgids : ∀ x ∈ g, x.1 ∈ ids :=
        fun x hx => mem_ids_of_labelled (hlabelled g hg x hx)
      have hplace : (∃ x ∈ g, ids.idxOf x.1 = i) ↔
          (i, (tupleSample ids id g).timestamp) ∈ places xss := by
        simp only [mem_places_labelled hids hlen, hall g hg, and_assoc]
      rw [testBit_tuple hgids hn (by omega), hplace, mem_places, hi]
      simp

end

/-- In a sequence in order, the last element comes after all points of the series. -/
theorem last_place (hperm : (taken.map (real.place ids)).Perm (places xss))
    (hearlier : (taken.map (real.place ids)).Pairwise Earlier) {a : ParamId × Point}
    (ha : taken.getLast? = some a) {q : Nat × Timestamp} (hq : q ∈ places xss) :
    q = real.place ids a ∨ Earlier q (real.place ids a) := by
  obtain ⟨init, rfl⟩ := getLast?_eq_some_iff.mp ha
  rw [map_append] at hperm hearlier
  rw [← hperm.mem_iff, mem_append] at hq
  rcases hq with hq | hq
  · exact .inr ((pairwise_append.mp hearlier).2.2 q hq _ mem_cons_self)
  · exact .inl (mem_singleton.mp hq)

/-- If the points come in order and the last series has a point at the last timestamp, nothing
is dropped. -/
theorem nothing_cut (hlen : ids.length = xss.length) (hne : ids ≠ [])
    (hplaces : (taken.map (real.place ids)).Perm (places xss)) (hemits : Emits ids taken gs rest)
    (hcut : Cut ids rest) (hearlier : (taken.map (real.place ids)).Pairwise Earlier)
    (hfull : EndsFull xss) : rest = [] := by
  by_contra hrest
  -- the last element of the sequence has the last timestamp
  obtain ⟨a, ha⟩ : ∃ a, rest.getLast? = some a := ⟨_, getLast?_eq_some_getLast hrest⟩
  have hend : taken.getLast? = some a := by
    rw [hemits.flatten, getLast?_append_of_ne_nil _ hrest, ha]
  have hlast := hplaces.mem_iff.mp (mem_map_of_mem (mem_of_getLast? hend))
  have htime : ∀ q ∈ places xss, q.2 ≤ a.2.ts := by
    intro q hq
    rcases last_place hplaces hearlier hend hq with rfl | h
    · exact le_rfl
    · exact h.time_le
  have hxss : xss ≠ [] := ne_nil_of_length_pos (hlen ▸ length_pos_iff.mpr hne)
  obtain ⟨xs, hxs⟩ : ∃ xs, xss.getLast? = some xs := ⟨_, getLast?_eq_some_getLast hxss⟩
  have hpoint : HasPoint xs a.2.ts := by
    refine hfull _ (hasPoint_iff_places.mpr ⟨_, hlast⟩) ?_ xs hxs
    intro ys hys p hp
    obtain ⟨i, hi⟩ := mem_iff_getElem?.mp hys
    exact htime (i, p.ts) (mem_places.mpr ⟨ys, hi, p, hp, rfl⟩)
  -- so the last series is the last element
  have hmem : (ids.length - 1, a.2.ts) ∈ places xss := by
    refine mem_places.mpr ⟨xs, ?_, hpoint⟩
    rw [hlen, ← getLast?_eq_getElem?]
    exact hxs
  apply hcut.2 _ ha
  have hidx : ids.length - 1 ≤ ids.idxOf a.1 := by
    rcases last_place hplaces hearlier hend hmem with h | h | ⟨-, h⟩
    · exact (congrArg Prod.fst h).le
    · exact absurd h (lt_irrefl _)
    · exact h.le
  have hlt : ids.idxOf a.1 < xss.length := places_lt hlast
  omega

end Sufficient

/-! ## The conditions are necessary -/

section Necessary
variable {ids : List ParamId} {xss : List (List Point)} {taken : List (ParamId × Point)}
  {gs : List (List (ParamId × Point))}

section
variable (h : IsJoin id xss (gs.map (tupleSample ids id))) (hlen : ids.length = xss.length)
  (hn : ids.length ≤ 58)
include h hlen hn

theorem IsJoin.places_subset (hgs : ∀ g ∈ gs, g.Pairwise (Follows ids))
    (hmem : ∀ g ∈ gs, ∀ x ∈ g, x.1 ∈ ids) : places xss ⊆ gs.flatten.map (real.place ids) := by
  rintro ⟨i, t⟩ hq
  obtain ⟨xs, hi, hpoint⟩ := mem_places.mp hq
  obtain ⟨s, hs, rfl⟩ := (h.times t).mpr ⟨xs, mem_of_getElem? hi, hpoint⟩
  obtain ⟨-, ctrl, hpayload, hbits⟩ := h.tuples s hs
  obtain ⟨g, hg, rfl⟩ := mem_map.mp hs
  -- the bit of the series is set, so one of its points is in the tuple
  have hctrl : bitmap ids 0 g ||| (UInt64.ofNat ids.length <<< 58) = ctrl := by injection hpayload
  have hlt : i < xss.length := lt_of_getElem? hi
  have hbit := (hbits i xs hi).mpr hpoint
  rw [← hctrl, testBit_tuple (hmem g hg) hn (by omega)] at hbit
  obtain ⟨x, hx, rfl⟩ := hbit
  refine mem_map.mpr ⟨x, mem_flatten.mpr ⟨g, hg, hx⟩, ?_⟩
  rw [← tuple_ts (hgs g hg) id hx]
  rfl

/-- If as many points were taken as the series have and the tuples are the join, then nothing was
dropped, each point was taken once, and they were taken in order. -/
theorem IsJoin.sorted (hsorted : ∀ xs ∈ xss, xs.Pairwise fun p q => p.ts < q.ts)
    (hmem : ∀ x ∈ taken, x.1 ∈ ids) (hcount : taken.length ≤ xss.flatten.length)
    (hemits : Emits ids taken gs rest) :
    rest = [] ∧ (taken.map (real.place ids)).Perm (places xss) ∧
      (taken.map (real.place ids)).Pairwise Earlier := by
  have htaken := hemits.flatten
  have hgs : ∀ g ∈ gs, g.Pairwise (Follows ids) := fun g hg => (hemits.tuple g hg).2
  have hgsmem : ∀ g ∈ gs, ∀ x ∈ g, x.1 ∈ ids := by
    intro g hg x hx
    apply hmem
    rw [htaken]
    exact mem_append_left _ (mem_flatten.mpr ⟨g, hg, hx⟩)
  have hsub := subperm_of_subset (places_nodup hsorted) (h.places_subset hlen hn hgs hgsmem)
  have hle := hsub.length_le
  have hlength := congrArg length htaken
  rw [length_places, length_map] at hle
  rw [length_append] at hlength
  have hrest : rest = [] := length_eq_zero_iff.mp (by omega)
  subst hrest
  rw [append_nil] at htaken
  refine ⟨rfl, ?_, ?_⟩
  · rw [htaken]
    refine (hsub.perm_of_length_le ?_).symm
    rw [length_places, length_map]
    omega
  · rw [htaken]
    refine sorted_of_times hgs ?_
    refine (pairwise_map.mp h.increasing).imp_of_mem ?_
    intro g g' hg hg' hlt x hx y hy
    rw [tuple_ts (hgs g hg) id hx, tuple_ts (hgs g' hg') id hy]
    exact hlt

end

/-- If the last tuple is put out, the last series has a point at the last timestamp. -/
theorem Emits.endsFull (hemits : Emits ids taken gs []) (hlen : ids.length = xss.length)
    (hperm : (taken.map (real.place ids)).Perm (places xss))
    (hearlier : (taken.map (real.place ids)).Pairwise Earlier) : EndsFull xss := by
  intro t hpoint hgreatest xs hxs
  obtain ⟨i, hi⟩ := hasPoint_iff_places.mp hpoint
  have hne : taken ≠ [] := by
    rintro rfl
    cases hperm.mem_iff.mpr hi
  have hfull := hemits.last_full _ (getLast?_eq_some_getLast hne)
  -- the last element has the last timestamp
  have hlast : real.place ids (taken.getLast hne) ∈ places xss :=
    hperm.mem_iff.mp (mem_map_of_mem (getLast_mem hne))
  have hle : (taken.getLast hne).2.ts ≤ t := by
    obtain ⟨ys, hys, p, hp, hts⟩ := mem_places.mp hlast
    exact le_of_eq_of_le hts.symm (hgreatest ys (mem_of_getElem? hys) p hp)
  have hge : t ≤ (taken.getLast hne).2.ts := by
    rcases last_place hperm hearlier (getLast?_eq_some_getLast hne) hi with heq | h
    · exact le_of_eq (congrArg Prod.snd heq)
    · exact h.time_le
  obtain ⟨ys, hys, hpoint'⟩ := mem_places.mp hlast
  have hindex : ids.idxOf (taken.getLast hne).1 = xss.length - 1 := by omega
  rw [hindex, ← getLast?_eq_getElem?, mem_def.mp hxs] at hys
  cases hys
  rwa [le_antisymm hge hle]

end Necessary

/-! ## Draining -/

section Drain
variable {rd : Reader Status Point σ Φ} {iters : List σ} {xss : List (List Point)}
  {ids : List ParamId}

theorem filled_aligned (outs : List (List Point)) :
    ((filled ids outs).map Range.id).Sublist ids := by
  induction ids generalizing outs with
  | nil => simp [filled]
  | cons id ids ih =>
    cases outs with
    | nil => simp [filled]
    | cons out outs =>
      by_cases hout : out = []
      · subst hout
        exact (ih outs).cons id
      · rw [filled_cons id hout]
        exact (ih outs).cons_cons id

theorem Buffers.Reads.mem_ids {b : Buffers Point} (h : Buffers.Reads .real joinPop b chunks b')
    (hb : b.Sound) (haligned : b.Aligned ids) : ∀ x ∈ chunks.flatten, x.1 ∈ ids := by
  intro x hx
  obtain ⟨rest, -, htakes⟩ := h.takes joinPop_lawful hb
  have hmem : x ∈ b.streams.flatten := htakes.perm.mem_iff.mpr (mem_append_left _ hx)
  obtain ⟨s, hs, hxs⟩ := mem_flatten.mp hmem
  obtain ⟨i, hi⟩ := mem_iff_getElem?.mp hs
  rw [Buffers.streams, getElem?_zipWith] at hi
  split at hi
  next range pend hr hp =>
    cases hi
    obtain ⟨a, -, rfl⟩ := mem_map.mp hxs
    apply haligned.subset
    exact mem_map_of_mem (mem_of_getElem? hr)
  next => cases hi

theorem Buffers.Reads.length_le {b : Buffers Point} (h : Buffers.Reads .real joinPop b chunks b') :
    chunks.flatten.length ≤ b.elements.length := by
  have hlen := h.elements_perm.length_eq
  rw [length_append, length_map] at hlen
  omega

theorem drain_new_join (hiters : Forall₂ (Delivers rd (.same Point)) iters xss)
    (hids : ids.Nodup) (hlen : ids.length = iters.length) (hne : iters ≠ []) (φ : Φ)
    (sizes : Nat → Nat) (hsizes : ∀ i, sampleSize + sizeofDouble * ids.length < sizes i) :
    ∃ lefts chunks b' gs rest, Parts xss (firstReads rd iters φ) lefts ∧
      Buffers.Reads .real joinPop ⟨filled ids (firstReads rd iters φ), lefts⟩ chunks b' ∧
      Fifo ids.length joinPeriod [] (chunks.flatten.map (real.place ids)) ∧
      (∀ x ∈ chunks.flatten, x.1 ∈ ids) ∧ chunks.flatten.length ≤ xss.flatten.length ∧
      Emits ids chunks.flatten gs rest ∧ Cut ids rest ∧
      drain (Join.read rd) .ok (chunks.flatten.length + 1) φ (Join.new ids iters id true) sizes =
        some (gs.map (tupleSample ids id), .noData) := by
  obtain ⟨lefts, hparts, hstarts⟩ := Merge.new_starts true φ (forall₂_ranged hiters) hlen hne
  obtain ⟨chunks, b', hsupply, hreads, hfull, hle⟩ := hstarts.supplies _ rfl (lt_add_one _)
  have hsound := hparts.sound ids
  have haligned : (Buffers.mk (filled ids (firstReads rd iters φ)) lefts).Aligned ids :=
    filled_aligned _
  have hmem := hreads.mem_ids hsound haligned
  have hcount := hreads.length_le
  rw [(hparts.elements_perm ids (hlen.trans hiters.length_eq)).length_eq] at hcount
  have hnil : ids ≠ [] := ne_nil_of_length_pos (hlen ▸ length_pos_iff.mpr hne)
  obtain ⟨gs, rest, hemits, hcut, hdrain⟩ := drain_join hids hnil (chunks.flatten.length + 1) φ
    (.new ids iters id true) sizes ⟨_, rfl, hsupply⟩ rfl hmem hsizes (lt_add_one _)
  refine ⟨lefts, chunks, b', gs, rest, hparts, hreads, ?_, hmem, hcount, hemits, hcut, hdrain⟩
  exact hreads.fifo (k := 0) hids hsound haligned rfl hfull hle

theorem not_worse_join (x y : ParamId × Point) : ¬ real.worse .join true x y ↔ x.2.ts ≤ y.2.ts := by
  rw [worse, Bool.not_eq_true, ← not_lt]
  exact decide_eq_false_iff_not

/-- Draining a join of 2 to 58 series puts out their join exactly if no series behind an empty
one needs a second read, the series of equal timestamps come in order, and the last series has
a point at the last timestamp. -/
theorem join_drain (hiters : Forall₂ (Delivers rd (.same Point)) iters xss)
    (hsorted : ∀ xs ∈ xss, xs.Pairwise fun p q => p.ts < q.ts) (hids : ids.Nodup)
    (hlen : ids.length = iters.length) (hmin : 2 ≤ iters.length) (hmax : iters.length ≤ 58)
    (id : ParamId) (φ : Φ) (sizes : Nat → Nat)
    (hsizes : ∀ i, sampleSize + sizeofDouble * ids.length < sizes i) :
    (∃ fuel out, drain (Join.read rd) .ok fuel φ (Join.new ids iters id true) sizes =
        some (out, .noData) ∧ IsJoin id xss out) ↔
    ShortAfterEmpty xss (firstReads rd iters φ) ∧ InOrder joinPeriod (places xss) ∧
      EndsFull xss := by
  have hne : iters ≠ [] := ne_nil_of_length_pos (by omega)
  have hlen' : ids.length = xss.length := hlen.trans hiters.length_eq
  have hn : ids.length ≤ 58 := by omega
  have hnil : ids ≠ [] := ne_nil_of_length_pos (by omega)
  obtain ⟨lefts, chunks, b', gs, rest, hparts, hreads, hfifo, hmem, hcount, hemits, hcut, hdrain⟩ :=
    drain_new_join hiters hids hlen hne φ sizes hsizes
  have hidx : ∀ x ∈ chunks.flatten.map (real.place ids), x.1 < ids.length := by
    intro x hx
    obtain ⟨y, hy, rfl⟩ := mem_map.mp hx
    exact idxOf_lt_length_of_mem (hmem y hy)
  constructor
  · rintro ⟨fuel, out, hout, hjoin⟩
    obtain rfl : out = gs.map (tupleSample ids id) := congrArg Prod.fst (drain_unique hout hdrain)
    obtain ⟨rfl, hperm, hearlier⟩ := hjoin.sorted hlen' hn hsorted hmem hcount hemits
    refine ⟨?_, ?_, hemits.endsFull hlen' hperm hearlier⟩
    · -- a starved series would have less points taken than it has
      by_contra hshort
      obtain ⟨id', xs, m, hzip, hlt, hstarved⟩ := hparts.starved hshort ids hlen' hids
      have hle := hreads.starved joinPop_lawful (hparts.sound ids) hstarved
      have hback : ∀ l : List (ParamId × Point), (∀ x ∈ l, x.1 ∈ ids) →
          (l.map (real.place ids)).map (fun q => ids.getD q.1 0) = l.map Prod.fst := by
        intro l hl
        rw [List.map_map]
        apply map_congr_left
        intro x hx
        have hlt := idxOf_lt_length_of_mem (hl x hx)
        show ids.getD (ids.idxOf x.1) 0 = x.1
        rw [getD_eq_getElem _ _ hlt, getElem_idxOf]
      rw [← map_place_labelled hids hlen'] at hperm
      have hcounts := (hperm.map fun q => ids.getD q.1 0).count_eq id'
      rw [hback _ hmem, hback _ fun _ => mem_ids_of_labelled, count_labelled hids hzip] at hcounts
      omega
    · exact (inOrder_of_sorted hfifo hidx hearlier).perm hperm
  · rintro ⟨hshort, hin, hfull⟩
    have hstreams : ∀ q ∈ ids.zip xss, (q.2.map fun a => (q.1, a)).Pairwise
        fun x y => ¬ real.worse .join true x y := by
      intro q hq
      simp only [not_worse_join, pairwise_map]
      exact (hsorted q.2 (of_mem_zip hq).2).imp le_of_lt
    obtain ⟨hperm, htime⟩ := hreads.complete joinPop_lawful hparts hlen' hstreams hshort
    simp only [not_worse_join] at htime
    have hplaces : (chunks.flatten.map (real.place ids)).Perm (places xss) := by
      rw [← map_place_labelled hids hlen']
      exact hperm.map _
    have hearlier := sorted_of_inOrder hidx (pairwise_map.mpr htime)
      (hplaces.nodup_iff.mpr (places_nodup hsorted)) hfifo (hin.perm hplaces.symm)
    obtain rfl := nothing_cut hlen' hnil hplaces hemits hcut hearlier hfull
    exact ⟨_, _, hdrain, isJoin_of_sorted hids hlen' hn hsorted hperm hemits hearlier id⟩

/-- Two series with points at the same times. -/
theorem join_drain_two : ∃ fuel out, drain (Join.read listRead) .ok fuel ()
      (Join.new [4, 5] [[⟨1, 10⟩, ⟨2, 11⟩], [⟨1, 20⟩, ⟨2, 21⟩]] 7 true) (fun _ => 49) =
        some (out, .noData) ∧ IsJoin 7 [[⟨1, 10⟩, ⟨2, 11⟩], [⟨1, 20⟩, ⟨2, 21⟩]] out := by
  refine (join_drain forall₂_listRead (by decide) (by decide) rfl (by decide) (by decide) 7 ()
    (fun _ => 49) fun _ => by decide).mpr ⟨?_, ?_, ?_⟩
  · unfold ShortAfterEmpty
    decide
  · have hplaces : places [[⟨1, 10⟩, ⟨2, 11⟩], [⟨1, 20⟩, ⟨2, 21⟩]] =
        [(0, 1), (0, 2), (1, 1), (1, 2)] := rfl
    rw [hplaces]
    intro i j t hij hi hj p hprev
    simp only [mem_cons, Prod.mk.injEq, not_mem_nil, or_false] at hi hj
    obtain ⟨rfl, rfl⟩ : i = 0 ∧ j = 1 := by omega
    -- the series have points at the same times
    refine .inl ⟨p, ?_, le_rfl⟩
    simpa [IsPrev] using hprev
  · rintro t ⟨xs, hxs, p, hp, rfl⟩ _ ys hys
    cases hys
    have hall : ∀ xs ∈ [[(⟨1, 10⟩ : Point), ⟨2, 11⟩], [⟨1, 20⟩, ⟨2, 21⟩]], ∀ p ∈ xs,
        HasPoint [⟨1, 20⟩, ⟨2, 21⟩] p.ts := by decide
    exact hall xs hxs p hp

/-- Draining gives the wrong result if it gives one that is not the join. -/
theorem not_isJoin_of_drain {j : Join σ} {φ : Φ} {sizes : Nat → Nat} (fuel : Nat)
    (out : List Sample) (h : drain (Join.read rd) .ok fuel φ j sizes = some (out, .noData))
    (hnot : ¬ IsJoin id xss out) :
    ¬ ∃ fuel out, drain (Join.read rd) .ok fuel φ j sizes = some (out, .noData) ∧
      IsJoin id xss out := by
  rintro ⟨fuel', out', h', hjoin⟩
  cases drain_unique h h'
  exact hnot hjoin

/-- Two series with points at 2 and 3, and at 1, 3 and 4: there are two tuples at 3. And two series
with points at 1 and 2, and at 1: there is no tuple at 2. -/
theorem join_drain_split_and_lost : (¬ ∃ fuel out, drain (Join.read listRead) .ok fuel ()
        (Join.new [4, 5] [[⟨2, 10⟩, ⟨3, 11⟩], [⟨1, 20⟩, ⟨3, 21⟩, ⟨4, 22⟩]] 7 true) (fun _ => 4096) =
          some (out, .noData) ∧ IsJoin 7 [[⟨2, 10⟩, ⟨3, 11⟩], [⟨1, 20⟩, ⟨3, 21⟩, ⟨4, 22⟩]] out) ∧
    ¬ ∃ fuel out, drain (Join.read listRead) .ok fuel ()
        (Join.new [4, 5] [[⟨1, 10⟩, ⟨2, 11⟩], [⟨1, 20⟩]] 7 true) (fun _ => 4096) =
          some (out, .noData) ∧ IsJoin 7 [[⟨1, 10⟩, ⟨2, 11⟩], [⟨1, 20⟩]] out := by
  constructor
  · refine not_isJoin_of_drain 2
      [⟨1, 7, .tuple 0x800000000000002 [20]⟩, ⟨2, 7, .tuple 0x800000000000001 [10]⟩,
        ⟨3, 7, .tuple 0x800000000000002 [21]⟩, ⟨3, 7, .tuple 0x800000000000001 [11]⟩,
        ⟨4, 7, .tuple 0x800000000000002 [22]⟩] rfl fun h => ?_
    exact absurd h.increasing (by decide)
  · refine not_isJoin_of_drain 2 [⟨1, 7, .tuple 0x800000000000003 [10, 20]⟩] rfl fun h => ?_
    have htwo := (h.times 2).mpr ⟨_, mem_cons_self, by decide⟩
    exact absurd htwo (by decide)

end Drain
end FastSTDB
