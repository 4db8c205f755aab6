import FastSTDB.MergeSpec

/-
  Merge materializers — draining a merge

  The ranges of a merge are numbered without the operators that have no elements,
  the operators are numbered with them, and a range is refilled from the operator
  with its own number. So a range behind an empty operator is refilled from another
  operator. This does no harm as long as there is nothing to refill.

  1. `drained_of_short`: if no operator behind an empty one needs a second read,
     draining gives the elements of all operators in the order of the merge.
  2. `short_of_drained`: otherwise some element is missing.
  3. `merge_drain`: both, for the merge of points by time.
-/
namespace FastSTDB
open List Pull Merging MergeKind Merge

variable {α σ Φ : Type}
variable {sizes : Nat → Nat}

/-- An operator behind one without elements delivers all it has in the first read. -/
def ShortAfterEmpty (xss outs : List (List α)) : Prop :=
  (xss.zip outs).Pairwise fun a b => a.1 = [] → b.2 = b.1

/-- The elements of the operators with the ids of the operators. -/
def labelled (ids : List ParamId) (xss : List (List α)) : List (ParamId × α) :=
  (ids.zip xss).flatMap fun p => p.2.map fun a => (p.1, a)

theorem labelled_cons (id : ParamId) (ids : List ParamId) (xs : List α) (xss : List (List α)) :
    labelled (id :: ids) (xs :: xss) = (xs.map fun e => (id, e)) ++ labelled ids xss := by
  simp [labelled]

theorem labelled_snd {ids : List ParamId} {xss : List (List α)} (hlen : ids.length = xss.length) :
    (labelled ids xss).map Prod.snd = xss.flatten := by
  induction ids generalizing xss with
  | nil =>
    obtain rfl := length_eq_zero_iff.mp hlen.symm
    rfl
  | cons id ids ih =>
    cases xss with
    | nil => cases hlen
    | cons xs xss => simp [labelled_cons, ih (Nat.succ.inj hlen)]

/-! ## The buffers after the first reads -/

section Start
variable {xss outs lefts : List (List α)} {ids : List ParamId}

theorem mem_filled {range : Range α} (h : range ∈ filled ids outs) :
    range.items ≠ [] ∧ range.id ∈ ids := by
  obtain ⟨⟨id, out⟩, hmem, hrange⟩ := mem_filterMap.mp h
  by_cases hnil : out = []
  · simp [hnil] at hrange
  · obtain rfl : .mk id out = range := by simpa [hnil] using hrange
    exact ⟨hnil, (of_mem_zip hmem).1⟩

theorem filled_cons_nil (id : ParamId) :
    filled (id :: ids) (([] : List α) :: outs) = filled ids outs := rfl

theorem filled_cons (id : ParamId) {out : List α} (h : out ≠ []) :
    filled (id :: ids) (out :: outs) = ⟨id, out⟩ :: filled ids outs := by
  cases out with
  | nil => exact absurd rfl h
  | cons a out => rfl

theorem zipWith_nothing_pending (ranges : List (Range α)) :
    ∀ pends : List (List α), (∀ pend ∈ pends, pend = []) → ranges.length ≤ pends.length →
      zipWith (fun range pend => (range.items ++ pend).map fun a => (range.id, a)) ranges
        pends = ranges.map fun range => range.items.map fun a => (range.id, a) := by
  induction ranges with
  | nil => intro pends _ _; simp
  | cons range ranges ih =>
    intro pends hnil hlen
    cases pends with
    | nil => simp at hlen
    | cons pend pends =>
      obtain rfl := hnil pend mem_cons_self
      rw [zipWith_cons_cons, append_nil, map_cons,
        ih pends (forall_mem_cons.mp hnil).2 (by simpa using hlen)]

theorem map_filled_flatten :
    ((filled ids xss).map fun range => range.items.map fun a => (range.id, a)).flatten =
      labelled ids xss := by
  induction ids generalizing xss with
  | nil => simp [filled, labelled]
  | cons id ids ih =>
    cases xss with
    | nil => simp [filled, labelled]
    | cons xs xss =>
      have hcons : labelled (id :: ids) (xs :: xss) =
          (xs.map fun a => (id, a)) ++ labelled ids xss := by simp [labelled]
      by_cases hnil : xs = []
      · subst hnil
        rw [filled_cons_nil, ih]
        rfl
      · rw [filled_cons id hnil, map_cons, flatten_cons, ih, hcons]

section
variable (hparts : Parts xss outs lefts)
include hparts

/-- The condition for an operator without elements and those behind it. -/
theorem ShortAfterEmpty.nothing_left
    (h : ∀ p ∈ xss.zip outs, p.2 = p.1) : outs = xss ∧ ∀ left ∈ lefts, left = [] := by
  induction hparts with
  | nil => exact ⟨rfl, by simp⟩
  | @cons out left xss outs lefts eod _ ih =>
    have hhead : out = out ++ left := h (out ++ left, out) (by simp)
    have hleft : left = [] := by simpa using hhead.symm
    subst hleft
    obtain ⟨houts, hlefts⟩ := ih fun p hp => h p (by simp [hp])
    refine ⟨by simp [houts], ?_⟩
    exact forall_mem_cons.mpr ⟨rfl, hlefts⟩

omit hparts in
theorem shortAfterEmpty_self : ShortAfterEmpty xss xss := by
  apply pairwise_of_forall_mem_list
  intro a _ b hb _
  obtain ⟨i, hi⟩ := mem_iff_getElem?.mp hb
  obtain ⟨h1, h2⟩ := getElem?_zip_eq_some.mp hi
  exact Option.some.inj (h2.symm.trans h1)

theorem Parts.streams (hshort : ShortAfterEmpty xss outs) :
    ∀ ids : List ParamId, ids.length = xss.length → (Buffers.mk (filled ids outs) lefts).streams =
        (filled ids xss).map fun range => range.items.map fun a => (range.id, a) := by
  induction hparts with
  | nil => intro ids _; simp [Buffers.streams, filled]
  | @cons out left xss outs lefts eod hparts ih =>
    intro ids hlen
    obtain ⟨id, ids, rfl⟩ : ∃ id ids', ids = id :: ids' := exists_cons_of_length_eq_add_one hlen
    have hlen' : ids.length = xss.length := by simpa using hlen
    obtain ⟨hhead, htail⟩ := pairwise_cons.mp hshort
    by_cases hout : out = []
    · -- from here on nothing is pending, so it does not matter who is asked
      subst hout
      obtain rfl := eod rfl
      obtain ⟨houts, hlefts⟩ := ShortAfterEmpty.nothing_left hparts fun p hp => hhead p hp rfl
      subst houts
      rw [filled_cons_nil]
      refine zipWith_nothing_pending _ _ ?_ ?_
      · exact forall_mem_cons.mpr ⟨rfl, hlefts⟩
      · have hle := filled_length_le ids outs
        have := hparts.lengths
        simp only [length_cons]
        omega
    · have hne : out ++ left ≠ [] := by simp [hout]
      have hih := ih htail ids hlen'
      rw [filled_cons id hout, filled_cons id hne]
      rw [Buffers.streams] at hih ⊢
      rw [zipWith_cons_cons, hih, map_cons]

theorem Parts.sound (ids : List ParamId) : (Buffers.mk (filled ids outs) lefts).Sound where
  length := by
    have hle := filled_length_le ids outs
    have := hparts.lengths
    show (filled ids outs).length ≤ lefts.length
    omega
  eod := by
    intro i range pend hr _ hnil
    exact absurd hnil (mem_filled (mem_of_getElem? hr)).1

omit hparts in
theorem Buffers.Starved.cons {ranges : List (Range α)} {pends : List (List α)} {id : ParamId}
    {n : Nat} (h : (Buffers.mk ranges pends).Starved id n) {range : Range α} (hid : range.id ≠ id)
    (pend : List α) : (Buffers.mk (range :: ranges) (pend :: pends)).Starved id n := by
  obtain ⟨i, items, hi, hlen, hpend, honly⟩ := h
  refine ⟨i + 1, items, hi, hlen, hpend, ?_⟩
  intro j r hj hr
  cases j with
  | zero =>
    cases hj
    exact absurd hr hid
  | succ j => rw [honly j r hj hr]

/-- Behind an empty operator, the first one that needs a second read is starved. `k` operators
stand before these that have no range any more. -/
theorem Parts.starved_behind :
    ∀ (ids : List ParamId) (k : Nat), ids.length = xss.length → ids.Nodup → outs ≠ xss →
      (k = 0 → ¬ ShortAfterEmpty xss outs) → ∃ id xs n, (id, xs) ∈ ids.zip xss ∧ n < xs.length ∧
        (Buffers.mk (filled ids outs) (replicate k [] ++ lefts)).Starved id n := by
  induction hparts with
  | nil => exact fun _ _ _ _ hne _ => absurd rfl hne
  | @cons out left xss outs lefts eod hparts ih =>
    intro ids k hlen hnodup hne hshort
    obtain ⟨id, ids, rfl⟩ : ∃ id ids', ids = id :: ids' := exists_cons_of_length_eq_add_one hlen
    have hlen' : ids.length = xss.length := by simpa using hlen
    obtain ⟨hid, hnodup'⟩ := nodup_cons.mp hnodup
    by_cases hout : out = []
    · -- one more operator without a range
      subst hout
      obtain rfl := eod rfl
      obtain ⟨id', xs, n, hmem, hlt, hst⟩ := ih ids (k + 1) hlen' hnodup'
        (fun h => hne (by rw [h, append_nil])) (fun h => absurd h (Nat.succ_ne_zero k))
      rw [replicate_succ', append_assoc] at hst
      exact ⟨id', xs, n, mem_cons_of_mem _ hmem, hlt, hst⟩
    · rw [filled_cons id hout]
      by_cases hlast : k ≠ 0 ∧ left ≠ []
      · obtain ⟨k, rfl⟩ := Nat.exists_eq_succ_of_ne_zero hlast.1
        refine ⟨id, out ++ left, out.length, mem_cons_self, ?_, 0, out, rfl, rfl, rfl, ?_⟩
        · have := length_pos_iff.mpr hlast.2
          rw [length_append]
          omega
        · intro j range hj hr
          cases j with
          | zero => rfl
          | succ j => exact absurd (hr ▸ (mem_filled (mem_of_getElem? hj)).2) hid
      · have htail : k = 0 → ¬ ShortAfterEmpty xss outs := by
          intro hk h
          refine hshort hk (Pairwise.cons ?_ h)
          intro p _ hnil
          simp [hout] at hnil
        have hrest : k = 0 ∨ left = [] := by
          by_contra h
          exact hlast (not_or.mp h)
        have hne' : outs ≠ xss := by
          rintro rfl
          rcases hrest with hk | rfl
          · exact htail hk shortAfterEmpty_self
          · exact hne (by rw [append_nil])
        have hmove : replicate k [] ++ left :: lefts = left :: (replicate k [] ++ lefts) := by
          rcases hrest with rfl | rfl
          · rfl
          · rw [append_cons, ← replicate_succ', replicate_succ, cons_append]
        obtain ⟨id', xs, n, hmem, hlt, hst⟩ := ih ids k hlen' hnodup' hne' htail
        refine ⟨id', xs, n, mem_cons_of_mem _ hmem, hlt, ?_⟩
        rw [hmove]
        refine hst.cons ?_ left
        rintro rfl
        exact hid (of_mem_zip hmem).1

theorem Parts.starved (hshort : ¬ ShortAfterEmpty xss outs)
    (ids : List ParamId) (hlen : ids.length = xss.length) (hnodup : ids.Nodup) :
    ∃ id xs n, (id, xs) ∈ ids.zip xss ∧ n < xs.length ∧
      (Buffers.mk (filled ids outs) lefts).Starved id n := by
  refine hparts.starved_behind ids 0 hlen hnodup ?_ fun _ => hshort
  rintro rfl
  exact hshort shortAfterEmpty_self

end

end Start

/-! ## Draining -/

section Drain
variable {kind : MergeKind α} {rd : Reader Status α σ Φ} {order : MergeOrder} {pop : HeapPop α}
  {forward : Bool} {iters : List σ} {xss : List (List α)} {ids : List ParamId}

/-- The elements of the buffers after the first reads are those of the operators. -/
theorem Parts.elements_perm {outs lefts : List (List α)} (hparts : Parts xss outs lefts) :
    ∀ ids : List ParamId, ids.length = xss.length →
      (Buffers.mk (filled ids outs) lefts).elements.Perm xss.flatten := by
  induction hparts with
  | nil => intro ids _; simp [Buffers.elements, filled]
  | @cons out left xss outs lefts eod _ ih =>
    intro ids hlen
    obtain ⟨id, ids, rfl⟩ : ∃ id ids', ids = id :: ids' := exists_cons_of_length_eq_add_one hlen
    have hperm := ih ids (by simpa using hlen)
    have hranges : ((filled (id :: ids) (out :: outs)).map (·.items)).flatten =
        out ++ ((filled ids outs).map (·.items)).flatten := by
      by_cases hout : out = []
      · subst hout
        rfl
      · rw [filled_cons id hout]
        rfl
    rw [Buffers.elements] at hperm ⊢
    rw [hranges, flatten_cons, flatten_cons, append_assoc, append_assoc]
    refine Perm.append_left out ?_
    exact (perm_append_comm_assoc _ _ _).trans (hperm.append_left left)

theorem mem_labelled {x : ParamId × α} (h : x ∈ labelled ids xss) : x.2 ∈ xss.flatten := by
  obtain ⟨p, hp, hx⟩ := mem_flatMap.mp h
  obtain ⟨a, ha, rfl⟩ := mem_map.mp hx
  exact mem_flatten.mpr ⟨p.2, (of_mem_zip hp).2, ha⟩

theorem count_labelled (hids : ids.Nodup) {id : ParamId} {xs : List α}
    (h : (id, xs) ∈ ids.zip xss) : ((labelled ids xss).map Prod.fst).count id = xs.length := by
  induction ids generalizing xss with
  | nil => cases h
  | cons id0 ids ih =>
    cases xss with
    | nil => cases h
    | cons xs0 xss =>
      obtain ⟨hid, hids⟩ := nodup_cons.mp hids
      have hcons : (labelled (id0 :: ids) (xs0 :: xss)).map Prod.fst =
          replicate xs0.length id0 ++ (labelled ids xss).map Prod.fst := by
        simp [labelled]
      rw [hcons, count_append, count_replicate]
      rcases mem_cons.mp h with heq | h
      · cases heq
        have hzero : ((labelled ids xss).map Prod.fst).count id = 0 := by
          rw [count_eq_zero]
          intro hmem
          obtain ⟨x, hx, rfl⟩ := mem_map.mp hmem
          obtain ⟨p, hp, hx⟩ := mem_flatMap.mp hx
          obtain ⟨a, -, rfl⟩ := mem_map.mp hx
          exact hid (of_mem_zip hp).1
        rw [hzero, beq_self_eq_true, if_pos rfl, add_zero]
      · have hne : (id0 == id) = false := by
          rw [beq_eq_false_iff_ne]
          rintro rfl
          exact hid (of_mem_zip h).1
        rw [hne, if_neg Bool.false_ne_true, zero_add, ih hids h]

/-- If no operator behind an empty one needs a second read, the reads take the elements of all
operators, in the order of the merge. -/
theorem Buffers.Reads.complete {pop : List (HeapItem α) → Option (HeapItem α × List (HeapItem α))}
    (hpop : LawfulPop (order.worse forward) pop) {outs lefts : List (List α)} {b' : Buffers α}
    {chunks : List (List (ParamId × α))} (hparts : Parts xss outs lefts)
    (hlen : ids.length = xss.length)
    (hsorted : ∀ p ∈ ids.zip xss, (p.2.map fun a => (p.1, a)).Pairwise
      fun x y => ¬ kind.worse order forward x y)
    (hreads : Buffers.Reads kind pop ⟨filled ids outs, lefts⟩ chunks b')
    (hshort : ShortAfterEmpty xss outs) : chunks.flatten.Perm (labelled ids xss) ∧
      chunks.flatten.Pairwise fun x y => ¬ kind.worse order forward x y := by
  obtain ⟨rest, hrest, htakes⟩ := hreads.takes hpop (hparts.sound ids)
  rw [hparts.streams hshort ids hlen] at htakes
  constructor
  · have hperm := htakes.perm
    rw [hrest, append_nil, map_filled_flatten] at hperm
    exact hperm.symm
  · refine htakes.sorted ?_ ?_
    · intro x y z hxy hyz
      simp only [worse, Bool.not_eq_true] at hxy hyz ⊢
      exact order.comp_trans forward hxy hyz
    · intro s hs
      obtain ⟨range, hrange, rfl⟩ := mem_map.mp hs
      obtain ⟨p, hp, hfilled⟩ := mem_filterMap.mp hrange
      dsimp only at hfilled
      split at hfilled
      · cases hfilled
      · cases hfilled
        exact hsorted p hp

variable (hpop : LawfulPop (order.worse forward) (pop (order.worse forward)))
  (hiters : Forall₂ (Delivers rd (ranged α)) iters xss) (hlen : ids.length = iters.length)
  (hpos : ∀ a ∈ xss.flatten, 0 < kind.sizeRequired a)
  (hsizes : ∀ i, ∀ a ∈ xss.flatten, kind.sizeRequired a ≤ sizes i)
include hpop hiters hlen hpos hsizes

/-- A merge of operators without elements read ahead is drained by reads of the buffers. -/
theorem drain_new (φ : Φ) : ∃ lefts chunks b', Parts xss (firstReads rd iters φ) lefts ∧
      Buffers.Reads kind (pop (order.worse forward))
        ⟨filled ids (firstReads rd iters φ), lefts⟩ chunks b' ∧ ∀ fuel, xss.flatten.length < fuel →
        drain (fun φ st size => kwayMerge kind rd order pop φ st size) .ok fuel φ
          (.new ids iters forward) sizes = some (kind.samples chunks.flatten, .noData) := by
  by_cases hne : iters = []
  · -- nothing to merge
    subst hne
    obtain rfl : xss = [] := forall₂_nil_left_iff.mp hiters
    obtain rfl : ids = [] := length_eq_zero_iff.mp hlen
    refine ⟨[], [[]], ⟨[], []⟩, .nil, .last (.refl _ _) .nil, fun fuel hfuel => ?_⟩
    obtain ⟨fuel, rfl⟩ : ∃ k, fuel = k + 1 := ⟨fuel - 1, by omega⟩
    rfl
  obtain ⟨lefts, hparts, hstarts⟩ := new_starts forward φ hiters hlen hne
  have hperm := hparts.elements_perm ids (hlen.trans hiters.length_eq)
  obtain ⟨chunks, b', hdrain, hreads⟩ := Starts.drain_reads hpop
    (xss.flatten.length + 1) sizes hstarts rfl (fun a ha => hpos a (hperm.mem_iff.mp ha))
    (fun i a ha => hsizes i a (hperm.mem_iff.mp ha)) (by rw [hperm.length_eq]; omega)
  refine ⟨lefts, chunks, b', hparts, hreads, fun fuel hfuel => ?_⟩
  exact drain_mono hfuel hdrain

/-- If no operator behind an empty one needs a second read, draining gives the elements of all
operators, with their ids and in the order of the merge. -/
theorem drained_of_short (φ : Φ)
    (hsorted : ∀ p ∈ ids.zip xss, (p.2.map fun a => (p.1, a)).Pairwise
      fun x y => ¬ kind.worse order forward x y)
    (hshort : ShortAfterEmpty xss (firstReads rd iters φ)) :
    ∃ taken, taken.Perm (labelled ids xss) ∧
      taken.Pairwise (fun x y => ¬ kind.worse order forward x y) ∧
      ∀ fuel, xss.flatten.length < fuel →
        drain (fun φ st size => kwayMerge kind rd order pop φ st size) .ok fuel φ
          (.new ids iters forward) sizes = some (kind.samples taken, .noData) := by
  obtain ⟨lefts, chunks, b', hparts, hreads, hdrain⟩ := drain_new hpop hiters hlen hpos hsizes φ
  obtain ⟨hperm, hpairwise⟩ :=
    hreads.complete hpop hparts (hlen.trans hiters.length_eq) hsorted hshort
  exact ⟨chunks.flatten, hperm, hpairwise, hdrain⟩

/-- If draining puts out the elements of all operators with their ids, no operator behind an
empty one needed a second read. -/
theorem short_of_drained (hids : ids.Nodup) (φ : Φ)
    (hparam : ∀ id a, (kind.sample (kind.key id a).id a).paramid = id) {fuel : Nat} {out : List Sample}
    {status : Status}
    (hdrain : drain (fun φ st size => kwayMerge kind rd order pop φ st size) .ok fuel φ
      (.new ids iters forward) sizes = some (out, status))
    (hout : out.Perm (kind.samples (labelled ids xss))) :
    ShortAfterEmpty xss (firstReads rd iters φ) := by
  obtain ⟨lefts, chunks, b', hparts, hreads, hall⟩ := drain_new hpop hiters hlen hpos hsizes φ
  have hlen' : ids.length = xss.length := hlen.trans hiters.length_eq
  have heq : out = kind.samples chunks.flatten :=
    congrArg Prod.fst (drain_unique hdrain (hall _ (lt_add_one _)))
  have hcount : ∀ taken : List (ParamId × α),
      (kind.samples taken).map Sample.paramid = taken.map Prod.fst := by
    intro taken
    simp only [samples, map_map]
    exact map_congr_left fun x _ => hparam x.1 x.2
  by_contra hshort
  obtain ⟨id, xs, n, hmem, hlt, hstarved⟩ := hparts.starved hshort ids hlen' hids
  have hle := hreads.starved hpop (hparts.sound ids) hstarved
  have hcounts := (hout.map Sample.paramid).count_eq id
  rw [heq, hcount, hcount, count_labelled hids hmem] at hcounts
  omega

end Drain

/-! ## The merge of points by time -/

section Points
variable {rd : Reader Status Point σ Φ} {forward : Bool} {iters : List σ} {xss : List (List Point)}
  {ids : List ParamId}

def Sample.key (s : Sample) : Lex (UInt64 × UInt64) := toLex (s.timestamp, s.paramid)

/-- In the direction of the scan, `a` does not come after `b`. -/
def inOrder {β : Type} [LE β] (forward : Bool) (a b : β) : Prop := if forward then a ≤ b else b ≤ a

theorem sorted_by_time {kind : MergeKind α} {ts : α → Timestamp} {xs : List α} {id : ParamId}
    (hkey : ∀ a, kind.key id a = ⟨ts a, id⟩)
    (h : xs.Pairwise fun a b => inOrder forward (ts a) (ts b)) :
    (xs.map fun a => (id, a)).Pairwise fun x y => ¬ kind.worse .time forward x y := by
  rw [pairwise_map]
  refine h.imp ?_
  intro a b hab
  rw [worse, Bool.not_eq_true, MergeOrder.comp_eq_false, hkey, hkey]
  unfold inOrder at hab
  split at hab
  next hf =>
    rw [if_pos hf]
    exact Prod.Lex.toLex_le_toLex.mpr ((lt_or_eq_of_le hab).imp_right fun h => ⟨h, le_rfl⟩)
  next hf =>
    rw [if_neg hf]
    exact Prod.Lex.toLex_le_toLex.mpr ((lt_or_eq_of_le hab).imp_right fun h => ⟨h, le_rfl⟩)

/-- The samples have the keys of the elements. -/
def MergeKind.Keyed (kind : MergeKind α) : Prop :=
  ∀ id a, (kind.sample (kind.key id a).id a).key = MergeOrder.time.rank (kind.key id a)

theorem samples_sorted {kind : MergeKind α} (hkey : kind.Keyed) {taken : List (ParamId × α)} :
    (kind.samples taken).Pairwise (fun s t => inOrder forward s.key t.key) ↔
      taken.Pairwise fun x y => ¬ kind.worse .time forward x y := by
  rw [samples, pairwise_map]
  refine ⟨fun h => h.imp fun hxy => ?_, fun h => h.imp fun hxy => ?_⟩
  · rw [hkey, hkey] at hxy
    rwa [worse, Bool.not_eq_true, MergeOrder.comp_eq_false]
  · rw [worse, Bool.not_eq_true, MergeOrder.comp_eq_false] at hxy
    rwa [hkey, hkey]

def samplesOf (ids : List ParamId) (xss : List (List Point)) : List Sample :=
  real.samples (labelled ids xss)

/-- Draining a merge by time puts out each point of each operator once, with the id of its
operator and in the order of `(timestamp, id)`, exactly if no operator behind one
without points needs a second read of 1024 points. -/
theorem merge_drain {pop : HeapPop Point}
    (hpop : LawfulPop (MergeOrder.time.worse forward) (pop (MergeOrder.time.worse forward)))
    (hiters : Forall₂ (Delivers rd (.same Point)) iters xss)
    (hsorted : ∀ xs ∈ xss, xs.Pairwise fun p q => inOrder forward p.ts q.ts)
    (hids : ids.Nodup) (hlen : ids.length = iters.length) (φ : Φ) (sizes : Nat → Nat)
    (hsizes : ∀ i, sampleSize ≤ sizes i) :
    (∃ fuel out, drain (fun φ st size => kwayMerge .real rd .time pop φ st size) .ok fuel φ
        (.new ids iters forward) sizes = some (out, .noData) ∧
      out.Perm (samplesOf ids xss) ∧ out.Pairwise fun s t => inOrder forward s.key t.key) ↔
    ShortAfterEmpty xss (firstReads rd iters φ) := by
  have hpos : ∀ a ∈ xss.flatten, 0 < real.sizeRequired a := by
    intro a _
    show 0 < sampleSize
    decide
  constructor
  · rintro ⟨fuel, out, hdrain, hperm, -⟩
    exact short_of_drained hpop (forall₂_ranged hiters) hlen hpos (fun i _ _ => hsizes i) hids φ
      (fun _ _ => rfl) hdrain hperm
  · intro hshort
    obtain ⟨taken, hperm, hpairwise, hdrain⟩ :=
      drained_of_short hpop (forall₂_ranged hiters) hlen hpos (fun i _ _ => hsizes i) φ
        (fun p hp => sorted_by_time (fun _ => rfl) (hsorted p.2 (of_mem_zip hp).2)) hshort
    exact ⟨_, _, hdrain _ (lt_add_one _), hperm.map _,
      (samples_sorted fun _ _ => rfl).mpr hpairwise⟩

theorem stablePop_merge (order : MergeOrder) (forward : Bool) :
    LawfulPop (order.worse forward) (stablePop fun a b : HeapItem α => order.worse forward a b) :=
  stablePop_lawful (fun a => order.comp_self forward a.key)
    (fun _ _ _ hab hbc => order.comp_trans forward hab hbc)
    (fun _ _ hab => order.comp_total forward hab)

/-- Two series with points at the same times. -/
theorem merge_drain_two : ∃ fuel out,
    drain (fun φ st size => kwayMerge .real listRead .time stablePop φ st size) .ok fuel ()
      (.new [2, 1] [[⟨10, 5⟩, ⟨20, 6⟩], [⟨10, 7⟩]] true) (fun _ => 32) = some (out, .noData) ∧
    out.Perm (samplesOf [2, 1] [[⟨10, 5⟩, ⟨20, 6⟩], [⟨10, 7⟩]]) ∧
    out.Pairwise fun s t => inOrder true s.key t.key := by
  refine (merge_drain (stablePop_merge .time true) forall₂_listRead ?_ (by decide) rfl ()
    (fun _ => 32) fun _ => le_refl 32).mpr ?_
  · unfold inOrder
    decide
  · unfold ShortAfterEmpty
    decide

/-- A series of more than 1024 points behind one without points: points are missing. -/
theorem lost_behind_empty {xs : List Point} (h : 1024 < xs.length) {fuel : Nat} {out : List Sample}
    (hdrain : drain (fun φ st size => kwayMerge .real listRead .time stablePop φ st size)
      .ok fuel () (.new [1, 2] [[], xs] true) (fun _ => 4096) = some (out, .noData)) :
    ¬ out.Perm (samplesOf [1, 2] [[], xs]) := by
  intro hout
  have hshort : ShortAfterEmpty [[], xs] (firstReads listRead [[], xs] ()) := by
    refine short_of_drained (stablePop_merge .time true) (forall₂_ranged forall₂_listRead) rfl ?_ ?_
      (by decide) () ?_ hdrain hout
    · exact fun _ _ => Nat.zero_lt_succ 31
    · exact fun _ _ _ => Nat.le_of_ble_eq_true rfl
    · exact fun _ _ => rfl
  -- the first read of the second series delivers 1024 points
  have htake : xs.take 1024 = xs := (pairwise_cons.mp hshort).1 (xs, xs.take 1024) mem_cons_self rfl
  have hlen := congrArg length htake
  rw [length_take] at hlen
  omega

def longSeries : List Point := (List.range 1025).map fun i => ⟨.ofNat i, 0⟩

/-- The points of `longSeries` are in order, but behind a series without points they do not
all come out. -/
theorem merge_drain_behind_empty : longSeries.Pairwise (fun p q => p.ts < q.ts) ∧
    ¬ ∃ fuel out, drain (fun φ st size => kwayMerge .real listRead .time stablePop φ st size)
        .ok fuel () (.new [1, 2] [[], longSeries] true) (fun _ => 4096) = some (out, .noData) ∧
      out.Perm (samplesOf [1, 2] [[], longSeries]) := by
  constructor
  · rw [longSeries, pairwise_map]
    refine pairwise_lt_range.imp_of_mem ?_
    intro i j hi hj hlt
    rw [mem_range] at hi hj
    rw [UInt64.lt_iff_toNat_lt, UInt64.toNat_ofNat', UInt64.toNat_ofNat']
    omega
  · rintro ⟨fuel, out, hdrain, hout⟩
    exact lost_behind_empty (by simp [longSeries]) hdrain hout

end Points
end FastSTDB
