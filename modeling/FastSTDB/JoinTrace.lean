import FastSTDB.Lib.Ties
import FastSTDB.JoinSpec
import FastSTDB.MergeDrain

/-
  Join materializer — the order of the merged sequence

  The merge of a join compares timestamps only. Its heap is stable: of several
  series with the same next timestamp, it gives out the one that was pushed first.
  A series is pushed when its element before was given out; and each read of the
  merge builds the heap anew, from the ranges in the order of the series. The
  buffer of the join has room for 128 samples, so this happens every 128 elements.

  1. `Run.fifo`, `Reads.fifo`: the merged sequence keeps the rule `Ties.Fifo`.
  2. `Starts.supplies`: the samples a join reads, for what they are taken from.
-/
namespace FastSTDB
open List Pull Merging Ties MergeKind Buffers MergeOrder

variable {σ Φ : Type}
variable {b b' : Buffers Point} {heap : List (HeapItem Point)} {it : HeapItem Point}
  {taken : List (ParamId × Point)} {heap' : List (HeapItem Point)}

/-- The number of the series of an element, and its time. -/
def MergeKind.place (kind : MergeKind Point) (ids : List ParamId) (x : ParamId × Point) :
    Nat × Timestamp :=
  (ids.idxOf x.1, (kind.key x.1 x.2).ts)

/-! ## The heap is a queue -/

section Queue
variable {ids : List ParamId}

/-- The heap holds the series in the order of their ranks; it was built anew when `B` elements
had been put out, and `u` has been put out. -/
def Queued (ids : List ParamId) (B : Nat) (u : List (Nat × Timestamp)) (heap : List (HeapItem Point)) :
    Prop :=
  heap.Pairwise fun a b =>
    stampSince ids.length B u (ids.idxOf a.key.id) <
      stampSince ids.length B u (ids.idxOf b.key.id)

/-- The ranges stand in the order of the series. -/
def Buffers.Aligned (ids : List ParamId) (b : Buffers Point) : Prop :=
  (b.ranges.map Range.id).Sublist ids

theorem Buffers.Step.range_ids {b1 : Buffers Point} {i : Nat} {x : ParamId × Point} (h : b.Step i x b1) :
    b1.ranges.map Range.id = b.ranges.map Range.id := by
  have hset : ∀ {range range' : Range Point}, b.ranges[i]? = some range → range'.id = range.id →
      (b.ranges.set i range').map Range.id = b.ranges.map Range.id := by
    intro range range' hi hid
    rw [map_set, hid]
    apply set_same
    rw [getElem?_map, hi]
    rfl
  cases h with
  | advance head => exact hset head rfl
  | refill head _ _ => exact hset head rfl

theorem Buffers.Run.aligned {pop : List (HeapItem Point) → Option (HeapItem Point × List (HeapItem Point))}
    (h : Run real pop b heap taken b' heap') (hb : b.Aligned ids) : b'.Aligned ids := by
  induction h with
  | refl => exact hb
  | cons _ _ step _ ih =>
    apply ih
    rw [Aligned, step.range_ids]
    exact hb

theorem pushRanges_ids (ranges : List (Range Point)) (k : Nat) :
    ((pushRanges real k ranges).map fun it => it.key.id).Sublist (ranges.map Range.id) := by
  induction ranges generalizing k with
  | nil => exact Sublist.refl _
  | cons range ranges ih =>
    obtain ⟨id, items⟩ := range
    cases items with
    | nil => exact (ih (k + 1)).cons _
    | cons a items => exact (ih (k + 1)).cons_cons _

theorem Buffers.Aligned.item_mem (hb : b.Aligned ids) (hheap : b.Heaped real heap)
    (hit : it ∈ heap) : it.key.id ∈ ids := by
  apply hb.subset
  apply (pushRanges_ids b.ranges 0).subset
  exact mem_map_of_mem (hheap.mem_iff.mp hit)

theorem pairwise_idxOf (hids : ids.Nodup) : ids.Pairwise fun a b => ids.idxOf a < ids.idxOf b := by
  rw [pairwise_iff_getElem]
  intro i j hi hj hij
  rw [hids.idxOf_getElem i hi, hids.idxOf_getElem j hj]
  exact hij

theorem queued_new (hids : ids.Nodup) (hb : b.Aligned ids)
    (u : List (Nat × Timestamp)) : Queued ids u.length u (pushRanges real 0 b.ranges) := by
  have hsub := (pushRanges_ids b.ranges 0).trans hb
  have hpairs := (pairwise_idxOf hids).sublist hsub
  rw [pairwise_map] at hpairs
  simp only [Queued, stampSince_self]
  exact hpairs

/-- Giving out an item and pushing the next one of its range keeps the queue. -/
theorem Queued.step {B : Nat} {u : List (Nat × Timestamp)} {before after item : List (HeapItem Point)}
    {x : Nat × Timestamp} (h : Queued ids B u (before ++ it :: after))
    (hx : x.1 = ids.idxOf it.key.id) (hmem : ∀ a ∈ before ++ after, a.key.id ∈ ids)
    (hitem : item.Pairwise fun _ _ => False) (hid : ∀ a ∈ item, a.key.id = it.key.id)
    (hB : B ≤ u.length) : Queued ids B (u ++ [x]) (before ++ after ++ item) := by
  have hsub : (before ++ after).Sublist (before ++ it :: after) :=
    (Sublist.refl before).append (sublist_cons_self it after)
  -- no other item in the queue has the rank of the one given out
  have hne : ∀ a ∈ before ++ after, x.1 ≠ ids.idxOf a.key.id := by
    obtain ⟨-, hcons, hcross⟩ := pairwise_append.mp h
    intro a ha heq
    rw [hx] at heq
    rcases mem_append.mp ha with ha | ha
    · have := hcross a ha it mem_cons_self
      rw [heq] at this
      exact lt_irrefl _ this
    · have := (pairwise_cons.mp hcons).1 a ha
      rw [heq] at this
      exact lt_irrefl _ this
  refine pairwise_append.mpr ⟨?_, hitem.imp fun h => h.elim, ?_⟩
  · refine (h.sublist hsub).imp_of_mem ?_
    intro a b ha hb hlt
    rwa [stampSince_concat_ne (hne a ha), stampSince_concat_ne (hne b hb)]
  · intro a ha b hb
    rw [stampSince_concat_ne (hne a ha), hid b hb, ← hx, stampSince_concat_self hB]
    exact stampSince_lt (idxOf_lt_length_of_mem (hmem a ha))

end Queue

/-! ## The rule of the merge -/

section Fifo
variable {ids : List ParamId} {period : Nat}

abbrev joinPop (items : List (HeapItem Point)) : Option (HeapItem Point × List (HeapItem Point)) :=
  stablePop (join.worse true) items

theorem joinPop_lawful : LawfulPop (join.worse true) joinPop := stablePop_merge .join true

theorem Buffers.streams_key : ∀ s ∈ b.streams, ∀ x ∈ s, ∀ y ∈ s, x.1 = y.1 := by
  intro s hs x hx y hy
  obtain ⟨i, hi⟩ := mem_iff_getElem?.mp hs
  rw [streams, getElem?_zipWith] at hi
  split at hi
  · cases hi
    obtain ⟨a, -, rfl⟩ := mem_map.mp hx
    obtain ⟨a', -, rfl⟩ := mem_map.mp hy
    rfl
  · cases hi

/-- An item with the same time as the one given out that stands in the heap stands behind it. -/
theorem after_of_tie {before after : List (HeapItem Point)} {yt : HeapItem Point}
    (hheap : heap = before ++ it :: after) (hbest : ∀ c ∈ heap, join.worse true it c = false)
    (hbefore : ∀ b ∈ before, ∃ c ∈ heap, join.worse true b c = true) (hy : yt ∈ heap)
    (hts : yt.key.ts = it.key.ts) (hid : yt.key.id ≠ it.key.id) : yt ∈ after := by
  rw [hheap] at hy
  rcases mem_append.mp hy with hy | hy
  · obtain ⟨c, hc, hworse⟩ := hbefore yt hy
    have hnot := hbest c hc
    rw [MergeOrder.worse, comp] at hworse hnot
    rw [hts] at hworse
    exact absurd (hnot.symm.trans hworse) Bool.false_ne_true
  · rcases mem_cons.mp hy with rfl | hy
    · exact absurd rfl hid
    · exact hy

theorem next_place {w : List (ParamId × Point)} {y : Nat × Timestamp}
    (h : Next (w.map (real.place ids)) y) :
    ∃ v1 x v2, w = v1 ++ x :: v2 ∧ real.place ids x = y ∧ ∀ z ∈ v1, z.1 ≠ x.1 := by
  obtain ⟨v1, v2, heq, hne⟩ := h
  obtain ⟨w1, w2, rfl, rfl, hw2⟩ := map_eq_append_iff.mp heq
  obtain ⟨x, w2, rfl, rfl, rfl⟩ := map_eq_cons_iff.mp hw2
  refine ⟨w1, x, w2, rfl, rfl, ?_⟩
  intro z hz hzx
  refine hne _ (mem_map_of_mem hz) ?_
  rw [place, place, hzx]

/-- A run from a heap that is a queue keeps the rule, if what comes after it does. The heap was
built anew when `period * k` elements had been put out. -/
theorem Buffers.Run.fifo (h : Run real joinPop b heap taken b' heap') :
    ∀ {u : List (Nat × Timestamp)} {k : Nat} (future : List (ParamId × Point))
      {rest : List (List (ParamId × Point))}, b.Heaped real heap → b.Sound → b.Aligned ids →
      Queued ids (period * k) u heap → period * k ≤ u.length →
      u.length + taken.length ≤ period * k + period →
      Takes (real.worse .join true) b'.streams future rest →
      Fifo ids.length period (u ++ taken.map (real.place ids)) (future.map (real.place ids)) →
      Fifo ids.length period u ((taken ++ future).map (real.place ids)) := by
  induction h with
  | refl =>
    intro _ _ _ _ _ _ _ _ _ _ _ hfuture
    simpa using hfuture
  | @cons b b1 b2 heap heap1 heap2 it id out popped key step run ih =>
    intro u k future rest hheap hb haligned hqueue hle hlen htakes hfuture
    obtain rfl : id = it.key.id := by rw [key]; rfl
    obtain ⟨before, after, hitems, hrest, hbest, hbefore⟩ := stablePop_some popped
    obtain ⟨hb1, s, hs, hset⟩ := step.stream hb
    have hheap1 := step.heaped hheap joinPop_lawful popped
    have haligned1 : b1.Aligned ids := by
      rw [Aligned, step.range_ids]
      exact haligned
    rw [length_cons] at hlen
    rw [map_cons, append_cons] at hfuture
    -- all that comes after this element is taken from the streams of `b1`
    have hlater : Takes (real.worse .join true) b1.streams (out ++ future) rest :=
      (run.takes joinPop_lawful hheap1 hb1).2.trans htakes
    refine .cons ?_ ?_
    · intro y hnext hidx hts
      obtain ⟨v1, x, v2, hsplit, rfl, hfirst⟩ := next_place hnext
      have hid : x.1 ≠ it.key.id := by
        intro heq
        apply hidx
        rw [place, place, heq]
      -- the next element of that series is in the heap
      have hhead : ∃ t ∈ b.streams, t.head? = some x := by
        obtain ⟨t, ht, hhead⟩ := hlater.next streams_key hsplit hfirst
        rw [hset] at ht
        rcases mem_or_eq_of_mem_set ht with ht | rfl
        · exact ⟨t, ht, hhead⟩
        · have hmem := mem_of_getElem? hs
          exact absurd (streams_key _ hmem x
            (mem_cons_of_mem _ (mem_of_mem_head? hhead)) _ mem_cons_self) hid
      obtain ⟨t, ht, hhead⟩ := hhead
      obtain ⟨i, hi⟩ := hb.head_stream real ht hhead
      obtain ⟨id, items, -, hkey⟩ := hheap.popped joinPop_lawful popped
      have hafter : ⟨real.key x.1 x.2, x.2, i⟩ ∈ after := by
        refine after_of_tie hitems hbest hbefore (hheap.mem_iff.mpr hi) ?_ hid
        rw [hkey]
        exact hts
      rw [hitems] at hqueue
      have hlt := (pairwise_cons.mp (pairwise_append.mp hqueue).2.1).1 _ hafter
      rw [stamp_eq hle (by omega), stamp_eq hle (by omega)]
      exact hlt
    · refine ih (k := k) future hheap1 hb1 haligned1 ?_ ?_ ?_ htakes hfuture
      · rw [hrest]
        rw [hitems] at hqueue
        refine hqueue.step rfl ?_ ?_ ?_ hle
        · intro a ha
          rw [← hrest] at ha
          exact haligned.item_mem hheap
            ((joinPop_lawful.some popped).1.mem_iff.mpr (mem_cons_of_mem _ ha))
        · rw [item]
          cases b1.ranges[it.index]?.bind (heapItem real it.index) <;> simp
        · intro a ha
          obtain ⟨items, pend, items', pend', hr, -, heq, -⟩ := step.at_index hb
          rw [item, heq, Option.mem_toList,
            getElem?_set_self (lt_of_getElem? hr)] at ha
          obtain ⟨items'', -, hkey, -⟩ := heapItem_eq_some.mp (Option.mem_def.mp ha)
          rw [hkey]
          rfl
      · rw [length_append]
        omega
      · rw [length_append, length_singleton]
        omega

/-- Reads of `period` elements, the last one of at most as many, keep the rule. -/
theorem Buffers.Reads.fifo (hids : ids.Nodup) {chunks : List (List (ParamId × Point))}
    (h : Reads real joinPop b chunks b') :
    ∀ {u : List (Nat × Timestamp)} {k : Nat}, b.Sound → b.Aligned ids → u.length = period * k →
      (∀ c ∈ chunks.dropLast, c.length = period) → (∀ c ∈ chunks, c.length ≤ period) →
      Fifo ids.length period u (chunks.flatten.map (real.place ids)) := by
  induction h with
  | @last b b' taken run heaped =>
    intro u k hb haligned hu _ hlen
    have hqueue := queued_new hids haligned u
    rw [hu] at hqueue
    have hfifo := run.fifo [] (Perm.refl _) hb haligned hqueue
      hu.symm.le (by have := hlen taken (by simp); omega) (.refl _)
      (fun u' x v heq => by simp at heq)
    exact hfifo
  | @more b b1 b' heap1 taken chunks run reads ih =>
    intro u k hb haligned hu hfull hlen
    have hne : chunks ≠ [] := by cases reads <;> simp
    have hqueue := queued_new hids haligned u
    rw [hu] at hqueue
    have hb1 := (run.takes joinPop_lawful (Perm.refl _) hb).1
    obtain ⟨rest, -, htakes⟩ := reads.takes joinPop_lawful hb1
    rw [dropLast_cons_of_ne_nil hne] at hfull
    have htaken : taken.length = period := hfull taken mem_cons_self
    refine run.fifo _ (Perm.refl _) hb haligned hqueue hu.symm.le (by omega) htakes ?_
    refine ih (k := k + 1) hb1 (run.aligned haligned) ?_ (forall_mem_cons.mp hfull).2
      (forall_mem_cons.mp hlen).2
    rw [length_append, length_map, hu, htaken, Nat.mul_succ]

end Fifo

/-! ## The samples of a new join -/

section Supply
variable {rd : Reader Status Point σ Φ} {ids : List ParamId} {iters : List σ}
  {xss : List (List Point)}

/-- A read of the join's merge puts out this many samples at most. -/
def joinPeriod : Nat := 128

theorem needed_real (taken : List (ParamId × Point)) :
    needed .real taken = sampleSize * taken.length := by
  induction taken with
  | nil => rfl
  | cons x taken ih =>
    rw [needed, map_cons, sum_cons, ← needed, ih, add_comm]
    rfl

/-- The merge supplies the join read by read; each read but the last puts out 128 samples. -/
theorem Merge.Starts.supplies (m : Nat) {st : Merge Point σ} {φ : Φ} {b : Buffers Point}
    (hst : st.Starts rd φ b) (hforward : st.forward = true) (hlt : b.elements.length < m) :
    ∃ chunks b', Supplies rd st φ (real.samples chunks.flatten) ∧
      Buffers.Reads .real joinPop b chunks b' ∧
      (∀ c ∈ chunks.dropLast, c.length = joinPeriod) ∧ ∀ c ∈ chunks, c.length ≤ joinPeriod := by
  induction m generalizing st φ b with
  | zero => omega
  | succ m ih =>
    have hpop : LawfulPop (join.worse st.forward)
        (stablePop (join.worse (α := Point) st.forward)) := stablePop_merge .join _
    have hpos : ∀ a ∈ b.elements, 0 < real.sizeRequired a :=
      fun _ _ => Nat.zero_lt_succ 31
    obtain ⟨r, taken, b', heap', hr, hrun, hheap, hout, hneed, hforward', hend⟩ :=
      hst.read hpop hpos joinBufferSize
    rw [hforward] at hrun hend
    rw [needed_real] at hneed hend
    have hle : taken.length ≤ joinPeriod := by
      simp only [sampleSize, joinBufferSize, joinPeriod] at hneed ⊢
      omega
    rcases hend with ⟨hstatus, rfl, hcleared, -⟩ | ⟨hstatus, hnext, it, heap1, hpopped, hroom⟩
    · refine ⟨[taken], b', ?_, .last hrun hheap, by simp, by simpa using hle⟩
      have hsupply := Supplies.last hr hstatus hcleared
      rw [hout] at hsupply
      simpa using hsupply
    · have hfull : taken.length = joinPeriod := by
        have hsize : real.sizeRequired it.value = sampleSize := rfl
        rw [hsize] at hroom
        simp only [sampleSize, joinBufferSize, joinPeriod] at hroom hneed ⊢
        omega
      have hperm := hrun.elements_perm.length_eq
      rw [length_append, length_map, hfull] at hperm
      have hranges : b'.ranges ≠ [] := by
        apply hheap.ranges_ne_nil
        rintro rfl
        cases hpopped
      obtain ⟨chunks, b'', hsupply, hreads, hlens, hles⟩ := ih (hnext.starts hranges r.env)
        (hforward'.trans hforward) (by simp only [joinPeriod] at hperm; omega)
      have hne : r.out ≠ [] := by
        intro hnil
        have := congrArg length (hout.symm.trans hnil)
        rw [samples, length_map, hfull] at this
        cases this
      have hchunks : chunks ≠ [] := by cases hreads <;> simp
      refine ⟨taken :: chunks, b'', ?_, .more hrun hreads, ?_, ?_⟩
      · have hall := Supplies.more hr hstatus hne hsupply
        rw [hout] at hall
        simpa [samples] using hall
      · rw [dropLast_cons_of_ne_nil hchunks]
        exact forall_mem_cons.mpr ⟨hfull, hlens⟩
      · exact forall_mem_cons.mpr ⟨hle, hles⟩

end Supply
end FastSTDB
