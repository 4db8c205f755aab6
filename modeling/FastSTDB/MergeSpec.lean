import Mathlib.Data.Prod.Lex
import FastSTDB.Lib.Pairs
import FastSTDB.IteratorSpec
import FastSTDB.Merge

/-
  Merge materializers — what a merge puts out

  `Buffers` is the abstract state of a merge: what the ranges hold and what each
  operator still has to deliver. A step takes the head of a range; when the range
  is empty after that, it is refilled from the operator *at the same index*. A run
  is a sequence of steps, each with the item the heap gives out.

  1. `mergeLoop_run`, `Starts.drain_reads`: reads are runs of the buffers.
  2. `Run.takes`, `Reads.takes`: they take the streams of the buffers in the order of the
     merge. A stream is what a range holds, with what the operator at its index has left.
  3. `Reads.starved`: if the operator at the index of a range is exhausted, nothing more
     comes out under the id of the range than the range holds.

  The operators without elements get no range, so the indexes of the ranges behind
  them are too small; what follows from it is settled in `MergeDrain`.
-/
namespace FastSTDB
open List Option Pull Merging MergeOrder

variable {α σ Φ : Type}
variable {i n : Nat} {x : ParamId × α} {range : Range α} {st : Merge α σ} {xss : List (List α)}
  {heap heap' : List (HeapItem α)} {taken : List (ParamId × α)}
  {chunks : List (List (ParamId × α))} {id : ParamId}

/-! ## The orders -/

theorem pairLess_eq_false {a b : UInt64 × UInt64} : pairLess a b = false ↔ toLex b ≤ toLex a := by
  have hlt : pairLess a b = true ↔ toLex a < toLex b := by simp [pairLess, Prod.Lex.toLex_lt_toLex]
  rw [← not_lt, ← hlt, Bool.not_eq_true]

/-- The rank of a key: keys that come later have a higher rank. -/
def MergeOrder.rank (order : MergeOrder) (key : MergeKey) : Lex (UInt64 × UInt64) :=
  match order with
  | .time => toLex (key.ts, key.id)
  | .series => toLex (key.id, key.ts)
  | .join => toLex (key.ts, 0)

section
variable (order : MergeOrder) (forward : Bool)
include order forward

theorem MergeOrder.comp_eq_false (a b : MergeKey) : order.comp forward a b = false ↔
      if forward then order.rank a ≤ order.rank b else order.rank b ≤ order.rank a := by
  cases order with
  | time => cases forward <;> simp [comp, rank, pairLess_eq_false]
  | series => cases forward <;> simp [comp, rank, pairLess_eq_false]
  | join =>
    cases forward <;> simp [comp, rank, Prod.Lex.toLex_le_toLex] <;> exact le_iff_lt_or_eq

theorem MergeOrder.comp_self (a : MergeKey) : order.comp forward a a = false := by
  rw [comp_eq_false]
  split <;> exact le_rfl

theorem MergeOrder.comp_trans {a b c : MergeKey} (hab : order.comp forward a b = false)
    (hbc : order.comp forward b c = false) : order.comp forward a c = false := by
  rw [comp_eq_false] at hab hbc ⊢
  cases forward with
  | true => exact le_trans hab hbc
  | false => exact le_trans hbc hab

theorem MergeOrder.comp_total {a b : MergeKey}
    (hab : order.comp forward a b = true) : order.comp forward b a = false := by
  have hnot : ¬ order.comp forward a b = false := by simp [hab]
  rw [comp_eq_false] at hnot ⊢
  cases forward with
  | true => exact le_of_not_ge hnot
  | false => exact le_of_not_ge hnot

end

/-! ## Buffers -/

structure Buffers (α : Type) where
  ranges : List (Range α)
  pends : List (List α)

namespace Buffers

/-- Taking the head `a` of the range at `i`, under the id of the range. -/
inductive Step (b : Buffers α) : Nat → ParamId × α → Buffers α → Prop
  | advance {i : Nat} {id : ParamId} {a x : α} {items : List α}
      (head : b.ranges[i]? = some ⟨id, a :: x :: items⟩) :
      Step b i (id, a) ⟨b.ranges.set i ⟨id, x :: items⟩, b.pends⟩
  | refill {i : Nat} {id : ParamId} {a : α} {got left : List α}
      (head : b.ranges[i]? = some ⟨id, [a]⟩) (pend : b.pends[i]? = some (got ++ left))
      (eod : got = [] → left = []) :
      Step b i (id, a) ⟨b.ranges.set i ⟨id, got⟩, b.pends.set i left⟩

variable (kind : MergeKind α) (pop : List (HeapItem α) → Option (HeapItem α × List (HeapItem α)))

/-- The item that is pushed for the range at `i`. -/
def item (b : Buffers α) (i : Nat) : List (HeapItem α) :=
  (b.ranges[i]?.bind (heapItem kind i)).toList

/-- Steps with the items the heap gives out; after each one the next item of the range
is pushed. -/
inductive Run : Buffers α → List (HeapItem α) → List (ParamId × α) → Buffers α →
    List (HeapItem α) → Prop
  | refl (b : Buffers α) (heap : List (HeapItem α)) : Run b heap [] b heap
  | cons {b b₁ b₂ : Buffers α} {heap heap₁ heap₂ : List (HeapItem α)} {it : HeapItem α}
      {id : ParamId} {out : List (ParamId × α)}
      (popped : pop heap = some (it, heap₁)) (key : it.key = kind.key id it.value)
      (step : Step b it.index (id, it.value) b₁)
      (run : Run b₁ (heap₁ ++ b₁.item kind it.index) out b₂ heap₂) :
      Run b heap ((id, it.value) :: out) b₂ heap₂

def elements (b : Buffers α) : List α := (b.ranges.map (·.items)).flatten ++ b.pends.flatten

theorem Step.elements_perm {b b₁ : Buffers α} (h : b.Step i x b₁) :
    b.elements.Perm (x.2 :: b₁.elements) := by
  cases h with
  | @advance id a y items head =>
    have hitems : (b.ranges.map (·.items))[i]? = some ([a] ++ (y :: items)) := by
      rw [getElem?_map, head]
      rfl
    have hperm := (flatten_perm_set hitems).append_right b.pends.flatten
    rw [elements, elements, map_set]
    exact hperm
  | @refill id a got left head pend _ =>
    have hitems : (b.ranges.map (·.items))[i]? = some ([a] ++ []) := by
      rw [getElem?_map, head]
      rfl
    rw [elements, elements, map_set]
    generalize b.ranges.map (·.items) = rows at hitems ⊢
    -- what the range gets, the pending elements lose
    have hgot := flatten_set_perm (lt_of_getElem? hitems) got
    calc rows.flatten ++ b.pends.flatten
        |>.Perm ((a :: (rows.set i []).flatten) ++ (got ++ (b.pends.set i left).flatten)) :=
          (flatten_perm_set hitems).append (flatten_perm_set pend)
      _ |>.Perm (a :: ((got ++ (rows.set i []).flatten) ++ (b.pends.set i left).flatten)) := by
          rw [append_assoc]
          exact (perm_append_comm_assoc _ _ _).cons a
      _ |>.Perm (a :: ((rows.set i got).flatten ++ (b.pends.set i left).flatten)) :=
          (hgot.symm.append_right _).cons a

theorem Step.ranges {b b₁ : Buffers α} (h : b.Step i x b₁) : ∃ items items',
    b.ranges[i]? = some ⟨x.1, x.2 :: items⟩ ∧ b₁.ranges = b.ranges.set i ⟨x.1, items'⟩ := by
  cases h with
  | advance head => exact ⟨_, _, head, rfl⟩
  | refill head _ _ => exact ⟨_, _, head, rfl⟩

end Buffers

/-! ## The heap of the ranges -/

section Heap
variable {kind : MergeKind α}

theorem heapItem_eq_some {it : HeapItem α} : heapItem kind i range = some it ↔
      ∃ items, range.items = it.value :: items ∧ it.key = kind.key range.id it.value ∧
        it.index = i := by
  obtain ⟨id, items⟩ := range
  obtain ⟨key, value, index⟩ := it
  cases items with
  | nil => simp [heapItem]
  | cons a items =>
    simp only [heapItem, head?_cons, map_some, some.injEq, HeapItem.mk.injEq, cons.injEq]
    constructor
    · rintro ⟨rfl, rfl, rfl⟩
      exact ⟨items, ⟨rfl, rfl⟩, rfl, rfl⟩
    · rintro ⟨items', ⟨rfl, -⟩, rfl, rfl⟩
      exact ⟨rfl, rfl, rfl⟩

variable {ranges : List (Range α)}

theorem mem_pushRanges {k : Nat} {it : HeapItem α} : it ∈ pushRanges kind k ranges ↔
      ∃ i range, ranges[i]? = some range ∧ heapItem kind (k + i) range = some it := by
  induction ranges generalizing k with
  | nil => simp [pushRanges]
  | cons range ranges ih =>
    rw [pushRanges, mem_append, mem_toList, ih]
    constructor
    · rintro (h | ⟨i, range', hi, h⟩)
      · exact ⟨0, range, rfl, h⟩
      · exact ⟨i + 1, range', hi, by rw [← h]; congr 1; omega⟩
    · rintro ⟨i, range', hi, h⟩
      cases i with
      | zero =>
        cases hi
        exact .inl h
      | succ i => exact .inr ⟨i, range', hi, by rw [← h]; congr 1; omega⟩

theorem pushRanges_set (hi : ranges[i]? = some range) (k : Nat) (range' : Range α) :
    ∃ others, (pushRanges kind k ranges).Perm ((heapItem kind (k + i) range).toList ++ others) ∧
      (pushRanges kind k (ranges.set i range')).Perm
        ((heapItem kind (k + i) range').toList ++ others) := by
  induction ranges generalizing k i with
  | nil => simp at hi
  | cons first ranges ih =>
    cases i with
    | zero =>
      obtain rfl : first = range := by simpa using hi
      exact ⟨pushRanges kind (k + 1) ranges, Perm.refl _, Perm.refl _⟩
    | succ i =>
      obtain ⟨others, h, h'⟩ := ih hi (k + 1)
      have hk : k + 1 + i = k + (i + 1) := by omega
      rw [hk] at h h'
      refine ⟨(heapItem kind k first).toList ++ others, ?_, ?_⟩
      · exact (h.append_left _).trans (perm_append_comm_assoc _ _ _)
      · exact (h'.append_left _).trans (perm_append_comm_assoc _ _ _)

end Heap

/-- The heap holds one item for each range that is not empty. -/
def Buffers.Heaped (kind : MergeKind α) (b : Buffers α) (heap : List (HeapItem α)) : Prop :=
  heap.Perm (pushRanges kind 0 b.ranges)

/-! ## Reads are runs -/

variable {iters : List σ} {kind : MergeKind α}
  {pop : List (HeapItem α) → Option (HeapItem α × List (HeapItem α))}

section Refinement
variable {rd : Reader Status α σ Φ} {worse : HeapItem α → HeapItem α → Bool}
  {b b₁ : Buffers α} {heap heap₁ : List (HeapItem α)} {it : HeapItem α}

theorem Buffers.Heaped.popped (hheap : b.Heaped kind heap) (hpop : LawfulPop worse pop)
    (h : pop heap = some (it, heap₁)) :
    ∃ id items, b.ranges[it.index]? = some ⟨id, it.value :: items⟩ ∧
      it.key = kind.key id it.value := by
  have hmem : it ∈ pushRanges kind 0 b.ranges :=
    hheap.mem_iff.mp ((hpop.some h).1.mem_iff.mpr mem_cons_self)
  obtain ⟨i, ⟨id, items⟩, hi, hitem⟩ := mem_pushRanges.mp hmem
  obtain ⟨items', hitems, hkey, hindex⟩ := heapItem_eq_some.mp hitem
  rw [zero_add] at hindex
  refine ⟨id, items', ?_, hkey⟩
  rw [hindex, hi, ← hitems]

theorem Buffers.Step.heaped (hstep : b.Step it.index x b₁) (hheap : b.Heaped kind heap)
    (hpop : LawfulPop worse pop) (h : pop heap = some (it, heap₁)) :
    b₁.Heaped kind (heap₁ ++ b₁.item kind it.index) := by
  obtain ⟨-, items', -, hranges⟩ := hstep.ranges
  obtain ⟨id, items, hi, hkey⟩ := hheap.popped hpop h
  have hitem : b₁.item kind it.index = (heapItem kind it.index ⟨x.1, items'⟩).toList := by
    rw [Buffers.item, hranges, getElem?_set_self (lt_of_getElem? hi), bind_some]
  have hhead : heapItem kind it.index ⟨id, it.value :: items⟩ = some it :=
    heapItem_eq_some.mpr ⟨items, rfl, hkey, rfl⟩
  obtain ⟨others, hold, hnew⟩ := pushRanges_set hi 0 ⟨x.1, items'⟩
  rw [zero_add, hhead] at hold
  rw [zero_add] at hnew
  have hothers : heap₁.Perm others := (((hpop.some h).1.symm.trans hheap).trans hold).cons_inv
  rw [Buffers.Heaped, hitem, hranges]
  exact (perm_append_comm.trans (hothers.append_left _)).trans hnew.symm

/-- Elements as they are, for buffers that have room for a range. -/
def ranged (α : Type) : Format α α where
  room _ := rangeSize - 1
  Emits xs out := out = xs

theorem forall₂_ranged (h : Forall₂ (Delivers rd (.same α)) iters xss) :
    Forall₂ (Delivers rd (ranged α)) iters xss :=
  h.imp fun _ _ h => .weaken (fun _ => zero_le) (fun _ out he => (he : out = _)) h

theorem refill {s : σ} {xs : List α} (h : Delivers rd (ranged α) s xs) (φ : Φ) :
    ∃ r left, rd φ s rangeSize = some r ∧ xs = r.out ++ left ∧
      Delivers rd (ranged α) r.next left ∧ (r.status = .ok ∧ r.out ≠ [] ∨ r.status = .noData) ∧
      ¬ (r.status ≠ .ok ∧ r.status ≠ .noData) ∧ (r.out = [] → left = []) := by
  obtain ⟨r, got, left, hr, hx, he, -, hnext, hstatus⟩ := h.step φ rangeSize (lt_add_one _)
  obtain rfl : r.out = got := he
  refine ⟨r, left, hr, hx, hnext, hstatus.imp id And.left, ?_, ?_⟩
  · exact fun hc => hstatus.elim (hc.1 ·.1) (hc.2 ·.1)
  · intro hnil
    rcases hstatus with ⟨-, hne⟩ | ⟨-, hleft, -⟩
    · exact absurd hnil hne
    · exact hleft

/-- The state holds the buffers: its ranges, and operators that deliver what is pending. -/
structure Merge.Holds (rd : Reader Status α σ Φ) (st : Merge α σ) (b : Buffers α) : Prop where
  ranges : st.ranges = b.ranges
  iters : Forall₂ (Delivers rd (ranged α)) st.iters b.pends
  length : b.ranges.length ≤ b.pends.length

theorem mergeLoop_step (fuel : Nat) (φ : Φ) (out : List Sample) {room : Nat} (hst : st.Holds rd b)
    (hheap : b.Heaped kind heap) (hpop : LawfulPop worse pop) (h : pop heap = some (it, heap₁))
    (hroom : kind.sizeRequired it.value ≤ room) :
    ∃ id b₁ st1 φ1, it.key = kind.key id it.value ∧ b.Step it.index (id, it.value) b₁ ∧
      st1.Holds rd b₁ ∧ st1.ids = st.ids ∧ st1.forward = st.forward ∧
      mergeLoop kind rd pop (fuel + 1) φ st heap room out =
        mergeLoop kind rd pop fuel φ1 st1 (heap₁ ++ b₁.item kind it.index)
          (room - kind.sizeRequired it.value) (out ++ [kind.sample it.key.id it.value]) := by
  obtain ⟨id, items, hi, hkey⟩ := hheap.popped hpop h
  have hlt : it.index < b.ranges.length := lt_of_getElem? hi
  cases items with
  | cons x items =>
    refine ⟨id, ⟨b.ranges.set it.index ⟨id, x :: items⟩, b.pends⟩,
      { st with ranges := st.ranges.set it.index ⟨id, x :: items⟩ }, φ, hkey, .advance hi, ?_, rfl,
      rfl, ?_⟩
    · exact ⟨by rw [hst.ranges], hst.iters, by simpa using hst.length⟩
    · rw [mergeLoop]
      simp [h, if_pos hroom, hst.ranges, hi, Buffers.item, getElem?_set_self hlt]
  | nil =>
    -- the range is empty now and is refilled from the operator at its index
    obtain ⟨pend, hpend⟩ : ∃ pend, b.pends[it.index]? = some pend :=
      ⟨_, getElem?_eq_getElem (hlt.trans_le hst.length)⟩
    obtain ⟨s, hs, hserves⟩ := Pairs.at_index hst.iters hpend
    obtain ⟨r, left, hr, rfl, hnext, -, hfine, heod⟩ := refill hserves φ
    refine ⟨id, ⟨b.ranges.set it.index ⟨id, r.out⟩, b.pends.set it.index left⟩,
      { st with iters := st.iters.set it.index r.next,
                ranges := st.ranges.set it.index ⟨id, r.out⟩ }, r.env, hkey,
      .refill hi hpend heod, ?_, rfl, rfl, ?_⟩
    · refine ⟨by rw [hst.ranges], Pairs.set_both hst.iters hnext _, ?_⟩
      simpa using hst.length
    · rw [mergeLoop]
      simp [h, if_pos hroom, hst.ranges, hi, hs, hr, if_neg hfine, Buffers.item, getElem?_set_self hlt]

section
variable (kind : MergeKind α) (taken : List (ParamId × α))

def needed : Nat :=
  (taken.map fun x => kind.sizeRequired x.2).sum

def MergeKind.samples : List Sample :=
  taken.map fun x => kind.sample (kind.key x.1 x.2).id x.2

end

/-- How a read ends: everything is delivered and the state is cleared, or the next item does
not fit. -/
def Merge.Ends (kind : MergeKind α) (rd : Reader Status α σ Φ)
    (pop : List (HeapItem α) → Option (HeapItem α × List (HeapItem α))) (room : Nat)
    (r : Reply Sample (Merge α σ) Φ) (b : Buffers α) (heap : List (HeapItem α)) : Prop :=
  r.status = .noData ∧ heap = [] ∧ r.next.iters = [] ∧ r.next.ranges = [] ∨
  r.status = .ok ∧ r.next.Holds rd b ∧
    ∃ it heap₁, pop heap = some (it, heap₁) ∧ room < kind.sizeRequired it.value

theorem mergeLoop_run (hpop : LawfulPop worse pop) (fuel : Nat) (φ : Φ) (room : Nat)
    (out : List Sample) (hst : st.Holds rd b) (hheap : b.Heaped kind heap)
    (hsize : ∀ a ∈ b.elements, 0 < kind.sizeRequired a) (hfuel : room < fuel) :
    ∃ r taken b' heap', mergeLoop kind rd pop fuel φ st heap room out = some r ∧
      Buffers.Run kind pop b heap taken b' heap' ∧ b'.Heaped kind heap' ∧
      r.out = out ++ kind.samples taken ∧ needed kind taken ≤ room ∧
      r.next.ids = st.ids ∧ r.next.forward = st.forward ∧
      Merge.Ends kind rd pop (room - needed kind taken) r b' heap' := by
  induction fuel generalizing φ room out st b heap with
  | zero => omega
  | succ fuel ih =>
    cases h : pop heap with
    | none =>
      refine ⟨⟨.noData, out, { st with iters := [], ranges := [] }, φ⟩, [], b, heap, ?_,
        .refl b heap, hheap, ?_, zero_le, rfl, rfl, .inl ⟨rfl, hpop.none h, rfl, rfl⟩⟩
      · rw [mergeLoop, h]
      · simp [MergeKind.samples]
    | some p =>
      obtain ⟨it, heap₁⟩ := p
      by_cases hroom : kind.sizeRequired it.value ≤ room
      · obtain ⟨id, b₁, st1, φ1, hkey, hstep, hst1, hids, hforward, heq⟩ :=
          mergeLoop_step fuel φ out hst hheap hpop h hroom
        have hperm := hstep.elements_perm
        have hpos : 0 < kind.sizeRequired it.value := hsize _ (hperm.mem_iff.mpr mem_cons_self)
        obtain ⟨r, taken, b', heap', hr, hrun, hheap', hout, hneed, hids', hforward', hend⟩ :=
          ih φ1 (room - kind.sizeRequired it.value) _ hst1 (hstep.heaped hheap hpop h)
            (fun a ha => hsize a (hperm.mem_iff.mpr (mem_cons_of_mem _ ha))) (by omega)
        refine ⟨r, (id, it.value) :: taken, b', heap', heq.trans hr, .cons h hkey hstep hrun,
          hheap', ?_, ?_, hids'.trans hids, hforward'.trans hforward, ?_⟩
        · rw [hout, MergeKind.samples, MergeKind.samples, map_cons, append_assoc, singleton_append,
            hkey]
        · simp only [needed, map_cons, sum_cons] at hneed ⊢
          omega
        · simp only [needed, map_cons, sum_cons] at hend ⊢
          rwa [← Nat.sub_sub]
      · refine ⟨⟨.ok, out, st, φ⟩, [], b, heap, ?_, .refl b heap, hheap, ?_, zero_le, rfl,
          rfl, .inr ⟨rfl, hst, it, heap₁, h, ?_⟩⟩
        · rw [mergeLoop, h]
          simp only [if_neg hroom]
        · simp [MergeKind.samples]
        · exact not_le.mp hroom

theorem Buffers.Run.elements_perm {b' : Buffers α}
    (h : Buffers.Run kind pop b heap taken b' heap') :
    b.elements.Perm (taken.map Prod.snd ++ b'.elements) := by
  induction h with
  | refl => exact Perm.refl _
  | cons _ _ step _ ih => exact step.elements_perm.trans (ih.cons _)

/-- Successive reads, each a run from a new heap; one list for each read. -/
inductive Buffers.Reads (kind : MergeKind α)
    (pop : List (HeapItem α) → Option (HeapItem α × List (HeapItem α))) :
    Buffers α → List (List (ParamId × α)) → Buffers α → Prop
  | last {b b' : Buffers α} {taken : List (ParamId × α)}
      (run : Buffers.Run kind pop b (pushRanges kind 0 b.ranges) taken b' [])
      (heaped : b'.Heaped kind []) : Reads kind pop b [taken] b'
  | more {b b₁ b' : Buffers α} {heap₁ : List (HeapItem α)} {taken : List (ParamId × α)}
      {chunks : List (List (ParamId × α))}
      (run : Buffers.Run kind pop b (pushRanges kind 0 b.ranges) taken b₁ heap₁)
      (reads : Reads kind pop b₁ chunks b') : Reads kind pop b (taken :: chunks) b'

theorem Buffers.Reads.elements_perm {b' : Buffers α} (h : Buffers.Reads kind pop b chunks b') :
    b.elements.Perm (chunks.flatten.map Prod.snd ++ b'.elements) := by
  induction h with
  | last run _ =>
    rw [flatten_cons, flatten_nil, append_nil]
    exact run.elements_perm
  | more run _ ih =>
    rw [flatten_cons, map_append, append_assoc]
    exact run.elements_perm.trans (ih.append_left _)

end Refinement

/-! ## The first reads -/

section First
variable {rd : Reader Status α σ Φ}

def firstReads (rd : Reader Status α σ Φ) : List σ → Φ → List (List α)
  | [], _ => []
  | it :: iters, φ =>
    match rd φ it rangeSize with
    | some r => r.out :: firstReads rd iters r.env
    | none => []

def filled (ids : List ParamId) (outs : List (List α)) : List (Range α) :=
  (ids.zip outs).filterMap fun (id, out) => if out.isEmpty then none else some ⟨id, out⟩

/-- The elements of each operator are what was read first and what is left; an operator
that delivers nothing has nothing left. -/
inductive Parts : List (List α) → List (List α) → List (List α) → Prop
  | nil : Parts [] [] []
  | cons {out left : List α} {xss outs lefts : List (List α)} (eod : out = [] → left = [])
      (rest : Parts xss outs lefts) : Parts ((out ++ left) :: xss) (out :: outs) (left :: lefts)

theorem Parts.lengths {outs lefts : List (List α)} (h : Parts xss outs lefts) :
    outs.length = xss.length ∧ lefts.length = xss.length := by
  induction h with
  | nil => exact ⟨rfl, rfl⟩
  | cons _ _ ih => simp [ih]

theorem filled_length_le (ids : List ParamId) (outs : List (List α)) :
    (filled ids outs).length ≤ outs.length := by
  refine (length_filterMap_le _ _).trans ?_
  rw [length_zip]
  exact min_le_right _ _

theorem fillRanges_spec (h : Forall₂ (Delivers rd (ranged α)) iters xss) (ids : List ParamId)
    (φ : Φ) (hlen : ids.length = iters.length) : ∃ iters' lefts φ', fillRanges rd iters ids φ =
        some (none, iters', filled ids (firstReads rd iters φ), φ') ∧
      Forall₂ (Delivers rd (ranged α)) iters' lefts ∧ Parts xss (firstReads rd iters φ) lefts := by
  induction h generalizing ids φ with
  | nil => exact ⟨[], [], φ, by simp [fillRanges, firstReads, filled], .nil, .nil⟩
  | @cons it xs iters xss hit _ ih =>
    obtain ⟨id, ids, rfl⟩ : ∃ id ids', ids = id :: ids' := exists_cons_of_length_eq_add_one hlen
    obtain ⟨r, left, hr, rfl, hnext, hstatus, hfine, heod⟩ := refill hit φ
    obtain ⟨iters', lefts, φ', hfill, hserves, hparts⟩ := ih ids r.env (by simpa using hlen)
    -- a range is made exactly if something was read
    have hrange : (if r.status = .ok ∨ r.status = .noData ∧ r.out ≠ [] then [Range.mk id r.out]
        else []) = if r.out.isEmpty then [] else [⟨id, r.out⟩] := by
      rcases hstatus with ⟨hs, hne⟩ | hs
      · simp [hs, hne]
      · by_cases hnil : r.out = [] <;> simp [hs]
    refine ⟨r.next :: iters', left :: lefts, φ', ?_, .cons hnext hserves, ?_⟩
    · rw [fillRanges, hr, bind_some]
      simp only [hrange, if_neg hfine, hfill, firstReads, hr, filled,
        zip_cons_cons, filterMap_cons]
      cases r.out.isEmpty <;> rfl
    · simp only [firstReads, hr]
      exact .cons heod hparts

/-- With the environment `φ` the next read of the state starts from the buffers `b`. -/
def Merge.Starts (rd : Reader Status α σ Φ) (st : Merge α σ) (φ : Φ) (b : Buffers α) : Prop :=
  st.iters ≠ [] ∧ ∃ iters φ', st.start rd φ = some (none, iters, b.ranges, φ') ∧
    Merge.Holds rd { st with iters := iters, ranges := b.ranges } b

theorem Merge.new_starts {ids : List ParamId} (forward : Bool) (φ : Φ)
    (h : Forall₂ (Delivers rd (ranged α)) iters xss) (hlen : ids.length = iters.length)
    (hne : iters ≠ []) : ∃ lefts, Parts xss (firstReads rd iters φ) lefts ∧
      (Merge.new ids iters forward).Starts rd φ ⟨filled ids (firstReads rd iters φ), lefts⟩ := by
  obtain ⟨iters', lefts, φ', hfill, hserves, hparts⟩ := fillRanges_spec h ids φ hlen
  refine ⟨lefts, hparts, hne, iters', φ', hfill, rfl, hserves, ?_⟩
  obtain ⟨houts, hlefts⟩ := hparts.lengths
  have hle := filled_length_le ids (firstReads rd iters φ)
  show (filled ids (firstReads rd iters φ)).length ≤ lefts.length
  omega

/-- After a read that filled the buffer, the next one starts from what remains. -/
theorem Merge.Holds.starts {b : Buffers α} (h : st.Holds rd b) (hne : b.ranges ≠ []) (φ : Φ) :
    st.Starts rd φ b := by
  refine ⟨?_, st.iters, φ, ?_, rfl, h.iters, h.length⟩
  · intro hnil
    have hlen := h.iters.length_eq
    have hpos := length_pos_iff.mpr hne
    have hle := h.length
    rw [hnil, length_nil] at hlen
    omega
  · have hempty : st.ranges.isEmpty = false := by
      rw [h.ranges]
      simpa using hne
    rw [Merge.start, hempty, h.ranges]
    rfl

end First

/-! ## Draining a merge -/

section Drain
variable {rd : Reader Status α σ Φ} {order : MergeOrder} {pop : HeapPop α}

theorem Merge.Starts.read {φ : Φ} {b : Buffers α} (h : st.Starts rd φ b)
    (hpop : LawfulPop (order.worse st.forward) (pop (order.worse st.forward)))
    (hsize : ∀ a ∈ b.elements, 0 < kind.sizeRequired a) (size : Nat) :
    ∃ r taken b' heap', st.kwayMerge kind rd order pop φ size = some r ∧
      Buffers.Run kind (pop (order.worse st.forward)) b (pushRanges kind 0 b.ranges) taken b'
        heap' ∧ b'.Heaped kind heap' ∧ r.out = kind.samples taken ∧ needed kind taken ≤ size ∧
      r.next.forward = st.forward ∧
      Merge.Ends kind rd (pop (order.worse st.forward)) (size - needed kind taken) r b' heap' := by
  obtain ⟨hne, iters, φ', hstart, hholds⟩ := h
  obtain ⟨r, taken, b', heap', hr, hrun, hheap, hout, hneed, -, hforward, hend⟩ :=
    mergeLoop_run hpop (size + 1) φ' size [] hholds (Perm.refl _) hsize (lt_add_one _)
  refine ⟨r, taken, b', heap', ?_, hrun, hheap, hout, hneed, hforward, hend⟩
  rw [Merge.kwayMerge, hstart]
  have hempty : st.iters.isEmpty = false := by simpa using hne
  simp only [hempty]
  exact hr

theorem Buffers.Heaped.ranges_ne_nil {b : Buffers α} (h : b.Heaped kind heap) (hne : heap ≠ []) :
    b.ranges ≠ [] := by
  intro hnil
  rw [Buffers.Heaped, hnil] at h
  exact hne h.eq_nil

/-- Draining a merge is a sequence of reads that ends with all ranges empty; every read but
the last fills its buffer. -/
theorem Merge.Starts.drain_reads {forward : Bool}
    (hpop : LawfulPop (order.worse forward) (pop (order.worse forward))) :
    ∀ (fuel : Nat) (sizes : Nat → Nat) {st : Merge α σ} {φ : Φ} {b : Buffers α},
      st.Starts rd φ b → st.forward = forward → (∀ a ∈ b.elements, 0 < kind.sizeRequired a) →
      (∀ i, ∀ a ∈ b.elements, kind.sizeRequired a ≤ sizes i) → b.elements.length < fuel →
      ∃ chunks b', drain (fun φ st size => st.kwayMerge kind rd order pop φ size) .ok fuel φ st
          sizes = some (kind.samples chunks.flatten, .noData) ∧
        Buffers.Reads kind (pop (order.worse forward)) b chunks b' := by
  intro fuel
  induction fuel with
  | zero => intro sizes st φ b _ _ _ _ hfuel; omega
  | succ fuel ih =>
    rintro sizes st φ b hst rfl hpos hsize hfuel
    obtain ⟨r, taken, b', heap', hr, hrun, hheap, hout, hneed, hforward, hend⟩ :=
      hst.read hpop hpos (sizes 0)
    rcases hend with ⟨hstatus, hnil, -, -⟩ | ⟨hstatus, hnext, it, heap₁, hpopped, hroom⟩
    · subst hnil
      refine ⟨[taken], b', ?_, .last hrun hheap⟩
      rw [drain, hr, bind_some, hout, hstatus]
      simp
    · have hperm := hrun.elements_perm
      -- the next item would have fit into an empty buffer, so something was taken
      have hne : taken ≠ [] := by
        rintro rfl
        have hit : it.value ∈ b.elements := by
          obtain ⟨id, items, hi, -⟩ := hheap.popped hpop hpopped
          refine hperm.mem_iff.mpr (mem_append_right _ (mem_append_left _ ?_))
          refine mem_flatten.mpr ⟨it.value :: items, ?_, mem_cons_self⟩
          exact mem_map.mpr ⟨_, mem_of_getElem? hi, rfl⟩
        have := hsize 0 _ hit
        simp only [needed, map_nil, sum_nil] at hroom
        omega
      have hranges : b'.ranges ≠ [] := by
        apply hheap.ranges_ne_nil
        rintro rfl
        have := (hpop.some hpopped).1.length_eq
        simp at this
      have hlen := hperm.length_eq
      have hpos' := length_pos_iff.mpr hne
      rw [length_append, length_map] at hlen
      have hmem : ∀ a ∈ b'.elements, a ∈ b.elements :=
        fun a ha => hperm.mem_iff.mpr (mem_append_right _ ha)
      obtain ⟨chunks, b'', hdrain, hreads⟩ := ih (fun i => sizes (i + 1))
        (hnext.starts hranges r.env) hforward (fun a ha => hpos a (hmem a ha))
        (fun i a ha => hsize (i + 1) a (hmem a ha)) (by omega)
      refine ⟨taken :: chunks, b'', ?_, .more hrun hreads⟩
      have hout' : r.out.length ≠ 0 := by
        rw [hout, MergeKind.samples, length_map]
        omega
      rw [drain, hr, bind_some, if_pos ⟨hstatus, hout'⟩, hdrain, hout]
      simp [MergeKind.samples]

end Drain

/-! ## Ranges in step with their operators -/

section InStep
variable {order : MergeOrder} {forward : Bool}

/-- The order of a merge, on elements with ids. -/
def MergeKind.worse (kind : MergeKind α) (order : MergeOrder) (forward : Bool)
    (x y : ParamId × α) : Prop :=
  order.comp forward (kind.key x.1 x.2) (kind.key y.1 y.2) = true

namespace Buffers

/-- What is still to come from each range, if it belongs to the operator at its index. -/
def streams (b : Buffers α) : List (List (ParamId × α)) :=
  zipWith (fun range pend => (range.items ++ pend).map fun a => (range.id, a)) b.ranges
    b.pends

/-- A range is empty only if its operator is exhausted. -/
structure Sound (b : Buffers α) : Prop where
  length : b.ranges.length ≤ b.pends.length
  eod : ∀ {i : Nat} {range : Range α} {pend : List α}, b.ranges[i]? = some range →
    b.pends[i]? = some pend → range.items = [] → pend = []

variable {b : Buffers α}

theorem Sound.pend_at (h : b.Sound) (hi : b.ranges[i]? = some range) :
    ∃ pend, b.pends[i]? = some pend := by
  have hlt := lt_of_getElem? hi
  exact ⟨_, getElem?_eq_getElem (hlt.trans_le h.length)⟩

theorem streams_at {pend : List α} (hr : b.ranges[i]? = some range) (hp : b.pends[i]? = some pend) :
    b.streams[i]? = some ((range.items ++ pend).map fun a => (range.id, a)) := by
  rw [streams, getElem?_zipWith, hr, hp]

theorem Sound.head_stream (kind : MergeKind α) (h : b.Sound)
    {s : List (ParamId × α)} (hs : s ∈ b.streams) (hx : x ∈ s.head?) :
    ∃ i, (⟨kind.key x.1 x.2, x.2, i⟩ : HeapItem α) ∈ pushRanges kind 0 b.ranges := by
  obtain ⟨i, hi⟩ := mem_iff_getElem?.mp hs
  rw [streams, getElem?_zipWith] at hi
  cases hr : b.ranges[i]? with
  | none => rw [hr] at hi; cases hi
  | some range =>
    obtain ⟨pend, hp⟩ := h.pend_at hr
    rw [hr, hp] at hi
    cases hi
    cases hitems : range.items with
    | nil =>
      rw [hitems, h.eod hr hp hitems] at hx
      cases hx
    | cons a items =>
      rw [hitems] at hx
      cases hx
      refine ⟨i, mem_pushRanges.mpr ⟨i, range, hr, ?_⟩⟩
      exact heapItem_eq_some.mpr ⟨items, hitems, rfl, (zero_add i).symm⟩

/-- What a step does at its index: the head is gone, and the rest is divided between range
and operator so that the range is empty only if nothing is left. -/
theorem Step.at_index {b₁ : Buffers α} (h : b.Step i x b₁) (hb : b.Sound) :
    ∃ items pend items' pend', b.ranges[i]? = some ⟨x.1, x.2 :: items⟩ ∧
      b.pends[i]? = some pend ∧ b₁ = ⟨b.ranges.set i ⟨x.1, items'⟩, b.pends.set i pend'⟩ ∧
      items' ++ pend' = items ++ pend ∧ (items' = [] → pend' = []) := by
  cases h with
  | @advance id a y items head =>
    obtain ⟨pend, hp⟩ := hb.pend_at head
    refine ⟨y :: items, pend, y :: items, pend, head, hp, ?_, rfl, fun hnil => by cases hnil⟩
    rw [set_same hp]
  | @refill id a got left head pend eod =>
    exact ⟨[], got ++ left, got, left, head, pend, rfl, by simp, eod⟩

theorem zipWith_set_both {β γ δ : Type} (f : β → γ → δ) (l : List β) (l' : List γ) (b : β)
    (c : γ) : zipWith f (l.set i b) (l'.set i c) = (zipWith f l l').set i (f b c) := by
  induction l generalizing l' i with
  | nil => simp
  | cons x l ih =>
    cases l' with
    | nil => simp
    | cons y l' =>
      cases i with
      | zero => rfl
      | succ i => simp [ih]

theorem Step.stream {b₁ : Buffers α} (h : b.Step i x b₁) (hb : b.Sound) :
    b₁.Sound ∧ ∃ s, b.streams[i]? = some (x :: s) ∧ b₁.streams = b.streams.set i s := by
  obtain ⟨items, pend, items', pend', hr, hp, rfl, heq, heod⟩ := h.at_index hb
  refine ⟨⟨by simpa using hb.length, ?_⟩, (items ++ pend).map fun a => (x.1, a), ?_, ?_⟩
  · intro j range pend1 hj hpj hnil
    rcases eq_or_ne i j with rfl | hne
    · rw [getElem?_set_self (lt_of_getElem? hr)] at hj
      rw [getElem?_set_self (lt_of_getElem? hp)] at hpj
      cases hj
      cases hpj
      exact heod hnil
    · rw [getElem?_set_ne hne] at hj hpj
      exact hb.eod hj hpj hnil
  · exact streams_at hr hp
  · rw [streams, zipWith_set_both, ← heq]
    rfl

/-- A run of sound buffers takes the elements of the streams in the order of the merge. -/
theorem Run.takes (hpop : LawfulPop (order.worse forward) pop) {b' : Buffers α}
    (h : Run kind pop b heap taken b' heap') (hheap : b.Heaped kind heap) (hb : b.Sound) :
    b'.Sound ∧ Takes (kind.worse order forward) b.streams taken b'.streams := by
  induction h with
  | refl => exact ⟨hb, .refl _⟩
  | @cons b b₁ b2 heap heap₁ heap2 it id out popped key step run ih =>
    obtain ⟨hb1, s, hs, hset⟩ := step.stream hb
    obtain ⟨hb2, htakes⟩ := ih (step.heaped hheap hpop popped) hb1
    rw [hset] at htakes
    refine ⟨hb2, .cons hs ?_ htakes⟩
    -- the head of every stream is in the heap, and none is before the one popped
    intro t ht y hy hworse
    obtain ⟨j, hj⟩ := hb.head_stream kind ht hy
    obtain ⟨hperm, hbest⟩ := hpop.some popped
    have hmem : ⟨kind.key y.1 y.2, y.2, j⟩ ∈ it :: heap₁ :=
      hperm.mem_iff.mp (hheap.mem_iff.mpr hj)
    rw [MergeKind.worse, ← key] at hworse
    rcases mem_cons.mp hmem with heq | hmem
    · rw [← congrArg HeapItem.key heq, order.comp_self] at hworse
      cases hworse
    · have := hbest _ hmem
      rw [worse] at this
      rw [this] at hworse
      cases hworse

theorem Sound.streams_nil (hb : b.Sound) (hheap : b.Heaped kind []) : b.streams.flatten = [] := by
  rw [flatten_eq_nil_iff]
  intro s hs
  cases s with
  | nil => rfl
  | cons x s =>
    obtain ⟨i, hi⟩ := hb.head_stream kind hs rfl
    cases hheap.mem_iff.mpr hi

theorem Reads.takes (hpop : LawfulPop (order.worse forward) pop) {b' : Buffers α}
    (h : Reads kind pop b chunks b') (hb : b.Sound) :
    ∃ rest, rest.flatten = [] ∧ Takes (kind.worse order forward) b.streams chunks.flatten rest := by
  induction h with
  | last run heaped =>
    obtain ⟨hb', htakes⟩ := run.takes hpop (Perm.refl _) hb
    refine ⟨_, hb'.streams_nil heaped, ?_⟩
    simpa using htakes
  | more run _ ih =>
    obtain ⟨hb1, htakes⟩ := run.takes hpop (Perm.refl _) hb
    obtain ⟨rest, hrest, htakes'⟩ := ih hb1
    exact ⟨rest, hrest, htakes.trans htakes'⟩

/-! ### Starved ranges -/

/-- The only range with this id holds `n` elements, and the operator at its index is
exhausted. -/
def Starved (b : Buffers α) (id : ParamId) (n : Nat) : Prop :=
  ∃ (i : Nat) (items : List α), b.ranges[i]? = some ⟨id, items⟩ ∧ items.length = n ∧
    b.pends[i]? = some [] ∧
    ∀ (j : Nat) (range : Range α), b.ranges[j]? = some range → range.id = id → j = i

/-- No more comes out under the id than the starved range holds. -/
theorem Reads.starved (hpop : LawfulPop (order.worse forward) pop) {b b' : Buffers α}
    (h : Reads kind pop b chunks b') (hb : b.Sound) (hstarved : b.Starved id n) :
    (chunks.flatten.map Prod.fst).count id = n := by
  obtain ⟨rest, hrest, htakes⟩ := h.takes hpop hb
  obtain ⟨i, items, hi, hlen, hpend, honly⟩ := hstarved
  have hperm := htakes.perm
  rw [hrest, append_nil] at hperm
  have hstream := streams_at hi hpend
  rw [append_nil, ← append_nil (items.map _)] at hstream
  -- the other streams have other ids
  have hothers : ((b.streams.set i []).flatten.map Prod.fst).count id = 0 := by
    rw [count_eq_zero]
    intro hmem
    obtain ⟨x, hx, rfl⟩ := mem_map.mp hmem
    obtain ⟨s, hs, hxs⟩ := mem_flatten.mp hx
    obtain ⟨j, hj⟩ := mem_iff_getElem?.mp hs
    rcases eq_or_ne i j with rfl | hne
    · rw [getElem?_set_self (lt_of_getElem? hstream)] at hj
      cases hj
      cases hxs
    · rw [getElem?_set_ne hne, streams, getElem?_zipWith] at hj
      cases hr : b.ranges[j]? with
      | none => rw [hr] at hj; cases hj
      | some range =>
        obtain ⟨pend, hp⟩ := hb.pend_at hr
        rw [hr, hp] at hj
        cases hj
        obtain ⟨a, -, rfl⟩ := mem_map.mp hxs
        exact hne (honly j range hr rfl).symm
  have hcount := ((hperm.symm.trans (flatten_perm_set hstream)).map Prod.fst).count_eq id
  rw [map_append, count_append, hothers] at hcount
  rw [hcount, ← hlen]
  simp [Function.comp_def]

end Buffers
end InStep
end FastSTDB
