import FastSTDB.RoundTrip
import FastSTDB.SeriesIndex
import FastSTDB.StringPool

/-
  Posting lists — `CompressedPList` and `IndexQueryResults::filter`
  (`index/invertedindex.cc`)

  A posting list keeps the differences of its ids as base-128 numbers. To add an id it
  needs the last one, which is not in the buffer; a copy of the list has to have it too.
  A query removes the ids whose strings pass none of its checks (`filter_iff`).

  Correspondence (C++ ↔ Lean):
    `CompressedPList`                  ↔ `CompressedPList`; `prev` is `delta_.prev_`, and
                                         `writer_` and `delta_` always point into the object
    `add`                              ↔ `CompressedPList.add`
    copy and move, move assignment     ↔ `CompressedPList.transfer`
    `begin()` to `end()`               ↔ `CompressedPList.values`; `none` for the fatal error
    `filter(vector)`                   ↔ `IndexQueryResults.filter`; both of its results are
                                         copies

  `moved_` is left out: it is only checked by assertions.
-/
namespace FastSTDB
open List Option Bytes

structure CompressedPList where
  buffer : List UInt8
  prev : UInt64
  cardinality : Nat

/-- The ways to make a list from another one. -/
inductive Transfer where
  | copyConstruct
  | moveConstruct
  | moveAssign

namespace CompressedPList

def empty : CompressedPList := ⟨[], 0, 0⟩

def add (list : CompressedPList) (x : UInt64) : CompressedPList :=
  ⟨list.buffer ++ base128 10 (x - list.prev).toNat, x, list.cardinality + 1⟩

/-- The new object, which was `target` before an assignment, and the source. -/
def transfer (source target : CompressedPList) : Transfer → CompressedPList × CompressedPList
  | .copyConstruct => (⟨source.buffer, 0, source.cardinality⟩, source)
  | .moveConstruct => (⟨source.buffer, 0, source.cardinality⟩, { source with buffer := [] })
  | .moveAssign => (source, { source with buffer := target.buffer })

/-- The ids an iterator reads, so many. -/
def readFrom : Nat → UInt64 → List UInt8 → Option (List UInt64)
  | 0, _, _ => some []
  | n + 1, prev, bytes =>
    (IOVecVByteStreamReader.getBase128 0 0 bytes).bind fun (delta, rest) =>
      let value := prev + .ofNat delta
      (readFrom n value rest).map (value :: ·)

def values (list : CompressedPList) : Option (List UInt64) :=
  readFrom list.cardinality 0 list.buffer

/-- The bytes of ids behind `prev`. -/
def deltas : UInt64 → List UInt64 → List UInt8
  | _, [] => []
  | prev, x :: xs => base128 10 (x - prev).toNat ++ deltas x xs

theorem foldl_add (xs : List UInt64) (list : CompressedPList) :
    xs.foldl add list = ⟨list.buffer ++ deltas list.prev xs, xs.getLastD list.prev,
      list.cardinality + xs.length⟩ := by
  induction xs generalizing list with
  | nil => simp [deltas]
  | cons x xs ih =>
    rw [foldl_cons, ih, getLastD_cons]
    simp only [add, append_assoc, length_cons]
    congr 1
    omega

/-- If the reader is ahead of the writer, by `d`, so are the ids. -/
theorem readFrom_deltas (xs : List UInt64) (n : Nat) (prev d : UInt64) (rest : List UInt8) :
    readFrom (xs.length + n) (prev + d) (deltas prev xs ++ rest) =
      (readFrom n (xs.getLastD prev + d) rest).map (xs.map (· + d) ++ ·) := by
  induction xs generalizing prev with
  | nil => simp [deltas]
  | cons x xs ih =>
    have hx : (x - prev).toNat < 2 ^ 64 := (x - prev).toNat_lt
    have hget := getBase128_base128 10 _ (by decide) (hx.trans_le (by decide))
      (deltas x xs ++ rest) 0 0 (by decide) (by omega)
    rw [Nat.zero_add, Nat.pow_zero, Nat.one_mul] at hget
    have hvalue : prev + d + .ofNat (x - prev).toNat = x + d := by
      rw [UInt64.ofNat_toNat]
      grind
    rw [length_cons, Nat.add_right_comm, readFrom, deltas, append_assoc, hget, bind_some]
    dsimp only
    rw [hvalue, ih, getLastD_cons, Option.map_map]
    rfl

/-- The ids of a list whose writer starts `d` behind the last one. -/
theorem values_foldl (xs ys : List UInt64) {prev d : UInt64} (hd : prev + d = xs.getLastD 0) :
    (ys.foldl add ⟨deltas 0 xs, prev, xs.length⟩).values = some (xs ++ ys.map (· + d)) := by
  have hxs := readFrom_deltas xs ys.length 0 0 (deltas prev ys)
  have hys := readFrom_deltas ys 0 prev d []
  rw [foldl_add, values]
  simp only [UInt64.add_zero, append_nil, Nat.add_zero, hd] at hxs hys
  rw [hxs, hys]
  simp [readFrom]

/-- A list that was copied or moved goes on with the ids that are added to it exactly if it was
assigned, nothing is added, or the last id is 0. -/
theorem transfer_iff (xs ys : List UInt64) (target : CompressedPList) (way : Transfer) :
    ((ys.foldl add ((xs.foldl add empty).transfer target way).1).values = some (xs ++ ys) ∧
      (way = .copyConstruct → ((xs.foldl add empty).transfer target way).2 = xs.foldl add empty)) ↔
    way = .moveAssign ∨ ys = [] ∨ xs.getLastD 0 = 0 := by
  have hxs : xs.foldl add empty = ⟨deltas 0 xs, xs.getLastD 0, xs.length⟩ := by
    rw [foldl_add]
    simp [empty]
  -- without the last id, the writer starts at 0
  have hiff : (ys.foldl add ⟨deltas 0 xs, 0, xs.length⟩).values = some (xs ++ ys) ↔
      ys = [] ∨ xs.getLastD 0 = 0 := by
    rw [values_foldl xs ys (UInt64.zero_add _), some.injEq, append_cancel_left_eq]
    constructor
    · intro h
      cases ys with
      | nil => exact .inl rfl
      | cons y ys => exact .inr (by simpa using congrArg head? h)
    · rintro (rfl | h)
      · rfl
      · simp only [h, UInt64.add_zero, List.map_id']
  rw [hxs]
  cases way with
  | copyConstruct => simp [transfer, hiff]
  | moveConstruct => simp [transfer, hiff]
  | moveAssign =>
    rw [transfer, values_foldl xs ys (UInt64.add_zero _)]
    simp

theorem transfer_copy :
    ¬ (([7].foldl add (([5].foldl add empty).transfer empty .copyConstruct).1).values =
      some ([5] ++ [7])) := by decide

end CompressedPList

/-! ## False positives -/

structure IndexQueryResults where
  postinglist : CompressedPList
  spool : StringPool

namespace IndexQueryResults
open CompressedPList

variable {Checkable : Type} (check : Checkable → Text → Bool)

/-- The loop over the checks that looks for a false positive. -/
def success (str : Text) : List Checkable → Bool
  | [] => false
  | value :: values => if check value str then true else success str values

/-- The loop over the checks that writes a new list. -/
def rewrite (id : UInt64) (str : Text) : List Checkable → CompressedPList → CompressedPList
  | [], newplist => newplist
  | value :: values, newplist =>
    let add := false
    -- a check that succeeds sets `add`, and leaves the loop
    if check value str then newplist
    else rewrite id str values (if add then newplist.add id else newplist)

section
variable (spool : StringPool) (values : List Checkable)

/-- The loop over the ids that looks for a false positive; `true` if there is none. -/
def allSucceed : List UInt64 → Option Bool
  | [] => some true
  | id :: ids => (spool.str id.toNat).bind fun str =>
    if success check str values then allSucceed ids else some false

def rewriteAll (ids : List UInt64) (newplist : CompressedPList) : Option CompressedPList :=
  ids.foldlM (fun newplist id =>
    (spool.str id.toNat).map fun str => rewrite check id str values newplist) newplist

end

def filter (r : IndexQueryResults) (values : List Checkable) : Option IndexQueryResults :=
  r.postinglist.values.bind fun ids =>
    (allSucceed check r.spool values ids).bind fun success =>
      let plist :=
        if success then some r.postinglist else rewriteAll check r.spool values ids .empty
      plist.map fun plist => { r with postinglist := (plist.transfer .empty .copyConstruct).1 }

theorem success_eq (str : Text) (values : List Checkable) :
    success check str values = values.any (check · str) := by
  induction values with
  | nil => rfl
  | cons value values ih => simp [success, ih]

theorem rewrite_eq (id : UInt64) (str : Text) (values : List Checkable) (newplist : CompressedPList) :
    rewrite check id str values newplist = newplist := by
  induction values with
  | nil => rfl
  | cons value values ih => simp [rewrite, ih]

/-- The string of the id passes one of the checks. -/
def Passes (spool : StringPool) (values : List Checkable) (id : UInt64) : Bool :=
  (spool.str id.toNat).any fun str => values.any (check · str)

section
variable (spool : StringPool) (values : List Checkable)

theorem allSucceed_iff (ids : List UInt64) : allSucceed check spool values ids = some true ↔
    ∀ id ∈ ids, Passes check spool values id = true := by
  induction ids with
  | nil => simp [allSucceed]
  | cons id ids ih =>
    rw [allSucceed, forall_mem_cons, ← ih, Passes]
    cases spool.str id.toNat with
    | none => simp
    | some str =>
      rw [bind_some, success_eq, any_some]
      cases values.any (check · str) <;> simp

/-- It fails where a string is missing, which the other loop does not have either. -/
theorem allSucceed_none {ids : List UInt64} (h : allSucceed check spool values ids = none) :
    ¬ ∀ id ∈ ids, (spool.str id.toNat).isSome := by
  induction ids with
  | nil => cases h
  | cons id ids ih =>
    rw [forall_mem_cons]
    rintro ⟨hsome, hrest⟩
    obtain ⟨str, hstr⟩ := Option.isSome_iff_exists.mp hsome
    rw [allSucceed, hstr, bind_some] at h
    split at h
    · exact ih h hrest
    · cases h

theorem rewriteAll_eq (ids : List UInt64) (newplist : CompressedPList) :
    rewriteAll check spool values ids newplist =
      if ids.all fun id => (spool.str id.toNat).isSome then some newplist else none := by
  induction ids with
  | nil => rfl
  | cons id ids ih =>
    have hstep : rewriteAll check spool values (id :: ids) newplist =
        (spool.str id.toNat).bind fun str =>
          rewriteAll check spool values ids (rewrite check id str values newplist) := by
      rw [rewriteAll, foldlM_cons]
      cases spool.str id.toNat <;> rfl
    rw [hstep, all_cons]
    cases spool.str id.toNat with
    | none => rfl
    | some str => rw [bind_some, rewrite_eq, ih, isSome_some, Bool.true_and]

end

/-- Of a list that was built by `add`, the ids whose strings pass a check remain, exactly if all
of the strings do, or none does and none is missing: the loop for the other case never adds an
id. -/
theorem filter_iff (ids : List UInt64) (spool : StringPool) (values : List Checkable) :
    ((filter check ⟨ids.foldl add empty, spool⟩ values).bind fun r => r.postinglist.values) =
        some (ids.filter (Passes check spool values)) ↔
      (∀ id ∈ ids, Passes check spool values id = true) ∨
        ∀ id ∈ ids, (spool.str id.toNat).isSome ∧ ¬ Passes check spool values id = true := by
  have hvalues : ∀ ids : List UInt64, (ids.foldl add empty).values = some ids := by
    intro ids
    exact (values_foldl [] ids (UInt64.zero_add 0)).trans (by simp)
  have hiff := allSucceed_iff check spool values ids
  have hrewrite := rewriteAll_eq check spool values ids .empty
  simp only [filter, hvalues, bind_some]
  by_cases hall : ∀ id ∈ ids, Passes check spool values id = true
  · rw [hiff.mpr hall, filter_eq_self.mpr hall]
    exact iff_of_true (hvalues ids) (.inl hall)
  · have hor : ((∀ id ∈ ids, Passes check spool values id = true) ∨ ∀ id ∈ ids,
        (spool.str id.toNat).isSome ∧ ¬ Passes check spool values id = true) ↔
        (∀ id ∈ ids, (spool.str id.toNat).isSome) ∧ ids.filter (Passes check spool values) = [] := by
      rw [or_iff_right hall, filter_eq_nil_iff]
      exact forall₂_and
    rw [hor]
    cases hloop : allSucceed check spool values ids with
    | none => exact iff_of_false (by simp) fun h => allSucceed_none check spool values hloop h.1
    | some success =>
      obtain rfl : success = false := by
        cases success with
        | false => rfl
        | true => exact absurd (hiff.mp hloop) hall
      simp only [hrewrite]
      split
      · next hsome =>
        rw [and_iff_right (List.all_eq_true.mp hsome)]
        exact some_inj.trans eq_comm
      · next hsome => exact iff_of_false (by simp) fun h => hsome (List.all_eq_true.mpr h.1)

/-- One of two names has the metric; no id is left. -/
theorem filter_drops : let names := StringPool.addAll ["a x=1".toList, "b x=1".toList] ⟨[]⟩
    let ids := names.1.map UInt64.ofNat
    ¬ ((filter checkMetric ⟨ids.foldl add empty, names.2⟩ ["a".toList]).bind
        fun r => r.postinglist.values) =
      some (ids.filter (Passes checkMetric names.2 ["a".toList])) := by decide +kernel

end IndexQueryResults
end FastSTDB
