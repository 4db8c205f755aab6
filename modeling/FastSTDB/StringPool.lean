import FastSTDB.Lib.Bytes
import FastSTDB.Lib.Pairs
import FastSTDB.SeriesName

/-
  String pool — `StringPool` (`index/stringpool.cc`)

  The names of the index are kept in bins, one after the other and each with a NUL byte
  behind it. A string that does not fit into the last bin starts a new one. Its id is made
  from the number of the bin and the offset in it, and its end is found by the NUL byte.

  Correspondence (C++ ↔ Lean):
    `pool`        ↔ `StringPool.bins`, the bytes of each bin
    `add`, `str`  ↔ `StringPool.add`, `StringPool.str`; a null pointer is the empty text, and
                    `none` the exception for an id that no bin has

  `counter` is left out. The number of a bin is a `u32`, which 2^56 bytes of names would
  have to fill before it wraps around.
-/
namespace FastSTDB
open List

def maxBinSize : Nat := limitsMaxSname * 0x1000

def nul : Char := '\x00'

structure StringPool where
  bins : List Text

namespace StringPool
variable {pool : StringPool} {text name : Text} {id : Nat}

/-- The bins before the one that a string of this size goes to, and that one. -/
def binFor (pool : StringPool) (size : Nat) : List Text × Text :=
  let bins := if pool.bins = [] then [[]] else pool.bins
  if maxBinSize < (bins.getLastD []).length + size then (bins, [])
  else (bins.dropLast, bins.getLastD [])

/-- `add`: the id, 0 for the empty string. -/
def add (pool : StringPool) (text : Text) : Nat × StringPool :=
  if text = [] then (0, ⟨if pool.bins = [] then [[]] else pool.bins⟩)
  else
    let (before, bin) := pool.binFor (text.length + 1)
    ((before.length + 1) * maxBinSize + bin.length, ⟨before ++ [bin ++ (text ++ [nul])]⟩)

def str (pool : StringPool) (bits : Nat) : Option Text :=
  let ix := bits / maxBinSize
  if ix = 0 then none
  else
    match pool.bins[ix - 1]? with
    | some bin => some ((bin.drop (bits % maxBinSize)).takeWhile (· != nul))
    | none => some []

/-- The strings are added one after the other; their ids, and the pool. -/
def addAll : List Text → StringPool → List Nat × StringPool
  | [], pool => ([], pool)
  | text :: texts, pool =>
    let rest := addAll texts (pool.add text).2
    ((pool.add text).1 :: rest.1, rest.2)

/-- The id leads to the string and the NUL byte behind it. -/
def Holds (pool : StringPool) (id : Nat) (text : Text) : Prop :=
  ∃ i front rest, pool.bins[i]? = some (front ++ (text ++ nul :: rest)) ∧
    front.length < maxBinSize ∧ id = (i + 1) * maxBinSize + front.length

theorem Holds.str_eq (h : pool.Holds id text) (hnul : nul ∉ text) : pool.str id = some text := by
  obtain ⟨i, front, rest, hbin, hlt, rfl⟩ := h
  have hdiv : ((i + 1) * maxBinSize + front.length) / maxBinSize = i + 1 := by
    rw [mul_comm, Nat.mul_add_div (by decide), Nat.div_eq_of_lt hlt]
  have hmod : ((i + 1) * maxBinSize + front.length) % maxBinSize = front.length := by
    rw [mul_comm, Nat.mul_add_mod, Nat.mod_eq_of_lt hlt]
  simp only [str, hdiv, hmod, Nat.add_sub_cancel, hbin]
  rw [drop_left, takeWhile_append_of_pos]
  · simp
  · intro ch hch
    rw [bne_iff_ne]
    rintro rfl
    exact hnul hch

theorem binFor_cases (pool : StringPool) {size : Nat} (hsize : size ≤ maxBinSize) :
    pool.bins = (pool.binFor size).1 ++ [(pool.binFor size).2] ∧
      (pool.binFor size).2.length + size ≤ maxBinSize ∨
    (pool.binFor size).1 = pool.bins ∧ (pool.binFor size).2 = [] := by
  rw [binFor]
  cases hbins : pool.bins using reverseRec with
  | nil => simp [not_lt.mpr hsize]
  | append_singleton before bin =>
    by_cases hfull : maxBinSize < bin.length + size
    · simp [hfull]
    · simp [hfull, not_lt.mp hfull]

section Add
variable (hne : text ≠ []) (hlt : text.length < maxBinSize)
include hne hlt

theorem add_holds (pool : StringPool) : (pool.add text).2.Holds (pool.add text).1 text := by
  rw [add, if_neg hne]
  refine ⟨_, _, [], getElem?_concat_length, ?_, rfl⟩
  rcases pool.binFor_cases (Nat.succ_le_of_lt hlt) with ⟨-, hfits⟩ | ⟨-, hnil⟩
  · exact (Nat.lt_add_of_pos_right (Nat.succ_pos _)).trans_le hfits
  · rw [hnil]
    decide

/-- The next string does not touch those before it, and has a larger id. -/
theorem Holds.add (h : pool.Holds id name) :
    (pool.add text).2.Holds id name ∧ id < (pool.add text).1 := by
  obtain ⟨i, front, rest, hbin, hfront, rfl⟩ := h
  rw [add, if_neg hne]
  generalize hb : pool.binFor (text.length + 1) = b
  have hcases := hb ▸ pool.binFor_cases (Nat.succ_le_of_lt hlt)
  obtain ⟨before, bin⟩ := b
  -- in a bin before
  have hbefore : before[i]? = some (front ++ (name ++ nul :: rest)) →
      Holds ⟨before ++ [bin ++ (text ++ [nul])]⟩ ((i + 1) * maxBinSize + front.length) name ∧
        (i + 1) * maxBinSize + front.length < (before.length + 1) * maxBinSize + bin.length := by
    intro hget
    have hi := lt_of_getElem? hget
    refine ⟨⟨i, front, rest, by rw [getElem?_append_left hi, hget], hfront, rfl⟩, ?_⟩
    have hle : (i + 1) * maxBinSize ≤ before.length * maxBinSize := Nat.mul_le_mul_right _ hi
    have hstep := Nat.add_one_mul before.length maxBinSize
    omega
  rcases hcases with ⟨hbins, -⟩ | ⟨rfl, rfl⟩
  · rw [hbins] at hbin
    rcases lt_or_ge i before.length with hi | hi
    · rw [getElem?_append_left hi] at hbin
      exact hbefore hbin
    · -- in the last bin
      rw [getElem?_append_right hi] at hbin
      obtain rfl : i = before.length := by
        have := lt_of_getElem? hbin
        simp only [length_singleton] at this
        omega
      rw [Nat.sub_self] at hbin
      cases hbin
      refine ⟨⟨_, front, rest ++ (text ++ [nul]), ?_, hfront, rfl⟩, by simp⟩
      simp
  · exact hbefore hbin

end Add

/-- The ids of strings that are added are increasing, and lead to them from then on. -/
theorem addAll_spec (texts : List Text) (h : ∀ text ∈ texts, text ≠ [] ∧ text.length < maxBinSize)
    (pool : StringPool) : (∀ {id name}, pool.Holds id name →
      (addAll texts pool).2.Holds id name ∧ ∀ next ∈ (addAll texts pool).1, id < next) ∧
    (addAll texts pool).1.Pairwise (· < ·) ∧
    Forall₂ (addAll texts pool).2.Holds (addAll texts pool).1 texts := by
  induction texts generalizing pool with
  | nil => exact ⟨fun h => ⟨h, by simp [addAll]⟩, .nil, .nil⟩
  | cons text texts ih =>
    obtain ⟨⟨hne, hlt⟩, h⟩ := forall_mem_cons.mp h
    obtain ⟨hkept, hsorted, hholds⟩ := ih h (pool.add text).2
    obtain ⟨hfirst, hlater⟩ := hkept (add_holds hne hlt pool)
    refine ⟨fun hold => ?_, pairwise_cons.mpr ⟨hlater, hsorted⟩, .cons hfirst hholds⟩
    obtain ⟨hnext, hid⟩ := hold.add hne hlt
    exact ⟨(hkept hnext).1, forall_mem_cons.mpr ⟨hid, (hkept hnext).2⟩⟩

/-- Strings without NUL bytes that are shorter than a bin are added to an empty pool: the ids are
increasing and not 0, and lead to the strings. -/
theorem addAll_empty (texts : List Text)
    (h : ∀ text ∈ texts, text ≠ [] ∧ nul ∉ text ∧ text.length < maxBinSize) :
    (addAll texts ⟨[]⟩).1.Pairwise (· < ·) ∧
      Forall₂ (fun id text => id ≠ 0 ∧ (addAll texts ⟨[]⟩).2.str id = some text)
        (addAll texts ⟨[]⟩).1 texts := by
  have hfits : ∀ text ∈ texts, text ≠ [] ∧ text.length < maxBinSize :=
    fun text ht => ⟨(h text ht).1, (h text ht).2.2⟩
  obtain ⟨-, hsorted, hholds⟩ := addAll_spec texts hfits ⟨[]⟩
  refine ⟨hsorted, Pairs.imp_mem hholds fun id _ text ht hold => ⟨?_, hold.str_eq (h text ht).2.1⟩⟩
  obtain ⟨i, front, rest, -, -, rfl⟩ := hold
  have hpos : 0 < (i + 1) * maxBinSize := Nat.mul_pos (Nat.succ_pos i) (by decide)
  omega

theorem addAll_empty_two : let texts := ["m a=1".toList, "m a=2".toList]
    (addAll texts ⟨[]⟩).1.Pairwise (· < ·) ∧
      Forall₂ (fun id text => id ≠ 0 ∧ (addAll texts ⟨[]⟩).2.str id = some text)
        (addAll texts ⟨[]⟩).1 texts := addAll_empty _ (by decide)

end StringPool
end FastSTDB
