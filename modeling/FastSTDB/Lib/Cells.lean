import FastSTDB.Lib.Bytes

/-
  Cells — a memory by position, with copies of whole ranges

  A memory gives the value of every position. `load` reads a range into a list and
  `store` copies a list over a range (`memcpy`). A copy changes the positions of its
  range and no others, so a range that has nothing in common with it reads as before.
  Over bytes, `peek` and `poke` read and write little-endian words of a given width.
-/
namespace Cells
open List

variable {β : Type*} {mem mem' : Nat → β} {offset offset' n k : Nat} {cells : List β}

/-- The `n` cells from `offset` on. -/
def load (mem : Nat → β) (offset n : Nat) : List β :=
  (List.range n).map fun k => mem (offset + k)

/-- The cells are copied over those from `offset` on. -/
def store (mem : Nat → β) (offset : Nat) (cells : List β) : Nat → β :=
  fun k => if offset ≤ k then cells[k - offset]?.getD (mem k) else mem k

@[simp] theorem length_load (mem : Nat → β) (offset n : Nat) : (load mem offset n).length = n := by
  simp [load]

theorem getElem?_load (h : k < n) : (load mem offset n)[k]? = some (mem (offset + k)) := by
  simp [load, h]

theorem store_outside (h : k < offset ∨ offset + cells.length ≤ k) :
    store mem offset cells k = mem k := by
  unfold store
  rcases h with h | h
  · rw [if_neg (not_le.mpr h)]
  · have hnone : cells[k - offset]? = none := getElem?_eq_none (by omega)
    rw [hnone, Option.getD_none, ite_self]

theorem store_inside (h : k < cells.length) : store mem offset cells (offset + k) = cells[k] := by
  have hsub : offset + k - offset = k := Nat.add_sub_cancel_left offset k
  rw [store, if_pos (Nat.le_add_right offset k), hsub, getElem?_eq_getElem h, Option.getD_some]

theorem load_congr (h : ∀ k, k < n → mem (offset + k) = mem' (offset' + k)) :
    load mem offset n = load mem' offset' n := by
  apply map_congr_left
  intro k hk
  exact h k (mem_range.mp hk)

theorem load_slice {a b : Nat} (h : a + b ≤ n) :
    load mem (offset + a) b = ((load mem offset n).drop a).take b := by
  apply ext_getElem?
  intro k
  rw [getElem?_take, getElem?_drop]
  by_cases hk : k < b
  · rw [if_pos hk, getElem?_load hk, getElem?_load (by omega), add_assoc]
  · rw [if_neg hk, getElem?_eq_none (by rw [length_load]; omega)]

@[simp] theorem load_store_self (mem : Nat → β) (offset : Nat) (cells : List β) :
    load (store mem offset cells) offset cells.length = cells := by
  apply ext_getElem
  · exact length_load _ _ _
  · intro k hk hk'
    simp only [load, getElem_map, getElem_range]
    exact store_inside hk'

theorem load_store_disjoint (h : offset' + n ≤ offset ∨ offset + cells.length ≤ offset') :
    load (store mem offset cells) offset' n = load mem offset' n := by
  apply load_congr
  intro k hk
  apply store_outside
  omega

/-! ## Words -/

section Words
open Bytes
variable {mem : Nat → UInt8} {offset offset' n n' k : Nat}

/-- The word of `n` bytes at `offset`. -/
def peek (mem : Nat → UInt8) (offset n : Nat) : Nat := ofLe (load mem offset n)

def poke (mem : Nat → UInt8) (offset n k : Nat) : Nat → UInt8 := store mem offset (leBytes n k)

theorem peek_poke_self (h : k < 256 ^ n) : peek (poke mem offset n k) offset n = k := by
  have hload : load (poke mem offset n k) offset n = leBytes n k := by
    have hself := load_store_self mem offset (leBytes n k)
    rwa [length_leBytes] at hself
  rw [peek, hload, ofLe_leBytes h]

theorem load_poke_disjoint (h : offset' + n' ≤ offset ∨ offset + n ≤ offset') :
    load (poke mem offset n k) offset' n' = load mem offset' n' := by
  apply load_store_disjoint
  rwa [length_leBytes]

theorem peek_poke_disjoint (h : offset' + n' ≤ offset ∨ offset + n ≤ offset') :
    peek (poke mem offset n k) offset' n' = peek mem offset' n' := by
  rw [peek, load_poke_disjoint h, peek]

theorem peek_store_disjoint {bytes : List UInt8}
    (h : offset' + n' ≤ offset ∨ offset + bytes.length ≤ offset') :
    peek (store mem offset bytes) offset' n' = peek mem offset' n' := by
  rw [peek, load_store_disjoint h, peek]

end Words

end Cells
