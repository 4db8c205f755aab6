import Mathlib.Data.Nat.Bitwise
import Mathlib.Tactic.Ring

/- Bytes of natural numbers: little-endian encodings of a fixed width, the
   accumulate-and-shift loop that reads them back, base-128 (LEB128) encodings,
   the number of zero bytes at either end of a 64-bit word, and copies of some bytes
   into a memory. -/

/-! ## Elements of lists

The library has these facts for `l[i]` with its bound; here they are for `l[i]? = some a`. -/

theorem List.lt_of_getElem? {α : Type} {l : List α} {i : Nat} {a : α} (h : l[i]? = some a) :
    i < l.length := (getElem?_eq_some_iff.mp h).1

theorem List.set_same {α : Type} {l : List α} {i : Nat} {a : α} (h : l[i]? = some a) :
    l.set i a = l := by
  obtain ⟨hi, rfl⟩ := getElem?_eq_some_iff.mp h
  exact set_getElem_self hi

theorem List.drop_set_self {α : Type} {l : List α} {i : Nat} (h : i < l.length) (a : α) :
    (l.set i a).drop i = a :: l.drop (i + 1) := by
  rw [drop_set, if_neg (lt_irrefl i), Nat.sub_self, drop_eq_getElem_cons h, set_cons_zero]

namespace Bytes
open List

/-! ## Little-endian words -/

/-- The `k` low bytes of `n`, lowest first. -/
def leBytes : Nat → Nat → List UInt8
  | 0, _ => []
  | k + 1, n => .ofNat n :: leBytes k (n / 256)

/-- The number whose little-endian bytes are given. -/
def ofLe : List UInt8 → Nat
  | [] => 0
  | b :: bs => b.toNat + 256 * ofLe bs

@[simp] theorem length_leBytes (k n : Nat) : (leBytes k n).length = k := by
  induction k generalizing n with
  | zero => rfl
  | succ k ih => simp [leBytes, ih]

theorem ofLe_leBytes {k n : Nat} (h : n < 256 ^ k) : ofLe (leBytes k n) = n := by
  induction k generalizing n with
  | zero =>
    have h0 : n = 0 := by simpa using h
    rw [h0]; rfl
  | succ k ih =>
    have hq : n / 256 < 256 ^ k := by
      rw [Nat.div_lt_iff_lt_mul (by decide)]
      calc n < 256 ^ (k + 1) := h
        _ = 256 ^ k * 256 := by ring
    have hb : (UInt8.ofNat n).toNat = n % 256 := by simp
    simp only [leBytes, ofLe, ih hq]
    omega

theorem leBytes_add (j k n : Nat) : leBytes (j + k) n = leBytes j n ++ leBytes k (n / 256 ^ j) := by
  induction j generalizing n with
  | zero => simp [leBytes]
  | succ j ih =>
    have hs : j + 1 + k = (j + k) + 1 := by omega
    have hd : n / 256 ^ (j + 1) = n / 256 / 256 ^ j := by
      rw [Nat.pow_succ, mul_comm, Nat.div_div_eq_div_mul]
    rw [hs, leBytes, ih, leBytes, hd, cons_append]

theorem ofLe_lt (bs : List UInt8) : ofLe bs < 256 ^ bs.length := by
  induction bs with
  | nil => decide
  | cons b bs ih =>
    have hb : b.toNat < 256 := b.toNat_lt
    rw [ofLe, length_cons]
    omega

theorem take_leBytes_ofLe (bs : List UInt8) {k : Nat} (h : bs.length ≤ k) :
    (leBytes k (ofLe bs)).take bs.length = bs := by
  induction bs generalizing k with
  | nil => rfl
  | cons b bs ih =>
    obtain ⟨k, rfl⟩ : ∃ j, k = j + 1 := ⟨k - 1, by simp only [length_cons] at h; omega⟩
    have hb : b.toNat < 256 := b.toNat_lt
    have hbyte : .ofNat (b.toNat + 256 * ofLe bs) = b := by
      apply UInt8.toNat_inj.mp
      rw [UInt8.toNat_ofNat']
      omega
    have hrest : (b.toNat + 256 * ofLe bs) / 256 = ofLe bs := by omega
    rw [ofLe, leBytes, hbyte, hrest, length_cons, take_succ_cons, ih (by simpa using h)]

/-! ## Accumulating reads -/

variable {i : Nat}

theorem or_shiftLeft {acc : Nat} (h : acc < 2 ^ i) (b : Nat) :
    acc ||| (b <<< i) = acc + 2 ^ i * b := by
  rw [Nat.lor_comm, ← Nat.shiftLeft_add_eq_or_of_lt h, Nat.shiftLeft_eq]
  ring

/-! ## Base 128 -/

/-- Base-128 digits of `n`, lowest first, all but the last with the high bit
set; `fuel` bounds their number. -/
def base128 : Nat → Nat → List UInt8
  | 0, _ => []
  | fuel + 1, n =>
    if n / 128 = 0 then [.ofNat (n % 128)]
    else .ofNat (n % 128 + 128) :: base128 fuel (n / 128)

theorem length_base128_pos (fuel n : Nat) : 0 < (base128 (fuel + 1) n).length := by
  rw [base128]
  split <;> simp

theorem length_base128_le (fuel n : Nat) : (base128 fuel n).length ≤ fuel := by
  induction fuel generalizing n with
  | zero => exact le_refl 0
  | succ fuel ih =>
    rw [base128]
    split
    · simp
    · have := ih (n / 128)
      simp only [length_cons]
      omega

/-! ## Zero bytes at the ends -/

/-- Number of trailing zero bits, up to `fuel`. -/
def trailingZeros : Nat → Nat → Nat
  | 0, _ => 0
  | fuel + 1, n => if n % 2 = 1 then 0 else 1 + trailingZeros fuel (n / 2)

theorem pow_trailingZeros_dvd (fuel n : Nat) : 2 ^ trailingZeros fuel n ∣ n := by
  induction fuel generalizing n with
  | zero => exact Nat.one_dvd n
  | succ fuel ih =>
    rw [trailingZeros]
    split
    · exact Nat.one_dvd n
    · obtain ⟨c, hc⟩ := ih (n / 2)
      refine ⟨c, ?_⟩
      have h2 : n = 2 * (n / 2) := by omega
      rw [Nat.pow_add, mul_assoc, ← hc]
      exact h2

/-! ## Copies into a memory -/

section Splice
variable {α : Type} {mem : List α}

/-- The memory after a copy of `src` to the offset `i`. -/
def splice (mem : List α) (i : Nat) (src : List α) : List α :=
  mem.take i ++ src ++ mem.drop (i + src.length)

theorem length_splice {src : List α} (h : i + src.length ≤ mem.length) :
    (splice mem i src).length = mem.length := by
  simp only [splice, length_append, length_take, length_drop]
  omega

theorem splice_append_left {more src : List α} (h : i + src.length ≤ mem.length) :
    splice (mem ++ more) i src = splice mem i src ++ more := by
  have hi : i ≤ mem.length := (le_self_add).trans h
  simp [splice, take_append_of_le_length hi, drop_append_of_le_length h]

theorem splice_append_right (front mem src : List α) :
    splice (front ++ mem) (front.length + i) src = front ++ splice mem i src := by
  simp [splice, add_assoc, take_length_add_append]

theorem splice_splice (a b : List α) (h : i + a.length ≤ mem.length) :
    splice (splice mem i a) (i + a.length) b = splice mem i (a ++ b) := by
  have hfront : (mem.take i ++ a).length = i + a.length := by
    rw [length_append, length_take, min_eq_left (by omega)]
  have hsplit : splice mem i a = (mem.take i ++ a) ++ mem.drop (i + a.length) := rfl
  rw [hsplit, ← add_zero (i + a.length), ← hfront, splice_append_right]
  simp [splice, add_assoc, hfront]

theorem take_splice (src : List α) (h : i ≤ mem.length) :
    (splice mem i src).take (i + src.length) = mem.take i ++ src := by
  have hfront : (mem.take i ++ src).length = i + src.length := by
    rw [length_append, length_take, min_eq_left h]
  rw [splice, take_left' hfront]

end Splice

end Bytes
