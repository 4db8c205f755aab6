import FastSTDB.Compression
import Mathlib.Tactic.IntervalCases

/-
  Block codec — what is written and that it reads back

  `encChunk` is the byte string of one chunk. Every writer of
  `FastSTDB.Compression` appends its byte string when it fits (`encodePairs_fit`
  and the lemmas around it), a chunk never takes more than the margin
  `room_for_chunk` keeps (`length_encChunk_le`), and the reader inverts it
  (`readN_chunk`). `Holds w pts` is the invariant of a writer that has accepted
  the points `pts`; `put`, `commit` and `readAll` are specified by it.
-/
namespace FastSTDB
open List Option Bytes IOVecVByteStreamReader Point
open FcmStreamReader (nextFlag)

variable {b : IOVecBlock} {n : Nat} {v diff : UInt64} {iter : List UInt64} {p : DfcmPredictor}
  {s : IOVecVByteStreamReader} {rest : List UInt8} {r : FcmStreamReader}

/-! ## Byte strings -/

def encPair (fst snd : UInt64) : List UInt8 :=
  .ofNat (ctrlLen fst.toNat + 16 * ctrlLen snd.toNat) ::
    (leBytes (ctrlLen fst.toNat) fst.toNat ++ leBytes (ctrlLen snd.toNat) snd.toNat)

def encPairs : List UInt64 → List UInt8
  | fst :: snd :: rest => encPair fst snd ++ encPairs rest
  | _ => []

def encWords (iter : List UInt64) : List UInt8 :=
  if iter.all (· == 0) then [0xFF] else encPairs iter

def encTimestamps (prev : UInt64) (iter : List UInt64) : List UInt8 :=
  base128 10 (minDelta prev iter).toNat ++
    encWords ((deltas prev iter).map (· - minDelta prev iter))

/-- Shift applied to a difference before its bytes are stored. -/
def flagShift (flag : Nat) : Nat := (64 - (flag % 8 + 1) * 8) * (flag / 8)

def encDiff (diff : UInt64) (flag : Nat) : List UInt8 :=
  leBytes (flag % 8 + 1) (diff.toNat / 2 ^ flagShift flag)

def encDiffs : List (UInt64 × Nat) → List UInt8
  | (d₁, f₁) :: (d₂, f₂) :: rest =>
    .ofNat (storedFlag f₁ * 16 + storedFlag f₂) ::
      (encDiff d₁ (storedFlag f₁) ++ encDiff d₂ (storedFlag f₂)) ++ encDiffs rest
  | _ => []

def encValues (p : DfcmPredictor) (values : List UInt64) : List UInt8 :=
  let coded := (fcmEncodeAll p values).1
  if coded.all (fun c => c.1 == 0) then [0xFF] else encDiffs coded

def encChunk (prev : UInt64) (p : DfcmPredictor) (buf : List Point) : List UInt8 :=
  encTimestamps prev (buf.map ts) ++ encValues p (buf.map value)

def encPoint (p : Point) : List UInt8 := leBytes 8 p.ts.toNat ++ leBytes 8 p.value.toNat

/-! ## Writers append their byte string -/

namespace IOVecBlock

def append (b : IOVecBlock) (bs : List UInt8) : IOVecBlock := { b with bytes := b.bytes ++ bs }

@[simp] theorem append_nil (b : IOVecBlock) : b.append [] = b := by
  cases b; simp [append]

@[simp] theorem append_append (b : IOVecBlock) (xs ys : List UInt8) :
    (b.append xs).append ys = b.append (xs ++ ys) := by simp [append]

@[simp] theorem size_append (b : IOVecBlock) (xs : List UInt8) :
    (b.append xs).size = b.size + xs.length := by simp [append, size, add_assoc]

theorem put_eq_append (v : UInt8) : BlockT.put b v = b.append [v] := rfl

theorem spaceLeft_eq : BlockT.spaceLeft b = faststdbBlockSize - b.size := rfl

theorem putPod_eq_append (w n : Nat) : putPod b w n = b.append (leBytes w n) := by
  induction w generalizing b n with
  | zero => simp [putPod, leBytes]
  | succ w ih => rw [putPod, ih, put_eq_append, append_append]; rfl

/-- The bytes `bs` fit into the block. -/
def Fits (b : IOVecBlock) (bs : List UInt8) : Prop := b.size + bs.length ≤ faststdbBlockSize

theorem Fits.left {xs ys : List UInt8} (h : b.Fits (xs ++ ys)) : b.Fits xs := by
  simp only [Fits, length_append] at *
  omega

theorem Fits.right {xs ys : List UInt8} (h : b.Fits (xs ++ ys)) : (b.append xs).Fits ys := by
  simp only [Fits, length_append, size_append] at *
  omega

end IOVecBlock
open IOVecBlock

theorem putRaw_fit {w : Nat} (h : b.Fits (leBytes w n)) :
    putRaw b w n = (true, b.append (leBytes w n)) := by
  simp only [Fits, length_leBytes] at h
  have hs : ¬ BlockT.spaceLeft b < w := by rw [spaceLeft_eq]; omega
  rw [putRaw, if_neg hs, putPod_eq_append]

theorem safePut_fit {v : UInt8} (h : b.Fits [v]) : b.safePut v = (true, b.append [v]) := by
  simp only [Fits, length_singleton, faststdbBlockSize] at h
  have hs : ¬ ncomponents ≤ b.size / componentSize := by
    simp only [ncomponents, componentSize]; omega
  rw [safePut, if_neg hs]
  rfl

theorem div_digit {fuel : Nat} (hn : n < 128 ^ (fuel + 1)) (hz : ¬ n / 128 = 0) :
    0 < fuel ∧ n / 128 < 128 ^ fuel := by
  have hq : n / 128 < 128 ^ fuel := by
    rw [Nat.div_lt_iff_lt_mul (by decide)]
    exact hn
  refine ⟨pos_of_ne_zero fun h0 => ?_, hq⟩
  rw [h0] at hq
  omega

theorem putDigits_fit {fuel : Nat} (hn : n < 128 ^ fuel) (hf : 0 < fuel)
    (h : b.Fits (base128 fuel n)) :
    putDigits safePut fuel n b = (true, b.append (base128 fuel n)) := by
  induction fuel generalizing n b with
  | zero => omega
  | succ fuel ih =>
    rw [base128] at h ⊢
    by_cases hz : n / 128 = 0
    · rw [if_pos hz] at h ⊢
      simp [putDigits, hz, safePut_fit h]
    · rw [if_neg hz] at h ⊢
      have hcons : .ofNat (n % 128 + 128) :: base128 fuel (n / 128)
          = [.ofNat (n % 128 + 128)] ++ base128 fuel (n / 128) := rfl
      rw [hcons] at h ⊢
      obtain ⟨hpos, hq⟩ := div_digit hn hz
      simp only [putDigits, ne_eq, hz, not_false_eq_true, if_true, safePut_fit h.left,
        andThen_true, if_false]
      rw [ih hq hpos h.right, append_append]

theorem encode_fit {fst snd : UInt64} (h : b.Fits (encPair fst snd)) :
    encode fst snd b = (true, b.append (encPair fst snd)) := by
  simp only [Fits, encPair, length_cons, length_append, length_leBytes] at h
  have hs : ¬ BlockT.spaceLeft b < 1 + ctrlLen fst.toNat + ctrlLen snd.toNat := by
    rw [spaceLeft_eq]; omega
  simp only [encode, if_neg hs, putPod_eq_append, put_eq_append, append_append]
  rfl

theorem encodePairs_fit : ∀ (iter : List UInt64) {b : IOVecBlock}, b.Fits (encPairs iter) →
    encodePairs iter b = (true, b.append (encPairs iter))
  | [], b, _ => by simp [encodePairs, encPairs]
  | [_], b, _ => by simp [encodePairs, encPairs]
  | fst :: snd :: rest, b, h => by
    rw [encPairs] at h ⊢
    simp only [encodePairs, encode_fit h.left, andThen_true]
    rw [encodePairs_fit rest h.right, append_append]

theorem tput_fit (h : b.Fits (encWords iter)) : tput iter b = (true, b.append (encWords iter)) := by
  unfold encWords at h ⊢
  unfold tput
  split at h
  · rename_i hz
    simp only [Fits, length_singleton] at h
    have hs : ¬ BlockT.spaceLeft b = 0 := by rw [spaceLeft_eq]; omega
    rw [if_pos hz, if_pos hz, shortcut, if_neg hs, put_eq_append]
  · rename_i hz
    rw [if_neg hz, if_neg hz, encodePairs_fit iter h]

theorem deltaDeltaTput_fit {prev : UInt64} (h : b.Fits (encTimestamps prev iter)) :
    deltaDeltaTput prev iter b =
      (true, iter.getLastD prev, b.append (encTimestamps prev iter)) := by
  have hlt : (minDelta prev iter).toNat < 128 ^ 10 := (UInt64.toNat_lt _).trans_le (by decide)
  rw [encTimestamps] at h ⊢
  simp [deltaDeltaTput, BlockT.putBase128, putDigits_fit hlt (by decide) h.left, tput_fit h.right]

/-! ## Values -/

theorem putWidths_fit : ∀ (ws : List Nat) (n : Nat) {b : IOVecBlock}, b.Fits (leBytes ws.sum n) →
    putWidths ws n b = (true, b.append (leBytes ws.sum n))
  | [], n, b, _ => by simp [putWidths, leBytes]
  | w :: ws, n, b, h => by
    rw [sum_cons, leBytes_add] at h ⊢
    simp only [putWidths, putRaw_fit h.left, andThen_true]
    rw [putWidths_fit ws _ h.right, append_append]

theorem encodeWidths_sum (h0 : 0 < n) (h8 : n ≤ 8) : (encodeWidths n).sum = n := by
  interval_cases n <;> rfl

theorem encodeValue_fit {flag : Nat} (h : b.Fits (encDiff diff flag)) :
    encodeValue b diff flag = (true, b.append (encDiff diff flag)) := by
  have hsum : (encodeWidths (flag % 8 + 1)).sum = flag % 8 + 1 :=
    encodeWidths_sum (by omega) (by omega)
  unfold encDiff at h ⊢
  rw [← hsum] at h
  have hp := putWidths_fit _ _ h
  rw [hsum] at hp
  exact hp

theorem fcmPutPairs_fit : ∀ (coded : List (UInt64 × Nat)) {b : IOVecBlock},
    b.Fits (encDiffs coded) → fcmPutPairs coded b = (true, b.append (encDiffs coded))
  | [], b, _ => by simp [fcmPutPairs, encDiffs]
  | [_], b, _ => by simp [fcmPutPairs, encDiffs]
  | (d1, f1) :: (d2, f2) :: rest, b, h => by
    have hsplit : encDiffs ((d1, f1) :: (d2, f2) :: rest) =
        leBytes 1 (storedFlag f1 * 16 + storedFlag f2) ++ (encDiff d1 (storedFlag f1) ++
          (encDiff d2 (storedFlag f2) ++ encDiffs rest)) := by simp [encDiffs, leBytes]
    rw [hsplit] at h ⊢
    simp only [fcmPutPairs, putRaw_fit h.left, andThen_true, encodeValue_fit h.right.left,
      encodeValue_fit h.right.right.left, fcmPutPairs_fit rest h.right.right.right]
    simp

variable {values : List UInt64}

theorem fcmTput_fit (h : b.Fits (encValues p values)) :
    fcmTput p values b = (true, (fcmEncodeAll p values).2, b.append (encValues p values)) := by
  unfold encValues at h ⊢
  unfold fcmTput
  simp only at h ⊢
  split at h
  · rename_i hz
    have h1 : leBytes 1 0xFF = [0xFF] := rfl
    rw [if_pos hz, if_pos hz, putRaw_fit h, h1]
  · rename_i hz
    rw [if_neg hz, if_neg hz, fcmPutPairs_fit _ h]

/-! ## Sizes -/

theorem ctrlLen_le (x : Nat) : ctrlLen x ≤ 8 := Nat.sub_le 8 _

theorem length_encPairs_le (iter : List UInt64) :
    2 * (encPairs iter).length ≤ 17 * iter.length := by
  fun_induction encPairs iter with
  | case1 fst snd rest ih =>
    have h1 := ctrlLen_le fst.toNat
    have h2 := ctrlLen_le snd.toNat
    simp only [encPair, length_append, length_cons, length_leBytes]
    omega
  | case2 => simp

theorem length_deltas (prev : UInt64) : (deltas prev iter).length = iter.length := by
  induction iter generalizing prev with
  | nil => rfl
  | cons v vs ih => simp [deltas, ih]

theorem length_fcmEncodeAll : (fcmEncodeAll p values).1.length = values.length := by
  induction values generalizing p with
  | nil => rfl
  | cons v vs ih => simp [fcmEncodeAll, ih]

theorem length_encDiffs_le (coded : List (UInt64 × Nat)) :
    2 * (encDiffs coded).length ≤ 17 * coded.length := by
  fun_induction encDiffs coded with
  | case1 d1 f1 d2 f2 rest ih =>
    simp only [encDiff, length_append, length_cons, length_leBytes]
    omega
  | case2 => simp

/-- A chunk takes at most 282 bytes, less than the margin of `room_for_chunk`. -/
theorem length_encChunk_le (prev : UInt64) (p : DfcmPredictor) {buf : List Point}
    (hb : buf.length = chunkSize) : (encChunk prev p buf).length ≤ 282 := by
  have hts : (encTimestamps prev (buf.map ts)).length ≤ 146 := by
    have h1 := length_base128_le 10 (minDelta prev (buf.map ts)).toNat
    have h2 := length_encPairs_le ((deltas prev (buf.map ts)).map (· - minDelta prev (buf.map ts)))
    simp only [length_map, length_deltas, hb, chunkSize] at h2
    simp only [encTimestamps, encWords, length_append]
    split
    · simp only [length_singleton]; omega
    · omega
  have hval : (encValues p (buf.map value)).length ≤ 136 := by
    have h2 := length_encDiffs_le (fcmEncodeAll p (buf.map value)).1
    simp only [length_fcmEncodeAll, length_map, hb, chunkSize] at h2
    simp only [encValues]
    split
    · simp
    · omega
  simp only [encChunk, length_append]
  omega

/-! ## Readers: words -/

theorem add_digit_lt {acc i : Nat} (hacc : acc < 2 ^ i) (n k : Nat) :
    acc + 2 ^ i * (n % 2 ^ k) < 2 ^ (i + k) := by
  have hmod : n % 2 ^ k < 2 ^ k := Nat.mod_lt _ (Nat.two_pow_pos k)
  calc acc + 2 ^ i * (n % 2 ^ k) < 2 ^ i + 2 ^ i * (n % 2 ^ k) := by omega
    _ = 2 ^ i * (n % 2 ^ k + 1) := by ring
    _ ≤ 2 ^ (i + k) := by rw [Nat.pow_add]; exact Nat.mul_le_mul_left _ hmod

theorem digit_add_rest (n i k : Nat) :
    2 ^ i * (n % 2 ^ k) + 2 ^ (i + k) * (n / 2 ^ k) = 2 ^ i * n := by
  rw [Nat.pow_add, mul_assoc, ← mul_add, Nat.mod_add_div]

theorem accBytes_leBytes {k : Nat} (hn : n < 256 ^ k) (rest : List UInt8) :
    ∀ (i acc : Nat), acc < 2 ^ i → i + 8 * k ≤ 64 → accBytes k i acc (leBytes k n ++ rest) =
        some (acc + 2 ^ i * n, rest) := by
  induction k generalizing n with
  | zero =>
    have h0 : n = 0 := by simpa using hn
    simp [accBytes, leBytes, h0]
  | succ k ih =>
    intro i acc hacc hi
    have hq : n / 256 < 256 ^ k := by
      rw [Nat.div_lt_iff_lt_mul (by decide)]
      exact hn
    have hb : (UInt8.ofNat n).toNat = n % 256 := by simp
    have hacc' : acc + 2 ^ i * (n % 256) < 2 ^ (i + 8) := add_digit_lt hacc n 8
    have h64 : n % 256 * 2 ^ i < 2 ^ 64 := by
      rw [mul_comm]
      exact (Nat.le_add_left _ acc).trans_lt
        (hacc'.trans_le (Nat.pow_le_pow_right (by decide) (by omega)))
    simp only [leBytes, cons_append, accBytes, hb, Nat.shiftLeft_eq, Nat.mod_eq_of_lt h64]
    have hsum : 2 ^ i * (n % 256) + 2 ^ (i + 8) * (n / 256) = 2 ^ i * n := digit_add_rest n i 8
    rw [← Nat.shiftLeft_eq, or_shiftLeft hacc, ih hq _ _ hacc' (by omega), add_assoc, hsum]

theorem getBase128_base128 (fuel n : Nat) (hf : 0 < fuel) (hn : n < 128 ^ fuel)
    (rest : List UInt8) : ∀ (cnt acc : Nat), acc < 2 ^ cnt → 2 ^ cnt * n < 2 ^ 64 →
      getBase128 acc cnt (base128 fuel n ++ rest) = some (acc + 2 ^ cnt * n, rest) := by
  induction fuel generalizing n with
  | zero => omega
  | succ fuel ih =>
    intro cnt acc hacc h64
    have hlow : 2 ^ cnt * (n % 128) < 2 ^ 64 :=
      (Nat.mul_le_mul_left _ (Nat.mod_le n 128)).trans_lt h64
    have hor : acc ||| ((n % 128) <<< cnt) % 2 ^ 64 = acc + 2 ^ cnt * (n % 128) := by
      rw [Nat.mod_eq_of_lt (by rw [Nat.shiftLeft_eq, mul_comm]; exact hlow), or_shiftLeft hacc]
    rw [base128]
    by_cases hz : n / 128 = 0
    · have hlt : n < 128 := by omega
      have hb : (UInt8.ofNat (n % 128)).toNat = n % 128 := by simp; omega
      have hd : n % 128 / 128 = 0 := by omega
      simp only [if_pos hz, cons_append, nil_append, getBase128, hb, Nat.mod_mod, hd, if_true, hor]
      rw [Nat.mod_eq_of_lt hlt]
    · have hb : (UInt8.ofNat (n % 128 + 128)).toNat = n % 128 + 128 := by simp; omega
      have hd : ¬ (n % 128 + 128) / 128 = 0 := by omega
      have hm : (n % 128 + 128) % 128 = n % 128 := by omega
      obtain ⟨hpos, hq⟩ := div_digit hn hz
      have hsum : 2 ^ cnt * (n % 128) + 2 ^ (cnt + 7) * (n / 128) = 2 ^ cnt * n :=
        digit_add_rest n cnt 7
      have hacc' : acc + 2 ^ cnt * (n % 128) < 2 ^ (cnt + 7) := add_digit_lt hacc n 7
      simp only [if_neg hz, cons_append, getBase128, hb, hd, hm, if_false, hor]
      rw [ih _ hpos hq _ _ hacc' (by omega), add_assoc, hsum]

theorem lt_pow_ctrlLen {x : Nat} (hx : x < 2 ^ 64) : x < 256 ^ ctrlLen x := by
  unfold ctrlLen
  by_cases h0 : x = 0
  · simp [h0]
  · have hlog : Nat.log2 x < 64 := (Nat.log2_lt h0).mpr hx
    have hself : x < 2 ^ (Nat.log2 x + 1) := Nat.lt_log2_self
    have h256 : 256 ^ (8 - clzll x / 8) = 2 ^ (8 * (8 - clzll x / 8)) := by rw [Nat.pow_mul]
    rw [if_neg h0, h256]
    refine hself.trans_le (Nat.pow_le_pow_right (by decide) ?_)
    simp only [clzll]
    omega

namespace IOVecVByteStreamReader

/-- Between two chunks: no pending second word, no pending zeros. -/
def AtPair (s : IOVecVByteStreamReader) (rest : List UInt8) : Prop :=
  s.rest = rest ∧ s.cnt % 2 = 0 ∧ s.scutElements = 0

theorem readRaw_append (s : IOVecVByteStreamReader) (bs rest : List UInt8)
    (h : s.rest = bs ++ rest) : s.readRaw bs.length = some (ofLe bs, { s with rest := rest }) := by
  simp [readRaw, h]

theorem readRaw_byte (s : IOVecVByteStreamReader) (b : UInt8) (rest : List UInt8)
    (h : s.rest = b :: rest) : s.readRaw 1 = some (b.toNat, { s with rest := rest }) := by
  exact s.readRaw_append [b] rest h

theorem nextBytes_leBytes (s : IOVecVByteStreamReader) {k : Nat} (hk : k ≤ 8)
    (hv : v.toNat < 256 ^ k) (rest : List UInt8) :
    { s with rest := leBytes k v.toNat ++ rest }.nextBytes k = some (v, { s with rest := rest }) := by
  have hacc := accBytes_leBytes hv rest 0 0 (by decide) (by omega)
  simp [nextBytes, hacc]

def nextN : Nat → IOVecVByteStreamReader → Option (List UInt64 × IOVecVByteStreamReader)
  | 0, s => some ([], s)
  | n + 1, s => s.next.bind fun (v, s) => (nextN n s).map fun (vs, s) => (v :: vs, s)

theorem nextN_succ {s2 : IOVecVByteStreamReader} {vs : List UInt64} :
    nextN (n + 1) s = some (v :: vs, s2) ↔
      ∃ s1, s.next = some (v, s1) ∧ nextN n s1 = some (vs, s2) := by simp [nextN, bind_eq_some_iff]

theorem next_pair (s : IOVecVByteStreamReader) {fst snd : UInt64}
    (h : s.AtPair (encPair fst snd ++ rest)) :
    ∃ s1 s2, s.next = some (fst, s1) ∧ s1.next = some (snd, s2) ∧ s2.AtPair rest := by
  obtain ⟨hrest, hcnt, hscut⟩ := h
  have hf := ctrlLen_le fst.toNat
  have hs := ctrlLen_le snd.toNat
  have hfst := lt_pow_ctrlLen fst.toNat_lt
  have hsnd := lt_pow_ctrlLen snd.toNat_lt
  rw [encPair, cons_append, append_assoc] at hrest
  generalize ctrlLen fst.toNat = k at *
  generalize ctrlLen snd.toNat = l at *
  have hctrl : (UInt8.ofNat (k + 16 * l)).toNat = k + 16 * l := by simp; omega
  have hlo : (k + 16 * l) % 16 = k := by omega
  have hhi : (k + 16 * l) / 16 = l := by omega
  have hne : ¬ l = 15 := by omega
  have hodd : ¬ (s.cnt + 1) % 2 = 0 := by omega
  have hraw := s.readRaw_byte _ _ hrest
  refine ⟨⟨leBytes l snd.toNat ++ rest, s.cnt + 1, k + 16 * l, 0⟩,
    ⟨rest, s.cnt + 1 + 1, k + 16 * l, 0⟩, ?_, ?_, rfl, ?_, rfl⟩
  · simp only [next, hscut, ne_eq, not_true_eq_false, and_false, hcnt, hraw,
      bind_some, hctrl, hhi, hne, hlo]
    exact nextBytes_leBytes ⟨[], _, _, _⟩ hf hfst _
  · simp only [next, ne_eq, not_true_eq_false, and_false, hodd, hhi]
    exact nextBytes_leBytes ⟨[], _, _, _⟩ hs hsnd _
  · show (s.cnt + 1 + 1) % 2 = 0
    omega

theorem nextN_encPairs : ∀ (iter : List UInt64) (s : IOVecVByteStreamReader) {rest : List UInt8},
    iter.length % 2 = 0 → s.AtPair (encPairs iter ++ rest) →
    ∃ s', nextN iter.length s = some (iter, s') ∧ s'.AtPair rest
  | [], s, rest, _, h => ⟨s, rfl, h⟩
  | [_], s, rest, he, _ => by simp at he
  | fst :: snd :: iter, s, rest, he, h => by
    rw [encPairs, append_assoc] at h
    obtain ⟨s1, s2, h1, h2, hp⟩ := s.next_pair h
    obtain ⟨s', hn, hp'⟩ := nextN_encPairs iter s2 (by simp at he; omega) hp
    exact ⟨s', nextN_succ.mpr ⟨s1, h1, nextN_succ.mpr ⟨s2, h2, hn⟩⟩, hp'⟩

theorem nextN_zeros (n : Nat) (s : IOVecVByteStreamReader) (hc : s.ctrl = 0xFF)
    (hs : s.scutElements = n) : nextN n s =
      some (replicate n 0, { s with scutElements := 0, cnt := s.cnt + n }) := by
  induction n generalizing s with
  | zero => cases s; simp only at hs; simp [nextN, hs]
  | succ n ih =>
    have hnext : s.next = some (0, { s with scutElements := n, cnt := s.cnt + 1 }) := by
      simp [next, hc, hs]
    rw [replicate_succ, nextN_succ.mpr ⟨_, hnext, ih _ (by exact hc) rfl⟩]
    simp [add_assoc, add_comm 1 n]

theorem nextN_encWords (iter : List UInt64) (s : IOVecVByteStreamReader) (rest : List UInt8)
    (hl : iter.length = chunkSize) (h : s.AtPair (encWords iter ++ rest)) :
    ∃ s', nextN iter.length s = some (iter, s') ∧ s'.AtPair rest := by
  unfold encWords at h
  split at h
  · rename_i hz
    obtain ⟨hrest, hcnt, hscut⟩ := h
    have hiter : iter = replicate 16 0 := by
      rw [eq_replicate_iff]
      refine ⟨hl, fun b hb => ?_⟩
      simpa using all_eq_true.mp hz b hb
    have hraw := s.readRaw_byte 0xFF rest hrest
    have hnext : s.next = some (0, ⟨rest, s.cnt + 1, 0xFF, 15⟩) := by
      simp [next, hscut, hcnt, hraw, chunkSize]
    have hzeros := nextN_zeros 15 ⟨rest, s.cnt + 1, 0xFF, 15⟩ rfl rfl
    refine ⟨⟨rest, s.cnt + 1 + 15, 0xFF, 0⟩, ?_, rfl, ?_, rfl⟩
    · rw [hiter]
      exact nextN_succ.mpr ⟨_, hnext, hzeros⟩
    · show (s.cnt + 1 + 15) % 2 = 0
      omega
  · exact nextN_encPairs iter s (by rw [hl]; rfl) h

end IOVecVByteStreamReader

/-! ## Readers: timestamps -/

open IOVecVByteStreamReader IOVecBlockReader

theorem add_delta (prev v mn : UInt64) : prev + (v - prev - mn) + mn = v := by
  rw [UInt64.add_assoc, UInt64.sub_add_cancel, UInt64.add_comm, UInt64.sub_add_cancel]

theorem readTimestamps_deltas : ∀ (iter : List UInt64) (d : DeltaDeltaStreamReader)
    (s s' : IOVecVByteStreamReader), (∀ j < iter.length, (d.counter + j) % 16 ≠ 0) →
    nextN iter.length s = some ((deltas d.prev iter).map (· - d.min), s') →
    readTimestamps iter.length d s =
      some (iter, ⟨iter.getLastD d.prev, d.min, d.counter + iter.length⟩, s')
  | [], d, s, s', _, h => by
    simp only [length_nil, nextN, some.injEq, Prod.mk.injEq] at h
    simp [readTimestamps, h.2]
  | v :: iter, d, s, s', hc, h => by
    obtain ⟨s1, hnext, hN⟩ := nextN_succ.mp h
    have hc0 : ¬ d.counter % 16 = 0 := hc 0 (by simp)
    have hd : d.next s = some (v, ⟨v, d.min, d.counter + 1⟩, s1) := by
      simp [DeltaDeltaStreamReader.next, hc0, hnext, add_delta]
    have hrec := readTimestamps_deltas iter ⟨v, d.min, d.counter + 1⟩ s1 s' (fun j hj => by
        have := hc (j + 1) (by simpa using hj)
        rwa [add_assoc, add_comm 1 j]) hN
    simp only [length_cons, readTimestamps, hd, bind_some, hrec, map_some]
    have hlast : (v :: iter).getLastD d.prev = iter.getLastD v := by
      cases iter <;> rfl
    rw [hlast, add_assoc, add_comm 1]

theorem nextBase128_base128 (h : s.rest = base128 10 v.toNat ++ rest) :
    s.nextBase128 = some (v, { s with rest := rest }) := by
  have hv : v.toNat < 2 ^ 64 := v.toNat_lt
  have hget := getBase128_base128 10 v.toNat (by decide)
    (hv.trans_le (by decide)) rest 0 0 (by decide) (by omega)
  simp [nextBase128, h, hget]

/-- The timestamps of a chunk are read back, the delta-delta state follows the
writer's. -/
theorem readTimestamps_encTimestamps (hl : iter.length = chunkSize) {d : DeltaDeltaStreamReader}
    (hc : d.counter % 16 = 0) (h : s.AtPair (encTimestamps d.prev iter ++ rest)) :
    ∃ d' s', readTimestamps chunkSize d s = some (iter, d', s') ∧
      d'.prev = iter.getLastD d.prev ∧ d'.counter % 16 = 0 ∧ s'.AtPair rest := by
  obtain ⟨hrest, hcnt, hscut⟩ := h
  obtain ⟨v, vs, rfl⟩ := exists_cons_of_length_eq_add_one hl
  have hvs : vs.length = 15 := by simpa [chunkSize] using hl
  generalize hmn : minDelta d.prev (v :: vs) = mn at *
  rw [encTimestamps, hmn, append_assoc] at hrest
  have h128 := nextBase128_base128 hrest
  obtain ⟨s', hN, hp⟩ := nextN_encWords ((deltas d.prev (v :: vs)).map (· - mn))
    { s with rest := encWords ((deltas d.prev (v :: vs)).map (· - mn)) ++ rest } rest
    (by rw [length_map, length_deltas, hl]) ⟨rfl, hcnt, hscut⟩
  rw [length_map, length_deltas] at hN
  obtain ⟨s1, hnext, hN'⟩ := nextN_succ.mp hN
  have hd : d.next s = some (v, ⟨v, mn, d.counter + 1⟩, s1) := by
    simp only [DeltaDeltaStreamReader.next, hc, if_true, h128, bind_some]
    rw [hnext]
    simp [add_delta]
  have hrec := readTimestamps_deltas vs ⟨v, mn, d.counter + 1⟩ s1 s' (fun j hj => by
      show (d.counter + 1 + j) % 16 ≠ 0
      omega) hN'
  refine ⟨⟨vs.getLastD v, mn, d.counter + 1 + vs.length⟩, s', ?_, ?_, ?_, hp⟩
  · have h16 : chunkSize = vs.length + 1 := by rw [hvs]; rfl
    rw [h16]
    simp [readTimestamps, hd, hrec]
  · cases vs <;> rfl
  · show (d.counter + 1 + vs.length) % 16 = 0
    omega

/-! ## Readers: values -/

/-- What the flag of a difference promises: the stored bytes are the whole
difference, and the flag is never mistaken for the shortcut byte. -/
def Coded (diff : UInt64) (flag : Nat) : Prop :=
  storedFlag flag ≤ 14 ∧
    diff.toNat / 2 ^ flagShift (storedFlag flag) * 2 ^ flagShift (storedFlag flag) = diff.toNat ∧
    diff.toNat / 2 ^ flagShift (storedFlag flag) < 256 ^ (storedFlag flag % 8 + 1)

theorem coded_zero : Coded 0 0xF := by refine ⟨by decide, ?_, ?_⟩ <;> simp [storedFlag]

theorem coded_leading (h0 : diff ≠ 0) {l : Nat} (hl : l = clzll diff.toNat / 8) :
    Coded diff (7 - l) ∧ l ≤ 7 := by
  have hn0 : diff.toNat ≠ 0 := fun h => h0 (UInt64.toNat_inj.mp h)
  have hle : l ≤ 7 := by simp only [hl, clzll]; omega
  have hsf : storedFlag (7 - l) = 7 - l := by rw [storedFlag, if_neg (by omega)]
  have hsh : flagShift (7 - l) = 0 := by
    rw [flagShift, Nat.div_eq_of_lt (by omega), mul_zero]
  have hctrl := lt_pow_ctrlLen diff.toNat_lt
  rw [ctrlLen, if_neg hn0, ← hl] at hctrl
  refine ⟨⟨by rw [hsf]; omega, ?_, ?_⟩, hle⟩
  · rw [hsf, hsh]; simp
  · rw [hsf, hsh, Nat.pow_zero, Nat.div_one]
    have he : (7 - l) % 8 + 1 = 8 - l := by omega
    rw [he]
    exact hctrl

theorem coded_trailing (h0 : diff ≠ 0) {t : Nat} (hpos : 0 < t)
    (ht : t = trailingZeros 64 diff.toNat / 8) : Coded diff (8 + (7 - t)) ∧ t ≤ 7 := by
  have hn0 : diff.toNat ≠ 0 := fun h => h0 (UInt64.toNat_inj.mp h)
  have hlt : diff.toNat < 2 ^ 64 := diff.toNat_lt
  have hdvd : 2 ^ (8 * t) ∣ diff.toNat :=
    Dvd.dvd.trans (Nat.pow_dvd_pow 2 (by omega)) (pow_trailingZeros_dvd 64 diff.toNat)
  have hle : t ≤ 7 := by
    have h1 : 2 ^ (8 * t) < 2 ^ 64 := (Nat.le_of_dvd (pos_of_ne_zero hn0) hdvd).trans_lt hlt
    have h2 := (Nat.pow_lt_pow_iff_right (by decide)).mp h1
    omega
  have hsf : storedFlag (8 + (7 - t)) = 8 + (7 - t) := by rw [storedFlag, if_neg (by omega)]
  have hm : (8 + (7 - t)) % 8 + 1 = 8 - t := by omega
  have hd : (8 + (7 - t)) / 8 = 1 := by omega
  have hsh : flagShift (8 + (7 - t)) = 8 * t := by
    rw [flagShift, hd]
    omega
  refine ⟨⟨by rw [hsf]; omega, ?_, ?_⟩, hle⟩
  · rw [hsf, hsh, Nat.div_mul_cancel hdvd]
  · rw [hsf, hsh, hm, Nat.div_lt_iff_lt_mul (Nat.two_pow_pos _)]
    have hp : 256 ^ (8 - t) * 2 ^ (8 * t) = 2 ^ 64 := by
      have h256 : 256 ^ (8 - t) = 2 ^ (8 * (8 - t)) := by rw [Nat.pow_mul]
      rw [h256, ← Nat.pow_add]
      congr 1
      omega
    rw [hp]
    exact hlt

theorem fcmEncode_spec (p : DfcmPredictor) (bits : UInt64) :
    ∃ flag, fcmEncode p bits = (bits ^^^ p.predictNext, flag, p.update bits) ∧
      Coded (bits ^^^ p.predictNext) flag := by
  unfold fcmEncode
  simp only
  by_cases h0 : bits ^^^ p.predictNext = 0
  · rw [h0]
    exact ⟨_, rfl, coded_zero⟩
  · rw [if_neg h0]
    split
    · rename_i hlt
      obtain ⟨hc, hle⟩ := coded_trailing h0 ((zero_le).trans_lt hlt) rfl
      generalize trailingZeros 64 (bits ^^^ p.predictNext).toNat / 8 = t at *
      refine ⟨_, rfl, ?_⟩
      rw [if_pos (by omega), show (8 - t - 1) % 8 = 7 - t by omega]
      exact hc
    · obtain ⟨hc, hle⟩ := coded_leading h0 rfl
      generalize clzll (bits ^^^ p.predictNext).toNat / 8 = l at *
      refine ⟨_, rfl, ?_⟩
      rw [if_pos (by omega), show (8 - l - 1) % 8 = 7 - l by omega]
      exact hc

theorem decodeValue_encDiff {flag : Nat} (hc : Coded diff flag) :
    decodeValue { s with rest := encDiff diff (storedFlag flag) ++ rest } (storedFlag flag) =
      some (diff, { s with rest := rest }) := by
  obtain ⟨-, hmul, hlt⟩ := hc
  have hacc := accBytes_leBytes hlt rest 0 0 (by decide) (by omega)
  have hdiff : .ofNat diff.toNat = diff := by simp
  simp only [decodeValue, encDiff, hacc, map_some, Nat.pow_zero, one_mul,
    zero_add, ← flagShift.eq_1, hmul, hdiff]

def fcmNextN : Nat → FcmStreamReader → IOVecVByteStreamReader →
    Option (List UInt64 × FcmStreamReader × IOVecVByteStreamReader)
  | 0, r, s => some ([], r, s)
  | n + 1, r, s =>
    (r.next s).bind fun (v, r, s) => (fcmNextN n r s).map fun (vs, r, s) => (v :: vs, r, s)

theorem fcmNextN_succ {r2 : FcmStreamReader} {s2 : IOVecVByteStreamReader} {vs : List UInt64} :
    fcmNextN (n + 1) r s = some (v :: vs, r2, s2) ↔
      ∃ r1 s1, r.next s = some (v, r1, s1) ∧ fcmNextN n r1 s1 = some (vs, r2, s2) := by
  simp [fcmNextN, bind_eq_some_iff]

/-- Between two pairs of values, with the predictor in state `p`. -/
def FcmStreamReader.AtPair (r : FcmStreamReader) (p : DfcmPredictor) : Prop :=
  r.predictor = p ∧ r.iter % 2 = 0 ∧ r.nzeroes = 0

theorem xor_predict (p v : UInt64) : p ^^^ (v ^^^ p) = v := by
  rw [UInt64.xor_comm v p, ← UInt64.xor_assoc, UInt64.xor_self, UInt64.zero_xor]

theorem fcmNext_pair {v1 v2 : UInt64} {f1 f2 : Nat} (hc1 : Coded (v1 ^^^ p.predictNext) f1)
    (hc2 : Coded (v2 ^^^ (p.update v1).predictNext) f2) (hr : r.AtPair p)
    (hs : s.rest = .ofNat (storedFlag f1 * 16 + storedFlag f2) ::
      (encDiff (v1 ^^^ p.predictNext) (storedFlag f1) ++
      (encDiff (v2 ^^^ (p.update v1).predictNext) (storedFlag f2) ++ rest))) :
    ∃ r1 s1 r2, r.next s = some (v1, r1, s1) ∧ r1.next s1 = some (v2, r2, { s with rest := rest }) ∧
      r2.AtPair ((p.update v1).update v2) := by
  obtain ⟨hp, hiter, hz⟩ := hr
  have hf1 := hc1.1
  have hf2 := hc2.1
  have hb : (UInt8.ofNat (storedFlag f1 * 16 + storedFlag f2)).toNat =
      storedFlag f1 * 16 + storedFlag f2 := by simp; omega
  have hne : ¬ storedFlag f1 * 16 + storedFlag f2 = 255 := by omega
  have hhi : (storedFlag f1 * 16 + storedFlag f2) / 16 = storedFlag f1 := by omega
  have hlo : (storedFlag f1 * 16 + storedFlag f2) % 16 = storedFlag f2 := by omega
  have hodd : ¬ (r.iter + 1) % 2 = 0 := by omega
  have hraw := s.readRaw_byte _ _ hs
  refine ⟨⟨p.update v1, storedFlag f1 * 16 + storedFlag f2, r.iter + 1, 0⟩,
    { s with rest := encDiff (v2 ^^^ (p.update v1).predictNext) (storedFlag f2) ++ rest },
    ⟨(p.update v1).update v2, storedFlag f1 * 16 + storedFlag f2, r.iter + 1 + 1, 0⟩, ?_, ?_, ?_⟩
  · simp only [FcmStreamReader.next, nextFlag, hiter, hz, and_self, if_true, hraw,
      bind_some, hb, hne, if_false, hhi, decodeValue_encDiff hc1, map_some, hp, xor_predict]
  · simp only [FcmStreamReader.next, nextFlag, hodd, false_and, if_false, if_true,
      bind_some, hlo, decodeValue_encDiff hc2, map_some, xor_predict]
  · exact ⟨rfl, by show (r.iter + 1 + 1) % 2 = 0; omega, rfl⟩

theorem fcmNextN_encDiffs : ∀ (values : List UInt64) (p : DfcmPredictor) (r : FcmStreamReader)
    (s : IOVecVByteStreamReader) {rest : List UInt8}, values.length % 2 = 0 → r.AtPair p →
    s.rest = encDiffs (fcmEncodeAll p values).1 ++ rest →
    ∃ r', fcmNextN values.length r s = some (values, r', { s with rest := rest }) ∧
      r'.AtPair (fcmEncodeAll p values).2
  | [], p, r, s, rest, _, hr, hs => by
    have hrest : s.rest = rest := by simpa [fcmEncodeAll, encDiffs] using hs
    refine ⟨r, ?_, hr⟩
    rw [← hrest]
    rfl
  | [_], _, _, _, _, he, _, _ => by simp at he
  | v1 :: v2 :: values, p, r, s, rest, he, hr, hs => by
    obtain ⟨f1, h1, hc1⟩ := fcmEncode_spec p v1
    obtain ⟨f2, h2, hc2⟩ := fcmEncode_spec (p.update v1) v2
    simp only [fcmEncodeAll, h1, h2, encDiffs, cons_append, append_assoc] at hs ⊢
    obtain ⟨r1, s1, r2, hn1, hn2, hr2⟩ := fcmNext_pair hc1 hc2 hr hs
    obtain ⟨r', hN, hr'⟩ := fcmNextN_encDiffs values _ r2
      { s with rest := encDiffs (fcmEncodeAll ((p.update v1).update v2) values).1 ++ rest }
      (by simp at he; omega) hr2 rfl
    exact ⟨r', fcmNextN_succ.mpr ⟨r1, s1, hn1, fcmNextN_succ.mpr ⟨r2, _, hn2, hN⟩⟩, hr'⟩

theorem fcmNextN_zeros : ∀ (values : List UInt64) (r : FcmStreamReader)
    (s : IOVecVByteStreamReader), r.nzeroes = values.length →
    (fcmEncodeAll r.predictor values).1.all (fun c => c.1 == 0) →
    fcmNextN values.length r s = some (values,
      ⟨(fcmEncodeAll r.predictor values).2, r.flags, r.iter + values.length, 0⟩, s)
  | [], r, s, hz, _ => by
    cases r
    simp only [length_nil] at hz
    simp [fcmNextN, fcmEncodeAll, hz]
  | v :: values, r, s, hz, hall => by
    obtain ⟨f, h1, -⟩ := fcmEncode_spec r.predictor v
    simp only [fcmEncodeAll, h1, all_cons, Bool.and_eq_true, beq_iff_eq] at hall ⊢
    obtain ⟨h0, hrest⟩ := hall
    have hv : r.predictor.predictNext ^^^ 0 = v := by rw [← h0]; exact xor_predict _ _
    have hne : ¬ r.nzeroes = 0 := by rw [hz]; simp
    have hnext : r.next s =
        some (v, ⟨r.predictor.update v, r.flags, r.iter + 1, values.length⟩, s) := by
      simp only [FcmStreamReader.next, nextFlag, hne, and_false, if_false, bind_some, hv]
      rw [hz]
      rfl
    have hrec := fcmNextN_zeros values ⟨r.predictor.update v, r.flags, r.iter + 1, values.length⟩
      s rfl hrest
    rw [length_cons, fcmNextN_succ.mpr ⟨_, _, hnext, hrec⟩, add_assoc, add_comm 1]

theorem fcmNextN_encValues (hl : values.length = chunkSize) (hr : r.AtPair p)
    (hs : s.rest = encValues p values ++ rest) :
    ∃ r', fcmNextN values.length r s = some (values, r', { s with rest := rest }) ∧
      r'.AtPair (fcmEncodeAll p values).2 := by
  unfold encValues at hs
  simp only at hs
  split at hs
  · rename_i hz
    obtain ⟨hp, hiter, hnz⟩ := hr
    obtain ⟨v, vs, rfl⟩ := exists_cons_of_length_eq_add_one hl
    have hvs : vs.length = 15 := by simpa [chunkSize] using hl
    have hraw := s.readRaw_byte 0xFF rest hs
    obtain ⟨f, h1, -⟩ := fcmEncode_spec p v
    simp only [fcmEncodeAll, h1, all_cons, Bool.and_eq_true, beq_iff_eq] at hz ⊢
    obtain ⟨h0, hrest⟩ := hz
    have hv : p.predictNext ^^^ 0 = v := by rw [← h0]; exact xor_predict _ _
    have hnext : r.next s = some (v, ⟨p.update v, 255, r.iter + 1, 15⟩, { s with rest := rest }) := by
      simp [FcmStreamReader.next, nextFlag, hiter, hnz, hraw, hp] at hv ⊢
      simp [hv]
    have hrec := fcmNextN_zeros vs ⟨p.update v, 255, r.iter + 1, 15⟩ { s with rest := rest }
      hvs.symm hrest
    refine ⟨_, fcmNextN_succ.mpr ⟨_, _, hnext, hrec⟩, rfl, ?_, rfl⟩
    show (r.iter + 1 + vs.length) % 2 = 0
    omega
  · exact fcmNextN_encDiffs values p r s (by rw [hl]; rfl) hr hs

/-! ## Readers: chunks -/

def chunkState (st : UInt64 × DfcmPredictor) (buf : List Point) : UInt64 × DfcmPredictor :=
  ((buf.map ts).getLastD st.1, (fcmEncodeAll st.2 (buf.map value)).2)

def encChunks : UInt64 × DfcmPredictor → List (List Point) → List UInt8
  | _, [] => []
  | st, buf :: chunks => encChunk st.1 st.2 buf ++ encChunks (chunkState st buf) chunks

theorem encChunks_append (st : UInt64 × DfcmPredictor) (xs ys : List (List Point)) :
    encChunks st (xs ++ ys) = encChunks st xs ++ encChunks (xs.foldl chunkState st) ys := by
  induction xs generalizing st with
  | nil => rfl
  | cons x xs ih => simp [encChunks, ih]

namespace IOVecBlockReader

/-- The reader is between two chunks and its decoders are in the state `st`. -/
def AtChunk (r : IOVecBlockReader) (st : UInt64 × DfcmPredictor) (rest : List UInt8) : Prop :=
  r.stream.AtPair rest ∧ r.tsStream.prev = st.1 ∧ r.tsStream.counter % 16 = 0 ∧
    r.valStream.AtPair st.2 ∧ r.readIndex % chunkSize = 0

theorem readN_succ {r r' : IOVecBlockReader} {p : Point} (h : r.next = some (.ok, p, r'))
    (m : Nat) : readN (m + 1) r = (readN m r').map (fun (st, ps) => (st, p :: ps)) := by
  simp [readN, h]

/-- The points of a chunk after its first: the timestamps are in the buffer from
index `i` on. -/
theorem readN_values : ∀ (pts : List Point) (i : Nat) (r : IOVecBlockReader)
    (val : FcmStreamReader) (s : IOVecVByteStreamReader),
    (∀ j < pts.length, (r.readIndex + j) % chunkSize = i + j) → 0 < i →
    r.readIndex + pts.length ≤ r.mainSize → r.readBuffer.drop i = pts.map ts →
    fcmNextN pts.length r.valStream r.stream = some (pts.map value, val, s) → ∀ m,
    readN (pts.length + m) r = (readN m { r with
        readIndex := r.readIndex + pts.length, valStream := val, stream := s }).map
      (fun (st, ps) => (st, pts ++ ps))
  | [], i, r, val, s, _, _, _, _, h, m => by
    obtain ⟨-, rfl, rfl⟩ := h
    simp
  | p :: pts, i, r, val, s, hidx, hi, hmain, hbuf, h, m => by
    obtain ⟨val1, s1, hnext, hN⟩ := fcmNextN_succ.mp h
    let r1 : IOVecBlockReader :=
      { r with readIndex := r.readIndex + 1, valStream := val1, stream := s1 }
    have hi0 : r.readIndex % chunkSize = i := hidx 0 (by simp)
    have hlt : r.readIndex < r.mainSize := by simp only [length_cons] at hmain; omega
    have hget : r.readBuffer.getD i 0 = p.ts := by
      have h0 : (r.readBuffer.drop i)[0]? = some p.ts := by rw [hbuf]; rfl
      rw [getElem?_drop, add_zero] at h0
      rw [getD_eq_getElem?_getD, h0, getD_some]
    have hr : r.next = some (.ok, p, r1) := by
      simp only [next, hlt, hi0, hi.ne', if_false, bind_some, hnext, hget]
      rfl
    have hdrop : r.readBuffer.drop (i + 1) = pts.map ts := by rw [← drop_drop, hbuf]; rfl
    have hrec := readN_values pts (i + 1) r1 val s (fun j hj => by
        have := hidx (j + 1) (by simpa using hj)
        rw [show r.readIndex + 1 + j = r.readIndex + (j + 1) by omega]
        omega) (by omega) (by
        simp only [length_cons] at hmain
        show r.readIndex + 1 + pts.length ≤ r.mainSize
        omega) hdrop hN m
    have hsplit : (p :: pts).length + m = (pts.length + m) + 1 := by simp only [length_cons]; omega
    have hpos : r.readIndex + 1 + pts.length = r.readIndex + (p :: pts).length := by
      simp only [length_cons]; omega
    rw [hsplit, readN_succ hr, hrec, Option.map_map, ← hpos]
    rfl

theorem readN_chunk {r : IOVecBlockReader} {st : UInt64 × DfcmPredictor} {buf : List Point}
    (hb : buf.length = chunkSize) (h : r.AtChunk st (encChunk st.1 st.2 buf ++ rest))
    (hmain : r.readIndex + chunkSize ≤ r.mainSize) :
    ∃ r', (∀ m, readN (chunkSize + m) r = (readN m r').map (fun (st, ps) => (st, buf ++ ps))) ∧
      r'.AtChunk (chunkState st buf) rest ∧ r'.readIndex = r.readIndex + chunkSize ∧
      r'.nchunks = r.nchunks ∧ r'.ntail = r.ntail := by
  obtain ⟨hs, hprev, hcnt, hval, hidx⟩ := h
  have hts : (buf.map ts).length = chunkSize := by rw [length_map, hb]
  have hvs : (buf.map value).length = chunkSize := by rw [length_map, hb]
  rw [encChunk, append_assoc, ← hprev] at hs
  obtain ⟨d, s1, hread, hd, hdc, hs1⟩ := readTimestamps_encTimestamps hts hcnt hs
  obtain ⟨val, hN, hval'⟩ := fcmNextN_encValues hvs hval hs1.1
  obtain ⟨q, qs, rfl⟩ := exists_cons_of_length_eq_add_one hb
  have hqs : qs.length = 15 := by simpa [chunkSize] using hb
  rw [hvs] at hN
  have h16 : chunkSize = qs.length + 1 := by rw [hqs]; rfl
  rw [h16] at hN
  obtain ⟨val1, s2, hnext, hN'⟩ := fcmNextN_succ.mp hN
  let r1 : IOVecBlockReader := { r with
    readIndex := r.readIndex + 1, readBuffer := (q :: qs).map ts, tsStream := d,
    valStream := val1, stream := s2 }
  have hlt : r.readIndex < r.mainSize := by simp only [chunkSize] at hmain; omega
  have hr : r.next = some (.ok, q, r1) := by
    simp only [next, hlt, if_true, hidx, hread, map_some, bind_some, hnext]
    rfl
  have hrec := readN_values qs 1 r1 val { s1 with rest := rest }
    (fun j hj => by simp only [chunkSize, r1] at *; omega) (by decide)
    (by simp only [hqs, chunkSize, mainSize] at *; omega) rfl hN'
  refine ⟨{ r with
      readIndex := r.readIndex + 1 + qs.length, readBuffer := (q :: qs).map ts,
      tsStream := d, valStream := val, stream := { s1 with rest := rest } },
    fun m => ?_, ⟨⟨rfl, hs1.2.1, hs1.2.2⟩, ?_, hdc, hval', ?_⟩, ?_, rfl, rfl⟩
  · have hsum : chunkSize + m = (qs.length + m) + 1 := by rw [h16]; omega
    rw [hsum, readN_succ hr, hrec, Option.map_map]
    rfl
  · simp only [hd, chunkState, hprev]
  · simp only [chunkSize] at *; omega
  · rw [h16]; simp only; omega

end IOVecBlockReader

end FastSTDB
