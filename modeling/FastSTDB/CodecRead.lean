import FastSTDB.Lib.Simulation
import FastSTDB.CodecSim

/-
  Block codec over bytes — a reader reads what the model of `FastSTDB.Compression` reads

  A reader of the model has the bytes that are left; a reader over a block has a
  position. `ReadsAs` relates the two. Whenever the model reads something, the codec
  over any lawful block reads the same (`Simulation.Refines`), up to whole calls of
  `next` of the block readers (`next_refines`).
-/
namespace FastSTDB.Codec
open List Option Bytes Simulation VByteStreamReader BlockRW BlockT

variable {B : Type} [BlockRW B] [Memory B] {Valid : B → Prop} [LawfulBlock Valid] {blk : B}

/-! ## Stream readers -/

/-- The reader stands in the block where the model stands. -/
structure ReadsAs (blk : B) (r : VByteStreamReader B) (s : IOVecVByteStreamReader) : Prop where
  block : r.block = blk
  pos : r.pos ≤ size blk
  rest : (bytes blk).drop r.pos = s.rest
  cnt : r.cnt = s.cnt
  ctrl : r.ctrl = s.ctrl
  scut : r.scutElements = s.scutElements

def Read {α : Type} (blk : B) (x : α × VByteStreamReader B) (y : α × IOVecVByteStreamReader) :
    Prop :=
  x.1 = y.1 ∧ ReadsAs blk x.2 y.2

def Decoded {α δ : Type} (blk : B) (x : α × δ × VByteStreamReader B)
    (y : α × δ × IOVecVByteStreamReader) : Prop :=
  x.1 = y.1 ∧ x.2.1 = y.2.1 ∧ ReadsAs blk x.2.2 y.2.2

section Stream
variable {r : VByteStreamReader B} {s : IOVecVByteStreamReader}

section
variable (hv : Valid blk)
include hv

theorem ReadsAs.spaceLeft (h : ReadsAs blk r s) : r.spaceLeft = s.rest.length := by
  rw [VByteStreamReader.spaceLeft, h.block, ← h.rest, length_drop, length_bytes hv]

theorem get_cons {pos : Nat} {byte : UInt8} {rest : List UInt8}
    (h : (bytes blk).drop pos = byte :: rest) :
    get blk pos = some byte ∧ pos < size blk ∧ (bytes blk).drop (pos + 1) = rest := by
  have hlt : pos < size blk := by
    rw [← length_bytes hv]
    by_contra hge
    rw [drop_eq_nil_of_le (not_lt.mp hge)] at h
    cases h
  refine ⟨?_, hlt, ?_⟩
  · rw [get_eq hv hlt, ← add_zero pos, ← getElem?_drop, h]
    rfl
  · rw [← drop_drop, h]
    rfl

theorem getBytes_eq {xs rest : List UInt8} {pos : Nat} (h : (bytes blk).drop pos = xs ++ rest) :
    getBytes blk pos xs.length = some xs := by
  induction xs generalizing rest pos with
  | nil => rfl
  | cons x xs ih =>
    obtain ⟨hget, -, hdrop⟩ := get_cons hv h
    rw [length_cons, getBytes, hget, ih hdrop]
    rfl

theorem readRaw_refines (h : ReadsAs blk r s) (w : Nat) :
    Refines (Read blk) (r.readRaw w) (s.readRaw w) := by
  rw [readRaw, h.spaceLeft hv]
  refine .ite (fun _ => .none) ?_
  intro hlen
  have hsplit : (bytes blk).drop r.pos = s.rest.take w ++ s.rest.drop w := by
    rw [h.rest, take_append_drop]
  have htake : (s.rest.take w).length = w := length_take_of_le (not_lt.mp hlen)
  have hbytes := getBytes_eq hv hsplit
  rw [htake] at hbytes
  have hpos : r.pos + w ≤ size blk := by
    have hl := congrArg length h.rest
    have hp := h.pos
    rw [length_drop, length_bytes hv] at hl
    omega
  rw [h.block, hbytes]
  refine .some ⟨rfl, rfl, hpos, ?_, h.cnt, h.ctrl, h.scut⟩
  rw [← drop_drop, h.rest]

theorem accBytes_eq (n i acc : Nat) {pos v : Nat} {rest rest' : List UInt8}
    (hdrop : (bytes blk).drop pos = rest) (hpos : pos ≤ size blk)
    (hm : IOVecVByteStreamReader.accBytes n i acc rest = some (v, rest')) :
    accBytes blk n i acc pos = some v ∧ n ≤ rest.length ∧
    (bytes blk).drop (pos + n) = rest' ∧ pos + n ≤ size blk := by
  induction n generalizing i acc pos v rest rest' with
  | zero =>
    cases hm
    exact ⟨rfl, zero_le, hdrop, hpos⟩
  | succ n ih =>
    cases rest with
    | nil => cases hm
    | cons byte rest =>
      obtain ⟨hget, hlt, hnext⟩ := get_cons hv hdrop
      obtain ⟨hacc, hlen, hend, hsize⟩ := ih _ _ hnext hlt hm
      refine ⟨?_, Nat.succ_le_succ hlen, ?_, ?_⟩
      · rw [accBytes, hget]
        exact hacc
      · rw [← hend]
        congr 1
        omega
      · omega

theorem nextBytes_refines (h : ReadsAs blk r s) (bytelen : Nat) :
    Refines (Read blk) (r.nextBytes bytelen) (s.nextBytes bytelen) := by
  intro y hy
  obtain ⟨⟨acc, rest⟩, hm, rfl⟩ := map_eq_some_iff.mp hy
  obtain ⟨hacc, hlen, hend, hsize⟩ := accBytes_eq hv bytelen 0 0 h.rest h.pos hm
  rw [nextBytes, h.spaceLeft hv, if_neg (not_lt.mpr hlen), h.block, hacc]
  exact ⟨_, rfl, rfl, rfl, hsize, hend, h.cnt, h.ctrl, h.scut⟩

theorem next_refines_word (h : ReadsAs blk r s) : Refines (Read blk) r.next s.next := by
  rw [VByteStreamReader.next, h.ctrl, h.scut, h.cnt]
  refine .ite ?_ fun _ => .ite ?_ ?_
  · intro _
    exact .some ⟨rfl, h.block, h.pos, h.rest, rfl, rfl, rfl⟩
  · intro _
    refine (readRaw_refines hv h 1).bind ?_
    rintro ⟨ctrl, r1⟩ ⟨ctrl', s1⟩ ⟨hctrl, h1⟩
    cases hctrl
    refine .ite ?_ ?_
    · intro _
      exact .some ⟨rfl, h1.block, h1.pos, h1.rest, congrArg (· + 1) h1.cnt, rfl, rfl⟩
    · intro _
      refine nextBytes_refines hv ?_ _
      exact ⟨h1.block, h1.pos, h1.rest, congrArg (· + 1) h1.cnt, rfl, h1.scut⟩
  · intro _
    refine nextBytes_refines hv ?_ _
    exact ⟨h.block, h.pos, h.rest, rfl, rfl, rfl⟩

theorem getBase128_eq (rest : List UInt8) (acc cnt : Nat) {pos v : Nat} {rest' : List UInt8}
    (hdrop : (bytes blk).drop pos = rest)
    (hm : IOVecVByteStreamReader.getBase128 acc cnt rest = some (v, rest')) :
    ∃ pos', getBase128 blk rest.length acc cnt pos = some (v, pos') ∧
    (bytes blk).drop pos' = rest' ∧ pos' ≤ size blk := by
  induction rest generalizing acc cnt pos v rest' with
  | nil => cases hm
  | cons byte rest ih =>
    obtain ⟨hget, hlt, hnext⟩ := get_cons hv hdrop
    rw [IOVecVByteStreamReader.getBase128] at hm
    rw [length_cons, getBase128, hget, bind_some]
    split at hm
    next hlast =>
      cases hm
      rw [if_pos hlast]
      exact ⟨pos + 1, rfl, hnext, hlt⟩
    next hlast =>
      rw [if_neg hlast]
      exact ih _ _ hnext hm

theorem nextBase128_refines (h : ReadsAs blk r s) :
    Refines (Read blk) r.nextBase128 s.nextBase128 := by
  intro y hy
  obtain ⟨⟨acc, rest⟩, hm, rfl⟩ := map_eq_some_iff.mp hy
  obtain ⟨pos, hget, hdrop, hpos⟩ := getBase128_eq hv s.rest 0 0 h.rest hm
  rw [nextBase128, h.spaceLeft hv, h.block, hget]
  exact ⟨_, rfl, rfl, rfl, hpos, hdrop, h.cnt, h.ctrl, h.scut⟩

/-! ## Decoders -/

theorem deltaDeltaNext_refines (h : ReadsAs blk r s) (d : DeltaDeltaStreamReader) :
    Refines (Decoded blk) (deltaDeltaNext d r) (d.next s) := by
  refine Refines.bind
    (.ite (fun _ => nextBase128_refines hv h) fun _ => .some ⟨rfl, h⟩) ?_
  rintro ⟨min, r1⟩ ⟨min', s1⟩ ⟨hmin, h1⟩
  cases hmin
  refine (next_refines_word hv h1).bind ?_
  rintro ⟨delta, r2⟩ ⟨delta', s2⟩ ⟨hdelta, h2⟩
  cases hdelta
  exact .some ⟨rfl, rfl, h2⟩

theorem decodeBytes_refines (n i acc : Nat) (h : ReadsAs blk r s) :
    Refines (Read blk) (decodeBytes n i acc r)
    ((IOVecVByteStreamReader.accBytes n i acc s.rest).map fun (diff, rest) =>
      (diff, { s with rest })) := by
  induction n generalizing i acc r s with
  | zero => exact .some ⟨rfl, h⟩
  | succ n ih =>
    cases hrest : s.rest with
    | nil => exact .none
    | cons byte rest =>
      rw [decodeBytes]
      -- the next byte is there
      obtain ⟨⟨delta, r1⟩, hr1, hdelta, h1⟩ :=
        readRaw_refines hv h 1 _ (s.readRaw_byte byte rest hrest)
      cases hdelta
      rw [hr1]
      exact ih _ _ h1

theorem decodeValue_refines (h : ReadsAs blk r s) (flag : Nat) :
    Refines (Read blk) (decodeValue r flag) (FastSTDB.decodeValue s flag) := by
  have hbytes := decodeBytes_refines hv (flag % 8 + 1) 0 0 h
  have hshift := hbytes.map (Q := Read blk)
    (f := fun p => (UInt64.ofNat (p.1 * 2 ^ ((64 - (flag % 8 + 1) * 8) * (flag / 8))), p.2))
    (g := fun p => (UInt64.ofNat (p.1 * 2 ^ ((64 - (flag % 8 + 1) * 8) * (flag / 8))), p.2))
    (by rintro ⟨diff, r1⟩ ⟨diff', s1⟩ ⟨hdiff, h1⟩; cases hdiff; exact ⟨rfl, h1⟩)
  rw [Option.map_map] at hshift
  exact hshift

theorem fcmNextFlag_refines (h : ReadsAs blk r s) (f : FcmStreamReader) :
    Refines (Decoded blk) (fcmNextFlag f r) (f.nextFlag s) := by
  refine .ite ?_ fun _ => .some ⟨rfl, rfl, h⟩
  intro _
  refine (readRaw_refines hv h 1).bind ?_
  rintro ⟨flags, r1⟩ ⟨flags', s1⟩ ⟨hflags, h1⟩
  cases hflags
  exact .some ⟨rfl, rfl, h1⟩

theorem fcmNext_refines (h : ReadsAs blk r s) (f : FcmStreamReader) :
    Refines (Decoded blk) (fcmNext f r) (f.next s) := by
  refine (fcmNextFlag_refines hv h f).bind ?_
  rintro ⟨flag, f1, r1⟩ ⟨flag', f1', s1⟩ ⟨hflag, hf1, h1⟩
  cases hflag
  cases hf1
  refine Refines.bind (R := Decoded blk) (.ite ?_ fun _ => .some ⟨rfl, rfl, h1⟩) ?_
  · intro _
    refine (decodeValue_refines hv h1 flag).map ?_
    rintro ⟨diff, r2⟩ ⟨diff', s2⟩ ⟨hdiff, h2⟩
    exact ⟨hdiff, rfl, h2⟩
  · rintro ⟨diff, nzeroes, r2⟩ ⟨diff', nzeroes', s2⟩ ⟨hdiff, hnz, h2⟩
    cases hdiff
    cases hnz
    exact .some ⟨rfl, rfl, h2⟩

theorem readTimestamps_refines (n : Nat) (d : DeltaDeltaStreamReader) (h : ReadsAs blk r s) :
    Refines (Decoded blk) (BlockReader.readTimestamps n d r)
    (IOVecBlockReader.readTimestamps n d s) := by
  induction n generalizing d r s with
  | zero => exact .some ⟨rfl, rfl, h⟩
  | succ n ih =>
    refine (deltaDeltaNext_refines hv h d).bind ?_
    rintro ⟨ts, d1, r1⟩ ⟨ts', d1', s1⟩ ⟨hts, hd1, h1⟩
    cases hts
    cases hd1
    refine (ih d1 h1).map ?_
    rintro ⟨tss, d2, r2⟩ ⟨tss', d2', s2⟩ ⟨htss, hd2, h2⟩
    exact ⟨congrArg (ts :: ·) htss, hd2, h2⟩

end

end Stream

/-! ## Block readers -/

/-- The reader is in the state of the model, and the counters of the model are in the header. -/
structure Mirrored (blk : B) (r : BlockReader B) (m : IOVecBlockReader) : Prop where
  stream : ReadsAs blk r.stream m.stream
  tsStream : r.tsStream = m.tsStream
  valStream : r.valStream = m.valStream
  readBuffer : r.readBuffer = m.readBuffer
  readIndex : r.readIndex = m.readIndex
  nchunks : load16 blk 2 = m.nchunks
  ntail : load16 blk 4 = m.ntail

section Block
variable {r : BlockReader B} {m : IOVecBlockReader}

theorem Mirrored.mainSize (h : Mirrored blk r m) : r.mainSize = m.mainSize := by
  rw [BlockReader.mainSize, h.stream.block, h.nchunks]
  rfl

theorem Mirrored.nelements (h : Mirrored blk r m) : r.nelements = m.nelements := by
  rw [BlockReader.nelements, h.stream.block, h.nchunks, h.ntail]
  rfl

def Answered (blk : B) (x : Status × Point × BlockReader B) (y : Status × Point × IOVecBlockReader) :
    Prop :=
  x.1 = y.1 ∧ x.2.1 = y.2.1 ∧ Mirrored blk x.2.2 y.2.2

theorem chunk_refines (hv : Valid blk) (h : Mirrored blk r m) (chunkIndex : Nat) :
    Refines (Mirrored blk) (if chunkIndex = 0 then
        (BlockReader.readTimestamps chunkSize r.tsStream r.stream).map
          fun (tss, tsStream, stream) => { r with readBuffer := tss, tsStream, stream }
        else some r)
      (if chunkIndex = 0 then
        (IOVecBlockReader.readTimestamps chunkSize m.tsStream m.stream).map
          fun (tss, tsStream, stream) => { m with readBuffer := tss, tsStream, stream }
        else some m) := by
  refine .ite ?_ fun _ => .some h
  intro _
  rw [h.tsStream]
  refine (readTimestamps_refines hv chunkSize m.tsStream h.stream).map ?_
  rintro ⟨tss, d, r1⟩ ⟨tss', d', s1⟩ ⟨htss, hd, h1⟩
  exact ⟨h1, hd, h.valStream, htss, h.readIndex, h.nchunks, h.ntail⟩

theorem next_refines (hv : Valid blk) (h : Mirrored blk r m) :
    Refines (Answered blk) r.next m.next := by
  rw [BlockReader.next, h.readIndex, h.mainSize, h.nelements]
  refine .ite ?_ fun _ => .ite ?_ ?_
  · intro _
    have hnext : Mirrored blk { r with readIndex := m.readIndex + 1 }
        { m with readIndex := m.readIndex + 1 } :=
      ⟨h.stream, h.tsStream, h.valStream, h.readBuffer, rfl, h.nchunks, h.ntail⟩
    refine (chunk_refines hv hnext _).bind ?_
    intro r1 m1 h1
    rw [h1.valStream, h1.readBuffer]
    refine (fcmNext_refines hv h1.stream m1.valStream).bind ?_
    rintro ⟨value, f, s1⟩ ⟨value', f', s1'⟩ ⟨hvalue, hf, h2⟩
    cases hvalue
    exact .some ⟨rfl, rfl, h2, h1.tsStream, hf, rfl, h1.readIndex, h1.nchunks, h1.ntail⟩
  · intro _
    refine (readRaw_refines hv h.stream 8).bind ?_
    rintro ⟨ts, r1⟩ ⟨ts', s1⟩ ⟨hts, h1⟩
    cases hts
    refine (readRaw_refines hv h1 8).bind ?_
    rintro ⟨value, r2⟩ ⟨value', s2⟩ ⟨hvalue, h2⟩
    cases hvalue
    exact .some ⟨rfl, rfl, h2, h.tsStream, h.valStream, h.readBuffer, rfl, h.nchunks, h.ntail⟩
  · intro _
    exact .some ⟨rfl, rfl, h⟩

end Block
end FastSTDB.Codec
