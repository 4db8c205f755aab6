import FastSTDB.Volume
import FastSTDB.Lib.Cells

/-
  Volumes in bytes — the ranges of the file that blocks are written to and read from

  `Volume` keeps the file as one block per offset. Here the file is its bytes, and
  both overloads of `append_block` and all ways to read are there: a `memcpy` into
  the mapped file, a `writev` to the file, a copy out of it, and a pointer into it.
  Each computes the offset from the 32-bit index in 32 bits.

  What is proved:
    1. `mapped_refines_volume` — the volumes of `Volume` are these volumes, seen
       through the multiples of the block size, whatever becomes of the writes.
    2. `block_ranges_iff` — in every sequence of calls the block `i` is written to and
       read from the bytes [4096 i, 4096 i + 4096), if and only if the volume has
       no more than 2^20 blocks (4 GiB).
    3. `block_overwritten` — the block 2^20 of a larger volume is written over block 0.

  Correspondence (C++ ↔ Lean):
    `Volume::append_block(const u8*)`          ↔ `MappedVolume.appendBytes`
    `Volume::append_block(const IOVecBlock*)`  ↔ `MappedVolume.appendIovec`
    `Volume::read_block`                       ↔ `MappedVolume.readBlock`
    `Volume::read_block_zero_copy`             ↔ `MappedVolume.readBlockZeroCopy`
-/
namespace FastSTDB
open List Cells
open FastSTDB.IOVecBlock (componentSize ncomponents)

abbrev BlockBytes := { bytes : List UInt8 // bytes.length = faststdbBlockSize }

abbrev SplitBlock := { block : Scatter.IOVecBlock // block.Split }

theorem Scatter.IOVecBlock.Split.length_iovecs {b : Scatter.IOVecBlock} (h : b.Split) :
    b.iovecs.length = faststdbBlockSize := by
  have hsizes : b.data.map (fun comp => ((resized comp).take componentSize).length) =
      b.data.map fun _ => componentSize := by
    apply map_congr_left
    intro comp hmem
    rw [length_take, length_resized (h.2 comp hmem), Nat.min_self]
  rw [iovecs, length_flatMap, hsizes, map_const', h.1]
  rfl

/-! ## The volume -/

structure MappedVolume where
  fileSize : Nat
  writePos : Nat
  bytes : Nat → UInt8

namespace MappedVolume

def create (capacity : Nat) : MappedVolume := ⟨capacity, 0, fun _ => 0⟩

/-- The block is copied to the write position. -/
def push (v : MappedVolume) (source : List UInt8) : MappedVolume :=
  { v with
    bytes := store v.bytes (blockOffset v.writePos) source
    writePos := u32 (v.writePos + 1) }

def appendBytes (source : BlockBytes) (v : MappedVolume) : (Status × Nat) × MappedVolume :=
  if v.fileSize ≤ v.writePos then ((.overflow, 0), v)
  else ((.ok, v.writePos), v.push source.1)

/-- `append_block(const IOVecBlock*)`. A short write leaves some bytes of the block. -/
def appendIovec (io : WriteOutcome) (source : SplitBlock) (v : MappedVolume) :
    (Status × Nat) × MappedVolume :=
  if v.fileSize ≤ v.writePos then ((.overflow, 0), v)
  else
    match io with
    | .seekError => ((.fileSeekError, 0), v)
    | .writeError left =>
      ((.fileWriteError, 0),
        { v with bytes := store v.bytes (blockOffset v.writePos) (left.take faststdbBlockSize) })
    | .done => ((.ok, v.writePos), v.push source.1.iovecs)

def readBlock (v : MappedVolume) (ix : Nat) : Status × Option (List UInt8) :=
  if v.writePos ≤ ix then (.overflow, none)
  else (.ok, some (load v.bytes (blockOffset ix) faststdbBlockSize))

/-- The pointer is the distance from the start of the mapped file. -/
def readBlockZeroCopy (v : MappedVolume) (ix : Nat) : Status × Option Nat :=
  if v.writePos ≤ ix then (.overflow, none) else (.ok, some (blockOffset ix))

end MappedVolume

/-- Offsets are multiples of the block size, also when they wrap around. -/
theorem blockOffset_eq (ix : Nat) : blockOffset ix = faststdbBlockSize * (ix % 2 ^ 20) := by
  simp only [blockOffset, u32, faststdbBlockSize]
  omega

/-! ## Blocks by offset -/

/-- The volume with a block per offset that has these bytes. -/
structure MappedVolume.Shows (v : MappedVolume) (w : Volume) : Prop where
  size : w.file.size = v.fileSize
  pos : w.writePos = v.writePos
  block : ∀ j, w.file.block (faststdbBlockSize * j) =
    load v.bytes (faststdbBlockSize * j) faststdbBlockSize

variable {source : List UInt8}

namespace MappedVolume.Shows
variable {v : MappedVolume} {w : Volume}

theorem write (h : v.Shows w) (ix : Nat) (hlen : source.length ≤ faststdbBlockSize)
    {block : List UInt8}
    (hblock : load (store v.bytes (blockOffset ix) source) (blockOffset ix) faststdbBlockSize = block)
    (j : Nat) : (w.file.write (blockOffset ix) block).block (faststdbBlockSize * j) =
      load (store v.bytes (blockOffset ix) source) (faststdbBlockSize * j) faststdbBlockSize := by
  subst hblock
  rw [blockOffset_eq]
  simp only [VolumeFile.write]
  by_cases hj : j = ix % 2 ^ 20
  · subst hj
    rw [Function.update_self]
  · have hne : faststdbBlockSize * j ≠ faststdbBlockSize * (ix % 2 ^ 20) := by
      simp only [faststdbBlockSize]
      omega
    rw [Function.update_of_ne hne, h.block, load_store_disjoint]
    simp only [faststdbBlockSize] at hlen ⊢
    omega

theorem append (h : v.Shows w) (io : WriteOutcome) (source : SplitBlock) :
    ∃ io', (w.appendBlock io' source.1).1 = (v.appendIovec io source).1 ∧
      (v.appendIovec io source).2.Shows (w.appendBlock io' source.1).2 := by
  simp only [Volume.appendBlock, appendIovec, h.size, h.pos]
  split
  · exact ⟨.done, rfl, h⟩
  · cases io with
    | seekError => exact ⟨.seekError, rfl, h⟩
    | writeError left =>
      -- the block is what a short write has left of the old bytes and the new ones
      exact ⟨.writeError _, rfl, h.size, rfl, h.write _ (length_take_le _ _) rfl⟩
    | done =>
      have hlen := source.2.length_iovecs
      exact ⟨.done, rfl, h.size, rfl, h.write _ hlen.le (by rw [← hlen, load_store_self])⟩

theorem readBlock (h : v.Shows w) (ix : Nat) :
    w.readBlock ix = ((v.readBlock ix).1, (v.readBlock ix).2.map .ofBytes) := by
  rw [Volume.readBlock, MappedVolume.readBlock, h.pos]
  split
  · rfl
  · rw [blockOffset_eq, h.block]
    rfl

end MappedVolume.Shows

/-- Appends one after the other: the answers, and the volume. -/
def runAppends {ν : Type} (append : WriteOutcome → SplitBlock → ν → (Status × Nat) × ν) :
    List (WriteOutcome × SplitBlock) → ν → List (Status × Nat) × ν
  | [], v => ([], v)
  | (io, source) :: calls, v =>
    let (answers, v') := runAppends append calls (append io source v).2
    ((append io source v).1 :: answers, v')

theorem MappedVolume.Shows.run : ∀ (calls : List (WriteOutcome × SplitBlock)) {v : MappedVolume}
    {w : Volume}, v.Shows w → ∃ calls', calls'.map Prod.snd = calls.map Prod.snd ∧
      (runAppends (fun io source => Volume.appendBlock io source.1) calls' w).1 =
        (runAppends appendIovec calls v).1 ∧ (runAppends appendIovec calls v).2.Shows
        (runAppends (fun io source => Volume.appendBlock io source.1) calls' w).2
  | [], v, w, h => ⟨[], rfl, rfl, h⟩
  | (io, source) :: calls, v, w, h => by
    obtain ⟨io', hanswer, hshows⟩ := h.append io source
    obtain ⟨calls', hsources, hanswers, hshows'⟩ := run calls hshows
    exact ⟨(io', source) :: calls', congrArg (source :: ·) hsources,
      congrArg₂ cons hanswer hanswers, hshows'⟩

/-- **Bytes and blocks.** After any appends to a new file, failed writes among them, the volume
with one block per offset has given the same answers for some outcomes of the writes, and
every read of it gives the bytes that a read of the file gives. -/
theorem mapped_refines_volume (capacity : Nat) (calls : List (WriteOutcome × SplitBlock)) :
    ∃ calls', calls'.map Prod.snd = calls.map Prod.snd ∧
      let (answers, v) := runAppends MappedVolume.appendIovec calls (.create capacity)
      let (answers', w) :=
        runAppends (fun io source => Volume.appendBlock io source.1) calls' ⟨.create capacity, 0⟩
      answers' = answers ∧
        ∀ ix, w.readBlock ix = ((v.readBlock ix).1, (v.readBlock ix).2.map .ofBytes) := by
  have hnew : (MappedVolume.create capacity).Shows ⟨.create capacity, 0⟩ := by
    refine ⟨rfl, rfl, fun j => ?_⟩
    simp [VolumeFile.create, MappedVolume.create, load]
  obtain ⟨calls', hsources, hanswers, hshows⟩ := hnew.run calls
  exact ⟨calls', hsources, hanswers, hshows.readBlock⟩

/-! ## Calls -/

inductive VolumeOp where
  | appendBytes (source : BlockBytes)
  | appendIovec (io : WriteOutcome) (source : SplitBlock)
  | readBlock (ix : Nat)
  | readBlockZeroCopy (ix : Nat)

def VolumeOp.step : VolumeOp → MappedVolume → MappedVolume
  | .appendBytes source, v => (v.appendBytes source).2
  | .appendIovec io source, v => (v.appendIovec io source).2
  | .readBlock _, v => v
  | .readBlockZeroCopy _, v => v

def runVolume (ops : List VolumeOp) (v : MappedVolume) : MappedVolume :=
  ops.foldl (fun v op => op.step v) v

/-- Where the block `ix` belongs. -/
def InBlock (ix k : Nat) : Prop :=
  faststdbBlockSize * ix ≤ k ∧ k < faststdbBlockSize * ix + faststdbBlockSize

/-- An append that succeeds has put the block where it belongs; no append changes
anything else. -/
def MappedVolume.AppendsInPlace (v : MappedVolume) (source : List UInt8)
    (answer : (Status × Nat) × MappedVolume) : Prop :=
  (answer.1.1 = .ok → answer.1.2 = v.writePos ∧ v.writePos < v.fileSize ∧
    load answer.2.bytes (faststdbBlockSize * v.writePos) faststdbBlockSize = source) ∧
  ∀ k, ¬ InBlock v.writePos k → answer.2.bytes k = v.bytes k

def VolumeOp.InPlace : VolumeOp → MappedVolume → Prop
  | .appendBytes source, v => v.AppendsInPlace source.1 (v.appendBytes source)
  | .appendIovec io source, v => v.AppendsInPlace source.1.iovecs (v.appendIovec io source)
  | .readBlock ix, v => (v.readBlock ix).1 = .ok →
      (v.readBlock ix).2 = some (load v.bytes (faststdbBlockSize * ix) faststdbBlockSize)
  | .readBlockZeroCopy ix, v => (v.readBlockZeroCopy ix).1 = .ok →
      (v.readBlockZeroCopy ix).2 = some (faststdbBlockSize * ix)

/-- A volume of this many blocks, opened at one of them or at the end. -/
structure MappedVolume.Opened (capacity : Nat) (v : MappedVolume) : Prop where
  size : v.fileSize = capacity
  pos : v.writePos ≤ capacity

section Places
variable {capacity : Nat} {v : MappedVolume}

theorem MappedVolume.Opened.push (h : v.Opened capacity) (hfit : capacity < 2 ^ 32)
    (hroom : ¬ v.fileSize ≤ v.writePos) (source : List UInt8) : (v.push source).Opened capacity := by
  refine ⟨h.size, ?_⟩
  have hlt : v.writePos + 1 ≤ capacity := by
    rw [← h.size]
    exact not_le.mp hroom
  have hpos : (v.push source).writePos = v.writePos + 1 := u32_eq (hlt.trans_lt hfit)
  rw [hpos]
  exact hlt

theorem MappedVolume.Opened.step (h : v.Opened capacity) (hfit : capacity < 2 ^ 32)
    (op : VolumeOp) : (op.step v).Opened capacity := by
  cases op with
  | appendBytes source =>
    simp only [VolumeOp.step, MappedVolume.appendBytes]
    split
    · exact h
    · next hroom => exact h.push hfit hroom _
  | appendIovec io source =>
    simp only [VolumeOp.step, MappedVolume.appendIovec]
    split
    · exact h
    · next hroom =>
      cases io with
      | done => exact h.push hfit hroom _
      | seekError => exact h
      | writeError left => exact ⟨h.size, h.pos⟩
  | readBlock ix => exact h
  | readBlockZeroCopy ix => exact h

theorem MappedVolume.Opened.run (hfit : capacity < 2 ^ 32) (ops : List VolumeOp) :
    ∀ {v : MappedVolume}, v.Opened capacity → (runVolume ops v).Opened capacity := by
  induction ops with
  | nil => exact fun h => h
  | cons op ops ih => exact fun h => ih (h.step hfit op)

theorem blockOffset_small {ix : Nat} (h : ix < 2 ^ 20) : blockOffset ix = faststdbBlockSize * ix := by
  rw [blockOffset_eq, Nat.mod_eq_of_lt h]

theorem store_inBlock {ix k : Nat} (mem : Nat → UInt8) (h : ix < 2 ^ 20)
    (hlen : source.length ≤ faststdbBlockSize) (hk : ¬ InBlock ix k) :
    store mem (blockOffset ix) source k = mem k := by
  apply store_outside
  rw [blockOffset_small h]
  simp only [InBlock] at hk hlen ⊢
  omega

theorem MappedVolume.appendsInPlace_push (hroom : ¬ v.fileSize ≤ v.writePos)
    (hsmall : v.fileSize ≤ 2 ^ 20) (hlen : source.length = faststdbBlockSize) :
    v.AppendsInPlace source ((.ok, v.writePos), v.push source) := by
  have hlt : v.writePos < 2 ^ 20 := (not_le.mp hroom).trans_le hsmall
  refine ⟨fun _ => ⟨rfl, not_le.mp hroom, ?_⟩, ?_⟩
  · rw [MappedVolume.push, blockOffset_small hlt, ← hlen, load_store_self]
  · intro k hk
    exact store_inBlock v.bytes hlt hlen.le hk

theorem MappedVolume.appendsInPlace_failed {status : Status} (hne : status ≠ .ok)
    (ix : Nat) : v.AppendsInPlace source ((status, ix), v) :=
  ⟨fun h => absurd h hne, fun _ _ => rfl⟩

theorem MappedVolume.Opened.inPlace (h : v.Opened capacity) (hsmall : capacity ≤ 2 ^ 20)
    (op : VolumeOp) : op.InPlace v := by
  have hsize : v.fileSize ≤ 2 ^ 20 := (le_of_eq h.size).trans hsmall
  have hread : ∀ ix, ¬ v.writePos ≤ ix → ix < 2 ^ 20 := fun ix hix =>
    (not_le.mp hix).trans_le (h.pos.trans hsmall)
  cases op with
  | appendBytes source =>
    simp only [VolumeOp.InPlace, MappedVolume.appendBytes]
    split
    · exact MappedVolume.appendsInPlace_failed (by decide) _
    · next hroom => exact MappedVolume.appendsInPlace_push hroom hsize source.2
  | appendIovec io source =>
    simp only [VolumeOp.InPlace, MappedVolume.appendIovec]
    split
    · exact MappedVolume.appendsInPlace_failed (by decide) _
    · next hroom =>
      cases io with
      | done => exact MappedVolume.appendsInPlace_push hroom hsize source.2.length_iovecs
      | seekError => exact MappedVolume.appendsInPlace_failed (by decide) _
      | writeError left =>
        refine ⟨fun hok => (by cases hok), fun k hk => ?_⟩
        exact store_inBlock v.bytes ((not_le.mp hroom).trans_le hsize) (length_take_le _ _) hk
  | readBlock ix =>
    simp only [VolumeOp.InPlace, MappedVolume.readBlock]
    split
    · exact fun hok => absurd hok (by decide)
    · next hix => rw [blockOffset_small (hread ix hix)]; exact fun _ => rfl
  | readBlockZeroCopy ix =>
    simp only [VolumeOp.InPlace, MappedVolume.readBlockZeroCopy]
    split
    · exact fun hok => absurd hok (by decide)
    · next hix => rw [blockOffset_small (hread ix hix)]; exact fun _ => rfl

end Places

/-! ## More than 2^20 blocks -/

def zeroBytes : BlockBytes := ⟨replicate faststdbBlockSize 0, length_replicate⟩

def oneBytes : BlockBytes := ⟨replicate faststdbBlockSize 1, length_replicate⟩

theorem MappedVolume.push_wraps {v : MappedVolume} (h : v.writePos = 2 ^ 20) (source : BlockBytes) :
    load (v.push source.1).bytes 0 faststdbBlockSize = source.1 := by
  have hoffset : blockOffset v.writePos = 0 := by
    rw [h]
    rfl
  rw [MappedVolume.push, hoffset]
  simp [← source.2]

theorem runVolume_zeroBytes {capacity : Nat} (hfit : capacity < 2 ^ 32) : ∀ n, n ≤ capacity →
    runVolume (replicate n (.appendBytes zeroBytes)) (.create capacity) =
      ⟨capacity, n, fun _ => 0⟩ := by
  intro n
  induction n with
  | zero => exact fun _ => rfl
  | succ n ih =>
    intro hle
    have hroom : ¬ capacity ≤ n := not_le.mpr hle
    have hzero : store (fun _ => 0) (blockOffset n) zeroBytes.1 = fun _ => 0 := by
      funext k
      simp only [store, zeroBytes, getElem?_replicate]
      split <;> [split <;> rfl; rfl]
    rw [replicate_succ', runVolume, foldl_append]
    have hrun := ih (Nat.le_of_succ_le hle)
    rw [runVolume] at hrun
    rw [hrun]
    simp [VolumeOp.step, MappedVolume.appendBytes, if_neg hroom, MappedVolume.push, hzero,
      u32_eq (hle.trans_lt hfit)]

/-- **Blocks and their bytes.** In a volume of fewer than 2^32 blocks every call reads
or writes the bytes that belong to its block, whatever was called before, if and only
if there are no more than 2^20 blocks. -/
theorem block_ranges_iff {capacity : Nat} (hfit : capacity < 2 ^ 32) :
    (∀ v : MappedVolume, v.Opened capacity → ∀ ops (op : VolumeOp), op.InPlace (runVolume ops v)) ↔
      capacity ≤ 2 ^ 20 := by
  constructor
  · intro hall
    by_contra hlarge
    have hlt : 2 ^ 20 < capacity := not_le.mp hlarge
    -- fill the first 2^20 blocks with zeros, then write one of ones
    have hnew : (MappedVolume.create capacity).Opened capacity := ⟨rfl, zero_le⟩
    have hplace := hall _ hnew (replicate (2 ^ 20) (.appendBytes zeroBytes)) (.appendBytes oneBytes)
    rw [runVolume_zeroBytes hfit _ hlt.le] at hplace
    simp only [VolumeOp.InPlace, MappedVolume.appendBytes, if_neg (not_le.mpr hlt)] at hplace
    have hkept : _ = (0 : UInt8) := hplace.2 0 (by simp only [InBlock]; omega)
    dsimp only at hkept
    have hwritten := MappedVolume.push_wraps (v := ⟨capacity, 2 ^ 20, fun _ => 0⟩) rfl oneBytes
    have hfirst := congrArg (·[0]?) hwritten
    simp only [getElem?_load (show 0 < faststdbBlockSize by decide), hkept] at hfirst
    exact absurd hfirst (by decide)
  · intro hsmall v hopened ops op
    exact (hopened.run hfit ops).inPlace hsmall op

/-- A volume of two blocks, of which the first was written. -/
theorem block_ranges_two :
    (VolumeOp.readBlock 0).InPlace (runVolume [.appendBytes oneBytes] (.create 2)) ∧
      (VolumeOp.appendBytes zeroBytes).InPlace (runVolume [.appendBytes oneBytes] (.create 2)) :=
  ⟨(block_ranges_iff (by decide)).mpr (by decide) _ ⟨rfl, zero_le⟩ _ _,
    (block_ranges_iff (by decide)).mpr (by decide) _ ⟨rfl, zero_le⟩ _ _⟩

/-- A volume of 2^20 + 1 blocks is filled. Up to the last append block 0 reads as it
was written; the last append returns the index 2^20, and block 0 is what it wrote. -/
theorem block_overwritten : ∃ v : MappedVolume,
    runVolume (replicate (2 ^ 20) (.appendBytes zeroBytes)) (.create (2 ^ 20 + 1)) = v ∧
      v.readBlock 0 = (.ok, some zeroBytes.1) ∧ (v.appendBytes oneBytes).1 = (.ok, 2 ^ 20) ∧
      (v.appendBytes oneBytes).2.readBlock 0 = (.ok, some oneBytes.1) := by
  refine ⟨_, runVolume_zeroBytes (by decide) _ (Nat.le_succ _), ?_, ?_, ?_⟩
  · have hload : load (fun _ => 0) (blockOffset 0) faststdbBlockSize = zeroBytes.1 := by
      simp [load, zeroBytes]
    rw [MappedVolume.readBlock, if_neg (by decide), hload]
  · rw [MappedVolume.appendBytes, if_neg (by decide)]
  · have hpos : ¬ (MappedVolume.push ⟨2 ^ 20 + 1, 2 ^ 20, fun _ => 0⟩ oneBytes.1).writePos ≤ 0 := by
      decide
    have hzero : blockOffset 0 = 0 := rfl
    rw [MappedVolume.appendBytes, if_neg (by decide), MappedVolume.readBlock, if_neg hpos, hzero,
      MappedVolume.push_wraps rfl]

end FastSTDB
