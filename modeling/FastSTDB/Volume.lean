import FastSTDB.CodecBlocks
import Mathlib.Logic.Function.Basic

/-
  Volumes — files of blocks, and the descriptors that record how far they are filled

  A volume is a file of `file_size_` blocks of 4096 bytes that is written from the
  front. `write_pos_` is the next block; `reset` puts it back to the front and leaves
  the contents alone. The place of a block in the file is computed in 32 bits, for
  writing and for reading.

  The file is modelled by the block at each offset: offsets are multiples of the
  block size, so two writes hit the same bytes or have none in common. What the
  operating system answers to a write is an argument.

  `MetaVolume` has one descriptor for each volume and hands every change to the
  registry, from which the next session reads the descriptors. Paths and versions are
  left out: a volume is found by its id.

  Correspondence (C++ ↔ Lean):
    `Volume::open_existing`, `reset`                 ↔ `Volume.openExisting`, `Volume.reset`
    `Volume::append_block`, `read_block`             ↔ `Volume.appendBlock`, `Volume.readBlock`
    `MetaVolume::get_*`, `set_*`, `add_volume`       ↔ `MetaVolume.get*`, `set*`, `addVolume`
    `MetaVolumeStore::update_volume`, `add_volume`   ↔ the `registry` field
-/
namespace FastSTDB
open List
open FastSTDB.IOVecBlock (componentSize ncomponents)

/-- The value of an unsigned 32-bit integer. -/
def u32 (n : Nat) : Nat := n % 2 ^ 32

theorem u32_eq {n : Nat} (h : n < 2 ^ 32) : u32 n = n := Nat.mod_eq_of_lt h

/-! ## Files -/

/-- A file: its size in blocks, and the block at each offset. -/
structure VolumeFile where
  size : Nat
  block : Nat → List UInt8

/-- `Volume::create_new`; a file without blocks cannot be mapped and is not created. -/
def VolumeFile.create (capacity : Nat) : VolumeFile :=
  ⟨capacity, fun _ => replicate faststdbBlockSize 0⟩

def VolumeFile.write (file : VolumeFile) (offset : Nat) (bytes : List UInt8) : VolumeFile :=
  { file with block := Function.update file.block offset bytes }

/-- What `lseek` and `writev` do: a write that fails may have changed the block. -/
inductive WriteOutcome where
  | done
  | seekError
  | writeError (left : List UInt8)
  deriving DecidableEq

namespace Scatter.IOVecBlock

/-- What is handed to `writev`: 1024 bytes of each component, or of the padding. -/
def iovecs (b : IOVecBlock) : List UInt8 :=
  b.data.flatMap fun comp => (resized comp).take componentSize

/-- A block in components, as it is built; blocks that were read are in one piece. -/
def Split (b : IOVecBlock) : Prop :=
  b.data.length = ncomponents ∧ ∀ comp ∈ b.data, comp = [] ∨ comp.length = componentSize

instance (b : IOVecBlock) : Decidable b.Split := inferInstanceAs (Decidable (_ ∧ _))

/-- A block in one piece, `IOVecBlock(true)` filled with the bytes. -/
def ofBytes (bytes : List UInt8) : IOVecBlock :=
  ⟨bytes :: replicate (ncomponents - 1) [], faststdbBlockSize⟩

theorem Split.ofBytes_iovecs {b : IOVecBlock} (h : b.Split) : ofBytes b.iovecs = b.contiguous := by
  have hall : b.iovecs = b.data.flatMap resized := by
    refine congrArg flatten (map_congr_left ?_)
    intro comp hmem
    exact take_of_length_le (length_resized (h.2 comp hmem)).le
  rw [ofBytes, hall, contiguous]

end Scatter.IOVecBlock

/-- A block of zeros, and one of ones. -/
def zeroBlock : Scatter.IOVecBlock := .new

def oneBlock : Scatter.IOVecBlock :=
  ⟨replicate IOVecBlock.ncomponents (replicate IOVecBlock.componentSize 1), faststdbBlockSize⟩

theorem zeroBlock_split : zeroBlock.Split := ⟨rfl, fun _ h => .inl (eq_of_mem_replicate h)⟩

theorem oneBlock_split : oneBlock.Split := by
  refine ⟨length_replicate, fun comp h => .inr ?_⟩
  rw [eq_of_mem_replicate h, length_replicate]

/-! ## Volumes -/

structure Volume where
  file : VolumeFile
  writePos : Nat

/-- The offset of a block, a product of 32-bit integers. -/
def blockOffset (ix : Nat) : Nat := u32 (ix * faststdbBlockSize)

theorem blockOffset_inj {i j : Nat} (hi : i < 2 ^ 20) (hj : j < 2 ^ 20)
    (h : blockOffset i = blockOffset j) : i = j := by
  simp only [blockOffset, u32, faststdbBlockSize] at h
  omega

namespace Volume

/-- Opening a file that does not exist or is empty is fatal. -/
def openExisting (file : VolumeFile) (pos : Nat) : Option Volume :=
  if file.size = 0 then none else some ⟨file, u32 pos⟩

def reset (v : Volume) : Volume := { v with writePos := 0 }

def appendBlock (io : WriteOutcome) (source : Scatter.IOVecBlock) (v : Volume) :
    (Status × Nat) × Volume :=
  if v.file.size ≤ v.writePos then ((.overflow, 0), v)
  else
    match io with
    | .seekError => ((.fileSeekError, 0), v)
    | .writeError left =>
      ((.fileWriteError, 0), { v with file := v.file.write (blockOffset v.writePos) left })
    | .done =>
      ((.ok, v.writePos),
        ⟨v.file.write (blockOffset v.writePos) source.iovecs, u32 (v.writePos + 1)⟩)

def readBlock (v : Volume) (ix : Nat) : Status × Option Scatter.IOVecBlock :=
  if v.writePos ≤ ix then (.overflow, none)
  else (.ok, some (.ofBytes (v.file.block (blockOffset ix))))

end Volume

/-! ## Descriptors -/

structure VolumeDesc where
  id : Nat
  nblocks : Nat
  capacity : Nat
  generation : Nat
  deriving DecidableEq

/-- The descriptors in memory, and those in the registry. -/
structure MetaVolume where
  refs : List VolumeDesc
  registry : List VolumeDesc

namespace MetaVolume

/-- The descriptors by their ids; it is fatal if two have the same. -/
def openExisting (registry : List VolumeDesc) : Option MetaVolume :=
  ((List.range registry.length).mapM fun id => registry.find? (fun d => d.id == id)).map
    (⟨·, registry⟩)

/-- The getters: a field of a descriptor. -/
def getField (field : VolumeDesc → Nat) (m : MetaVolume) (id : Nat) : Status × Nat :=
  match m.refs[id]? with
  | some d => (.ok, field d)
  | none => (.outOfRange, 0)

def getNblocks : MetaVolume → Nat → Status × Nat := getField VolumeDesc.nblocks

def getGeneration : MetaVolume → Nat → Status × Nat := getField VolumeDesc.generation

/-- The setters: the changed descriptor also replaces the one in the registry. -/
def setField (change : VolumeDesc → VolumeDesc) (m : MetaVolume) (id : Nat) : Status × MetaVolume :=
  match m.refs[id]? with
  | some d => (.ok, ⟨m.refs.set id (change d), m.registry.set (change d).id (change d)⟩)
  | none => (.outOfRange, m)

def setNblocks (m : MetaVolume) (id nblocks : Nat) : Status × MetaVolume :=
  m.setField ({ · with nblocks }) id

def setGeneration (m : MetaVolume) (id generation : Nat) : Status × MetaVolume :=
  m.setField ({ · with generation }) id

/-- The path of the new volume is taken to fit into a descriptor. -/
def addVolume (m : MetaVolume) (id capacity : Nat) : MetaVolume :=
  let d : VolumeDesc := ⟨id, 0, capacity, id⟩
  ⟨m.refs ++ [d], m.registry ++ [d]⟩

end MetaVolume

end FastSTDB
