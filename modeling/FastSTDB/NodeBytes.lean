import FastSTDB.CodecRoundTrip
import FastSTDB.Lib.Pairs
import FastSTDB.Volume

/-
  Nodes over bytes — leaves and superblocks as they are stored
  (`IOVecBlock` of `volume.cc`, `IOVecLeaf` and `IOVecSuperblock` of `nbtree.cc`)

  A node is a header of 110 bytes and its content: for a leaf the compressed points,
  for a superblock its child references, 110 bytes each, which may span two components
  of the block. Superblocks are made from nothing or copied from a stored one, with or
  without its last reference. The fields of the header are no bytes here: its place at
  the front of the block is left as it is.

  Correspondence (C++ ↔ Lean):
    `IOVecBlock::*`                        ↔ `IOVecBlock.*`
    `IOVecSuperblock::append`, `read_all`  ↔ `IOVecSuperblock.append`, `.readAll`
    `IOVecSuperblock(addr, bstore, remove_last)` ↔ `IOVecSuperblock.copy`
    `IOVecLeaf(id, prev, fanout_index)`    ↔ `IOVecLeaf.create`

  `none` is `LOG(FATAL)`; a chunk that could not be read is `none` as well, since
  `read_chunk` says so by returning 0.

  1. `Shaped.appendChunk`, `Shaped.readChunk` — chunks in a block under construction.
  2. `Carries` — a superblock and its references; `new_carries`, `Carries.append`, `Carries.copy`.
  3. `leaf_block` — the block of a leaf, whatever was appended.
  4. `chunk_access_iff` — when a chunk that fits is written, and read as it was.
-/
namespace FastSTDB.Scatter
open List Option Bytes Codec Scatter.IOVecBlock
open FastSTDB.IOVecBlock (componentSize ncomponents)

namespace IOVecBlock

section
variable (b : IOVecBlock)

/-- Allocate the first component that is not; its number. -/
def add : Option (Nat × IOVecBlock) :=
  let i := b.data.findIdx (fun comp => comp.length == 0)
  if i < b.data.length then
    some (i, { b with data := b.data.set i (replicate componentSize 0) })
  else none

/-- Allocate component `c` if it is not; it has to be the first one. -/
def require (c : Nat) : Option IOVecBlock :=
  if (b.component c).length = 0 then
    b.add.bind fun (ixadd, b) => if ixadd ≠ c then none else some b
  else some b

def write (c offset : Nat) (source : List UInt8) : IOVecBlock :=
  { b with data := b.data.set c (splice (b.component c) offset source) }

/-- The new write position, or 0 if there is no space. -/
def appendChunk (source : List UInt8) : Option (Nat × IOVecBlock) :=
  let last := b.pos + source.length
  if (b.component 0).length = faststdbBlockSize then
    if faststdbBlockSize < last then some (0, b)
    else some (last, { b.write 0 b.pos source with pos := last })
  else
    let ixbegin := b.pos / componentSize
    let offbegin := b.pos % componentSize
    let ixend := last / componentSize
    if ncomponents ≤ ixbegin ∨ ncomponents ≤ ixend then some (0, b)
    else if ixbegin = ixend then
      (b.require ixbegin).map fun b =>
        (last, { b.write ixbegin offbegin source with pos := last })
    else
      (b.require ixbegin).bind fun b =>
        let l1 := componentSize - offbegin
        ((b.write ixbegin offbegin (source.take l1)).require ixend).map fun b =>
          (last, { b.write ixend 0 (source.drop l1) with pos := last })

def readChunk (offset size : Nat) : Option (List UInt8) :=
  if (b.component 0).length = faststdbBlockSize then
    some (((b.component 0).drop offset).take size)
  else
    let ixbegin := offset / componentSize
    let offbegin := offset % componentSize
    let ixend := (offset + size) / componentSize
    if (b.component ixbegin).length = 0 then none
    else if ixbegin = ixend then some (((b.component ixbegin).drop offbegin).take size)
    else if (b.component ixend).length = 0 then none
    else
      let l1 := componentSize - offbegin
      some (((b.component ixbegin).drop offbegin).take l1 ++ (b.component ixend).take (size - l1))

end

/-- The loop of `copy_from` over components. -/
def copyComponents : List (List UInt8) → List (List UInt8) → List (List UInt8)
  | d :: ds, o :: os => if o.length = 0 then d :: ds else o :: copyComponents ds os
  | ds, _ => ds

/-- The copy does not set the write position. -/
def copyFrom (b other : IOVecBlock) : IOVecBlock :=
  if (other.component 0).length = faststdbBlockSize then
    { b with
      data := (List.range ncomponents).map fun i =>
        ((other.component 0).drop (componentSize * i)).take componentSize }
  else { b with data := copyComponents b.data other.data }

def setWritePosAndShrink (b : IOVecBlock) (top : Nat) : Option IOVecBlock :=
  if ncomponents ≤ top / componentSize then none
  else if (b.component 0).length = faststdbBlockSize then some { b with pos := top }
  else
    some { b with
      data := b.data.mapIdx fun ix comp => if top / componentSize < ix then [] else comp
      pos := top }

end IOVecBlock

/-! ## Nodes -/

abbrev RefImage := { image : List UInt8 // image.length = subtreeRefSize }

def refBytes (refs : List RefImage) : List UInt8 := refs.flatMap (·.val)

structure IOVecSuperblock where
  block : IOVecBlock
  writePos : Nat
  immutable : Bool

namespace IOVecSuperblock

def new : Option IOVecSuperblock :=
  (IOVecBlock.new.appendChunk (replicate subtreeRefSize 0)).map fun (_, block) =>
    ⟨block, 0, false⟩

section
variable (node : IOVecSuperblock)

def isFull : Bool := decide (nbtreeFanout ≤ node.writePos)

def append (p : RefImage) : Option (Status × IOVecSuperblock) :=
  if node.isFull then some (.overflow, node)
  else if node.immutable then some (.badData, node)
  else
    (node.block.appendChunk p.val).map fun (bytesWritten, block) =>
      if bytesWritten = 0 then (.noMemory, { node with block })
      else (.ok, { node with block, writePos := node.writePos + 1 })

/-- The references, if all of them can be read. -/
def readAll : Option (List (List UInt8)) :=
  (List.range node.writePos).mapM fun ix =>
    node.block.readChunk (subtreeRefSize * (ix + 1)) subtreeRefSize

end

/-- Copy on write, of a block that was read back with its `payload_size`. -/
def copy (payloadSize : Nat) (block : IOVecBlock) (removeLast : Bool) : Option IOVecSuperblock :=
  let writePos := if removeLast && payloadSize != 0 then payloadSize - 1 else payloadSize
  let bytesUsed := (writePos + 1) * subtreeRefSize
  ((IOVecBlock.new.copyFrom block).setWritePosAndShrink bytesUsed).map fun block =>
    ⟨block, writePos, false⟩

end IOVecSuperblock

/-- `IOVecLeaf(id, prev, fanout_index)`: the writer behind the header. -/
def IOVecLeaf.create (id : ParamId) : Option (BlockWriter IOVecBlock) :=
  (IOVecBlock.new.allocate subtreeRefSize).bind fun (_, block) => BlockWriter.new id block

/-! ## Chunks -/

namespace IOVecBlock
variable {b : IOVecBlock}

theorem Shaped.require (h : Shaped b) {c : Nat} (hc : c < ncomponents)
    (hbefore : ∀ c', c' < c → b.component c' ≠ []) :
    b.require c = some { b with data := b.data.set c (resized (b.component c)) } := by
  have hlen : c < b.data.length := by rw [h.count]; exact hc
  have hcomp := h.component_eq hc
  rw [IOVecBlock.require]
  by_cases hnil : b.component c = []
  · have hfind : b.data.findIdx (fun comp => comp.length == 0) = c := by
      apply (findIdx_eq hlen).mpr
      constructor
      · rw [← getD_eq_getElem b.data [] hlen]
        show ((b.component c).length == 0) = true
        rw [hnil]
        rfl
      · intro j hj
        rw [← getD_eq_getElem b.data [] (hj.trans hlen)]
        rw [beq_eq_false_iff_ne, Ne, length_eq_zero_iff]
        exact hbefore j hj
    rw [if_pos (by rw [hnil]; rfl), add, hfind, if_pos hlen, bind_some]
    dsimp only
    rw [if_neg (fun hne => hne rfl), resized, if_pos hnil]
  · rw [if_neg (by rw [length_eq_zero_iff]; exact hnil), resized_eq hnil]
    rw [set_same hcomp]

theorem component_set {data : List (List UInt8)} {pos c : Nat} (comp : List UInt8)
    (hc : c < data.length) (c' : Nat) :
    component ⟨data.set c comp, pos⟩ c' = if c = c' then comp else component ⟨data, pos⟩ c' := by
  rw [component, component, getD_eq_getElem?_getD, getD_eq_getElem?_getD]
  by_cases heq : c = c'
  · rw [if_pos heq, ← heq, getElem?_set_self hc]
    rfl
  · rw [if_neg heq, getElem?_set_ne heq]

section
variable (h : Shaped b)
include h

theorem Shaped.write {c : Nat} (offset : Nat) (source : List UInt8) (hc : c < ncomponents)
    (hfit : offset + source.length ≤ componentSize) (hbefore : ∀ c', c' < c → b.component c' ≠ []) :
    ∃ b', (b.require c).map (fun b => b.write c offset source) = some b' ∧ Shaped b' ∧
      b'.memory = splice b.memory (componentSize * c + offset) source ∧
      ∀ c', c' ≤ c → b'.component c' ≠ [] := by
  have hlen : c < b.data.length := by rw [h.count]; exact hc
  have hcomp := h.component_eq hc
  have hres := h.length_resized _ (mem_of_getElem? hcomp)
  have hnew : (splice (resized (b.component c)) offset source).length = componentSize := by
    rw [length_splice (by rw [hres]; exact hfit), hres]
  have hmemory := flatMap_splice h.length_resized hcomp hfit (resized_eq (component_ne_nil hnew))
  have hwrite : (b.require c).map (fun b => b.write c offset source) =
      some ⟨b.data.set c (splice (resized (b.component c)) offset source), b.pos⟩ := by
    rw [h.require hc hbefore, map_some, IOVecBlock.write, component_set _ hlen]
    simp
  generalize splice (resized (b.component c)) offset source = new at *
  -- the other components are as before
  have hkeep : ∀ c', b.component c' ≠ [] ∨ c' = c → component ⟨b.data.set c new, b.pos⟩ c' ≠ [] := by
    intro c' hc'
    rw [component_set _ hlen]
    split
    next => exact component_ne_nil hnew
    next hne => exact hc'.resolve_right (Ne.symm hne)
  refine ⟨_, hwrite, ⟨by rw [length_set, h.count], h.pos_le, ?_, ?_⟩, hmemory, ?_⟩
  · intro comp hmem
    rcases mem_or_eq_of_mem_set hmem with hmem | rfl
    · exact h.comp comp hmem
    · exact .inr hnew
  · intro c' hpos
    exact hkeep c' (.inl (h.alloc c' hpos))
  · intro c' hle
    exact hkeep c' (hle.lt_or_eq.imp_left (hbefore c'))

theorem Shaped.move {pos : Nat} (hle : pos ≤ faststdbBlockSize)
    (halloc : ∀ c, componentSize * c < pos → b.component c ≠ []) :
    Shaped { b with pos := pos } := ⟨h.count, hle, h.comp, halloc⟩

/-- A chunk that ends before the end of the block is appended to what is written. -/
theorem Shaped.appendChunk (source : List UInt8) (hsize : source.length ≤ componentSize)
    (hend : b.pos + source.length < faststdbBlockSize) :
    ∃ b', b.appendChunk source = some (b.pos + source.length, b') ∧ Shaped b' ∧
      b'.pos = b.pos + source.length ∧ b'.memory = splice b.memory b.pos source := by
  have hpos := pos_split b.pos
  have hmod := mod_componentSize b.pos
  have hbegin : b.pos / componentSize < ncomponents := div_componentSize (by omega)
  have hlast : (b.pos + source.length) / componentSize < ncomponents := div_componentSize hend
  have hbefore : ∀ c', c' < b.pos / componentSize → b.component c' ≠ [] := by
    intro c' hc'
    apply h.alloc
    calc componentSize * c' < componentSize * (b.pos / componentSize) :=
          Nat.mul_lt_mul_of_pos_left hc' (by decide)
      _ ≤ b.pos := Nat.mul_div_le _ _
  rw [IOVecBlock.appendChunk, if_neg h.scattered, if_neg (by omega)]
  by_cases hone : b.pos / componentSize = (b.pos + source.length) / componentSize
  · -- the chunk lies in one component
    have hfit : b.pos % componentSize + source.length ≤ componentSize := by
      simp only [componentSize] at *
      omega
    obtain ⟨b', hwrite, hshaped, hmem, hall⟩ := h.write _ source hbegin hfit hbefore
    obtain ⟨b1, hreq, rfl⟩ := map_eq_some_iff.mp hwrite
    rw [if_pos hone, hreq]
    refine ⟨_, rfl, hshaped.move hend.le ?_, rfl, ?_⟩
    · intro c hc
      apply hall c
      simp only [componentSize] at *
      omega
    · rw [hpos] at hmem
      exact hmem
  · -- it starts in one component and ends in the next one
    have hnext : (b.pos + source.length) / componentSize = b.pos / componentSize + 1 := by
      simp only [componentSize] at *
      omega
    generalize hk : componentSize - b.pos % componentSize = k
    have hl1 : (source.take k).length = k := by
      rw [length_take]
      simp only [componentSize] at *
      omega
    obtain ⟨b1, hwrite1, hshaped1, hmem1, hall1⟩ := h.write
      (b.pos % componentSize) (source.take k) hbegin (by rw [hl1]; omega) hbefore
    obtain ⟨b0, hreq0, rfl⟩ := map_eq_some_iff.mp hwrite1
    obtain ⟨b2, hwrite2, hshaped2, hmem2, hall2⟩ := hshaped1.write
      0 (source.drop k) hlast (by rw [length_drop]; omega) (fun c' hc' => hall1 c' (by omega))
    obtain ⟨b3, hreq3, rfl⟩ := map_eq_some_iff.mp hwrite2
    rw [if_neg hone, hreq0, bind_some]
    dsimp only
    rw [hreq3]
    refine ⟨_, rfl, hshaped2.move hend.le ?_, rfl, ?_⟩
    · intro c hc
      apply hall2 c
      simp only [componentSize] at *
      omega
    · have hmid : componentSize * ((b.pos + source.length) / componentSize) + 0 =
          b.pos + (source.take k).length := by
        rw [hnext, Nat.mul_succ]
        omega
      have hroom : b.pos + (source.take k).length ≤ b.memory.length := by
        rw [h.length_memory]
        simp only [componentSize] at *
        omega
      rw [hpos] at hmem1
      rw [hmem1, hmid, splice_splice _ _ hroom, take_append_drop] at hmem2
      exact hmem2

theorem Shaped.component_memory {c : Nat} (hne : b.component c ≠ []) :
    b.component c = (b.memory.drop (componentSize * c)).take componentSize := by
  have hc : c < ncomponents := by
    by_contra hge
    apply hne
    rw [component, getD_eq_default _ _ (by rw [h.count]; exact not_lt.mp hge)]
  have hcomp := h.component_eq hc
  have hlen := h.length_resized _ (mem_of_getElem? hcomp)
  rw [resized_eq hne] at hlen
  apply ext_getElem?
  intro i
  by_cases hi : i < componentSize
  · have hget := flatMap_getElem? h.length_resized hcomp hi
    rw [resized_eq hne] at hget
    rw [getElem?_take_of_lt hi, getElem?_drop, ← hget]
    rfl
  · rw [getElem?_eq_none (by omega), getElem?_take_eq_none (not_lt.mp hi)]

theorem Shaped.bytes_splice {b' : IOVecBlock} {source : List UInt8}
    (hpos : b'.pos = b.pos + source.length) (hmem : b'.memory = splice b.memory b.pos source) :
    bytes b' = bytes b ++ source := by
  have hle : b.pos ≤ b.memory.length := by
    rw [h.length_memory]
    exact h.pos_le
  show b'.memory.take b'.pos = _
  rw [hmem, hpos, take_splice source hle]
  rfl

/-- A chunk of what is written is read if the component of its end is allocated. -/
theorem Shaped.readChunk {offset size : Nat} (hpos : 0 < size)
    (hsize : size ≤ componentSize) (hle : offset + size ≤ b.pos) : b.readChunk offset size =
      if b.component ((offset + size) / componentSize) = [] then none
      else some (((bytes b).drop offset).take size) := by
  have hsplit := pos_split offset
  have hmod := mod_componentSize offset
  have hbegin : b.component (offset / componentSize) ≠ [] := h.alloc _ (by omega)
  have hbytes : ((bytes b).drop offset).take size = (b.memory.drop offset).take size := by
    show ((b.memory.take b.pos).drop offset).take size = _
    rw [drop_take, take_take, Nat.min_eq_left (by omega)]
  have hfirst : (b.component (offset / componentSize)).drop (offset % componentSize) =
      (b.memory.drop offset).take (componentSize - offset % componentSize) := by
    rw [h.component_memory hbegin, drop_take, drop_drop, hsplit]
  rw [IOVecBlock.readChunk, if_neg h.scattered, if_neg (by rwa [length_eq_zero_iff]), hbytes]
  split
  next heq =>
    rw [← heq, if_neg hbegin, hfirst, take_take, Nat.min_eq_left]
    simp only [componentSize] at *
    omega
  next hne =>
    have hnext : (offset + size) / componentSize = offset / componentSize + 1 := by
      simp only [componentSize] at *
      omega
    by_cases hlast : b.component ((offset + size) / componentSize) = []
    · rw [if_pos hlast, if_pos (by rw [hlast]; rfl)]
    · -- the rest of one component, and the front of the next one
      have hl1 : size = componentSize - offset % componentSize +
          (size - (componentSize - offset % componentSize)) := by
        simp only [componentSize] at *
        omega
      have hstart : offset + (componentSize - offset % componentSize) =
          componentSize * ((offset + size) / componentSize) := by
        rw [hnext, Nat.mul_succ]
        omega
      rw [if_neg hlast, if_neg (by rwa [length_eq_zero_iff])]
      dsimp only
      rw [hfirst, take_take, Nat.min_self, h.component_memory hlast, take_take,
        Nat.min_eq_left (by omega), ← hstart, ← drop_drop, ← take_add, ← hl1]

end

/-! ## Chunks and bytes -/

/-- Appending the chunk does what putting its bytes does, and it is refused if they do not fit. -/
def AppendAgrees (b : IOVecBlock) (source : List UInt8) : Prop :=
  if b.pos + source.length ≤ faststdbBlockSize then
    ∃ b', b.appendChunk source = some (b.pos + source.length, b') ∧
      b'.pos = (source.foldl put b).pos ∧ bytes b' = bytes (source.foldl put b)
  else b.appendChunk source = some (0, b)

/-- Reading the chunk gives the bytes that are got one by one. -/
def ReadAgrees (b : IOVecBlock) (offset size : Nat) : Prop :=
  ∃ chunk, b.readChunk offset size = some chunk ∧ chunk.length = size ∧
    ∀ i, i < size → chunk[i]? = b.get (offset + i)

theorem Shaped.foldl_put (h : Shaped b) (source : List UInt8)
    (hle : b.pos + source.length ≤ faststdbBlockSize) :
    (source.foldl IOVecBlock.put b).pos = b.pos + source.length ∧
      bytes (source.foldl IOVecBlock.put b) = bytes b ++ source := by
  induction source generalizing b with
  | nil => exact ⟨rfl, (append_nil _).symm⟩
  | cons v source ih =>
    rw [length_cons] at hle
    have hlt : b.pos < faststdbBlockSize := by omega
    have hput : (b.put v).pos = b.pos + 1 := rfl
    obtain ⟨hpos, hbytes⟩ := ih (h.put v hlt).1 (by rw [hput]; omega)
    constructor
    · rw [foldl_cons, hpos, hput, length_cons, add_assoc, add_comm 1]
    · rw [foldl_cons, hbytes]
      show bytes (BlockT.put b v) ++ source = _
      rw [bytes_put v h hlt, append_assoc, singleton_append]

end IOVecBlock

/-- Chunks that end with the block cannot be appended, and chunks that end with what is written
cannot be read when a component ends there and the next one is not allocated. -/
theorem chunk_access_iff {b : IOVecBlock} (h : b.Shaped) {source : List UInt8}
    (hpos : 0 < source.length) (hsize : source.length ≤ componentSize) :
    (b.AppendAgrees source ↔ b.pos + source.length ≠ faststdbBlockSize) ∧
    ∀ offset, offset + source.length ≤ b.pos → (b.ReadAgrees offset source.length ↔
      b.component ((offset + source.length) / componentSize) ≠ []) := by
  refine ⟨?_, fun offset hle => ?_⟩
  · by_cases hfit : b.pos + source.length < faststdbBlockSize
    · -- the chunk ends inside of the block
      obtain ⟨b', happend, hshaped, hpos', hmem⟩ := h.appendChunk source hsize hfit
      obtain ⟨hputs, hbytes⟩ := h.foldl_put source hfit.le
      refine iff_of_true ?_ hfit.ne
      rw [AppendAgrees, if_pos hfit.le, hputs, hbytes]
      exact ⟨b', happend, hpos', h.bytes_splice hpos' hmem⟩
    · have hrefused : b.appendChunk source = some (0, b) := by
        have hend : ncomponents ≤ (b.pos + source.length) / componentSize := by
          simp only [componentSize, ncomponents, faststdbBlockSize] at *
          omega
        rw [appendChunk, if_neg h.scattered, if_pos (.inr hend)]
      rw [AppendAgrees, hrefused]
      split
      next hle =>
        refine iff_of_false ?_ (not_not.mpr (Nat.le_antisymm hle (not_lt.mp hfit)))
        rintro ⟨b', heq, -⟩
        have := congrArg Prod.fst (some.inj heq)
        omega
      next hgt => exact iff_of_true rfl fun heq => hgt heq.le
  · rw [ReadAgrees, h.readChunk hpos hsize hle]
    split
    next hnil => exact iff_of_false (by rintro ⟨chunk, hnone, -⟩; cases hnone) (not_not.mpr hnil)
    next hne =>
      refine iff_of_true ⟨_, rfl, ?_, fun i hi => ?_⟩ hne
      · rw [length_take, length_drop, length_bytes h]
        show min _ (b.pos - offset) = _
        omega
      · have hget : b.get (offset + i) = (bytes b)[offset + i]? := get_eq h (by
          show offset + i < b.pos
          omega)
        rw [getElem?_take_of_lt hi, getElem?_drop, hget]

/-- A block after 1500 bytes: a chunk of 700 bytes is read from the first two components, and one
is appended to the second and the third. -/
theorem chunk_access_across : ∃ comp source : List UInt8, comp.length = 1024 ∧ source.length = 700 ∧
    IOVecBlock.AppendAgrees ⟨[comp, comp, [], []], 1500⟩ source ∧
    IOVecBlock.ReadAgrees ⟨[comp, comp, [], []], 1500⟩ 600 source.length := by
  obtain ⟨comp, hlen⟩ : ∃ comp : List UInt8, comp.length = 1024 := ⟨replicate 1024 7, length_replicate⟩
  have hne : comp ≠ [] := component_ne_nil hlen
  obtain ⟨source, hsource⟩ : ∃ source : List UInt8, source.length = 700 :=
    ⟨replicate 700 9, length_replicate⟩
  have h : Shaped ⟨[comp, comp, [], []], 1500⟩ := by
    refine ⟨rfl, by simp [faststdbBlockSize], by simp [componentSize, hlen], fun c hc => ?_⟩
    have hlt : c < 2 := by
      simp only [componentSize] at hc
      omega
    interval_cases c <;> exact hne
  have hpos : 0 < source.length := by omega
  obtain ⟨happend, hread⟩ := chunk_access_iff h hpos (by rw [hsource]; decide)
  refine ⟨comp, source, hlen, hsource, happend.mpr ?_, (hread 600 ?_).mpr ?_⟩
  · simp [hsource, faststdbBlockSize]
  · simp [hsource]
  · rw [hsource]
    exact hne

/-- A block after 3072 bytes: the last chunk of 1024 bytes cannot be read, and another one cannot
be appended. -/
theorem chunk_access_boundary : ∃ comp : List UInt8, comp.length = 1024 ∧
    IOVecBlock.Shaped ⟨[comp, comp, comp, []], 3072⟩ ∧
    IOVecBlock.readChunk ⟨[comp, comp, comp, []], 3072⟩ 2048 1024 = none ∧
    IOVecBlock.appendChunk ⟨[comp, comp, comp, []], 3072⟩ comp =
      some (0, ⟨[comp, comp, comp, []], 3072⟩) := by
  obtain ⟨comp, hlen⟩ : ∃ comp : List UInt8, comp.length = 1024 := ⟨replicate 1024 7, length_replicate⟩
  have hne : comp ≠ [] := component_ne_nil hlen
  refine ⟨comp, hlen, ⟨rfl, ?_, ?_, fun c hc => ?_⟩, ?_, ?_⟩
  · simp [faststdbBlockSize]
  · simp [componentSize, hlen]
  · have hlt : c < 3 := by
      simp only [componentSize] at hc
      omega
    interval_cases c <;> exact hne
  · simp [readChunk, component, componentSize, faststdbBlockSize, hlen]
  · simp [appendChunk, component, componentSize, ncomponents, faststdbBlockSize, hlen]

namespace IOVecBlock
variable {b : IOVecBlock}

/-! ## Copies of blocks -/

theorem flatten_pieces (mem : List UInt8) (n k : Nat) :
    ((List.range k).map fun i => (mem.drop (n * i)).take n).flatten = mem.take (n * k) := by
  induction k with
  | zero => rw [mul_zero]; rfl
  | succ k ih =>
    rw [range_succ, map_append, flatten_append, ih, Nat.mul_succ, take_add]
    simp

theorem copyFrom_shaped {mem : List UInt8} (hlen : mem.length = faststdbBlockSize) :
    Shaped (new.copyFrom (ofBytes mem)) ∧ (new.copyFrom (ofBytes mem)).memory = mem ∧
      ∀ c, c < ncomponents → (new.copyFrom (ofBytes mem)).component c ≠ [] := by
  have hfirst : (ofBytes mem).component 0 = mem := rfl
  have hpiece : ∀ comp ∈ (range ncomponents).map (fun i =>
      (mem.drop (componentSize * i)).take componentSize), comp.length = componentSize := by
    intro comp hmem
    obtain ⟨c, hc, rfl⟩ := mem_map.mp hmem
    have hc := mem_range.mp hc
    rw [length_take, length_drop]
    simp only [componentSize, ncomponents, faststdbBlockSize] at *
    omega
  rw [copyFrom, hfirst, if_pos hlen]
  refine ⟨⟨rfl, zero_le, fun comp hmem => .inr (hpiece comp hmem), ?_⟩, ?_, ?_⟩
  · intro c hc
    exact absurd hc (Nat.not_lt_zero _)
  · have hall := fun comp hmem => resized_eq (component_ne_nil (hpiece comp hmem))
    rw [memory, flatMap_def, map_congr_left hall, map_id'' (fun _ => rfl), flatten_pieces]
    exact take_of_length_le hlen.le
  · intro c hc
    rw [component, getD_eq_getElem _ _ hc]
    exact component_ne_nil (hpiece _ (getElem_mem _))

theorem Shaped.shrink (h : Shaped b) {top : Nat} (htop : top < faststdbBlockSize)
    (halloc : ∀ c, componentSize * c < top → b.component c ≠ []) :
    ∃ b', b.setWritePosAndShrink top = some b' ∧ Shaped b' ∧ b'.pos = top ∧
      bytes b' = b.memory.take top := by
  rw [setWritePosAndShrink, if_neg (not_le.mpr (div_componentSize htop)), if_neg h.scattered]
  generalize hdata : b.data.mapIdx _ = data
  have hcomp : ∀ c, component ⟨data, top⟩ c =
      if top / componentSize < c then [] else b.component c := by
    intro c
    rw [component, component, getD_eq_getElem?_getD, getD_eq_getElem?_getD, ← hdata, getElem?_mapIdx]
    cases b.data[c]? with
    | none =>
      show [] = if top / componentSize < c then [] else []
      rw [ite_self]
    | some comp => rfl
  have hmoved : Shaped { b with pos := top } := h.move htop.le halloc
  have hkept : ∀ c, componentSize * c < top → ¬ top / componentSize < c := by
    simp only [componentSize] at *
    omega
  have hshaped : Shaped ⟨data, top⟩ := by
    refine ⟨by rw [← hdata, length_mapIdx, h.count], htop.le, ?_, ?_⟩
    · intro comp hmem
      rw [← hdata] at hmem
      obtain ⟨i, hi, rfl⟩ := mem_mapIdx.mp hmem
      split
      next => exact .inl rfl
      next => exact h.comp _ (getElem_mem hi)
    · intro c hc
      rw [hcomp, if_neg (hkept c hc)]
      exact halloc c hc
  have hbytes : ∀ {b : IOVecBlock}, Shaped b → ∀ {i : Nat}, i < b.pos →
      (bytes b)[i]? = (b.component (i / componentSize))[i % componentSize]? := by
    intro b h i hi
    rw [h.getElem? hi]
    exact getElem?_take_of_lt hi
  refine ⟨_, rfl, hshaped, rfl, ?_⟩
  apply ext_getElem?
  intro i
  by_cases hi : i < top
  · have hin : componentSize * (i / componentSize) < top := (Nat.mul_div_le _ _).trans_lt hi
    rw [hbytes hshaped hi, hcomp, if_neg (hkept _ hin)]
    exact (hbytes hmoved hi).symm
  · have hnone : ∀ l : List UInt8, (l.take top)[i]? = none := fun l =>
      getElem?_take_eq_none (not_lt.mp hi)
    exact (hnone _).trans (hnone _).symm

end IOVecBlock

/-! ## Superblocks -/

theorem length_refBytes (refs : List RefImage) :
    (refBytes refs).length = subtreeRefSize * refs.length := by
  induction refs with
  | nil => rfl
  | cons r refs ih =>
    rw [refBytes, flatMap_cons, length_append, r.property, ← refBytes, ih,
      length_cons, Nat.mul_succ, add_comm]

theorem take_refBytes (refs : List RefImage) (k : Nat) :
    (refBytes refs).take (subtreeRefSize * k) = refBytes (refs.take k) := by
  induction refs generalizing k with
  | nil => rw [take_nil]; exact take_nil
  | cons r refs ih =>
    cases k with
    | zero => rfl
    | succ k =>
      have hlen : subtreeRefSize * (k + 1) = r.val.length + subtreeRefSize * k := by
        rw [r.property, Nat.mul_succ, add_comm]
      rw [refBytes, flatMap_cons, hlen, take_length_add_append, ← refBytes, ih]
      rfl

theorem pieces_refBytes (refs : List RefImage) : (List.range refs.length).map
        (fun ix => ((refBytes refs).drop (subtreeRefSize * ix)).take subtreeRefSize) =
      refs.map (·.val) := by
  induction refs with
  | nil => rfl
  | cons r refs ih =>
    have hnext : ∀ ix, (refBytes (r :: refs)).drop (subtreeRefSize * (ix + 1)) =
        (refBytes refs).drop (subtreeRefSize * ix) := by
      intro ix
      rw [Nat.mul_succ, add_comm, ← drop_drop, refBytes, flatMap_cons, drop_left' r.property]
      rfl
    rw [length_cons, range_succ_eq_map, map_cons, List.map_map, map_cons, ← ih]
    refine congrArg₂ _ (take_left' r.property) (map_congr_left fun ix _ => ?_)
    exact congrArg (take subtreeRefSize) (hnext ix)

namespace IOVecSuperblock
open FastSTDB.Scatter.IOVecBlock

/-- A superblock under construction and its references. -/
structure Carries (node : IOVecSuperblock) (refs : List RefImage) : Prop where
  shaped : node.block.Shaped
  writePos : node.writePos = refs.length
  count : refs.length ≤ nbtreeFanout
  writable : node.immutable = false
  pos : node.block.pos = subtreeRefSize * (refs.length + 1)
  content : (bytes node.block).drop subtreeRefSize = refBytes refs

variable {node : IOVecSuperblock} {refs : List RefImage}

/-- Up to 32 references and the header end before the end of the block. -/
theorem refs_end {n : Nat} (h : n ≤ nbtreeFanout) : subtreeRefSize * (n + 1) < faststdbBlockSize := by
  simp only [subtreeRefSize, nbtreeFanout, faststdbBlockSize] at *
  omega

theorem new_carries : ∃ node, new = some node ∧ node.Carries [] := by
  have hlen : (replicate subtreeRefSize (0 : UInt8)).length = subtreeRefSize := length_replicate
  obtain ⟨block, happend, hshaped, hpos, hmem⟩ := shaped_new.appendChunk
    (replicate subtreeRefSize 0) (by rw [hlen]; decide) (by rw [hlen]; decide)
  refine ⟨⟨block, 0, false⟩, by rw [new, happend]; rfl, hshaped, rfl, zero_le, rfl, ?_, ?_⟩
  · rw [hpos]
    rfl
  · apply drop_eq_nil_of_le
    rw [length_bytes hshaped]
    show block.pos ≤ _
    rw [hpos]
    exact le_rfl

theorem Carries.append (h : node.Carries refs) (p : RefImage) :
    (nbtreeFanout ≤ refs.length ∧ node.append p = some (.overflow, node)) ∨
      ∃ node', node.append p = some (.ok, node') ∧ node'.Carries (refs ++ [p]) := by
  by_cases hfull : nbtreeFanout ≤ refs.length
  · refine .inl ⟨hfull, ?_⟩
    rw [IOVecSuperblock.append, isFull, h.writePos, decide_eq_true hfull, if_pos rfl]
  · have hend : node.block.pos + p.val.length = subtreeRefSize * (refs.length + 1 + 1) := by
      rw [h.pos, p.property]
      rfl
    have hlt : node.block.pos + p.val.length < faststdbBlockSize := by
      rw [hend]
      exact refs_end (not_le.mp hfull)
    obtain ⟨block, happend, hshaped, hpos, hmem⟩ := h.shaped.appendChunk p.val
      (by rw [p.property]; decide) hlt
    have hwritten : node.block.pos + p.val.length ≠ 0 := by
      rw [hend]
      exact Nat.succ_ne_zero _
    refine .inr ⟨{ node with block, writePos := node.writePos + 1 }, ?_, hshaped, ?_, ?_,
      h.writable, ?_, ?_⟩
    · rw [IOVecSuperblock.append, isFull, h.writePos, decide_eq_false hfull, h.writable, happend]
      simp only [Bool.false_eq_true, if_false, map_some, if_neg hwritten]
    · rw [h.writePos, length_append]
      rfl
    · rw [length_append]
      exact not_le.mp hfull
    · rw [length_append]
      exact hpos.trans hend
    · -- the chunk stands behind what was written
      have hbytes := h.shaped.bytes_splice hpos hmem
      have hheader : subtreeRefSize ≤ (bytes node.block).length := by
        rw [length_bytes h.shaped]
        show _ ≤ node.block.pos
        rw [h.pos]
        exact Nat.le_mul_of_pos_right _ (Nat.succ_pos _)
      rw [hbytes, drop_append_of_le_length hheader, h.content, refBytes, refBytes, flatMap_append]
      simp only [flatMap_cons, flatMap_nil, append_nil]

theorem Carries.readAll (h : node.Carries refs) : node.readAll = some (refs.map (·.val)) := by
  rw [← pieces_refBytes, ← h.writePos]
  apply Pairs.mapM_pure
  rw [forall₂_same]
  intro ix hix
  have hlt : ix < refs.length := by
    rw [← h.writePos]
    exact mem_range.mp hix
  have hle : subtreeRefSize * (ix + 1) + subtreeRefSize ≤ node.block.pos := by
    rw [h.pos]
    exact Nat.mul_le_mul_left _ (Nat.succ_le_succ hlt)
  -- no reference ends with a component, so the last byte lies in the component of the end
  have hlast : node.block.component
      ((subtreeRefSize * (ix + 1) + subtreeRefSize) / componentSize) ≠ [] := by
    have hcount := h.count
    apply h.shaped.alloc
    simp only [componentSize, subtreeRefSize, nbtreeFanout] at *
    omega
  rw [h.shaped.readChunk (by decide) (by decide) hle, if_neg hlast, Nat.mul_succ, add_comm,
    ← drop_drop, h.content]
  rfl

/-- A copy of a stored superblock carries its references, but for the last one if it is removed. -/
theorem Carries.copy (h : node.Carries refs) (removeLast : Bool) :
    ∃ node', copy refs.length (.ofBytes node.block.memory) removeLast = some node' ∧
      node'.Carries (if removeLast then refs.dropLast else refs) := by
  obtain ⟨w, hw, hle, hrefs⟩ : ∃ w,
      w = (if removeLast && refs.length != 0 then refs.length - 1 else refs.length) ∧
      w ≤ refs.length ∧ refs.take w = (if removeLast then refs.dropLast else refs) := by
    refine ⟨_, rfl, ?_, ?_⟩
    · split
      next => exact Nat.sub_le _ _
      next => exact le_rfl
    · cases removeLast with
      | false => simp
      | true =>
        cases refs with
        | nil => rfl
        | cons r refs =>
          simp only [dropLast_eq_take]
          rfl
  have hcount : w ≤ nbtreeFanout := hle.trans h.count
  obtain ⟨hshaped, hmemory, halloc⟩ := copyFrom_shaped h.shaped.length_memory
  have htop : (w + 1) * subtreeRefSize < faststdbBlockSize := by
    rw [mul_comm]
    exact refs_end hcount
  obtain ⟨block, hshrink, hblock, hpos, hbytes⟩ := hshaped.shrink htop (by
    intro c hc
    apply halloc
    simp only [componentSize, ncomponents, faststdbBlockSize] at *
    omega)
  rw [hmemory] at hbytes
  have hlength : (refs.take w).length = w := by rw [length_take, min_eq_left hle]
  rw [← hrefs]
  refine ⟨⟨block, w, false⟩, ?_, hblock, hlength.symm, by rw [hlength]; exact hcount, rfl, ?_, ?_⟩
  · rw [IOVecSuperblock.copy, ← hw, hshrink]
    rfl
  · rw [hlength, mul_comm]
    exact hpos
  · -- what is kept is the front of what was written
    have hfront : (w + 1) * subtreeRefSize ≤ node.block.pos := by
      rw [h.pos, mul_comm]
      exact Nat.mul_le_mul_left _ (Nat.succ_le_succ hle)
    have htake : node.block.memory.take ((w + 1) * subtreeRefSize) =
        (bytes node.block).take ((w + 1) * subtreeRefSize) := by
      show _ = (node.block.memory.take node.block.pos).take _
      rw [take_take, min_eq_left hfront]
    rw [hbytes, htake, drop_take, h.content, ← take_refBytes, Nat.succ_mul,
      Nat.add_sub_cancel, mul_comm]

end IOVecSuperblock

/-! ## Leaves -/

theorem leaf_block (id : ParamId) (pts : List Point) : ∃ leaf size w,
    IOVecLeaf.create id = some leaf ∧ (leaf.putAll pts).2.commit = some (size, w) ∧
      w.block.Shaped ∧ w.block.pos = size ∧ subtreeRefSize + blockHeaderSize ≤ size := by
  obtain ⟨block, halloc, hshaped, -, hpos⟩ := shaped_new.allocate
    (show 0 < subtreeRefSize by decide) (by decide)
  have hlen : (bytes block).length = subtreeRefSize := by
    rw [length_bytes hshaped]
    exact hpos
  have hroom : RoomFor (bytes block) := by
    rw [RoomFor, hlen]
    decide
  have hopen : OpenAt _ (freshAt ((bytes block).length + blockHeaderSize)) [] :=
    openAt_new (hroom.trans (by decide))
  obtain ⟨n, -, hholds⟩ := putAll_holds pts hopen
  obtain ⟨size, m, hm, -, -⟩ := commit_spec hholds
  obtain ⟨leaf, w, hnew, -, hcommit, hmirrors, hsize⟩ := codec_run_at id hshaped hroom pts hm
  refine ⟨leaf, size, w, ?_, hcommit, hmirrors.block.valid, hsize, ?_⟩
  · rw [IOVecLeaf.create, halloc]
    exact hnew
  · rw [← hsize, hmirrors.block.size, IOVecBlock.size, ← hmirrors.block.base,
      length_behind, hlen]
    exact le_self_add

end FastSTDB.Scatter
