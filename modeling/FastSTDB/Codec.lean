import FastSTDB.Compression

/-
  Block codec over bytes — flat buffers and blocks of components
  (`compression.h`, `compression.cc`, `IOVecBlock` of `volume.h`)

  The codec exists twice: `DataBlockWriter` and `DataBlockReader` work on a flat
  buffer, `IOVecBlockWriter` and `IOVecBlockReader` on a block of four components,
  allocated when they are first written to. The code of both is the same up to the
  operations on the block, which are the classes `BlockT` and `BlockRW` here. In contrast to
  `FastSTDB.Compression`, the header of the block is in its bytes and the counters
  of the header are read and written through pointers.

  Correspondence (C++ ↔ Lean):
    the buffer of a `VByteStreamWriter`    ↔ `DataBuffer`
    `IOVecBlock`                           ↔ `Scatter.IOVecBlock`
    `VByteStreamWriter`, `IOVecVByteStreamWriter`  ↔ `putRaw`, `tput`, …
    `DataBlockWriter`, `IOVecBlockWriter`  ↔ `Codec.BlockWriter` at the two blocks
    `VByteStreamReader`, `IOVecVByteStreamReader`  ↔ `Codec.VByteStreamReader`
    `DataBlockReader`, `IOVecBlockReader`  ↔ `Codec.BlockReader` at the two blocks

  A pointer into a block is the offset of its target. `none` is `LOG(FATAL)`.
-/
namespace FastSTDB
open Bytes

/-- What the codec asks of a block beyond writing to it. -/
class BlockRW (B : Type) extends BlockT B where
  /-- Skip so many bytes; the pointer to them. -/
  allocate : B → Nat → Option (Nat × B)
  get : B → Nat → Option UInt8
  /-- The byte behind a pointer. -/
  load : B → Nat → UInt8
  store : B → Nat → UInt8 → B

/-! ## Flat buffers -/

/-- The memory from `begin_` to `end_`, and `pos_`. -/
structure DataBuffer where
  bytes : List UInt8
  pos : Nat
  deriving DecidableEq

namespace DataBuffer

section
variable (b : DataBuffer)

def put (val : UInt8) : DataBuffer := ⟨b.bytes.set b.pos val, b.pos + 1⟩

def safePut (val : UInt8) : Bool × DataBuffer :=
  if b.pos = b.bytes.length then (false, b) else (true, b.put val)

/-- A value that does not fit leaves the position where it was. -/
def putBase128 (value : Nat) : Bool × DataBuffer :=
  if b.bytes.length ≤ b.pos then (false, b)
  else
    match putDigits safePut 10 value b with
    | (true, b') => (true, b')
    | (false, b') => (false, { b' with pos := b.pos })

def allocate (sz : Nat) : Option (Nat × DataBuffer) :=
  if b.bytes.length - b.pos < sz then none else some (b.pos, { b with pos := b.pos + sz })

end

instance : BlockRW DataBuffer where
  size b := b.pos
  spaceLeft b := b.bytes.length - b.pos
  put := put
  putBase128 := putBase128
  setWritePos b pos := { b with pos := pos }
  allocate := allocate
  get b offset := b.bytes[offset]?
  load b ptr := b.bytes.getD ptr 0
  store b ptr val := { b with bytes := b.bytes.set ptr val }

end DataBuffer

/-! ## Blocks of components -/

namespace Scatter
open FastSTDB.IOVecBlock (componentSize ncomponents)

/-- A component that is not allocated is empty. -/
structure IOVecBlock where
  data : List (List UInt8)
  pos : Nat
  deriving DecidableEq

namespace IOVecBlock

def new : IOVecBlock := ⟨List.replicate ncomponents [], 0⟩

def component (b : IOVecBlock) (c : Nat) : List UInt8 := b.data.getD c []

/-- A component after its allocation. -/
def resized (comp : List UInt8) : List UInt8 :=
  if comp = [] then List.replicate componentSize 0 else comp

section
variable (b : IOVecBlock)

/-- `put`; behind the last component it is undefined. -/
def put (val : UInt8) : IOVecBlock :=
  let c := b.pos / componentSize
  let i := b.pos % componentSize
  ⟨b.data.set c ((resized (b.component c)).set i val), b.pos + 1⟩

def safePut (val : UInt8) : Bool × IOVecBlock :=
  if ncomponents ≤ b.pos / componentSize then (false, b) else (true, b.put val)

def allocate (size : Nat) : Option (Nat × IOVecBlock) :=
  let c := b.pos / componentSize
  let i := b.pos % componentSize
  if ncomponents ≤ c then none
  else
    let comp := resized (b.component c)
    if comp.length - i < size then none else some (b.pos, ⟨b.data.set c comp, b.pos + size⟩)

/-- A block whose first component holds everything is read there. -/
def get (offset : Nat) : Option UInt8 :=
  if (b.component 0).length = faststdbBlockSize then (b.component 0)[offset]?
  else (b.component (offset / componentSize))[offset % componentSize]?

end

instance : BlockRW IOVecBlock where
  size b := b.pos
  spaceLeft b := faststdbBlockSize - b.pos
  put := put
  putBase128 b value := putDigits safePut 10 value b
  setWritePos b pos := { b with pos := pos }
  allocate := allocate
  get := get
  load b ptr := (b.component (ptr / componentSize)).getD (ptr % componentSize) 0
  store b ptr val :=
    { b with
      data := b.data.set (ptr / componentSize)
        ((b.component (ptr / componentSize)).set (ptr % componentSize) val) }

/-- The block a `MemStore` hands out for a stored one: all components, in one piece. -/
def contiguous (b : IOVecBlock) : IOVecBlock :=
  ⟨b.data.flatMap resized :: List.replicate (ncomponents - 1) [], faststdbBlockSize⟩

end IOVecBlock
end Scatter

/-! ## Block writers -/

namespace Codec
variable {B : Type} [BlockRW B]

/-- The u16 behind a pointer. -/
def load16 (b : B) (ptr : Nat) : Nat := ofLe [BlockRW.load b ptr, BlockRW.load b (ptr + 1)]

def store16 (b : B) (ptr n : Nat) : B :=
  BlockRW.store (BlockRW.store b ptr (.ofNat n)) (ptr + 1) (.ofNat (n / 256))

/-- `nchunks` and `ntail` are pointers into the header. -/
structure BlockWriter (B : Type) where
  block : B
  prev : UInt64
  predictor : DfcmPredictor
  writeIndex : Nat
  writebuf : List Point
  nchunks : Nat
  ntail : Nat

namespace BlockWriter

/-- Write the header: the constructor of `DataBlockWriter`, `IOVecBlockWriter::init`. -/
def new (id : ParamId) (block : B) : Option (BlockWriter B) :=
  let (version, b) := putRaw block 2 faststdbVersion
  (BlockRW.allocate b 2).bind fun (nchunks, b) =>
    (BlockRW.allocate b 2).bind fun (ntail, b) =>
      let (series, b) := putRaw b 8 id.toNat
      if version && series then
        some ⟨store16 (store16 b ntail 0) nchunks 0, 0, .init, 0, [], nchunks, ntail⟩
      else none

def roomForChunk (w : BlockWriter B) : Bool :=
  !decide (BlockT.spaceLeft w.block < IOVecBlockWriter.margin)

/-- `*ntail_ += 1` and `*nchunks_ += 1` -/
def increment (b : B) (ptr : Nat) : B := store16 b ptr ((load16 b ptr + 1) % 2 ^ 16)

def putChunk (w : BlockWriter B) (buf : List Point) : Status × BlockWriter B :=
  match deltaDeltaTput w.prev (buf.map Point.ts) w.block with
  | (false, prev, block) => (.overflow, { w with block, prev })
  | (true, prev, block) =>
    match fcmTput w.predictor (buf.map Point.value) block with
    | (false, predictor, block) => (.overflow, { w with block, prev, predictor })
    | (true, predictor, block) =>
      (.ok, { w with block := increment block w.nchunks, prev, predictor })

def put (w : BlockWriter B) (p : Point) : Status × BlockWriter B :=
  if w.roomForChunk then
    let buf := w.writebuf ++ [p]
    let w := { w with writeIndex := w.writeIndex + 1, writebuf := buf }
    if w.writeIndex % chunkSize = 0 then putChunk { w with writebuf := [] } buf
    else (.ok, w)
  else
    match putPoint w.block p with
    | (true, block) => (.ok, { w with block := increment block w.ntail })
    | (false, block) => (.overflow, { w with block })

def flushTail : List Point → BlockWriter B → BlockWriter B
  | [], w => w
  | p :: ps, w =>
    match putPoint w.block p with
    | (true, block) =>
      flushTail ps { w with block := increment block w.ntail, writeIndex := w.writeIndex - 1 }
    | (false, block) => { w with block }

def commit (w : BlockWriter B) : Option (Nat × BlockWriter B) :=
  let nchunks := w.writeIndex / chunkSize
  if w.writeIndex % chunkSize ≠ 0 ∧ load16 w.block w.ntail ≠ 0 then none
  else
    let w := { flushTail w.writebuf w with writebuf := [] }
    let w := { w with block := store16 w.block w.nchunks (nchunks % 2 ^ 16) }
    some (BlockT.size w.block, w)

/-- Offer points until one is refused; the statuses, and the writer. -/
def putAll (w : BlockWriter B) : List Point → List Status × BlockWriter B
  | [] => ([], w)
  | p :: ps =>
    match w.put p with
    | (.ok, w) => (.ok :: (w.putAll ps).1, (w.putAll ps).2)
    | (status, w) => ([status], w)

end BlockWriter

/-! ## Stream readers -/

structure VByteStreamReader (B : Type) where
  block : B
  pos : Nat
  cnt : Nat
  ctrl : Nat
  scutElements : Nat

namespace VByteStreamReader

def spaceLeft (s : VByteStreamReader B) : Nat := BlockT.size s.block - s.pos

/-- The bytes of `get_raw`. -/
def getBytes (b : B) : Nat → Nat → Option (List UInt8)
  | _, 0 => some []
  | pos, n + 1 => (BlockRW.get b pos).bind fun byte => (getBytes b (pos + 1) n).map (byte :: ·)

def readRaw (s : VByteStreamReader B) (w : Nat) : Option (Nat × VByteStreamReader B) :=
  if s.spaceLeft < w then none
  else (getBytes s.block s.pos w).map fun bytes => (ofLe bytes, { s with pos := s.pos + w })

/-- The byte loop of `next`. -/
def accBytes (b : B) : Nat → Nat → Nat → Nat → Option Nat
  | 0, _, acc, _ => some acc
  | n + 1, i, acc, pos =>
    (BlockRW.get b pos).bind fun byte =>
      accBytes b n (i + 8) (acc ||| (byte.toNat <<< i) % 2 ^ 64) (pos + 1)

def nextBytes (s : VByteStreamReader B) (bytelen : Nat) : Option (UInt64 × VByteStreamReader B) :=
  if s.spaceLeft < bytelen then none
  else (accBytes s.block bytelen 0 0 s.pos).map fun acc =>
    (.ofNat acc, { s with pos := s.pos + bytelen })

def next (s : VByteStreamReader B) : Option (UInt64 × VByteStreamReader B) :=
  if s.ctrl = 0xFF ∧ s.scutElements ≠ 0 then
    some (0, { s with scutElements := s.scutElements - 1, cnt := s.cnt + 1 })
  else if s.cnt % 2 = 0 then
    (s.readRaw 1).bind fun (ctrl, s) =>
      let s := { s with ctrl, cnt := s.cnt + 1 }
      if ctrl / 16 = 0xF then some (0, { s with scutElements := chunkSize - 1 })
      else s.nextBytes (ctrl % 16)
  else ({ s with cnt := s.cnt + 1 } : VByteStreamReader B).nextBytes (s.ctrl / 16)

/-- `Base128Int::get`, with so many bytes left: the value and the position behind it. -/
def getBase128 (b : B) : Nat → Nat → Nat → Nat → Option (Nat × Nat)
  | 0, _, _, _ => none
  | left + 1, acc, cnt, pos =>
    (BlockRW.get b pos).bind fun byte =>
      let acc := acc ||| ((byte.toNat % 128) <<< cnt) % 2 ^ 64
      if byte.toNat / 128 = 0 then some (acc, pos + 1)
      else getBase128 b left acc (cnt + 7) (pos + 1)

def nextBase128 (s : VByteStreamReader B) : Option (UInt64 × VByteStreamReader B) :=
  (getBase128 s.block s.spaceLeft 0 0 s.pos).map fun (acc, pos) =>
    (.ofNat acc, { s with pos })

end VByteStreamReader

def deltaDeltaNext (r : DeltaDeltaStreamReader) (s : VByteStreamReader B) :
    Option (UInt64 × DeltaDeltaStreamReader × VByteStreamReader B) :=
  (if r.counter % 16 = 0 then s.nextBase128 else some (r.min, s)).bind fun (min, s) =>
    s.next.bind fun (delta, s) =>
      let value := r.prev + delta + min
      some (value, ⟨value, min, r.counter + 1⟩, s)

/-- The loop of `decode_value`. -/
def decodeBytes : Nat → Nat → Nat → VByteStreamReader B → Option (Nat × VByteStreamReader B)
  | 0, _, diff, s => some (diff, s)
  | n + 1, i, diff, s =>
    (s.readRaw 1).bind fun (delta, s) =>
      decodeBytes n (i + 8) (diff ||| (delta <<< i) % 2 ^ 64) s

def decodeValue (s : VByteStreamReader B) (flag : Nat) : Option (UInt64 × VByteStreamReader B) :=
  let nbytes := flag % 8 + 1
  let shiftWidth := (64 - nbytes * 8) * (flag / 8)
  (decodeBytes nbytes 0 0 s).map fun (diff, s) => (.ofNat (diff * 2 ^ shiftWidth), s)

section
variable (r : FcmStreamReader) (s : VByteStreamReader B)

def fcmNextFlag : Option (Nat × FcmStreamReader × VByteStreamReader B) :=
  if r.iter % 2 = 0 ∧ r.nzeroes = 0 then
    (s.readRaw 1).bind fun (flags, s) =>
      let nzeroes := if flags = 0xFF then 16 else r.nzeroes
      some (flags / 16, { r with flags, nzeroes, iter := r.iter + 1 }, s)
  else some (r.flags % 16, { r with iter := r.iter + 1 }, s)

def fcmNext : Option (UInt64 × FcmStreamReader × VByteStreamReader B) :=
  (fcmNextFlag r s).bind fun (flag, r, s) =>
    (if r.nzeroes = 0 then (decodeValue s flag).map fun (diff, s) => (diff, r.nzeroes, s)
     else some (0, r.nzeroes - 1, s)).bind fun (diff, nzeroes, s) =>
      let bits := r.predictor.predictNext ^^^ diff
      some (bits, { r with nzeroes, predictor := r.predictor.update bits }, s)

end

/-! ## Block readers -/

/-- `begin_` is the start of the block. -/
structure BlockReader (B : Type) where
  stream : VByteStreamReader B
  tsStream : DeltaDeltaStreamReader
  valStream : FcmStreamReader
  readBuffer : List Timestamp
  readIndex : Nat

namespace BlockReader

def new (block : B) : BlockReader B where
  stream := ⟨block, blockHeaderSize, 0, 0, 0⟩
  tsStream := ⟨0, 0, 0⟩
  valStream := ⟨.init, 0, 0, 0⟩
  readBuffer := []
  readIndex := 0

def mainSize (r : BlockReader B) : Nat := load16 r.stream.block 2 * chunkSize

def nelements (r : BlockReader B) : Nat :=
  load16 r.stream.block 4 + load16 r.stream.block 2 * chunkSize

def readTimestamps : Nat → DeltaDeltaStreamReader → VByteStreamReader B →
    Option (List Timestamp × DeltaDeltaStreamReader × VByteStreamReader B)
  | 0, d, s => some ([], d, s)
  | n + 1, d, s =>
    (deltaDeltaNext d s).bind fun (ts, d, s) =>
      (readTimestamps n d s).map fun (tss, d, s) => (ts :: tss, d, s)

def next (r : BlockReader B) : Option (Status × Point × BlockReader B) :=
  if r.readIndex < r.mainSize then
    let chunkIndex := r.readIndex % chunkSize
    let r := { r with readIndex := r.readIndex + 1 }
    (if chunkIndex = 0 then
      (readTimestamps chunkSize r.tsStream r.stream).map fun (tss, tsStream, stream) =>
        { r with readBuffer := tss, tsStream, stream }
     else some r).bind fun r =>
      (fcmNext r.valStream r.stream).bind fun (value, valStream, stream) =>
        some (.ok, ⟨r.readBuffer.getD chunkIndex 0, value⟩, { r with valStream, stream })
  else if r.readIndex < r.nelements then
    (r.stream.readRaw 8).bind fun (ts, stream) =>
      (stream.readRaw 8).bind fun (value, stream) =>
        some (.ok, ⟨.ofNat ts, .ofNat value⟩, { r with stream, readIndex := r.readIndex + 1 })
  else some (.noData, ⟨0, 0⟩, r)

/-- The results of `n` calls of `next`. -/
def nextN : Nat → BlockReader B → Option (List (Status × Point))
  | 0, _ => some []
  | n + 1, r => r.next.bind fun (status, p, r) => (r.nextN n).map ((status, p) :: ·)

end BlockReader
end Codec

/-! ## The two codecs -/

abbrev DataBlockWriter := Codec.BlockWriter DataBuffer
abbrev DataBlockReader := Codec.BlockReader DataBuffer

/-- `DataBlockWriter(id, buf, size)`, for a buffer of that size. -/
def DataBlockWriter.new (id : ParamId) (buf : List UInt8) : Option DataBlockWriter :=
  Codec.BlockWriter.new id ⟨buf, 0⟩

def DataBlockReader.new (buf : List UInt8) (bufsize : Nat) : DataBlockReader :=
  Codec.BlockReader.new ⟨buf, bufsize⟩

namespace Scatter

abbrev IOVecBlockWriter := Codec.BlockWriter IOVecBlock
abbrev IOVecBlockReader := Codec.BlockReader IOVecBlock

/-- `IOVecBlockWriter(block)` and `init(id)`, for a new block. -/
def IOVecBlockWriter.new (id : ParamId) : Option IOVecBlockWriter :=
  Codec.BlockWriter.new id .new

def IOVecBlockReader.new (block : IOVecBlock) : IOVecBlockReader := Codec.BlockReader.new block

end Scatter
end FastSTDB
