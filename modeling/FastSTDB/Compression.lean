import FastSTDB.Lib.Bytes
import FastSTDB.Types

/-
  Block codec — `IOVecBlock`, `IOVecBlockWriter` and `IOVecBlockReader`

  A leaf block holds its points as chunks of 16, timestamps delta-delta coded
  and values coded against a DFCM predictor, followed by points stored raw once
  a further chunk might not fit. Writers answer `(success, state)`; a write
  that fails half way leaves what it has written, as the source does. Readers
  answer `none` where the source logs FATAL (a read out of bounds).

  Correspondence (C++ ↔ Lean):
    `IOVecBlock`                     ↔ `IOVecBlock` (the bytes written so far
                                       after `base` header bytes; components
                                       are one flat array)
    `Base128Int::put / get`          ↔ `putDigits`, `nextBase128`
    `IOVecVByteStreamWriter`         ↔ `encode`, `tput`, over any block
    `DeltaDeltaStreamWriter::tput`   ↔ `deltaDeltaTput`
    `FcmStreamWriter`                ↔ `fcmEncode`, `encodeValue`, `fcmTput`
    the `*StreamReader` classes      ↔ the structures of the same name

  The pairwise `put`/`commit` entry points of the streams are not used by the
  block writer: their counters stay zero and `commit` returns true.
-/
namespace FastSTDB
open Bytes

/-! ## The block -/

/-- A block under construction: `base` bytes of headers, then the stream. -/
structure IOVecBlock where
  base : Nat
  bytes : List UInt8
  deriving DecidableEq

namespace IOVecBlock

def componentSize : Nat := 1024
def ncomponents : Nat := 4

section
variable (b : IOVecBlock)

def size : Nat := b.base + b.bytes.length

def spaceLeft : Nat := faststdbBlockSize - b.size

def put (val : UInt8) : IOVecBlock := { b with bytes := b.bytes ++ [val] }

def safePut (val : UInt8) : Bool × IOVecBlock :=
  if ncomponents ≤ b.size / componentSize then (false, b) else (true, b.put val)

end

def setWritePos (b : IOVecBlock) (pos : Nat) : IOVecBlock :=
  { b with bytes := b.bytes.take (pos - b.base) }

end IOVecBlock

/-- What a stream writer asks of a block. -/
class BlockT (B : Type) where
  /-- The write position; for a block that is read, its end. -/
  size : B → Nat
  spaceLeft : B → Nat
  put : B → UInt8 → B
  /-- `put_base128` of the stream over the block. -/
  putBase128 : B → Nat → Bool × B
  setWritePos : B → Nat → B

section
variable {B : Type}

/-- A write that fails ends the function. -/
def andThen (x : Bool × B) (f : B → Bool × B) : Bool × B :=
  match x with
  | (false, b) => (false, b)
  | (true, b) => f b

@[simp] theorem andThen_true (b : B) (f : B → Bool × B) : andThen (true, b) f = f b := rfl

@[simp] theorem andThen_false (b : B) (f : B → Bool × B) : andThen (false, b) f = (false, b) := rfl

/-- The loop of `Base128Int::put`, given how a byte is written if there is space; a 64-bit value
has at most ten digits. -/
def putDigits (safePut : B → UInt8 → Bool × B) : Nat → Nat → B → Bool × B
  | 0, _, b => (false, b)
  | fuel + 1, value, b =>
    let s := value % 128
    let value := value / 128
    let s := if value ≠ 0 then s + 128 else s
    andThen (safePut b (.ofNat s)) fun b =>
      if value = 0 then (true, b) else putDigits safePut fuel value b

instance : BlockT IOVecBlock where
  size := IOVecBlock.size
  spaceLeft := IOVecBlock.spaceLeft
  put := IOVecBlock.put
  putBase128 b value := putDigits IOVecBlock.safePut 10 value b
  setWritePos := IOVecBlock.setWritePos

/-! ## Stream writers -/

variable [BlockT B]

/-- `put<POD>`: the `w` bytes of `n`. -/
def putPod (b : B) : Nat → Nat → B
  | 0, _ => b
  | w + 1, n => putPod (BlockT.put b (.ofNat n)) w (n / 256)

def putRaw (b : B) (w n : Nat) : Bool × B :=
  if BlockT.spaceLeft b < w then (false, b) else (true, putPod b w n)

/-- `__builtin_clzll` on a nonzero 64-bit word. -/
def clzll (x : Nat) : Nat := 63 - Nat.log2 x

/-- Number of bytes stored for `x`, 0 to 8. -/
def ctrlLen (x : Nat) : Nat := 8 - (if x = 0 then 64 else clzll x) / 8

def encode (fst snd : UInt64) (b : B) : Bool × B :=
  let fstctrl := ctrlLen fst.toNat
  let sndctrl := ctrlLen snd.toNat
  let ctrlword := UInt8.ofNat (fstctrl + 16 * sndctrl)
  if BlockT.spaceLeft b < 1 + fstctrl + sndctrl then (false, b)
  else (true, putPod (putPod (BlockT.put b ctrlword) fstctrl fst.toNat) sndctrl snd.toNat)

def encodePairs : List UInt64 → B → Bool × B
  | fst :: snd :: rest, b => andThen (encode fst snd b) (encodePairs rest)
  | _, b => (true, b)

def shortcut (b : B) : Bool × B :=
  if BlockT.spaceLeft b = 0 then (false, b) else (true, BlockT.put b 0xFF)

/-- Transactional write of a chunk of words. -/
def tput (iter : List UInt64) (b : B) : Bool × B :=
  if iter.all (· == 0) then shortcut b
  else
    match encodePairs iter b with
    | (true, b') => (true, b')
    | (false, b') => (false, BlockT.setWritePos b' (BlockT.size b))

def deltas : UInt64 → List UInt64 → List UInt64
  | _, [] => []
  | prev, value :: rest => (value - prev) :: deltas value rest

def minDelta (prev : UInt64) (iter : List UInt64) : UInt64 :=
  (deltas prev iter).foldl (fun m r => if m < r then m else r) (iter.headD 0 - prev)

/-- `DeltaDeltaStreamWriter::tput`; the new `prev_` is the chunk's last value. -/
def deltaDeltaTput (prev : UInt64) (iter : List UInt64) (b : B) : Bool × UInt64 × B :=
  let mn := minDelta prev iter
  match BlockT.putBase128 b mn.toNat with
  | (false, b) => (false, iter.getLastD prev, b)
  | (true, b) =>
    let (ok, b) := tput ((deltas prev iter).map (· - mn)) b
    (ok, iter.getLastD prev, b)

end

/-! ## DFCM predictor -/

structure DfcmPredictor where
  table : List UInt64
  lastHash : UInt64
  lastValue : UInt64
  deriving DecidableEq

namespace DfcmPredictor

def predictorN : Nat := 128

def init : DfcmPredictor := ⟨List.replicate predictorN 0, 0, 0⟩

def predictNext (p : DfcmPredictor) : UInt64 := p.table.getD p.lastHash.toNat 0 + p.lastValue

def update (p : DfcmPredictor) (value : UInt64) : DfcmPredictor where
  table := p.table.set p.lastHash.toNat (value - p.lastValue)
  lastHash := ((p.lastHash <<< 5) ^^^ ((value - p.lastValue) >>> 50)) &&& 127
  lastValue := value

end DfcmPredictor

/-! ## Value writer -/

/-- `FcmStreamWriter::encode`: the difference to the prediction and its flag.
Bit 3 of a flag says that the high bytes are stored, bits 0 to 2 are their
number less one; flag 15 marks a zero difference. -/
def fcmEncode (p : DfcmPredictor) (bits : UInt64) : UInt64 × Nat × DfcmPredictor :=
  let diff := bits ^^^ p.predictNext
  let p := p.update bits
  if diff = 0 then (0, 0xF, p)
  else
    let trailingBytes := trailingZeros 64 diff.toNat / 8
    let leadingBytes := clzll diff.toNat / 8
    if leadingBytes < trailingBytes then
      let nbytes := 8 - trailingBytes
      let nbytes := if 0 < nbytes then nbytes - 1 else nbytes
      (diff, 8 + nbytes % 8, p)
    else
      let nbytes := 8 - leadingBytes
      let nbytes := if 0 < nbytes then nbytes - 1 else nbytes
      (diff, nbytes % 8, p)

/-- The widths of the raw writes the switch of `encode_value` makes. -/
def encodeWidths : Nat → List Nat
  | 8 => [8]
  | 7 => [1, 1, 1, 4]
  | 6 => [1, 1, 4]
  | 5 => [1, 4]
  | 4 => [4]
  | 3 => [1, 1, 1]
  | 2 => [1, 1]
  | _ => [1]

section
variable {B : Type} [BlockT B]

def putWidths : List Nat → Nat → B → Bool × B
  | [], _, b => (true, b)
  | w :: ws, diff, b => andThen (putRaw b w diff) (putWidths ws (diff / 256 ^ w))

def encodeValue (b : B) (diff : UInt64) (flag : Nat) : Bool × B :=
  let nbytes := flag % 8 + 1
  let nshift := (64 - nbytes * 8) * (flag / 8)
  putWidths (encodeWidths nbytes) (diff.toNat / 2 ^ nshift) b

/-- Differences and flags of a chunk. -/
def fcmEncodeAll : DfcmPredictor → List UInt64 → List (UInt64 × Nat) × DfcmPredictor
  | p, [] => ([], p)
  | p, v :: vs =>
    let (diff, flag, p) := fcmEncode p v
    let (rest, p) := fcmEncodeAll p vs
    ((diff, flag) :: rest, p)

/-- A zero difference is stored as one byte. -/
def storedFlag (flag : Nat) : Nat := if flag = 0xF then 0 else flag

def fcmPutPairs : List (UInt64 × Nat) → B → Bool × B
  | (prevDiff, prevFlag) :: (currDiff, currFlag) :: rest, b =>
    let currFlag := storedFlag currFlag
    let prevFlag := storedFlag prevFlag
    andThen (putRaw b 1 (prevFlag * 16 + currFlag)) fun b =>
      andThen (encodeValue b prevDiff prevFlag) fun b =>
        andThen (encodeValue b currDiff currFlag) (fcmPutPairs rest)
  | _, b => (true, b)

def fcmTput (p : DfcmPredictor) (values : List UInt64) (b : B) : Bool × DfcmPredictor × B :=
  let (coded, p) := fcmEncodeAll p values
  let (ok, b) :=
    if coded.all (fun c => c.1 == 0) then putRaw b 1 0xFF else fcmPutPairs coded b
  (ok, p, b)

def putPoint (b : B) (p : Point) : Bool × B :=
  andThen (putRaw b 8 p.ts.toNat) fun b => putRaw b 8 p.value.toNat

end

/-! ## Block writer -/

def chunkSize : Nat := 16
def subtreeRefSize : Nat := 110
def blockHeaderSize : Nat := 14

/-- `writebuf` holds the slots in use, the first `write_index_ & CHUNK_MASK`
ones; `nchunks` and `ntail` are fields of the block header. -/
structure IOVecBlockWriter where
  block : IOVecBlock
  prev : UInt64
  predictor : DfcmPredictor
  writeIndex : Nat
  writebuf : List Point
  nchunks : Nat
  ntail : Nat
  deriving DecidableEq

namespace IOVecBlockWriter

/-- A writer after `init` on a block that starts with a `SubtreeRef`. -/
def init : IOVecBlockWriter where
  block := ⟨subtreeRefSize + blockHeaderSize, []⟩
  prev := 0
  predictor := .init
  writeIndex := 0
  writebuf := []
  nchunks := 0
  ntail := 0

/-- Worst case of a chunk, as the source estimates it. -/
def margin : Nat := 10 * 16 + 9 * 16

def roomForChunk (w : IOVecBlockWriter) : Bool := !decide (w.block.spaceLeft < margin)

def putChunk (w : IOVecBlockWriter) (buf : List Point) : Status × IOVecBlockWriter :=
  match deltaDeltaTput w.prev (buf.map Point.ts) w.block with
  | (false, prev, block) => (.overflow, { w with block, prev })
  | (true, prev, block) =>
    match fcmTput w.predictor (buf.map Point.value) block with
    | (false, predictor, block) => (.overflow, { w with block, prev, predictor })
    | (true, predictor, block) =>
      (.ok, { w with block, prev, predictor, nchunks := w.nchunks + 1 })

def put (w : IOVecBlockWriter) (p : Point) : Status × IOVecBlockWriter :=
  if w.roomForChunk then
    let buf := w.writebuf ++ [p]
    let w := { w with writeIndex := w.writeIndex + 1, writebuf := buf }
    if w.writeIndex % chunkSize = 0 then putChunk { w with writebuf := [] } buf
    else (.ok, w)
  else
    match putPoint w.block p with
    | (true, block) => (.ok, { w with block, ntail := w.ntail + 1 })
    | (false, block) => (.overflow, { w with block })

/-- The buffered points go to the raw tail, one by one. -/
def flushTail : List Point → IOVecBlockWriter → IOVecBlockWriter
  | [], w => w
  | p :: ps, w =>
    match putPoint w.block p with
    | (true, block) =>
      flushTail ps { w with block, ntail := w.ntail + 1, writeIndex := w.writeIndex - 1 }
    | (false, block) => { w with block }

/-- `none` is "Write buffer is not empty but can't be flushed". The number
returned is the stream's size. -/
def commit (w : IOVecBlockWriter) : Option (Nat × IOVecBlockWriter) :=
  let nchunks := w.writeIndex / chunkSize
  if w.writeIndex % chunkSize ≠ 0 ∧ w.ntail ≠ 0 then none
  else
    let w := { flushTail w.writebuf w with writebuf := [] }
    some (w.block.size, { w with nchunks })

/-- The points not yet written to the stream. -/
def readTailElements (w : IOVecBlockWriter) : List Point := w.writebuf

end IOVecBlockWriter

/-! ## Readers -/

/-- `rest` are the bytes of the block from the read position on. -/
structure IOVecVByteStreamReader where
  rest : List UInt8
  cnt : Nat
  ctrl : Nat
  scutElements : Nat

namespace IOVecVByteStreamReader

def readRaw (s : IOVecVByteStreamReader) (w : Nat) : Option (Nat × IOVecVByteStreamReader) :=
  if s.rest.length < w then none
  else some (ofLe (s.rest.take w), { s with rest := s.rest.drop w })

/-- The byte loop of `next` and of `decode_value`. -/
def accBytes : Nat → Nat → Nat → List UInt8 → Option (Nat × List UInt8)
  | 0, _, acc, rest => some (acc, rest)
  | _ + 1, _, _, [] => none
  | n + 1, i, acc, byte :: rest => accBytes n (i + 8) (acc ||| (byte.toNat <<< i) % 2 ^ 64) rest

def nextBytes (s : IOVecVByteStreamReader) (bytelen : Nat) :
    Option (UInt64 × IOVecVByteStreamReader) :=
  (accBytes bytelen 0 0 s.rest).map fun (acc, rest) => (.ofNat acc, { s with rest })

def next (s : IOVecVByteStreamReader) : Option (UInt64 × IOVecVByteStreamReader) :=
  if s.ctrl = 0xFF ∧ s.scutElements ≠ 0 then
    some (0, { s with scutElements := s.scutElements - 1, cnt := s.cnt + 1 })
  else if s.cnt % 2 = 0 then
    (s.readRaw 1).bind fun (ctrl, s) =>
      let s := { s with ctrl, cnt := s.cnt + 1 }
      if ctrl / 16 = 0xF then some (0, { s with scutElements := chunkSize - 1 })
      else s.nextBytes (ctrl % 16)
  else ({ s with cnt := s.cnt + 1 } : IOVecVByteStreamReader).nextBytes (s.ctrl / 16)

def getBase128 : Nat → Nat → List UInt8 → Option (Nat × List UInt8)
  | _, _, [] => none
  | acc, cnt, byte :: rest =>
    let acc := acc ||| ((byte.toNat % 128) <<< cnt) % 2 ^ 64
    if byte.toNat / 128 = 0 then some (acc, rest) else getBase128 acc (cnt + 7) rest

def nextBase128 (s : IOVecVByteStreamReader) : Option (UInt64 × IOVecVByteStreamReader) :=
  (getBase128 0 0 s.rest).map fun (acc, rest) => (.ofNat acc, { s with rest })

end IOVecVByteStreamReader

structure DeltaDeltaStreamReader where
  prev : UInt64
  min : UInt64
  counter : Nat

def DeltaDeltaStreamReader.next (r : DeltaDeltaStreamReader) (s : IOVecVByteStreamReader) :
    Option (UInt64 × DeltaDeltaStreamReader × IOVecVByteStreamReader) :=
  (if r.counter % 16 = 0 then s.nextBase128 else some (r.min, s)).bind fun (min, s) =>
    s.next.bind fun (delta, s) =>
      let value := r.prev + delta + min
      some (value, ⟨value, min, r.counter + 1⟩, s)

structure FcmStreamReader where
  predictor : DfcmPredictor
  flags : Nat
  iter : Nat
  nzeroes : Nat

def decodeValue (s : IOVecVByteStreamReader) (flag : Nat) :
    Option (UInt64 × IOVecVByteStreamReader) :=
  let nbytes := flag % 8 + 1
  let shiftWidth := (64 - nbytes * 8) * (flag / 8)
  (IOVecVByteStreamReader.accBytes nbytes 0 0 s.rest).map fun (diff, rest) =>
    (.ofNat (diff * 2 ^ shiftWidth), { s with rest })

section
variable (r : FcmStreamReader) (s : IOVecVByteStreamReader)

/-- The control part of `FcmStreamReader::next`: the flag of this value. -/
def FcmStreamReader.nextFlag : Option (Nat × FcmStreamReader × IOVecVByteStreamReader) :=
  if r.iter % 2 = 0 ∧ r.nzeroes = 0 then
    (s.readRaw 1).bind fun (flags, s) =>
      let nzeroes := if flags = 0xFF then 16 else r.nzeroes
      some (flags / 16, { r with flags, nzeroes, iter := r.iter + 1 }, s)
  else some (r.flags % 16, { r with iter := r.iter + 1 }, s)

def FcmStreamReader.next : Option (UInt64 × FcmStreamReader × IOVecVByteStreamReader) :=
  (r.nextFlag s).bind fun (flag, r, s) =>
    (if r.nzeroes = 0 then (decodeValue s flag).map fun (diff, s) => (diff, r.nzeroes, s)
     else some (0, r.nzeroes - 1, s)).bind fun (diff, nzeroes, s) =>
      let bits := r.predictor.predictNext ^^^ diff
      some (bits, { r with nzeroes, predictor := r.predictor.update bits }, s)

end

/-- `nchunks` and `ntail` are read from the block header. -/
structure IOVecBlockReader where
  stream : IOVecVByteStreamReader
  tsStream : DeltaDeltaStreamReader
  valStream : FcmStreamReader
  readBuffer : List Timestamp
  readIndex : Nat
  nchunks : Nat
  ntail : Nat

namespace IOVecBlockReader

/-- A reader positioned after the block header. -/
def init (nchunks ntail : Nat) (bytes : List UInt8) : IOVecBlockReader where
  stream := ⟨bytes, 0, 0, 0⟩
  tsStream := ⟨0, 0, 0⟩
  valStream := ⟨.init, 0, 0, 0⟩
  readBuffer := []
  readIndex := 0
  nchunks := nchunks
  ntail := ntail

def mainSize (r : IOVecBlockReader) : Nat := r.nchunks * chunkSize

def nelements (r : IOVecBlockReader) : Nat := r.ntail + r.nchunks * chunkSize

def readTimestamps : Nat → DeltaDeltaStreamReader → IOVecVByteStreamReader →
    Option (List Timestamp × DeltaDeltaStreamReader × IOVecVByteStreamReader)
  | 0, d, s => some ([], d, s)
  | n + 1, d, s =>
    (d.next s).bind fun (ts, d, s) =>
      (readTimestamps n d s).map fun (tss, d, s) => (ts :: tss, d, s)

def next (r : IOVecBlockReader) : Option (Status × Point × IOVecBlockReader) :=
  if r.readIndex < r.mainSize then
    let chunkIndex := r.readIndex % chunkSize
    let r := { r with readIndex := r.readIndex + 1 }
    (if chunkIndex = 0 then
      (readTimestamps chunkSize r.tsStream r.stream).map fun (tss, tsStream, stream) =>
        { r with readBuffer := tss, tsStream, stream }
     else some r).bind fun r =>
      (r.valStream.next r.stream).bind fun (value, valStream, stream) =>
        some (.ok, ⟨r.readBuffer.getD chunkIndex 0, value⟩, { r with valStream, stream })
  else if r.readIndex < r.nelements then
    (r.stream.readRaw 8).bind fun (ts, stream) =>
      (stream.readRaw 8).bind fun (value, stream) =>
        some (.ok, ⟨.ofNat ts, .ofNat value⟩, { r with stream, readIndex := r.readIndex + 1 })
  else some (.noData, ⟨0, 0⟩, r)

/-- `n` calls of `next` that have to succeed: the loop of `read_all`. -/
def readN : Nat → IOVecBlockReader → Option (Status × List Point)
  | 0, _ => some (.ok, [])
  | n + 1, r =>
    r.next.bind fun (status, p, r) =>
      if status = .ok then (readN n r).map fun (status, ps) => (status, p :: ps)
      else some (status, [])

end IOVecBlockReader
end FastSTDB
