import FastSTDB.LogFrame
import FastSTDB.Lib.Pull
import Mathlib.Data.List.Sort

/-
  Input log — volumes of compressed frames, written by one session and read for recovery

  A volume collects records in a frame. The frame is compressed and written when it is
  full, when a record of another type comes, and, for blobs, when less than 64 bytes
  are left. A log is a list of volumes, the newest first: appends go to the newest one,
  and `rotate` adds a volume and, at the limit, removes the oldest with its file.

  To read a log its files are opened in the order of their numbers. A volume gives the
  records of one frame after the other; when it gives none, it is taken to be at its
  end.

  LZ4 is a parameter (`Lz4`): a stream compresses one block after the other, and what
  it is to be lossless is `Lz4.Lossless`. Writing to files succeeds. The two frames of a
  volume are needed by LZ4 only, so there is one frame here; `sequencer` is passed from
  call to call, and so is shared by the logs that use it. A volume is opened for
  reading when the log is; nothing is written to it afterwards.

  Correspondence (C++ ↔ Lean):
    `LogSequencer`                              ↔ a number that is passed on
    `LZ4Volume::write`, `close`, `flush`, …     ↔ `LZ4Volume.write`, `close`, `flush`, …
    `LZ4Volume::append`, `append_blob`          ↔ `LZ4Volume.append`, `appendBlob`
    `roaring::Roaring64Map`                     ↔ the sorted list of its elements
    `InputLog::append`, `rotate`, `flush`       ↔ `InputLog.append`, `rotate`, `flush`
    `_read_frame`, `LZ4Volume::read`            ↔ `readFrame`, `VolumeReader.read`
    `LZ4Volume::read_next`, `read_next_frame`   ↔ `VolumeReader.readNext`, `readNextFrame`
    `InputLog::find_volumes`, `open_volumes`    ↔ `openLog`
    `InputLog::read_next`, `read_next_frame`    ↔ `LogReader.readNext`, `readNextFrame`
-/
namespace FastSTDB
open Cells Bytes

/-! ## LZ4 -/

/-- Compression and decompression of a stream of blocks. -/
structure Lz4 (σ δ : Type) where
  start : σ
  startDecode : δ
  compress : σ → List UInt8 → List UInt8 × σ
  decompress : δ → List UInt8 → Option (List UInt8 × δ)

def lz4Bound : Nat := logBlockSize + logBlockSize / 255 + 16

/-- The blocks come back as they were, in the order in which they were compressed. -/
structure Lz4.Lossless {σ δ : Type} (lz4 : Lz4 σ δ) (synced : σ → δ → Prop) : Prop where
  start : synced lz4.start lz4.startDecode
  pos : ∀ s block, block.length = logBlockSize → 0 < (lz4.compress s block).1.length
  bound : ∀ s block, block.length = logBlockSize → (lz4.compress s block).1.length ≤ lz4Bound
  block : ∀ s d block, synced s d → block.length = logBlockSize →
    ∃ d', lz4.decompress d (lz4.compress s block).1 = some (block, d') ∧
      synced (lz4.compress s block).2 d'

variable {σ δ : Type}

/-! ## Volumes -/

structure LZ4Volume (σ : Type) where
  frame : LogFrame
  stream : σ
  file : List UInt8
  fileSize : Nat
  maxFileSize : Nat
  bitmap : List ParamId

namespace LZ4Volume
variable (lz4 : Lz4 σ δ)

def new (volumeSize : Nat) : LZ4Volume σ := ⟨.cleared, lz4.start, [], 0, volumeSize, []⟩

/-- The current frame gets a number and is written. -/
def write (v : LZ4Volume σ) (seq : Nat) : LZ4Volume σ × Nat :=
  let frame := v.frame.stamped seq
  let (out, stream) := lz4.compress v.stream (load frame 0 logBlockSize)
  ({ v with
      frame, stream
      file := v.file ++ (leBytes 4 out.length ++ out)
      fileSize := v.fileSize + (4 + out.length) }, seq + 1)

section
variable (type : FrameType) (v : LZ4Volume σ) (seq : Nat)

def flushCurrentFrame : LZ4Volume σ × Nat :=
  let (v, seq) := v.write lz4 seq
  ({ v with frame := .setFrameType type .cleared }, seq)

def requireFrameType : LZ4Volume σ × Nat :=
  if v.frame.frameType = some .empty then
    ({ v with frame := .setFrameType type v.frame }, seq)
  else if v.frame.frameType ≠ some type then v.flushCurrentFrame lz4 type seq
  else (v, seq)

end

def addId (id : ParamId) (bitmap : List ParamId) : List ParamId :=
  if id ∈ bitmap then bitmap else bitmap.orderedInsert (· ≤ ·) id

def room (v : LZ4Volume σ) : Status := if v.maxFileSize ≤ v.fileSize then .overflow else .ok

def appendPoint (id : ParamId) (point : Point) (v : LZ4Volume σ) (seq : Nat) :
    Status × LZ4Volume σ × Nat :=
  let (v, seq) := v.requireFrameType lz4 .dataEntry seq
  let v := { v with bitmap := addId id v.bitmap, frame := v.frame.pushPoint id point }
  let (v, seq) :=
    if v.frame.size = numTuples then
      let (v, seq) := v.write lz4 seq
      ({ v with frame := .cleared }, seq)
    else (v, seq)
  (v.room, v, seq)

def sizeThreshold : Nat := 64

def appendBlob (type : FrameType) (id : ParamId) (bytes : List UInt8) (v : LZ4Volume σ)
    (seq : Nat) : Status × LZ4Volume σ × Nat :=
  let (v, seq) := v.requireFrameType lz4 type seq
  let (v, seq) :=
    if v.frame.canWrite bytes.length then (v, seq) else v.flushCurrentFrame lz4 type seq
  let v := { v with frame := v.frame.append id bytes }
  let (v, seq) :=
    if v.frame.canWrite sizeThreshold then (v, seq) else v.flushCurrentFrame lz4 type seq
  (v.room, v, seq)

def append (row : InputLogRow) (v : LZ4Volume σ) (seq : Nat) : Status × LZ4Volume σ × Nat :=
  match row.payload with
  | .dataPoint point => v.appendPoint lz4 row.id point seq
  | .seriesName value => v.appendBlob lz4 .snameEntry row.id value seq
  | .recoveryInfo data => v.appendBlob lz4 .recoveryEntry row.id (wordsBytes data) seq

def close (v : LZ4Volume σ) (seq : Nat) : LZ4Volume σ × Nat :=
  if v.frame.size ≠ 0 then v.write lz4 seq else (v, seq)

def flush (v : LZ4Volume σ) (seq : Nat) : Status × LZ4Volume σ × Nat :=
  if v.frame.size ≠ 0 then
    let (v, seq) := v.write lz4 seq
    let v := { v with frame := .cleared }
    (v.room, v, seq)
  else (.ok, v, seq)

end LZ4Volume

/-! ## Logs -/

/-- The volumes, each with the number in the name of its file. -/
structure InputLog (σ : Type) where
  active : Nat × LZ4Volume σ
  older : List (Nat × LZ4Volume σ)
  volumeCounter : Nat
  maxVolumes : Nat
  volumeSize : Nat

namespace InputLog

section
variable (log : InputLog σ)

def volumes : List (Nat × LZ4Volume σ) := log.active :: log.older

def files : List (Nat × List UInt8) :=
  log.volumes.map fun v => (v.1, v.2.file)

/-- The ids of the oldest volume that are in no other. -/
def detectStaleIds : List ParamId :=
  match log.volumes.getLast? with
  | some last => last.2.bitmap.filter fun id =>
      !(log.volumes.dropLast.any fun v => decide (id ∈ v.2.bitmap))
  | none => []

/-- The stale ids, when the log is at its limit. -/
def staleIds (status : Status) : List ParamId :=
  if status = .overflow ∧ log.volumes.length = log.maxVolumes then log.detectStaleIds else []

end

variable (lz4 : Lz4 σ δ)

def new (maxVolumes volumeSize : Nat) : InputLog σ :=
  ⟨(0, .new lz4 volumeSize), [], 1, maxVolumes, volumeSize⟩

def append (row : InputLogRow) (log : InputLog σ) (seq : Nat) :
    (Status × List ParamId) × InputLog σ × Nat :=
  let (status, v, seq) := log.active.2.append lz4 row seq
  let log := { log with active := (log.active.1, v) }
  ((status, log.staleIds status), log, seq)

def flush (log : InputLog σ) (seq : Nat) : (Status × List ParamId) × InputLog σ × Nat :=
  let (status, v, seq) := log.active.2.flush lz4 seq
  let log := { log with active := (log.active.1, v) }
  ((status, log.staleIds status), log, seq)

/-- At the limit the oldest volume goes; the newest one is closed and gets a successor. -/
def rotate (log : InputLog σ) (seq : Nat) : InputLog σ × Nat :=
  let kept := if log.maxVolumes ≤ log.volumes.length then log.volumes.dropLast else log.volumes
  let log := { log with
    active := (log.volumeCounter, .new lz4 log.volumeSize)
    volumeCounter := log.volumeCounter + 1 }
  match kept with
  | [] => ({ log with older := [] }, seq)
  | v :: vs =>
    let (closed, seq) := v.2.close lz4 seq
    ({ log with older := (v.1, closed) :: vs }, seq)

end InputLog

/-! ## Reading -/

/-- A volume that is read: what is left of its file and of the current frame. -/
structure VolumeReader (δ : Type) where
  frame : LogFrame
  decode : δ
  rest : List UInt8
  bytesToRead : Int
  elementsToRead : Nat

/-- The size of the next frame and its bytes, at most `arraySize`. -/
def readFrame (arraySize : Nat) (rest : List UInt8) : Option (List UInt8 × List UInt8) :=
  if rest.length < 4 then none
  else
    let n := min arraySize (ofLe (rest.take 4))
    let body := rest.drop 4
    if body.length < n then none else some (body.take n, body.drop n)

namespace VolumeReader
variable (lz4 : Lz4 σ δ)

def openRo (file : List UInt8) : VolumeReader δ := ⟨.cleared, lz4.startDecode, file, file.length, 0⟩

/-- The next frame, and the bytes it took. -/
def read (r : VolumeReader δ) : Status × Nat × VolumeReader δ :=
  match readFrame lz4Bound r.rest with
  | none => (.ioError, 0, r)
  | some (bytes, rest) =>
    match lz4.decompress r.decode bytes with
    | none => (.badData, 0, { r with rest })
    | some (block, decode) =>
      (.ok, bytes.length + 4, { r with frame := store LogFrame.cleared 0 block, decode, rest })

/-- At most `n` records of the current frame. -/
def takeRows (n : Nat) (r : VolumeReader δ) : (Status × List InputLogRow) × VolumeReader δ :=
  let nvalues := min n r.elementsToRead
  match r.frame.rowsFrom (r.frame.size - r.elementsToRead) nvalues with
  | some rows => ((.ok, rows), { r with elementsToRead := r.elementsToRead - nvalues })
  | none => ((.badData, []), r)

def readNext (n : Nat) (r : VolumeReader δ) : (Status × List InputLogRow) × VolumeReader δ :=
  if r.elementsToRead = 0 then
    if r.bytesToRead ≤ 0 then ((.ok, []), r)
    else
      match r.read lz4 with
      | (.ok, bytes, r) =>
        takeRows n { r with
          bytesToRead := r.bytesToRead - bytes
          elementsToRead := r.frame.size }
      | (status, _, r) => ((status, []), r)
  else r.takeRows n

def readNextFrame (r : VolumeReader δ) : (Status × Option LogFrame) × VolumeReader δ :=
  if r.bytesToRead ≤ 0 then ((.ok, none), r)
  else
    match r.read lz4 with
    | (.ok, bytes, r) =>
      ((.ok, some r.frame), { r with bytesToRead := r.bytesToRead - bytes, elementsToRead := 0 })
    | (status, _, r) => ((status, none), r)

end VolumeReader

abbrev LogReader (δ : Type) := List (VolumeReader δ)

/-- The files of a directory, in the order of their numbers. -/
def openLog (lz4 : Lz4 σ δ) (dir : List (Nat × List UInt8)) : LogReader δ :=
  (dir.insertionSort fun a b => a.1 ≤ b.1).map fun file => .openRo lz4 file.2

namespace LogReader
variable (lz4 : Lz4 σ δ)

/-- A volume that gives no records is done with, whatever its status. -/
def readNext (n : Nat) : LogReader δ → (Status × List InputLogRow) × LogReader δ
  | [] => ((.ok, []), [])
  | v :: vs =>
    match v.readNext lz4 n with
    | ((status, rows), v) => if rows ≠ [] then ((status, rows), v :: vs) else readNext n vs

def readNextFrame : LogReader δ → (Status × Option LogFrame) × LogReader δ
  | [] => ((.noData, none), [])
  | v :: vs =>
    match v.readNextFrame lz4 with
    | ((.ok, none), _) => readNextFrame vs
    | ((.ok, some frame), v) => ((.ok, some frame), v :: vs)
    | ((status, _), v) => ((status, none), v :: vs)

/-- Reading as an operator that is asked for records. -/
def reader : Pull.Reader Status InputLogRow (LogReader δ) Unit := fun _ r n =>
  let ((status, rows), next) := r.readNext lz4 n
  some ⟨status, rows, next, ()⟩

end LogReader

/-! ## Runs -/

inductive LogOp where
  | append (row : InputLogRow)
  | rotate
  | flush

def LogOp.step (lz4 : Lz4 σ δ) : LogOp → InputLog σ × Nat → InputLog σ × Nat
  | .append row, (log, seq) => (log.append lz4 row seq).2
  | .rotate, (log, seq) => log.rotate lz4 seq
  | .flush, (log, seq) => (log.flush lz4 seq).2

def runLog (lz4 : Lz4 σ δ) (ops : List LogOp) (state : InputLog σ × Nat) : InputLog σ × Nat :=
  ops.foldl (fun state op => op.step lz4 state) state

end FastSTDB
