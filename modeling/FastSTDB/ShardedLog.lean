import FastSTDB.Lib.Merging
import FastSTDB.InputLog

/-
  Sharded input log — several logs with one sequencer

  Each writing thread has a log of its own (a shard). All of them take the numbers of
  their frames from one sequencer, and a reader merges the shards again: it holds one
  frame of each, delivers the one with the least number and then refills that shard.

  Correspondence (C++ ↔ Lean):
    `ShardedInputLog` (writing)            ↔ `ShardedInputLog`, `getShard`
    `ShardedInputLog` (reading)            ↔ `ShardedReader`
    `ShardedInputLog::Buffer`              ↔ `ShardedReader.Buffer`
    `init_read_buffers`, `refill_buffer`   ↔ `initReadBuffers`, `refillBuffer`
    `read_next(buffer_size, rows)`         ↔ `readNext`, with its loop `readLoop`
    `buffer_ix_ < 0`                       ↔ `bufferIx = none`
  The loop has fuel; without it, and where the code would read through a null pointer,
  there is no answer.
-/
namespace FastSTDB
variable {σ δ : Type}

/-! ## Writing -/

/-- A shard is created when it is first asked for. -/
structure ShardedInputLog (σ : Type) where
  streams : List (Option (InputLog σ))
  sequencer : Nat
  maxVolumes : Nat
  volumeSize : Nat

namespace ShardedInputLog

def new (concurrency maxVolumes volumeSize : Nat) : ShardedInputLog σ :=
  ⟨List.replicate concurrency none, 0, maxVolumes, volumeSize⟩

def getShard (lz4 : Lz4 σ δ) (i : Nat) (s : ShardedInputLog σ) : InputLog σ :=
  (s.streams[i % s.streams.length]?.join).getD (.new lz4 s.maxVolumes s.volumeSize)

def call (lz4 : Lz4 σ δ) (i : Nat) (op : LogOp) (s : ShardedInputLog σ) : ShardedInputLog σ :=
  let (log, sequencer) := op.step lz4 (s.getShard lz4 i, s.sequencer)
  { s with streams := s.streams.set (i % s.streams.length) (some log), sequencer }

def files (s : ShardedInputLog σ) : List (List (Nat × List UInt8)) :=
  s.streams.map fun log => (log.map InputLog.files).getD []

end ShardedInputLog

def runShards (lz4 : Lz4 σ δ) (ops : List (Nat × LogOp)) (s : ShardedInputLog σ) :
    ShardedInputLog σ := ops.foldl (fun s op => s.call lz4 op.1 op.2) s

def flushAll (concurrency : Nat) : List (Nat × LogOp) :=
  (List.range concurrency).map fun i => (i, .flush)

/-! ## Reading -/

structure ShardedReader.Buffer where
  pos : Nat
  status : Status
  frame : Option LogFrame

/-- The number of the frame, if there is one with records. -/
def ShardedReader.Buffer.sequence? (buffer : ShardedReader.Buffer) : Option Nat :=
  if buffer.status = .ok then
    buffer.frame.bind fun frame => if frame.size ≠ 0 then some frame.sequenceNumber else none
  else none

structure ShardedReader (δ : Type) where
  streams : List (LogReader δ)
  readQueue : List ShardedReader.Buffer
  readStarted : Bool
  bufferIx : Option Nat

def openShards (lz4 : Lz4 σ δ) (dirs : List (List (Nat × List UInt8))) : ShardedReader δ :=
  ⟨dirs.map (openLog lz4), [], false, none⟩

namespace ShardedReader
variable (lz4 : Lz4 σ δ)

/-- The next frame of a shard. -/
def nextBuffer (stream : LogReader δ) : Buffer × LogReader δ :=
  let ((status, frame), stream) := stream.readNextFrame lz4
  (⟨0, status, frame⟩, stream)

def initReadBuffers (s : ShardedReader δ) : ShardedReader δ :=
  let buffers := s.streams.map (nextBuffer lz4)
  ⟨buffers.map Prod.snd, buffers.map Prod.fst, true, none⟩

def chooseNext (s : ShardedReader δ) : Option Nat :=
  Merging.least (s.readQueue.map Buffer.sequence?)

def refillBuffer (ix : Nat) (s : ShardedReader δ) : ShardedReader δ :=
  match s.streams[ix]? with
  | none => s
  | some stream =>
    let (buffer, stream) := nextBuffer lz4 stream
    { s with streams := s.streams.set ix stream, readQueue := s.readQueue.set ix buffer }

def readLoop : Nat → Nat → List InputLogRow → ShardedReader δ →
    Option ((Status × List InputLogRow) × ShardedReader δ)
  | 0, _, _, _ => none
  | fuel + 1, n, out, s =>
    match s.bufferIx with
    | none => some ((.ok, out), s)
    | some ix =>
      if n = 0 then some ((.ok, out), s)
      else
        (s.readQueue[ix]?).bind fun buffer => buffer.frame.bind fun frame =>
          if buffer.pos < frame.size then
            let toread := min (frame.size - buffer.pos) n
            match frame.rowsFrom buffer.pos toread with
            | some rows =>
              let buffer := { buffer with pos := buffer.pos + toread }
              readLoop fuel (n - toread) (out ++ rows)
                { s with readQueue := s.readQueue.set ix buffer }
            | none => some ((.badData, []), s)
          else
            let s := s.refillBuffer lz4 ix
            match s.chooseNext with
            | none => some ((.noData, out), { s with bufferIx := none })
            | some ix => readLoop fuel n out { s with bufferIx := some ix }

def readNext (fuel n : Nat) (s : ShardedReader δ) :
    Option ((Status × List InputLogRow) × ShardedReader δ) :=
  let n := min (2 ^ 32 - 1) n
  let s := if s.readStarted then s else s.initReadBuffers lz4
  match s.bufferIx with
  | some _ => s.readLoop lz4 fuel n []
  | none =>
    match s.chooseNext with
    | none => some ((.noData, []), s)
    | some ix => readLoop lz4 fuel n [] { s with bufferIx := some ix }

def reader (fuel : Nat) : Pull.Reader Status InputLogRow (ShardedReader δ) Unit := fun _ s n =>
  (s.readNext lz4 fuel n).map fun r => ⟨r.1.1, r.1.2, r.2, ()⟩

end ShardedReader

end FastSTDB
