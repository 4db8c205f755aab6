import FastSTDB.Types

/-
  Samples — what queries put out (`common/types.h`)

  A buffer of samples is a list of them; positions in a buffer are in bytes, so
  that what fits is decided as the source decides it. The flags of a payload say
  which of three forms it has.

  Correspondence (C++ ↔ Lean):
    `PData`                          ↔ `PData`, one constructor for each payload
    `Sample`, `payload.size`         ↔ `Sample`, `PData.size`
    `sizeof(Sample)`                 ↔ `sampleSize`
-/
namespace FastSTDB

/-- Two u64, a double and two u16 that are padded to eight bytes. -/
def sampleSize : Nat := 32

def sizeofDouble : Nat := 8

/-- `PAYLOAD_FLOAT`, `PAYLOAD_TUPLE` (its `float64` holds the number of elements and
the bitmap) and `PAYLOAD_EVENT`. -/
inductive PData where
  | float (float64 : UInt64)
  | tuple (float64 : UInt64) (data : List UInt64)
  | event (data : List UInt8)
  deriving DecidableEq, Repr

/-- Bytes a payload takes together with the header of its sample. -/
def PData.space : PData → Nat
  | float _ => sampleSize
  | tuple _ data => sampleSize + data.length * sizeofDouble
  | event data => sampleSize + data.length

/-- `payload.size`, a u16. -/
def PData.size (p : PData) : Nat := p.space % 2 ^ 16

structure Sample where
  timestamp : Timestamp
  paramid : ParamId
  payload : PData
  deriving DecidableEq, Repr

def bufferBytes (samples : List Sample) : Nat := (samples.map (·.payload.space)).sum

end FastSTDB
