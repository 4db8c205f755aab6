import FastSTDB.Merge

/-
  Join materializer — `JoinMaterializer` (`operators/join.cc`)

  A join reads a merge of its series into a buffer and puts the samples of one
  timestamp together into a tuple. The merge is stable and compares timestamps
  only, so that the series of one timestamp are expected in their own order.

  Correspondence (C++ ↔ Lean):
    `JoinMaterializer`                ↔ `Join σ`; `buffer` is `buffer_` from
                                         `buffer_pos_` to `buffer_size_`
    `fill_buffer`                     ↔ `Join.fillBuffer`
    the inner loop of `read`          ↔ `joinTuple`, which ends in a `TupleEnd`
    the outer loop, `read`            ↔ `joinLoop`, `Join.read`
    `ctrl`                            ↔ a `UInt64`: the bits of the series that are
                                         present, the number of series from bit 58 on

  All samples of the merge take `sizeof(Sample)` bytes, so the buffer holds less
  than a sample only if it is empty.
-/
namespace FastSTDB

variable {σ Φ : Type}

def joinBufferSize : Nat := 0x1000

structure Join (σ : Type) where
  merge : Merge Point σ
  origIds : List ParamId
  id : ParamId
  curr : Timestamp
  buffer : List Sample

def Join.new (ids : List ParamId) (iters : List σ) (id : ParamId) (forward : Bool) : Join σ :=
  ⟨.new ids iters forward, ids, id, minTimestamp, []⟩

def Join.maxSampleSize (j : Join σ) : Nat := sampleSize + sizeofDouble * j.origIds.length

def PData.float64 : PData → UInt64
  | float bits => bits
  | tuple bits _ => bits
  | event _ => 0

section Read
variable (rd : Pull.Reader Status Point σ Φ)

/-- The merge of a join: `MergeMaterializer<MergeJoinOrder, true>`. -/
def joinMerge (φ : Φ) (st : Merge Point σ) (size : Nat) : Option (Reply Sample (Merge Point σ) Φ) :=
  st.kwayMerge .real rd .join Merging.stablePop φ size

def Join.fillBuffer (φ : Φ) (j : Join σ) : Option (Status × Join σ × Φ) :=
  (joinMerge rd φ j.merge (joinBufferSize - bufferBytes j.buffer)).map fun r =>
    let buffer := if r.status = .ok ∨ r.status = .noData then j.buffer ++ r.out else j.buffer
    (r.status, { j with merge := r.next, buffer := buffer }, r.env)

/-- How the inner loop ends. -/
inductive TupleEnd (σ Φ : Type) where
  | tuple (j : Join σ) (φ : Φ) (ctrl : UInt64) (values : List UInt64)
  | noData (j : Join σ) (φ : Φ)
  | failed (status : Status) (j : Join σ) (φ : Φ)

/-- The inner loop, for the series from number `i` on. -/
def joinTuple : List ParamId → Nat → Φ → Join σ → UInt64 → List UInt64 →
    Option (TupleEnd σ Φ)
  | [], _, φ, j, ctrl, values => some (.tuple j φ ctrl values)
  | id :: ids, i, φ, j, ctrl, values =>
    (if j.buffer.isEmpty then j.fillBuffer rd φ else some (.ok, j, φ)).bind
      fun (status, j, φ) =>
        if status ≠ .ok ∧ status ≠ .noData then some (.failed status j φ)
        else
          match j.buffer with
          | [] => some (.noData j φ)
          | s :: buffer =>
            if s.paramid ≠ id then joinTuple ids (i + 1) φ j ctrl values
            else if values ≠ [] ∧ j.curr ≠ s.timestamp then some (.tuple j φ ctrl values)
            else
              joinTuple ids (i + 1) φ { j with curr := s.timestamp, buffer := buffer }
                (ctrl ||| (1 <<< UInt64.ofNat i)) (values ++ [s.payload.float64])

/-- The outer loop: tuples are put out as long as a full one fits. -/
def joinLoop : Nat → Φ → Join σ → Nat → Nat → List Sample → Option (Reply Sample (Join σ) Φ)
  | 0, _, _, _, _, _ => none
  | fuel + 1, φ, j, size, pos, out =>
    if pos < size - j.maxSampleSize then
      (joinTuple rd j.origIds 0 φ j 0 []).bind fun
        | .failed status j φ => some ⟨status, [], j, φ⟩
        | .noData j φ => some ⟨.noData, out, j, φ⟩
        | .tuple j φ ctrl values =>
          let ctrl := ctrl ||| (UInt64.ofNat j.origIds.length <<< 58)
          joinLoop fuel φ j size (pos + (sampleSize + values.length * sizeofDouble))
            (out ++ [⟨j.curr, j.id, .tuple ctrl values⟩])
    else some ⟨.ok, out, j, φ⟩

/-- `read`; with a smaller buffer the subtraction in the source wraps around. -/
def Join.read (φ : Φ) (j : Join σ) (size : Nat) : Option (Reply Sample (Join σ) Φ) :=
  if size < j.maxSampleSize then none else joinLoop rd (size + 1) φ j size 0 []

end Read
end FastSTDB
