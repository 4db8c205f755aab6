import FastSTDB.Types
import FastSTDB.Lib.Cells

/-
  Log frames — the 8 KiB blocks of the input log

  A frame is a block of bytes with a header: the type of the records in it, a sequence
  number and how many records there are. Data points are kept in three arrays behind
  the header. Names and rescue points are blobs: their bytes are put one behind the
  other after the header, and from the end of the block backwards there is an entry for
  each with its id, its length and its offset.

  The frame is modelled by its bytes (`Cells`), so that records could overwrite each
  other. `Holds` says which records a frame has; appending a record for which there is
  room adds it and leaves the others alone.

  Correspondence (C++ ↔ Lean):
    `InputLogRow`, `InputLogDataPoint`, …      ↔ `InputLogRow`, `LogPayload`
    `LZ4Volume::Frame`, `FrameHeader`          ↔ `LogFrame`, `frameType`, `size`, …
    `Frame::DataEntry`                         ↔ `readPoint`, `pushPoint`
    `MutableEntry::can_write`, `append`        ↔ `canWrite`, `append`
    `MutableEntry::read_string`, `read_array`  ↔ `readString`, `readArray`
-/
namespace FastSTDB
open List Cells Bytes

variable {offset n ix : Nat} {bytes : List UInt8}

/-! ## Records -/

inductive LogPayload where
  | dataPoint (point : Point)
  | seriesName (value : List UInt8)
  | recoveryInfo (data : List UInt64)
  deriving DecidableEq

structure InputLogRow where
  id : ParamId
  payload : LogPayload
  deriving DecidableEq

inductive FrameType where
  | empty | dataEntry | snameEntry | recoveryEntry
  deriving DecidableEq

namespace FrameType

def code : FrameType → Nat
  | .empty => 0
  | .dataEntry => 1
  | .snameEntry => 2
  | .recoveryEntry => 4

def ofCode : Nat → Option FrameType
  | 0 => some .empty
  | 1 => some .dataEntry
  | 2 => some .snameEntry
  | 4 => some .recoveryEntry
  | _ => none

theorem ofCode_code (type : FrameType) : ofCode type.code = some type := by
  cases type <;> rfl

theorem code_lt (type : FrameType) : type.code < 256 ^ 1 := by
  cases type <;> decide

end FrameType

def wordsBytes (words : List UInt64) : List UInt8 := words.flatMap fun w => leBytes 8 w.toNat

namespace LogPayload

/-- The frames the record goes to. -/
def frameType : LogPayload → FrameType
  | .dataPoint _ => .dataEntry
  | .seriesName _ => .snameEntry
  | .recoveryInfo _ => .recoveryEntry

/-- The bytes of a name or of rescue points. -/
def blob : LogPayload → List UInt8
  | .dataPoint _ => []
  | .seriesName value => value
  | .recoveryInfo data => wordsBytes data

end LogPayload

/-! ## Frames -/

/-- `BLOCK_SIZE`, `sizeof(FrameHeader)` and `NUM_TUPLES` -/
def logBlockSize : Nat := 0x2000

def frameHeaderSize : Nat := 24

def numTuples : Nat := (logBlockSize - frameHeaderSize) / 24

abbrev LogFrame := Nat → UInt8

namespace LogFrame

def cleared : LogFrame := fun _ => 0

def frameType (f : LogFrame) : Option FrameType := FrameType.ofCode (peek f 0 1)

def setFrameType (type : FrameType) (f : LogFrame) : LogFrame := poke f 0 1 type.code

def setMagic (f : LogFrame) : LogFrame := poke f 2 2 1

def sequenceNumber (f : LogFrame) : Nat := peek f 8 8

def setSequenceNumber (n : Nat) (f : LogFrame) : LogFrame := poke f 8 8 n

def size (f : LogFrame) : Nat := peek f 16 4

def setSize (n : Nat) (f : LogFrame) : LogFrame := poke f 16 4 n

/-! ### Data points -/

/-- Where `ids[ix]`, `tss[ix]` and `xss[ix]` are. -/
def idsOffset (ix : Nat) : Nat := frameHeaderSize + 8 * ix

def tssOffset (ix : Nat) : Nat := frameHeaderSize + 8 * (numTuples + ix)

def xssOffset (ix : Nat) : Nat := frameHeaderSize + 8 * (2 * numTuples + ix)

def readPoint (f : LogFrame) (ix : Nat) : InputLogRow :=
  ⟨.ofNat (peek f (idsOffset ix) 8),
    .dataPoint ⟨.ofNat (peek f (tssOffset ix) 8), .ofNat (peek f (xssOffset ix) 8)⟩⟩

def pushPoint (id : ParamId) (point : Point) (f : LogFrame) : LogFrame :=
  let n := f.size
  let f := poke f (idsOffset n) 8 id.toNat
  let f := poke f (tssOffset n) 8 point.ts.toNat
  let f := poke f (xssOffset n) 8 point.value.toNat
  setSize (n + 1) f

/-! ### Blobs -/

/-- Where `vector[-j]` is. -/
def vectorOffset (j : Nat) : Nat := logBlockSize - 8 * j

section
variable (f : LogFrame)

def entryLen (ix : Nat) : Nat := peek f (vectorOffset (1 + 2 * ix)) 4

def entryOff (ix : Nat) : Nat := peek f (vectorOffset (1 + 2 * ix) + 4) 4

def entryId (ix : Nat) : Nat := peek f (vectorOffset (2 + 2 * ix)) 8

/-- Where the next blob goes, and the space for it. -/
def getSpaceAndOffset : Nat × Nat :=
  let spaceLeft := logBlockSize - frameHeaderSize - 16
  if 0 < f.size then
    let ix := f.size - 1
    let writeOffset := f.entryOff ix + f.entryLen ix
    let spaceUsed := writeOffset + f.size * 16 + 16
    (writeOffset, if spaceLeft < spaceUsed then 0 else spaceLeft - spaceUsed)
  else (0, spaceLeft)

def canWrite (len : Nat) : Bool := decide (len ≤ f.getSpaceAndOffset.2)

end

def append (id : ParamId) (bytes : List UInt8) (f : LogFrame) : LogFrame :=
  let n := f.size
  let writeOffset := f.getSpaceAndOffset.1
  let f := store f (frameHeaderSize + writeOffset) bytes
  let f := poke f (vectorOffset (1 + 2 * n)) 4 bytes.length
  let f := poke f (vectorOffset (1 + 2 * n) + 4) 4 writeOffset
  let f := poke f (vectorOffset (2 + 2 * n)) 8 id.toNat
  setSize (n + 1) f

section
variable (f : LogFrame)

def readString (ix : Nat) : InputLogRow :=
  ⟨.ofNat (f.entryId ix), .seriesName (load f (frameHeaderSize + f.entryOff ix) (f.entryLen ix))⟩

def readArray (ix : Nat) : InputLogRow :=
  ⟨.ofNat (f.entryId ix), .recoveryInfo ((List.range (f.entryLen ix / 8)).map fun k =>
      .ofNat (peek f (frameHeaderSize + f.entryOff ix + 8 * k) 8))⟩

/-- How the records of a frame are read; a frame of no known type is bad data. -/
def rowReader : Option (Nat → InputLogRow) :=
  match f.frameType with
  | some .dataEntry => some f.readPoint
  | some .snameEntry => some f.readString
  | some .recoveryEntry => some f.readArray
  | _ => none

/-- `n` records from the index `start` on. -/
def rowsFrom (start n : Nat) : Option (List InputLogRow) :=
  f.rowReader.map fun read => (List.range n).map fun i => read (start + i)

end

/-! ## What frames hold -/

section Holds
variable {f f' : LogFrame} {rows : List InputLogRow} {row : InputLogRow} {type : FrameType}

structure Points (f : LogFrame) (rows : List InputLogRow) : Prop where
  size : f.size = rows.length
  le : rows.length ≤ numTuples
  row : ∀ (ix : Nat) (row : InputLogRow), rows[ix]? = some row → f.readPoint ix = row

def blobBytes (rows : List InputLogRow) : Nat := (rows.map fun row => row.payload.blob.length).sum

/-- The entry of a blob, and the blob where the entry says. -/
structure BlobAt (f : LogFrame) (ix offset : Nat) (row : InputLogRow) : Prop where
  id : f.entryId ix = row.id.toNat
  len : f.entryLen ix = row.payload.blob.length
  off : f.entryOff ix = offset
  bytes : load f (frameHeaderSize + offset) row.payload.blob.length = row.payload.blob

structure Blobs (f : LogFrame) (type : FrameType) (rows : List InputLogRow) : Prop where
  size : f.size = rows.length
  fits : blobBytes rows + 16 * rows.length ≤ logBlockSize - frameHeaderSize
  kind : ∀ row ∈ rows, row.payload.frameType = type
  blob : ∀ (ix : Nat) (row : InputLogRow), rows[ix]? = some row →
    BlobAt f ix (blobBytes (rows.take ix)) row

/-- The frame has this type and these records. -/
inductive Holds (f : LogFrame) : FrameType → List InputLogRow → Prop where
  | empty : f.frameType = some .empty → f.size = 0 → Holds f .empty []
  | points {rows : List InputLogRow} : f.frameType = some .dataEntry → Points f rows →
      Holds f .dataEntry rows
  | blobs {type : FrameType} {rows : List InputLogRow} :
      type = .snameEntry ∨ type = .recoveryEntry → f.frameType = some type →
      Blobs f type rows → Holds f type rows

theorem Holds.frameType (h : Holds f type rows) : f.frameType = some type := by
  cases h with
  | empty ht _ => exact ht
  | points ht _ => exact ht
  | blobs _ ht _ => exact ht

theorem Holds.size (h : Holds f type rows) : f.size = rows.length := by
  cases h with
  | empty _ hs => exact hs
  | points _ hp => exact hp.size
  | blobs _ _ hb => exact hb.size

/-! ### Frames with the same records -/

/-- The frames differ at most in the first part of the header. -/
def SameRecords (f f' : LogFrame) : Prop := ∀ k, 16 ≤ k → k < logBlockSize → f k = f' k

theorem SameRecords.load (h : SameRecords f f') (hlo : 16 ≤ offset)
    (hhi : offset + n ≤ logBlockSize) : load f offset n = load f' offset n := by
  apply load_congr
  intro k hk
  exact h _ (by omega) (by omega)

theorem SameRecords.peek (h : SameRecords f f') (hlo : 16 ≤ offset)
    (hhi : offset + n ≤ logBlockSize) : peek f offset n = peek f' offset n := by
  rw [Cells.peek, h.load hlo hhi, Cells.peek]

theorem SameRecords.size (h : SameRecords f f') : f.size = f'.size := h.peek le_rfl (by decide)

theorem SameRecords.readPoint (h : SameRecords f f') (hix : ix < numTuples) :
    f.readPoint ix = f'.readPoint ix := by
  have hbound : 8 * (2 * numTuples + ix) + 8 + frameHeaderSize ≤ logBlockSize := by
    simp only [numTuples] at hix ⊢
    omega
  have hlo : 16 ≤ frameHeaderSize := by decide
  simp only [LogFrame.readPoint, idsOffset, tssOffset, xssOffset]
  rw [h.peek (by omega) (by omega), h.peek (by omega) (by omega), h.peek (by omega) (by omega)]

theorem vectorOffset_spec (hn : 16 * n ≤ logBlockSize - frameHeaderSize) (hix : ix < n) :
    vectorOffset (1 + 2 * ix) + 8 * (1 + 2 * ix) = logBlockSize ∧
      vectorOffset (2 + 2 * ix) + 8 * (2 + 2 * ix) = logBlockSize := by
  simp only [vectorOffset] at hn ⊢
  omega

theorem BlobAt.congr (h : BlobAt f ix offset row) (hsame : SameRecords f f')
    (hn : 16 * n ≤ logBlockSize - frameHeaderSize) (hix : ix < n)
    (hend : offset + row.payload.blob.length ≤ logBlockSize - frameHeaderSize) :
    BlobAt f' ix offset row := by
  obtain ⟨h1, h2⟩ := vectorOffset_spec hn hix
  simp only [logBlockSize, frameHeaderSize] at hn h1 h2 hend
  refine ⟨?_, ?_, ?_, ?_⟩
  · rw [← h.id]
    exact (hsame.peek (by omega) (by simp only [logBlockSize]; omega)).symm
  · rw [← h.len]
    exact (hsame.peek (by omega) (by simp only [logBlockSize]; omega)).symm
  · rw [← h.off]
    exact (hsame.peek (by omega) (by simp only [logBlockSize]; omega)).symm
  · refine Eq.trans (hsame.load ?_ ?_).symm h.bytes
    · simp only [frameHeaderSize]; omega
    · simp only [frameHeaderSize, logBlockSize]; omega

theorem blobBytes_take (h : rows[ix]? = some row) :
    blobBytes (rows.take ix) + row.payload.blob.length ≤ blobBytes rows := by
  have hsplit : rows.take (ix + 1) = rows.take ix ++ [row] := by
    rw [take_add_one, h]
    rfl
  have hall : blobBytes rows = blobBytes (rows.take (ix + 1)) + blobBytes (rows.drop (ix + 1)) := by
    rw [blobBytes, blobBytes, blobBytes, ← sum_append, ← map_append, take_append_drop]
  rw [hall, hsplit, blobBytes, blobBytes, map_append, sum_append]
  simp only [map_cons, sum_cons]
  omega

theorem Holds.congr (h : Holds f type rows) (hsame : SameRecords f f')
    (htype : f'.frameType = f.frameType) : Holds f' type rows := by
  cases h with
  | empty ht hs => exact .empty (htype.trans ht) (hsame.size.symm.trans hs)
  | points ht hp =>
    refine .points (htype.trans ht) ⟨hsame.size.symm.trans hp.size, hp.le, ?_⟩
    intro ix row hrow
    have hix := lt_of_getElem? hrow
    rw [← hp.row ix row hrow]
    exact (hsame.readPoint (hix.trans_le hp.le)).symm
  | blobs hk ht hb =>
    refine .blobs hk (htype.trans ht) ⟨hsame.size.symm.trans hb.size, hb.fits, hb.kind, ?_⟩
    intro ix row hrow
    have hfits := hb.fits
    have hbytes := blobBytes_take hrow
    exact (hb.blob ix row hrow).congr hsame (by omega) (lt_of_getElem? hrow) (by omega)

/-! ### Headers -/

@[simp] theorem frameType_setFrameType (type : FrameType) (f : LogFrame) :
    (setFrameType type f).frameType = some type := by
  rw [frameType, setFrameType, peek_poke_self type.code_lt, FrameType.ofCode_code]

theorem holds_cleared : Holds cleared .empty [] := .empty rfl rfl

theorem holds_setFrameType (h : Holds f .empty []) : Holds (setFrameType type f) type [] := by
  have hsize : (setFrameType type f).size = 0 := h.size
  have htype := frameType_setFrameType type f
  have hblobs : Blobs (setFrameType type f) type [] :=
    ⟨hsize, zero_le, forall_mem_nil _, fun _ _ h => (by cases h)⟩
  cases type with
  | empty => exact .empty htype hsize
  | dataEntry => exact .points htype ⟨hsize, zero_le, fun _ _ h => (by cases h)⟩
  | snameEntry => exact .blobs (.inl rfl) htype hblobs
  | recoveryEntry => exact .blobs (.inr rfl) htype hblobs

theorem holds_fresh : Holds (setFrameType type cleared) type [] := holds_setFrameType holds_cleared

/-- The frame as it is written, with its number. -/
def stamped (n : Nat) (f : LogFrame) : LogFrame := setSequenceNumber n (setMagic f)

theorem Holds.stamped (h : Holds f type rows) (n : Nat) : Holds (f.stamped n) type rows := by
  apply h.congr
  · intro k hlo _
    rw [LogFrame.stamped, setSequenceNumber, poke, store_outside (by simp; omega), setMagic, poke,
      store_outside (by simp; omega)]
  · rw [LogFrame.stamped, LogFrame.frameType, setSequenceNumber, peek_poke_disjoint (by decide),
      setMagic, peek_poke_disjoint (by decide), LogFrame.frameType]

theorem sequenceNumber_stamped (h : n < 2 ^ 64) :
    (f.stamped n).sequenceNumber = n := peek_poke_self h

/-! ### Reading -/

theorem wordsBytes_slice : ∀ {words : List UInt64} {k : Nat} {w : UInt64}, words[k]? = some w →
    ((wordsBytes words).drop (8 * k)).take 8 = leBytes 8 w.toNat
  | [], _, _, h => by cases h
  | v :: words, 0, w, h => by
    cases h
    rw [wordsBytes, flatMap_cons, drop_zero, take_left' (length_leBytes 8 _)]
  | v :: words, k + 1, w, h => by
    have hlen : (leBytes 8 v.toNat).length = 8 := length_leBytes 8 _
    have hdrop : (wordsBytes (v :: words)).drop (8 * (k + 1)) = (wordsBytes words).drop (8 * k) := by
      rw [wordsBytes, flatMap_cons, Nat.mul_succ, add_comm, ← drop_drop,
        drop_left' hlen, ← wordsBytes]
    rw [hdrop]
    exact wordsBytes_slice h

theorem length_wordsBytes (words : List UInt64) : (wordsBytes words).length = 8 * words.length := by
  induction words with
  | nil => rfl
  | cons w words ih =>
    rw [wordsBytes, flatMap_cons, length_append, length_leBytes, ← wordsBytes, length_cons]
    omega

theorem BlobAt.readString (h : BlobAt f ix offset row)
    (hkind : row.payload.frameType = .snameEntry) : f.readString ix = row := by
  obtain ⟨id, payload⟩ := row
  cases payload with
  | seriesName value =>
    rw [readString, h.id, h.len, h.off, h.bytes, UInt64.ofNat_toNat]
    rfl
  | dataPoint point => cases hkind
  | recoveryInfo data => cases hkind

theorem BlobAt.readArray (h : BlobAt f ix offset row)
    (hkind : row.payload.frameType = .recoveryEntry) : f.readArray ix = row := by
  obtain ⟨id, payload⟩ := row
  cases payload with
  | recoveryInfo data =>
    have hbytes : load f (frameHeaderSize + offset) (8 * data.length) = wordsBytes data := by
      rw [← length_wordsBytes]
      exact h.bytes
    have hlen : f.entryLen ix / 8 = data.length := by
      rw [h.len]
      simp only [LogPayload.blob, length_wordsBytes]
      omega
    have hwords : (range data.length).map (fun k =>
        .ofNat (peek f (frameHeaderSize + offset + 8 * k) 8)) = data := by
      apply ext_getElem
      · simp
      · intro k _ hk
        have hslice : load f (frameHeaderSize + offset + 8 * k) 8 =
            ((load f (frameHeaderSize + offset) (8 * data.length)).drop (8 * k)).take 8 :=
          load_slice (by omega)
        rw [hbytes, wordsBytes_slice (getElem?_eq_getElem hk)] at hslice
        rw [getElem_map, getElem_range, peek, hslice,
          ofLe_leBytes (UInt64.toNat_lt _), UInt64.ofNat_toNat]
    rw [readArray, h.id, hlen, h.off, hwords, UInt64.ofNat_toNat]
  | dataPoint point => cases hkind
  | seriesName value => cases hkind

theorem map_range_read {read : Nat → InputLogRow}
    (h : ∀ (ix : Nat) (row : InputLogRow), rows[ix]? = some row → read ix = row) {start : Nat}
    (hle : start + n ≤ rows.length) :
    (List.range n).map (fun i => read (start + i)) = (rows.drop start).take n := by
  apply ext_getElem
  · rw [length_map, length_range, length_take, length_drop]
    omega
  · intro i hi _
    have hlt : start + i < rows.length := by
      rw [length_map, length_range] at hi
      omega
    rw [getElem_map, getElem_range, getElem_take, getElem_drop]
    exact h _ _ (getElem?_eq_getElem hlt)

theorem Holds.rowsFrom (h : Holds f type rows) (hne : type ≠ .empty) {start : Nat}
    (hle : start + n ≤ rows.length) : f.rowsFrom start n = some ((rows.drop start).take n) := by
  have htype := h.frameType
  cases h with
  | empty _ _ => exact absurd rfl hne
  | points _ hp =>
    rw [rowsFrom, rowReader, htype]
    exact congrArg some (map_range_read hp.row hle)
  | blobs hk _ hb =>
    rcases hk with rfl | rfl
    · rw [rowsFrom, rowReader, htype]
      refine congrArg some (map_range_read (fun ix row hrow => ?_) hle)
      exact (hb.blob ix row hrow).readString (hb.kind row (mem_of_getElem? hrow))
    · rw [rowsFrom, rowReader, htype]
      refine congrArg some (map_range_read (fun ix row hrow => ?_) hle)
      exact (hb.blob ix row hrow).readArray (hb.kind row (mem_of_getElem? hrow))

/-! ### Appending -/

theorem getElem?_concat {α : Type} {l : List α} {a b : α} (h : (l ++ [a])[ix]? = some b) :
    l[ix]? = some b ∨ ix = l.length ∧ b = a := by
  rcases lt_or_ge ix l.length with hlt | hge
  · rw [getElem?_append_left hlt] at h
    exact .inl h
  · rw [getElem?_append_right hge, getElem?_singleton] at h
    split at h
    · next heq =>
      cases h
      exact .inr ⟨by omega, rfl⟩
    · cases h

theorem Points.push (h : Points f rows) (hlt : rows.length < numTuples) (id : ParamId)
    (point : Point) : Points (f.pushPoint id point) (rows ++ [⟨id, .dataPoint point⟩]) := by
  have hN : numTuples = 340 := rfl
  have hH : frameHeaderSize = 24 := rfl
  have hn := h.size
  refine ⟨?_, ?_, ?_⟩
  · rw [length_append, ← hn]
    exact peek_poke_self (by rw [hn]; omega)
  · rw [length_append]
    exact hlt
  · intro ix row hrow
    simp only [readPoint, pushPoint, setSize, idsOffset, tssOffset, xssOffset, hn]
    rcases getElem?_concat hrow with hold | ⟨rfl, rfl⟩
    · have hix := lt_of_getElem? hold
      have hread := h.row ix row hold
      simp (disch := omega) only [peek_poke_disjoint]
      exact hread
    · simp (disch := omega) only [peek_poke_disjoint]
      rw [peek_poke_self (UInt64.toNat_lt _), peek_poke_self (UInt64.toNat_lt _),
        peek_poke_self (UInt64.toNat_lt _)]
      simp

theorem frameType_pushPoint (id : ParamId) (point : Point) :
    (f.pushPoint id point).frameType = f.frameType := by
  have hH : frameHeaderSize = 24 := rfl
  simp only [frameType, pushPoint, setSize, idsOffset, tssOffset, xssOffset]
  simp (disch := omega) only [peek_poke_disjoint]

theorem blobBytes_concat :
    blobBytes (rows ++ [row]) = blobBytes rows + row.payload.blob.length := by simp [blobBytes]

section
variable (h : Blobs f type rows)
include h

theorem Blobs.getSpaceAndOffset :
    f.getSpaceAndOffset = (blobBytes rows, if rows = [] then logBlockSize - frameHeaderSize - 16
      else logBlockSize - frameHeaderSize - 16 - (blobBytes rows + rows.length * 16 + 16)) := by
  have hsize := h.size
  by_cases hnil : rows = []
  · subst hnil
    rw [getSpaceAndOffset, hsize]
    rfl
  · obtain ⟨front, last, rfl⟩ : ∃ front last, rows = front ++ [last] :=
      ⟨_, _, (dropLast_append_getLast hnil).symm⟩
    have hlast := h.blob front.length last (by simp)
    have hlen : f.size = front.length + 1 := by simpa using hsize
    have hoff : f.entryOff (f.size - 1) + f.entryLen (f.size - 1) =
        blobBytes (front ++ [last]) := by
      rw [hlen, Nat.add_sub_cancel, hlast.off, hlast.len, take_left, blobBytes_concat]
    have hpos : 0 < f.size := by omega
    rw [getSpaceAndOffset, if_pos hpos, ← hsize]
    simp only [hoff, Prod.mk.injEq, true_and]
    split
    · next hlt => omega
    · rfl

theorem Blobs.append_eq (id : ParamId) (bytes : List UInt8) : f.append id bytes =
      poke (poke (poke (poke (store f (24 + blobBytes rows) bytes)
        (8192 - 8 * (1 + 2 * rows.length)) 4 bytes.length)
        (8192 - 8 * (1 + 2 * rows.length) + 4) 4 (blobBytes rows))
        (8192 - 8 * (2 + 2 * rows.length)) 8 id.toNat) 16 4 (rows.length + 1) := by
  have hspace : f.getSpaceAndOffset.1 = blobBytes rows := by rw [h.getSpaceAndOffset]
  rw [append, hspace, h.size]
  rfl

theorem Blobs.load_append (id : ParamId)
    (hroom : blobBytes rows + bytes.length + 16 * (rows.length + 1) ≤ 8168) (hlow : 20 ≤ offset)
    (hold : offset + n ≤ 24 + blobBytes rows ∨ 8192 - 16 * rows.length ≤ offset) :
    load (f.append id bytes) offset n = load f offset n := by
  rw [h.append_eq, load_poke_disjoint (by omega), load_poke_disjoint (by omega),
    load_poke_disjoint (by omega), load_poke_disjoint (by omega), load_store_disjoint (by omega)]

theorem BlobAt.append {r : InputLogRow} (hr : rows[ix]? = some r) (id : ParamId)
    (hroom : blobBytes rows + bytes.length + 16 * (rows.length + 1) ≤ 8168) :
    BlobAt (f.append id bytes) ix (blobBytes (rows.take ix)) r := by
  have hix := lt_of_getElem? hr
  have hbytes := blobBytes_take hr
  have hat := h.blob ix r hr
  have hoff : ∀ j, vectorOffset j = 8192 - 8 * j := fun _ => rfl
  have hpeek : ∀ offset n, 8192 - 16 * rows.length ≤ offset →
      peek (f.append id bytes) offset n = peek f offset n := by
    intro offset n hge
    rw [peek, h.load_append id hroom (by omega) (.inr hge), peek]
  refine ⟨?_, ?_, ?_, ?_⟩
  · exact (hpeek _ _ (by rw [hoff]; omega)).trans hat.id
  · exact (hpeek _ _ (by rw [hoff]; omega)).trans hat.len
  · exact (hpeek _ _ (by rw [hoff]; omega)).trans hat.off
  · have hH : frameHeaderSize = 24 := rfl
    rw [h.load_append id hroom (by omega) (.inl (by omega))]
    exact hat.bytes

section
variable (hroom : blobBytes rows + row.payload.blob.length + 16 * (rows.length + 1) ≤ 8168)
include hroom

theorem BlobAt.new :
    BlobAt (f.append row.id row.payload.blob) rows.length (blobBytes rows) row := by
  have hoff : ∀ j, vectorOffset j = 8192 - 8 * j := fun _ => rfl
  refine ⟨?_, ?_, ?_, ?_⟩
  · rw [entryId, hoff, h.append_eq, peek_poke_disjoint (by omega),
      peek_poke_self (UInt64.toNat_lt _)]
  · rw [entryLen, hoff, h.append_eq, peek_poke_disjoint (by omega), peek_poke_disjoint (by omega),
      peek_poke_disjoint (by omega), peek_poke_self (by omega)]
  · rw [entryOff, hoff, h.append_eq, peek_poke_disjoint (by omega), peek_poke_disjoint (by omega),
      peek_poke_self (by omega)]
  · have hH : frameHeaderSize = 24 := rfl
    rw [h.append_eq, hH, load_poke_disjoint (by omega), load_poke_disjoint (by omega),
      load_poke_disjoint (by omega), load_poke_disjoint (by omega), load_store_self]

theorem Blobs.append (hkind : row.payload.frameType = type) :
    Blobs (f.append row.id row.payload.blob) type (rows ++ [row]) := by
  refine ⟨?_, ?_, ?_, ?_⟩
  · rw [length_append, h.append_eq]
    exact peek_poke_self (by omega)
  · rw [blobBytes_concat, length_append]
    exact hroom
  · exact forall_mem_append.mpr ⟨h.kind, forall_mem_singleton.mpr hkind⟩
  · intro ix r hr
    rcases getElem?_concat hr with hold | ⟨rfl, rfl⟩
    · have hix := lt_of_getElem? hold
      rw [take_append_of_le_length hix.le]
      exact .append h hold row.id hroom
    · rw [take_left]
      exact .new h hroom

end

theorem Blobs.frameType_append (id : ParamId)
    (hroom : blobBytes rows + bytes.length + 16 * (rows.length + 1) ≤ 8168) :
    (f.append id bytes).frameType = f.frameType := by
  rw [frameType, h.append_eq, peek_poke_disjoint (by omega),
    peek_poke_disjoint (by omega), peek_poke_disjoint (by omega), peek_poke_disjoint (by omega),
    peek_store_disjoint (by omega), frameType]

end

end Holds

end LogFrame

end FastSTDB
