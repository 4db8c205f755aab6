import FastSTDB.LogPlan

/-
  Input log, written — the files of a log follow its plan

  Every file of a log is a sequence of frames (`WrittenFrame`), and the current frame of
  the newest volume holds the records that are not written yet. Each call on a volume
  writes the frames that the plan says, with consecutive numbers, and leaves the current
  frame as the plan says (`Steps`). A call on the log adds frames with new numbers behind
  those that are there, and removes some at most (`Adds`). So after every run the files of
  the log hold the frames of the plan (`logged_run`).
-/
namespace FastSTDB
open List Cells Bytes FrameState LogFrame LZ4Volume
variable {σ δ : Type} {lz4 : Lz4 σ δ}
variable {n m : Nat} {f : LogFrame} {rows : List InputLogRow} {row : InputLogRow}

/-! ## Frames in a file -/

/-- A frame that was written, with its records and its number. -/
structure WrittenFrame where
  frame : LogFrame
  type : FrameType
  rows : List InputLogRow
  number : Nat
  known : type ≠ .empty
  holds : frame.Holds type rows
  stamp : number < 2 ^ 64 → frame.sequenceNumber = number

def rowsOf (ws : List WrittenFrame) : List InputLogRow := ws.flatMap (·.rows)

/-- The bytes of some frames one behind the other, and the state of the stream. -/
def encodeFrames (lz4 : Lz4 σ δ) : σ → List WrittenFrame → List UInt8 × σ
  | s, [] => ([], s)
  | s, w :: ws =>
    let out := lz4.compress s (load w.frame 0 logBlockSize)
    let rest := encodeFrames lz4 out.2 ws
    (leBytes 4 out.1.length ++ out.1 ++ rest.1, rest.2)

theorem encodeFrames_concat (w : WrittenFrame) : ∀ (ws : List WrittenFrame) (s : σ),
    encodeFrames lz4 s (ws ++ [w]) =
      let front := encodeFrames lz4 s ws
      let out := lz4.compress front.2 (load w.frame 0 logBlockSize)
      (front.1 ++ (leBytes 4 out.1.length ++ out.1), out.2)
  | [], s => by simp [encodeFrames]
  | w' :: ws, s => by
    have ih := encodeFrames_concat w ws (lz4.compress s (load w'.frame 0 logBlockSize)).2
    simp [encodeFrames, ih]

structure Wrote (lz4 : Lz4 σ δ) (v : LZ4Volume σ) (ws : List WrittenFrame) : Prop where
  file : v.file = (encodeFrames lz4 lz4.start ws).1
  stream : v.stream = (encodeFrames lz4 lz4.start ws).2

/-- Frames with consecutive numbers from the first number to the second. -/
inductive Numbered : Nat → List WrittenFrame → Nat → Prop where
  | nil (n : Nat) : Numbered n [] n
  | cons {n m : Nat} {w : WrittenFrame} {ws : List WrittenFrame} :
      w.number = n → Numbered (n + 1) ws m → Numbered n (w :: ws) m

theorem Numbered.one (w : WrittenFrame) : Numbered w.number [w] (w.number + 1) := .cons rfl (.nil _)

variable {ws : List WrittenFrame}

theorem Numbered.append {k : Nat} {ws' : List WrittenFrame} (h : Numbered n ws m)
    (h' : Numbered m ws' k) : Numbered n (ws ++ ws') k := by
  induction h with
  | nil n => exact h'
  | cons hw _ ih => exact .cons hw (ih h')

theorem Numbered.le (h : Numbered n ws m) : n ≤ m := by
  induction h with
  | nil n => exact le_refl n
  | cons _ _ ih => omega

theorem Numbered.bounds (h : Numbered n ws m) : ∀ w ∈ ws, n ≤ w.number ∧ w.number < m := by
  induction h with
  | nil n => exact forall_mem_nil _
  | cons hw hrest ih =>
    have hle := hrest.le
    intro w hmem
    rcases mem_cons.mp hmem with rfl | hmem
    · omega
    · obtain ⟨hlo, hhi⟩ := ih w hmem
      exact ⟨by omega, hhi⟩

theorem Numbered.pairwise (h : Numbered n ws m) : ws.Pairwise fun w w' => w.number < w'.number := by
  induction h with
  | nil n => exact .nil
  | cons hw hrest ih =>
    refine pairwise_cons.mpr ⟨fun w hmem => ?_, ih⟩
    have := (hrest.bounds w hmem).1
    omega

/-! ## Volumes -/

/-- The volume has these frames in its file and this current frame. -/
structure VolumeShows (lz4 : Lz4 σ δ) (v : LZ4Volume σ) (ws : List WrittenFrame) (s : FrameState) :
    Prop where
  wrote : Wrote lz4 v ws
  holds : v.frame.Holds s.type s.rows

/-- Some frames were written, and the current one is as planned. -/
def Steps (lz4 : Lz4 σ δ) (ws : List WrittenFrame) (next : FrameState.Next) (seq : Nat)
    (result : LZ4Volume σ × Nat) : Prop :=
  ∃ new : List WrittenFrame, new.map (·.rows) = next.1 ∧
    VolumeShows lz4 result.1 (ws ++ new) next.2 ∧ Numbered seq new result.2

section Volume
variable {v : LZ4Volume σ} {ws : List WrittenFrame} {s : FrameState} {seq : Nat}

section
variable (h : VolumeShows lz4 v ws s)
include h

theorem Steps.same (seq : Nat) : Steps lz4 ws ([], s) seq (v, seq) := by
  refine ⟨[], rfl, ?_, .nil _⟩
  rw [append_nil]
  exact h

omit h in
theorem Steps.trans {before after : FrameState.Next} {middle result : LZ4Volume σ × Nat}
    (h : Steps lz4 ws before seq middle)
    (hnext : ∀ ws1, VolumeShows lz4 middle.1 ws1 before.2 → Steps lz4 ws1 after middle.2 result) :
    Steps lz4 ws (before.1 ++ after.1, after.2) seq result := by
  obtain ⟨new1, hrows1, hshows1, hnum1⟩ := h
  obtain ⟨new2, hrows2, hshows2, hnum2⟩ := hnext _ hshows1
  refine ⟨new1 ++ new2, ?_, ?_, hnum1.append hnum2⟩
  · rw [map_append, hrows1, hrows2]
  · rw [← append_assoc]
    exact hshows2

theorem Steps.write (hne : s.type ≠ .empty) {s' : FrameState}
    {frame : LogFrame} (hframe : frame.Holds s'.type s'.rows) (seq : Nat) :
    Steps lz4 ws ([s.rows], s') seq ({ (v.write lz4 seq).1 with frame }, (v.write lz4 seq).2) := by
  let w : WrittenFrame := ⟨v.frame.stamped seq, s.type, s.rows, seq, hne, h.holds.stamped seq,
    sequenceNumber_stamped⟩
  refine ⟨[w], rfl, ⟨⟨?_, ?_⟩, hframe⟩, .one w⟩
  · rw [encodeFrames_concat]
    simp only [← h.wrote.file, ← h.wrote.stream]
    rfl
  · rw [encodeFrames_concat]
    simp only [← h.wrote.stream]
    rfl

theorem Steps.flushCurrentFrame (hne : s.type ≠ .empty) (type : FrameType) (seq : Nat) :
    Steps lz4 ws ([s.rows], ⟨type, []⟩) seq (v.flushCurrentFrame lz4 type seq) :=
  .write h hne holds_fresh seq

theorem Steps.requireFrameType (hroomy : s.Roomy) (type : FrameType)
    (seq : Nat) : Steps lz4 ws (s.require type) seq (v.requireFrameType lz4 type seq) := by
  have htype := h.holds.frameType
  rw [LZ4Volume.requireFrameType, require, htype]
  simp only [Option.some.injEq, ne_eq]
  split
  · next hempty =>
    have hnil := hroomy.empty hempty
    have hcur := h.holds
    rw [hempty, hnil] at hcur
    rw [hnil]
    let v' : LZ4Volume σ := { v with frame := setFrameType type v.frame }
    have hshows : VolumeShows lz4 v' ws ⟨type, []⟩ :=
      ⟨⟨h.wrote.file, h.wrote.stream⟩, holds_setFrameType hcur⟩
    exact .same hshows seq
  · next hne =>
    split
    · exact .flushCurrentFrame h hne type seq
    · exact .same h seq

omit h in
theorem canWrite_eq {type : FrameType} (h : f.Holds type rows)
    (hk : type = .snameEntry ∨ type = .recoveryEntry) (len : Nat) :
    f.canWrite len = decide (len ≤ spaceLeft rows) := by
  cases h with
  | empty _ _ => rcases hk with hk | hk <;> cases hk
  | points _ _ => rcases hk with hk | hk <;> cases hk
  | blobs _ _ hb => rw [canWrite, hb.getSpaceAndOffset]; rfl

theorem Steps.makeRoom
    (hk : s.type = .snameEntry ∨ s.type = .recoveryEntry) (len : Nat) (seq : Nat) :
    Steps lz4 ws (s.makeRoom len) seq
      (if v.frame.canWrite len then (v, seq) else v.flushCurrentFrame lz4 s.type seq) := by
  have hne : s.type ≠ .empty := by
    intro hempty
    rw [hempty] at hk
    rcases hk with hk | hk <;> cases hk
  rw [FrameState.makeRoom, canWrite_eq h.holds hk]
  by_cases hroom : len ≤ spaceLeft s.rows
  · rw [if_pos hroom, decide_eq_true hroom]
    exact .same h seq
  · rw [if_neg hroom, decide_eq_false hroom]
    exact .flushCurrentFrame h hne s.type seq

end

theorem blob_room {len : Nat} (hpos : 0 < spaceLeft rows) (hlen : len ≤ spaceLeft rows) :
    blobBytes rows + len + 16 * (rows.length + 1) ≤ 8168 := by
  rw [spaceLeft] at hpos hlen
  split at hlen
  · next hnil =>
    subst hnil
    simp only [logBlockSize, frameHeaderSize] at hlen
    simp only [blobBytes, map_nil, sum_nil, length_nil]
    omega
  · next hne =>
    rw [if_neg hne] at hpos
    simp only [logBlockSize, frameHeaderSize] at hlen hpos
    omega

theorem holds_pushPoint (h : f.Holds .dataEntry rows) (hlt : rows.length < numTuples)
    (id : ParamId) (point : Point) :
    (f.pushPoint id point).Holds .dataEntry (rows ++ [⟨id, .dataPoint point⟩]) := by
  cases h with
  | points ht hp => exact .points ((frameType_pushPoint id point).trans ht) (hp.push hlt id point)
  | blobs hk _ _ => rcases hk with hk | hk <;> cases hk

theorem holds_append {type : FrameType} (h : f.Holds type rows)
    (hk : type = .snameEntry ∨ type = .recoveryEntry) (hkind : row.payload.frameType = type)
    (hroom : blobBytes rows + row.payload.blob.length + 16 * (rows.length + 1) ≤ 8168) :
    (f.append row.id row.payload.blob).Holds type (rows ++ [row]) := by
  cases h with
  | empty _ _ => rcases hk with hk | hk <;> cases hk
  | points _ _ => rcases hk with hk | hk <;> cases hk
  | blobs _ ht hb =>
    exact .blobs hk ((hb.frameType_append row.id hroom).trans ht) (hb.append hroom hkind)

/-! ### Blobs one behind the other in a frame -/

/-- An append is made only if there is space for the blob. -/
def LogFrame.appendBlobs : List (ParamId × List UInt8) → LogFrame → Option LogFrame
  | [], f => some f
  | (id, bytes) :: blobs, f =>
    if f.canWrite bytes.length then (f.append id bytes).appendBlobs blobs else none

theorem blobs_nil (h : f.size = 0) : Blobs f .snameEntry [] :=
  ⟨h, zero_le, forall_mem_nil _, fun _ _ h => (by cases h)⟩

/-- The blobs end before the entries. -/
def LogFrame.Apart (f : LogFrame) : Prop :=
  frameHeaderSize + f.getSpaceAndOffset.1 ≤ vectorOffset (2 * f.size)

/-- Blobs and entries stay apart while the blobs are appended. -/
def LogFrame.StaysApart : List (ParamId × List UInt8) → LogFrame → Prop
  | [], f => f.Apart
  | (id, bytes) :: blobs, f => f.Apart ∧ (f.append id bytes).StaysApart blobs

def blobRows (blobs : List (ParamId × List UInt8)) : List InputLogRow :=
  blobs.map fun blob => ⟨blob.1, .seriesName blob.2⟩

/-- Behind the records there is room for the entry of each empty blob. -/
def EntriesFit (rows : List InputLogRow) (blobs : List (ParamId × List UInt8)) : Prop :=
  ∀ pre id post, blobs = pre ++ (id, []) :: post →
    blobBytes (rows ++ blobRows pre) + 16 * (rows.length + pre.length + 1) ≤
      logBlockSize - frameHeaderSize

theorem entriesFit_cons {id : ParamId} {bytes : List UInt8} {blobs : List (ParamId × List UInt8)} :
    EntriesFit rows ((id, bytes) :: blobs) ↔
      (bytes = [] → blobBytes rows + 16 * (rows.length + 1) ≤ logBlockSize - frameHeaderSize) ∧
        EntriesFit (rows ++ [⟨id, .seriesName bytes⟩]) blobs := by
  constructor
  · intro h
    refine ⟨?_, fun pre id' post heq => ?_⟩
    · rintro rfl
      simpa [blobRows] using h [] id blobs rfl
    · have := h ((id, bytes) :: pre) id' post (by rw [heq, cons_append])
      simpa [blobRows, Nat.add_assoc, Nat.add_comm 1] using this
  · rintro ⟨hhead, htail⟩ pre id' post heq
    cases pre with
    | nil =>
      cases heq
      simpa [blobRows] using hhead rfl
    | cons blob pre =>
      cases heq
      have := htail pre id' post rfl
      simpa [blobRows, Nat.add_assoc, Nat.add_comm 1] using this

theorem LogFrame.Blobs.apart {type : FrameType} (h : Blobs f type rows) : f.Apart := by
  have hfits := h.fits
  rw [Apart, h.getSpaceAndOffset, h.size]
  simp only [vectorOffset, logBlockSize, frameHeaderSize] at hfits ⊢
  omega

/-- The entry of an empty blob is written where the blobs are if there is no room for it. -/
theorem LogFrame.Blobs.room_of_apart {type : FrameType} (h : Blobs f type rows) (id : ParamId)
    (hapart : (f.append id []).Apart) :
    blobBytes rows + 16 * (rows.length + 1) ≤ logBlockSize - frameHeaderSize := by
  have hfits := h.fits
  simp only [logBlockSize, frameHeaderSize] at hfits
  have hoff : ∀ j, vectorOffset j = 8192 - 8 * j := fun _ => rfl
  have hsize : (f.append id []).size = rows.length + 1 := by
    rw [h.append_eq]
    exact peek_poke_self (by omega)
  have hwrite : (f.append id []).entryOff rows.length = blobBytes rows := by
    rw [entryOff, hoff, h.append_eq, peek_poke_disjoint (by omega), peek_poke_disjoint (by omega),
      peek_poke_self (by omega)]
  have hend : blobBytes rows ≤ (f.append id []).getSpaceAndOffset.1 := by
    rw [LogFrame.getSpaceAndOffset, hsize]
    exact hwrite ▸ le_self_add
  rw [Apart, hoff] at hapart
  simp only [logBlockSize] at hapart ⊢
  omega

/-- Where there is space for a blob that is not empty, there is room for its entry too. -/
theorem LogFrame.Blobs.appendBlobs {f' : LogFrame} {blobs : List (ParamId × List UInt8)}
    (h : Blobs f .snameEntry rows) (hf : f.appendBlobs blobs = some f') :
    (f.StaysApart blobs ↔ EntriesFit rows blobs) ∧
      (EntriesFit rows blobs → Blobs f' .snameEntry (rows ++ blobRows blobs)) := by
  induction blobs generalizing f rows with
  | nil =>
    cases hf
    refine ⟨⟨fun _ pre id post heq => ?_, fun _ => h.apart⟩, fun _ => ?_⟩
    · simp at heq
    · rwa [blobRows, map_nil, append_nil]
  | cons blob blobs ih =>
    obtain ⟨id, bytes⟩ := blob
    obtain ⟨hcan, hf⟩ := Option.ite_none_right_eq_some.mp hf
    rw [canWrite, h.getSpaceAndOffset] at hcan
    have hle : bytes.length ≤ spaceLeft rows := of_decide_eq_true hcan
    let row : InputLogRow := ⟨id, .seriesName bytes⟩
    have hroom : (bytes = [] → blobBytes rows + 16 * (rows.length + 1) ≤
        logBlockSize - frameHeaderSize) →
        blobBytes rows + row.payload.blob.length + 16 * (rows.length + 1) ≤ 8168 := by
      intro hempty
      by_cases hnil : bytes = []
      · subst hnil
        exact hempty rfl
      · exact blob_room ((length_pos_iff.mpr hnil).trans_le hle) hle
    rw [entriesFit_cons]
    refine ⟨⟨fun ⟨_, hstays⟩ => ?_, fun ⟨hempty, hrest⟩ => ?_⟩, fun ⟨hempty, hrest⟩ => ?_⟩
    · have hempty : bytes = [] → blobBytes rows + 16 * (rows.length + 1) ≤
          logBlockSize - frameHeaderSize := by
        rintro rfl
        refine h.room_of_apart id ?_
        cases blobs with
        | nil => exact hstays
        | cons blob blobs => exact hstays.1
      exact ⟨hempty, (ih (h.append (hroom hempty) rfl) hf).1.mp hstays⟩
    · exact ⟨h.apart, (ih (h.append (hroom hempty) rfl) hf).1.mpr hrest⟩
    · have hnext := (ih (h.append (hroom hempty) rfl) hf).2 hrest
      rwa [append_assoc] at hnext

/-- Blobs and entries stay apart and the blobs come back, exactly if there was room for the entry
of each empty blob behind the blobs before it. -/
theorem appendBlobs_read {f' : LogFrame} (blobs : List (ParamId × List UInt8)) (hf : f.size = 0)
    (happend : f.appendBlobs blobs = some f') :
    (f.StaysApart blobs ∧ f'.size = blobs.length ∧ ∀ ix blob, blobs[ix]? = some blob →
      f'.readString ix = ⟨blob.1, .seriesName blob.2⟩ ∧
      ∀ data, wordsBytes data = blob.2 → f'.readArray ix = ⟨blob.1, .recoveryInfo data⟩) ↔
    ∀ pre id post, blobs = pre ++ (id, []) :: post →
      (pre.map fun blob => blob.2.length).sum + 16 * (pre.length + 1) ≤
        logBlockSize - frameHeaderSize := by
  have hfit : EntriesFit [] blobs ↔ ∀ pre id post, blobs = pre ++ (id, []) :: post →
      (pre.map fun blob => blob.2.length).sum + 16 * (pre.length + 1) ≤
        logBlockSize - frameHeaderSize := by
    simp [EntriesFit, blobRows, blobBytes, Function.comp_def, LogPayload.blob]
  obtain ⟨hiff, hblobs⟩ := (blobs_nil hf).appendBlobs happend
  rw [← hfit]
  refine ⟨fun h => hiff.mp h.1, fun hroom => ⟨hiff.mpr hroom, ?_⟩⟩
  have h := hblobs hroom
  rw [nil_append] at h
  refine ⟨h.size.trans (length_map _), ?_⟩
  intro ix blob hblob
  have hat := h.blob ix ⟨blob.1, .seriesName blob.2⟩ (by rw [blobRows, getElem?_map, hblob]; rfl)
  refine ⟨hat.readString rfl, fun data hdata => ?_⟩
  generalize blobBytes _ = offset at hat
  have hwords : BlobAt f' ix offset ⟨blob.1, .recoveryInfo data⟩ := by
    refine ⟨hat.id, ?_, hat.off, ?_⟩
    · exact hat.len.trans (congrArg length hdata.symm)
    · simp only [LogPayload.blob, hdata]
      exact hat.bytes
  exact hwords.readArray rfl

theorem appendBlobs_read_three :
    ∃ f', LogFrame.cleared.appendBlobs [(1, [97]), (3, []), (2, [98, 99])] = some f' ∧
      f'.readString 2 = ⟨2, .seriesName [98, 99]⟩ := by
  refine ⟨_, rfl, ?_⟩
  have hread := (appendBlobs_read [(1, [97]), (3, []), (2, [98, 99])] (f := .cleared) rfl rfl).mpr ?_
  · exact (hread.2.2 2 _ rfl).1
  · intro pre id post heq
    have hlen := congrArg length heq
    have hsum := congrArg (fun l => (l.map fun blob => blob.2.length).sum) heq
    simp only [map_append, sum_append, length_append, map_cons, map_nil, sum_cons, sum_nil,
      length_cons, length_nil] at hlen hsum
    simp only [logBlockSize, frameHeaderSize]
    omega

/-- In a full frame there is space for an empty blob, but no room for its entry. -/
theorem appendBlobs_overlap :
    ∃ bytes f', LogFrame.cleared.appendBlobs [(1, bytes), (2, [])] = some f' ∧ ¬ f'.Apart := by
  obtain ⟨bytes, hlen⟩ : ∃ bytes : List UInt8, bytes.length = 8152 :=
    ⟨replicate 8152 97, length_replicate⟩
  let row : InputLogRow := ⟨1, .seriesName bytes⟩
  have hbytes : blobBytes [row] = 8152 := by simp [row, blobBytes, LogPayload.blob, hlen]
  have hroom : blobBytes [] + row.payload.blob.length + 16 * 1 ≤ 8168 := by
    simp [row, blobBytes, LogPayload.blob, hlen]
  refine ⟨bytes, (LogFrame.cleared.append 1 bytes).append 2 [], ?_, fun hapart => ?_⟩
  · rw [appendBlobs, hlen]
    rfl
  · have hend := ((blobs_nil rfl).append hroom rfl).room_of_apart 2 hapart
    rw [nil_append, hbytes, length_singleton] at hend
    exact absurd hend (by decide)

section
variable (h : VolumeShows lz4 v ws s)
include h

theorem Steps.appendPoint (hroomy : s.Roomy) (id : ParamId) (point : Point) (seq : Nat) :
    Steps lz4 ws (s.append ⟨id, .dataPoint point⟩) seq (v.appendPoint lz4 id point seq).2 := by
  rw [append_point]
  refine .trans (.requireFrameType h hroomy .dataEntry seq) fun ws1 h1 => ?_
  have hroomy1 := hroomy.require .dataEntry
  have htype := require_type .dataEntry s
  rw [LZ4Volume.appendPoint]
  generalize (s.require .dataEntry).2 = s1 at h1 hroomy1 htype
  generalize v.requireFrameType lz4 .dataEntry seq = required at h1
  obtain ⟨v1, seq1⟩ := required
  obtain ⟨type, rows⟩ := s1
  subst htype
  have hholds := holds_pushPoint h1.holds (hroomy1.points rfl) id point
  -- the volume with the point in its frame
  let v2 : LZ4Volume σ := { v1 with
    bitmap := addId id v1.bitmap, frame := v1.frame.pushPoint id point }
  have h2 : VolumeShows lz4 v2 ws1 ⟨.dataEntry, rows ++ [⟨id, .dataPoint point⟩]⟩ :=
    ⟨⟨h1.wrote.file, h1.wrote.stream⟩, hholds⟩
  simp only [FrameState.appendPoint, ← hholds.size]
  split
  · exact .write h2 (fun he => (by cases he)) holds_cleared seq1
  · exact .same h2 seq1

theorem Steps.appendBlob (hroomy : s.Roomy) (hblob : row.payload.frameType ≠ .dataEntry)
    (hfits : row.payload.blob.length ≤ logBlockSize - frameHeaderSize - 16) (seq : Nat) :
    Steps lz4 ws (s.append row) seq
      (v.appendBlob lz4 row.payload.frameType row.id row.payload.blob seq).2 := by
  have hk := blob_type hblob
  rw [append_blob hblob]
  refine .trans (.requireFrameType h hroomy row.payload.frameType seq) fun ws1 h1 => ?_
  have hroomy1 := hroomy.require row.payload.frameType
  have htype := require_type row.payload.frameType s
  generalize (s.require row.payload.frameType).2 = s1 at h1 hroomy1 htype
  rw [LZ4Volume.appendBlob, appendBlob_eq]
  generalize v.requireFrameType lz4 row.payload.frameType seq = required at h1
  obtain ⟨v1, seq1⟩ := required
  rw [← htype] at hk ⊢
  refine .trans (.makeRoom h1 hk row.payload.blob.length seq1) fun ws2 h2 => ?_
  have hlen := le_spaceLeft_makeRoom s1 hfits
  have hroomy2 : sizeThreshold ≤ spaceLeft (s1.makeRoom row.payload.blob.length).2.rows := by
    rw [FrameState.makeRoom]
    split
    · exact hroomy1.blobs hk
    · exact show sizeThreshold ≤ spaceLeft [] by decide
  have htype2 := makeRoom_type row.payload.blob.length s1
  generalize (s1.makeRoom row.payload.blob.length).2 = s2 at h2 hlen hroomy2 htype2
  dsimp only at h2 ⊢
  generalize (if v1.frame.canWrite row.payload.blob.length then (v1, seq1)
    else v1.flushCurrentFrame lz4 s1.type seq1) = made at h2
  obtain ⟨v2, seq2⟩ := made
  rw [← htype2] at hk htype ⊢
  have hpos : 0 < sizeThreshold := by decide
  have hholds := holds_append h2.holds hk htype.symm (blob_room (hpos.trans_le hroomy2) hlen)
  let v3 : LZ4Volume σ := { v2 with frame := v2.frame.append row.id row.payload.blob }
  have h3 : VolumeShows lz4 v3 ws2 ⟨s2.type, s2.rows ++ [row]⟩ :=
    ⟨⟨h2.wrote.file, h2.wrote.stream⟩, hholds⟩
  have h4 := Steps.makeRoom h3 hk sizeThreshold seq2
  generalize (v2.frame.append row.id row.payload.blob).canWrite sizeThreshold = roomy at h4 ⊢
  cases roomy with
  | true => exact h4
  | false => exact h4

/-- The records a log is given: a blob has to fit into a frame. -/
def InputLogRow.Fits (row : InputLogRow) : Prop :=
  row.payload.blob.length ≤ logBlockSize - frameHeaderSize - 16

instance (row : InputLogRow) : Decidable row.Fits := inferInstanceAs (Decidable (_ ≤ _))

theorem Steps.append (hroomy : s.Roomy) (hfits : row.Fits)
    (seq : Nat) : Steps lz4 ws (s.append row) seq (v.append lz4 row seq).2 := by
  obtain ⟨id, payload⟩ := row
  cases payload with
  | dataPoint point => exact .appendPoint h hroomy id point seq
  | seriesName value => exact .appendBlob h hroomy (fun hd => (by cases hd)) hfits seq
  | recoveryInfo data => exact .appendBlob h hroomy (fun hd => (by cases hd)) hfits seq

theorem VolumeShows.size_eq_zero : v.frame.size = 0 ↔ s.rows = [] := by
  rw [h.holds.size, length_eq_zero_iff]

theorem Steps.flush (hroomy : s.Roomy) (seq : Nat) :
    Steps lz4 ws (s.rest, if s.rows = [] then s else .cleared) seq (v.flush lz4 seq).2 := by
  rw [LZ4Volume.flush, rest]
  by_cases hnil : s.rows = []
  · have hzero := h.size_eq_zero.mpr hnil
    simp only [hzero, hnil]
    exact .same h seq
  · have hsize : v.frame.size ≠ 0 := fun hz => hnil (h.size_eq_zero.mp hz)
    simp only [if_pos hsize, if_neg hnil]
    exact .write h (hroomy.known hnil) holds_cleared seq

theorem VolumeShows.close (hroomy : s.Roomy) (seq : Nat) :
    ∃ new : List WrittenFrame, new.map (·.rows) = s.rest ∧
      Wrote lz4 (v.close lz4 seq).1 (ws ++ new) ∧ Numbered seq new (v.close lz4 seq).2 := by
  rw [LZ4Volume.close, rest]
  by_cases hnil : s.rows = []
  · have hzero := h.size_eq_zero.mpr hnil
    simp only [hzero, hnil]
    refine ⟨[], rfl, ?_, .nil _⟩
    rw [append_nil]
    exact h.wrote
  · have hsize : v.frame.size ≠ 0 := fun hz => hnil (h.size_eq_zero.mp hz)
    simp only [if_pos hsize, if_neg hnil]
    obtain ⟨new, hrows, hshows, hnum⟩ : Steps lz4 ws ([s.rows], .cleared) seq _ :=
      .write h (hroomy.known hnil) holds_cleared seq
    exact ⟨new, hrows, ⟨hshows.wrote.file, hshows.wrote.stream⟩, hnum⟩

end

end Volume

/-! ## Logs -/

def allFrames (ws : List WrittenFrame) (older : List (List WrittenFrame)) : List WrittenFrame :=
  (ws :: older).reverse.flatten

/-- The newest volume has the frames `ws`, the others are closed and have the frames
`older`; all are as planned. -/
structure Logged (lz4 : Lz4 σ δ) (log : InputLog σ) (p : LogPlan) (ws : List WrittenFrame)
    (older : List (List WrittenFrame)) : Prop where
  written : ws.map (·.rows) = p.written
  planned : older.map (fun ws => ws.map (·.rows)) = p.older
  newest : VolumeShows lz4 log.active.2 ws p.state
  closed : Forall₂ (fun v ws => Wrote lz4 v.2 ws) log.older older
  descending : (log.volumes.map Prod.fst).Pairwise (· > ·)
  below : ∀ v ∈ log.volumes, v.1 < log.volumeCounter

/-- Frames with the numbers from `seq` to `seq'` come behind the others; some may go. -/
def Adds (seq : Nat) (frames frames' : List WrittenFrame) (seq' : Nat) : Prop :=
  ∃ new, Numbered seq new seq' ∧ frames'.Sublist (frames ++ new)

section Log
variable {log : InputLog σ} {seq : Nat} {p : LogPlan} {ws : List WrittenFrame}
  {older : List (List WrittenFrame)}

theorem logged_new (maxVolumes volumeSize : Nat) :
    Logged lz4 (.new lz4 maxVolumes volumeSize) .new [] [] where
  written := rfl
  planned := rfl
  newest := ⟨⟨rfl, rfl⟩, holds_cleared⟩
  closed := .nil
  descending := pairwise_singleton _ _
  below := by
    intro v hv
    rw [mem_singleton.mp hv]
    exact zero_lt_one

theorem allFrames_append (ws new : List WrittenFrame) :
    allFrames (ws ++ new) older = allFrames ws older ++ new := by simp [allFrames]

theorem Logged.change (h : Logged lz4 log p ws older) {next : FrameState.Next}
    {result : LZ4Volume σ × Nat} (hstep : Steps lz4 ws next seq result) : ∃ ws',
      Logged lz4 { log with active := (log.active.1, result.1) }
        { p with written := p.written ++ next.1, state := next.2 } ws' older ∧
      Adds seq (allFrames ws older) (allFrames ws' older) result.2 := by
  obtain ⟨new, hrows, hshows, hnum⟩ := hstep
  refine ⟨ws ++ new, ⟨?_, h.planned, hshows, h.closed, h.descending, ?_⟩, new, hnum, ?_⟩
  · rw [map_append, h.written, hrows]
  · exact forall_mem_cons.mpr ⟨h.below log.active mem_cons_self, (forall_mem_cons.mp h.below).2⟩
  · rw [allFrames_append]

theorem flush_snd : (log.flush lz4 seq).2 =
      ({ log with active := (log.active.1, (log.active.2.flush lz4 seq).2.1) },
        (log.active.2.flush lz4 seq).2.2) := by rw [InputLog.flush]

theorem Logged.append (h : Logged lz4 log p ws older) (hends : p.Ends) (hfits : row.Fits)
    (maxVolumes seq : Nat) : ∃ ws',
      Logged lz4 (log.append lz4 row seq).2.1 (LogOp.plan maxVolumes (.append row) p) ws' older ∧
      Adds seq (allFrames ws older) (allFrames ws' older) (log.append lz4 row seq).2.2 := by
  exact h.change (.append h.newest hends.roomy hfits seq)

theorem plan_flush (maxVolumes : Nat) : LogOp.plan maxVolumes .flush p = { p with
      written := p.written ++ p.state.rest
      state := if p.state.rows = [] then p.state else .cleared } := by
  rw [LogOp.plan]
  split
  · next hnil => rw [rest, if_pos hnil, append_nil]
  · rfl

theorem Logged.flush (h : Logged lz4 log p ws older) (hends : p.Ends) (maxVolumes seq : Nat) :
    ∃ ws', Logged lz4 (log.flush lz4 seq).2.1 (LogOp.plan maxVolumes .flush p) ws' older ∧
      Adds seq (allFrames ws older) (allFrames ws' older) (log.flush lz4 seq).2.2 := by
  rw [plan_flush]
  exact h.change (.flush h.newest hends.roomy seq)

theorem forall₂_kept {α β : Type} {R : α → β → Prop} {l : List α} {l' : List β}
    (h : Forall₂ R l l') (maxVolumes : Nat) :
    Forall₂ R (LogPlan.kept maxVolumes l) (LogPlan.kept maxVolumes l') := by
  rw [LogPlan.kept, LogPlan.kept, h.length_eq]
  split
  · rw [dropLast_eq_take, dropLast_eq_take, h.length_eq]
    exact forall₂_take _ h
  · exact h

theorem kept_sublist {α : Type} (maxVolumes : Nat) (l : List α) :
    (LogPlan.kept maxVolumes l).Sublist l := by
  rw [LogPlan.kept]
  split
  · exact dropLast_sublist l
  · exact Sublist.refl l

/-- Leaving out the oldest volume leaves out the first frames. -/
theorem flatten_kept (maxVolumes : Nat) (volumes : List (List WrittenFrame)) :
    ((LogPlan.kept maxVolumes volumes).reverse.flatten).Sublist volumes.reverse.flatten := by
  rw [LogPlan.kept]
  split
  · by_cases hnil : volumes = []
    · rw [hnil]
      exact Sublist.refl _
    · obtain ⟨front, last, rfl⟩ : ∃ front last, volumes = front ++ [last] :=
        ⟨_, _, (dropLast_append_getLast hnil).symm⟩
      rw [dropLast_concat, reverse_append]
      exact sublist_append_right _ _
  · exact Sublist.refl _

/-- The volumes that a rotation leaves: those that are kept, the newest of them closed. -/
theorem rotate_eq :
    let older := LogPlan.kept log.maxVolumes
      ((log.active.1, (log.active.2.close lz4 seq).1) :: log.older)
    log.rotate lz4 seq = ({ log with
          active := (log.volumeCounter, .new lz4 log.volumeSize)
          older
          volumeCounter := log.volumeCounter + 1 },
        if older = [] then seq else (log.active.2.close lz4 seq).2) := by
  rw [InputLog.rotate, LogPlan.kept, InputLog.volumes, length_cons, length_cons]
  split
  · cases hold : log.older with
    | nil => rfl
    | cons u us => rfl
  · rfl

theorem Logged.rotate (h : Logged lz4 log p ws older) (hends : p.Ends) (seq : Nat) : ∃ older',
    Logged lz4 (log.rotate lz4 seq).1 (LogOp.plan log.maxVolumes .rotate p) [] older' ∧
      Adds seq (allFrames ws older) (allFrames [] older') (log.rotate lz4 seq).2 := by
  obtain ⟨new, hrows, hwrote, hnum⟩ := h.newest.close hends.roomy seq
  let closedVolumes := (log.active.1, (log.active.2.close lz4 seq).1) :: log.older
  have hwrotes : Forall₂ (fun v ws => Wrote lz4 v.2 ws) closedVolumes ((ws ++ new) :: older) :=
    .cons hwrote h.closed
  have hclosed := forall₂_kept hwrotes log.maxVolumes
  have hsub : (allFrames [] (LogPlan.kept log.maxVolumes ((ws ++ new) :: older))).Sublist
      (allFrames (ws ++ new) older) := by
    rw [allFrames, reverse_cons, flatten_append, flatten_singleton, append_nil]
    exact flatten_kept _ _
  have hdesc : (closedVolumes.map Prod.fst).Pairwise (· > ·) := h.descending
  have hbelow : ∀ v ∈ LogPlan.kept log.maxVolumes closedVolumes, v.1 < log.volumeCounter := by
    intro v hv
    rcases mem_cons.mp (LogPlan.mem_kept hv) with rfl | hv
    · exact h.below log.active mem_cons_self
    · exact h.below v (mem_cons_of_mem _ hv)
  rw [rotate_eq]
  refine ⟨_, ⟨rfl, ?_, ⟨⟨rfl, rfl⟩, holds_cleared⟩, hclosed, ?_, ?_⟩, ?_⟩
  · rw [LogPlan.kept_map, map_cons, map_append, h.written, hrows, h.planned]
    rfl
  · refine pairwise_cons.mpr ⟨?_, hdesc.sublist ((kept_sublist _ _).map _)⟩
    intro n hn
    obtain ⟨v, hv, rfl⟩ := mem_map.mp hn
    exact hbelow v hv
  · exact forall_mem_cons.mpr ⟨lt_add_one _, fun v hv => Nat.lt_succ_of_lt (hbelow v hv)⟩
  · by_cases hnil : LogPlan.kept log.maxVolumes closedVolumes = []
    · -- without volumes there are no frames
      have hnone : LogPlan.kept log.maxVolumes ((ws ++ new) :: older) = [] := by
        rw [hnil] at hclosed
        exact forall₂_nil_left_iff.mp hclosed
      rw [hnone, if_pos hnil]
      exact ⟨[], .nil _, nil_sublist _⟩
    · rw [if_neg hnil]
      rw [allFrames_append] at hsub
      exact ⟨new, hnum, hsub⟩

/-! ## Runs -/

def LogOp.Fits : LogOp → Prop
  | .append row => row.Fits
  | .rotate => True
  | .flush => True

theorem LogOp.step_maxVolumes (op : LogOp) (log : InputLog σ) (seq : Nat) :
    (op.step lz4 (log, seq)).1.maxVolumes = log.maxVolumes := by
  cases op with
  | append row => rfl
  | flush => rfl
  | rotate => rw [LogOp.step, rotate_eq]

theorem Logged.step (h : Logged lz4 log p ws older) (hends : p.Ends) {op : LogOp}
    (hfits : op.Fits) (seq : Nat) : ∃ ws' older',
      Logged lz4 (op.step lz4 (log, seq)).1 (op.plan log.maxVolumes p) ws' older' ∧
      Adds seq (allFrames ws older) (allFrames ws' older') (op.step lz4 (log, seq)).2 := by
  cases op with
  | append row =>
    obtain ⟨ws', hstep⟩ := h.append hends hfits log.maxVolumes seq
    exact ⟨ws', older, hstep⟩
  | flush =>
    obtain ⟨ws', hstep⟩ := h.flush hends log.maxVolumes seq
    exact ⟨ws', older, hstep⟩
  | rotate =>
    obtain ⟨older', hstep⟩ := h.rotate hends seq
    exact ⟨[], older', hstep⟩

theorem Logged.run (ops : List LogOp) : ∀ {log : InputLog σ} {seq : Nat} {p : LogPlan}
    {ws : List WrittenFrame} {older : List (List WrittenFrame)},
    Logged lz4 log p ws older → p.Ends → (∀ op ∈ ops, op.Fits) →
    ∃ ws' older', Logged lz4 (runLog lz4 ops (log, seq)).1
      (ops.foldl (fun p op => op.plan log.maxVolumes p) p) ws' older' := by
  induction ops with
  | nil => exact fun h _ _ => ⟨_, _, h⟩
  | cons op ops ih =>
    intro log seq p ws older h hends hfits
    obtain ⟨ws1, older1, h1, -⟩ := h.step hends (hfits op mem_cons_self) seq
    obtain ⟨ws', older', h'⟩ := ih h1 (hends.plan log.maxVolumes op) (forall_mem_cons.mp hfits).2
    rw [LogOp.step_maxVolumes] at h'
    exact ⟨ws', older', h'⟩

end Log

theorem logged_run (lz4 : Lz4 σ δ) (maxVolumes volumeSize seq : Nat) {ops : List LogOp}
    (hfits : ∀ op ∈ ops, op.Fits) : ∃ ws older,
      Logged lz4 (runLog lz4 ops (.new lz4 maxVolumes volumeSize, seq)).1 (planLog maxVolumes ops)
        ws older := (logged_new maxVolumes volumeSize).run ops LogPlan.ends_new hfits

end FastSTDB
