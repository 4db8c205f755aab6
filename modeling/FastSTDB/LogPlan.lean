import FastSTDB.InputLog

/-
  Log plans — how records are divided into frames and volumes

  The abstract side of the input log. A frame is the list of its records, a volume the
  list of its frames, and which record goes where is computed from the sizes of the
  records alone (`FrameState.append`, `LogOp.plan`). Bytes, compression and files are
  left out.

  What a log is for is still simpler: every append adds its record to the newest volume
  and a rotation begins a volume and drops the oldest one at the limit (`LogOp.retain`).
  A plan keeps the records of every volume in that order (`LogPlan.rows_run`).

  A frame without records is planned when blobs have filled a frame to its threshold
  and the next record is of another type: the frame that was begun after the full one
  has a type already. It is never the last one of a volume, because the record that
  caused it comes behind it (`LogPlan.Ends`).
-/
namespace FastSTDB
open LogOp
open List LZ4Volume
open LogFrame (blobBytes)

/-! ## The current frame -/

structure FrameState where
  type : FrameType
  rows : List InputLogRow
  deriving DecidableEq

namespace FrameState

def cleared : FrameState := ⟨.empty, []⟩

def spaceLeft (rows : List InputLogRow) : Nat :=
  if rows = [] then logBlockSize - frameHeaderSize - 16
  else logBlockSize - frameHeaderSize - 16 - (blobBytes rows + rows.length * 16 + 16)

abbrev Next := List (List InputLogRow) × FrameState

def require (type : FrameType) (s : FrameState) : Next :=
  if s.type = .empty then ([], ⟨type, s.rows⟩)
  else if s.type ≠ type then ([s.rows], ⟨type, []⟩)
  else ([], s)

def appendPoint (row : InputLogRow) (s : FrameState) : Next :=
  let rows := s.rows ++ [row]
  if rows.length = numTuples then ([rows], cleared) else ([], ⟨s.type, rows⟩)

/-- The frame is written if there is no room for `len` bytes. -/
def makeRoom (len : Nat) (s : FrameState) : Next :=
  if len ≤ spaceLeft s.rows then ([], s) else ([s.rows], ⟨s.type, []⟩)

def appendBlob (row : InputLogRow) (s : FrameState) : Next :=
  let (before, s) := s.makeRoom row.payload.blob.length
  let (after, s) := makeRoom sizeThreshold ⟨s.type, s.rows ++ [row]⟩
  (before ++ after, s)

def append (row : InputLogRow) (s : FrameState) : Next :=
  let (before, s) := s.require row.payload.frameType
  let (after, s) :=
    if row.payload.frameType = .dataEntry then s.appendPoint row else s.appendBlob row
  (before ++ after, s)

/-- The frame that is written when the volume is flushed or closed. -/
def rest (s : FrameState) : List (List InputLogRow) := if s.rows = [] then [] else [s.rows]

/-! ### What appends keep -/

variable {s : FrameState} {row : InputLogRow} {type : FrameType} {len : Nat}

theorem append_point (id : ParamId) (point : Point) :
    s.append ⟨id, .dataPoint point⟩ = ((s.require .dataEntry).1 ++
      ((s.require .dataEntry).2.appendPoint ⟨id, .dataPoint point⟩).1,
      ((s.require .dataEntry).2.appendPoint ⟨id, .dataPoint point⟩).2) := rfl

theorem append_blob (h : row.payload.frameType ≠ .dataEntry) :
    s.append row = ((s.require row.payload.frameType).1 ++
      ((s.require row.payload.frameType).2.appendBlob row).1,
      ((s.require row.payload.frameType).2.appendBlob row).2) := by simp only [append, if_neg h]

theorem appendBlob_eq : s.appendBlob row = ((s.makeRoom row.payload.blob.length).1 ++
      (makeRoom sizeThreshold ⟨(s.makeRoom row.payload.blob.length).2.type,
        (s.makeRoom row.payload.blob.length).2.rows ++ [row]⟩).1,
      (makeRoom sizeThreshold ⟨(s.makeRoom row.payload.blob.length).2.type,
        (s.makeRoom row.payload.blob.length).2.rows ++ [row]⟩).2) := rfl

/-- There is room for another record. -/
structure Roomy (s : FrameState) : Prop where
  empty : s.type = .empty → s.rows = []
  points : s.type = .dataEntry → s.rows.length < numTuples
  blobs : s.type = .snameEntry ∨ s.type = .recoveryEntry →
    sizeThreshold ≤ spaceLeft s.rows

theorem Roomy.known (h : s.Roomy) (hne : s.rows ≠ []) : s.type ≠ .empty :=
  fun hempty => hne (h.empty hempty)

theorem roomy_nil (type : FrameType) : Roomy ⟨type, []⟩ :=
  ⟨fun _ => rfl, fun _ => (show 0 < numTuples by decide),
    fun _ => (show sizeThreshold ≤ spaceLeft [] by decide)⟩

/-- The records that are written and those that are left. -/
def Next.all (next : Next) : List InputLogRow := next.1.flatten ++ next.2.rows

theorem require_all (type : FrameType) (s : FrameState) : (s.require type).all = s.rows := by
  rw [require]
  split
  · rfl
  · split
    · simp [Next.all]
    · rfl

theorem require_type (type : FrameType) (s : FrameState) : (s.require type).2.type = type := by
  rw [require]
  split
  · rfl
  · split
    · rfl
    · next h => exact of_not_not h

theorem Roomy.require (h : s.Roomy) (type : FrameType) : (s.require type).2.Roomy := by
  rw [FrameState.require]
  split
  · next hempty =>
    rw [h.empty hempty]
    exact roomy_nil type
  · split
    · exact roomy_nil type
    · exact h

theorem makeRoom_all (len : Nat) (s : FrameState) : (s.makeRoom len).all = s.rows := by
  rw [makeRoom]
  split
  · rfl
  · simp [Next.all]

theorem makeRoom_type (len : Nat) (s : FrameState) : (s.makeRoom len).2.type = s.type := by
  rw [makeRoom]
  split <;> rfl

theorem le_spaceLeft_makeRoom (s : FrameState) (hlen : len ≤ logBlockSize - frameHeaderSize - 16) :
    len ≤ spaceLeft (s.makeRoom len).2.rows := by
  rw [makeRoom]
  split
  · assumption
  · exact hlen

section
variable (row : InputLogRow) (s : FrameState)

theorem appendPoint_all : (s.appendPoint row).all = s.rows ++ [row] := by
  simp only [appendPoint]
  split
  · simp [Next.all, cleared]
  · rfl

theorem appendBlob_all : (s.appendBlob row).all = s.rows ++ [row] := by
  have hbefore := makeRoom_all row.payload.blob.length s
  have hafter := makeRoom_all sizeThreshold ⟨(s.makeRoom row.payload.blob.length).2.type,
      (s.makeRoom row.payload.blob.length).2.rows ++ [row]⟩
  simp only [Next.all, appendBlob, flatten_append, append_assoc] at hbefore hafter ⊢
  rw [hafter, ← append_assoc, hbefore]

theorem append_all : (s.append row).all = s.rows ++ [row] := by
  have hbefore := require_all row.payload.frameType s
  simp only [Next.all, append, flatten_append, append_assoc] at hbefore ⊢
  split
  · have hafter := appendPoint_all row (s.require row.payload.frameType).2
    rw [Next.all] at hafter
    rw [hafter, ← append_assoc, hbefore]
  · have hafter := appendBlob_all row (s.require row.payload.frameType).2
    rw [Next.all] at hafter
    rw [hafter, ← append_assoc, hbefore]

end

theorem Roomy.appendPoint (h : s.Roomy) (htype : s.type = .dataEntry) (row : InputLogRow) :
    (s.appendPoint row).2.Roomy := by
  simp only [FrameState.appendPoint]
  split
  · exact roomy_nil .empty
  · next hfull =>
    have hlt := h.points htype
    refine ⟨fun he => ?_, fun _ => ?_, fun hk => ?_⟩
    · cases htype.symm.trans he
    · simp only [length_append, length_singleton] at hfull ⊢
      omega
    · rcases hk with hk | hk <;> cases htype.symm.trans hk

theorem roomy_makeRoom (htype : type = .snameEntry ∨ type = .recoveryEntry)
    (rows : List InputLogRow) : (makeRoom sizeThreshold ⟨type, rows⟩).2.Roomy := by
  rw [makeRoom]
  split
  · next hroom =>
    refine ⟨fun he => ?_, fun hd => ?_, fun _ => hroom⟩
    · rcases htype with rfl | rfl <;> cases he
    · rcases htype with rfl | rfl <;> cases hd
  · exact roomy_nil type

theorem blob_type (h : row.payload.frameType ≠ .dataEntry) :
    row.payload.frameType = .snameEntry ∨ row.payload.frameType = .recoveryEntry := by
  obtain ⟨id, payload⟩ := row
  cases payload with
  | dataPoint _ => exact absurd rfl h
  | seriesName _ => exact .inl rfl
  | recoveryInfo _ => exact .inr rfl

theorem Roomy.append (h : s.Roomy) (row : InputLogRow) : (s.append row).2.Roomy := by
  have hrequired := h.require row.payload.frameType
  have htype := require_type row.payload.frameType s
  simp only [FrameState.append]
  split
  · next hpoint => exact hrequired.appendPoint (htype.trans hpoint) row
  · next hblob =>
    simp only [appendBlob]
    apply roomy_makeRoom
    rw [makeRoom_type, htype]
    exact blob_type hblob

def Next.Ends (next : Next) : Prop :=
  next.2.rows ≠ [] ∨ ∃ front last, next.1 = front ++ [last] ∧ last ≠ []

theorem append_ends : (s.append row).Ends := by
  have hne : ∀ rows : List InputLogRow, rows ++ [row] ≠ [] := by simp
  simp only [append]
  split
  · simp only [appendPoint]
    split
    · exact .inr ⟨_, _, rfl, hne _⟩
    · exact .inl (hne _)
  · simp only [appendBlob]
    rw [makeRoom.eq_def sizeThreshold]
    split
    · exact .inl (hne _)
    · exact .inr ⟨_, _, (append_assoc _ _ _).symm, hne _⟩

end FrameState

/-! ## Volumes -/

/-- The frames of the newest volume, its current frame, and the frames of the others. -/
structure LogPlan where
  written : List (List InputLogRow)
  state : FrameState
  older : List (List (List InputLogRow))

namespace LogPlan

def new : LogPlan := ⟨[], .cleared, []⟩

def kept {α : Type} (maxVolumes : Nat) (volumes : List α) : List α :=
  if maxVolumes ≤ volumes.length then volumes.dropLast else volumes

/-- The records of each volume, the newest first. -/
def rows (p : LogPlan) : List (List InputLogRow) :=
  (p.written.flatten ++ p.state.rows) :: p.older.map flatten

/-- The frames of all volumes, the oldest first. -/
def frames (p : LogPlan) : List (List (List InputLogRow)) := (p.written :: p.older).reverse

end LogPlan

section
variable (maxVolumes : Nat)

def LogOp.plan (op : LogOp) (p : LogPlan) : LogPlan :=
  match op with
  | .append row =>
    { p with written := p.written ++ (p.state.append row).1, state := (p.state.append row).2 }
  | .flush =>
    if p.state.rows = [] then p
    else { p with written := p.written ++ p.state.rest, state := .cleared }
  | .rotate => ⟨[], .cleared, LogPlan.kept maxVolumes ((p.written ++ p.state.rest) :: p.older)⟩

def planLog (ops : List LogOp) : LogPlan :=
  ops.foldl (fun p op => op.plan maxVolumes p) .new

/-- What the calls are for: the records of each volume, the newest first. -/
def LogOp.retain : LogOp → List (List InputLogRow) → List (List InputLogRow)
  | .append row, vs => (vs.headD [] ++ [row]) :: vs.tail
  | .rotate, vs => [] :: LogPlan.kept maxVolumes vs
  | .flush, vs => vs

def retained (ops : List LogOp) : List (List InputLogRow) :=
  ops.foldl (fun vs op => op.retain maxVolumes vs) [[]]

end

namespace LogPlan
variable {p : LogPlan} {maxVolumes : Nat}

theorem kept_map {α β : Type} (f : α → β) (l : List α) :
    (kept maxVolumes l).map f = kept maxVolumes (l.map f) := by
  rw [kept, kept, length_map]
  split
  · exact map_dropLast
  · rfl

theorem rest_flatten (s : FrameState) : s.rest.flatten = s.rows := by
  rw [FrameState.rest]
  split
  · next h => rw [h]; rfl
  · exact append_nil _

theorem rows_plan (op : LogOp) : (op.plan maxVolumes p).rows = op.retain maxVolumes p.rows := by
  cases op with
  | append row =>
    have hall := FrameState.append_all row p.state
    rw [FrameState.Next.all] at hall
    simp [plan, rows, retain, hall]
  | flush =>
    simp only [plan, retain]
    split
    · rfl
    · simp [rows, rest_flatten, FrameState.cleared]
  | rotate =>
    simp only [plan, rows, kept_map, map_cons, flatten_append, rest_flatten]
    rfl

theorem rows_run (ops : List LogOp) : (planLog maxVolumes ops).rows = retained maxVolumes ops := by
  have hrun : ∀ (ops : List LogOp) (p : LogPlan),
      (ops.foldl (fun p op => op.plan maxVolumes p) p).rows =
        ops.foldl (fun vs op => op.retain maxVolumes vs) p.rows := by
    intro ops
    induction ops with
    | nil => exact fun _ => rfl
    | cons op ops ih =>
      intro p
      rw [foldl_cons, foldl_cons, ih, rows_plan]
  exact hrun ops .new

def LastFull (frames : List (List InputLogRow)) : Prop := ∀ last, frames.getLast? = some last → last ≠ []

/-- There is room in the current frame, and what comes last in a volume has records. -/
structure Ends (p : LogPlan) : Prop where
  roomy : p.state.Roomy
  newest : p.state.rows ≠ [] ∨ LastFull p.written
  older : ∀ frames ∈ p.older, LastFull frames

theorem ends_new : new.Ends :=
  ⟨FrameState.roomy_nil .empty, .inr fun _ h => (by cases h), forall_mem_nil _⟩

/-- What is written when the newest volume is flushed or closed ends with records. -/
theorem Ends.lastFull_rest (h : p.Ends) : LastFull (p.written ++ p.state.rest) := by
  rw [FrameState.rest]
  split
  · next hnil =>
    rw [append_nil]
    exact h.newest.resolve_left (fun hne => hne hnil)
  · next hne =>
    intro last hlast
    rw [getLast?_concat] at hlast
    cases hlast
    exact hne

theorem mem_kept {α : Type} {a : α} {l : List α} (h : a ∈ kept maxVolumes l) : a ∈ l := by
  rw [kept] at h
  split at h
  · exact mem_of_mem_dropLast h
  · exact h

theorem Ends.plan (h : p.Ends) (maxVolumes : Nat) (op : LogOp) : (op.plan maxVolumes p).Ends := by
  cases op with
  | append row =>
    refine ⟨h.roomy.append row, ?_, h.older⟩
    rcases FrameState.append_ends with hne | ⟨front, last, hwritten, hne⟩
    · exact .inl hne
    · refine .inr fun last' hlast' => ?_
      have hall : (LogOp.plan maxVolumes (.append row) p).written = p.written ++ front ++ [last] := by
        rw [LogOp.plan, hwritten, append_assoc]
      rw [hall, getLast?_concat] at hlast'
      cases hlast'
      exact hne
  | flush =>
    simp only [LogOp.plan]
    split
    · exact h
    · exact ⟨FrameState.roomy_nil .empty, .inr h.lastFull_rest, h.older⟩
  | rotate =>
    refine ⟨FrameState.roomy_nil .empty, .inr fun _ hl => (by cases hl), ?_⟩
    intro frames hframes
    rcases mem_cons.mp (mem_kept hframes) with rfl | hmem
    · exact h.lastFull_rest
    · exact h.older frames hmem

theorem ends_run (ops : List LogOp) : (planLog maxVolumes ops).Ends := by
  have hrun : ∀ (ops : List LogOp) (p : LogPlan), p.Ends →
      (ops.foldl (fun p op => op.plan maxVolumes p) p).Ends := by
    intro ops
    induction ops with
    | nil => exact fun _ h => h
    | cons op ops ih => exact fun p h => ih _ (h.plan maxVolumes op)
  exact hrun ops .new ends_new

def NoEmptyFrame (p : LogPlan) : Prop := ∀ frames ∈ p.frames, ∀ rows ∈ frames, rows ≠ []

instance (p : LogPlan) : Decidable p.NoEmptyFrame := decidableBAll _ _

end LogPlan

end FastSTDB
