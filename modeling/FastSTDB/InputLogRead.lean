import Mathlib.Algebra.Order.BigOperators.Group.List
import Mathlib.Data.List.Flatten
import FastSTDB.Lib.Pairs
import FastSTDB.InputLogSpec

/-
  Reading the input log — what `read_next` delivers

  A reader of a volume goes through the frames of the file (`Reads`). It delivers the
  records of a frame in portions of the caller's buffer size and stops at the end of the
  file or at a frame without records, because it delivers nothing there. So of a volume
  the frames before the first one without records are visible (`visibleRows`).

  What is proved:
    1. `LogReader.serves` — a log that is opened delivers the visible records of its
       volumes, the oldest first, whatever the sizes of the buffers.
    2. `wal_round_trip_iff` — after any run of appends, rotations and flushes, with a flush
       at the end, the records of the retained volumes are delivered in the order in
       which they were appended, if and only if no file has a frame without records.
    3. `wal_loses_record` — two names that fill a frame to its threshold, and a point:
       the point is not delivered.
    4. `wal_crash` — without the flush only appended records are delivered, in their
       order; if every frame has records, those of the current frame alone are missing.
-/
namespace FastSTDB
open List Cells Bytes LogReader FrameState
variable {σ δ : Type} {lz4 : Lz4 σ δ} {synced : σ → δ → Prop}
variable {n : Nat} {rows : List InputLogRow} {p : LogPlan} {log : InputLog σ}
  {dir : List (Nat × List UInt8)}

/-! ## Frames that are read -/

/-- The frame that comes out of the decompression. -/
def LogFrame.image (f : LogFrame) : LogFrame := store cleared 0 (load f 0 logBlockSize)

namespace LogFrame
variable {f : LogFrame}

theorem image_apply {k : Nat} (hk : k < logBlockSize) : f.image k = f k := by
  have hlen : k < (load f 0 logBlockSize).length := by rwa [length_load]
  have hcell : (load f 0 logBlockSize)[k] = f (0 + k) :=
    Option.some.inj ((getElem?_eq_getElem hlen).symm.trans (getElem?_load hk))
  have hstore : store cleared 0 (load f 0 logBlockSize) (0 + k) = _ := store_inside hlen
  rw [zero_add] at hstore hcell
  exact hstore.trans hcell

theorem load_image {offset : Nat} (h : offset + n ≤ logBlockSize) :
    load f.image offset n = load f offset n := by
  apply load_congr
  intro k hk
  exact image_apply (by omega)

theorem frameType_image : f.image.frameType = f.frameType := by
  rw [frameType, peek, load_image (by decide), frameType, peek]

theorem sequenceNumber_image : f.image.sequenceNumber = f.sequenceNumber := by
  rw [sequenceNumber, peek, load_image (by decide), sequenceNumber, peek]

theorem Holds.image {type : FrameType} (h : Holds f type rows) : Holds f.image type rows :=
  h.congr (fun _ _ hk => (image_apply hk).symm) frameType_image

end LogFrame

/-- The frame of a file, as it is read. -/
def WrittenFrame.image (w : WrittenFrame) : LogFrame := w.frame.image

theorem WrittenFrame.size_image (w : WrittenFrame) : w.image.size = w.rows.length :=
  w.holds.image.size

/-- The records before the first frame without any. -/
def visible (frames : List (List InputLogRow)) : List InputLogRow :=
  (frames.takeWhile fun rows => decide (rows ≠ [])).flatten

theorem visible_nil_cons (frames : List (List InputLogRow)) : visible ([] :: frames) = [] := by
  simp [visible]

theorem visible_cons (h : rows ≠ []) (frames : List (List InputLogRow)) :
    visible (rows :: frames) = rows ++ visible frames := by simp [visible, h]

abbrev visibleRows (ws : List WrittenFrame) : List InputLogRow := visible (ws.map (·.rows))

theorem readFrame_cons {out rest : List UInt8} (h : out.length ≤ lz4Bound) :
    readFrame lz4Bound (leBytes 4 out.length ++ out ++ rest) = some (out, rest) := by
  have hlen : (leBytes 4 out.length).length = 4 := length_leBytes 4 _
  have hsize : ofLe (leBytes 4 out.length) = out.length := by
    apply ofLe_leBytes
    exact h.trans_lt (by decide)
  have htake : (leBytes 4 out.length ++ out ++ rest).take 4 = leBytes 4 out.length := by
    rw [append_assoc, take_left' hlen]
  have hdrop : (leBytes 4 out.length ++ out ++ rest).drop 4 = out ++ rest := by
    rw [append_assoc, drop_left' hlen]
  have hlong : ¬ (leBytes 4 out.length ++ out ++ rest).length < 4 := by
    rw [length_append, length_append]
    omega
  have henough : ¬ (out ++ rest).length < out.length := by
    rw [length_append]
    omega
  rw [readFrame, if_neg hlong, htake, hdrop, hsize, min_eq_right h]
  simp only [if_neg henough, take_left, drop_left]

/-- The frames `ws` are left of the file. -/
structure Unread (lz4 : Lz4 σ δ) (synced : σ → δ → Prop) (r : VolumeReader δ)
    (ws : List WrittenFrame) : Prop where
  rest : ∃ s, synced s r.decode ∧ r.rest = (encodeFrames lz4 s ws).1
  bytes : r.bytesToRead = r.rest.length

section Reader
variable {r : VolumeReader δ} {ws : List WrittenFrame} {w : WrittenFrame}
  {pending : List InputLogRow}

theorem unread_openRo (hl : lz4.Lossless synced) {file : List UInt8}
    (h : file = (encodeFrames lz4 lz4.start ws).1) : Unread lz4 synced (.openRo lz4 file) ws :=
  ⟨⟨lz4.start, hl.start, h⟩, rfl⟩

theorem Unread.nil_bytes (h : Unread lz4 synced r []) : r.bytesToRead ≤ 0 := by
  obtain ⟨s, -, hrest⟩ := h.rest
  rw [h.bytes, hrest]
  exact Int.le_refl 0

theorem Unread.cons_bytes (h : Unread lz4 synced r (w :: ws)) : ¬ r.bytesToRead ≤ 0 := by
  obtain ⟨s, -, hrest⟩ := h.rest
  rw [h.bytes, hrest, encodeFrames, length_append, length_append, length_leBytes]
  omega

theorem Unread.read (hl : lz4.Lossless synced) (h : Unread lz4 synced r (w :: ws)) :
    ∃ (bytes : Nat) (r' : VolumeReader δ), r.read lz4 = (.ok, bytes, r') ∧ r'.frame = w.image ∧
      ∀ n, Unread lz4 synced
        { r' with bytesToRead := r'.bytesToRead - bytes, elementsToRead := n } ws := by
  obtain ⟨s, hsync, hrest⟩ := h.rest
  have hlen : (load w.frame 0 logBlockSize).length = logBlockSize := length_load _ _ _
  have himage : w.image = store LogFrame.cleared 0 (load w.frame 0 logBlockSize) := rfl
  rw [encodeFrames] at hrest
  generalize load w.frame 0 logBlockSize = block at hlen himage hrest
  obtain ⟨d, hdecode, hsync'⟩ := hl.block s r.decode block hsync hlen
  have hbound := hl.bound s block hlen
  generalize lz4.compress s block = out at hrest hdecode hsync' hbound
  refine ⟨out.1.length + 4,
    { r with frame := w.image, decode := d, rest := (encodeFrames lz4 out.2 ws).1 }, ?_, ?_, ?_⟩
  · rw [VolumeReader.read, hrest, readFrame_cons hbound]
    simp only [hdecode, himage]
  · simp only
  · intro n
    refine ⟨⟨out.2, hsync', rfl⟩, ?_⟩
    simp only [h.bytes, hrest, length_append, length_leBytes]
    omega

/-- The records `pending` are left of the current frame. -/
structure Reads (lz4 : Lz4 σ δ) (synced : σ → δ → Prop) (r : VolumeReader δ)
    (pending : List InputLogRow) (ws : List WrittenFrame) : Prop where
  unread : Unread lz4 synced r ws
  count : r.elementsToRead = pending.length
  frame : pending ≠ [] → ∃ type rows, type ≠ .empty ∧ r.frame.Holds type rows ∧ pending <:+ rows

theorem takeRows_eq {type : FrameType} (hholds : r.frame.Holds type rows) (hknown : type ≠ .empty)
    (hsuffix : pending <:+ rows) (hcount : r.elementsToRead = pending.length) (n : Nat) :
    r.takeRows n = ((.ok, pending.take n),
        { r with elementsToRead := r.elementsToRead - min n r.elementsToRead }) := by
  have hlen := hsuffix.length_le
  have hpending : rows.drop (rows.length - pending.length) = pending :=
    (suffix_iff_eq_drop.mp hsuffix).symm
  have hrows := hholds.rowsFrom hknown
    (show rows.length - pending.length + min n pending.length ≤ rows.length by omega)
  have htake : pending.take (min n pending.length) = pending.take n := by
    rw [take_eq_take_iff, Nat.min_assoc, Nat.min_self]
  rw [hpending, htake] at hrows
  have hstart : r.frame.size - r.elementsToRead = rows.length - pending.length := by
    rw [hholds.size, hcount]
  rw [VolumeReader.takeRows, hstart]
  simp only [hcount, hrows]

theorem Reads.takeRows (h : Reads lz4 synced r pending ws) (hne : pending ≠ []) (n : Nat) :
    ∃ r', r.takeRows n = ((.ok, pending.take n), r') ∧ Reads lz4 synced r' (pending.drop n) ws := by
  obtain ⟨type, rows, hknown, hholds, hsuffix⟩ := h.frame hne
  refine ⟨_, takeRows_eq hholds hknown hsuffix h.count n, ⟨h.unread.rest, h.unread.bytes⟩, ?_,
    fun _ => ⟨type, rows, hknown, hholds, (drop_suffix n pending).trans hsuffix⟩⟩
  simp only [h.count, length_drop]
  omega

/-- One call on a volume: some of what is visible is delivered, or nothing is left. -/
theorem Reads.readNext (hl : lz4.Lossless synced) (h : Reads lz4 synced r pending ws) (hn : 0 < n) :
    ∃ rows r', r.readNext lz4 n = ((.ok, rows), r') ∧ rows.length ≤ n ∧
      (rows = [] ∧ pending ++ visibleRows ws = [] ∨
        rows ≠ [] ∧ ∃ pending' ws', Reads lz4 synced r' pending' ws' ∧
          pending ++ visibleRows ws = rows ++ (pending' ++ visibleRows ws')) := by
  have htake_ne : ∀ {l : List InputLogRow}, l ≠ [] → l.take n ≠ [] := by
    intro l hl hnil
    rw [take_eq_nil_iff] at hnil
    exact hnil.elim (fun h0 => absurd h0 hn.ne') hl
  by_cases hpending : pending = []
  · subst hpending
    have hcount : r.elementsToRead = 0 := h.count
    rw [VolumeReader.readNext, if_pos hcount]
    cases ws with
    | nil =>
      rw [if_pos h.unread.nil_bytes]
      exact ⟨[], r, rfl, zero_le, .inl ⟨rfl, rfl⟩⟩
    | cons w ws =>
      rw [if_neg h.unread.cons_bytes]
      obtain ⟨bytes, r', hread, hframe, hunread⟩ := h.unread.read hl
      simp only [hread]
      -- the reader with the next frame
      have hreads : Reads lz4 synced { r' with
          bytesToRead := r'.bytesToRead - bytes, elementsToRead := r'.frame.size } w.rows ws := by
        refine ⟨hunread _, ?_, fun _ => ⟨w.type, w.rows, w.known, ?_, suffix_rfl⟩⟩
        · rw [hframe, w.size_image]
        · rw [hframe]
          exact w.holds.image
      by_cases hrows : w.rows = []
      · -- no records: the volume looks finished
        have hholds : r'.frame.Holds w.type w.rows := hframe ▸ w.holds.image
        have htake := takeRows_eq (r := { r' with
          bytesToRead := r'.bytesToRead - bytes, elementsToRead := r'.frame.size })
          hholds w.known suffix_rfl hreads.count n
        rw [htake, hrows, take_nil]
        refine ⟨[], _, rfl, zero_le, .inl ⟨rfl, ?_⟩⟩
        rw [nil_append, visibleRows, map_cons, hrows, visible_nil_cons]
      · obtain ⟨r2, htake, hreads2⟩ := hreads.takeRows hrows n
        refine ⟨_, r2, htake, length_take_le _ _, .inr ⟨htake_ne hrows, _, _, hreads2, ?_⟩⟩
        rw [nil_append, visibleRows, map_cons, visible_cons hrows, ← append_assoc, take_append_drop]
  · have hcount : ¬ r.elementsToRead = 0 := by
      rw [h.count]
      exact fun h0 => hpending (length_eq_zero_iff.mp h0)
    rw [VolumeReader.readNext, if_neg hcount]
    obtain ⟨r', htake, hreads⟩ := h.takeRows hpending n
    refine ⟨_, r', htake, length_take_le _ _, .inr ⟨htake_ne hpending, _, _, hreads, ?_⟩⟩
    rw [← append_assoc, take_append_drop]

end Reader

/-! ## Logs that are read -/

/-- The volumes of a log, with what is left of each. -/
def ReadsLog (lz4 : Lz4 σ δ) (synced : σ → δ → Prop) (rs : LogReader δ)
    (rows : List InputLogRow) : Prop :=
  ∃ left : List (List InputLogRow × List WrittenFrame),
    Forall₂ (fun r l => Reads lz4 synced r l.1 l.2) rs left ∧
      rows = left.flatMap fun l => l.1 ++ visibleRows l.2

theorem ReadsLog.readNext (hl : lz4.Lossless synced) (hn : 0 < n) :
    ∀ {rs : LogReader δ} {rows : List InputLogRow}, ReadsLog lz4 synced rs rows →
    ∃ out rest rs', rs.readNext lz4 n = ((.ok, out), rs') ∧ rows = out ++ rest ∧ out.length ≤ n ∧
      ReadsLog lz4 synced rs' rest ∧ (out ≠ [] ∨ rest = []) := by
  intro rs
  induction rs with
  | nil =>
    rintro rows ⟨left, hleft, rfl⟩
    cases hleft
    exact ⟨[], [], [], rfl, rfl, zero_le, ⟨[], .nil, rfl⟩, .inr rfl⟩
  | cons r rs ih =>
    rintro rows ⟨left, hleft, rfl⟩
    cases hleft with
    | @cons _ l _ ls hreads hrest =>
      obtain ⟨out, r', hread, hlen, hcase⟩ := hreads.readNext hl hn
      rw [LogReader.readNext, hread]
      rw [flatMap_cons]
      rcases hcase with ⟨rfl, hnone⟩ | ⟨hne, pending', ws', hreads', hrows⟩
      · -- the next volume answers
        rw [hnone]
        exact ih ⟨ls, hrest, rfl⟩
      · simp only [if_pos hne]
        rw [hrows, append_assoc]
        exact ⟨out, _, r' :: rs, rfl, rfl, hlen,
          ⟨(pending', ws') :: ls, .cons hreads' hrest, by rw [flatMap_cons]⟩, .inl hne⟩

theorem LogReader.serves (hl : lz4.Lossless synced) {rs : LogReader δ}
    (h : ReadsLog lz4 synced rs rows) :
    Pull.Serves (reader lz4) .ok .ok (.same InputLogRow) rs rows := by
  refine Pull.Serves.coinduct (ReadsLog lz4 synced) ?_ h
  intro rs rows h _ n hn
  obtain ⟨out, rest, rs', hread, hrows, hlen, hrest, hcase⟩ := h.readNext hl hn
  refine ⟨⟨.ok, out, rs', ()⟩, out, rest, ?_, hrows, rfl, hlen, hrest, ?_⟩
  · rw [reader, hread]
  · by_cases hne : out = []
    · refine .inr ⟨rfl, hcase.resolve_left (fun h => h hne), ?_⟩
      rw [hne]
      exact hn
    · exact .inl ⟨rfl, hne⟩

/-! ## Round trips -/

variable {frames : List (List InputLogRow)} {older : List (List WrittenFrame)}
  {ws : List WrittenFrame}

theorem visible_eq (h : ∀ rows ∈ frames, rows ≠ []) : visible frames = frames.flatten := by
  induction frames with
  | nil => rfl
  | cons rows frames ih =>
    rw [visible_cons (h rows mem_cons_self), flatten_cons, ih (forall_mem_cons.mp h).2]

theorem length_visible_le : (visible frames).length ≤ frames.flatten.length := by
  induction frames with
  | nil => exact le_refl 0
  | cons rows frames ih =>
    by_cases hrows : rows = []
    · rw [hrows]
      exact zero_le
    · rw [visible_cons hrows, flatten_cons, length_append, length_append]
      omega

theorem visible_append {front : List (List InputLogRow)} (hempty : [] ∈ front) :
    visible (front ++ frames) = visible front := by
  induction front with
  | nil => cases hempty
  | cons rows front ih =>
    rw [cons_append]
    by_cases hrows : rows = []
    · rw [hrows, visible_nil_cons, visible_nil_cons]
    · have hmem : [] ∈ front := (mem_cons.mp hempty).resolve_left (fun h => hrows h.symm)
      rw [visible_cons hrows, visible_cons hrows, ih hmem]

theorem length_visible_lt (hlast : LogPlan.LastFull frames)
    (hempty : [] ∈ frames) : (visible frames).length < frames.flatten.length := by
  obtain ⟨front, last, rfl⟩ : ∃ front last, frames = front ++ [last] :=
    ⟨_, _, (dropLast_append_getLast (ne_nil_of_mem hempty)).symm⟩
  have hne : last ≠ [] := hlast last getLast?_concat
  have hfront : [] ∈ front := by
    rcases mem_append.mp hempty with hmem | hmem
    · exact hmem
    · exact absurd (mem_singleton.mp hmem).symm hne
  calc (visible (front ++ [last])).length = (visible front).length := by
        rw [visible_append hfront]
    _ ≤ front.flatten.length := length_visible_le
    _ < front.flatten.length + last.length := Nat.lt_add_of_pos_right (length_pos_iff.mpr hne)
    _ = (front ++ [last]).flatten.length := by simp

/-- In a log without unwritten records all frames are visible exactly if all have records. -/
theorem LogPlan.visible_iff (hends : p.Ends) (hnone : p.state.rows = []) :
    p.frames.flatMap visible = p.frames.flatMap flatten ↔ p.NoEmptyFrame := by
  have hlast : ∀ frames ∈ p.frames, LastFull frames := by
    intro frames hframes
    rcases mem_cons.mp (mem_reverse.mp hframes) with rfl | hmem
    · exact hends.newest.resolve_left (fun hne => hne hnone)
    · exact hends.older frames hmem
  constructor
  · intro heq frames hframes rows hrows hnil
    rw [hnil] at hrows
    have hlt : (p.frames.flatMap visible).length < (p.frames.flatMap flatten).length := by
      rw [length_flatMap, length_flatMap]
      exact sum_lt_sum _ _ (fun frames _ => length_visible_le)
        ⟨frames, hframes, length_visible_lt (hlast frames hframes) hrows⟩
    rw [heq] at hlt
    exact lt_irrefl _ hlt
  · intro hfull
    apply flatMap_congr
    intro frames hframes
    exact visible_eq (hfull frames hframes)

theorem LogPlan.rows_flush (maxVolumes : Nat) (ops : List LogOp) :
    (planLog maxVolumes (ops ++ [.flush])).state.rows = [] ∧
      (planLog maxVolumes (ops ++ [.flush])).frames.flatMap flatten =
        (retained maxVolumes ops).reverse.flatten := by
  have hplan : planLog maxVolumes (ops ++ [.flush]) =
      LogOp.plan maxVolumes .flush (planLog maxVolumes ops) := by
    rw [planLog, foldl_append]
    rfl
  have hkept : retained maxVolumes (ops ++ [.flush]) = retained maxVolumes ops := by
    rw [retained, foldl_append]
    rfl
  have hnone : (planLog maxVolumes (ops ++ [.flush])).state.rows = [] := by
    rw [hplan, plan_flush]
    split
    · assumption
    · rfl
  refine ⟨hnone, ?_⟩
  rw [← hkept, ← rows_run, rows, hnone, append_nil, frames, ← map_cons, ← map_reverse, flatMap_def]

/-- The numbers of the files are different, so there is only one order. -/
theorem sorted_files (hdesc : (log.volumes.map Prod.fst).Pairwise (· > ·))
    (hdir : dir.Perm log.files) : dir.insertionSort (fun a b => a.1 ≤ b.1) = log.files.reverse := by
  have hkeys : log.files.map Prod.fst = log.volumes.map Prod.fst := by
    rw [InputLog.files, map_map]
    rfl
  rw [← hkeys] at hdesc
  have hdesc' : log.files.Pairwise fun a b => a.1 > b.1 := pairwise_map.mp hdesc
  have hnodup : (log.files.map Prod.fst).Nodup := hdesc.imp fun h => h.ne'
  refine Perm.eq_of_pairwise ?_ (pairwise_insertionSort (fun a b => a.1 ≤ b.1) dir) ?_ ?_
  · intro a b ha hb hle hge
    have ha' : a ∈ log.files := hdir.subset ((mem_insertionSort _).mp ha)
    exact inj_on_of_nodup_map hnodup ha' (mem_reverse.mp hb) (le_antisymm hle hge)
  · rw [pairwise_reverse]
    exact hdesc'.imp fun h => h.le
  · exact ((perm_insertionSort _ dir).trans hdir).trans (reverse_perm _).symm

/-- The files of a directory, in the order of their numbers, hold the frames of these volumes. -/
def FilesHold (lz4 : Lz4 σ δ) (dir : List (Nat × List UInt8)) (volumes : List (List WrittenFrame)) :
    Prop :=
  Forall₂ (fun file ws => file.2 = (encodeFrames lz4 lz4.start ws).1)
    (dir.insertionSort fun a b => a.1 ≤ b.1) volumes

theorem Logged.filesHold (h : Logged lz4 log p ws older) (hdir : dir.Perm log.files) :
    FilesHold lz4 dir (ws :: older).reverse := by
  have hall : Forall₂ (fun v ws => Wrote lz4 v.2 ws) log.volumes (ws :: older) :=
    .cons h.newest.wrote h.closed
  rw [FilesHold, sorted_files h.descending hdir, forall₂_reverse_iff, InputLog.files,
    forall₂_map_left_iff]
  exact hall.imp fun _ _ hwrote => hwrote.file

theorem FilesHold.unread (hl : lz4.Lossless synced) {volumes : List (List WrittenFrame)}
    (h : FilesHold lz4 dir volumes) : Forall₂ (Unread lz4 synced) (openLog lz4 dir) volumes := by
  rw [openLog, forall₂_map_left_iff]
  exact h.imp fun _ _ hfile => unread_openRo hl hfile

/-- A log that is opened has every frame of its files to deliver. -/
theorem Logged.reads (hl : lz4.Lossless synced) (h : Logged lz4 log p ws older)
    (hdir : dir.Perm log.files) :
    ReadsLog lz4 synced (openLog lz4 dir) (p.frames.flatMap visible) := by
  have hunread := (h.filesHold hdir).unread hl
  have hopened : ∀ r ∈ openLog lz4 dir, r.elementsToRead = 0 := by
    intro r hr
    obtain ⟨file, -, rfl⟩ := mem_map.mp hr
    rfl
  refine ⟨(ws :: older).reverse.map fun ws => ([], ws), ?_, ?_⟩
  · rw [forall₂_map_right_iff]
    refine Pairs.imp_mem hunread fun r hr ws _ hr' => ⟨hr', hopened r hr, absurd rfl⟩
  · rw [LogPlan.frames, ← h.written, ← h.planned, ← map_cons, ← map_reverse,
      flatMap_map, flatMap_map]
    rfl

theorem drain_run (hl : lz4.Lossless synced) (maxVolumes volumeSize seq : Nat) {ops : List LogOp}
    (hfits : ∀ op ∈ ops, op.Fits)
    (hdir : dir.Perm (runLog lz4 ops (.new lz4 maxVolumes volumeSize, seq)).1.files)
    {sizes : Nat → Nat} (hsizes : ∀ i, 0 < sizes i) :
    ∃ fuel, Pull.drain (reader lz4) .ok fuel () (openLog lz4 dir) sizes =
      some ((planLog maxVolumes ops).frames.flatMap visible, .ok) := by
  obtain ⟨ws, older, hlogged⟩ := logged_run lz4 maxVolumes volumeSize seq hfits
  have hserves := serves hl (hlogged.reads hl hdir)
  exact ⟨_, hserves.drain_eq _ () sizes (lt_add_one _) hsizes⟩

theorem fits_flush {ops : List LogOp} (hfits : ∀ op ∈ ops, op.Fits) :
    ∀ op ∈ ops ++ [.flush], op.Fits := by
  exact forall_mem_append.mpr ⟨hfits, forall_mem_singleton.mpr trivial⟩

/-- Round trip of the log. A run of appends, rotations and flushes ends with a flush, and
the files are opened in any order. Draining returns the records of the retained volumes
in the order of their appends, with end of data behind them, exactly if every frame of
the plan has records. -/
theorem wal_round_trip_iff (hl : lz4.Lossless synced) (maxVolumes volumeSize seq : Nat)
    {ops : List LogOp} (hfits : ∀ op ∈ ops, op.Fits) {dir : List (Nat × List UInt8)}
    (hdir : dir.Perm (runLog lz4 (ops ++ [.flush]) (.new lz4 maxVolumes volumeSize, seq)).1.files)
    {sizes : Nat → Nat} (hsizes : ∀ i, 0 < sizes i) :
    (∃ fuel, Pull.drain (reader lz4) .ok fuel () (openLog lz4 dir) sizes =
        some ((retained maxVolumes ops).reverse.flatten, .ok)) ↔
      (planLog maxVolumes (ops ++ [.flush])).NoEmptyFrame := by
  obtain ⟨hnone, hrows⟩ := LogPlan.rows_flush maxVolumes ops
  rw [← LogPlan.visible_iff (LogPlan.ends_run _) hnone, hrows]
  obtain ⟨fuel, hdrain⟩ := drain_run hl maxVolumes volumeSize seq (fits_flush hfits) hdir hsizes
  constructor
  · rintro ⟨fuel', heq⟩
    exact (Prod.mk.inj (Pull.drain_unique hdrain heq)).1
  · intro heq
    rw [heq] at hdrain
    exact ⟨fuel, hdrain⟩

/-- A compression that leaves the blocks as they are. -/
def plainLz4 : Lz4 Unit Unit := ⟨(), (), fun _ block => (block, ()), fun _ bytes => some (bytes, ())⟩

theorem plainLz4_lossless : plainLz4.Lossless fun _ _ => True where
  start := trivial
  pos := by
    intro s block hlen
    rw [plainLz4, hlen]
    decide
  bound := by
    intro s block hlen
    rw [plainLz4, hlen]
    decide
  block := fun _ _ _ _ _ => ⟨(), rfl, trivial⟩

/-- Two volumes are kept, and a run with records of all kinds rotates twice: the records of the
first volume are gone. -/
theorem wal_round_trip_rotated :
    let ops : List LogOp := [.append ⟨7, .seriesName [99, 112, 117]⟩, .append ⟨7, .dataPoint ⟨10, 20⟩⟩,
      .rotate, .append ⟨8, .recoveryInfo [619]⟩, .append ⟨7, .dataPoint ⟨11, 21⟩⟩,
      .append ⟨8, .dataPoint ⟨12, 22⟩⟩, .rotate, .append ⟨9, .seriesName [109, 101, 109]⟩]
    ∃ fuel, Pull.drain (reader plainLz4) .ok fuel () (openLog plainLz4
          (runLog plainLz4 (ops ++ [.flush]) (.new plainLz4 2 65536, 0)).1.files) (fun _ => 2) =
      some ([⟨8, .recoveryInfo [619]⟩, ⟨7, .dataPoint ⟨11, 21⟩⟩, ⟨8, .dataPoint ⟨12, 22⟩⟩,
        ⟨9, .seriesName [109, 101, 109]⟩], .ok) := by
  intro ops
  have hfits : ∀ op ∈ ops, op.Fits := by simp [ops, LogOp.Fits]; decide
  exact (wal_round_trip_iff plainLz4_lossless 2 65536 0 hfits (Perm.refl _)
    (fun _ => zero_lt_two)).mpr (by decide)

/-- Names that leave less than the threshold in the first frame, and a point. -/
theorem frames_names_point {n1 n2 p : InputLogRow} (h1 : n1.payload.frameType = .snameEntry)
    (h2 : n2.payload.frameType = .snameEntry) (hp : p.payload.frameType = .dataEntry)
    (hlen1 : n1.payload.blob.length = 4096) (hlen2 : n2.payload.blob.length = 4000)
    (maxVolumes : Nat) : (planLog maxVolumes [.append n1, .append n2, .append p, .flush]).frames =
      [[[n1, n2], [], [p]]] := by
  simp [planLog, LogOp.plan, LogPlan.new, LogPlan.frames, append, require,
    appendBlob, makeRoom, spaceLeft, cleared,
    appendPoint, rest, LogFrame.blobBytes, h1, h2, hp, hlen1, hlen2,
    logBlockSize, frameHeaderSize, LZ4Volume.sizeThreshold, numTuples]

/-- The point is in the file, and it is not read. -/
theorem wal_loses_record :
    let n₁ : InputLogRow := ⟨1, .seriesName (replicate 4096 97)⟩
    let n₂ : InputLogRow := ⟨2, .seriesName (replicate 4000 98)⟩
    let p : InputLogRow := ⟨1, .dataPoint ⟨10, 20⟩⟩
    let ops : List LogOp := [.append n₁, .append n₂, .append p]
    (retained 4 ops).reverse.flatten = [n₁, n₂, p] ∧
      ∃ fuel, Pull.drain (reader plainLz4) .ok fuel () (openLog plainLz4
            (runLog plainLz4 (ops ++ [.flush]) (.new plainLz4 4 65536, 0)).1.files) (fun _ => 16) =
        some ([n₁, n₂], .ok) := by
  intro n₁ n₂ p ops
  have hlen1 : n₁.payload.blob.length = 4096 := length_replicate
  have hlen2 : n₂.payload.blob.length = 4000 := length_replicate
  have hfits : ∀ op ∈ ops ++ [.flush], op.Fits := by
    apply fits_flush
    intro op hop
    simp only [ops, mem_cons, not_mem_nil, or_false] at hop
    rcases hop with rfl | rfl | rfl
    · rw [LogOp.Fits, InputLogRow.Fits, hlen1]
      decide
    · rw [LogOp.Fits, InputLogRow.Fits, hlen2]
      decide
    · exact zero_le
  refine ⟨rfl, ?_⟩
  have hsizes : ∀ i : Nat, 0 < (fun _ => 16) i := fun _ => Nat.zero_lt_succ 15
  obtain ⟨fuel, hdrain⟩ := drain_run plainLz4_lossless 4 65536 0 hfits (Perm.refl _) hsizes
  refine ⟨fuel, ?_⟩
  rw [hdrain]
  have hframes : (planLog 4 (ops ++ [.flush])).frames = [[[n₁, n₂], [], [p]]] :=
    frames_names_point rfl rfl rfl hlen1 hlen2 4
  rw [hframes]
  simp only [flatMap_cons, flatMap_nil, append_nil]
  rw [visible_cons (cons_ne_nil _ _), visible_nil_cons, append_nil]

/-! ## A log whose process is gone -/

/-- The record of an append. -/
def LogOp.row? : LogOp → Option InputLogRow
  | .append row => some row
  | _ => none

theorem retain_sublist (maxVolumes : Nat) (op : LogOp) (vs : List (List InputLogRow)) :
    (op.retain maxVolumes vs).reverse.flatten <+ vs.reverse.flatten ++ op.row?.toList := by
  cases op with
  | append row => cases vs <;> simp [LogOp.retain, LogOp.row?]
  | flush => simp [LogOp.retain]
  | rotate => simpa [LogOp.retain, LogOp.row?] using (kept_sublist maxVolumes vs).reverse.flatten

theorem retained_sublist (maxVolumes : Nat) (ops : List LogOp) :
    (retained maxVolumes ops).reverse.flatten <+ ops.filterMap LogOp.row? := by
  induction ops using reverseRecOn with
  | nil => exact .slnil
  | append_singleton ops op ih =>
    rw [retained, foldl_concat, filterMap_append]
    exact (retain_sublist maxVolumes op _).trans (ih.append_right _)

theorem LogPlan.frames_rows (p : LogPlan) :
    p.frames.flatMap flatten ++ p.state.rows = p.rows.reverse.flatten := by
  simp [frames, rows, flatMap_def]

/-- The process ends at any moment, with records still in the current frame. What is read of the
files, in any order, are appended records, none of them twice and in the order of their appends;
and if every frame has records, only those in the current frame are missing. -/
theorem wal_crash (hl : lz4.Lossless synced) (maxVolumes volumeSize seq : Nat) {ops : List LogOp}
    (hfits : ∀ op ∈ ops, op.Fits)
    (hdir : dir.Perm (runLog lz4 ops (.new lz4 maxVolumes volumeSize, seq)).1.files)
    {sizes : Nat → Nat} (hsizes : ∀ i, 0 < sizes i) :
    ∃ fuel out, Pull.drain (reader lz4) .ok fuel () (openLog lz4 dir) sizes = some (out, .ok) ∧
      out <+ ops.filterMap LogOp.row? ∧ ((planLog maxVolumes ops).NoEmptyFrame →
        out ++ (planLog maxVolumes ops).state.rows = (retained maxVolumes ops).reverse.flatten) := by
  obtain ⟨fuel, hdrain⟩ := drain_run hl maxVolumes volumeSize seq hfits hdir hsizes
  have hrows := (planLog maxVolumes ops).frames_rows
  rw [LogPlan.rows_run] at hrows
  refine ⟨fuel, _, hdrain, .trans ?_ (retained_sublist maxVolumes ops), fun hfull => ?_⟩
  · have hvisible : (planLog maxVolumes ops).frames.flatMap visible <+
        (planLog maxVolumes ops).frames.flatMap flatten :=
      .flatMap_right _ fun frames _ => (takeWhile_sublist _).flatten
    rw [← hrows]
    exact hvisible.trans (sublist_append_left _ _)
  · rw [← hrows, flatMap_congr fun frames hframes => visible_eq (hfull frames hframes)]

/-- Without a flush the second point is in no file. -/
theorem wal_crash_points :
    let ops : List LogOp :=
      [.append ⟨7, .dataPoint ⟨10, 20⟩⟩, .flush, .append ⟨7, .dataPoint ⟨11, 30⟩⟩]
    ∃ fuel out, Pull.drain (reader plainLz4) .ok fuel ()
        (openLog plainLz4 (runLog plainLz4 ops (.new plainLz4 4 65536, 0)).1.files) (fun _ => 1) =
      some (out, .ok) ∧ out ++ [⟨7, .dataPoint ⟨11, 30⟩⟩] = ops.filterMap LogOp.row? := by
  intro ops
  have hfits : ∀ op ∈ ops, op.Fits := by simp [ops, LogOp.Fits]; decide
  obtain ⟨fuel, out, hdrain, -, hrows⟩ := wal_crash plainLz4_lossless 4 65536 0 hfits
    (Perm.refl _) fun _ => zero_lt_one
  exact ⟨fuel, out, hdrain, hrows (by decide)⟩

end FastSTDB
