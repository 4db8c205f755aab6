import FastSTDB.InputLogRead

/-
  Log faults — appends to a volume whose frames may fail to be written

  Writing a frame fails with some of its bytes in the file, or when the file is flushed.
  The number of the frame and the state of the stream are used up in any case, and the
  frame stays where it is. A full frame that could not be written takes one more point
  with the next append, out of the bounds of its arrays. So the frames stay in their
  bounds exactly if each append that fills one writes it, or is the last
  (`sizes_bounded_iff`).

  Correspondence (C++ ↔ Lean):
    `_write_frame`, `_flush_file`               ↔ `FrameWrite`
    `LZ4Volume::write`                          ↔ `LZ4Volume.writeIo`
    `flush_current_frame`, `require_frame_type` ↔ `flushCurrentFrameIo`, `requireFrameTypeIo`
    `LZ4Volume::append` of a data point         ↔ `LZ4Volume.appendPointIo`
-/
namespace FastSTDB
open List Cells LogFrame

inductive FrameWrite where
  | done
  | failed (written : Nat)
  | flushFailed
  deriving DecidableEq

variable {σ δ : Type} (lz4 : Lz4 σ δ)

namespace LZ4Volume

section
variable (w : FrameWrite) (v : LZ4Volume σ) (seq : Nat)

def writeIo : Status × LZ4Volume σ × Nat :=
  let (v', seq) := v.write lz4 seq
  match w with
  | .done => (.ok, v', seq)
  | .failed n =>
    (.ioError, { v' with file := v'.file.take (v.file.length + n), fileSize := v.fileSize }, seq)
  | .flushFailed => (.ioError, v', seq)

def flushCurrentFrameIo (type : FrameType) : Status × LZ4Volume σ × Nat :=
  match v.writeIo lz4 w seq with
  | (.ok, v, seq) => (.ok, { v with frame := .setFrameType type .cleared }, seq)
  | failed => failed

def requireFrameTypeIo (type : FrameType) : Status × LZ4Volume σ × Nat :=
  if v.frame.frameType = some .empty then
    (.ok, { v with frame := .setFrameType type v.frame }, seq)
  else if v.frame.frameType ≠ some type then v.flushCurrentFrameIo lz4 w seq type
  else (.ok, v, seq)

/-- An append writes one frame at most: after a change of the type there is one point. -/
def appendPointIo (id : ParamId) (point : Point) : Status × LZ4Volume σ × Nat :=
  match v.requireFrameTypeIo lz4 w seq .dataEntry with
  | (.ok, v, seq) =>
    let v := { v with bitmap := addId id v.bitmap, frame := v.frame.pushPoint id point }
    if v.frame.size = numTuples then
      match v.writeIo lz4 w seq with
      | (.ok, v, seq) =>
        let v := { v with frame := .cleared }
        (v.room, v, seq)
      | failed => failed
    else (v.room, v, seq)
  | failed => failed

end

/-- Appends one after the other: their statuses, and the points in the current frame. -/
def sizesIo : List (FrameWrite × ParamId × Point) → LZ4Volume σ → Nat → List (Status × Nat)
  | [], _, _ => []
  | (w, id, point) :: ops, v, seq =>
    let out := v.appendPointIo lz4 w seq id point
    (out.1, out.2.1.frame.size) :: sizesIo ops out.2.1 out.2.2

variable {v : LZ4Volume σ} {n : Nat}

/-- The current frame has `n` points, and may get another one. -/
def Collects (v : LZ4Volume σ) (n : Nat) : Prop :=
  v.frame.size = n ∧ (v.frame.frameType = some .empty ∨ v.frame.frameType = some .dataEntry)

theorem stamped_size (f : LogFrame) : (f.stamped n).size = f.size :=
  (peek_poke_disjoint (by decide)).trans (peek_poke_disjoint (by decide))

theorem stamped_frameType (f : LogFrame) : (f.stamped n).frameType = f.frameType :=
  congrArg FrameType.ofCode
    ((peek_poke_disjoint (by decide)).trans (peek_poke_disjoint (by decide)))

/-- Only a full frame that is written is left; else there is one point more. -/
theorem Collects.appendPointIo (h : Collects v n) (hn : n ≤ numTuples) (w : FrameWrite)
    (seq : Nat) (id : ParamId) (point : Point) : Collects (v.appendPointIo lz4 w seq id point).2.1
      (if n + 1 = numTuples ∧ w = .done then 0 else n + 1) := by
  obtain ⟨f, hreq, hsize, htype⟩ : ∃ f, v.requireFrameTypeIo lz4 w seq .dataEntry =
      (.ok, { v with frame := f }, seq) ∧ f.size = n ∧ f.frameType = some .dataEntry := by
    rcases h.2 with he | hd
    · exact ⟨setFrameType .dataEntry v.frame, by simp [requireFrameTypeIo, he], h.1, by simp⟩
    · exact ⟨v.frame, by simp [requireFrameTypeIo, hd], h.1, hd⟩
  have hpush : (f.pushPoint id point).size = n + 1 := by
    rw [← hsize]
    exact peek_poke_self (by rw [hsize]; exact (Nat.succ_le_succ hn).trans_lt (by decide))
  have hdata := (frameType_pushPoint id point).trans htype
  simp only [LZ4Volume.appendPointIo, hreq, hpush]
  by_cases hfull : n + 1 = numTuples
  · rw [if_pos hfull]
    cases w with
    | done => simp [writeIo, hfull, Collects, holds_cleared.size, holds_cleared.frameType]
    | failed | flushFailed =>
      simp [writeIo, write, Collects, stamped_size, stamped_frameType, hpush, hdata]
  · simp [hfull, Collects, hpush, hdata]

/-- With `n` points in the frame, each of the appends that fills a frame writes it, but for the
last append. -/
def FramesWritten (n : Nat) (ops : List (FrameWrite × ParamId × Point)) : Prop :=
  ∀ i, i + 1 < ops.length → numTuples ∣ n + i + 1 → (ops.map Prod.fst)[i]? = some .done

theorem framesWritten_cons {op op' : FrameWrite × ParamId × Point}
    {ops : List (FrameWrite × ParamId × Point)} : FramesWritten n (op :: op' :: ops) ↔
      (numTuples ∣ n + 1 → op.1 = .done) ∧ FramesWritten (n + 1) (op' :: ops) := by
  have hshift : ∀ i, n + (i + 1) + 1 = n + 1 + i + 1 := fun i => by omega
  constructor
  · intro h
    refine ⟨fun hd => Option.some.inj (h 0 (by simp) hd), fun i hi hd => ?_⟩
    exact h (i + 1) (by simpa using hi) (hshift i ▸ hd)
  · rintro ⟨h0, h⟩ (_ | i) hi hd
    · exact congrArg some (h0 hd)
    · exact h i (by simpa using hi) (hshift i ▸ hd)

theorem framesWritten_full {ops : List (FrameWrite × ParamId × Point)} :
    FramesWritten numTuples ops ↔ FramesWritten 0 ops := by
  refine forall_congr' fun i => imp_congr_right fun _ => imp_congr_left ?_
  rw [add_assoc, zero_add]
  exact Nat.dvd_add_right (dvd_refl numTuples)

/-- By induction over the appends. A frame that failed to be written is full, so the next
point is one too many. -/
theorem Collects.bounded_iff : ∀ {ops : List (FrameWrite × ParamId × Point)} {v : LZ4Volume σ}
    {n : Nat}, Collects v n → n < numTuples → ∀ seq : Nat,
    ((∀ r ∈ v.sizesIo lz4 ops seq, r.2 ≤ numTuples) ↔ FramesWritten n ops)
  | [], _, _, _, _, _ => by simp [sizesIo, FramesWritten]
  | (w, id, point) :: ops, v, n, h, hn, seq => by
    have hfull : numTuples ∣ n + 1 ↔ n + 1 = numTuples :=
      ⟨fun hd => le_antisymm hn (Nat.le_of_dvd n.succ_pos hd), fun heq => by rw [heq]⟩
    have hstep := h.appendPointIo lz4 hn.le w seq id point
    rw [sizesIo]
    generalize v.appendPointIo lz4 w seq id point = out at hstep ⊢
    rw [forall_mem_cons]
    split at hstep
    · next hw =>
      rw [and_iff_right (hstep.1.trans_le zero_le), hstep.bounded_iff (by decide) out.2.2,
        ← framesWritten_full, ← hw.1]
      cases ops with
      | nil => simp [FramesWritten]
      | cons op ops => rw [framesWritten_cons, and_iff_right fun _ => hw.2]
    · next hw =>
      rw [and_iff_right (hstep.1.trans_le hn)]
      cases ops with
      | nil => simp [sizesIo, FramesWritten]
      | cons op ops =>
        rw [framesWritten_cons, hfull]
        by_cases hlast : n + 1 = numTuples
        · have hnext := hstep.appendPointIo lz4 hlast.le op.1 out.2.2 op.2.1 op.2.2
          rw [if_neg (by omega)] at hnext
          refine iff_of_false (fun hall => ?_) (fun hall => hw ⟨hlast, hall.1 hlast⟩)
          have hle := hall _ mem_cons_self
          rw [hnext.1] at hle
          omega
        · rw [and_iff_right (fun heq => absurd heq hlast)]
          exact hstep.bounded_iff (by omega) out.2.2

end LZ4Volume

/-- In a new volume the current frame never has more points than its arrays have room for exactly
if each append that fills a frame (every `NUM_TUPLES`-th one) writes it, or is the last append. -/
theorem sizes_bounded_iff (volumeSize : Nat) (ops : List (FrameWrite × ParamId × Point))
    (seq : Nat) : (∀ r ∈ (LZ4Volume.new lz4 volumeSize).sizesIo lz4 ops seq, r.2 ≤ numTuples) ↔
      ∀ i, i + 1 < ops.length → numTuples ∣ i + 1 → (ops.map Prod.fst)[i]? = some .done := by
  rw [LZ4Volume.Collects.bounded_iff lz4 (n := 0) ⟨rfl, .inl rfl⟩ (by decide) seq]
  simp only [LZ4Volume.FramesWritten, zero_add]

theorem sizes_replicate (op : ParamId × Point) : ∀ (k : Nat) {v : LZ4Volume σ} {n : Nat},
    v.Collects n → n + k = numTuples → ∀ seq : Nat,
    ∃ r ∈ v.sizesIo lz4 (replicate (k + 1) (.failed 0, op)) seq, r.2 = numTuples + 1
  | k, v, n, h, hk, seq => by
    have hstep := h.appendPointIo lz4 (by omega) (.failed 0) seq op.1 op.2
    rw [if_neg (fun hd => by cases hd.2)] at hstep
    cases k with
    | zero => exact ⟨_, mem_cons_self, hstep.1.trans (by omega)⟩
    | succ k =>
      obtain ⟨r, hr, hsize⟩ := sizes_replicate op k hstep (by omega) _
      exact ⟨r, mem_cons_of_mem _ hr, hsize⟩

/-- Points to a volume no frame of which can be written. -/
theorem sizes_overrun : ∃ r ∈ (LZ4Volume.new plainLz4 65536).sizesIo plainLz4
      (replicate (numTuples + 1) (.failed 0, 1, ⟨0, 0⟩)) 0, r.2 = numTuples + 1 :=
  sizes_replicate plainLz4 _ numTuples ⟨rfl, .inl rfl⟩ rfl 0

end FastSTDB
