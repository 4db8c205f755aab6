import FastSTDB.RoundTrip

/-
  Block codec — the invariant of a block writer

  `Contents bytes nchunks ntail pts` says that a block body decodes to `pts`:
  `nchunks` chunks, `ntail` raw points, then bytes no reader looks at. A writer
  that has accepted the points `pts` satisfies `Holds` (after an overflow a
  stray half point may lie at the end of the stream) and, as long as it may be
  written to, `Open`. `put_spec`, `commit_spec` and `readN_contents` are all the
  tree needs to know about the codec.
-/
namespace FastSTDB
open List Bytes IOVecBlock IOVecBlockReader
open IOVecBlockWriter (flushTail margin putChunk roomForChunk)

variable {pts : List Point} {base : Nat} {w : IOVecBlockWriter}

/-- Encoders of a fresh block. -/
def initState : UInt64 × DfcmPredictor := (0, .init)

/-- The body `bytes` holds the chunks `chunks` and then the raw points `raw`. -/
def Body (bytes : List UInt8) (chunks : List (List Point)) (raw : List Point) : Prop :=
  (∀ c ∈ chunks, c.length = chunkSize) ∧
    ∃ junk, bytes = encChunks initState chunks ++ (raw.flatMap encPoint ++ junk)

/-- A block body with these header counters decodes to `pts`. -/
def Contents (bytes : List UInt8) (nchunks ntail : Nat) (pts : List Point) : Prop :=
  ∃ chunks raw, Body bytes chunks raw ∧ nchunks = chunks.length ∧ ntail = raw.length ∧
    pts = chunks.flatten ++ raw

/-! ## Reading -/

theorem readN_chunks : ∀ (chunks : List (List Point)) (r : IOVecBlockReader)
    (st : UInt64 × DfcmPredictor) (rest : List UInt8), (∀ c ∈ chunks, c.length = chunkSize) →
    r.AtChunk st (encChunks st chunks ++ rest) →
    r.readIndex + chunks.length * chunkSize ≤ r.mainSize →
    ∃ r', (∀ m, readN (chunks.length * chunkSize + m) r =
        (readN m r').map (fun (st, ps) => (st, chunks.flatten ++ ps))) ∧
      r'.stream.rest = rest ∧ r'.readIndex = r.readIndex + chunks.length * chunkSize ∧
      r'.nchunks = r.nchunks ∧ r'.ntail = r.ntail
  | [], r, st, rest, _, h, _ => by
    refine ⟨r, fun m => ?_, h.1.1, by simp, rfl, rfl⟩
    simp
  | c :: chunks, r, st, rest, hlen, h, hmain => by
    rw [encChunks, append_assoc] at h
    have hm : (c :: chunks).length * chunkSize = chunkSize + chunks.length * chunkSize := by
      rw [length_cons, Nat.succ_mul, add_comm]
    rw [hm] at hmain ⊢
    obtain ⟨r1, hr1, hat, hidx, hnc, hnt⟩ := readN_chunk (hlen c (by simp)) h (by omega)
    have hmain1 : r1.mainSize = r.mainSize := by simp only [mainSize, hnc]
    obtain ⟨r', hr', hrest, hidx', hnc', hnt'⟩ :=
      readN_chunks chunks r1 _ rest (fun c' hc' => hlen c' (by simp [hc'])) hat
        (by rw [hmain1]; omega)
    refine ⟨r', fun m => ?_, hrest, by rw [hidx']; omega, by rw [hnc', hnc],
      by rw [hnt', hnt]⟩
    rw [add_assoc, hr1, hr', Option.map_map]
    simp only [flatten_cons, append_assoc]
    rfl

theorem readN_raw : ∀ (raw : List Point) (r : IOVecBlockReader) (junk : List UInt8),
    r.mainSize ≤ r.readIndex → r.readIndex + raw.length ≤ r.nelements →
    r.stream.rest = raw.flatMap encPoint ++ junk → readN raw.length r = some (.ok, raw)
  | [], _, _, _, _, _ => rfl
  | p :: raw, r, junk, hmain, hne, hrest => by
    have hnm : ¬ r.readIndex < r.mainSize := by omega
    have hlt : r.readIndex < r.nelements := by simp only [length_cons] at hne; omega
    have h256 : ∀ v : UInt64, v.toNat < 256 ^ 8 := fun v => v.toNat_lt
    simp only [flatMap_cons, encPoint, append_assoc] at hrest
    have h1 := r.stream.readRaw_append _ _ hrest
    have h2 := IOVecVByteStreamReader.readRaw_append
      { r.stream with rest := leBytes 8 p.value.toNat ++ (raw.flatMap encPoint ++ junk) }
      _ _ rfl
    rw [length_leBytes, ofLe_leBytes (h256 _)] at h1 h2
    have hr : r.next = some (.ok, p, { r with
        stream := { r.stream with rest := raw.flatMap encPoint ++ junk },
        readIndex := r.readIndex + 1 }) := by
      simp [IOVecBlockReader.next, hnm, hlt, h1, h2]
    have hrec := readN_raw raw { r with
        stream := { r.stream with rest := raw.flatMap encPoint ++ junk },
        readIndex := r.readIndex + 1 } junk (Nat.le_succ_of_le hmain) (by
        simp only [length_cons] at hne
        show r.readIndex + 1 + raw.length ≤ r.nelements
        omega) rfl
    rw [length_cons, readN_succ hr, hrec]
    rfl

variable {bytes : List UInt8} {w' : IOVecBlockWriter}

theorem readN_contents {nchunks ntail : Nat} (h : Contents bytes nchunks ntail pts) :
    readN (init nchunks ntail bytes).nelements (init nchunks ntail bytes) = some (.ok, pts) := by
  obtain ⟨chunks, raw, ⟨hlen, junk, hbytes⟩, rfl, rfl, rfl⟩ := h
  have hat : (init chunks.length raw.length bytes).AtChunk initState
      (encChunks initState chunks ++ (raw.flatMap encPoint ++ junk)) :=
    ⟨⟨hbytes, rfl, rfl⟩, rfl, rfl, ⟨rfl, rfl, rfl⟩, rfl⟩
  obtain ⟨r, hr, hrest, hidx, hnc, hnt⟩ := readN_chunks chunks _ _ _ hlen hat (by
    simp only [init, mainSize]; omega)
  have hn : (init chunks.length raw.length bytes).nelements =
      chunks.length * chunkSize + raw.length := by simp only [nelements, init]; omega
  have hraw := readN_raw raw r junk (by rw [mainSize, hnc]; simp only [init]; omega)
    (by rw [hidx, nelements, hnc, hnt]; simp only [init]; omega) hrest
  rw [hn, hr, hraw]
  rfl

theorem Contents.append {nchunks ntail : Nat} (h : Contents bytes nchunks ntail pts)
    (more : List UInt8) : Contents (bytes ++ more) nchunks ntail pts := by
  obtain ⟨chunks, raw, ⟨hlen, junk, hbytes⟩, hc, ht, hp⟩ := h
  refine ⟨chunks, raw, ⟨hlen, junk ++ more, ?_⟩, hc, ht, hp⟩
  rw [hbytes]
  simp

/-! ## Writing -/

section
variable (base : Nat) (w : IOVecBlockWriter)

/-- The writer has accepted `pts`: some are in the stream, the rest, fewer than a
chunk, in the write buffer. Points are buffered only while a chunk fits, and
once it does not the buffer stays empty. -/
structure HoldsAs (chunks : List (List Point)) (raw : List Point) (junk : List UInt8) : Prop where
  base : w.block.base = base
  len16 : ∀ c ∈ chunks, c.length = chunkSize
  bytes : w.block.bytes = encChunks initState chunks ++ (raw.flatMap encPoint ++ junk)
  fits : w.block.size ≤ faststdbBlockSize
  nchunks : w.nchunks = chunks.length
  ntail : w.ntail = raw.length
  state : (w.prev, w.predictor) = chunks.foldl chunkState initState
  index : w.writeIndex = chunkSize * chunks.length + w.writebuf.length
  buflt : w.writebuf.length < chunkSize
  room : w.writebuf ≠ [] → raw = [] ∧ junk = [] ∧ w.roomForChunk = true
  full : raw ≠ [] → w.roomForChunk = false

/-- The writer of a block with `base` header bytes may be written to and has accepted `pts`. -/
def OpenAt (pts : List Point) : Prop :=
  ∃ chunks raw, HoldsAs base w chunks raw [] ∧ pts = chunks.flatten ++ raw ++ w.writebuf

/-- The writer of a block with `base` header bytes has accepted `pts`. -/
def HoldsAt (pts : List Point) : Prop :=
  ∃ chunks raw junk, HoldsAs base w chunks raw junk ∧ pts = chunks.flatten ++ raw ++ w.writebuf

end

abbrev Open (w : IOVecBlockWriter) (pts : List Point) : Prop :=
  OpenAt (subtreeRefSize + blockHeaderSize) w pts

abbrev Holds (w : IOVecBlockWriter) (pts : List Point) : Prop :=
  HoldsAt (subtreeRefSize + blockHeaderSize) w pts

theorem OpenAt.holds (h : OpenAt base w pts) : HoldsAt base w pts := by
  obtain ⟨chunks, raw, hw, hp⟩ := h
  exact ⟨chunks, raw, [], hw, hp⟩

theorem openAt_new (hbase : base ≤ faststdbBlockSize) :
    OpenAt base { IOVecBlockWriter.init with block := ⟨base, []⟩ } [] := by
  have hpos : 0 < chunkSize := by decide
  refine ⟨[], [], ⟨rfl, by simp, rfl, hbase, rfl, rfl, rfl, rfl, hpos, ?_, ?_⟩, rfl⟩
  · intro h; exact absurd rfl h
  · intro h; exact absurd rfl h

theorem open_init : Open .init [] := openAt_new (by decide)

theorem HoldsAt.contents_stream (h : HoldsAt base w pts) :
    ∃ front, Contents w.block.bytes w.nchunks w.ntail front ∧ pts = front ++ w.writebuf := by
  obtain ⟨chunks, raw, junk, hw, hp⟩ := h
  exact ⟨chunks.flatten ++ raw, ⟨chunks, raw, ⟨hw.len16, junk, hw.bytes⟩, hw.nchunks, hw.ntail, rfl⟩,
    hp⟩

theorem roomForChunk_iff : w.roomForChunk = true ↔ w.block.size + margin ≤ faststdbBlockSize := by
  rw [roomForChunk, Bool.not_eq_true', decide_eq_false_iff_not]
  simp only [spaceLeft, margin]
  omega

theorem roomForChunk_eq_false_iff :
    w.roomForChunk = false ↔ faststdbBlockSize < w.block.size + margin := by
  rw [← Bool.not_eq_true, roomForChunk_iff]
  omega

theorem full_append (hroom : w.roomForChunk = false) {bs : List UInt8}
    (hblock : w'.block = w.block.append bs) : w'.roomForChunk = false := by
  rw [roomForChunk_eq_false_iff] at hroom ⊢
  rw [hblock, size_append]
  omega

theorem putRaw_full {b : IOVecBlock} {k n : Nat} (hb : b.size ≤ faststdbBlockSize)
    (h : faststdbBlockSize < b.size + k) : putRaw b k n = (false, b) := by
  have hs : BlockT.spaceLeft b < k := by rw [spaceLeft_eq]; omega
  rw [putRaw, if_pos hs]

/-- A raw write of one point succeeds, or fails leaving at most half a point. -/
theorem putPoint_cases {b : IOVecBlock} (hb : b.size ≤ faststdbBlockSize) (p : Point) :
    (putPoint b p = (true, b.append (encPoint p)) ∧
        (b.append (encPoint p)).size ≤ faststdbBlockSize) ∨
      ∃ junk, putPoint b p = (false, b.append junk) ∧ (b.append junk).size ≤ faststdbBlockSize := by
  have hts : (b.append (leBytes 8 p.ts.toNat)).size = b.size + 8 := by
    rw [size_append, length_leBytes]
  unfold putPoint
  by_cases h1 : b.size + 8 ≤ faststdbBlockSize
  · have hf1 : b.Fits (leBytes 8 p.ts.toNat) := by simpa [Fits] using h1
    by_cases h2 : b.size + 16 ≤ faststdbBlockSize
    · left
      have hf2 : (b.append (leBytes 8 p.ts.toNat)).Fits (leBytes 8 p.value.toNat) := by
        simp only [Fits, length_leBytes]; omega
      simp only [putRaw_fit hf1, andThen_true, putRaw_fit hf2, append_append]
      refine ⟨rfl, ?_⟩
      simp only [size_append, encPoint, length_append, length_leBytes]
      omega
    · right
      refine ⟨leBytes 8 p.ts.toNat, ?_, by omega⟩
      rw [putRaw_fit hf1, andThen_true, putRaw_full (by omega) (by omega)]
  · right
    have hfull := putRaw_full (k := 8) (n := p.ts.toNat) hb (by omega)
    refine ⟨[], ?_, ?_⟩
    · rw [hfull, andThen_false, IOVecBlock.append_nil]
    · rw [IOVecBlock.append_nil]; exact hb

/-- Where there is room for a chunk, any sixteen points can be written as one. -/
theorem putChunk_room {buf : List Point} (hroom : w.roomForChunk = true)
    (hbuf : buf.length = chunkSize) : w.block.Fits (encChunk w.prev w.predictor buf) ∧
      w.putChunk buf = (.ok, { w with
        block := w.block.append (encChunk w.prev w.predictor buf)
        prev := (buf.map Point.ts).getLastD w.prev
        predictor := (fcmEncodeAll w.predictor (buf.map Point.value)).2
        nchunks := w.nchunks + 1 }) := by
  have hle := length_encChunk_le w.prev w.predictor hbuf
  rw [roomForChunk_iff] at hroom
  have hfit : w.block.Fits (encChunk w.prev w.predictor buf) := by
    simp only [Fits, margin] at *; omega
  refine ⟨hfit, ?_⟩
  simp [putChunk, deltaDeltaTput_fit hfit.left, fcmTput_fit hfit.right, encChunk]

/-- The buffered chunk is written when it is full and there is room for it. -/
theorem putChunk_spec {chunks : List (List Point)} {buf : List Point}
    (hlen : ∀ c ∈ chunks, c.length = chunkSize) (hbase : w.block.base = base)
    (hbytes : w.block.bytes = encChunks initState chunks) (hnc : w.nchunks = chunks.length)
    (hnt : w.ntail = 0) (hst : (w.prev, w.predictor) = chunks.foldl chunkState initState)
    (hroom : w.roomForChunk = true) (hbuf : buf.length = chunkSize) (hwb : w.writebuf = [])
    (hidx : w.writeIndex = chunkSize * chunks.length + chunkSize) :
    ∃ w', w.putChunk buf = (.ok, w') ∧ HoldsAs base w' (chunks ++ [buf]) [] [] ∧
      w'.writebuf = [] := by
  have hprev : w.prev = (chunks.foldl chunkState initState).1 := by rw [← hst]
  have hpred : w.predictor = (chunks.foldl chunkState initState).2 := by rw [← hst]
  obtain ⟨hfit, hput⟩ := putChunk_room hroom hbuf
  refine ⟨_, hput, ?_, hwb⟩
  refine ⟨hbase, ?_, ?_, ?_, ?_, hnt, ?_, ?_, ?_, ?_, ?_⟩
  · intro c hc
    rcases mem_append.mp hc with h | h
    · exact hlen c h
    · rw [mem_singleton.mp h, hbuf]
  · show w.block.bytes ++ encChunk w.prev w.predictor buf = _
    rw [encChunks_append, hbytes, hprev, hpred]
    simp [encChunks]
  · rw [size_append]
    exact hfit
  · simp [hnc]
  · rw [foldl_append, ← hst]
    rfl
  · rw [hidx, length_append, mul_add]
    simp [hwb]
  · rw [hwb]; decide
  · intro h; exact absurd hwb h
  · intro h; exact absurd rfl h

theorem put_room (h : OpenAt base w pts) (hroom : w.roomForChunk = true) (p : Point) :
    ∃ w', w.put p = (.ok, w') ∧ OpenAt base w' (pts ++ [p]) := by
  obtain ⟨chunks, raw, hw, rfl⟩ := h
  have hraw : raw = [] := by
    by_contra hne
    rw [hw.full hne] at hroom
    cases hroom
  subst hraw
  have hbytes : w.block.bytes = encChunks initState chunks := by simpa using hw.bytes
  have hindex := hw.index
  have hbuflt := hw.buflt
  simp only [IOVecBlockWriter.put, hroom, if_true]
  by_cases hfull : (w.writeIndex + 1) % chunkSize = 0
  · have hbuf : (w.writebuf ++ [p]).length = chunkSize := by
      simp only [length_append, length_singleton, chunkSize] at *
      omega
    obtain ⟨w', hput, hw', hwb'⟩ := putChunk_spec (w := { w with
        writeIndex := w.writeIndex + 1, writebuf := [] }) hw.len16 hw.base hbytes hw.nchunks
      hw.ntail hw.state hroom hbuf rfl (by
        simp only [length_append, length_singleton] at hbuf
        show w.writeIndex + 1 = _
        omega)
    refine ⟨w', ?_, chunks ++ [w.writebuf ++ [p]], [], hw', ?_⟩
    · rw [if_pos hfull]
      exact hput
    · simp [hwb']
  · refine ⟨{ w with writeIndex := w.writeIndex + 1, writebuf := w.writebuf ++ [p] }, ?_,
      chunks, [], ⟨hw.base, hw.len16, hw.bytes, hw.fits, hw.nchunks, hw.ntail, hw.state, ?_, ?_,
        fun _ => ⟨rfl, rfl, hroom⟩, absurd rfl⟩, ?_⟩
    · rw [if_neg hfull]
    · simp only [length_append, length_singleton]
      omega
    · simp only [length_append, length_singleton, chunkSize] at *
      omega
    · simp

theorem put_full (h : OpenAt base w pts) (hroom : w.roomForChunk = false) (p : Point) :
    (∃ w', w.put p = (.ok, w') ∧ OpenAt base w' (pts ++ [p])) ∨
      ∃ w', w.put p = (.overflow, w') ∧ HoldsAt base w' pts := by
  obtain ⟨chunks, raw, hw, rfl⟩ := h
  have hwb : w.writebuf = [] := by
    by_contra hne
    rw [(hw.room hne).2.2] at hroom
    cases hroom
  simp only [IOVecBlockWriter.put, hroom, Bool.false_eq_true, if_false]
  rcases putPoint_cases hw.fits p with ⟨hp, hsz⟩ | ⟨junk, hp, hsz⟩
  · left
    refine ⟨{ w with block := w.block.append (encPoint p), ntail := w.ntail + 1 }, ?_,
      chunks, raw ++ [p], ⟨hw.base, hw.len16, ?_, hsz, hw.nchunks, ?_, hw.state, hw.index,
        hw.buflt, absurd hwb, fun _ => full_append hroom rfl⟩, ?_⟩
    · simp only [hp]
    · show w.block.bytes ++ encPoint p = _
      rw [hw.bytes]
      simp
    · simp [hw.ntail]
    · simp [hwb]
  · right
    refine ⟨{ w with block := w.block.append junk }, ?_, chunks, raw, junk,
      ⟨hw.base, hw.len16, ?_, hsz, hw.nchunks, hw.ntail, hw.state, hw.index, hw.buflt,
        absurd hwb, fun _ => full_append hroom rfl⟩, rfl⟩
    · simp only [hp]
    · show w.block.bytes ++ junk = _
      rw [hw.bytes]
      simp

/-- A point is accepted, or the writer reports an overflow and keeps what it had. -/
theorem put_spec (h : OpenAt base w pts) (p : Point) :
    (∃ w', w.put p = (.ok, w') ∧ OpenAt base w' (pts ++ [p])) ∨
      ∃ w', w.put p = (.overflow, w') ∧ HoldsAt base w' pts := by
  cases hroom : w.roomForChunk with
  | true => exact .inl (put_room h hroom p)
  | false => exact put_full h hroom p

theorem put_init (p : Point) : ∃ w', IOVecBlockWriter.init.put p = (.ok, w') ∧ Open w' [p] := by
  rcases put_spec open_init p with ⟨w', h1, h2⟩ | ⟨w', h1, -⟩
  · exact ⟨w', h1, h2⟩
  · have hput : (IOVecBlockWriter.init.put p).1 = .ok := rfl
    rw [h1] at hput
    cases hput

theorem length_encChunks_ge : ∀ (chunks : List (List Point)) (st : UInt64 × DfcmPredictor),
    chunks.length ≤ (encChunks st chunks).length
  | [], _ => zero_le
  | buf :: chunks, st => by
    have ih := length_encChunks_ge chunks (chunkState st buf)
    have hpos : 0 < (base128 10 (minDelta st.1 (buf.map Point.ts)).toNat).length :=
      length_base128_pos 9 _
    simp only [encChunks, encChunk, encTimestamps, length_append, length_cons]
    omega

theorem length_flatten_chunks : ∀ {chunks : List (List Point)},
    (∀ c ∈ chunks, c.length = chunkSize) → chunks.flatten.length = chunkSize * chunks.length
  | [], _ => rfl
  | c :: chunks, h => by
    have ih := length_flatten_chunks (forall_mem_cons.mp h).2
    rw [flatten_cons, length_append, h c mem_cons_self, length_cons, Nat.mul_succ]
    omega

theorem length_flatMap_encPoint (raw : List Point) :
    (raw.flatMap encPoint).length = 16 * raw.length := by
  induction raw with
  | nil => rfl
  | cons p raw ih =>
    rw [flatMap_cons, length_cons]
    simp only [encPoint, length_append, length_leBytes]
    omega

theorem OpenAt.length_le (h : OpenAt base w pts) :
    pts.length ≤ chunkSize * (faststdbBlockSize + 1) := by
  obtain ⟨chunks, raw, hw, rfl⟩ := h
  have hchunks := length_encChunks_ge chunks initState
  have hraw := length_flatMap_encPoint raw
  have hsize := hw.fits
  have hbuf := hw.buflt
  rw [size, hw.bytes] at hsize
  simp only [length_append, length_flatten_chunks hw.len16] at hsize ⊢
  simp only [chunkSize] at *
  omega

theorem Open.eq_init (h : Open w []) : w = .init := by
  obtain ⟨chunks, raw, hw, hp⟩ := h
  obtain ⟨⟨hc, rfl⟩, hbuf⟩ : (chunks.flatten = [] ∧ raw = []) ∧ w.writebuf = [] := by
    simpa only [append_eq_nil_iff] using hp.symm
  have hchunks : chunks = [] := by
    cases chunks with
    | nil => rfl
    | cons c cs =>
      have hc0 : c = [] := (append_eq_nil_iff.mp hc).1
      have := hw.len16 c mem_cons_self
      rw [hc0] at this
      cases this
  subst hchunks
  have hstate := hw.state
  have hbytes := hw.bytes
  have hindex := hw.index
  have hbase := hw.base
  have hnc := hw.nchunks
  have hnt := hw.ntail
  obtain ⟨⟨base, bytes⟩, prev, predictor, writeIndex, writebuf, nchunks, ntail⟩ := w
  simp only [foldl_nil, initState, Prod.mk.injEq] at hstate
  simp only at hbuf hbase hindex hbytes hnc hnt
  subst hbuf hbase hindex hbytes hnc hnt
  rw [hstate.1, hstate.2]
  rfl

theorem ne_nil_of_overflow (h : Open w pts) {p : Point}
    (hput : w.put p = (.overflow, w')) : pts ≠ [] := by
  rintro rfl
  rw [h.eq_init] at hput
  cases hput

theorem Open.roomForChunk (h : Open w pts) (hlen : pts.length ≤ 1) : w.roomForChunk = true := by
  obtain ⟨chunks, raw, hw, rfl⟩ := h
  simp only [length_append, length_flatten_chunks hw.len16, chunkSize] at hlen
  have hnil : chunks = [] := eq_nil_of_length_eq_zero (by omega)
  have hraw := length_flatMap_encPoint raw
  rw [roomForChunk_iff, size, hw.bytes, hw.base, hnil]
  simp only [encChunks, length_append, length_nil, margin,
    faststdbBlockSize, subtreeRefSize, blockHeaderSize]
  omega

theorem two_le_of_overflow (h : Open w pts) {p : Point}
    (hput : w.put p = (.overflow, w')) : 2 ≤ pts.length := by
  by_contra hlen
  obtain ⟨w'', hok, -⟩ := put_room h (h.roomForChunk (by omega)) p
  rw [hok] at hput
  cases hput

/-! ## Puts in any state -/

/-- What every put keeps, also after an overflow: points are buffered only while a chunk fits, and
none is written as it is before. -/
structure Spacious (w : IOVecBlockWriter) : Prop where
  fits : w.block.size ≤ faststdbBlockSize
  index : w.writeIndex % chunkSize = w.writebuf.length
  room : w.writebuf ≠ [] → w.roomForChunk = true
  tail : w.ntail ≠ 0 → w.roomForChunk = false

theorem HoldsAt.spacious (h : HoldsAt base w pts) : Spacious w := by
  obtain ⟨chunks, raw, junk, hw, -⟩ := h
  refine ⟨hw.fits, ?_, fun hne => (hw.room hne).2.2, fun hne => hw.full ?_⟩
  · rw [hw.index, Nat.mul_add_mod, Nat.mod_eq_of_lt hw.buflt]
  · rintro rfl
    exact hne hw.ntail

theorem Spacious.tail_fits (h : Spacious w) :
    w.block.size + 16 * w.writebuf.length ≤ faststdbBlockSize := by
  have hlt : w.writeIndex % chunkSize < chunkSize := Nat.mod_lt _ (by decide)
  by_cases hwb : w.writebuf = []
  · simpa [hwb] using h.fits
  · have hroom := roomForChunk_iff.mp (h.room hwb)
    rw [h.index] at hlt
    simp only [margin, chunkSize] at *
    omega

theorem Spacious.ntail_eq_zero (h : Spacious w) (hidx : w.writeIndex % chunkSize ≠ 0) :
    w.ntail = 0 := by
  by_contra hne
  rw [h.index, Ne, length_eq_zero_iff] at hidx
  exact absurd ((h.room hidx).symm.trans (h.tail hne)) (by decide)

theorem Spacious.put (h : Spacious w) (p : Point) :
    Spacious (w.put p).2 ∧ (w.roomForChunk = true → (w.put p).1 = .ok) := by
  rw [IOVecBlockWriter.put]
  cases hroom : w.roomForChunk with
  | true =>
    have hnt : w.ntail = 0 := by
      by_contra hne
      exact absurd (hroom.symm.trans (h.tail hne)) (by decide)
    have hindex := h.index
    simp only [if_true]
    by_cases hfull : (w.writeIndex + 1) % chunkSize = 0
    · have hbuf : (w.writebuf ++ [p]).length = chunkSize := by
        simp only [length_append, length_singleton, chunkSize] at *
        omega
      obtain ⟨hfit, hput⟩ := putChunk_room (w := { w with
        writeIndex := w.writeIndex + 1, writebuf := [] }) hroom hbuf
      rw [if_pos hfull, hput]
      exact ⟨⟨by rw [size_append]; exact hfit, hfull, absurd rfl,
        absurd hnt⟩, fun _ => rfl⟩
    · rw [if_neg hfull]
      refine ⟨⟨h.fits, ?_, fun _ => hroom, absurd hnt⟩, fun _ => rfl⟩
      simp only [length_append, length_singleton, chunkSize] at *
      omega
  | false =>
    have hwb : ¬ w.writebuf ≠ [] := fun hne => absurd (hroom.symm.trans (h.room hne)) (by decide)
    refine ⟨?_, fun hno => absurd hno (by decide)⟩
    rcases putPoint_cases h.fits p with ⟨hp, hsize⟩ | ⟨junk, hp, hsize⟩
    all_goals
      rw [hp]
      exact ⟨hsize, h.index, fun hne => absurd hne hwb, fun _ => full_append hroom rfl⟩

/-! ## Commit -/

theorem flushTail_spec : ∀ (ps : List Point) (w : IOVecBlockWriter),
    w.block.size + 16 * ps.length ≤ faststdbBlockSize → flushTail ps w = { w with
      block := w.block.append (ps.flatMap encPoint), ntail := w.ntail + ps.length,
      writeIndex := w.writeIndex - ps.length }
  | [], w, _ => by simp [flushTail]
  | p :: ps, w, h => by
    simp only [length_cons] at h
    have hlen : (encPoint p).length = 16 := by simp [encPoint]
    rcases putPoint_cases (b := w.block) (by omega) p with ⟨hp, -⟩ | ⟨junk, hp, -⟩
    · simp only [flushTail, hp]
      rw [flushTail_spec ps _ (by simp only [size_append]; omega)]
      simp [Nat.sub_sub, add_assoc, add_comm 1]
    · have hf : w.block.Fits (encPoint p) := by simp only [Fits]; omega
      simp [putPoint, putRaw_fit hf.left, putRaw_fit hf.right] at hp

/-- Committing succeeds; what is stored decodes to all accepted points, also when
the rest of the block is filled up with other bytes. -/
theorem commit_spec (h : HoldsAt base w pts) :
    ∃ size w', w.commit = some (size, w') ∧ w'.writebuf = [] ∧
      Contents w'.block.bytes w'.nchunks w'.ntail pts := by
  have hspacious := h.spacious
  have hidx := hspacious.index
  obtain ⟨chunks, raw, junk, hw, rfl⟩ := h
  have hdiv : w.writeIndex / chunkSize = chunks.length := by
    have h1 := hw.index
    simp only [chunkSize] at *
    omega
  by_cases hwb : w.writebuf = []
  · have hz : w.writeIndex % chunkSize = 0 := by rw [hidx, hwb]; rfl
    refine ⟨w.block.size, { w with writebuf := [], nchunks := chunks.length }, ?_, rfl, chunks, raw,
      ⟨hw.len16, junk, hw.bytes⟩, rfl, hw.ntail, by simp [hwb]⟩
    simp [IOVecBlockWriter.commit, hz, hwb, flushTail, hdiv]
  · obtain ⟨rfl, rfl, -⟩ := hw.room hwb
    have hflush := flushTail_spec w.writebuf w hspacious.tail_fits
    have hnt : w.ntail = 0 := hw.ntail
    refine ⟨(w.block.append (w.writebuf.flatMap encPoint)).size, { w with
        block := w.block.append (w.writebuf.flatMap encPoint), ntail := w.writebuf.length,
        writeIndex := w.writeIndex - w.writebuf.length, writebuf := [],
        nchunks := chunks.length }, ?_, rfl,
      chunks, w.writebuf, ⟨hw.len16, [], ?_⟩, rfl, rfl, by simp⟩
    · simp [IOVecBlockWriter.commit, hnt, hdiv, hflush]
    · show w.block.bytes ++ w.writebuf.flatMap encPoint = _
      rw [hw.bytes]
      simp

end FastSTDB
