import FastSTDB.CodecRead

/-
  Block codec over bytes — round trip, and the two codecs agree

  Points are offered to a writer until one is refused, and the block is committed.
  The model of `FastSTDB.Compression` accepts some of them (`putAll_holds`), and the
  codec over any lawful block accepts the same ones and leaves the bytes of the model
  behind its header (`codec_run`). A reader over a block that starts with these bytes
  gives back the accepted points and then no data, however often it is asked
  (`decodes_of_contents`).

  1. `data_block_round_trip` — for a flat buffer of 4096 bytes, whatever is in it.
  2. `scatter_refines_flat` — a block of components: the same statuses, the same bytes,
     and the same answers, also from a copy of the block in one piece.
  3. `chunk_margin` — in both, a chunk fits when `room_for_chunk` says so, and the tail
     when the block is committed.
-/
namespace FastSTDB
open List Option Bytes Codec IOVecBlockReader Scatter DataBuffer

variable {body : List UInt8} {nchunks ntail size : Nat} {pts : List Point} {id : ParamId}
  {m : IOVecBlockWriter}

/-! ## Reading a whole block -/

namespace IOVecBlockReader
variable {m m' : IOVecBlockReader} {p : Point}

theorem next_ok (h : m.next = some (.ok, p, m')) :
    m'.readIndex = m.readIndex + 1 ∧ m'.nchunks = m.nchunks ∧ m'.ntail = m.ntail := by
  rw [next] at h
  split at h
  next =>
    obtain ⟨r1, hr1, h⟩ := bind_eq_some_iff.mp h
    obtain ⟨⟨value, valStream, stream⟩, -, h⟩ := bind_eq_some_iff.mp h
    cases h
    split at hr1
    next =>
      obtain ⟨⟨tss, tsStream, stream'⟩, -, rfl⟩ := map_eq_some_iff.mp hr1
      exact ⟨rfl, rfl, rfl⟩
    next =>
      cases hr1
      exact ⟨rfl, rfl, rfl⟩
  next =>
    split at h
    next =>
      obtain ⟨⟨ts, stream⟩, -, h⟩ := bind_eq_some_iff.mp h
      obtain ⟨⟨value, stream'⟩, -, h⟩ := bind_eq_some_iff.mp h
      cases h
      exact ⟨rfl, rfl, rfl⟩
    next => cases h

theorem next_end (h : m.readIndex = m.nelements) : m.next = some (.noData, ⟨0, 0⟩, m) := by
  have hle : m.mainSize ≤ m.nelements := le_add_self
  rw [next, if_neg (by omega), if_neg (by omega)]

theorem readN_cons {n : Nat} {ps : List Point} (h : readN (n + 1) m = some (.ok, p :: ps)) :
    ∃ m', m.next = some (.ok, p, m') ∧ readN n m' = some (.ok, ps) := by
  obtain ⟨⟨status, q, m'⟩, hnext, h⟩ := bind_eq_some_iff.mp h
  dsimp only at h
  split at h
  next hok =>
    obtain ⟨⟨status', qs⟩, hrest, heq⟩ := map_eq_some_iff.mp h
    cases heq
    cases hok
    exact ⟨m', hnext, hrest⟩
  next => cases h

end IOVecBlockReader

/-- The answer of a reader to its `i`-th call. -/
def answer (pts : List Point) (i : Nat) : Status × Point :=
  (pts[i]?).elim (.noData, ⟨0, 0⟩) fun p => (.ok, p)

/-- The reader gives back exactly the points `pts`, and then no data. -/
def Decodes {B : Type} [BlockRW B] (r : BlockReader B) (pts : List Point) : Prop :=
  r.nelements = pts.length ∧ ∀ k, r.nextN k = some ((range k).map (answer pts))

section Reading
variable {B : Type} [BlockRW B] [Memory B] {Valid : B → Prop} [LawfulBlock Valid] {blk : B}

theorem nextN_eq (hv : Valid blk) (k : Nat) {r : BlockReader B} {m : IOVecBlockReader}
    (h : Mirrored blk r m) (hread : readN pts.length m = some (.ok, pts))
    (hend : m.readIndex + pts.length = m.nelements) :
    r.nextN k = some ((range k).map (answer pts)) := by
  induction k generalizing r m pts with
  | zero => rfl
  | succ k ih =>
    rw [BlockReader.nextN, range_succ_eq_map, map_cons, List.map_map]
    cases pts with
    | nil =>
      obtain ⟨⟨status, q, r'⟩, hr, hstatus, hq, h'⟩ :=
        next_refines hv h _ (next_end hend)
      have hrest := ih h' hread hend
      cases hstatus
      cases hq
      rw [hr, bind_some]
      dsimp only at hrest ⊢
      rw [hrest]
      rfl
    | cons p ps =>
      obtain ⟨m', hnext, hread'⟩ := readN_cons hread
      obtain ⟨hidx, hnc, hnt⟩ := next_ok hnext
      obtain ⟨⟨status, q, r'⟩, hr, hstatus, hq, h'⟩ := next_refines hv h _ hnext
      have hend' : m'.readIndex + ps.length = m'.nelements := by
        rw [length_cons] at hend
        rw [nelements, hnc, hnt, ← nelements]
        omega
      have hrest := ih h' hread' hend'
      cases hstatus
      cases hq
      rw [hr, bind_some]
      dsimp only at hrest ⊢
      rw [hrest]
      rfl

theorem Contents.length (h : Contents body nchunks ntail pts) :
    pts.length = ntail + nchunks * chunkSize := by
  obtain ⟨chunks, raw, ⟨hlen, -⟩, rfl, rfl, rfl⟩ := h
  rw [length_append, length_flatten_chunks hlen, mul_comm, add_comm]

theorem Contents.counters_le (h : Contents body nchunks ntail pts) :
    nchunks + ntail ≤ body.length := by
  obtain ⟨chunks, raw, ⟨-, junk, rfl⟩, rfl, rfl, -⟩ := h
  have hchunks := length_encChunks_ge chunks initState
  have hraw := length_flatMap_encPoint raw
  simp only [length_append]
  omega

theorem decodes_of_contents (hv : Valid blk)
    (hbytes : bytes blk = header id nchunks ntail ++ body) (hc : Contents body nchunks ntail pts) :
    Decodes (.new blk) pts := by
  have hw : Written Valid (header id nchunks ntail) blk ⟨blockHeaderSize, body⟩ :=
    ⟨hv, length_header id nchunks ntail, hbytes⟩
  have hsmall : nchunks + ntail < 2 ^ 16 := by
    have hle := hc.counters_le
    have hsize := hw.size_le
    simp only [IOVecBlock.size, faststdbBlockSize] at hsize
    omega
  have hfront : Written Valid ([] ++ header id nchunks ntail) blk ⟨blockHeaderSize, body⟩ := hw
  have hnc : load16 blk 2 = nchunks :=
    (hfront.load_nchunks roomFor_nil).trans (Nat.mod_eq_of_lt (by omega))
  have hnt : load16 blk 4 = ntail :=
    (hfront.load_ntail roomFor_nil).trans (Nat.mod_eq_of_lt (by omega))
  have hdrop : (bytes blk).drop blockHeaderSize = body := by
    rw [hbytes, ← length_header id nchunks ntail, drop_left]
  have hm : Mirrored blk (.new blk) (.init nchunks ntail body) :=
    ⟨⟨rfl, hw.header_lt, hdrop, rfl, rfl, rfl⟩, rfl, rfl, rfl, rfl, hnc, hnt⟩
  have hlen : (init nchunks ntail body).nelements = pts.length := hc.length.symm
  have hread := readN_contents hc
  rw [hlen] at hread
  refine ⟨hm.nelements.trans hlen, ?_⟩
  intro k
  apply nextN_eq hv k hm hread
  rw [hlen]
  exact zero_add _

end Reading

/-! ## Writing a whole block -/

def IOVecBlockWriter.putAll (w : IOVecBlockWriter) : List Point → List Status × IOVecBlockWriter
  | [] => ([], w)
  | p :: ps =>
    match w.put p with
    | (.ok, w) => (.ok :: (w.putAll ps).1, (w.putAll ps).2)
    | (status, w) => ([status], w)

/-- The statuses of a run in which the first `n` of `total` points are accepted. -/
def RunOf (statuses : List Status) (n total : Nat) : Prop :=
  statuses = replicate n .ok ∧ n = total ∨
    statuses = replicate n .ok ++ [.overflow] ∧ n < total

/-- The model writer accepts a front part of the points, and holds it. -/
theorem putAll_holds {base : Nat} (ps : List Point) {w : IOVecBlockWriter} {done : List Point}
    (h : OpenAt base w done) :
    ∃ n, RunOf (w.putAll ps).1 n ps.length ∧ HoldsAt base (w.putAll ps).2 (done ++ ps.take n) := by
  induction ps generalizing w done with
  | nil =>
    refine ⟨0, .inl ⟨rfl, rfl⟩, ?_⟩
    rw [take_nil, append_nil]
    exact h.holds
  | cons p ps ih =>
    rw [IOVecBlockWriter.putAll]
    rcases put_spec h p with ⟨w', hput, hopen⟩ | ⟨w', hput, hholds⟩
    · rw [hput]
      obtain ⟨n, hrun, hholds⟩ := ih hopen
      refine ⟨n + 1, ?_, ?_⟩
      · rcases hrun with ⟨hst, hn⟩ | ⟨hst, hn⟩
        · exact .inl ⟨congrArg (.ok :: ·) hst, congrArg (· + 1) hn⟩
        · exact .inr ⟨congrArg (.ok :: ·) hst, Nat.succ_lt_succ hn⟩
      · rwa [append_assoc] at hholds
    · rw [hput]
      exact ⟨0, .inr ⟨rfl, Nat.zero_lt_succ _⟩, by simpa using hholds⟩

section Writing
variable {B : Type} [BlockRW B] [Memory B] {Valid : B → Prop} [LawfulBlock Valid] {pre : List UInt8}
  {w : BlockWriter B}

theorem putAll_mirrorsAt (hpre : RoomFor pre) {base : Nat} (ps : List Point)
    {done : List Point} (h : MirrorsAt Valid pre id w m) (hopen : OpenAt base m done) :
    (w.putAll ps).1 = (m.putAll ps).1 ∧ MirrorsAt Valid pre id (w.putAll ps).2 (m.putAll ps).2 := by
  induction ps generalizing w m done with
  | nil => exact ⟨rfl, h⟩
  | cons p ps ih =>
    rw [BlockWriter.putAll, IOVecBlockWriter.putAll]
    have hok := (hopen.holds.spacious.put p).2
    rcases put_spec hopen p with ⟨m', hm, hopen'⟩ | ⟨m', hm, -⟩
    · obtain ⟨w', hw, h'⟩ := put_mirrorsAt h hpre hok hm
      obtain ⟨hst, hmirrors⟩ := ih h' hopen'
      rw [hw, hm]
      exact ⟨congrArg (.ok :: ·) hst, hmirrors⟩
    · obtain ⟨w', hw, h'⟩ := put_mirrorsAt h hpre hok hm
      rw [hw, hm]
      exact ⟨rfl, h'⟩

omit [Memory B] in
theorem commit_size {w' : BlockWriter B} (h : w.commit = some (size, w')) :
    BlockT.size w'.block = size := by
  rw [BlockWriter.commit] at h
  split at h
  next => cases h
  next =>
    cases h
    rfl

/-- A codec in a block with something at its front does what the model does. -/
theorem codec_run_at (id : ParamId) {s : B} (hv : Valid s) (hroom : RoomFor (bytes s))
    (pts : List Point)
    (hm : ((freshAt ((bytes s).length + blockHeaderSize)).putAll pts).2.commit = some (size, m)) :
    ∃ w0 w, BlockWriter.new id s = some w0 ∧
      (w0.putAll pts).1 = ((freshAt ((bytes s).length + blockHeaderSize)).putAll pts).1 ∧
      (w0.putAll pts).2.commit = some (size, w) ∧ MirrorsAt Valid (bytes s) id w m ∧
      BlockT.size w.block = size := by
  have hopen : OpenAt ((bytes s).length + blockHeaderSize)
      (freshAt ((bytes s).length + blockHeaderSize)) [] := openAt_new (hroom.trans (by decide))
  obtain ⟨w0, hnew, hmirrors⟩ := new_mirrorsAt id hv hroom
  obtain ⟨n, -, hholds⟩ := putAll_holds pts hopen
  obtain ⟨hst, hputs⟩ := putAll_mirrorsAt hroom pts hmirrors hopen
  obtain ⟨w, hcommit, hw⟩ := commit_mirrorsAt hputs hroom hholds.spacious.ntail_eq_zero hm
  exact ⟨w0, w, hnew, hst, hcommit, hw, commit_size hcommit⟩

/-- What the model does with the points: it accepts some, and they can be read back. -/
theorem model_run : ∃ n size m, RunOf ((freshAt blockHeaderSize).putAll pts).1 n pts.length ∧
    ((freshAt blockHeaderSize).putAll pts).2.commit = some (size, m) ∧
    Contents m.block.bytes m.nchunks m.ntail (pts.take n) := by
  have hopen : OpenAt blockHeaderSize (freshAt blockHeaderSize) [] := openAt_new (by decide)
  obtain ⟨n, hrun, hholds⟩ := putAll_holds pts hopen
  obtain ⟨size, m, hcommit, -, hcontents⟩ := commit_spec hholds
  exact ⟨n, size, m, hrun, hcommit, hcontents⟩

theorem codec_run (id : ParamId) {s : B} (hv : Valid s) (hempty : BlockT.size s = 0)
    (pts : List Point) (hm : ((freshAt blockHeaderSize).putAll pts).2.commit = some (size, m)) :
    ∃ w0 w, BlockWriter.new id s = some w0 ∧
      (w0.putAll pts).1 = ((freshAt blockHeaderSize).putAll pts).1 ∧
      (w0.putAll pts).2.commit = some (size, w) ∧
      Written Valid (header id m.nchunks m.ntail) w.block m.block ∧ BlockT.size w.block = size := by
  have hnil : bytes s = [] := by rw [← length_eq_zero_iff, length_bytes hv, hempty]
  have hstart : (bytes s).length + blockHeaderSize = blockHeaderSize := by
    rw [hnil, length_nil, zero_add]
  rw [← hstart] at hm ⊢
  obtain ⟨w0, w, hnew, hst, hcommit, hw, hsize⟩ :=
    codec_run_at id hv (by rw [hnil]; exact roomFor_nil) pts hm
  exact ⟨w0, w, hnew, hst, hcommit, by simpa only [hnil, nil_append] using hw.block, hsize⟩

/-- Puts one after the other, whatever they return. -/
def Codec.BlockWriter.puts {B : Type} [BlockRW B] (w : BlockWriter B) (ps : List Point) :
    BlockWriter B := ps.foldl (fun w p => (w.put p).2) w

/-- No stream write fails: neither that of a chunk, if there is room for one, nor those of the tail
that is still buffered, which can be flushed. -/
structure Codec.BlockWriter.Ample {B : Type} [BlockRW B] (w : BlockWriter B) : Prop where
  chunk : w.roomForChunk = true → ∀ buf : List Point, buf.length = chunkSize → (w.putChunk buf).1 = .ok
  tail : 16 * w.writebuf.length ≤ BlockT.spaceLeft w.block
  commit : w.commit.isSome

theorem Codec.MirrorsAt.puts (hpre : RoomFor pre) (ps : List Point) (h : MirrorsAt Valid pre id w m)
    (hm : Spacious m) : ∃ m', MirrorsAt Valid pre id (w.puts ps) m' ∧ Spacious m' := by
  induction ps generalizing w m with
  | nil => exact ⟨m, h, hm⟩
  | cons p ps ih =>
    obtain ⟨hnext, hok⟩ := hm.put p
    obtain ⟨w', hput, h'⟩ := put_mirrorsAt h hpre hok rfl
    have hw : w.puts (p :: ps) = w'.puts ps := by rw [BlockWriter.puts, foldl_cons, hput]; rfl
    rw [hw]
    exact ih h' hnext

theorem Codec.MirrorsAt.ample (hpre : RoomFor pre) (h : MirrorsAt Valid pre id w m)
    (hm : Spacious m) : w.Ample := by
  refine ⟨fun hroom buf hbuf => ?_, ?_, ?_⟩
  · obtain ⟨-, hput⟩ := putChunk_room (h.roomForChunk ▸ hroom) hbuf
    obtain ⟨w', hw, -⟩ := putChunk_mirrors h hpre hput
    rw [hw]
  · have hfits := hm.tail_fits
    rw [h.block.spaceLeft, h.writebuf, IOVecBlock.spaceLeft_eq]
    omega
  · obtain ⟨r, hcommit⟩ : ∃ r, m.commit = some r :=
      ⟨_, if_neg fun hno => hno.2 (hm.ntail_eq_zero hno.1)⟩
    obtain ⟨w', hw, -⟩ := commit_mirrorsAt h hpre hm.ntail_eq_zero hcommit
    rw [hw]
    rfl

theorem ample_puts {s : B} (hv : Valid s) (hroom : RoomFor (bytes s)) :
    ∃ w0, BlockWriter.new id s = some w0 ∧ ∀ pts, (w0.puts pts).Ample := by
  obtain ⟨w0, hnew, hmirrors⟩ := new_mirrorsAt id hv hroom
  have hfresh : Spacious (freshAt ((bytes s).length + blockHeaderSize)) :=
    ⟨hroom.trans (by decide), rfl, absurd rfl, absurd rfl⟩
  refine ⟨w0, hnew, fun pts => ?_⟩
  obtain ⟨m', hm', hspacious⟩ := hmirrors.puts hroom pts hfresh
  exact hm'.ample hroom hspacious

end Writing

/-! ## Flat buffers -/

abbrev Buffer := { bytes : List UInt8 // bytes.length = faststdbBlockSize }

theorem decodes_buffer {w : DataBlockWriter} (h : Written Sized (header id m.nchunks m.ntail) w.block m.block)
    (hc : Contents m.block.bytes m.nchunks m.ntail pts) {bufsize : Nat}
    (hle : w.block.pos ≤ bufsize) (hmax : bufsize ≤ faststdbBlockSize) :
    Decodes (DataBlockReader.new w.block.bytes bufsize) pts := by
  have hv : Sized ⟨w.block.bytes, bufsize⟩ := ⟨h.valid.length, hmax⟩
  have hbytes : bytes (⟨w.block.bytes, bufsize⟩ : DataBuffer) = header id m.nchunks m.ntail ++
        (m.block.bytes ++ (w.block.bytes.take bufsize).drop w.block.pos) := by
    rw [← append_assoc, ← h.bytes_eq]
    show w.block.bytes.take bufsize = w.block.bytes.take w.block.pos ++ _
    conv => lhs; rw [← take_append_drop w.block.pos (w.block.bytes.take bufsize)]
    rw [take_take, min_eq_left hle]
  exact decodes_of_contents hv hbytes (hc.append _)

/-- Whatever is offered to a writer over a buffer of 4096 bytes: the points are accepted up to the
first overflow, committing succeeds, and a reader over the buffer, or over the part in use, gives
back the accepted points and then no data. -/
theorem data_block_round_trip (id : ParamId) (buf : Buffer) (pts : List Point) :
    ∃ w₀ w n size, DataBlockWriter.new id buf.1 = some w₀ ∧
      RunOf (w₀.putAll pts).1 n pts.length ∧ (w₀.putAll pts).2.commit = some (size, w) ∧
      Decodes (DataBlockReader.new w.block.bytes faststdbBlockSize) (pts.take n) ∧
      Decodes (DataBlockReader.new w.block.bytes size) (pts.take n) := by
  obtain ⟨n, size, m, hrun, hm, hc⟩ := model_run
  have hv : Sized ⟨buf.1, 0⟩ := ⟨buf.2, zero_le⟩
  obtain ⟨w₀, w, hnew, hst, hcommit, hw, hsize⟩ := codec_run id hv rfl pts hm
  have hpos : w.block.pos ≤ faststdbBlockSize := hw.valid.pos_le
  refine ⟨w₀, w, n, size, hnew, hst ▸ hrun, hcommit, ?_, ?_⟩
  · exact decodes_buffer hw hc hpos le_rfl
  · exact decodes_buffer hw hc hsize.le (hsize ▸ hpos)

/-! ## Blocks of components -/

/-- A writer over a new block of components answers like one over a flat buffer, leaves the same
header and the same stream in its components, and readers over the block, or over a copy of it in
one piece, answer like one over the buffer. -/
theorem scatter_refines_flat (id : ParamId) (buf : Buffer) (pts : List Point) :
    ∃ f₀ f g₀ g size, DataBlockWriter.new id buf.1 = some f₀ ∧ IOVecBlockWriter.new id = some g₀ ∧
      (g₀.putAll pts).1 = (f₀.putAll pts).1 ∧
      (f₀.putAll pts).2.commit = some (size, f) ∧ (g₀.putAll pts).2.commit = some (size, g) ∧
      g.block.data.flatten.take size = f.block.bytes.take size ∧
      ∀ k, ((DataBlockReader.new f.block.bytes faststdbBlockSize).nextN k).isSome ∧
        (IOVecBlockReader.new g.block).nextN k =
          (DataBlockReader.new f.block.bytes faststdbBlockSize).nextN k ∧
        (IOVecBlockReader.new g.block.contiguous).nextN k =
          (DataBlockReader.new f.block.bytes faststdbBlockSize).nextN k := by
  obtain ⟨n, size, m, -, hm, hc⟩ := model_run
  have hv : Sized ⟨buf.1, 0⟩ := ⟨buf.2, zero_le⟩
  obtain ⟨f₀, f, hnewf, hstf, hcommitf, hf, hsizef⟩ := codec_run id hv rfl pts hm
  obtain ⟨g₀, g, hnewg, hstg, hcommitg, hg, hsizeg⟩ := codec_run id IOVecBlock.shaped_new rfl pts hm
  obtain ⟨hcont, more, hmore⟩ := hg.valid.contiguous
  -- all three readers give back the points the model has accepted
  have hflat := decodes_buffer hf hc hf.valid.pos_le le_rfl
  have hscatter : Decodes (IOVecBlockReader.new g.block) (pts.take n) :=
    decodes_of_contents hg.valid hg.bytes_eq hc
  have hcopy : Decodes (IOVecBlockReader.new g.block.contiguous) (pts.take n) := by
    have hbytes : bytes g.block.contiguous =
        header id m.nchunks m.ntail ++ (m.block.bytes ++ more) := by
      rw [hmore, hg.bytes_eq, append_assoc]
    exact decodes_of_contents hcont hbytes (hc.append more)
  refine ⟨f₀, f, g₀, g, size, hnewf, hnewg, hstg.trans hstf.symm, hcommitf, hcommitg, ?_, ?_⟩
  · calc g.block.data.flatten.take size = g.block.data.flatten.take g.block.pos := by
          rw [← hsizeg]; rfl
      _ = bytes g.block := hg.valid.flatten_take
      _ = bytes f.block := by rw [hg.bytes_eq, hf.bytes_eq]
      _ = f.block.bytes.take size := by rw [← hsizef]; rfl
  · intro k
    refine ⟨?_, ?_, ?_⟩
    · rw [hflat.2 k]
      rfl
    · rw [hscatter.2 k, hflat.2 k]
    · rw [hcopy.2 k, hflat.2 k]

/-! ## Room for a chunk -/

/-- After any puts, whatever they returned, a writer over a buffer of 4096 bytes and one over a
block of components can write a chunk when there is room for it, and can be committed. -/
theorem chunk_margin (id : ParamId) (buf : Buffer) : ∃ f₀ g₀,
    DataBlockWriter.new id buf.1 = some f₀ ∧ IOVecBlockWriter.new id = some g₀ ∧
    ∀ pts, (f₀.puts pts).Ample ∧ (g₀.puts pts).Ample := by
  have hv : Sized ⟨buf.1, 0⟩ := ⟨buf.2, zero_le⟩
  obtain ⟨f₀, hnewf, hf⟩ := ample_puts hv roomFor_nil
  obtain ⟨g₀, hnewg, hg⟩ := ample_puts IOVecBlock.shaped_new roomFor_nil
  exact ⟨f₀, g₀, hnewf, hnewg, fun pts => ⟨hf pts, hg pts⟩⟩

end FastSTDB
