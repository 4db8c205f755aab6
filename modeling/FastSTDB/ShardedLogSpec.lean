import FastSTDB.InputLogRead
import FastSTDB.ShardedLog

/-
  Reading a sharded log — the frames of all shards in the order of their numbers

  The reader holds the first frame of each shard that has not been delivered
  (`bufferOf`), and of one of them it may have delivered a part (`Busy`). When a frame is
  finished its shard is refilled and the frame with the least number comes next, so the
  frames are delivered in the order `leastFirst`. A call for `n` records goes on until it
  has them or nothing is left.

  What is proved:
    1. `ShardedReader.serves` — a reader delivers the frames of all shards, in the order
       in which they are chosen, whatever the sizes of the buffers.
    2. `ShardsLogged.run` — after any calls on the shards, the files of a shard hold the
       frames of its plan, and no two frames of the log have the same number.
    3. `sharded_round_trip` — the two together.
-/
namespace FastSTDB
open List Option Merging ShardedReader ShardedInputLog
variable {σ δ : Type} {lz4 : Lz4 σ δ} {synced : σ → δ → Prop}
variable {w : WrittenFrame} {ws frames frames' : List WrittenFrame} {i n fuel seq seq' : Nat}

/-! ## The frames of a shard -/

/-- The frames `ws` are left of the volumes. -/
def FramesLeft (lz4 : Lz4 σ δ) (synced : σ → δ → Prop) (rs : LogReader δ)
    (ws : List WrittenFrame) : Prop :=
  ∃ left, Forall₂ (Unread lz4 synced) rs left ∧ ws = left.flatten

theorem Unread.readNextFrame_nil {r : VolumeReader δ} (h : Unread lz4 synced r []) :
    r.readNextFrame lz4 = ((.ok, none), r) := by rw [VolumeReader.readNextFrame, if_pos h.nil_bytes]

theorem readNextFrame_nil : ∀ {rs : LogReader δ}, FramesLeft lz4 synced rs [] →
    rs.readNextFrame lz4 = ((.noData, none), []) := by
  intro rs
  induction rs with
  | nil => exact fun _ => rfl
  | cons r rs ih =>
    rintro ⟨left, hleft, hnil⟩
    cases hleft with
    | @cons _ front _ left hr hrest =>
      obtain ⟨rfl, hlater⟩ : front = [] ∧ left.flatten = [] := append_eq_nil_iff.mp hnil.symm
      rw [LogReader.readNextFrame, hr.readNextFrame_nil]
      exact ih ⟨left, hrest, hlater.symm⟩

theorem readNextFrame_cons (hl : lz4.Lossless synced) :
    ∀ {rs : LogReader δ}, FramesLeft lz4 synced rs (w :: ws) →
    ∃ rs', rs.readNextFrame lz4 = ((.ok, some w.image), rs') ∧ FramesLeft lz4 synced rs' ws := by
  intro rs
  induction rs with
  | nil =>
    rintro ⟨left, hleft, hws⟩
    cases hleft
    cases hws
  | cons r rs ih =>
    rintro ⟨left, hleft, hws⟩
    cases hleft with
    | @cons _ front _ left hr hrest =>
      cases front with
      | nil =>
        -- the volume is finished
        rw [LogReader.readNextFrame, hr.readNextFrame_nil]
        exact ih ⟨left, hrest, hws⟩
      | cons w' front =>
        obtain ⟨rfl, rfl⟩ := hws
        obtain ⟨bytes, r', hread, hframe, hunread⟩ := hr.read hl
        have hnext : r.readNextFrame lz4 = ((.ok, some w.image), { r' with
            bytesToRead := r'.bytesToRead - bytes, elementsToRead := 0 }) := by
          rw [VolumeReader.readNextFrame, if_neg hr.cons_bytes, hread]
          simp only [hframe]
        rw [LogReader.readNextFrame, hnext]
        exact ⟨_, rfl, front :: left, .cons (hunread 0) hrest, rfl⟩

namespace ShardedReader

/-- The buffer of a shard that has these frames left. -/
def bufferOf : List WrittenFrame → Buffer
  | [] => ⟨0, .noData, none⟩
  | w :: _ => ⟨0, .ok, some w.image⟩

theorem nextBuffer_eq (hl : lz4.Lossless synced) {rs : LogReader δ}
    (h : FramesLeft lz4 synced rs ws) :
    (nextBuffer lz4 rs).1 = bufferOf ws ∧ FramesLeft lz4 synced (nextBuffer lz4 rs).2 ws.tail := by
  cases ws with
  | nil =>
    rw [nextBuffer, readNextFrame_nil h]
    exact ⟨rfl, [], .nil, rfl⟩
  | cons w ws =>
    obtain ⟨rs', hread, hleft⟩ := readNextFrame_cons hl h
    rw [nextBuffer, hread]
    exact ⟨rfl, hleft⟩

def frameKey (w : WrittenFrame) : Nat := w.frame.sequenceNumber

theorem sequence?_bufferOf (h : ∀ w ∈ ws, w.rows ≠ []) :
    (bufferOf ws).sequence? = ws.head?.map frameKey := by
  cases ws with
  | nil => rfl
  | cons w ws =>
    have hsize : w.image.size ≠ 0 := by
      rw [w.size_image]
      exact fun hz => h w mem_cons_self (length_eq_zero_iff.mp hz)
    have hnumber : w.image.sequenceNumber = frameKey w := LogFrame.sequenceNumber_image
    simp only [bufferOf, Buffer.sequence?, if_true, bind_some, if_pos hsize, hnumber,
      head?_cons, map_some]

/-- Every frame that is left has records. -/
def Full (streams : List (List WrittenFrame)) : Prop := ∀ ws ∈ streams, ∀ w ∈ ws, w.rows ≠ []

variable {streams : List (List WrittenFrame)}

theorem Full.set (h : Full streams)
    (hi : streams[i]? = some (w :: ws)) : Full (streams.set i ws) := by
  exact forall_mem_set h (fun v hv => h _ (mem_of_getElem? hi) v (mem_cons_of_mem _ hv)) _

theorem sequences_eq (h : Full streams) :
    (streams.map bufferOf).map Buffer.sequence? = headKeys frameKey streams := by
  rw [List.map_map]
  apply map_congr_left
  intro ws hws
  exact sequence?_bufferOf (h ws hws)

/-! ## The state of a reader -/

section
variable (lz4 : Lz4 σ δ) (synced : σ → δ → Prop)

/-- The shards behind the buffers. -/
def Behind (s : ShardedReader δ) (streams : List (List WrittenFrame)) : Prop :=
  Forall₂ (fun rs ws => FramesLeft lz4 synced rs ws.tail) s.streams streams

/-- No frame is begun; `xs` are the records left. -/
structure Idle (frames : Nat) (s : ShardedReader δ) (xs : List InputLogRow) : Prop where
  started : s.readStarted = true
  shows : ∃ streams, Behind lz4 synced s streams ∧ s.readQueue = streams.map bufferOf ∧
    Full streams ∧ streams.flatten.length = frames ∧ xs = rowsOf (leastFirst frameKey streams)

/-- The frame of the shard `ix` is begun, and `pending` are its records left. -/
structure Busy (frames : Nat) (s : ShardedReader δ) (pending later : List InputLogRow) : Prop where
  started : s.readStarted = true
  shows : ∃ streams ix w ws pos, s.bufferIx = some ix ∧ streams[ix]? = some (w :: ws) ∧
    Behind lz4 synced s streams ∧
    s.readQueue = (streams.map bufferOf).set ix ⟨pos, .ok, some w.image⟩ ∧ Full streams ∧
    streams.flatten.length = frames ∧ pos ≤ w.rows.length ∧ pending = w.rows.drop pos ∧
    later = rowsOf (leastFirst frameKey (streams.set ix ws))

end

variable {s : ShardedReader δ} {xs pending later : List InputLogRow} {frames : Nat}

theorem Idle.choose (h : Idle lz4 synced frames s xs) : s.chooseNext = none ∧ xs = [] ∨
      ∃ ix pending later, s.chooseNext = some ix ∧ pending ≠ [] ∧ xs = pending ++ later ∧
        Busy lz4 synced frames { s with bufferIx := some ix } pending later := by
  obtain ⟨streams, hbehind, hqueue, hfull, hframes, hxs⟩ := h.shows
  rw [chooseNext, hqueue, sequences_eq hfull]
  rcases headKeys_cases frameKey with ⟨hnone, hnil⟩ | ⟨ix, w, ws, hsome, hix, -⟩
  · refine .inl ⟨hnone, ?_⟩
    have hperm := leastFirst_perm frameKey streams
    rw [hnil] at hperm
    rw [hxs, perm_nil.mp hperm]
    rfl
  · refine .inr ⟨ix, w.rows, _, hsome, hfull _ (mem_of_getElem? hix) w mem_cons_self,
      ?_, h.started, streams, ix, w, ws, 0, rfl, hix, hbehind, ?_, hfull, hframes, zero_le,
      rfl, rfl⟩
    · rw [hxs, leastFirst_cons hsome hix, rowsOf, flatMap_cons, rowsOf]
    · have hbuffer : (streams.map bufferOf)[ix]? = some ⟨0, .ok, some w.image⟩ := by
        rw [getElem?_map, hix]
        rfl
      rw [set_same hbuffer]

theorem Busy.refill (hl : lz4.Lossless synced) (h : Busy lz4 synced frames s [] later) :
    ∃ ix frames', s.bufferIx = some ix ∧ frames = frames' + 1 ∧
      Idle lz4 synced frames' (s.refillBuffer lz4 ix) later := by
  obtain ⟨streams, ix, w, ws, pos, hbufferIx, hix, hbehind, hqueue, hfull, hframes, -, -, hlater⟩ :=
    h.shows
  obtain ⟨rs, hrs, hleft⟩ := Pairs.at_index hbehind hix
  obtain ⟨hbuffer, hnext⟩ := nextBuffer_eq hl hleft
  refine ⟨ix, (streams.set ix ws).flatten.length, hbufferIx,
    hframes.symm.trans (flatten_length_set hix), ?_, streams.set ix ws, ?_, ?_, hfull.set hix, rfl,
    hlater⟩
  · rw [refillBuffer, hrs]
    exact h.started
  · rw [refillBuffer, hrs]
    exact Pairs.set_both hbehind hnext ix
  · rw [refillBuffer, hrs]
    simp [hqueue, hbuffer]

theorem getElem?_begun {b : Buffer} (hqueue : s.readQueue = (streams.map bufferOf).set i b)
    (hi : streams[i]? = some ws) : s.readQueue[i]? = some b := by
  rw [hqueue, getElem?_set_self]
  rw [length_map]
  exact lt_of_getElem? hi

theorem Busy.take (h : Busy lz4 synced frames s pending later) (hpending : pending ≠ [])
    (hn : n ≠ 0) (fuel : Nat) (out : List InputLogRow) : ∃ s', s.readLoop lz4 (fuel + 1) n out =
        s'.readLoop lz4 fuel (n - min pending.length n) (out ++ pending.take n) ∧
      Busy lz4 synced frames s' (pending.drop n) later := by
  obtain ⟨streams, ix, w, ws, pos, hbufferIx, hix, hbehind, hqueue, hfull, hframes, hpos, hdrop,
    hlater⟩ := h.shows
  have hlen : pending.length = w.rows.length - pos := by rw [hdrop, length_drop]
  have hlt : pos < w.rows.length := by
    have := length_pos_iff.mpr hpending
    omega
  have hbuffer := getElem?_begun hqueue hix
  have hrows : w.image.rowsFrom pos (min pending.length n) = some (pending.take n) := by
    have hread := w.holds.image.rowsFrom w.known
      (show pos + min pending.length n ≤ w.rows.length by omega)
    have htake : pending.take (min pending.length n) = pending.take n := by
      rw [take_eq_take_iff]
      omega
    rw [← hdrop, htake] at hread
    exact hread
  refine ⟨{ s with readQueue := s.readQueue.set ix ⟨pos + min pending.length n, .ok, some w.image⟩ },
    ?_, h.started, streams, ix, w, ws, pos + min pending.length n, hbufferIx, hix, hbehind, ?_,
    hfull, hframes, by omega, ?_, hlater⟩
  · rw [readLoop, hbufferIx]
    simp [if_neg hn, hbuffer, w.size_image, if_pos hlt, ← hlen, hrows]
  · simp [hqueue]
  · rw [hdrop, drop_drop, length_drop]
    rcases le_total n (w.rows.length - pos) with hle | hle
    · rw [min_eq_right hle]
    · rw [drop_eq_nil_of_le (by omega), drop_eq_nil_of_le (by omega)]

theorem Busy.turn (h : Busy lz4 synced frames s [] later) (hn : n ≠ 0) (fuel : Nat)
    (out : List InputLogRow) {ix : Nat} (hbufferIx : s.bufferIx = some ix) :
    s.readLoop lz4 (fuel + 1) n out =
      match (s.refillBuffer lz4 ix).chooseNext with
      | none => some ((.noData, out), { s.refillBuffer lz4 ix with bufferIx := none })
      | some ix' =>
        readLoop lz4 fuel n out { s.refillBuffer lz4 ix with bufferIx := some ix' } := by
  obtain ⟨streams, ix', w, ws, pos, hix', hix, -, hqueue, -, -, -, hdrop, -⟩ := h.shows
  cases hbufferIx.symm.trans hix'
  have hbuffer := getElem?_begun hqueue hix
  have hend : ¬ pos < w.rows.length := not_lt.mpr (drop_eq_nil_iff.mp hdrop.symm)
  rw [readLoop, hbufferIx]
  cases hnext : (s.refillBuffer lz4 ix).chooseNext <;>
    simp [if_neg hn, hbuffer, w.size_image, if_neg hend, hnext]

theorem Busy.served (h : Busy lz4 synced frames s pending later) (fuel : Nat)
    (out : List InputLogRow) : s.readLoop lz4 (fuel + 1) 0 out = some ((.ok, out), s) := by
  obtain ⟨streams, ix, w, ws, pos, hbufferIx, -⟩ := h.shows
  rw [readLoop, hbufferIx]
  exact if_pos rfl

/-- At most `frames` frames are left, with the records `xs`. -/
def Left (lz4 : Lz4 σ δ) (synced : σ → δ → Prop) (frames : Nat) (s : ShardedReader δ)
    (xs : List InputLogRow) : Prop :=
  ∃ k ≤ frames, s.bufferIx = none ∧ Idle lz4 synced k s xs ∨
    ∃ pending later, Busy lz4 synced k s pending later ∧ xs = pending ++ later

section
variable (hl : lz4.Lossless synced)
include hl

/-- What the loop does: it delivers `n` records, or all that are left. -/
theorem Busy.readLoop (fuel : Nat) :
    ∀ {s : ShardedReader δ} {frames : Nat} {pending later : List InputLogRow} (n : Nat)
      (out : List InputLogRow), Busy lz4 synced frames s pending later →
      2 * frames + min pending.length 1 < fuel →
      ∃ status rows rest s', s.readLoop lz4 fuel n out = some ((status, out ++ rows), s') ∧
        pending ++ later = rows ++ rest ∧ Left lz4 synced frames s' rest ∧
        (status = .ok ∧ rows.length = n ∨ status = .noData ∧ rest = [] ∧ rows.length < n) := by
  induction fuel with
  | zero => exact fun _ _ _ hfuel => absurd hfuel (Nat.not_lt_zero _)
  | succ fuel ih =>
    intro s frames pending later n out h hfuel
    by_cases hn : n = 0
    · subst hn
      refine ⟨.ok, [], pending ++ later, s, ?_, rfl, ⟨frames, le_rfl, .inr ⟨_, _, h, rfl⟩⟩,
        .inl ⟨rfl, rfl⟩⟩
      rw [h.served, append_nil]
    · by_cases hpending : pending = []
      · subst hpending
        obtain ⟨ix, k, hbufferIx, rfl, hidle⟩ := h.refill hl
        rw [h.turn hn fuel out hbufferIx]
        rcases hidle.choose with ⟨hnone, hxs⟩ | ⟨ix', pending', later', hsome, hne, hxs, hbusy⟩
        · rw [hnone]
          refine ⟨.noData, [], [], { s.refillBuffer lz4 ix with bufferIx := none }, ?_, hxs,
            ⟨k, Nat.le_succ k, .inl ⟨rfl, ?_⟩⟩, .inr ⟨rfl, rfl, pos_of_ne_zero hn⟩⟩
          · rw [append_nil]
          · rw [hxs] at hidle
            exact ⟨hidle.started, hidle.shows⟩
        · rw [hsome, hxs]
          obtain ⟨status, rows, rest, s', hloop, hrows, ⟨m, hm, hleft⟩, hcase⟩ :=
            ih n out hbusy (by omega)
          exact ⟨status, rows, rest, s', hloop, hrows, ⟨m, Nat.le_succ_of_le hm, hleft⟩, hcase⟩
      · obtain ⟨s1, htake, hbusy⟩ := h.take hpending hn fuel out
        have hpos := length_pos_iff.mpr hpending
        rw [htake]
        rcases le_total n pending.length with hle | hle
        · -- the buffer of the caller is full
          obtain ⟨fuel, rfl⟩ : ∃ k, fuel = k + 1 := ⟨fuel - 1, by omega⟩
          refine ⟨.ok, pending.take n, pending.drop n ++ later, s1, ?_, ?_,
            ⟨frames, le_rfl, .inr ⟨_, _, hbusy, rfl⟩⟩, .inl ⟨rfl, ?_⟩⟩
          · rw [min_eq_right hle, Nat.sub_self, hbusy.served]
          · rw [← append_assoc, take_append_drop]
          · exact length_take_of_le hle
        · have hnil : pending.drop n = [] := drop_eq_nil_of_le hle
          rw [hnil] at hbusy
          obtain ⟨status, rows, rest, s', hloop, hrows, hleft, hcase⟩ :=
            ih (n - pending.length) (out ++ pending) hbusy (by
              simp only [length_nil]
              omega)
          rw [min_eq_left hle, take_of_length_le hle]
          refine ⟨status, pending ++ rows, rest, s', ?_, ?_, hleft, ?_⟩
          · rw [← append_assoc]
            exact hloop
          · rw [append_assoc, ← hrows, nil_append]
          · rw [length_append]
            rcases hcase with ⟨hok, hlen⟩ | ⟨hend, hrest, hlen⟩
            · exact .inl ⟨hok, by omega⟩
            · exact .inr ⟨hend, hrest, by omega⟩

/-- Nothing has been read yet. -/
structure Waiting (lz4 : Lz4 σ δ) (synced : σ → δ → Prop) (frames : Nat) (s : ShardedReader δ)
    (xs : List InputLogRow) : Prop where
  waiting : s.readStarted = false
  shows : ∃ streams, Forall₂ (FramesLeft lz4 synced) s.streams streams ∧ Full streams ∧
    streams.flatten.length = frames ∧ xs = rowsOf (leastFirst frameKey streams)

theorem Waiting.init (h : Waiting lz4 synced frames s xs) :
    Idle lz4 synced frames (s.initReadBuffers lz4) xs := by
  obtain ⟨streams, hleft, hfull, hframes, hxs⟩ := h.shows
  have hqueue : Forall₂ Eq (s.initReadBuffers lz4).readQueue (streams.map bufferOf) := by
    rw [initReadBuffers, forall₂_map_left_iff, forall₂_map_left_iff, forall₂_map_right_iff]
    exact hleft.imp fun _ _ hws => (nextBuffer_eq hl hws).1
  refine ⟨rfl, streams, ?_, ?_, hfull, hframes, hxs⟩
  · rw [Behind, initReadBuffers, List.map_map, forall₂_map_left_iff]
    exact hleft.imp fun _ _ hws => (nextBuffer_eq hl hws).2
  · rwa [forall₂_eq_eq_eq] at hqueue

/-- What an answer is: some records and more to come, or all that were left. -/
def Answer (lz4 : Lz4 σ δ) (synced : σ → δ → Prop) (frames n : Nat) (xs : List InputLogRow)
    (result : Option ((Status × List InputLogRow) × ShardedReader δ)) : Prop :=
  ∃ status rows rest s', result = some ((status, rows), s') ∧ xs = rows ++ rest ∧
    Left lz4 synced frames s' rest ∧ rows.length ≤ n ∧
    (status = .ok ∧ rows ≠ [] ∨ status = .noData ∧ rest = [] ∧ rows.length < n)

theorem Busy.answer {k : Nat} (h : Busy lz4 synced k s pending later) (hk : k ≤ frames)
    (hfuel : 2 * frames + 1 < fuel) (hn : 0 < n) :
    Answer lz4 synced frames n (pending ++ later) (s.readLoop lz4 fuel n []) := by
  obtain ⟨status, rows, rest, s', hloop, hxs, ⟨m, hm, hleft⟩, hcase⟩ :=
    Busy.readLoop hl fuel n [] h (by omega)
  refine ⟨status, rows, rest, s', hloop, hxs, ⟨m, hm.trans hk, hleft⟩, ?_, ?_⟩
  · rcases hcase with ⟨-, hlen⟩ | ⟨-, -, hlen⟩
    · exact hlen.le
    · exact hlen.le
  · refine hcase.imp ?_ id
    rintro ⟨hok, hlen⟩
    exact ⟨hok, ne_nil_of_length_pos (hlen ▸ hn)⟩

theorem Idle.answer {k : Nat} (h : Idle lz4 synced k s xs) (hnone : s.bufferIx = none)
    (hk : k ≤ frames) (hfuel : 2 * frames + 1 < fuel) (hn : 0 < n) : Answer lz4 synced frames n xs
      (match s.chooseNext with
        | none => some ((.noData, []), s)
        | some ix => ShardedReader.readLoop lz4 fuel n [] { s with bufferIx := some ix }) := by
  rcases h.choose with ⟨hstop, rfl⟩ | ⟨ix, pending, later, hsome, -, rfl, hbusy⟩
  · rw [hstop]
    exact ⟨.noData, [], [], s, rfl, rfl, ⟨k, hk, .inl ⟨hnone, h⟩⟩, zero_le, .inr ⟨rfl, rfl, hn⟩⟩
  · rw [hsome]
    exact hbusy.answer hl hk hfuel hn

theorem readNext_answer (h : Waiting lz4 synced frames s xs ∨ Left lz4 synced frames s xs)
    (hfuel : 2 * frames + 1 < fuel) (hn : 0 < n) :
    Answer lz4 synced frames (min (2 ^ 32 - 1) n) xs (s.readNext lz4 fuel n) := by
  have hcap : 0 < min (2 ^ 32 - 1) n := Nat.lt_min.mpr ⟨by decide, hn⟩
  rw [readNext]
  rcases h with hwait | ⟨k, hk, ⟨hnone, hidle⟩ | ⟨pending, later, hbusy, rfl⟩⟩
  · have hidle := hwait.init hl
    simp only [hwait.waiting]
    exact hidle.answer hl rfl le_rfl hfuel hcap
  · simp only [if_pos hidle.started, hnone]
    exact hidle.answer hl hnone hk hfuel hcap
  · obtain ⟨streams, ix, w, ws, pos, hbufferIx, -⟩ := hbusy.shows
    simp only [if_pos hbusy.started, hbufferIx]
    exact hbusy.answer hl hk hfuel hcap

/-- The frames of the shards are delivered one after the other, each time the one with the
least number of those that are next. -/
theorem serves (hfuel : 2 * frames + 1 < fuel) (h : Waiting lz4 synced frames s xs) :
    Pull.Serves (reader lz4 fuel) .ok .noData (.same InputLogRow) s xs := by
  refine Pull.Serves.coinduct
    (fun s xs => Waiting lz4 synced frames s xs ∨ Left lz4 synced frames s xs) ?_ (.inl h)
  intro s xs h _ n hn
  obtain ⟨status, rows, rest, s', hread, hxs, hleft, hlen, hcase⟩ := readNext_answer hl h hfuel hn
  have hle : min (2 ^ 32 - 1) n ≤ n := min_le_right _ _
  refine ⟨⟨status, rows, s', ()⟩, rows, rest, ?_, hxs, rfl, hlen.trans hle, .inr hleft, ?_⟩
  · rw [reader, hread, map_some]
  · refine hcase.imp id ?_
    rintro ⟨hend, hrest, hlt⟩
    exact ⟨hend, hrest, hlt.trans_le hle⟩

end

end ShardedReader

/-! ## The shards that were written -/

def opsOf (concurrency i : Nat) (ops : List (Nat × LogOp)) : List LogOp :=
  ops.filterMap fun op => if op.1 % concurrency = i then some op.2 else none

/-- The files of a shard are as planned. -/
inductive ShardLogged (lz4 : Lz4 σ δ) (maxVolumes : Nat) :
    Option (InputLog σ) → LogPlan → List (List WrittenFrame) → Prop where
  | unused : ShardLogged lz4 maxVolumes none .new []
  | used {log : InputLog σ} {p : LogPlan} {ws : List WrittenFrame}
      {older : List (List WrittenFrame)} : log.maxVolumes = maxVolumes → Logged lz4 log p ws older →
      ShardLogged lz4 maxVolumes (some log) p (ws :: older).reverse

variable {dir : List (Nat × List UInt8)} {volumes : List (List WrittenFrame)}
  {ops : List (Nat × LogOp)}

section Shard
variable {maxVolumes : Nat} {log : Option (InputLog σ)} {p : LogPlan}
  {volumes : List (List WrittenFrame)}

section
variable (h : ShardLogged lz4 maxVolumes log p volumes)
include h

theorem ShardLogged.step (hends : p.Ends) {op : LogOp} (hfits : op.Fits) (volumeSize seq : Nat) :
    let result := op.step lz4 (log.getD (.new lz4 maxVolumes volumeSize), seq)
    ∃ volumes', ShardLogged lz4 maxVolumes (some result.1) (op.plan maxVolumes p) volumes' ∧
      Adds seq volumes.flatten volumes'.flatten result.2 := by
  cases h with
  | unused =>
    obtain ⟨ws', older', hlogged, hadds⟩ := (logged_new maxVolumes volumeSize).step hends hfits seq
    exact ⟨_, .used (op.step_maxVolumes _ seq) hlogged, hadds⟩
  | @used log p ws older hmax hlogged =>
    obtain ⟨ws', older', hlogged', hadds⟩ := hlogged.step hends hfits seq
    rw [hmax] at hlogged'
    exact ⟨_, .used ((op.step_maxVolumes _ seq).trans hmax) hlogged', hadds⟩

theorem ShardLogged.rows : volumes.flatten.map (·.rows) = p.frames.flatten := by
  cases h with
  | unused => rfl
  | used _ hlogged =>
    rw [LogPlan.frames, ← hlogged.written, ← hlogged.planned, ← map_cons, ← map_reverse,
      map_flatten]

theorem ShardLogged.rowsOf : rowsOf volumes.flatten = p.frames.flatMap flatten := by
  rw [FastSTDB.rowsOf, flatMap_def, h.rows, flatten_flatten, flatMap_def]

theorem ShardLogged.full (hfull : p.NoEmptyFrame) : ∀ w ∈ volumes.flatten, w.rows ≠ [] := by
  intro w hw
  have hmem : w.rows ∈ p.frames.flatten := by
    rw [← h.rows]
    exact mem_map_of_mem hw
  obtain ⟨frames, hframes, hmem⟩ := mem_flatten.mp hmem
  exact hfull frames hframes _ hmem

theorem ShardLogged.filesHold
    (hdir : dir.Perm ((log.map InputLog.files).getD [])) : FilesHold lz4 dir volumes := by
  cases h with
  | unused =>
    rw [perm_nil.mp hdir]
    exact .nil
  | used _ hlogged => exact hlogged.filesHold hdir

end

end Shard

/-- What is true of all shards: each is as planned, the numbers of its frames grow, and all
numbers of the log are different. -/
structure ShardsLogged (lz4 : Lz4 σ δ) (s : ShardedInputLog σ) (plans : Nat → LogPlan)
    (shards : List (List (List WrittenFrame))) : Prop where
  length : shards.length = s.streams.length
  shard : ∀ i log, s.streams[i]? = some log → ∃ volumes, shards[i]? = some volumes ∧
    ShardLogged lz4 s.maxVolumes log (plans i) volumes
  ends : ∀ i, (plans i).Ends
  ascending : ∀ volumes ∈ shards, volumes.flatten.Pairwise fun w w' => w.number < w'.number
  distinct : shards.flatten.flatten.Pairwise fun w w' => w.number ≠ w'.number
  bounded : ∀ w ∈ shards.flatten.flatten, w.number < s.sequencer

section
variable (h : Adds seq frames frames' seq')
include h

theorem Adds.ascending (hasc : frames.Pairwise fun w w' => w.number < w'.number)
    (hbound : ∀ w ∈ frames, w.number < seq) :
    frames'.Pairwise fun w w' => w.number < w'.number := by
  obtain ⟨new, hnum, hsub⟩ := h
  refine Pairwise.sublist hsub ?_
  refine pairwise_append.mpr ⟨hasc, hnum.pairwise, fun w hw w' hw' => ?_⟩
  exact (hbound w hw).trans_le (hnum.bounds w' hw').1

theorem Adds.mem (hw : w ∈ frames') : w ∈ frames ∨ seq ≤ w.number ∧ w.number < seq' := by
  obtain ⟨new, hnum, hsub⟩ := h
  rcases mem_append.mp (hsub.subset hw) with hw | hw
  · exact .inl hw
  · exact .inr (hnum.bounds w hw)

theorem Adds.le : seq ≤ seq' := by
  obtain ⟨new, hnum, -⟩ := h
  exact hnum.le

end

theorem shardsLogged_new (concurrency maxVolumes volumeSize : Nat) :
    ShardsLogged lz4 (.new concurrency maxVolumes volumeSize) (fun _ => .new)
      (replicate concurrency []) := by
  have hnone : (replicate concurrency ([] : List (List WrittenFrame))).flatten = [] :=
    flatten_replicate_nil
  refine ⟨?_, ?_, fun _ => LogPlan.ends_new, ?_, ?_, ?_⟩
  · rw [new, length_replicate, length_replicate]
  · intro i log hlog
    rw [new, getElem?_replicate] at hlog
    split at hlog
    · next hi =>
      cases hlog
      exact ⟨[], by rw [getElem?_replicate, if_pos hi], .unused⟩
    · cases hlog
  · intro volumes hvolumes
    rw [eq_of_mem_replicate hvolumes]
    exact .nil
  · rw [hnone]
    exact .nil
  · rw [hnone]
    exact forall_mem_nil _

section Shards
variable {s : ShardedInputLog σ} {plans : Nat → LogPlan} {shards : List (List (List WrittenFrame))}

theorem frames_perm_set (hi : i < shards.length) (volumes : List (List WrittenFrame)) :
    (shards.set i volumes).flatten.flatten.Perm
      (volumes.flatten ++ (shards.set i []).flatten.flatten) := by
  rw [← flatten_append]
  exact (flatten_set_perm hi volumes).flatten

theorem call_eq {log : Option (InputLog σ)} (hlog : s.streams[i % s.streams.length]? = some log)
    (op : LogOp) :
    let result := op.step lz4 (log.getD (.new lz4 s.maxVolumes s.volumeSize), s.sequencer)
    s.call lz4 i op = { s with
      streams := s.streams.set (i % s.streams.length) (some result.1), sequencer := result.2 } := by
  rw [call, getShard, hlog]
  rfl

theorem ShardsLogged.step (h : ShardsLogged lz4 s plans shards) (i : Nat) {op : LogOp}
    (hfits : op.Fits) : ∃ shards', ShardsLogged lz4 (s.call lz4 i op)
      (fun j => if i % s.streams.length = j then op.plan s.maxVolumes (plans j) else plans j)
      shards' := by
  generalize hk : i % s.streams.length = k
  have hends : ∀ j, (if k = j then op.plan s.maxVolumes (plans j) else plans j).Ends := by
    intro j
    split
    · exact (h.ends j).plan s.maxVolumes op
    · exact h.ends j
  cases hlog : s.streams[k]? with
  | none =>
    -- there are no shards
    have hnil : s.streams = [] := by
      rw [getElem?_eq_none_iff] at hlog
      by_contra hne
      exact not_lt.mpr hlog (hk ▸ Nat.mod_lt _ (length_pos_iff.mpr hne))
    have hstreams : (s.call lz4 i op).streams = [] := by
      rw [call]
      simp [hnil]
    refine ⟨[], ?_, ?_, hends, forall_mem_nil _, .nil, forall_mem_nil _⟩
    · rw [hstreams]
      rfl
    · intro j log hj
      rw [hstreams] at hj
      cases hj
  | some log =>
    obtain ⟨volumes, hvolumes, hshard⟩ := h.shard _ log hlog
    obtain ⟨volumes', hshard', hadds⟩ := hshard.step (h.ends _) hfits s.volumeSize s.sequencer
    have hmem : volumes ∈ shards := mem_of_getElem? hvolumes
    have hold := frames_perm_set (lt_of_getElem? hvolumes) volumes
    have hnew := frames_perm_set (lt_of_getElem? hvolumes) volumes'
    rw [set_same hvolumes] at hold
    have hbound : ∀ w ∈ volumes.flatten ++ (shards.set k []).flatten.flatten,
        w.number < s.sequencer := fun w hw => h.bounded w (hold.mem_iff.mpr hw)
    have hdistinct := hold.pairwise h.distinct fun {w w'} hne heq => hne heq.symm
    rw [pairwise_append] at hdistinct
    have hasc := hadds.ascending (h.ascending volumes hmem)
      fun w hw => hbound w (mem_append_left _ hw)
    rw [call_eq (hk ▸ hlog), hk]
    refine ⟨shards.set k volumes', ?_, ?_, hends, ?_, ?_, ?_⟩
    · rw [length_set, h.length, length_set]
    · intro j log' hj
      rw [getElem?_set] at hj ⊢
      split at hj
      · next heq =>
        subst heq
        have hlt : k < s.streams.length := lt_of_getElem? hlog
        rw [if_pos hlt] at hj
        cases hj
        exact ⟨volumes', by rw [if_pos rfl, if_pos (h.length ▸ hlt)], by rw [if_pos rfl]; exact hshard'⟩
      · next hne =>
        rw [if_neg hne, if_neg hne]
        exact h.shard j log' hj
    · exact forall_mem_set h.ascending hasc _
    · refine hnew.symm.pairwise ?_ fun {w w'} hne heq => hne heq.symm
      refine pairwise_append.mpr ⟨hasc.imp fun hlt => hlt.ne, hdistinct.2.1, ?_⟩
      intro w hw w' hw'
      rcases hadds.mem hw with hw | ⟨hge, -⟩
      · exact hdistinct.2.2 w hw w' hw'
      · exact (lt_of_lt_of_le (hbound w' (mem_append_right _ hw')) hge).ne'
    · intro w hw
      rcases mem_append.mp (hnew.mem_iff.mp hw) with hw | hw
      · rcases hadds.mem hw with hw | ⟨-, hlt⟩
        · exact (hbound w (mem_append_left _ hw)).trans_le hadds.le
        · exact hlt
      · exact (hbound w (mem_append_right _ hw)).trans_le hadds.le

theorem call_fixed (lz4 : Lz4 σ δ) (s : ShardedInputLog σ) (i : Nat) (op : LogOp) :
    (s.call lz4 i op).streams.length = s.streams.length ∧
      (s.call lz4 i op).maxVolumes = s.maxVolumes := by exact ⟨length_set, rfl⟩

theorem ShardsLogged.run (ops : List (Nat × LogOp)) : ∀ {s : ShardedInputLog σ}
    {plans : Nat → LogPlan} {shards : List (List (List WrittenFrame))},
    ShardsLogged lz4 s plans shards → (∀ op ∈ ops, op.2.Fits) →
    ∃ shards', ShardsLogged lz4 (runShards lz4 ops s)
      (fun i => (opsOf s.streams.length i ops).foldl (fun p op => op.plan s.maxVolumes p) (plans i))
      shards' := by
  induction ops with
  | nil => exact fun h _ => ⟨_, h⟩
  | cons op ops ih =>
    intro s plans shards h hfits
    obtain ⟨shards1, h1⟩ := h.step op.1 (hfits op mem_cons_self)
    obtain ⟨shards', h'⟩ := ih h1 (forall_mem_cons.mp hfits).2
    obtain ⟨hlength, hmax⟩ := call_fixed lz4 s op.1 op.2
    rw [hlength] at h'
    refine ⟨shards', ?_⟩
    convert h' using 1
    · rfl
    · funext i
      rw [opsOf, filterMap_cons]
      by_cases hi : op.1 % s.streams.length = i
      · rw [if_pos hi, if_pos hi]
        rfl
      · rw [if_neg hi, if_neg hi]
        rfl

end Shards

/-! ## Round trips -/

theorem filterMap_range {α : Type} (a : α) :
    (List.range n).filterMap (fun j => if j = i then some a else none) =
      if i < n then [a] else [] := by
  induction n with
  | zero => rfl
  | succ n ih =>
    rw [range_succ, filterMap_append, ih]
    rcases Nat.lt_trichotomy i n with hlt | rfl | hgt
    · simp [hlt, Nat.lt_succ_of_lt hlt, hlt.ne']
    · simp
    · simp [Nat.not_lt.mpr hgt.le, Nat.not_lt.mpr hgt, hgt.ne]

theorem opsOf_flushAll {concurrency : Nat} (hi : i < concurrency) :
    opsOf concurrency i (ops ++ flushAll concurrency) = opsOf concurrency i ops ++ [.flush] := by
  rw [opsOf, filterMap_append, flushAll, filterMap_map]
  congr 1
  refine (filterMap_congr fun j hj => ?_).trans ((filterMap_range .flush).trans (if_pos hi))
  simp only [Function.comp, Nat.mod_eq_of_lt (mem_range.mp hj)]

theorem fits_flushAll (hfits : ∀ op ∈ ops, op.2.Fits) (concurrency : Nat) :
    ∀ op ∈ ops ++ flushAll concurrency, op.2.Fits := by
  intro op hop
  rcases mem_append.mp hop with hop | hop
  · exact hfits op hop
  · obtain ⟨i, -, rfl⟩ := mem_map.mp hop
    trivial

theorem runShards_fixed : ∀ s : ShardedInputLog σ,
    (runShards lz4 ops s).streams.length = s.streams.length ∧
      (runShards lz4 ops s).maxVolumes = s.maxVolumes := by
  induction ops with
  | nil => exact fun _ => ⟨rfl, rfl⟩
  | cons op ops ih =>
    intro s
    obtain ⟨hlength, hmax⟩ := ih (s.call lz4 op.1 op.2)
    obtain ⟨hlength', hmax'⟩ := call_fixed lz4 s op.1 op.2
    exact ⟨hlength.trans hlength', hmax.trans hmax'⟩

/-- After any calls, and a flush of every shard, each shard is as planned. -/
theorem shardsLogged_run (concurrency maxVolumes volumeSize : Nat) (hfits : ∀ op ∈ ops, op.2.Fits) :
    let s := runShards lz4 (ops ++ flushAll concurrency) (.new concurrency maxVolumes volumeSize)
    ∃ plans shards, ShardsLogged lz4 s plans shards ∧ s.streams.length = concurrency ∧
      ∀ i < concurrency, plans i = planLog maxVolumes (opsOf concurrency i ops ++ [.flush]) := by
  obtain ⟨hlength, -⟩ := runShards_fixed (.new concurrency maxVolumes volumeSize)
  have hnew : (.new concurrency maxVolumes volumeSize : ShardedInputLog σ).streams.length =
      concurrency := length_replicate
  obtain ⟨shards, hshards⟩ := (shardsLogged_new concurrency maxVolumes volumeSize).run
    (ops ++ flushAll concurrency) (fits_flushAll hfits concurrency)
  refine ⟨_, shards, hshards, hlength.trans hnew, ?_⟩
  intro i hi
  rw [hnew, opsOf_flushAll hi]
  rfl

section Opened
variable {s : ShardedInputLog σ} {plans : Nat → LogPlan} {shards : List (List (List WrittenFrame))}
  {dirs : List (List (Nat × List UInt8))}

section
variable (h : ShardsLogged lz4 s plans shards)
include h

theorem ShardsLogged.at_index (hi : shards[i]? = some volumes) :
    i < s.streams.length ∧ ∃ log, ShardLogged lz4 s.maxVolumes log (plans i) volumes := by
  have hlt : i < s.streams.length := h.length ▸ (lt_of_getElem? hi)
  obtain ⟨volumes', hvolumes', hlogged⟩ := h.shard i _ (getElem?_eq_getElem hlt)
  cases hi.symm.trans hvolumes'
  exact ⟨hlt, _, hlogged⟩

theorem ShardsLogged.filesHold (hdirs : Forall₂ Perm dirs s.files) : Forall₂ (FilesHold lz4) dirs shards := by
  rw [files, forall₂_map_right_iff] at hdirs
  refine Pairs.of_index (hdirs.length_eq.trans h.length.symm) ?_
  intro i dir hdir
  obtain ⟨log, hlog, hperm⟩ := Pairs.at_index hdirs.flip hdir
  obtain ⟨volumes, hvolumes, hlogged⟩ := h.shard i log hlog
  exact ⟨volumes, hvolumes, hlogged.filesHold hperm⟩

theorem ShardsLogged.rowsOf : (shards.map fun volumes => rowsOf volumes.flatten) =
      (List.range s.streams.length).map fun i => (plans i).frames.flatMap flatten := by
  apply ext_getElem?
  intro i
  rw [getElem?_map, getElem?_map]
  cases hi : shards[i]? with
  | some volumes =>
    obtain ⟨hlt, log, hlogged⟩ := h.at_index hi
    rw [getElem?_range hlt, map_some, map_some, hlogged.rowsOf]
  | none =>
    have hout : (range s.streams.length).length ≤ i := by
      rw [length_range, ← h.length]
      exact getElem?_eq_none_iff.mp hi
    rw [getElem?_eq_none hout]
    rfl

theorem ShardsLogged.full (hfull : ∀ i < s.streams.length, (plans i).NoEmptyFrame) :
    Full (shards.map flatten) := by
  intro ws hws w hw
  obtain ⟨volumes, hvolumes, rfl⟩ := mem_map.mp hws
  obtain ⟨i, hi⟩ := mem_iff_getElem?.mp hvolumes
  obtain ⟨hlt, log, hlogged⟩ := h.at_index hi
  exact hlogged.full (hfull i hlt) w hw

/-- If the sequencer has not wrapped around, the number in the file is the number. -/
theorem ShardsLogged.sorted (hseq : s.sequencer ≤ 2 ^ 64) :
    (leastFirst frameKey (shards.map flatten)).Pairwise
      fun w w' => w.frame.sequenceNumber < w'.frame.sequenceNumber := by
  have hperm := leastFirst_perm frameKey (shards.map flatten)
  have hflat : (shards.map flatten).flatten = shards.flatten.flatten := flatten_flatten.symm
  rw [hflat] at hperm
  have hkey : ∀ w ∈ shards.flatten.flatten, w.frame.sequenceNumber = w.number :=
    fun w hw => w.stamp ((h.bounded w hw).trans_le hseq)
  have hstreams : ∀ ws ∈ shards.map flatten, ws.Pairwise fun w w' => frameKey w ≤ frameKey w' := by
    intro ws hws
    obtain ⟨volumes, hvolumes, rfl⟩ := mem_map.mp hws
    have hmem : ∀ w ∈ volumes.flatten, w ∈ shards.flatten.flatten := by
      intro w hw
      rw [← hflat]
      exact mem_flatten.mpr ⟨_, hws, hw⟩
    refine Pairwise.imp_of_mem ?_ (h.ascending volumes hvolumes)
    intro w w' hw hw' hlt
    rw [frameKey, frameKey, hkey w (hmem w hw), hkey w' (hmem w' hw')]
    exact hlt.le
  have hle := leastFirst_sorted hstreams
  have hne := hperm.symm.pairwise h.distinct fun {w w'} hne heq => hne heq.symm
  refine Pairwise.imp_of_mem ?_ (hle.and hne)
  rintro w w' hw hw' ⟨hkeys, hnumbers⟩
  refine lt_of_le_of_ne hkeys ?_
  rw [hkey w (hperm.mem_iff.mp hw), hkey w' (hperm.mem_iff.mp hw')]
  exact hnumbers

end

theorem waiting_openShards (hl : lz4.Lossless synced) (hholds : Forall₂ (FilesHold lz4) dirs shards)
    (hfull : Full (shards.map flatten)) :
    Waiting lz4 synced (shards.map flatten).flatten.length (openShards lz4 dirs)
      (FastSTDB.rowsOf (leastFirst frameKey (shards.map flatten))) := by
  refine ⟨rfl, _, ?_, hfull, rfl, rfl⟩
  rw [openShards, forall₂_map_left_iff, forall₂_map_right_iff]
  exact hholds.imp fun dir volumes hfiles => ⟨volumes, hfiles.unread hl, rfl⟩

end Opened

/-- A log with one shard serves the records it retains, if every frame that is written has
records. -/
theorem serves_single (hl : lz4.Lossless synced) (maxVolumes volumeSize seq : Nat)
    {ops : List LogOp} (hfits : ∀ op ∈ ops, op.Fits)
    (hfull : (planLog maxVolumes (ops ++ [.flush])).NoEmptyFrame)
    (hdir : dir.Perm (runLog lz4 (ops ++ [.flush]) (.new lz4 maxVolumes volumeSize, seq)).1.files) :
    ∃ bound, ∀ fuel, bound < fuel → Pull.Serves (reader lz4 fuel) .ok .noData (.same InputLogRow)
        (openShards lz4 [dir]) (retained maxVolumes ops).reverse.flatten := by
  obtain ⟨ws, older, hlogged⟩ := logged_run lz4 maxVolumes volumeSize seq (fits_flush hfits)
  have hshard := ShardLogged.used rfl hlogged
  have hfull' : Full ([(ws :: older).reverse].map flatten) := by
    intro frames hframes
    rw [mem_singleton.mp hframes]
    exact hshard.full hfull
  have hwaiting := waiting_openShards hl (.cons (hshard.filesHold hdir) .nil) hfull'
  have hrows : rowsOf (leastFirst frameKey ([(ws :: older).reverse].map flatten)) =
      (retained maxVolumes ops).reverse.flatten := by
    rw [map_singleton, leastFirst_singleton, hshard.rowsOf, (LogPlan.rows_flush maxVolumes ops).2]
  rw [hrows] at hwaiting
  exact ⟨_, fun fuel hfuel => serves hl hfuel hwaiting⟩

theorem serves_appended (rows : List InputLogRow) (hfits : ∀ row ∈ rows, row.Fits)
    (hfull : (planLog 4 (rows.map .append ++ [.flush])).NoEmptyFrame) :
    ∃ fuel, Pull.Serves (reader plainLz4 fuel) .ok .noData (.same InputLogRow)
      (openShards plainLz4 [(runLog plainLz4 (rows.map .append ++ [.flush])
        (.new plainLz4 4 65536, 0)).1.files]) rows := by
  have hops : ∀ op ∈ rows.map LogOp.append, op.Fits := by
    intro op hop
    obtain ⟨row, hrow, rfl⟩ := mem_map.mp hop
    exact hfits row hrow
  have hrows : ∀ (rows front : List InputLogRow),
      (rows.map LogOp.append).foldl (fun vs op => op.retain 4 vs) [front] = [front ++ rows] := by
    intro rows
    induction rows with
    | nil =>
      intro front
      rw [append_nil]
      rfl
    | cons row rows ih =>
      intro front
      calc ((row :: rows).map LogOp.append).foldl (fun vs op => op.retain 4 vs) [front]
          = (rows.map LogOp.append).foldl (fun vs op => op.retain 4 vs) [front ++ [row]] := rfl
        _ = [front ++ row :: rows] := by rw [ih, append_assoc, singleton_append]
  obtain ⟨bound, hserves⟩ := serves_single plainLz4_lossless 4 65536 0 hops hfull (Perm.refl _)
  have hretained : (retained 4 (rows.map .append)).reverse.flatten = rows := by
    rw [retained, hrows]
    simp
  rw [hretained] at hserves
  exact ⟨bound + 1, hserves _ (lt_add_one _)⟩

/-- Merge of the shards. After any calls on the shards and a flush of each, in which every
frame that is written has records, the shards are opened and drained. The records that
come out are those of the frames of all files, whole frames one behind the other, and
then there is no data left. The frames of a shard hold the records that its log retains,
and the numbers in the frames grow as long as the sequencer has not wrapped around. -/
theorem sharded_round_trip (hl : lz4.Lossless synced) (concurrency maxVolumes volumeSize : Nat)
    {ops : List (Nat × LogOp)} (hfits : ∀ op ∈ ops, op.2.Fits) (hfull : ∀ i < concurrency,
      (planLog maxVolumes (opsOf concurrency i ops ++ [.flush])).NoEmptyFrame)
    {dirs : List (List (Nat × List UInt8))}
    (hdirs : Forall₂ Perm dirs (runShards lz4 (ops ++ flushAll concurrency)
      (.new concurrency maxVolumes volumeSize)).files)
    {sizes : Nat → Nat} (hsizes : ∀ i, 0 < sizes i) :
    ∃ shards : List (List (List WrittenFrame)), Forall₂ (FilesHold lz4) dirs shards ∧
      (shards.map fun volumes => rowsOf volumes.flatten) = ((List.range concurrency).map fun i =>
        (retained maxVolumes (opsOf concurrency i ops)).reverse.flatten) ∧
      ∃ order : List WrittenFrame, order.Perm shards.flatten.flatten ∧
        ((runShards lz4 (ops ++ flushAll concurrency)
            (.new concurrency maxVolumes volumeSize)).sequencer ≤ 2 ^ 64 →
          order.Pairwise fun w w' => w.frame.sequenceNumber < w'.frame.sequenceNumber) ∧
        ∃ bound, ∀ fuel, bound ≤ fuel →
          Pull.drain (reader lz4 fuel) .ok fuel () (openShards lz4 dirs) sizes =
            some (rowsOf order, .noData) := by
  obtain ⟨plans, shards, h, hlength, hplans⟩ :=
    shardsLogged_run concurrency maxVolumes volumeSize hfits
  generalize runShards lz4 (ops ++ flushAll concurrency) (.new concurrency maxVolumes volumeSize) = s
    at hdirs h hlength ⊢
  subst hlength
  have hrecords : Full (shards.map flatten) := by
    apply h.full
    intro i hi
    rw [hplans i hi]
    exact hfull i hi
  have hwaiting := waiting_openShards hl (h.filesHold hdirs) hrecords
  refine ⟨shards, h.filesHold hdirs, ?_, _, ?_, h.sorted, 2 * (shards.map flatten).flatten.length +
      (rowsOf (leastFirst frameKey (shards.map flatten))).length + 2, ?_⟩
  · rw [h.rowsOf]
    apply map_congr_left
    intro i hi
    rw [hplans i (mem_range.mp hi), (LogPlan.rows_flush maxVolumes _).2]
  · rw [flatten_flatten]
    exact leastFirst_perm _ _
  · intro fuel hfuel
    have hserves := serves hl
      (show 2 * (shards.map flatten).flatten.length + 1 < fuel by omega) hwaiting
    exact hserves.drain_eq fuel () sizes (by omega) hsizes

theorem sharded_round_trip_two :
    let ops : List (Nat × LogOp) :=
      [(0, .append ⟨7, .dataPoint ⟨10, 20⟩⟩), (1, .append ⟨8, .seriesName [97, 98]⟩)]
    let s := runShards plainLz4 (ops ++ flushAll 2) (.new 2 4 65536)
    ∃ order : List WrittenFrame, ∃ bound, ∀ fuel, bound ≤ fuel →
      Pull.drain (reader plainLz4 fuel) .ok fuel () (openShards plainLz4 s.files)
        (fun _ => 1) = some (rowsOf order, .noData) := by
  intro ops s
  have hfits : ∀ op ∈ ops, op.2.Fits := by
    intro op hop
    simp only [ops, mem_cons, not_mem_nil, or_false] at hop
    rcases hop with rfl | rfl
    · exact zero_le
    · exact (by decide : 2 ≤ logBlockSize - frameHeaderSize - 16)
  obtain ⟨-, -, -, order, -, -, hdrain⟩ := sharded_round_trip plainLz4_lossless 2 4 65536 hfits
    (by decide) (forall₂_same.mpr fun _ _ => Perm.refl _) (fun _ => zero_lt_one)
  exact ⟨order, hdrain⟩

end FastSTDB
