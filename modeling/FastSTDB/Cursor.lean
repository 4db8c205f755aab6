import FastSTDB.Sample
import FastSTDB.Lib.Bytes
import FastSTDB.Lib.Pairs
import Mathlib.Logic.Relation

/-
  ConcurrentCursor — samples on their way from the thread of a query to its reader
  (`core/cursor.cc`)

  The query puts samples into a queue of byte buffers, the reader copies whole
  samples out of it. A step of the system is what one thread does while it holds the
  mutex: `put` and `read` up to their return or to the wait that gives the mutex up.
  `complete` and the look at `done_` that opens `put` take no mutex; `close` keeps it
  until the query's thread has ended. A wait ends at any time, notified or not.

  What is proved:
    1. `delivery` — whatever the threads' order, each read returns whole samples, the
       reads together the first of those put; the queue stays within its limit; and
       after a read that returned nothing the whole query has been delivered.
    2. `close_ends_iff` — `close` comes to its end if, and only if, it did not catch
       the query inside `put` and the query has nothing left to do under the mutex;
       `close_hangs` is a run that stops there for good.
    3. `read_returns` — a read never does.

  Correspondence (C++ ↔ Lean):
    `BufferT` (`wrpos` is the end of what is written)  ↔ `BufferT`
    the loops of `read` and `put`                      ↔ `readLoop`, `putLoop`
    `put`, `complete`, `set_error`, `read`, `close`    ↔ the constructors of `Step`
  The error code and text are not modelled: neither loop reads them.
-/
namespace FastSTDB
open Option
namespace ConcurrentCursor
open List Bytes Relation

/-! ## Buffers and samples -/

/-- `BUFFER_SIZE`. -/
def bufferSize : Nat := 0x4000

/-- `QUEUE_MAX`. -/
def queueMax : Nat := 0x20

/-- `payload.size` of the sample these bytes start with: the u16 behind the timestamp,
the id and the value. -/
def payloadSize (bytes : List UInt8) : Nat := ofLe ((bytes.drop 24).take 2)

/-- A sample as `put` copies it: as many bytes as its `payload.size` says. -/
structure SampleBytes where
  bytes : List UInt8
  size_eq : payloadSize bytes = bytes.length
  sample_le : sampleSize ≤ bytes.length
  le_max : bytes.length ≤ 4128

structure BufferT where
  /-- The bytes below `wrpos`. -/
  buf : List UInt8
  rdpos : Nat

def BufferT.wrpos (b : BufferT) : Nat := b.buf.length

def BufferT.unread (b : BufferT) : List UInt8 := b.buf.drop b.rdpos

def makeEmpty : BufferT := ⟨[], 0⟩

/-- Number of bytes copied: whole samples as long as they fit. Nothing if the fuel
does not suffice: a `payload.size` of 0 would never end the loop. -/
def samplecpy : Nat → List UInt8 → Nat → Option Nat
  | 0, _, _ => none
  | fuel + 1, source, size =>
    if size = 0 ∨ size < payloadSize source then some 0
    else (samplecpy fuel (source.drop (payloadSize source)) (size - payloadSize source)).map
      (payloadSize source + ·)

/-- What `read` does with the mutex ends with its return, or in `wait_for` with some
room left in the caller's buffer. -/
inductive ReadPart where
  | returns (queue : List BufferT) (got : List UInt8)
  | waits (queue : List BufferT) (room : Nat) (got : List UInt8)

def readLoop (done : Bool) : Nat → List BufferT → Nat → List UInt8 → Option ReadPart
  | 0, _, _, _ => none
  | _ + 1, [], room, got => some (if done then .returns [] got else .waits [] room got)
  | fuel + 1, front :: queue, room, got =>
    let bytes2read := min room (front.wrpos - front.rdpos)
    (samplecpy (bytes2read + 1) front.unread bytes2read).bind fun out =>
      if out = 0 then some (.returns (front :: queue) got)
      else
        let rest := if front.rdpos + out = front.wrpos then queue
          else { front with rdpos := front.rdpos + out } :: queue
        let got := got ++ front.unread.take out
        if room - out < sampleSize then some (.returns rest got)
        else readLoop done fuel rest (room - out) got

/-- What `put` does with the mutex: the sample is written, or the queue is full. -/
inductive PutPart where
  | written (queue : List BufferT)
  | waits (queue : List BufferT)

def putLoop (bytes : List UInt8) : Nat → List BufferT → Option PutPart
  | 0, _ => none
  | fuel + 1, queue =>
    -- an empty queue gets an empty buffer first
    let top := queue.getLast?.getD makeEmpty
    let below := queue.dropLast
    if bufferSize < top.wrpos + bytes.length then
      if below.length + 1 < queueMax then putLoop bytes fuel (below ++ [top] ++ [makeEmpty])
      else some (.waits (below ++ [top]))
    else some (.written (below ++ [{ top with buf := top.buf ++ bytes }]))

/-! ## The two threads -/

inductive Finish where
  | complete
  | setError

/-- Where the query's thread is: between two calls with samples still to put, in `put`
past the look at `done_`, or at its end. -/
inductive Producer where
  | running (prog : List SampleBytes)
  | putting (s : SampleBytes) (prog : List SampleBytes)
  | ended

/-- Where the reader is; in `closing` it holds the mutex and joins the thread. -/
inductive Consumer where
  | idle
  | reading (room : Nat) (got : List UInt8)
  | closing
  | closed

/-- The cursor and its threads, with the samples `put` has written and what the reads
have returned so far. -/
structure State where
  queue : List BufferT
  done : Bool
  producer : Producer
  consumer : Consumer
  sent : List SampleBytes
  returned : List (List UInt8)

def start (prog : List SampleBytes) : State := ⟨[], false, .running prog, .idle, [], []⟩

/-- One step of either thread. The query may leave out samples once `put` has returned
false; the reader's buffers have at least `minRead` bytes. -/
inductive Step (finish : Finish) (minRead : Nat) (st : State) : State → Prop
  | putRefused {s prog rest} (hp : st.producer = .running (s :: prog)) (hd : st.done = true)
      (hr : rest <:+ prog) : Step finish minRead st { st with producer := .running rest }
  | putEntered {s prog} (hp : st.producer = .running (s :: prog)) (hd : st.done = false) :
      Step finish minRead st { st with producer := .putting s prog }
  | putWritten {s prog queue} (hp : st.producer = .putting s prog)
      (hm : st.consumer ≠ .closing)
      (hq : putLoop s.bytes (queueMax + 1) st.queue = some (.written queue)) :
      Step finish minRead st
        { st with queue := queue, producer := .running prog, sent := st.sent ++ [s] }
  | putWaits {s prog queue} (hp : st.producer = .putting s prog) (hm : st.consumer ≠ .closing)
      (hq : putLoop s.bytes (queueMax + 1) st.queue = some (.waits queue)) :
      Step finish minRead st { st with queue := queue }
  | complete (hp : st.producer = .running []) (hf : finish = .complete) :
      Step finish minRead st { st with done := true, producer := .ended }
  | setError (hp : st.producer = .running []) (hf : finish = .setError)
      (hm : st.consumer ≠ .closing) :
      Step finish minRead st { st with done := true, producer := .ended }
  | readCalled {n} (hc : st.consumer = .idle) (hn : minRead ≤ n) :
      Step finish minRead st { st with consumer := .reading n [] }
  | readReturned {room got queue got'} (hc : st.consumer = .reading room got)
      (hq : readLoop st.done (room + 1) st.queue room got = some (.returns queue got')) :
      Step finish minRead st
        { st with queue := queue, consumer := .idle, returned := st.returned ++ [got'] }
  | readWaits {room got queue room' got'} (hc : st.consumer = .reading room got)
      (hq : readLoop st.done (room + 1) st.queue room got = some (.waits queue room' got')) :
      Step finish minRead st { st with queue := queue, consumer := .reading room' got' }
  | close (hc : st.consumer = .idle) :
      Step finish minRead st { st with done := true, consumer := .closing }
  | joined (hc : st.consumer = .closing) (hp : st.producer = .ended) :
      Step finish minRead st { st with consumer := .closed }

/-! ## What the loops do to the samples in the queue -/

def flat (ss : List SampleBytes) : List UInt8 := ss.flatMap (·.bytes)

@[simp] theorem flat_nil : flat [] = [] := rfl

@[simp] theorem flat_cons (s : SampleBytes) (ss : List SampleBytes) :
    flat (s :: ss) = s.bytes ++ flat ss := rfl

@[simp] theorem flat_append (ss ts : List SampleBytes) : flat (ss ++ ts) = flat ss ++ flat ts :=
  flatMap_append

theorem SampleBytes.pos (s : SampleBytes) : 0 < s.bytes.length :=
  lt_of_lt_of_le (by decide) s.sample_le

variable {ss : List SampleBytes} {queue : List BufferT}

theorem flat_eq_nil : flat ss = [] ↔ ss = [] := by
  cases ss with
  | nil => simp
  | cons s ss =>
    have h := s.pos
    simp [length_pos_iff.mp h]

theorem payloadSize_append (s : SampleBytes) (bytes : List UInt8) :
    payloadSize (s.bytes ++ bytes) = s.bytes.length := by
  have h : 26 ≤ s.bytes.length := le_trans (by decide) s.sample_le
  rw [← s.size_eq, payloadSize, payloadSize, drop_append_of_le_length (by omega),
    take_append_of_le_length (by rw [length_drop]; omega)]

/-- `samplecpy` stops at the end of a sample, and only if the next one does not fit. -/
theorem samplecpy_spec {size fuel : Nat} (hf : size ≤ fuel) (hs : size ≤ (flat ss).length) :
    ∃ pre post, ss = pre ++ post ∧ samplecpy (fuel + 1) (flat ss) size = some (flat pre).length ∧
      (flat pre).length ≤ size ∧ ∀ s ∈ post.head?, size < (flat pre).length + s.bytes.length := by
  induction ss generalizing size fuel with
  | nil =>
    have h0 : size = 0 := Nat.le_zero.mp hs
    exact ⟨[], [], rfl, by simp [samplecpy, h0], zero_le, by simp⟩
  | cons s ss ih =>
    have hpos := s.pos
    rw [flat_cons, samplecpy, payloadSize_append]
    by_cases hlt : size < s.bytes.length
    · refine ⟨[], s :: ss, rfl, ?_, zero_le, by simpa using hlt⟩
      rw [if_pos (.inr hlt)]
      rfl
    · have hrest : size - s.bytes.length ≤ (flat ss).length := by
        rw [flat_cons, length_append] at hs
        omega
      obtain ⟨fuel, rfl⟩ := Nat.exists_eq_succ_of_ne_zero (show fuel ≠ 0 by omega)
      obtain ⟨pre, post, hsplit, hcopy, hle, hnext⟩ :=
        ih (show size - s.bytes.length ≤ fuel by omega) hrest
      refine ⟨s :: pre, post, by rw [hsplit, cons_append], ?_, ?_, fun t ht => ?_⟩
      · rw [if_neg (by omega), drop_left, hcopy]
        simp
      · rw [flat_cons, length_append]
        omega
      · have := hnext t ht
        rw [flat_cons, length_append]
        omega

/-- The buffer still has these samples to be read, and at least one. -/
def BufferT.Holds (b : BufferT) (ss : List SampleBytes) : Prop := b.unread = flat ss ∧ ss ≠ []

theorem BufferT.Holds.rdpos_lt {b : BufferT} (h : b.Holds ss) : b.rdpos < b.buf.length := by
  by_contra hle
  have hnil : b.unread = [] := drop_eq_nil_of_le (not_lt.mp hle)
  exact h.2 (flat_eq_nil.mp (h.1.symm.trans hnil))

theorem BufferT.Holds.write {b : BufferT} (h : b.Holds ss)
    (s : SampleBytes) : BufferT.Holds { b with buf := b.buf ++ s.bytes } (ss ++ [s]) := by
  refine ⟨?_, by simp⟩
  have hd : (b.buf ++ s.bytes).drop b.rdpos = b.unread ++ s.bytes :=
    drop_append_of_le_length h.rdpos_lt.le
  rw [flat_append, ← h.1, flat_cons, flat_nil, append_nil]
  exact hd

theorem holds_makeEmpty (s : SampleBytes) :
    BufferT.Holds { makeEmpty with buf := makeEmpty.buf ++ s.bytes } [s] :=
  ⟨by simp [BufferT.unread, makeEmpty], by simp⟩

theorem putLoop_fits {bytes : List UInt8} {top : BufferT} (fuel : Nat) (below : List BufferT)
    (h : top.wrpos + bytes.length ≤ bufferSize) : putLoop bytes (fuel + 1) (below ++ [top]) =
      some (.written (below ++ [{ top with buf := top.buf ++ bytes }])) := by
  simp [putLoop, not_lt.mpr h]

variable {groups : List (List SampleBytes)}

/-- `put` writes the sample behind those in the queue, or leaves a full queue alone. -/
theorem putLoop_spec (hq : Forall₂ BufferT.Holds queue groups) (hlen : queue.length ≤ queueMax)
    (s : SampleBytes) : putLoop s.bytes (queueMax + 1) queue = some (.waits queue) ∨
    ∃ queue' groups', putLoop s.bytes (queueMax + 1) queue = some (.written queue') ∧
      Forall₂ BufferT.Holds queue' groups' ∧ groups'.flatten = groups.flatten ++ [s] ∧
      queue'.length ≤ queueMax := by
  have hnew : makeEmpty.wrpos + s.bytes.length ≤ bufferSize := by
    have := s.le_max
    show 0 + s.bytes.length ≤ bufferSize
    exact le_trans (by omega) (show 4128 ≤ bufferSize by decide)
  rcases eq_nil_or_concat' queue with rfl | ⟨below, top, rfl⟩
  · cases hq
    refine .inr ⟨[{ makeEmpty with buf := makeEmpty.buf ++ s.bytes }], [[s]], ?_, ?_, rfl,
      show 1 ≤ queueMax by decide⟩
    · simp [putLoop, not_lt.mpr hnew]
    · exact .cons (holds_makeEmpty s) .nil
  · obtain ⟨gs, g', hgs, hg', rfl⟩ := Pairs.split hq
    obtain ⟨g, -, hg, ⟨⟩, rfl⟩ := forall₂_cons_left_iff.mp hg'
    by_cases hfit : top.wrpos + s.bytes.length ≤ bufferSize
    · refine .inr ⟨_, gs ++ [g ++ [s]], putLoop_fits _ below hfit,
        Pairs.concat hgs (hg.write s), by simp, by simpa using hlen⟩
    · by_cases hfull : below.length + 1 < queueMax
      · refine .inr ⟨below ++ [top] ++ [{ makeEmpty with buf := makeEmpty.buf ++ s.bytes }],
          gs ++ [g] ++ [[s]], ?_, Pairs.concat hq (holds_makeEmpty s), by simp, ?_⟩
        · rw [putLoop]
          simp only [getLast?_append, getLast?_singleton, some_or, getD_some,
            dropLast_concat, if_pos (not_le.mp hfit), if_pos hfull]
          exact putLoop_fits 31 (below ++ [top]) hnew
        · simp only [length_append, length_singleton]
          omega
      · rw [putLoop]
        simp [if_pos (not_le.mp hfit), if_neg hfull]

theorem forall₂_advance {front : BufferT} {pre post : List SampleBytes}
    {gs : List (List SampleBytes)} (hfront : front.Holds (pre ++ post))
    (hq : Forall₂ BufferT.Holds queue gs) :
    ∃ groups, Forall₂ BufferT.Holds (if front.rdpos + (flat pre).length = front.wrpos then queue
        else { front with rdpos := front.rdpos + (flat pre).length } :: queue) groups ∧
      groups.flatten = post ++ gs.flatten ∧ groups.length ≤ gs.length + 1 := by
  have hlt := hfront.rdpos_lt
  have hrest : front.buf.drop (front.rdpos + (flat pre).length) = flat post := by
    rw [← drop_drop, show front.buf.drop front.rdpos = _ from hfront.1, flat_append, drop_left]
  have hlen : front.buf.length = front.rdpos + (flat pre).length + (flat post).length := by
    have := congrArg length hfront.1
    rw [BufferT.unread, length_drop, flat_append, length_append] at this
    omega
  by_cases hpost : post = []
  · subst hpost
    exact ⟨gs, by rwa [if_pos (by simpa [BufferT.wrpos] using hlen.symm)], rfl, by simp⟩
  · have hpos := length_pos_iff.mpr (mt flat_eq_nil.mp hpost)
    refine ⟨post :: gs, ?_, flatten_cons, by simp⟩
    rw [if_neg (by rw [BufferT.wrpos]; omega)]
    exact .cons ⟨hrest, hpost⟩ hq

/-- `read` takes whole samples off the front of the queue. It waits with the queue
empty, and returns without a byte only at the end of the query or if a sample does not
fit into the caller's buffer. -/
theorem readLoop_spec (done : Bool) {fuel room : Nat} (hf : room < fuel)
    (hq : Forall₂ BufferT.Holds queue groups) (got : List UInt8) : ∃ pre,
      (readLoop done fuel queue room got =
          some (.waits [] (room - (flat pre).length) (got ++ flat pre)) ∧
        groups.flatten = pre ∧ (flat pre).length ≤ room) ∨ ∃ queue' groups',
        readLoop done fuel queue room got = some (.returns queue' (got ++ flat pre)) ∧
        groups.flatten = pre ++ groups'.flatten ∧ Forall₂ BufferT.Holds queue' groups' ∧
        groups'.length ≤ groups.length ∧
        (pre = [] → (queue' = [] ∧ done = true) ∨ ∃ s ∈ groups.flatten, room < s.bytes.length) := by
  induction fuel generalizing queue groups room got with
  | zero => exact absurd hf (Nat.not_lt_zero _)
  | succ fuel ih =>
    cases hq with
    | nil =>
      refine ⟨[], ?_⟩
      cases done with
      | false => exact .inl ⟨by simp [readLoop], rfl, zero_le⟩
      | true =>
        exact .inr ⟨[], [], by simp [readLoop], rfl, .nil, by simp, fun _ => .inl ⟨rfl, rfl⟩⟩
    | @cons front g queue gs hfront hq =>
      have hlen : front.wrpos - front.rdpos = (flat g).length := by
        rw [← hfront.1, BufferT.unread, length_drop, BufferT.wrpos]
      obtain ⟨pre, post, rfl, hcopy, hle, hnext⟩ := samplecpy_spec
        (le_refl (min room (flat g).length)) (min_le_right _ _)
      obtain ⟨rest, hrest, hflat, hle'⟩ := forall₂_advance hfront hq
      simp only [readLoop, hlen, hfront.1, hcopy, bind_some]
      by_cases hpre : pre = []
      · -- the first sample of the front buffer does not fit
        subst hpre
        refine ⟨[], .inr ⟨front :: queue, post :: gs, by simp, rfl, .cons hfront hq, by simp,
          fun _ => ?_⟩⟩
        obtain ⟨s, post, rfl⟩ := exists_cons_of_ne_nil hfront.2
        refine .inr ⟨s, by simp, ?_⟩
        have hmin := hnext s rfl
        simp only [flat_nil, length_nil, nil_append, flat_cons, length_append] at hmin
        omega
      · have hpos : (flat pre).length ≠ 0 := by simpa [flat_eq_nil] using hpre
        have htake : (flat (pre ++ post)).take (flat pre).length = flat pre := by
          rw [flat_append, take_left]
        rw [if_neg hpos, htake]
        by_cases hsmall : room - (flat pre).length < sampleSize
        · refine ⟨pre, .inr ⟨_, rest, by rw [if_pos hsmall], ?_, hrest, hle',
            fun h => absurd h hpre⟩⟩
          rw [hflat, flatten_cons, append_assoc]
        · rw [if_neg hsmall]
          obtain ⟨pre', h⟩ := ih (show room - (flat pre).length < fuel by omega) hrest
            (got ++ flat pre)
          refine ⟨pre ++ pre', ?_⟩
          rw [flatten_cons, append_assoc, ← hflat, flat_append, length_append, ← append_assoc,
            ← Nat.sub_sub]
          refine h.imp (fun ⟨hl, hp, hr⟩ => ⟨hl, by rw [hp], by omega⟩)
            fun ⟨q, gs', hl, hp, hh, hn, _⟩ => ⟨q, gs', hl, by rw [hp, append_assoc], hh,
              hn.trans hle',
              fun hnil => absurd (append_eq_nil_iff.mp hnil).1 hpre⟩

/-! ## Delivery -/

/-- Bytes the read in progress has copied so far. -/
def Consumer.got : Consumer → List UInt8
  | .reading _ got => got
  | _ => []

/-- Whether `close` has not been called yet. -/
def Consumer.isOpen : Consumer → Prop
  | .closing | .closed => False
  | _ => True

def Producer.rest : Producer → List SampleBytes
  | .running prog => prog
  | .putting s prog => s :: prog
  | .ended => []

/-- What holds at any time of the query `prog`. -/
structure Inv (prog : List SampleBytes) (minRead : Nat) (st : State) : Prop where
  /-- The samples put, in order: returned by reads, copied by the read in progress,
  queued. -/
  held : ∃ (reads : List (List SampleBytes)) (part : List SampleBytes)
      (groups : List (List SampleBytes)), st.sent = reads.flatten ++ part ++ groups.flatten ∧
    st.returned = reads.map flat ∧ st.consumer.got = flat part ∧
    Forall₂ BufferT.Holds st.queue groups
  queue_le : st.queue.length ≤ queueMax
  room : ∀ room got, st.consumer = .reading room got → minRead ≤ room + got.length
  /-- Only a query that finds the cursor closed leaves samples out. -/
  sent : ∃ skipped, st.sent ++ skipped ++ st.producer.rest = prog ∧
    (st.consumer.isOpen → skipped = [] ∧ (st.done = true → st.producer = .ended))
  closed : st.consumer = .closed → st.producer = .ended
  empty : [] ∈ st.returned → st.producer = .ended ∧ st.queue = [] ∧ st.consumer.got = [] ∧
    st.sent = prog

theorem inv_start (prog : List SampleBytes) (minRead : Nat) : Inv prog minRead (start prog) where
  held := ⟨[], [], [], rfl, rfl, rfl, .nil⟩
  queue_le := zero_le
  room := nofun
  sent := ⟨[], rfl, fun _ => ⟨rfl, nofun⟩⟩
  closed := nofun
  empty := nofun

namespace Inv

variable {prog : List SampleBytes} {finish : Finish} {minRead : Nat} {st st' : State}

section
variable (h : Inv prog minRead st)
include h

/-- The query goes from one call to the next. As long as it has not ended, no read has returned
without a byte. -/
theorem advanced (hp : st.producer ≠ .ended) {done : Bool} {p : Producer}
    (hsent : ∃ skipped, st.sent ++ skipped ++ p.rest = prog ∧
      (st.consumer.isOpen → skipped = [] ∧ (done = true → p = .ended))) :
    Inv prog minRead { st with done := done, producer := p } := { h with
    sent := hsent
    closed := fun hc => absurd (h.closed hc) hp
    empty := fun hm => absurd (h.empty hm).1 hp }

theorem end_query (hp : st.producer = .running []) :
    Inv prog minRead { st with done := true, producer := .ended } := by
  obtain ⟨skipped, hprog, hopen⟩ := h.sent
  rw [hp] at hprog
  exact h.advanced (by simp [hp]) ⟨skipped, hprog, fun ho => ⟨(hopen ho).1, fun _ => rfl⟩⟩

theorem moved {done : Bool} {c : Consumer} (hgot : c.got = st.consumer.got)
    (hroom : ∀ room got, c = .reading room got → minRead ≤ room + got.length)
    (hopen : c.isOpen → st.consumer.isOpen ∧ done = st.done)
    (hclosed : c = .closed → st.producer = .ended) :
    Inv prog minRead { st with done := done, consumer := c } := by
  obtain ⟨skipped, hprog, hskip⟩ := h.sent
  have hheld := h.held
  have hempty := h.empty
  rw [← hgot] at hheld hempty
  refine { h with
    held := hheld, room := hroom, closed := hclosed, empty := hempty
    sent := ⟨skipped, hprog, fun ho => ?_⟩ }
  rw [(hopen ho).2]
  exact hskip (hopen ho).1

theorem put {s : SampleBytes} {rest : List SampleBytes} (hp : st.producer = .putting s rest)
    (hm : st.consumer ≠ .closing) {part : PutPart}
    (hput : putLoop s.bytes (queueMax + 1) st.queue = some part) :
    match part with
    | .waits queue => queue = st.queue
    | .written queue => Inv prog minRead
        { st with queue := queue, producer := .running rest, sent := st.sent ++ [s] } := by
  obtain ⟨reads, part, groups, hsent, hret, hgot, hq⟩ := h.held
  obtain hw | ⟨queue', groups', hw, hq', hflat, hle⟩ := putLoop_spec hq h.queue_le s
  · cases hput.symm.trans hw
    rfl
  · cases hput.symm.trans hw
    obtain ⟨skipped, hprog, hopen⟩ := h.sent
    have hne : st.producer ≠ .ended := by simp [hp]
    have hisOpen : st.consumer.isOpen := by
      cases hc : st.consumer with
      | closing => exact hm hc
      | closed => exact hne (h.closed hc)
      | _ => trivial
    obtain ⟨rfl, hdone⟩ := hopen hisOpen
    rw [hp] at hprog
    refine { h with
      held := ⟨reads, part, groups', ?_, hret, hgot, hq'⟩, queue_le := hle
      sent := ⟨[], ?_, fun _ => ⟨rfl, ?_⟩⟩, closed := ?_, empty := ?_ }
    · rw [hsent, hflat, append_assoc]
    · simpa [Producer.rest] using hprog
    · exact fun hd => absurd (hdone hd) hne
    · exact fun hc => absurd (h.closed hc) hne
    · exact fun hm => absurd (h.empty hm).1 hne

end

theorem read (hsize : ∀ s ∈ prog, s.bytes.length ≤ minRead) (h : Inv prog minRead st)
    {room : Nat} {got : List UInt8} (hc : st.consumer = .reading room got) {part : ReadPart}
    (hread : readLoop st.done (room + 1) st.queue room got = some part) :
    match part with
    | .waits queue room got => Inv prog minRead
        { st with queue := queue, consumer := .reading room got }
    | .returns queue got => Inv prog minRead
        { st with queue := queue, consumer := .idle, returned := st.returned ++ [got] } := by
  obtain ⟨reads, part, groups, hsent, hret, hgot, hq⟩ := h.held
  obtain ⟨skipped, hprog, hopen⟩ := h.sent
  rw [hc] at hgot hopen
  obtain rfl : got = flat part := hgot
  obtain ⟨rfl, hdone⟩ := hopen trivial
  have hroom := h.room _ _ hc
  obtain ⟨pre, ⟨hl, hflat, hle⟩ | ⟨queue', groups', hl, hflat, hq', hlen, hnil⟩⟩ :=
    readLoop_spec st.done (Nat.lt_succ_self room) hq (flat part)
  · cases hread.symm.trans hl
    refine { h with
      held := ⟨reads, part ++ pre, [], ?_, hret, (flat_append _ _).symm, .nil⟩
      queue_le := zero_le, room := ?_
      sent := ⟨[], hprog, fun _ => ⟨rfl, hdone⟩⟩, closed := nofun, empty := ?_ }
    · rw [hsent, hflat, flatten_nil, append_nil, append_assoc]
    · rintro _ _ ⟨⟩
      rw [length_append]
      omega
    · intro hm
      obtain ⟨he, hqueue, hg, hall⟩ := h.empty hm
      rw [hc] at hg
      rw [hqueue] at hq
      cases hq
      obtain rfl : pre = [] := hflat.symm
      exact ⟨he, rfl, by simpa [Consumer.got] using hg, hall⟩
  · cases hread.symm.trans hl
    refine { h with
      held := ⟨reads ++ [part ++ pre], [], groups', ?_, ?_, rfl, hq'⟩, queue_le := ?_
      room := nofun, sent := ⟨[], hprog, fun _ => ⟨rfl, hdone⟩⟩, closed := nofun, empty := ?_ }
    · rw [hsent, hflat]
      simp
    · rw [hret]
      simp
    · have := h.queue_le
      rw [hq.length_eq] at this
      rw [hq'.length_eq]
      exact hlen.trans this
    · intro hm
      rcases mem_append.mp hm with hm | hm
      · obtain ⟨he, hqueue, -, hall⟩ := h.empty hm
        rw [hqueue] at hq
        cases hq
        cases hq' with
        | nil => exact ⟨he, rfl, rfl, hall⟩
        | cons hb _ =>
          have hnone := (append_eq_nil_iff.mp hflat.symm).2
          exact absurd (append_eq_nil_iff.mp hnone).1 hb.2
      · obtain ⟨hpart, hpre⟩ := append_eq_nil_iff.mp (mem_singleton.mp hm).symm
        rcases hnil (flat_eq_nil.mp hpre) with ⟨rfl, hd⟩ | ⟨s, hs, hlt⟩
        · rw [hdone hd] at hprog
          exact ⟨hdone hd, rfl, rfl, by simpa [Producer.rest] using hprog⟩
        · have hmem : s ∈ prog := by
            rw [← hprog, hsent]
            simp [mem_flatten.mp hs]
          have := hsize s hmem
          rw [hpart, length_nil] at hroom
          omega

end Inv

theorem Inv.step {prog : List SampleBytes} {finish : Finish} {minRead : Nat} {st st' : State}
    (hsize : ∀ s ∈ prog, s.bytes.length ≤ minRead) (h : Inv prog minRead st)
    (hstep : Step finish minRead st st') : Inv prog minRead st' := by
  obtain ⟨skipped, hprog, hopen⟩ := h.sent
  cases hstep with
  | @putRefused s rest' rest hp hd hr =>
    obtain ⟨gone, rfl⟩ := hr
    rw [hp] at hprog hopen
    refine h.advanced (by simp [hp]) ⟨skipped ++ s :: gone, ?_, fun ho => ?_⟩
    · simpa [Producer.rest] using hprog
    · exact absurd ((hopen ho).2 hd) nofun
  | putEntered hp hd =>
    rw [hp] at hprog
    refine h.advanced (by simp [hp]) ⟨skipped, hprog, fun ho => ⟨(hopen ho).1, fun hd' => ?_⟩⟩
    exact absurd (hd.symm.trans hd') nofun
  | putWritten hp hm hput => exact h.put hp hm hput
  | putWaits hp hm hput =>
    rw [show _ = st.queue from h.put hp hm hput]
    exact h
  | complete hp hf => exact h.end_query hp
  | setError hp hf hm => exact h.end_query hp
  | readCalled hc hn =>
    refine h.moved (by rw [hc]; rfl) ?_ (fun _ => by rw [hc]; exact ⟨trivial, rfl⟩) nofun
    rintro _ _ ⟨⟩
    exact hn
  | readReturned hc hread => exact h.read hsize hc hread
  | readWaits hc hread => exact h.read hsize hc hread
  | close hc => exact h.moved (by rw [hc]; rfl) nofun nofun nofun
  | joined hc hp => exact h.moved (by rw [hc]; rfl) nofun nofun fun _ => hp

theorem flat_flatten (reads : List (List SampleBytes)) :
    flat reads.flatten = (reads.map flat).flatten := by
  induction reads with
  | nil => rfl
  | cons ss reads ih => rw [flatten_cons, flat_append, ih, map_cons, flatten_cons]

/-- In any order of steps, each read returns whole samples and the reads together the
first samples put; at most `QUEUE_MAX` buffers are queued; and once a read has returned
no byte, the query has ended and every sample of it was delivered. -/
theorem delivery {prog : List SampleBytes} {finish : Finish} {minRead : Nat} {st : State}
    (hsize : ∀ s ∈ prog, s.bytes.length ≤ minRead)
    (hrun : ReflTransGen (Step finish minRead) (start prog) st) :
    (∃ reads : List (List SampleBytes), reads.flatten <+: st.sent ∧ st.returned = reads.map flat) ∧
      st.sent <+: prog ∧ st.queue.length ≤ queueMax ∧
      ([] ∈ st.returned → st.producer = .ended ∧ st.returned.flatten = flat prog) := by
  have h : Inv prog minRead st := by
    induction hrun with
    | refl => exact inv_start prog minRead
    | tail _ hstep ih => exact ih.step hsize hstep
  obtain ⟨reads, part, groups, hsent, hret, hgot, hq⟩ := h.held
  obtain ⟨skipped, hprog, -⟩ := h.sent
  refine ⟨⟨reads, ⟨part ++ groups.flatten, ?_⟩, hret⟩, ⟨skipped ++ st.producer.rest, ?_⟩,
    h.queue_le, fun hm => ?_⟩
  · rw [hsent, append_assoc]
  · rw [← append_assoc, hprog]
  · obtain ⟨he, hqueue, hnone, hall⟩ := h.empty hm
    rw [hqueue] at hq
    cases hq
    obtain rfl : part = [] := flat_eq_nil.mp (hgot.symm.trans hnone)
    refine ⟨he, ?_⟩
    rw [hret, ← flat_flatten, ← hall, hsent, flatten_nil, append_nil, append_nil]

def bareSample : SampleBytes where
  bytes := replicate 24 0 ++ [32, 0] ++ replicate 6 0
  size_eq := by decide
  sample_le := by decide
  le_max := by decide

theorem delivery_bareSample : ∃ st, ReflTransGen (Step .complete 32) (start [bareSample]) st ∧
    st.returned = [bareSample.bytes, []] ∧ st.returned.flatten = flat [bareSample] := by
  have hrun := ((((((ReflTransGen.refl (r := Step .complete 32) (a := start [bareSample])).tail
    (.putEntered rfl rfl)).tail (.putWritten rfl nofun rfl)).tail (.complete rfl rfl)).tail
    (.readCalled rfl le_rfl)).tail (.readReturned rfl rfl)).tail
    (.readCalled rfl le_rfl) |>.tail (.readReturned rfl rfl)
  exact ⟨_, hrun, rfl, ((delivery (by simp; decide) hrun).2.2.2 (by simp)).2⟩

/-! ## Reading -/

section Read

variable {finish : Finish} {minRead : Nat} {prog : List SampleBytes} {st : State}

theorem Inv.returns (hsize : ∀ s ∈ prog, s.bytes.length ≤ minRead) {st : State}
    (h : Inv prog minRead st) (hended : st.producer = .ended → st.done = true) {room : Nat}
    {got : List UInt8} (hc : st.consumer = .reading room got) :
    ∃ st', ReflTransGen (Step finish minRead) st st' ∧ st'.consumer = .idle := by
  obtain ⟨-, -, groups, -, -, -, hq⟩ := h.held
  obtain ⟨pre, ⟨hread, -⟩ | ⟨_, -, hread, -⟩⟩ := readLoop_spec st.done (lt_add_one room) hq got
  · -- the reader has emptied the queue; the query goes on, and with it the reader
    generalize room - _ = room', got ++ _ = got' at hread
    have hwait : Step finish minRead st _ := .readWaits hc hread
    have hnext {st'}
        (hstep : Step finish minRead { st with queue := [], consumer := .reading room' got' } st')
        (hlt : sizeOf st'.producer < sizeOf st.producer)
        (hended : st'.producer = .ended → st'.done = true)
        (hc : st'.consumer = .reading room' got') :
        ∃ st', ReflTransGen (Step finish minRead) st st' ∧ st'.consumer = .idle := by
      obtain ⟨st₁, hrun, hidle⟩ := ((h.step hsize hwait).step hsize hstep).returns hsize hended hc
      exact ⟨st₁, .head hwait (.head hstep hrun), hidle⟩
    cases hp : st.producer with
    | ended => exact ⟨_, .tail (.single hwait) (.readReturned rfl (by rw [hended hp]; rfl)), rfl⟩
    | putting s rest =>
      have hfits : makeEmpty.wrpos + s.bytes.length ≤ bufferSize :=
        (Nat.zero_add _).trans_le (s.le_max.trans (by decide))
      have hpos : 0 < sizeOf s := by cases s; simp
      exact hnext (.putWritten hp nofun (putLoop_fits queueMax [] hfits)) (by simpa [hp]) nofun rfl
    | running rest =>
      cases rest with
      | nil =>
        cases finish with
        | complete => exact hnext (.complete hp rfl) (by simp [hp]) (fun _ => rfl) rfl
        | setError => exact hnext (.setError hp rfl nofun) (by simp [hp]) (fun _ => rfl) rfl
      | cons s rest =>
        have hd : st.done = false := by
          obtain ⟨_, -, hopen⟩ := h.sent
          rw [hc, hp] at hopen
          exact Bool.eq_false_iff.mpr fun hd => absurd ((hopen trivial).2 hd) nofun
        exact hnext (.putEntered hp hd) (by simp [hp]) nofun rfl
  · exact ⟨_, .single (.readReturned hc hread), rfl⟩
termination_by sizeOf st.producer

/-- The two threads never wait for each other for good: whatever has happened so far, a read
that was called can come to its end. -/
theorem read_returns (hsize : ∀ s ∈ prog, s.bytes.length ≤ minRead)
    (hrun : ReflTransGen (Step finish minRead) (start prog) st) {room : Nat} {got : List UInt8}
    (hc : st.consumer = .reading room got) :
    ∃ st', ReflTransGen (Step finish minRead) st st' ∧ st'.consumer = .idle := by
  suffices h : Inv prog minRead st ∧ (st.producer = .ended → st.done = true) from
    h.1.returns hsize h.2 hc
  clear hc
  induction hrun with
  | refl => exact ⟨inv_start prog minRead, nofun⟩
  | tail _ hstep ih => exact ⟨ih.1.step hsize hstep, by cases hstep <;> simp_all⟩

/-- The reader comes first and waits; the query then puts its sample. -/
theorem read_returns_bareSample : ∃ st st',
    ReflTransGen (Step .complete 32) (start [bareSample]) st ∧ st.queue = [] ∧
    ReflTransGen (Step .complete 32) st st' ∧ st'.consumer = .idle := by
  have hrun := ((ReflTransGen.refl (r := Step .complete 32) (a := start [bareSample])).tail
    (.readCalled rfl le_rfl)).tail (.readWaits rfl rfl)
  obtain ⟨st', h⟩ := read_returns (by simp; decide) hrun rfl
  exact ⟨_, st', hrun, rfl, h⟩

end Read

/-! ## Closing -/

/-- A fair execution from `st`: it pauses only where no thread can take a step. -/
def Execution (finish : Finish) (minRead : Nat) (st : State) (e : Nat → State) : Prop :=
  e 0 = st ∧ ∀ i, Step finish minRead (e i) (e (i + 1)) ∨
    (e (i + 1) = e i ∧ ∀ st', ¬ Step finish minRead (e i) st')

section Close

variable {finish : Finish} {minRead : Nat} {prog : List SampleBytes} {st st' : State}

theorem done_of_closing (hrun : ReflTransGen (Step finish minRead) (start prog) st)
    (hc : st.consumer = .closing) : st.done = true := by
  induction hrun with
  | refl => exact absurd hc nofun
  | tail _ hstep ih => cases hstep <;> simp_all

/-- While `close` waits, the query can only be refused its samples and complete. -/
theorem closing_step (hc : st.consumer = .closing) (hd : st.done = true)
    (h : Step finish minRead st st') :
    (∃ s prog rest, st.producer = .running (s :: prog) ∧ rest <:+ prog ∧
      st' = { st with producer := .running rest }) ∨
    (st.producer = .running [] ∧ finish = .complete ∧
      st' = { st with done := true, producer := .ended }) ∨
    (st.producer = .ended ∧ st' = { st with consumer := .closed }) := by
  cases h with
  | putRefused hp _ hr => exact .inl ⟨_, _, _, hp, hr, rfl⟩
  | putEntered _ hd' => exact absurd (hd'.symm.trans hd) nofun
  | putWritten _ hm => exact absurd hc hm
  | putWaits _ hm => exact absurd hc hm
  | complete hp hf => exact .inr (.inl ⟨hp, hf, rfl⟩)
  | setError _ _ hm => exact absurd hc hm
  | readCalled hc' => exact absurd (hc'.symm.trans hc) nofun
  | readReturned hc' => exact absurd (hc'.symm.trans hc) nofun
  | readWaits hc' => exact absurd (hc'.symm.trans hc) nofun
  | close hc' => exact absurd (hc'.symm.trans hc) nofun
  | joined _ hp => exact .inr (.inr ⟨hp, rfl⟩)

variable {rest : List SampleBytes}

/-- A query inside `put` waits for the mutex that `close` holds. -/
theorem stuck_of_putting (hc : st.consumer = .closing) (hd : st.done = true) {s : SampleBytes}
    (hp : st.producer = .putting s rest) (st' : State) : ¬ Step finish minRead st st' := by
  intro h
  rcases closing_step hc hd h with ⟨_, _, _, h, -⟩ | ⟨h, -⟩ | ⟨h, -⟩ <;>
    exact absurd (hp.symm.trans h) nofun

theorem ends_of_ended {e : Nat → State} (he : Execution finish minRead st e) {i : Nat}
    (hc : (e i).consumer = .closing) (hd : (e i).done = true) (hp : (e i).producer = .ended) :
    (e (i + 1)).consumer = .closed := by
  rcases he.2 i with hstep | ⟨-, hstuck⟩
  · rcases closing_step hc hd hstep with ⟨_, _, _, h, -⟩ | ⟨h, -⟩ | ⟨-, h⟩
    · exact absurd (hp.symm.trans h) nofun
    · exact absurd (hp.symm.trans h) nofun
    · rw [h]
  · exact absurd (.joined hc hp) (hstuck _)

/-- A query that ends with `complete` is refused what is left of it and ends. -/
theorem ends_of_running {e : Nat → State} (he : Execution .complete minRead st e) {i : Nat}
    (hc : (e i).consumer = .closing) (hd : (e i).done = true)
    (hp : (e i).producer = .running rest) : ∃ j, (e j).consumer = .closed := by
  induction hn : rest.length using Nat.strong_induction_on generalizing i rest with
  | _ n ih =>
    rcases he.2 i with hstep | ⟨-, hstuck⟩
    · rcases closing_step hc hd hstep with ⟨s, prog, rest', h, hr, hst⟩ | ⟨h, -, hst⟩ | ⟨h, -⟩
      · cases hp.symm.trans h
        have hlt : rest'.length < n := hn ▸ Nat.lt_succ_of_le hr.length_le
        exact ih _ hlt (by rw [hst, hc]) (by rw [hst, hd]) (by rw [hst]) rfl
      · exact ⟨_, ends_of_ended he (by rw [hst, hc]) (by rw [hst]) (by rw [hst])⟩
      · exact absurd (hp.symm.trans h) nofun
    · cases rest with
      | nil => exact absurd (.complete hp rfl) (hstuck _)
      | cons s rest => exact absurd (.putRefused hp hd (suffix_refl _)) (hstuck _)

/-- One sample after the other is refused, and then `set_error` waits for the mutex. -/
theorem refused_execution (hc : st.consumer = .closing) (hd : st.done = true)
    (hp : st.producer = .running rest) :
    Execution .setError minRead st fun i => { st with producer := .running (rest.drop i) } := by
  refine ⟨by simp [← hp], fun i => ?_⟩
  dsimp only
  rw [← tail_drop]
  cases rest.drop i with
  | cons s tail => exact .inl (.putRefused rfl hd (suffix_refl _))
  | nil =>
    refine .inr ⟨rfl, fun st' hstep => ?_⟩
    rcases closing_step (by exact hc) (by exact hd) hstep with
      ⟨_, _, _, h, -⟩ | ⟨-, h, -⟩ | ⟨h, -⟩ <;> exact absurd h nofun

/-- From a state in which `close` has been called, every fair execution reaches its end
if, and only if, the query is not inside `put` and does not still have to call
`set_error`. -/
theorem close_ends_iff (hrun : ReflTransGen (Step finish minRead) (start prog) st)
    (hc : st.consumer = .closing) :
    (∀ e, Execution finish minRead st e → ∃ i, (e i).consumer = .closed) ↔
      (∀ s rest, st.producer ≠ .putting s rest) ∧ (finish = .complete ∨ st.producer = .ended) := by
  have hd := done_of_closing hrun hc
  constructor
  · intro h
    cases hp : st.producer with
    | putting s rest =>
      obtain ⟨_, hend⟩ := h (fun _ => st) ⟨rfl, fun _ => .inr ⟨rfl, stuck_of_putting hc hd hp⟩⟩
      exact absurd (hc.symm.trans hend) nofun
    | ended => exact ⟨nofun, .inr rfl⟩
    | running rest =>
      refine ⟨nofun, .inl ?_⟩
      cases finish with
      | complete => rfl
      | setError =>
        obtain ⟨_, hend⟩ := h _ (refused_execution hc hd hp)
        exact absurd (hc.symm.trans hend) nofun
  · rintro ⟨hput, hfin⟩ e he
    obtain rfl := he.1
    cases hp : (e 0).producer with
    | putting s rest => exact absurd hp (hput s rest)
    | ended => exact ⟨_, ends_of_ended he hc hd hp⟩
    | running rest =>
      rcases hfin with rfl | hended
      · exact ends_of_running he hc hd hp
      · exact absurd (hp.symm.trans hended) nofun

/-- Closed when one of two samples was put, a query that is not in the middle of a put ends. -/
theorem close_ends_between : ∃ st, ReflTransGen (Step .complete 32) (start [bareSample, bareSample]) st ∧
    st.consumer = .closing ∧ st.producer = .running [bareSample] ∧ st.sent = [bareSample] ∧
    ∀ e, Execution .complete 32 st e → ∃ i, (e i).consumer = .closed := by
  have hrun := (((ReflTransGen.refl (r := Step .complete 32) (a := start [bareSample, bareSample])).tail
    (.putEntered rfl rfl)).tail (.putWritten rfl nofun rfl)).tail (.close rfl)
  exact ⟨_, hrun, rfl, rfl, rfl, (close_ends_iff hrun rfl).mpr ⟨nofun, .inl rfl⟩⟩

/-- The query has looked at `done_` and waits for the mutex while the reader, which
holds it, waits for the query. -/
theorem close_hangs : ∃ st, ReflTransGen (Step .complete 32) (start [bareSample]) st ∧
    st.consumer = .closing ∧ st.producer = .putting bareSample [] ∧
    ∀ st', ¬ Step .complete 32 st st' := by
  have hrun := (ReflTransGen.single (r := Step .complete 32) (a := start [bareSample])
    (.putEntered rfl rfl)).tail (.close rfl)
  exact ⟨_, hrun, rfl, rfl, stuck_of_putting rfl rfl rfl⟩

end Close

end ConcurrentCursor
end FastSTDB
