import FastSTDB.IteratorSpec
import FastSTDB.Merge

/-
  Events — texts stored as points (`nbtree.cc`)

  An event is stored as a run of points. The first one, the head, has a timestamp
  that is a multiple of 1000 and holds the length of the text and the last three
  digits of the event's timestamp; each of the others holds eight bytes of the text.
  `BinaryDataIterator` puts events together again from the points of a range scan. A
  backward scan delivers the points of an event from its end, so the operator turns
  every run round before it looks at it, and keeps what has no head yet.

  Correspondence (C++ ↔ Lean):
    the points written by `append(ts, blob, size)` ↔ `Event.points`
    `BinaryDataIterator`, its fields               ↔ `BinaryDataIterator σ`
    `ts_`, `xs_` from `pos_` to `top_`             ↔ `ready`
    `ts_`, `xs_` from `top_` to `cap_`             ↔ `tail`
    `curr_`, `curr_size_`, `outts_`                ↔ `Partial`
    the loop that turns runs round                 ↔ `turn`
    the inner loop of `read`                       ↔ `decodeUpTo`
    `read`                                         ↔ `BinaryDataIterator.read`

  1. `decode_points`: the points of an event decode to the event.
  2. `turn_spec`: turning round a part of a backward scan gives the points of the
     events whose heads are in it, in the order they were written.
  3. `Has.read`: an operator that has `xs` left answers a read of `n` events with
     the first `n` of them, and says `NoData` exactly if there are fewer.
-/
namespace FastSTDB
open List Option Pull Bytes

variable {σ Φ : Type}
variable {p : Point} {events xs : List Event} {e : Event} {rest tail ys : List Point}
  {runs : List (List Point)} {forward : Bool} {rounds : Nat} {base : σ}

/-! ## Encoding -/

def maxEventLen : Nat := 4096

def isHead (ts : Timestamp) : Bool := ts % 1000 == 0

def basets (ts : Timestamp) : Timestamp := ts / 1000 * 1000

/-- Two u32, the size in the low bytes. -/
def eventHead (size tsrem : Nat) : UInt64 :=
  .ofNat (ofLe (leBytes 4 size ++ leBytes 4 tsrem))

/-- `n` elements of eight bytes; what a blob has too few is zero. -/
def elementsFrom : Nat → List UInt8 → List UInt64
  | 0, _ => []
  | n + 1, blob => .ofNat (ofLe (blob.take 8)) :: elementsFrom n (blob.drop 8)

def elements (blob : List UInt8) : List UInt64 := elementsFrom ((blob.length + 7) / 8) blob

/-- Points at consecutive timestamps. -/
def pointsFrom : Timestamp → List UInt64 → List Point
  | _, [] => []
  | ts, x :: xs => ⟨ts, x⟩ :: pointsFrom (ts + 1) xs

namespace Event

/-- The events `append` does not refuse for their size. -/
def Valid (e : Event) : Prop := 0 < e.body.length ∧ e.body.length ≤ maxEventLen

instance (e : Event) : Decidable e.Valid := inferInstanceAs (Decidable (_ ∧ _))

def head (e : Event) : UInt64 := eventHead e.body.length (e.ts - basets e.ts).toNat

def points (e : Event) : List Point := pointsFrom (basets e.ts) (e.head :: elements e.body)

end Event

/-! ## Decoding -/

/-- An event of which a part has been read. -/
structure Partial where
  currSize : Nat
  curr : List UInt8
  outts : Timestamp

/-- One round of the inner loop. Before the first head `curr_size_` is not set. -/
def decodePoint (c : Option Partial) (p : Point) : Option (Option Event × Partial) :=
  let body := leBytes 8 p.value.toNat
  if isHead p.ts then
    some (none, ⟨ofLe (body.take 4), [], p.ts + UInt64.ofNat (ofLe (body.drop 4))⟩)
  else
    c.map fun c =>
      let c := { c with curr := c.curr ++ body.take (min 8 (c.currSize - c.curr.length)) }
      (if c.currSize = c.curr.length then some ⟨c.outts, c.curr⟩ else none, c)

/-- The inner loop: at most `n` events; the points left, and the event begun. -/
def decodeUpTo : Nat → List Point → Option Partial →
    Option (List Event × List Point × Option Partial)
  | 0, ps, c => some ([], ps, c)
  | _ + 1, [], c => some ([], [], c)
  | n + 1, p :: ps, c =>
    (decodePoint c p).bind fun (event, c) =>
      match event with
      | none => decodeUpTo (n + 1) ps (some c)
      | some e => (decodeUpTo n ps (some c)).map fun (events, rest) => (e :: events, rest)

/-- The loop over the elements of a backward scan, `run` being those since the last head: the
runs with a head, turned round, and the elements behind the last head. -/
def turn : List Point → List Point → List Point × List Point
  | run, [] => ([], run.reverse)
  | run, p :: ps =>
    if isHead p.ts then
      let (ready, tail) := turn [] ps
      (p :: run ++ ready, tail)
    else turn (p :: run) ps

structure BinaryDataIterator (σ : Type) where
  base : σ
  forward : Bool
  ready : List Point
  tail : List Point
  curr : Option Partial

namespace BinaryDataIterator

def new (base : σ) (forward : Bool) : BinaryDataIterator σ := ⟨base, forward, [], [], none⟩

def bufSize : Nat := 1 + maxEventLen / 8

/-- The buffers after a read of the base operator. -/
def fill (it : BinaryDataIterator σ) (r : Reply Point σ Φ) : BinaryDataIterator σ :=
  if it.forward then { it with base := r.next, ready := it.tail ++ r.out, tail := [] }
  else
    let (ready, tail) := turn [] (it.tail ++ r.out)
    { it with
      base := r.next
      ready := ready
      tail := if r.out = [] ∧ ready = [] then [] else tail }

section Read
variable (rd : Reader Status Point σ Φ)

/-- Read from the base operator if no element is ready. `NoData` says that there is
nothing left. -/
def refill (φ : Φ) (it : BinaryDataIterator σ) : Option (Status × BinaryDataIterator σ × Φ) :=
  if it.ready ≠ [] then some (.ok, it, φ)
  else
    (rd φ it.base (bufSize - it.tail.length)).map fun r =>
      if r.status = .noData ∧ it.tail ++ r.out = [] then
        (.noData, { it with base := r.next }, r.env)
      else if r.status ≠ .noData ∧ r.status ≠ .ok then
        (r.status, { it with base := r.next, tail := it.tail ++ r.out }, r.env)
      else (.ok, it.fill r, r.env)

/-- The outer loop; `out` are the events read so far. -/
def readLoop : Nat → Φ → BinaryDataIterator σ → Nat → List Event →
    Option (Reply Event (BinaryDataIterator σ) Φ)
  | 0, _, _, _, _ => none
  | rounds + 1, φ, it, size, out =>
    if size = 0 then some ⟨.ok, out, it, φ⟩
    else
      (refill rd φ it).bind fun (status, it, φ) =>
        if status = .noData then some ⟨.noData, out, it, φ⟩
        else if status ≠ .ok then some ⟨status, [], it, φ⟩
        else
          (decodeUpTo size it.ready it.curr).bind fun (events, ready, curr) =>
            readLoop rounds φ { it with ready := ready, curr := curr } (size - events.length)
              (out ++ events)

/-- `read`, with a bound for the rounds of its loop. -/
def read (rounds : Nat) : Reader Status Event (BinaryDataIterator σ) Φ := fun φ it size =>
  readLoop rd rounds φ it size []

end Read
end BinaryDataIterator

/-! ## The points of an event -/

theorem toNat_basets (ts : Timestamp) : (basets ts).toNat = ts.toNat / 1000 * 1000 := by
  have hlt := ts.toNat_lt
  show ts.toNat / 1000 * 1000 % 18446744073709551616 = _
  omega

theorem isHead_iff (ts : Timestamp) : isHead ts = true ↔ ts.toNat % 1000 = 0 := by
  rw [isHead, beq_iff_eq, ← UInt64.toNat_inj]
  rfl

theorem isHead_basets (ts : Timestamp) : isHead (basets ts) = true := by
  rw [isHead_iff, toNat_basets]
  omega

theorem length_elementsFrom (n : Nat) (blob : List UInt8) : (elementsFrom n blob).length = n := by
  induction n generalizing blob with
  | zero => rfl
  | succ n ih => rw [elementsFrom, length_cons, ih]

theorem length_pointsFrom (ts : Timestamp) (xs : List UInt64) :
    (pointsFrom ts xs).length = xs.length := by
  induction xs generalizing ts with
  | nil => rfl
  | cons x xs ih => rw [pointsFrom, length_cons, length_cons, ih]

theorem toNat_add_one (ts : Timestamp) (h : ts.toNat + 1 < 2 ^ 64) :
    (ts + 1).toNat = ts.toNat + 1 := Nat.mod_eq_of_lt h

theorem mem_pointsFrom : ∀ {xs : List UInt64} {ts : Timestamp}, p ∈ pointsFrom ts xs →
    ts.toNat + xs.length ≤ 2 ^ 64 → ts.toNat ≤ p.ts.toNat ∧ p.ts.toNat < ts.toNat + xs.length
  | [], _, hp, _ => by cases hp
  | x :: xs, ts, hp, hle => by
    rw [length_cons] at hle ⊢
    rcases mem_cons.mp hp with rfl | hp
    · exact ⟨le_rfl, Nat.lt_add_of_pos_right (Nat.succ_pos _)⟩
    · cases xs with
      | nil => cases hp
      | cons y xs =>
        rw [length_cons] at hle
        have hsucc := toNat_add_one ts (by omega)
        have := mem_pointsFrom hp (by rw [length_cons]; omega)
        rw [length_cons] at this
        rw [length_cons]
        omega

namespace Event
variable {e : Event}

theorem points_cons (e : Event) : e.points =
    ⟨basets e.ts, e.head⟩ :: pointsFrom (basets e.ts + 1) (elements e.body) := rfl

theorem length_points (e : Event) : e.points.length = 1 + (e.body.length + 7) / 8 := by
  rw [points, length_pointsFrom, length_cons, elements, length_elementsFrom, add_comm]

theorem Valid.length_points_le (h : e.Valid) : e.points.length ≤ BinaryDataIterator.bufSize := by
  obtain ⟨-, hle⟩ := h
  unfold maxEventLen at hle
  rw [length_points]
  show _ ≤ 513
  omega

/-- All points of an event are in the block of 1000 timestamps its head starts. -/
theorem Valid.basets_add_le (h : e.Valid) (ts : Timestamp) :
    (basets ts).toNat + (e.head :: elements e.body).length ≤ 2 ^ 64 ∧
      (e.head :: elements e.body).length ≤ 1000 := by
  obtain ⟨-, hle⟩ := h
  unfold maxEventLen at hle
  have hlt := ts.toNat_lt
  rw [toNat_basets, length_cons, elements, length_elementsFrom]
  omega

theorem Valid.basets_succ (h : e.Valid) (ts : Timestamp) :
    (basets ts + 1).toNat = (basets ts).toNat + 1 := by
  have := (h.basets_add_le ts).1
  obtain ⟨hpos, -⟩ := h
  rw [length_cons, elements, length_elementsFrom] at this
  exact toNat_add_one _ (by omega)

theorem Valid.body_not_head (h : e.Valid)
    (hp : p ∈ pointsFrom (basets e.ts + 1) (elements e.body)) : isHead p.ts = false := by
  obtain ⟨hwrap, hlen⟩ := h.basets_add_le e.ts
  have hsucc := h.basets_succ e.ts
  rw [length_cons] at hwrap hlen
  have hrange := mem_pointsFrom hp (by rw [hsucc]; omega)
  rw [hsucc, toNat_basets] at hrange
  rw [← Bool.not_eq_true, isHead_iff]
  omega

end Event

/-! ## Decoding the points of an event -/

def decode : List Point → Option Partial → Option (List Event × Option Partial)
  | [], c => some ([], c)
  | p :: ps, c =>
    (decodePoint c p).bind fun (event, c) =>
      (decode ps (some c)).map fun (events, c) => (event.toList ++ events, c)

theorem decode_append (ps qs : List Point) (c : Option Partial) :
    decode (ps ++ qs) c = (decode ps c).bind fun r =>
      (decode qs r.2).map fun r' => (r.1 ++ r'.1, r'.2) := by
  induction ps generalizing c with
  | nil => simp [decode]
  | cons p ps ih =>
    rw [cons_append, decode, decode]
    cases decodePoint c p with
    | none => rfl
    | some r =>
      cases hps : decode ps (some r.2) with
      | none => simp [ih, hps]
      | some r' => simp [ih, hps, Function.comp_def]

variable {c : Option Partial}

theorem decode_append_inv {ps qs : List Point} {c' : Option Partial}
    (h : decode (ps ++ qs) c = some (events, c')) : ∃ now later c1,
      decode ps c = some (now, c1) ∧ decode qs c1 = some (later, c') ∧ events = now ++ later := by
  rw [decode_append] at h
  obtain ⟨⟨now, c1⟩, hnow, h⟩ := bind_eq_some_iff.mp h
  obtain ⟨⟨later, c2⟩, hlater, heq⟩ := map_eq_some_iff.mp h
  cases heq
  exact ⟨now, later, c1, hnow, hlater, rfl⟩

theorem decodeUpTo_spec {ps : List Point} {c' : Option Partial}
    (h : decode ps c = some (events, c')) (n : Nat) : ∃ rest c1,
      decodeUpTo n ps c = some (events.take n, rest, c1) ∧
      decode rest c1 = some (events.drop n, c') ∧ (events.length < n → rest = []) := by
  induction ps generalizing c events n with
  | nil =>
    cases h
    cases n with
    | zero => exact ⟨[], c', rfl, rfl, fun _ => rfl⟩
    | succ n => exact ⟨[], c', rfl, rfl, fun _ => rfl⟩
  | cons p ps ih =>
    cases n with
    | zero => exact ⟨p :: ps, c, rfl, h, fun hlt => absurd hlt (Nat.not_lt_zero _)⟩
    | succ n =>
      obtain ⟨⟨event, c0⟩, hpoint, h⟩ := bind_eq_some_iff.mp h
      obtain ⟨⟨events', c2⟩, hrest, heq⟩ := map_eq_some_iff.mp h
      cases heq
      cases event with
      | none =>
        obtain ⟨rest, c1, hup, hdec, hnil⟩ := ih hrest (n + 1)
        refine ⟨rest, c1, ?_, hdec, hnil⟩
        simp only [decodeUpTo, hpoint]
        exact hup
      | some e =>
        obtain ⟨rest, c1, hup, hdec, hnil⟩ := ih hrest n
        refine ⟨rest, c1, ?_, hdec, fun hlt => hnil (by simpa using hlt)⟩
        simp only [decodeUpTo, hpoint, bind_some, hup]
        rfl

theorem take_element (bs : List UInt8) (h : bs.length ≤ 8) :
    (leBytes 8 (UInt64.ofNat (ofLe bs)).toNat).take bs.length = bs := by
  have hword : ofLe bs < 2 ^ 64 :=
    calc ofLe bs < 256 ^ bs.length := ofLe_lt bs
      _ ≤ 256 ^ 8 := Nat.pow_le_pow_right (by decide) h
      _ = 2 ^ 64 := by decide
  rw [UInt64.toNat_ofNat', Nat.mod_eq_of_lt hword]
  exact take_leBytes_ofLe bs h

theorem decodePoint_head (h : e.Valid) :
    decodePoint c ⟨basets e.ts, e.head⟩ = some (none, ⟨e.body.length, [], e.ts⟩) := by
  obtain ⟨-, hle⟩ := h
  unfold maxEventLen at hle
  have hbase := toNat_basets e.ts
  have hrem : (e.ts - basets e.ts).toNat = e.ts.toNat % 1000 := by
    rw [UInt64.toNat_sub_of_le _ _ (by rw [UInt64.le_iff_toNat_le]; omega)]
    omega
  -- the eight bytes of the head are those of the two numbers
  have hbytes : leBytes 8 e.head.toNat =
      leBytes 4 e.body.length ++ leBytes 4 (e.ts - basets e.ts).toNat := by
    have hlen : (leBytes 4 e.body.length ++ leBytes 4 (e.ts - basets e.ts).toNat).length = 8 := by
      simp
    have htake := take_element _ hlen.le
    exact htake
  have hsize : ofLe (leBytes 4 e.body.length) = e.body.length := ofLe_leBytes (by omega)
  have htsoff : ofLe (leBytes 4 (e.ts - basets e.ts).toNat) = (e.ts - basets e.ts).toNat :=
    ofLe_leBytes (by omega)
  have hts : basets e.ts + .ofNat (e.ts - basets e.ts).toNat = e.ts := by
    rw [UInt64.ofNat_toNat, add_comm, sub_add_cancel]
  simp only [decodePoint, hbytes, isHead_basets, if_true]
  rw [take_left' (length_leBytes _ _), drop_left' (length_leBytes _ _), hsize, htsoff, hts]

theorem decodePoint_element {ts t : Timestamp} {size : Nat} {curr blob : List UInt8}
    (hsize : curr.length + blob.length = size) (hbody : isHead t = false) :
    decodePoint (some ⟨size, curr, ts⟩) ⟨t, .ofNat (ofLe (blob.take 8))⟩ =
      some (if size = (curr ++ blob.take 8).length then some ⟨ts, curr ++ blob.take 8⟩ else none,
        ⟨size, curr ++ blob.take 8, ts⟩) := by
  have hlen : (blob.take 8).length = min 8 blob.length := length_take
  -- the bytes taken are those of the text
  have hmin : min 8 (size - curr.length) = (blob.take 8).length := by rw [hlen]; omega
  have hbytes : (leBytes 8 (UInt64.ofNat (ofLe (blob.take 8))).toNat).take
      (min 8 (size - curr.length)) = blob.take 8 := by
    rw [hmin]
    exact take_element _ (by rw [hlen]; omega)
  simp only [decodePoint, hbody, Bool.false_eq_true, if_false, map_some, hbytes]

/-- The elements of a text complete the event, and too few of them do not. -/
theorem decode_elements (ts : Timestamp) (size k n : Nat) (blob curr : List UInt8) (t : Timestamp)
    (hpos : 0 < blob.length) (hn : n = (blob.length + 7) / 8)
    (hsize : curr.length + blob.length = size)
    (hbody : ∀ p ∈ pointsFrom t (elementsFrom n blob), isHead p.ts = false) :
    ∃ c, decode ((pointsFrom t (elementsFrom n blob)).take k) (some ⟨size, curr, ts⟩) =
      some (if blob.length ≤ 8 * k then [⟨ts, curr ++ blob⟩] else [], c) := by
  induction k generalizing n blob curr t with
  | zero =>
    rw [if_neg (by omega)]
    exact ⟨_, rfl⟩
  | succ k ih =>
    obtain ⟨n, rfl⟩ : ∃ m, n = m + 1 := ⟨n - 1, by omega⟩
    rw [elementsFrom, pointsFrom] at hbody ⊢
    have hlen : (blob.take 8).length = min 8 blob.length := length_take
    rw [take_succ_cons, decode, decodePoint_element hsize (hbody _ mem_cons_self)]
    by_cases hlast : blob.length ≤ 8
    · -- this element is the last one
      obtain rfl : n = 0 := by omega
      have htake : blob.take 8 = blob := take_of_length_le hlast
      rw [htake, if_pos (by rw [length_append]; omega), if_pos (by omega)]
      exact ⟨some ⟨size, curr ++ blob, ts⟩, by simp [elementsFrom, pointsFrom, decode]⟩
    · have hdrop : (blob.drop 8).length = blob.length - 8 := length_drop
      obtain ⟨c, hrest⟩ := ih n (blob.drop 8) (curr ++ blob.take 8) (t + 1) (by omega) (by omega)
        (by rw [length_append]; omega) (forall_mem_cons.mp hbody).2
      have hiff : blob.length - 8 ≤ 8 * k ↔ blob.length ≤ 8 * (k + 1) := by omega
      rw [if_neg (by rw [length_append]; omega)]
      simp [hrest, hiff]

/-- A front part of the points decodes to the event only if it is all of them. -/
theorem decode_take (h : e.Valid) (k : Nat) : ∃ c',
    decode (e.points.take k) c = some (if e.points.length ≤ k then [e] else [], c') := by
  rw [e.length_points]
  cases k with
  | zero => exact ⟨c, by simp [decode]⟩
  | succ k =>
    obtain ⟨c', hbody⟩ := decode_elements e.ts e.body.length k _ e.body [] (basets e.ts + 1) h.1 rfl
      (by simp) (fun p hp => h.body_not_head hp)
    have hiff : 1 + (e.body.length + 7) / 8 ≤ k + 1 ↔ e.body.length ≤ 8 * k := by omega
    rw [e.points_cons, take_succ_cons, decode, decodePoint_head h]
    simp [elements, hbody, hiff]

/-- The points of an event decode to the event, whatever was read before. -/
theorem decode_points (h : e.Valid) : ∃ c', decode e.points c = some ([e], c') := by
  obtain ⟨c', htake⟩ := decode_take h e.points.length
  rw [take_length, if_pos le_rfl] at htake
  exact ⟨c', htake⟩

def eventPoints (events : List Event) : List Point := events.flatMap Event.points

theorem decode_eventPoints (h : ∀ e ∈ events, e.Valid) (c : Option Partial) :
    ∃ c', decode (eventPoints events) c = some (events, c') := by
  induction events generalizing c with
  | nil => exact ⟨c, rfl⟩
  | cons e events ih =>
    obtain ⟨c1, hfirst⟩ := decode_points (h e mem_cons_self)
    obtain ⟨c', hdec⟩ := ih (forall_mem_cons.mp h).2 c1
    rw [eventPoints] at hdec
    refine ⟨c', ?_⟩
    rw [eventPoints, flatMap_cons, decode_append, hfirst, bind_some, hdec]
    rfl

/-! ## Turning runs round -/

def Headless (ps : List Point) : Prop := ∀ p ∈ ps, isHead p.ts = false

theorem headless_nil : Headless [] := fun _ hq => by cases hq

theorem Headless.reverse {ps : List Point} (h : Headless ps) : Headless ps.reverse :=
  fun q hq => h q (mem_reverse.mp hq)

theorem Headless.notMem {ps : List Point} (h : Headless ps) (hp : isHead p.ts = true) : p ∉ ps := by
  intro hmem
  rw [h p hmem] at hp
  cases hp

/-- A head and points that follow it: an event, or the front part of one. -/
def IsRun (run : List Point) : Prop :=
  (∃ p body, run = p :: body ∧ isHead p.ts = true ∧ Headless body) ∧
    run.length ≤ BinaryDataIterator.bufSize

def turned (runs : List (List Point)) : List Point := runs.flatMap List.reverse

/-- There is one way to split a list at its first head. -/
theorem Headless.split_unique {a a' b b' : List Point} {p p' : Point}
    (h : a ++ p :: b = a' ++ p' :: b') (ha : Headless a) (ha' : Headless a')
    (hp : isHead p.ts = true) (hp' : isHead p'.ts = true) : a = a' ∧ p = p' ∧ b = b' := by
  have hfront : ∀ {a b : List Point} {p : Point}, Headless a → isHead p.ts = true →
      (a ++ p :: b).takeWhile (fun q => !isHead q.ts) = a := by
    intro a b p ha hp
    rw [takeWhile_append_of_pos (fun q hq => by rw [ha q hq]; rfl),
      takeWhile_cons_of_neg (by simp [hp]), append_nil]
  obtain rfl : a = a' := by rw [← hfront ha hp, h, hfront ha' hp']
  exact ⟨rfl, cons.inj (append_cancel_left h)⟩

theorem Event.Valid.isRun (h : e.Valid) : IsRun e.points :=
  ⟨⟨_, _, e.points_cons, isHead_basets _, fun _ hp => h.body_not_head hp⟩, h.length_points_le⟩

theorem turned_cons (body : List Point) : turned ((p :: body) :: runs) ++ rest =
    body.reverse ++ p :: (turned runs ++ rest) := by simp [turned]

/-- Turning round a front part of a backward scan: the runs with their heads in it are ready, the
others wait for more. What has no head at all, `rest`, comes last. -/
theorem turn_spec {more : List Point} (hrest : Headless rest) {buf run : List Point}
    (h : run.reverse ++ (buf ++ more) = turned runs ++ rest)
    (hruns : ∀ r ∈ runs, IsRun r) (hrun : Headless run) :
    ∃ done left tail, runs = done ++ left ∧ turn run buf = (done.flatten, tail) ∧
    tail ++ more = turned left ++ rest ∧ Headless tail := by
  induction buf generalizing run runs with
  | nil => exact ⟨[], runs, run.reverse, rfl, rfl, h, hrun.reverse⟩
  | cons p buf ih =>
    cases hp : isHead p.ts with
    | false =>
      have hrun' : Headless (p :: run) := forall_mem_cons.mpr ⟨hp, hrun⟩
      have hpart : (p :: run).reverse ++ (buf ++ more) = turned runs ++ rest := by
        rw [← h, reverse_cons, append_assoc]
        rfl
      obtain ⟨done, left, tail, hev, hturn, htail, hhead⟩ := ih hpart hruns hrun'
      refine ⟨done, left, tail, hev, ?_, htail, hhead⟩
      rw [turn, hp, if_neg Bool.false_ne_true, hturn]
    | true =>
      cases runs with
      | nil =>
        -- the head would be among the points without one
        have hr : rest = run.reverse ++ (p :: buf ++ more) := h.symm
        exact absurd (by simp [hr]) (hrest.notMem hp)
      | cons r runs =>
        obtain ⟨⟨q, body, rfl, hq, hbody⟩, -⟩ := hruns r mem_cons_self
        obtain ⟨hrun1, rfl, hmore⟩ := Headless.split_unique (h.trans (turned_cons body))
          hrun.reverse hbody.reverse hp hq
        obtain rfl := reverse_inj.mp hrun1
        have hpart : [].reverse ++ (buf ++ more) = turned runs ++ rest := hmore
        obtain ⟨done, left, tail, rfl, hturn, htail, hhead⟩ := ih hpart
          (forall_mem_cons.mp hruns).2 headless_nil
        refine ⟨(p :: run) :: done, left, tail, rfl, ?_, htail, hhead⟩
        rw [turn, hp, hturn]
        rfl

/-- Points that wait for a head are fewer than the points of a run, or than those without one. -/
theorem Headless.length_lt (h : Headless tail) (heq : tail ++ ys = turned runs ++ rest)
    (hruns : ∀ r ∈ runs, IsRun r) (hrest : rest.length < BinaryDataIterator.bufSize) :
    tail.length < BinaryDataIterator.bufSize := by
  cases runs with
  | nil =>
    have hlen := congrArg length heq
    rw [length_append] at hlen
    have hnil : (turned [] ++ rest).length = rest.length := rfl
    omega
  | cons r runs =>
    obtain ⟨⟨q, body, rfl, hq, -⟩, hle⟩ := hruns r mem_cons_self
    rw [length_cons] at hle
    by_contra hlong
    -- otherwise the head is among them
    have hget : (tail ++ ys)[body.reverse.length]? = some q := by
      rw [heq, turned_cons, getElem?_append_right le_rfl, Nat.sub_self]
      rfl
    rw [length_reverse, getElem?_append_left (by omega)] at hget
    exact h.notMem hq (mem_of_getElem? hget)

/-- At the end of a backward scan only points without a head can wait for one. -/
theorem Headless.eq_rest (h : Headless tail) (heq : tail = turned runs ++ rest)
    (hruns : ∀ r ∈ runs, IsRun r) : runs = [] := by
  cases runs with
  | nil => rfl
  | cons r runs =>
    obtain ⟨⟨q, body, rfl, hq, -⟩, -⟩ := hruns r mem_cons_self
    rw [turned_cons] at heq
    exact absurd (by simp [heq]) (h.notMem hq)

/-! ## What an operator delivers -/

namespace BinaryDataIterator
variable {rd : Reader Status Point σ Φ}

/-- The points `tail` and those the base operator delivers, `ys`, give `events`, when `c` has been
read before. A backward scan may end with points `rest` whose head is not in its range. -/
def Upcoming (forward : Bool) (tail ys rest : List Point) (c : Option Partial)
    (events : List Event) : Prop :=
  if forward then tail = [] ∧ rest = [] ∧ ∃ c', decode ys c = some (events, c')
  else ∃ runs, tail ++ ys = turned runs ++ rest ∧ Headless tail ∧ (∀ r ∈ runs, IsRun r) ∧
    Headless rest ∧ rest.length < bufSize ∧ ∃ c', decode runs.flatten c = some (events, c')

/-- The operator has the events `xs` left, and its base operator the points `ys`. -/
structure HasFrom (rd : Reader Status Point σ Φ) (it : BinaryDataIterator σ)
    (ys rest : List Point) (xs : List Event) : Prop where
  base : Delivers rd (.same Point) it.base ys
  events : ∃ now later c, decode it.ready it.curr = some (now, c) ∧
    Upcoming it.forward it.tail ys rest c later ∧ xs = now ++ later

theorem Upcoming.room (h : Upcoming forward tail ys rest c events) : tail.length < bufSize := by
  cases forward with
  | true =>
    obtain ⟨rfl, -⟩ := h
    exact Nat.succ_pos _
  | false =>
    obtain ⟨runs, heq, hhead, hruns, -, hlen, -⟩ := h
    exact hhead.length_lt heq hruns hlen

theorem Upcoming.eq_nil (h : Upcoming forward tail [] rest c events) :
    tail = rest ∧ events = [] ∧ (forward = true → rest = []) := by
  cases forward with
  | true =>
    obtain ⟨rfl, rfl, c', hdec⟩ := h
    cases hdec
    exact ⟨rfl, rfl, fun _ => rfl⟩
  | false =>
    obtain ⟨runs, heq, hhead, hruns, -, -, c', hdec⟩ := h
    rw [append_nil] at heq
    obtain rfl := hhead.eq_rest heq hruns
    cases hdec
    exact ⟨heq, rfl, fun hf => by cases hf⟩

theorem upcoming_nil : Upcoming forward [] [] [] c [] := by
  cases forward with
  | true => exact ⟨rfl, rfl, c, rfl⟩
  | false => exact ⟨[], rfl, headless_nil, forall_mem_nil _, headless_nil, Nat.succ_pos _, c, rfl⟩

variable {it : BinaryDataIterator σ} {r : Reply Point σ Φ}

theorem Upcoming.fill {ys2 : List Point}
    (h : Upcoming it.forward it.tail (r.out ++ ys2) rest it.curr events)
    (hbase : Delivers rd (.same Point) r.next ys2) (hout : r.out ≠ []) :
    HasFrom rd (it.fill r) ys2 rest events := by
  obtain ⟨base, forward, ready, tail, curr⟩ := it
  cases forward with
  | true =>
    obtain ⟨rfl, rfl, c', hdec⟩ := h
    obtain ⟨now, later, c1, hnow, hlater, rfl⟩ := decode_append_inv hdec
    exact ⟨hbase, now, later, c1, hnow, ⟨rfl, rfl, c', hlater⟩, rfl⟩
  | false =>
    obtain ⟨runs, heq, hhead, hruns, hrest, hlen, c', hdec⟩ := h
    have hpart : [].reverse ++ (tail ++ r.out ++ ys2) = turned runs ++ rest := by
      rw [append_assoc, ← heq]
      rfl
    obtain ⟨done, left, tail', rfl, hturn, htail, hhead'⟩ :=
      turn_spec hrest hpart hruns headless_nil
    rw [flatten_append] at hdec
    obtain ⟨now, later, c1, hnow, hlater, rfl⟩ := decode_append_inv hdec
    have hfill : fill ⟨base, false, ready, tail, curr⟩ r =
        ⟨r.next, false, done.flatten, tail', curr⟩ := by simp [fill, hturn, hout]
    rw [hfill]
    exact ⟨hbase, now, later, c1, hnow, ⟨left, htail, hhead',
      fun r hr => hruns r (mem_append_right _ hr), hrest, hlen, c', hlater⟩, rfl⟩

/-- A backward scan drops the points whose head it does not reach. -/
theorem Upcoming.fill_end (h : Upcoming it.forward it.tail [] rest it.curr events)
    (hbase : Delivers rd (.same Point) r.next []) (hout : r.out = []) (htail : it.tail ≠ []) :
    HasFrom rd (it.fill r) [] [] events := by
  obtain ⟨heq, rfl, hforward⟩ := h.eq_nil
  obtain ⟨base, forward, ready, tail, curr⟩ := it
  cases forward with
  | true => exact absurd (heq.trans (hforward rfl)) htail
  | false =>
    obtain ⟨-, -, hhead, -⟩ := h
    have hpart : [].reverse ++ (tail ++ []) = turned [] ++ tail := append_nil _
    obtain ⟨done, left, tail', hdone, hturn, -⟩ :=
      turn_spec hhead hpart (forall_mem_nil _) headless_nil
    obtain ⟨rfl, rfl⟩ := append_eq_nil_iff.mp hdone.symm
    have hfill : BinaryDataIterator.fill ⟨base, false, ready, tail, curr⟩ r =
        ⟨r.next, false, [], [], curr⟩ := by simp [BinaryDataIterator.fill, hout, hturn]
    rw [hfill]
    exact ⟨hbase, [], [], curr, rfl, upcoming_nil, rfl⟩

theorem refill_fill {P Q : Prop} {φ : Φ} (hready : it.ready = [])
    (hr : rd φ it.base (bufSize - it.tail.length) = some r) (hne : it.tail ++ r.out ≠ [])
    (hstatus : r.status = .ok ∧ P ∨ r.status = .noData ∧ Q) :
    refill rd φ it = some (.ok, it.fill r, r.env) := by
  rw [refill, if_neg (not_not.mpr hready), hr, map_some, if_neg (fun hc => hne hc.2)]
  rcases hstatus with ⟨hst, -⟩ | ⟨hst, -⟩ <;> simp [hst]

/-- Before the inner loop: either elements are ready, or there is nothing left. -/
theorem HasFrom.refill (h : HasFrom rd it ys rest xs) (φ : Φ) :
    ∃ status it' φ', refill rd φ it = some (status, it', φ') ∧
      ((status = .noData ∧ xs = [] ∧ HasFrom rd it' [] [] []) ∨
       (status = .ok ∧ ∃ ys' rest', HasFrom rd it' ys' rest' xs ∧
        ys'.length + rest'.length ≤ ys.length + rest.length ∧
        (it.ready = [] → ys'.length + rest'.length < ys.length + rest.length))) := by
  by_cases hready : it.ready = []
  · obtain ⟨hbase, now, later, c, hnow, hlater, rfl⟩ := h
    rw [hready] at hnow
    cases hnow
    obtain ⟨r, ys1, ys2, hr, rfl, hout, -, hnext, hstatus⟩ :=
      hbase.step φ (bufSize - it.tail.length) (Nat.sub_pos_of_lt hlater.room)
    obtain rfl : r.out = ys1 := hout
    have hfill := fun hne => refill_fill hready hr hne hstatus
    by_cases hend : r.out = []
    · -- the base operator has nothing more
      obtain ⟨hst, rfl⟩ : r.status = .noData ∧ ys2 = [] := by
        rcases hstatus with ⟨-, hne⟩ | ⟨hst, hnil, -⟩
        · exact absurd hend hne
        · exact ⟨hst, hnil⟩
      rw [hend] at hlater
      obtain ⟨htail, rfl, -⟩ := hlater.eq_nil
      by_cases hnil : it.tail = []
      · refine ⟨.noData, { it with base := r.next }, r.env, ?_, .inl ⟨rfl, rfl, hnext, ?_⟩⟩
        · have hend' : it.tail ++ r.out = [] := by rw [hnil, hend, append_nil]
          rw [refill, if_neg (not_not.mpr hready), hr, map_some,
            if_pos ⟨hst, hend'⟩]
        · refine ⟨[], [], it.curr, ?_, ?_, rfl⟩
          · rw [hready]
            rfl
          · rw [hnil]
            exact upcoming_nil
      · refine ⟨.ok, it.fill r, r.env, hfill (by simp [hnil]), .inr ⟨rfl, [], [], ?_, ?_, ?_⟩⟩
        · exact hlater.fill_end hnext hend hnil
        · exact zero_le
        · have hpos := length_pos_iff.mpr hnil
          rw [htail] at hpos
          rw [length_nil]
          omega
    · refine ⟨.ok, it.fill r, r.env, hfill (by simp [hend]),
        .inr ⟨rfl, ys2, rest, hlater.fill hnext hend, ?_, ?_⟩⟩
      · rw [length_append]
        omega
      · have hpos := length_pos_iff.mpr hend
        rw [length_append]
        omega
  · refine ⟨.ok, it, φ, ?_, .inr ⟨rfl, ys, rest, h, le_rfl, fun hnil => absurd hnil hready⟩⟩
    rw [BinaryDataIterator.refill, if_pos hready]

theorem HasFrom.decodeUpTo (h : HasFrom rd it ys rest xs) (n : Nat) : ∃ events left c,
      decodeUpTo n it.ready it.curr = some (events, left, c) ∧ events.length ≤ n ∧
      (events.length < n → left = []) ∧
      ∃ xs', xs = events ++ xs' ∧ HasFrom rd { it with ready := left, curr := c } ys rest xs' := by
  obtain ⟨hbase, now, later, c', hnow, hlater, rfl⟩ := h
  obtain ⟨left, c, hup, hleft, hnil⟩ := decodeUpTo_spec hnow n
  refine ⟨now.take n, left, c, hup, length_take_le _ _, ?_, now.drop n ++ later, ?_,
    hbase, now.drop n, later, c', hleft, hlater, rfl⟩
  · intro hlt
    rw [length_take] at hlt
    exact hnil (by omega)
  · rw [← append_assoc, take_append_drop]

/-- The loop of `read` delivers the first `size` events, or all if there are fewer. -/
theorem readLoop_spec (rounds : Nat) (φ : Φ)
    (size : Nat) (out : List Event) (h : HasFrom rd it ys rest xs)
    (hle : ys.length + rest.length + 2 + (if it.ready = [] then 0 else 1) ≤ rounds) :
    ∃ r ys' rest', readLoop rd rounds φ it size out = some r ∧ r.out = out ++ xs.take size ∧
    r.status = (if xs.length < size then .noData else .ok) ∧
    HasFrom rd r.next ys' rest' (xs.drop size) ∧
    ys'.length + rest'.length ≤ ys.length + rest.length := by
  induction rounds generalizing φ it ys rest xs size out with
  | zero => omega
  | succ rounds ih =>
    rw [readLoop]
    by_cases hsize : size = 0
    · subst hsize
      exact ⟨_, ys, rest, if_pos rfl, by simp, rfl, h, le_rfl⟩
    · rw [if_neg hsize]
      obtain ⟨status, it', φ', hrefill, ⟨rfl, rfl, hdone⟩ | ⟨rfl, ys', rest', h', hys, hless⟩⟩ :=
        h.refill φ
      · rw [hrefill, bind_some]
        refine ⟨⟨.noData, out, it', φ'⟩, [], [], if_pos rfl, by simp, ?_, by simpa using hdone,
          zero_le⟩
        exact (if_pos (pos_of_ne_zero hsize)).symm
      · obtain ⟨events, left, c, hup, hevents, hleft, xs', rfl, hnext⟩ := h'.decodeUpTo size
        rw [hrefill]
        simp only [reduceCtorEq, if_false, ne_eq, not_true_eq_false, hup, bind_some]
        by_cases hfull : events.length < size
        · -- the elements that were ready are used up
          obtain rfl := hleft hfull
          have hrounds : ys'.length + rest'.length + 2 + 0 ≤ rounds := by
            by_cases hready : it.ready = []
            · have := hless hready
              omega
            · rw [if_neg hready] at hle
              omega
          obtain ⟨r, ys'', rest'', hr, hout, hstatus, hhas, hys'⟩ := ih φ' (size - events.length)
            (out ++ events) hnext hrounds
          refine ⟨r, ys'', rest'', hr, ?_, ?_, ?_, by omega⟩
          · rw [hout, append_assoc, take_append, take_of_length_le hevents]
          · rw [hstatus, length_append]
            congr 1
            exact propext (by omega)
          · rw [drop_append, drop_eq_nil_of_le hevents]
            exact hhas
        · have heq : size - events.length = 0 := by omega
          obtain ⟨rounds, rfl⟩ : ∃ k, rounds = k + 1 := ⟨rounds - 1, by omega⟩
          have hlen : events.length = size := by omega
          refine ⟨⟨.ok, out ++ events, { it' with ready := left, curr := c }, φ'⟩, ys', rest', ?_, ?_,
            ?_, ?_, hys⟩
          · rw [heq, readLoop, if_pos rfl]
          · rw [← hlen, take_left]
          · rw [if_neg (by rw [length_append]; omega)]
          · rw [← hlen, drop_left]
            exact hnext

/-- The operator has the events `xs` left, and its loop enough rounds to read them. -/
def Has (rd : Reader Status Point σ Φ) (rounds : Nat) (it : BinaryDataIterator σ)
    (xs : List Event) : Prop :=
  ∃ ys rest, HasFrom rd it ys rest xs ∧ ys.length + rest.length + 3 ≤ rounds

/-- A read delivers the first `n` events, and says `NoData` if there are fewer. -/
theorem Has.read (h : Has rd rounds it xs) (φ : Φ) (n : Nat) : ∃ it' φ',
      BinaryDataIterator.read rd rounds φ it n =
        some ⟨if xs.length < n then .noData else .ok, xs.take n, it', φ'⟩ ∧
      Has rd rounds it' (xs.drop n) := by
  obtain ⟨ys, rest, hfrom, hle⟩ := h
  obtain ⟨⟨status, out, it', φ'⟩, ys', rest', hr, hout, hstatus, hhas, hys⟩ :=
    readLoop_spec rounds φ n [] hfrom (by split <;> omega)
  refine ⟨it', φ', ?_, ys', rest', hhas, by omega⟩
  rw [BinaryDataIterator.read, hr, ← hstatus]
  exact congrArg some (congrArg (Reply.mk status · it' φ') hout)

theorem Has.delivers (h : Has rd rounds it xs) :
    Delivers (BinaryDataIterator.read rd rounds) (.same Event) it xs := by
  refine .coinduct (Has rd rounds) ?_ h
  intro it xs h φ n hn
  obtain ⟨it', φ', hr, hnext⟩ := h.read φ n
  refine ⟨_, xs.take n, xs.drop n, hr, (take_append_drop n xs).symm, rfl,
    length_take_le _ _, hnext, ?_⟩
  by_cases hlt : xs.length < n
  · refine .inr ⟨if_pos hlt, drop_eq_nil_of_le hlt.le, ?_⟩
    rw [length_take]
    omega
  · refine .inl ⟨if_neg hlt, ?_⟩
    intro hnil
    have hlen := congrArg length hnil
    rw [length_take, length_nil] at hlen
    omega

/-- The first point of a forward scan has to be a head: before the first one `curr_size_` is not
set. -/
theorem read_new_none {ps : List Point} (hp : isHead p.ts = false)
    (hbase : Delivers rd (.same Point) base (p :: ps)) (φ : Φ) {n : Nat}
    (hn : 0 < n) : BinaryDataIterator.read rd rounds φ (new base true) n = none := by
  cases rounds with
  | zero => rfl
  | succ rounds =>
    obtain ⟨r, ys1, ys2, hr, heq, hout, -, -, hstatus⟩ := hbase.step φ bufSize (Nat.succ_pos _)
    obtain rfl : r.out = ys1 := hout
    obtain ⟨qs, hqs⟩ : ∃ qs, r.out = p :: qs := by
      rcases cons_eq_append_iff.mp heq with ⟨hnil, -⟩ | ⟨qs, hqs, -⟩
      · -- an answer without elements would be the last one
        rcases hstatus with ⟨-, hne⟩ | ⟨-, hnil', -⟩
        · exact absurd hnil hne
        · rw [hnil, hnil'] at heq
          cases heq
      · exact ⟨qs, hqs⟩
    have hrefill : refill rd φ (new base true) =
        some (.ok, ⟨r.next, true, p :: qs, [], none⟩, r.env) := by
      rw [refill_fill rfl hr (by simp [hqs]) hstatus, fill, hqs]
      rfl
    obtain ⟨n, rfl⟩ : ∃ k, n = k + 1 := ⟨n - 1, by omega⟩
    have hdec : decodePoint none p = none := by simp [decodePoint, hp]
    rw [read, readLoop, hrefill]
    simp [decodeUpTo, hdec]

/-- A new operator over points that decode to `events`, in the order of the scan. -/
theorem has_new_forward (hdec : decode ys none = some (events, c))
    (hbase : Delivers rd (.same Point) base ys) (hrounds : ys.length + 3 ≤ rounds) :
    Has rd rounds (new base true) events :=
  ⟨ys, [], ⟨hbase, [], events, none, rfl, ⟨rfl, rfl, c, hdec⟩, rfl⟩, hrounds⟩

/-- A new operator over runs that are delivered backward, with points before the first head. -/
theorem has_new_backward (hruns : ∀ r ∈ runs, IsRun r) (hrest : Headless rest)
    (hlen : rest.length < bufSize) (hdec : decode runs.flatten none = some (events, c))
    (hbase : Delivers rd (.same Point) base (turned runs ++ rest))
    (hrounds : (turned runs ++ rest).length + rest.length + 3 ≤ rounds) :
    Has rd rounds (new base false) events := by
  have hup : Upcoming false [] (turned runs ++ rest) rest none events :=
    ⟨runs, rfl, headless_nil, hruns, hrest, hlen, c, hdec⟩
  exact ⟨_, rest, ⟨hbase, [], events, none, rfl, hup, rfl⟩, hrounds⟩

/-- A new operator over the points of some events, in the order of the scan. -/
theorem has_new (hvalid : ∀ e ∈ events, e.Valid)
    (hbase : Delivers rd (.same Point) base
      (if forward then eventPoints events else (eventPoints events).reverse))
    (hrounds : (eventPoints events).length + 3 ≤ rounds) :
    Has rd rounds (new base forward) (if forward then events else events.reverse) := by
  cases forward with
  | true =>
    obtain ⟨c', hdec⟩ := decode_eventPoints hvalid none
    exact has_new_forward hdec hbase hrounds
  | false =>
    have hturned : (eventPoints events).reverse = turned (events.reverse.map Event.points) := by
      rw [eventPoints, turned, reverse_flatMap, flatMap_map]
      rfl
    have hvalid' : ∀ e ∈ events.reverse, e.Valid := fun e he => hvalid e (mem_reverse.mp he)
    obtain ⟨c', hdec⟩ := decode_eventPoints hvalid' none
    have hruns : ∀ r ∈ events.reverse.map Event.points, IsRun r := by
      intro r hr
      obtain ⟨e, he, rfl⟩ := mem_map.mp hr
      exact (hvalid' e he).isRun
    rw [hturned] at hbase
    refine has_new_backward hruns headless_nil (Nat.succ_pos _) hdec (by rwa [append_nil]) ?_
    rw [append_nil, ← hturned, length_reverse]
    exact hrounds

end BinaryDataIterator
end FastSTDB
