import Mathlib.Data.List.Chain
import FastSTDB.MergeSpec
import FastSTDB.Join

/-
  Join materializer — the tuples of a merged sequence

  What a join puts out is a function of the sequence of samples its merge delivers.
  The samples are pairs of the number of a series and a point. A tuple takes as
  many samples as follow each other with one timestamp and increasing numbers of
  series. If the sequence ends inside of a tuple before the last series, the tuple
  is not put out.

  1. `Supplies`: the samples the merge delivers to the buffer, read by read.
  2. `joinTuple_eq`: the inner loop is a function of the samples to come, whatever
     the reads that bring them.
  3. `tupleFrom_spec`: on numbered points, it takes the first tuple.
  4. `drain_join`: draining puts out the tuples of the groups, except for a last one
     that the sequence ends in.
-/
namespace FastSTDB
open List Option Pull MergeKind

variable {σ Φ : Type}
variable {taken rest : List (ParamId × Point)} {gs : List (List (ParamId × Point))}

/-! ## The samples of the merge -/

section Supply
variable {rd : Reader Status Point σ Φ}

/-- Reads of the size of the buffer deliver these samples, and then nothing. -/
inductive Supplies (rd : Reader Status Point σ Φ) : Merge Point σ → Φ → List Sample → Prop
  | last {st : Merge Point σ} {φ : Φ} {r : Reply Sample (Merge Point σ) Φ}
      (read : joinMerge rd φ st joinBufferSize = some r) (status : r.status = .noData)
      (cleared : r.next.iters = []) : Supplies rd st φ r.out
  | more {st : Merge Point σ} {φ : Φ} {r : Reply Sample (Merge Point σ) Φ} {rest : List Sample}
      (read : joinMerge rd φ st joinBufferSize = some r) (status : r.status = .ok)
      (some : r.out ≠ []) (supply : Supplies rd r.next r.env rest) :
      Supplies rd st φ (r.out ++ rest)

theorem supplies_cleared {st : Merge Point σ} (h : st.iters = []) (φ : Φ) :
    Supplies rd st φ [] := by
  have hread : joinMerge rd φ st joinBufferSize = some ⟨.noData, [], st, φ⟩ := by
    rw [joinMerge, Merge.kwayMerge, h]
    rfl
  exact .last hread rfl h

/-- The join has these samples before it, in its buffer or to be read. -/
def Join.Pending (rd : Reader Status Point σ Φ) (j : Join σ) (φ : Φ) (samples : List Sample) :
    Prop :=
  ∃ rest, samples = j.buffer ++ rest ∧ Supplies rd j.merge φ rest

/-- Only the buffer and the merge have changed. -/
def Join.Same (j j' : Join σ) : Prop := j'.origIds = j.origIds ∧ j'.id = j.id

variable {samples : List Sample}

/-- What the inner loop sees: the buffer after it was filled if it was empty. -/
theorem Join.Pending.fill {j : Join σ} {φ : Φ} (h : j.Pending rd φ samples) :
    ∃ status j' φ', (if j.buffer.isEmpty then j.fillBuffer rd φ else some (.ok, j, φ)) =
        some (status, j', φ') ∧ (status = .ok ∨ status = .noData) ∧ j.Same j' ∧ j'.curr = j.curr ∧
      j'.Pending rd φ' samples ∧ (j'.buffer = [] → samples = []) := by
  obtain ⟨rest, rfl, hsupply⟩ := h
  cases hbuffer : j.buffer with
  | cons s buffer =>
    refine ⟨.ok, j, φ, rfl, .inl rfl, ⟨rfl, rfl⟩, rfl, ⟨rest, by rw [hbuffer], hsupply⟩, ?_⟩
    rw [hbuffer]
    intro h
    cases h
  | nil =>
    have hfill : ∀ {r : Reply Sample (Merge Point σ) Φ},
        joinMerge rd φ j.merge joinBufferSize = some r → (r.status = .ok ∨ r.status = .noData) →
        j.fillBuffer rd φ = some (r.status, { j with merge := r.next, buffer := r.out }, r.env) := by
      intro r hr hs
      rw [Join.fillBuffer, hbuffer]
      rw [show joinBufferSize - bufferBytes [] = joinBufferSize from rfl, hr]
      simp [hs]
    cases hsupply with
    | @last _ _ r read status cleared =>
      refine ⟨_, _, _, hfill read (.inr status), .inr status, ⟨rfl, rfl⟩, rfl,
        ⟨[], by simp, supplies_cleared cleared _⟩, ?_⟩
      exact fun h => h
    | @more _ _ r rest read status some supply =>
      refine ⟨_, _, _, hfill read (.inl status), .inl status, ⟨rfl, rfl⟩, rfl,
        ⟨rest, rfl, supply⟩, ?_⟩
      exact fun h => absurd h some

/-! ## The inner loop -/

/-- The inner loop on the samples to come; `none` if they run out. -/
def tupleFrom : List ParamId → Nat → Timestamp → List Sample → UInt64 → List UInt64 →
    Option (Timestamp × List Sample × UInt64 × List UInt64)
  | [], _, curr, samples, ctrl, values => some (curr, samples, ctrl, values)
  | _ :: _, _, _, [], _, _ => none
  | id :: ids, i, curr, s :: samples, ctrl, values =>
    if s.paramid ≠ id then tupleFrom ids (i + 1) curr (s :: samples) ctrl values
    else if values ≠ [] ∧ curr ≠ s.timestamp then some (curr, s :: samples, ctrl, values)
    else
      tupleFrom ids (i + 1) s.timestamp samples (ctrl ||| (1 <<< UInt64.ofNat i))
        (values ++ [s.payload.float64])

theorem joinTuple_eq (ids : List ParamId) (i : Nat) (φ : Φ) (j : Join σ) (ctrl : UInt64)
    (values : List UInt64) (h : j.Pending rd φ samples) : ∃ j' φ', j.Same j' ∧
      match tupleFrom ids i j.curr samples ctrl values with
      | none => joinTuple rd ids i φ j ctrl values = some (.noData j' φ')
      | some (curr, rest, ctrl', values') =>
        joinTuple rd ids i φ j ctrl values = some (.tuple j' φ' ctrl' values') ∧
          j'.curr = curr ∧ j'.Pending rd φ' rest := by
  induction ids generalizing i φ j ctrl values samples with
  | nil => exact ⟨j, φ, ⟨rfl, rfl⟩, rfl, rfl, h⟩
  | cons id ids ih =>
    obtain ⟨status, j1, φ1, hfill, hstatus, hsame, hcurr, hpending, hempty⟩ := h.fill
    have hfine : ¬ (status ≠ .ok ∧ status ≠ .noData) := by
      intro hc
      exact hstatus.elim hc.1 hc.2
    obtain ⟨rest, hsamples, hsupply⟩ := hpending
    rw [joinTuple, hfill, bind_some]
    simp only [if_neg hfine]
    cases hbuffer : j1.buffer with
    | nil =>
      obtain rfl := hempty hbuffer
      exact ⟨j1, φ1, hsame, rfl⟩
    | cons s buffer =>
      rw [hbuffer, cons_append] at hsamples
      subst hsamples
      have hpending : j1.Pending rd φ1 (s :: (buffer ++ rest)) :=
        ⟨rest, by rw [hbuffer, cons_append], hsupply⟩
      simp only [tupleFrom, hcurr]
      by_cases hid : s.paramid ≠ id
      · -- a sample of another series: the next number
        simp only [if_pos hid]
        obtain ⟨j2, φ2, hsame2, hrest⟩ := ih (i + 1) φ1 j1 ctrl values hpending
        rw [hcurr] at hrest
        exact ⟨j2, φ2, ⟨hsame2.1.trans hsame.1, hsame2.2.trans hsame.2⟩, hrest⟩
      · simp only [if_neg hid]
        by_cases hts : values ≠ [] ∧ j.curr ≠ s.timestamp
        · simp only [if_pos hts]
          exact ⟨j1, φ1, hsame, rfl, hcurr, hpending⟩
        · simp only [if_neg hts]
          obtain ⟨j2, φ2, hsame2, hrest⟩ := ih (i + 1) φ1
            { j1 with curr := s.timestamp, buffer := buffer } (ctrl ||| (1 <<< UInt64.ofNat i))
            (values ++ [s.payload.float64]) ⟨rest, rfl, hsupply⟩
          exact ⟨j2, φ2, ⟨hsame2.1.trans hsame.1, hsame2.2.trans hsame.2⟩, hrest⟩

end Supply

/-! ## Tuples of a merged sequence -/

section Tuples
variable {rd : Reader Status Point σ Φ} (ids : List ParamId)

/-- `b` belongs to the tuple that `a` was put into last. -/
def Follows (a b : ParamId × Point) : Prop :=
  a.2.ts = b.2.ts ∧ ids.idxOf a.1 < ids.idxOf b.1

instance (a b : ParamId × Point) : Decidable (Follows ids a b) :=
  inferInstanceAs (Decidable (_ ∧ _))

/-- The elements that follow `a` in its tuple, and the rest. -/
def tupleOf : ParamId × Point → List (ParamId × Point) →
    List (ParamId × Point) × List (ParamId × Point)
  | _, [] => ([], [])
  | a, b :: taken =>
    if Follows ids a b then (b :: (tupleOf b taken).1, (tupleOf b taken).2) else ([], b :: taken)

/-- The bitmap with the bits of some elements set. -/
def bitmap (ctrl : UInt64) (g : List (ParamId × Point)) : UInt64 :=
  g.foldl (fun c x => c ||| (1 <<< UInt64.ofNat (ids.idxOf x.1))) ctrl

def tupleSample (id : ParamId) (g : List (ParamId × Point)) : Sample :=
  ⟨(g.head?.map fun x => x.2.ts).getD 0, id,
    .tuple (bitmap ids 0 g ||| (UInt64.ofNat ids.length <<< 58)) (g.map fun x => x.2.value)⟩

/-- The elements of a tuple: with `rest` behind them, it takes as many as it can, and if
nothing is behind them, the last series is among them. -/
structure IsTuple (g rest : List (ParamId × Point)) : Prop where
  ne_nil : g ≠ []
  chain : g.IsChain (Follows ids)
  stop : ∀ a ∈ g.getLast?, ∀ b ∈ rest.head?, ¬ Follows ids a b
  full : rest = [] → ∀ a ∈ g.getLast?, ids.idxOf a.1 + 1 = ids.length

/-- The tuples `gs` are put out, and then `rest` is left. -/
inductive Emits : List (ParamId × Point) → List (List (ParamId × Point)) →
    List (ParamId × Point) → Prop
  | refl (taken : List (ParamId × Point)) : Emits taken [] taken
  | cons {g taken rest : List (ParamId × Point)} {gs : List (List (ParamId × Point))}
      (tuple : IsTuple ids g taken) (more : Emits taken gs rest) :
      Emits (g ++ taken) (g :: gs) rest

/-- A tuple that the sequence ends in, before the last series; or nothing. -/
def Cut (g : List (ParamId × Point)) : Prop :=
  g.IsChain (Follows ids) ∧ ∀ a ∈ g.getLast?, ids.idxOf a.1 + 1 ≠ ids.length

variable {ids}

theorem Emits.trans {rest' : List (ParamId × Point)} {gs' : List (List (ParamId × Point))}
    (h : Emits ids taken gs rest) (h' : Emits ids rest gs' rest') :
    Emits ids taken (gs ++ gs') rest' := by
  induction h with
  | refl => exact h'
  | cons tuple _ ih => exact .cons tuple (ih h')

theorem Emits.flatten (h : Emits ids taken gs rest) : taken = gs.flatten ++ rest := by
  induction h with
  | refl => rfl
  | cons _ _ ih => rw [flatten_cons, append_assoc, ← ih]

theorem Emits.length_le (h : Emits ids taken gs rest) : gs.length + rest.length ≤ taken.length := by
  induction h with
  | refl => simp
  | cons tuple _ ih =>
    have := length_pos_iff.mpr tuple.ne_nil
    simp only [length_cons, length_append]
    omega

theorem tupleOf_spec (ids : List ParamId) (a : ParamId × Point) :
    taken = (tupleOf ids a taken).1 ++ (tupleOf ids a taken).2 ∧
    (a :: (tupleOf ids a taken).1).IsChain (Follows ids) ∧
    ∀ c ∈ (a :: (tupleOf ids a taken).1).getLast?, ∀ b ∈ (tupleOf ids a taken).2.head?,
      ¬ Follows ids c b := by
  induction taken generalizing a with
  | nil => exact ⟨rfl, isChain_singleton a, fun _ _ b hb => by cases hb⟩
  | cons b taken ih =>
    by_cases h : Follows ids a b
    · obtain ⟨hsplit, hchain, hstop⟩ := ih b
      rw [tupleOf, if_pos h]
      refine ⟨?_, isChain_cons_cons.mpr ⟨h, hchain⟩, ?_⟩
      · rw [cons_append, ← hsplit]
      · exact hstop
    · rw [tupleOf, if_neg h]
      refine ⟨rfl, isChain_singleton a, ?_⟩
      intro c hc b' hb'
      cases hc
      cases hb'
      exact h

theorem real_samples_cons (x : ParamId × Point) : real.samples (x :: taken) =
      ⟨x.2.ts, x.1, .float x.2.value⟩ :: real.samples taken := rfl

section
variable (hids : ids.Nodup)
include hids

theorem tupleFrom_cons {x : ParamId × Point} (hx : x.1 ∈ ids)
    (taken : List (ParamId × Point)) (curr : Timestamp) (ctrl : UInt64) (values : List UInt64)
    (k : Nat) : tupleFrom (ids.drop k) k curr (real.samples (x :: taken)) ctrl values =
      if k ≤ ids.idxOf x.1 ∧ (values = [] ∨ curr = x.2.ts) then
        tupleFrom (ids.drop (ids.idxOf x.1 + 1)) (ids.idxOf x.1 + 1) x.2.ts
          (real.samples taken) (ctrl ||| (1 <<< UInt64.ofNat (ids.idxOf x.1)))
          (values ++ [x.2.value])
      else some (curr, real.samples (x :: taken), ctrl, values) := by
  have hlt := idxOf_lt_length_of_mem hx
  -- on the number of series that are left
  obtain ⟨m, hm⟩ : ∃ m, ids.length - k = m := ⟨_, rfl⟩
  induction m generalizing k with
  | zero =>
    rw [drop_eq_nil_of_le (by omega), if_neg (by omega)]
    rfl
  | succ m ih =>
    have hk : k < ids.length := by omega
    rw [drop_eq_getElem_cons hk, real_samples_cons, tupleFrom]
    dsimp only [PData.float64]
    by_cases hne : ids.idxOf x.1 = k
    · have hid : ids[k] = x.1 := by
        subst hne
        exact getElem_idxOf hlt
      rw [if_neg (by rw [hid]; exact fun h => h rfl)]
      by_cases hts : values = [] ∨ curr = x.2.ts
      · have hgo : ¬ (values ≠ [] ∧ curr ≠ x.2.ts) := by
          rintro ⟨h1, h2⟩
          exact hts.elim h1 h2
        rw [if_neg hgo, if_pos ⟨by omega, hts⟩, hne]
      · have hgo : values ≠ [] ∧ curr ≠ x.2.ts := not_or.mp hts
        rw [if_pos hgo, if_neg fun h => hts h.2]
    · have hid : x.1 ≠ ids[k] := by
        intro h
        apply hne
        rw [h]
        exact hids.idxOf_getElem k hk
      rw [if_pos hid]
      have hih := ih (k + 1) (by omega)
      rw [real_samples_cons] at hih
      rw [hih]
      have hle : k + 1 ≤ ids.idxOf x.1 ↔ k ≤ ids.idxOf x.1 := by omega
      simp only [hle]

/-- The inner loop after the element `a`: the tuple of `a`, unless the sequence ends in it. -/
theorem tupleFrom_tuple (hmem : ∀ x ∈ taken, x.1 ∈ ids) (a : ParamId × Point)
    (ha : a.1 ∈ ids) (ctrl : UInt64) {values : List UInt64} (hvalues : values ≠ []) :
    tupleFrom (ids.drop (ids.idxOf a.1 + 1)) (ids.idxOf a.1 + 1) a.2.ts
        (real.samples taken) ctrl values =
      if (tupleOf ids a taken).2 = [] ∧
          ∀ c ∈ (a :: (tupleOf ids a taken).1).getLast?, ids.idxOf c.1 + 1 ≠ ids.length then none
      else some (a.2.ts, real.samples (tupleOf ids a taken).2,
        bitmap ids ctrl (tupleOf ids a taken).1,
        values ++ (tupleOf ids a taken).1.map fun x => x.2.value) := by
  induction taken generalizing a ctrl values with
  | nil =>
    have hlt := idxOf_lt_length_of_mem ha
    by_cases hlast : ids.idxOf a.1 + 1 = ids.length
    · rw [drop_eq_nil_of_le (by omega), if_neg]
      · simp [tupleFrom, tupleOf, bitmap]
      · rintro ⟨-, h⟩
        exact h a rfl hlast
    · rw [drop_eq_getElem_cons (by omega), if_pos]
      · rfl
      · refine ⟨rfl, ?_⟩
        intro c hc
        cases hc
        exact hlast
  | cons b taken ih =>
    have hb : b.1 ∈ ids := hmem b mem_cons_self
    rw [tupleFrom_cons hids hb]
    by_cases h : Follows ids a b
    · rw [if_pos ⟨h.2, Or.inr h.1⟩, ih (forall_mem_cons.mp hmem).2 b hb _ (by simp)]
      simp only [tupleOf, if_pos h, getLast?_cons_cons, bitmap, foldl_cons,
        map_cons, append_assoc, singleton_append, h.1]
    · have hnot : ¬ (ids.idxOf a.1 + 1 ≤ ids.idxOf b.1 ∧ (values = [] ∨ a.2.ts = b.2.ts)) := by
        rintro ⟨h1, h2⟩
        rcases h2 with h2 | h2
        · exact hvalues h2
        · exact h ⟨h2, h1⟩
      rw [if_neg hnot]
      simp [tupleOf, if_neg h, bitmap]

theorem tupleFrom_spec (hmem : ∀ x ∈ taken, x.1 ∈ ids) (hne : ids ≠ [])
    (curr : Timestamp) (id : ParamId) :
    tupleFrom ids 0 curr (real.samples taken) 0 [] = none ∧ Cut ids taken ∨
    ∃ g rest ctrl values ts, taken = g ++ rest ∧ IsTuple ids g rest ∧
      tupleFrom ids 0 curr (real.samples taken) 0 [] = some (ts, real.samples rest, ctrl, values) ∧
      (⟨ts, id, .tuple (ctrl ||| (UInt64.ofNat ids.length <<< 58)) values⟩ : Sample) =
        tupleSample ids id g := by
  cases taken with
  | nil =>
    obtain ⟨i, ids, rfl⟩ := exists_cons_of_ne_nil hne
    exact .inl ⟨rfl, isChain_nil, fun a ha => by cases ha⟩
  | cons a taken =>
    have ha : a.1 ∈ ids := hmem a mem_cons_self
    have hfirst := tupleFrom_cons hids ha taken curr 0 [] 0
    rw [tupleFrom_tuple hids (forall_mem_cons.mp hmem).2 a ha _ (by simp)] at hfirst
    obtain ⟨hsplit, hchain, hstop⟩ := tupleOf_spec ids a
    generalize htuple : tupleOf ids a taken = t at hfirst hsplit hchain hstop
    obtain ⟨g, rest⟩ := t
    by_cases hcut : rest = [] ∧ ∀ c ∈ (a :: g).getLast?, ids.idxOf c.1 + 1 ≠ ids.length
    · left
      rw [if_pos hcut] at hfirst
      refine ⟨hfirst, ?_⟩
      rw [hsplit, hcut.1, append_nil]
      exact ⟨hchain, hcut.2⟩
    · right
      rw [if_neg hcut] at hfirst
      refine ⟨a :: g, rest, _, _, _, by rw [hsplit, cons_append],
        ⟨by simp, hchain, hstop, ?_⟩, hfirst, ?_⟩
      · intro hrest c hc
        by_contra hlast
        refine hcut ⟨hrest, ?_⟩
        intro c' hc'
        rw [mem_def.mp hc] at hc'
        cases hc'
        exact hlast
      · simp [tupleSample, bitmap]

/-! ## Draining a join -/

/-- The outer loop puts out tuples, at least one if one fits, until no full one fits or the
samples run out. -/
theorem joinLoop_emits (hne : ids ≠ []) (size fuel : Nat) (φ : Φ)
    (j : Join σ) (pos : Nat) (out : List Sample)
    (hpending : j.Pending rd φ (real.samples taken)) (horig : j.origIds = ids)
    (hmem : ∀ x ∈ taken, x.1 ∈ ids) (hfuel : size - pos < fuel) :
    ∃ r gs rest, joinLoop rd fuel φ j size pos out = some r ∧
      r.out = out ++ gs.map (tupleSample ids j.id) ∧ Emits ids taken gs rest ∧ j.Same r.next ∧
      (r.status = .ok ∧ r.next.Pending rd r.env (real.samples rest) ∧
          (pos < size - j.maxSampleSize → gs ≠ []) ∨ r.status = .noData ∧ Cut ids rest) := by
  induction fuel generalizing φ j pos out taken with
  | zero => omega
  | succ fuel ih =>
    rw [joinLoop]
    by_cases hpos : pos < size - j.maxSampleSize
    · rw [if_pos hpos]
      obtain ⟨j1, φ1, hsame, htuple⟩ := joinTuple_eq ids 0 φ j 0 [] hpending
      rcases tupleFrom_spec hids hmem hne j.curr j.id with
        ⟨hnone, hcut⟩ | ⟨g, rest, ctrl, values, ts, rfl, hg, hsome, hsample⟩
      · rw [hnone] at htuple
        refine ⟨⟨.noData, out, j1, φ1⟩, [], taken, ?_, by simp, .refl _, hsame, .inr ⟨rfl, hcut⟩⟩
        rw [horig, htuple]
        rfl
      · rw [hsome] at htuple
        obtain ⟨htuple, hcurr, hpending1⟩ := htuple
        have hvalues : 0 < sampleSize + values.length * sizeofDouble := by
          simp only [sampleSize]
          omega
        obtain ⟨r, gs, rest', hr, hout, hemits, hsame', hend⟩ := ih φ1 j1
          (pos + (sampleSize + values.length * sizeofDouble))
          (out ++ [⟨ts, j.id, .tuple (ctrl ||| (UInt64.ofNat ids.length <<< 58)) values⟩])
          hpending1 (hsame.1.trans horig) (forall_mem_append.mp hmem).2 (by omega)
        refine ⟨r, g :: gs, rest', ?_, ?_, .cons hg hemits,
          ⟨hsame'.1.trans hsame.1, hsame'.2.trans hsame.2⟩, ?_⟩
        · rw [horig, htuple, bind_some]
          dsimp only
          rw [hsame.1, horig, hsame.2, hcurr, hr]
        · rw [hout, hsample, hsame.2, map_cons, append_assoc, singleton_append]
        · rcases hend with ⟨hs, hp, -⟩ | hend
          · exact .inl ⟨hs, hp, fun _ => by simp⟩
          · exact .inr hend
    · rw [if_neg hpos]
      refine ⟨⟨.ok, out, j, φ⟩, [], taken, rfl, by simp, .refl _, ⟨rfl, rfl⟩,
        .inl ⟨rfl, hpending, fun h => absurd h hpos⟩⟩

/-- Draining a join puts out the tuples of the merged sequence, without a last one that the
sequence ends in. -/
theorem drain_join (hne : ids ≠ []) (fuel : Nat) (φ : Φ) (j : Join σ) (sizes : Nat → Nat)
    (hpending : j.Pending rd φ (real.samples taken)) (horig : j.origIds = ids)
    (hmem : ∀ x ∈ taken, x.1 ∈ ids) (hsizes : ∀ i, j.maxSampleSize < sizes i)
    (hfuel : taken.length < fuel) : ∃ gs rest, Emits ids taken gs rest ∧ Cut ids rest ∧
      drain (Join.read rd) .ok fuel φ j sizes = some (gs.map (tupleSample ids j.id), .noData) := by
  induction fuel generalizing φ j sizes taken with
  | zero => omega
  | succ fuel ih =>
    obtain ⟨r, gs, rest, hr, hout, hemits, hsame, hend⟩ :=
      joinLoop_emits hids hne (sizes 0) (sizes 0 + 1) φ j 0 [] hpending horig hmem (by omega)
    rw [nil_append] at hout
    have hread : Join.read rd φ j (sizes 0) = some r := by
      have := hsizes 0
      rw [Join.read, if_neg (by omega), hr]
    rcases hend with ⟨hstatus, hnext, hsome⟩ | ⟨hstatus, hcut⟩
    · have hgs : gs ≠ [] := hsome (by have := hsizes 0; omega)
      have hpos := length_pos_iff.mpr hgs
      have hle := hemits.length_le
      have hmax : r.next.maxSampleSize = j.maxSampleSize := by
        rw [Join.maxSampleSize, Join.maxSampleSize, hsame.1]
      have hsub : ∀ x ∈ rest, x.1 ∈ ids := by
        intro x hx
        apply hmem
        rw [hemits.flatten]
        exact mem_append_right _ hx
      obtain ⟨gs', rest', hemits', hcut, hdrain⟩ := ih r.env r.next (fun i => sizes (i + 1)) hnext
        (hsame.1.trans horig) hsub (fun i => by rw [hmax]; exact hsizes (i + 1)) (by omega)
      refine ⟨gs ++ gs', rest', hemits.trans hemits', hcut, ?_⟩
      have hlen : r.out.length ≠ 0 := by
        rw [hout, length_map]
        omega
      rw [drain, hread, bind_some, if_pos ⟨hstatus, hlen⟩, hdrain, map_some, hout,
        hsame.2, map_append]
    · refine ⟨gs, rest, hemits, hcut, ?_⟩
      rw [drain, hread, bind_some, if_neg (by simp [hstatus]), hout, hstatus]

end

end Tuples
end FastSTDB
