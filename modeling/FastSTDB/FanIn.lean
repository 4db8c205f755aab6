import FastSTDB.Aggregate
import FastSTDB.Lib.Keyed
import FastSTDB.Lib.Pairs

/-
  Fan-in aggregation — `FanInAggregateOperator` (`operators/aggregate.cc`)

  The operator looks one result ahead in every input, takes the smallest timestamp and
  combines the results at it. The looked-ahead results are local to one `read`: when
  the buffer is full, those that were not taken are lost.

  `read_spec` says what a `read` puts out and what it leaves in terms of the lists of
  results the inputs have (`taken`).

  Correspondence (C++ ↔ Lean):
    `iter_[ix]`, `outts[ix]`, `outval[ix]`    ↔ a pair of an input and its head
    the loop over the inputs                  ↔ `fetch`
    `while (ixout < size)`                    ↔ `readLoop`
  `iter_index_` is always 0.
-/
namespace FastSTDB
open List Pull Keyed

variable {V σ Φ : Type} [DoubleArith V]
variable {xs : List (AggOut V)} {t : Timestamp} {ins : List (σ × AggOut V)}

/-- The head of an input that has ended: `MAX_TS` and `INIT_AGGRES`. -/
def noHead : AggOut V := (maxTimestamp, initAggres)

structure FanInAggregateOperator (σ : Type) where
  iter : List σ

namespace FanInAggregateOperator

section Read
variable (rd : Reader Status (AggOut V) σ Φ)

/-- Read the next result of each input whose head has the timestamp `tsmin`. The
status is that of a failed read, or `NoData` if all inputs have ended. -/
def fetch (n : Nat) (tsmin : Timestamp) : Nat → Φ → List (σ × AggOut V) →
    Option (Option Status × List (σ × AggOut V) × Φ)
  | _, φ, [] => some (none, [], φ)
  | nz, φ, i :: ins =>
    if i.2.1 = tsmin then
      (rd φ i.1 1).bind fun r =>
        let i := (r.next, r.out.headD noHead)
        let nz := if r.out.length = 0 then nz + 1 else nz
        if r.status ≠ .ok ∧ r.status ≠ .noData then some (some r.status, i :: ins, r.env)
        else if nz = n then some (some .noData, i :: ins, r.env)
        else (fetch n tsmin nz r.env ins).map fun (status, ins, φ) => (status, i :: ins, φ)
    else (fetch n tsmin nz φ ins).map fun (status, ins, φ) => (status, i :: ins, φ)

def minHead (outs : List (AggOut V)) : Timestamp :=
  outs.foldl (fun t out => min t out.1) maxTimestamp

def combineAt (tsmin : Timestamp) (outs : List (AggOut V)) : AggregationResult V :=
  outs.foldl (fun res out => if out.1 = tsmin then res.combine out.2 else res) initAggres

/-- The main loop, with room for so many results more. -/
def readLoop : Nat → Timestamp → Φ → List (σ × AggOut V) → List (AggOut V) →
    Option (Reply (AggOut V) (FanInAggregateOperator σ) Φ)
  | 0, _, φ, ins, dest => some ⟨.ok, dest, ⟨ins.map Prod.fst⟩, φ⟩
  | room + 1, tsmin, φ, ins, dest =>
    (fetch rd ins.length tsmin 0 φ ins).bind fun (status, ins, φ) =>
      match status with
      | some .noData => some ⟨.noData, dest, ⟨ins.map Prod.fst⟩, φ⟩
      | some status => some ⟨status, [], ⟨ins.map Prod.fst⟩, φ⟩
      | none =>
        let outs := ins.map Prod.snd
        let tsmin := minHead outs
        if tsmin = maxTimestamp then some ⟨.noData, dest, ⟨ins.map Prod.fst⟩, φ⟩
        else readLoop room tsmin φ ins (dest ++ [(tsmin, combineAt tsmin outs)])

def read (φ : Φ) (op : FanInAggregateOperator σ) (size : Nat) :
    Option (Reply (AggOut V) (FanInAggregateOperator σ) Φ) :=
  if size = 0 then some ⟨.badArg, [], op, φ⟩
  else if op.iter.length = 0 then some ⟨.noData, [], op, φ⟩
  else readLoop rd size maxTimestamp φ (op.iter.map fun it => (it, noHead)) []

end Read

/-! ## What a read does to the inputs -/

/-- The input still has the results `xs` to deliver. The operators differ in the
status with which they end. -/
def Yields (rd : Reader Status (AggOut V) σ Φ) (it : σ) (xs : List (AggOut V)) : Prop :=
  Serves rd .ok .noData (.same _) it xs ∨ Serves rd .ok .ok (.same _) it xs

variable {rd : Reader Status (AggOut V) σ Φ}

omit [DoubleArith V] in
theorem Yields.one {it : σ} (h : Yields rd it xs) (φ : Φ) :
    ∃ r, rd φ it 1 = some r ∧ (r.status = .ok ∨ r.status = .noData) ∧ r.out = xs.take 1 ∧
      Yields rd r.next xs.tail := by
  have key : ∀ {eod : Status}, Serves rd .ok eod (.same _) it xs →
      ∃ r, rd φ it 1 = some r ∧ (r.status = .ok ∨ r.status = eod) ∧ r.out = xs.take 1 ∧
        Serves rd .ok eod (.same _) r.next xs.tail := by
    intro eod hs
    obtain ⟨r, xs1, xs2, hr, rfl, hout, hlen, hnext, hst⟩ := hs.step φ 1 one_pos
    rw [hout] at hlen hst
    cases xs1 with
    | nil =>
      obtain ⟨heod, rfl, -⟩ := hst.resolve_left (fun hc => hc.2 rfl)
      exact ⟨r, hr, .inr heod, hout, hnext⟩
    | cons x xs1 =>
      obtain rfl : xs1 = [] :=
        length_eq_zero_iff.mp (Nat.le_zero.mp (Nat.le_of_succ_le_succ hlen))
      refine ⟨r, hr, ?_, hout, hnext⟩
      rcases hst with ⟨hst, -⟩ | ⟨-, -, hlt⟩
      · exact .inl hst
      · exact absurd hlt (lt_irrefl _)
  rcases h with h | h
  · obtain ⟨r, hr, hst, hout, hnext⟩ := key h
    exact ⟨r, hr, hst, hout, .inl hnext⟩
  · obtain ⟨r, hr, hst, hout, hnext⟩ := key h
    exact ⟨r, hr, .inl (hst.elim id id), hout, .inr hnext⟩

/-- Before the loop over the inputs: an input whose head was taken has the results
`xs` left, another one has its head, and after it the rest. -/
def Pending (rd : Reader Status (AggOut V) σ Φ) (tsmin : Timestamp) (i : σ × AggOut V)
    (xs : List (AggOut V)) : Prop :=
  if i.2.1 = tsmin then Yields rd i.1 xs else i.2 = xs.headD noHead ∧ Yields rd i.1 xs.tail

/-- After it. -/
def Fetched (rd : Reader Status (AggOut V) σ Φ) (i : σ × AggOut V) (xs : List (AggOut V)) : Prop :=
  i.2 = xs.headD noHead ∧ Yields rd i.1 xs.tail

variable {tsmin : Timestamp}

theorem fetch_spec {n : Nat} {xss : List (List (AggOut V))} (nz : Nat)
    (φ : Φ) (h : Forall₂ (Pending rd tsmin) ins xss) (hle : nz + ins.length ≤ n) :
    ∃ status ins' φ', fetch rd n tsmin nz φ ins = some (status, ins', φ') ∧
    Forall₂ (Fetched rd) ins' xss ∧
    (status = none ∨ status = some .noData ∧ n ≤ nz + ins.length ∧ ∀ xs ∈ xss, xs = []) := by
  induction ins generalizing xss nz φ with
  | nil =>
    cases h
    exact ⟨none, [], φ, rfl, .nil, .inl rfl⟩
  | cons i ins ih =>
    cases h with
    | @cons _ xs _ xss hi hins =>
    rw [length_cons] at hle ⊢
    rw [fetch]
    by_cases htaken : i.2.1 = tsmin
    · rw [Pending, if_pos htaken] at hi
      obtain ⟨r, hr, hst, hout, hnext⟩ := hi.one φ
      have hfetched : Fetched rd (r.next, r.out.headD noHead) xs := by
        refine ⟨?_, hnext⟩
        rw [hout]
        cases xs <;> rfl
      have hbad : ¬ (r.status ≠ .ok ∧ r.status ≠ .noData) := by
        intro hc
        exact hst.elim hc.1 hc.2
      rw [if_pos htaken, hr, Option.bind_some]
      simp only [if_neg hbad]
      cases xs with
      | nil =>
        have hlen : r.out.length = 0 := by rw [hout]; rfl
        simp only [hlen, if_true]
        by_cases hall : nz + 1 = n
        · -- the last input
          have hnil : ins = [] := length_eq_zero_iff.mp (by omega)
          subst hnil
          cases hins
          rw [if_pos hall]
          refine ⟨_, _, _, rfl, .cons hfetched .nil, .inr ⟨rfl, by omega, ?_⟩⟩
          intro xs hxs
          exact mem_singleton.mp hxs
        · obtain ⟨status, ins', φ', hfetch, hins', hstatus⟩ := ih (nz + 1) r.env hins (by omega)
          rw [if_neg hall, hfetch]
          refine ⟨_, _, _, rfl, .cons hfetched hins', ?_⟩
          refine hstatus.imp_right fun hend => ⟨hend.1, by omega, ?_⟩
          exact forall_mem_cons.mpr ⟨rfl, hend.2.2⟩
      | cons x xs =>
        have hlen : ¬ r.out.length = 0 := by rw [hout]; exact Nat.one_ne_zero
        simp only [if_neg hlen]
        have hnz : ¬ nz = n := by omega
        obtain ⟨status, ins', φ', hfetch, hins', hstatus⟩ := ih nz r.env hins (by omega)
        rw [if_neg hnz, hfetch]
        refine ⟨_, _, _, rfl, .cons hfetched hins', ?_⟩
        exact hstatus.imp_right fun hend => absurd hend.2.1 (by omega)
    · rw [Pending, if_neg htaken] at hi
      obtain ⟨status, ins', φ', hfetch, hins', hstatus⟩ := ih nz φ hins (by omega)
      rw [if_neg htaken, hfetch]
      refine ⟨_, _, _, rfl, .cons hi hins', ?_⟩
      exact hstatus.imp_right fun hend => absurd hend.2.1 (by omega)

/-! ## The loop over lists -/

def joinAll (results : List (AggregationResult V)) : AggregationResult V :=
  results.foldl .combine initAggres

def tsminOf (xss : List (List (AggOut V))) : Timestamp :=
  minHead (xss.map fun xs => xs.headD noHead)

/-- What `read` makes of the results the inputs have left: the timestamps it puts out
with the results it combines, and what the inputs have left afterwards. After the
last one all heads have been read. -/
def taken : Nat → List (List (AggOut V)) →
    List (Timestamp × List (AggregationResult V)) × List (List (AggOut V))
  | 0, xss => ([], xss)
  | room + 1, xss =>
    let t := tsminOf xss
    if t = maxTimestamp then ([], xss)
    else if room = 0 then ([(t, headsAt t xss)], xss.map tail)
    else
      let (out, rest) := taken room (xss.map (advance t))
      ((t, headsAt t xss) :: out, rest)

def combined (out : List (Timestamp × List (AggregationResult V))) : List (AggOut V) :=
  out.map fun (t, results) => (t, joinAll results)

def BelowMax (xss : List (List (AggOut V))) : Prop := ∀ xs ∈ xss, ∀ x ∈ xs, x.1 ≠ maxTimestamp

omit [DoubleArith V] in
theorem minHead_spec (outs : List (AggOut V)) : (∀ out ∈ outs, minHead outs ≤ out.1) ∧
      (minHead outs = maxTimestamp ∨ ∃ out ∈ outs, out.1 = minHead outs) := by
  have key : ∀ (outs : List (AggOut V)) (t : Timestamp),
      ∃ m, outs.foldl (fun t out => min t out.1) t = m ∧ m ≤ t ∧ (∀ out ∈ outs, m ≤ out.1) ∧
        (m = t ∨ ∃ out ∈ outs, out.1 = m) := by
    intro outs
    induction outs with
    | nil =>
      intro t
      exact ⟨t, rfl, le_refl t, fun out hout => (by cases hout), .inl rfl⟩
    | cons out outs ih =>
      intro t
      obtain ⟨m, hm, hle, hall, hmem⟩ := ih (min t out.1)
      refine ⟨m, hm, hle.trans (min_le_left _ _), ?_, ?_⟩
      · exact forall_mem_cons.mpr ⟨hle.trans (min_le_right _ _), hall⟩
      · rcases hmem with heq | ⟨out', hout', heq⟩
        · rcases min_choice t out.1 with hmin | hmin
          · exact .inl (heq.trans hmin)
          · exact .inr ⟨out, mem_cons_self, (heq.trans hmin).symm⟩
        · exact .inr ⟨out', mem_cons_of_mem _ hout', heq⟩
  obtain ⟨m, hm, -, hspec⟩ := key outs maxTimestamp
  rw [minHead, hm]
  exact hspec

variable {xss : List (List (AggOut V))}

theorem tsminOf_le (hxs : xs ∈ xss) {x : AggOut V} (hx : x ∈ xs.head?) : tsminOf xss ≤ x.1 := by
  apply (minHead_spec _).1
  rw [mem_map]
  refine ⟨xs, hxs, ?_⟩
  rw [headD_eq_head?_getD, Option.mem_def.mp hx]
  rfl

theorem tsminOf_head (h : tsminOf xss ≠ maxTimestamp) :
    ∃ xs ∈ xss, ∃ x ∈ xs.head?, x.1 = tsminOf xss := by
  obtain ⟨out, hout, heq⟩ := (minHead_spec _).2.resolve_left h
  obtain ⟨xs, hxs, rfl⟩ := mem_map.mp hout
  cases xs with
  | nil => exact absurd heq.symm h
  | cons x xs => exact ⟨_, hxs, x, rfl, heq⟩

theorem BelowMax.nil_of_tsminOf (hfin : BelowMax xss) (h : tsminOf xss = maxTimestamp) :
    ∀ xs ∈ xss, xs = [] := by
  intro xs hxs
  cases xs with
  | nil => rfl
  | cons x xs =>
    have hle := tsminOf_le hxs rfl
    rw [h] at hle
    exact absurd (le_antisymm (le_maxTimestamp _) hle) (hfin _ hxs x mem_cons_self)

omit [DoubleArith V] in
theorem BelowMax.map (hfin : BelowMax xss) {f : List (AggOut V) → List (AggOut V)}
    (hf : ∀ xs, f xs <:+ xs) : BelowMax (xss.map f) := by
  intro ys hys y hy
  obtain ⟨xs, hxs, rfl⟩ := mem_map.mp hys
  exact hfin xs hxs y ((hf xs).subset hy)

theorem taken_suffix : ∀ (k : Nat) (xss : List (List (AggOut V))), ∀ xs ∈ (taken k xss).2,
    ∃ ys ∈ xss, xs <:+ ys
  | 0, xss => fun xs hxs => ⟨xs, hxs, suffix_refl xs⟩
  | k + 1, xss => by
    intro xs hxs
    rw [taken] at hxs
    split at hxs
    · exact ⟨xs, hxs, suffix_refl xs⟩
    · split at hxs
      · obtain ⟨ys, hys, rfl⟩ := mem_map.mp hxs
        exact ⟨ys, hys, tail_suffix ys⟩
      · obtain ⟨zs, hzs, hsuf⟩ := taken_suffix k _ xs hxs
        obtain ⟨ys, hys, rfl⟩ := mem_map.mp hzs
        exact ⟨ys, hys, hsuf.trans (advance_suffix ys)⟩

theorem BelowMax.taken (h : BelowMax xss) (k : Nat) : BelowMax (taken k xss).2 := by
  intro xs hxs x hx
  obtain ⟨ys, hys, hsuf⟩ := taken_suffix k xss xs hxs
  exact h ys hys x (hsuf.subset hx)

theorem combineAt_heads (ht : t ≠ maxTimestamp) :
    combineAt t (xss.map fun xs => xs.headD noHead) = joinAll (headsAt t xss) := by
  have key : ∀ (xss : List (List (AggOut V))) (res : AggregationResult V),
      (xss.map fun xs => xs.headD noHead).foldl
          (fun res out => if out.1 = t then res.combine out.2 else res) res =
        (headsAt t xss).foldl .combine res := by
    intro xss
    induction xss with
    | nil => exact fun _ => rfl
    | cons xs xss ih =>
      intro res
      rw [map_cons, foldl_cons, ih]
      cases xs with
      | nil =>
        have hne : ¬ (noHead : AggOut V).1 = t := fun hc => ht hc.symm
        rw [headD_nil, if_neg hne]
        rfl
      | cons x xs =>
        by_cases heq : x.1 = t
        · simp [headsAt, heq, Option.filter]
        · simp [headsAt, heq, Option.filter]
  exact key xss initAggres

theorem Fetched.pending (ht : t ≠ maxTimestamp) {i : σ × AggOut V} (h : Fetched rd i xs) :
    Pending rd t i (advance t xs) := by
  obtain ⟨hout, hnext⟩ := h
  rw [Pending]
  cases xs with
  | nil =>
    have hne : ¬ i.2.1 = t := by
      rw [hout]
      exact fun hc => ht hc.symm
    rw [if_neg hne]
    exact ⟨hout, hnext⟩
  | cons x xs =>
    have hout : i.2 = x := hout
    rw [advance, hout]
    by_cases heq : x.1 = t
    · rw [if_pos heq, if_pos heq]
      exact hnext
    · rw [if_neg heq, if_neg heq]
      exact ⟨rfl, hnext⟩

theorem tsminOf_nil (h : ∀ xs ∈ xss, xs = []) : tsminOf xss = maxTimestamp := by
  by_contra hne
  obtain ⟨xs, hxs, x, hx, -⟩ := tsminOf_head hne
  rw [h xs hxs] at hx
  cases hx

theorem fetched_heads (h : Forall₂ (Fetched rd) ins xss) :
    ins.map Prod.snd = xss.map fun xs => xs.headD noHead := by
  induction h with
  | nil => rfl
  | cons hi _ ih => rw [map_cons, map_cons, hi.1, ih]

theorem readLoop_step (room : Nat) (φ : Φ) (dest : List (AggOut V))
    (h : Forall₂ (Pending rd tsmin) ins xss) : ∃ ins' φ', Forall₂ (Fetched rd) ins' xss ∧
      readLoop rd (room + 1) tsmin φ ins dest =
        if tsminOf xss = maxTimestamp then some ⟨.noData, dest, ⟨ins'.map Prod.fst⟩, φ'⟩
        else readLoop rd room (tsminOf xss) φ' ins'
          (dest ++ [(tsminOf xss, joinAll (headsAt (tsminOf xss) xss))]) := by
  obtain ⟨status, ins', φ', hfetch, hins, hstatus⟩ :=
    fetch_spec 0 φ h (zero_add _).le
  refine ⟨ins', φ', hins, ?_⟩
  have houts := fetched_heads hins
  rw [readLoop, hfetch, Option.bind_some]
  rcases hstatus with rfl | ⟨rfl, -, hend⟩
  · simp only [houts]
    by_cases hmax : tsminOf xss = maxTimestamp
    · rw [if_pos hmax]
      exact if_pos hmax
    · rw [if_neg hmax, ← combineAt_heads hmax]
      exact if_neg hmax
  · rw [if_pos (tsminOf_nil hend)]

theorem yields_tail (h : Forall₂ (Fetched rd) ins xss) :
    Forall₂ (Yields rd) (ins.map Prod.fst) (xss.map tail) := by
  induction h with
  | nil => exact .nil
  | cons hi _ ih => exact .cons hi.2 ih

theorem pending_advance (ht : t ≠ maxTimestamp) (h : Forall₂ (Fetched rd) ins xss) :
    Forall₂ (Pending rd t) ins (xss.map (advance t)) := by
  induction h with
  | nil => exact .nil
  | cons hi _ ih => exact .cons (hi.pending ht) ih

theorem BelowMax.taken_end (hfin : BelowMax xss) (h : tsminOf xss = maxTimestamp) (room : Nat) :
    FanInAggregateOperator.taken (room + 1) xss = ([], xss.map tail) := by
  rw [FanInAggregateOperator.taken]
  simp only [if_pos h]
  congr 1
  conv_lhs => rw [← map_id xss]
  apply map_congr_left
  intro xs hxs
  rw [hfin.nil_of_tsminOf h xs hxs]
  rfl

theorem taken_last (h : tsminOf xss ≠ maxTimestamp) :
    taken 1 xss = ([(tsminOf xss, headsAt (tsminOf xss) xss)], xss.map tail) := by
  rw [taken]
  simp [if_neg h]

theorem taken_more (h : tsminOf xss ≠ maxTimestamp) (room : Nat) : taken (room + 2) xss =
      ((tsminOf xss, headsAt (tsminOf xss) xss) ::
          (taken (room + 1) (xss.map (advance (tsminOf xss)))).1,
        (taken (room + 1) (xss.map (advance (tsminOf xss)))).2) := by
  rw [taken]
  simp only [if_neg h, if_neg (Nat.succ_ne_zero room)]

theorem readLoop_spec (room : Nat) (φ : Φ) (dest : List (AggOut V)) (hfin : BelowMax xss)
    (h : Forall₂ (Pending rd tsmin) ins xss) : ∃ iter φ', readLoop rd (room + 1) tsmin φ ins dest =
      some ⟨if (taken (room + 1) xss).1.length = room + 1 then .ok else .noData,
        dest ++ combined (taken (room + 1) xss).1, ⟨iter⟩, φ'⟩ ∧
    Forall₂ (Yields rd) iter (taken (room + 1) xss).2 := by
  induction room generalizing tsmin φ ins xss dest with
  | zero =>
    obtain ⟨ins', φ', hins, hstep⟩ := readLoop_step 0 φ dest h
    refine ⟨ins'.map Prod.fst, φ', ?_⟩
    by_cases hmax : tsminOf xss = maxTimestamp
    · rw [hstep, if_pos hmax, hfin.taken_end hmax]
      exact ⟨by rw [combined, map_nil, append_nil]; rfl, yields_tail hins⟩
    · rw [hstep, if_neg hmax, taken_last hmax]
      exact ⟨rfl, yields_tail hins⟩
  | succ room ih =>
    obtain ⟨ins', φ', hins, hstep⟩ := readLoop_step (room + 1) φ dest h
    by_cases hmax : tsminOf xss = maxTimestamp
    · rw [hstep, if_pos hmax, hfin.taken_end hmax]
      refine ⟨ins'.map Prod.fst, φ', ?_, yields_tail hins⟩
      rw [combined, map_nil, append_nil]
      rfl
    · obtain ⟨iter, φ'', hrest, hyields⟩ := ih φ' (dest ++
        [(tsminOf xss, joinAll (headsAt (tsminOf xss) xss))]) (hfin.map advance_suffix)
        (pending_advance hmax hins)
      rw [hstep, if_neg hmax, hrest, taken_more hmax]
      refine ⟨iter, φ'', ?_, hyields⟩
      simp only [length_cons, Nat.add_right_cancel_iff, append_assoc]
      rfl

theorem read_spec {iter : List σ} (h : Forall₂ (Yields rd) iter xss) (hfin : BelowMax xss)
    (φ : Φ) {size : Nat} (hsize : 0 < size) : ∃ iter' φ', read rd φ ⟨iter⟩ size =
        some ⟨if (taken size xss).1.length = size then .ok else .noData,
          combined (taken size xss).1, ⟨iter'⟩, φ'⟩ ∧
      Forall₂ (Yields rd) iter' (taken size xss).2 := by
  obtain ⟨room, rfl⟩ : ∃ room, size = room + 1 := ⟨size - 1, by omega⟩
  cases h with
  | nil => exact ⟨[], φ, rfl, .nil⟩
  | @cons it xs iter xss hit hiter =>
    have hpending : Forall₂ (Pending rd maxTimestamp)
        ((it :: iter).map fun it => (it, noHead)) (xs :: xss) := by
      rw [forall₂_map_left_iff]
      apply (Forall₂.cons hit hiter).imp
      intro it' xs' hyields
      exact (if_pos rfl).mpr hyields
    obtain ⟨iter', φ', hloop, hyields⟩ := readLoop_spec room φ [] hfin hpending
    exact ⟨iter', φ', hloop, hyields⟩

end FanInAggregateOperator

end FastSTDB
