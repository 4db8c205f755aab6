import FastSTDB.IteratorSpec
import FastSTDB.Lib.Bounds

/-
  Range scans — leaves and chains

  `scan b e pts` is what a range scan over the points `pts` has to deliver: the
  points of `[b, e)` in order when `b < e`, those of `(e, b]` in reverse order
  otherwise. A leaf operator serves the scan of its leaf (`ofLeaf_spec`), a chain
  serves the items of its operators one after the other (`chain_delivers`).
-/
namespace FastSTDB
open List Pull Bounds

variable {b e : Timestamp} {pts : List Point} {it : LeafIter}

/-- The point is in the range a scan from `b` to `e` covers. -/
def inRange (b e : Timestamp) (p : Point) : Bool :=
  if b < e then decide (b ≤ p.ts) && decide (p.ts < e)
  else decide (e < p.ts) && decide (p.ts ≤ b)

def scan (b e : Timestamp) (pts : List Point) : List Point :=
  if b < e then pts.filter (inRange b e) else (pts.filter (inRange b e)).reverse

def Sorted (pts : List Point) : Prop := pts.Pairwise (fun p q => p.ts ≤ q.ts)

abbrev Same : Format Point Point := .same Point

theorem scan_nil : scan b e [] = [] := by
  unfold scan
  split <;> rfl

theorem scan_forward (h : b < e) :
    scan b e pts = pts.filter (fun p => decide (b ≤ p.ts) && decide (p.ts < e)) := by
  simp only [scan, h]
  exact filter_congr (fun p _ => by simp only [inRange, h, if_true])

theorem scan_backward (h : ¬ b < e) :
    scan b e pts = (pts.filter (fun p => decide (e < p.ts) && decide (p.ts ≤ b))).reverse := by
  simp only [scan, h]
  exact congrArg reverse (filter_congr (fun p _ => by simp only [inRange, h, if_false]))

theorem scan_flatten (pieces : List (List Point)) :
    scan b e pieces.flatten = ((scanOrder b e pieces).map (scan b e)).flatten := by
  unfold scan scanOrder
  by_cases h : b < e
  · simp only [h, if_true, filter_flatten]
  · simp only [h, if_false, filter_flatten, reverse_flatten, map_reverse, map_map]
    rfl

theorem scan_eq_nil_of_outside {lo hi : Timestamp} (hlo : ∀ p ∈ pts, lo ≤ p.ts)
    (hhi : ∀ p ∈ pts, p.ts ≤ hi) (h : max b e < lo ∨ hi < min b e) : scan b e pts = [] := by
  have hnone : pts.filter (inRange b e) = [] := by
    rw [filter_eq_nil_iff]
    intro p hp hr
    have h1 := hlo p hp
    have h2 := hhi p hp
    unfold inRange at hr
    split at hr
    · rename_i hbe
      simp only [Bool.and_eq_true, decide_eq_true_eq] at hr
      rw [max_eq_right hbe.le, min_eq_left hbe.le] at h
      rcases h with h | h
      · exact absurd (hr.2.trans (h.trans_le h1)) (lt_irrefl _)
      · exact absurd (hr.1.trans h2) (not_le.mpr h)
    · rename_i hbe
      have hbe' := not_lt.mp hbe
      simp only [Bool.and_eq_true, decide_eq_true_eq] at hr
      rw [max_eq_left hbe', min_eq_right hbe'] at h
      rcases h with h | h
      · exact absurd (h1.trans hr.2) (not_le.mpr h)
      · exact absurd (hr.1.trans_le h2) (not_lt.mpr h.le)
  unfold scan
  split <;> simp [hnone]

/-! ## Cuts of sorted points -/

theorem front_lt (hs : Sorted pts) (t : Timestamp) : Front (fun p => decide (p.ts < t)) pts :=
  hs.imp (fun hab hb => by
    simp only [decide_eq_true_eq] at hb ⊢
    exact hab.trans_lt hb)

theorem front_le (hs : Sorted pts) (t : Timestamp) : Front (fun p => decide (p.ts ≤ t)) pts :=
  hs.imp (fun hab hb => by
    simp only [decide_eq_true_eq] at hb ⊢
    exact hab.trans hb)

theorem lowerBound_range (hs : Sorted pts) (h : b < e) :
    (pts.take (lowerBound pts e)).drop (lowerBound pts b) = scan b e pts := by
  rw [scan_forward h]
  refine (take_drop_eq_filter (front_lt hs b) (front_lt hs e) (fun p hp => ?_)).trans
    (filter_congr (fun p _ => ?_))
  · simp only [decide_eq_true_eq] at hp ⊢
    exact hp.trans h
  · rw [Bool.and_comm, ← decide_not]
    simp only [not_lt]

theorem upperBound_range (hs : Sorted pts) (h : ¬ b < e) :
    ((pts.take (upperBound pts b)).drop (upperBound pts e)).reverse = scan b e pts := by
  rw [scan_backward h]
  congr 1
  refine (take_drop_eq_filter (front_le hs e) (front_le hs b) (fun p hp => ?_)).trans
    (filter_congr (fun p _ => ?_))
  · simp only [decide_eq_true_eq] at hp ⊢
    exact hp.trans (not_lt.mp h)
  · rw [Bool.and_comm, ← decide_not]
    simp only [not_le]

theorem lowerBound_lt_length {t : Timestamp} {p : Point} (hp : p ∈ pts) (h : t ≤ p.ts) :
    lowerBound pts t < pts.length := by
  have hle := takeWhile_length_le (fun q : Point => decide (q.ts < t)) pts
  rcases lt_or_ge (lowerBound pts t) pts.length with hlt | hge
  · exact hlt
  · have heq : pts.takeWhile (fun q => decide (q.ts < t)) = pts :=
      IsPrefix.eq_of_length ( takeWhile_prefix _) (le_antisymm hle hge)
    have hmem : p ∈ pts.takeWhile (fun q => decide (q.ts < t)) := by rw [heq]; exact hp
    have hlt := mem_takeWhile_imp hmem
    simp only [decide_eq_true_eq] at hlt
    exact absurd hlt (not_lt.mpr h)

/-! ## Leaf operators -/

namespace LeafIter

def rest (it : LeafIter) : List Point :=
  if it.status = .ok then (it.buf.take it.last).drop it.pos else []

/-- The status is Ok or NoData, and the range lies within the buffer. -/
def Good (it : LeafIter) : Prop :=
  (it.status = .ok ∨ it.status = .noData) ∧ it.last ≤ it.buf.length

def reader : Reader Status Point LeafIter Unit := fun φ it n =>
  some ⟨(it.read n).1, (it.read n).2.1, (it.read n).2.2, φ⟩

section
variable (hg : it.Good)
include hg

theorem getSize_eq (hok : it.status = .ok) : it.getSize = it.rest.length := by
  have hlen := hg.2
  simp only [getSize, rest, hok, if_true, length_drop, length_take]
  omega

theorem getSize_ne_zero (hne : it.rest ≠ []) : it.getSize ≠ 0 := by
  have hok : it.status = .ok := by
    by_contra hst
    exact hne (if_neg hst)
  rw [getSize_eq hg hok]
  exact fun h0 => hne (eq_nil_of_length_eq_zero h0)

theorem read_nil (hnil : it.rest = []) (n : Nat) : it.read n = (.noData, [], it) := by
  unfold read
  by_cases hok : it.status = .ok
  · have hsize : it.last - it.pos = 0 := by
      have := getSize_eq hg hok
      rwa [hnil] at this
    rw [if_neg (fun h => h hok), hsize, Nat.zero_min, if_pos rfl]
  · rw [if_pos hok, hg.1.resolve_left hok]

theorem read_cons (hne : it.rest ≠ []) {n : Nat} (hn : 0 < n) :
    ∃ it', it.read n = (.ok, it.rest.take n, it') ∧ it'.Good ∧ it'.rest = it.rest.drop n := by
  have hok : it.status = .ok := by
    by_contra hst
    exact hne (if_neg hst)
  have hsize : it.last - it.pos = it.rest.length := getSize_eq hg hok
  have hpos : 0 < it.rest.length := length_pos_iff.mpr hne
  have htake : (it.buf.drop it.pos).take (min (it.last - it.pos) n) = it.rest.take n := by
    simp only [rest, hok, if_true, drop_take, take_take]
    congr 1
    have := hg.2
    omega
  refine ⟨{ it with pos := it.pos + min (it.last - it.pos) n }, ?_, ⟨.inl hok, hg.2⟩, ?_⟩
  · unfold read
    rw [if_neg (fun h => h hok), if_neg (by omega), htake]
  · have hdrop : it.rest.drop (min it.rest.length n) = it.rest.drop n := by
      rcases le_total it.rest.length n with hle | hle
      · rw [min_eq_left hle, drop_length, drop_eq_nil_of_le hle]
      · rw [min_eq_right hle]
    rw [hsize, ← hdrop]
    simp only [rest, hok, if_true, drop_drop]

theorem read_answers (n : Nat) (hn : 0 < n) :
    ∃ xs1 xs2, it.rest = xs1 ++ xs2 ∧ (it.read n).2.1 = xs1 ∧ xs1.length ≤ n ∧
      (it.read n).2.2.Good ∧ (it.read n).2.2.rest = xs2 ∧
      ((it.read n).1 = .ok ∧ xs1 ≠ [] ∨ (it.read n).1 = .noData ∧ xs2 = [] ∧ xs1.length < n) := by
  by_cases hnil : it.rest = []
  · rw [read_nil hg hnil]
    exact ⟨[], [], hnil, rfl, zero_le, hg, hnil, .inr ⟨rfl, rfl, hn⟩⟩
  · obtain ⟨it', hread, hg', hrest⟩ := read_cons hg hnil hn
    rw [hread]
    refine ⟨it.rest.take n, it.rest.drop n, (take_append_drop _ _).symm, rfl,
      length_take_le n _, hg', hrest, .inl ⟨rfl, ?_⟩⟩
    rw [ne_eq, take_eq_nil_iff, not_or]
    exact ⟨hn.ne', hnil⟩

theorem delivers : Delivers reader Same it it.rest := by
  refine .coinduct (fun it xs => it.Good ∧ xs = it.rest) ?_ ⟨hg, rfl⟩
  rintro it _ ⟨hg, rfl⟩ φ n hn
  obtain ⟨xs1, xs2, hx, ho, hl, hg', hr', hs⟩ := read_answers hg n hn
  refine ⟨_, xs1, xs2, rfl, hx, ho, ?_, ⟨hg', hr'.symm⟩, ?_⟩
  · rw [ho]; exact hl
  · rw [ho]; exact hs

end

theorem ofLeaf_spec {V : Type} {leaf : IOVecLeaf V} (hs : Sorted pts)
    (hread : leaf.readAll = some (.ok, pts)) (hlo : ∀ p ∈ pts, leaf.getTimestamps.1 ≤ p.ts)
    (hhi : pts ≠ [] → ∃ p ∈ pts, leaf.getTimestamps.2 ≤ p.ts)
    (hhi' : ∀ p ∈ pts, p.ts ≤ leaf.getTimestamps.2) (b e : Timestamp) :
    ∃ it, ofLeaf b e leaf = some it ∧ it.Good ∧ it.rest = scan b e pts := by
  unfold ofLeaf
  by_cases hout : outside b e leaf = true
  · rw [if_pos hout]
    unfold outside at hout
    refine ⟨_, rfl, ⟨.inr rfl, le_rfl⟩, ?_⟩
    rw [scan_eq_nil_of_outside hlo hhi' (by simpa using hout)]
    rfl
  · rw [if_neg hout, hread]
    simp only [Option.map_some, ne_eq, not_true_eq_false, if_false]
    by_cases hbe : b < e
    · simp only [hbe]
      refine ⟨_, rfl, ⟨.inl rfl, takeWhile_length_le _ _⟩, ?_⟩
      simp only [rest, if_true]
      -- the lower bound is past the end only for an empty leaf
      have hfrom : (if ¬ lowerBound pts b = pts.length then lowerBound pts b else 0) =
          lowerBound pts b := by
        by_cases hp : pts = []
        · subst hp; rfl
        · obtain ⟨p, hp, hle⟩ := hhi hp
          have hb : b ≤ leaf.getTimestamps.2 := by
            unfold outside at hout
            simp only [decide_eq_true_eq, not_or, not_lt] at hout
            rw [min_eq_left hbe.le] at hout
            exact hout.2
          have := lowerBound_lt_length hp (hb.trans hle)
          rw [if_pos (by omega)]
      rw [hfrom, lowerBound_range hs hbe]
    · simp only [hbe, if_false]
      refine ⟨_, rfl, ⟨.inl rfl, by simp⟩, ?_⟩
      simp only [rest]
      have hmono : upperBound pts e ≤ upperBound pts b :=
        takeWhile_length_mono (front_le hs e) (front_le hs b) (fun p hp => by
          simp only [decide_eq_true_eq] at hp ⊢
          exact hp.trans (not_lt.mp hbe))
      rw [reverse_take_drop hmono (takeWhile_length_le _ _)]
      exact upperBound_range hs hbe

end LeafIter

/-! ## Chains -/

section Chain
variable {C : Type} {rd : Reader Status Point C Unit}

/-- What the loop achieves from `out` on when `xs` is left. -/
def ChainSpec (rd : Reader Status Point C Unit) (size : Nat) (out xs : List Point)
    (res : Option (Status × List Point × List C × Nat)) : Prop :=
  ∃ status more iters index xss, res = some (status, out ++ more, iters, index) ∧
    xs = more ++ xss.flatten ∧ Forall₂ (Delivers rd Same) (iters.drop index) xss ∧
    more.length ≤ size ∧
    (status = .ok ∧ more ≠ [] ∨ status = .noData ∧ xss.flatten = [] ∧ more.length < size)

theorem ChainSpec.extend {size : Nat} {out new xs : List Point}
    {res : Option (Status × List Point × List C × Nat)} (hle : new.length ≤ size)
    (h : ChainSpec rd (size - new.length) (out ++ new) xs res) :
    ChainSpec rd size out (new ++ xs) res := by
  obtain ⟨status, more, iters, index, xss, hres, hflat, hall, hlen, hst⟩ := h
  refine ⟨status, new ++ more, iters, index, xss, ?_, ?_, hall, ?_, ?_⟩
  · rw [hres, append_assoc]
  · rw [hflat, append_assoc]
  · rw [length_append]; omega
  · rcases hst with ⟨hok, hne⟩ | ⟨hnd, hnil, hlt⟩
    · exact .inl ⟨hok, by simp [hne]⟩
    · exact .inr ⟨hnd, hnil, by rw [length_append]; omega⟩

theorem chainLoop_spec (fuel : Nat) (iters : List C) (index : Nat) (status : Status)
    (out : List Point) (size : Nat) (xss : List (List Point))
    (hall : Forall₂ (Delivers rd Same) (iters.drop index) xss) (hsize : 0 < size)
    (hst : status = .noData ∨ index < iters.length) (hf : iters.length - index + size < fuel) :
    ChainSpec rd size out xss.flatten (chainLoop rd fuel iters index status out size) := by
  induction fuel generalizing iters index status out size xss with
  | zero => omega
  | succ fuel ih =>
    rw [chainLoop]
    cases hget : iters[index]? with
    | none =>
      have hge : iters.length ≤ index := getElem?_eq_none_iff.mp hget
      have hdrop : iters.drop index = [] := drop_eq_nil_of_le hge
      rw [hdrop] at hall
      cases hall
      have hnd : status = .noData := by
        rcases hst with h | h
        · exact h
        · omega
      refine ⟨status, [], iters, index, [], by simp, rfl, by rw [hdrop]; exact .nil, by simp,
        .inr ⟨hnd, rfl, hsize⟩⟩
    | some it =>
      obtain ⟨hlt, hit⟩ := List.getElem?_eq_some_iff.mp hget
      rw [drop_eq_getElem_cons hlt, hit] at hall
      cases hall with
      | @cons _ xs _ xss hserve hrest =>
        obtain ⟨r, xs1, xs2, hr, hx, ho, hl, hR, hs⟩ := hserve.step () size hsize
        have hset : (iters.set index r.next).length = iters.length := length_set
        have hnext : Forall₂ (Delivers rd Same) ((iters.set index r.next).drop index)
            (xs2 :: xss) := by
          rw [drop_set_self hlt]
          exact .cons hR hrest
        simp only [hr, Option.bind_some]
        rw [flatten_cons, hx, ← ho, append_assoc]
        rcases hs with ⟨hok, hout⟩ | ⟨hnd, hnil, hroom⟩
        · have hpos : 0 < r.out.length := length_pos_iff.mpr hout
          by_cases h0 : size - r.out.length = 0
          · simp only [h0]
            exact ⟨r.status, r.out, _, index, xs2 :: xss, rfl, rfl, hnext, hl, .inl ⟨hok, hout⟩⟩
          · simp only [h0, hok]
            exact .extend hl (ih _ index .ok _ _ _ hnext (by omega) (.inr (by omega)) (by omega))
        · have h0 : ¬ size - r.out.length = 0 := by omega
          simp only [h0, hnd]
          rw [hnil]
          refine .extend hl (ih _ (index + 1) .noData _ _ _ ?_ (by omega) (.inl rfl) (by omega))
          rw [drop_set_of_lt (by omega)]
          exact hrest

/-- `ChainOperator` over operators of any kind. -/
def chainRead {β : Type} (rd : Reader Status β C Unit) : Reader Status β (List C × Nat) Unit :=
  fun φ st size => (chainLoop rd (st.1.length + size + 1) st.1 st.2 .noData [] size).map
    fun r => ⟨r.1, r.2.1, r.2.2, φ⟩

theorem chainRead_delivers {iters : List C} {xss : List (List Point)}
    (h : Forall₂ (Delivers rd Same) iters xss) :
    Delivers (chainRead rd) Same (iters, 0) xss.flatten := by
  refine .coinduct (fun st xs => ∃ xss, xs = xss.flatten ∧
    Forall₂ (Delivers rd Same) (st.1.drop st.2) xss) ?_ ⟨xss, rfl, h⟩
  rintro ⟨iters, index⟩ _ ⟨xss, rfl, hall⟩ φ n hn
  obtain ⟨st, more, iters', index', xss', hloop, hflat, hall', hl, hst⟩ :=
    chainLoop_spec (iters.length + n + 1) iters index .noData [] n xss hall hn (.inl rfl) (by omega)
  refine ⟨⟨st, more, (iters', index'), φ⟩, more, xss'.flatten, ?_, hflat, rfl, hl,
    ⟨xss', rfl, hall'⟩, hst⟩
  rw [chainRead, hloop]
  rfl

end Chain

theorem chain_delivers {V : Type} [DoubleArith V] {bs : BlockStore V} {depth : Nat}
    {iters : List (RealOp V)} {xss : List (List Point)}
    (h : Forall₂ (Delivers (RealOp.read bs depth) Same) iters xss) :
    Delivers (RealOp.read bs (depth + 1)) Same (.chain iters 0) xss.flatten := by
  refine (chainRead_delivers h).map_state (fun st => RealOp.chain st.1 st.2) fun φ st n => ?_
  rw [chainRead, Option.map_map]
  rfl

end FastSTDB
