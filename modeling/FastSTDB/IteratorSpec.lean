import FastSTDB.Iterator

/-
  Iterators — what a superblock operator delivers

  The proof of the loop of `NBTreeSBlockIteratorBase::iter`, once for every
  derived operator: if each reference the operator still has to visit is skipped
  or opens a child that serves the reference's items, the operator serves the
  items of its current child and then those of the references, in the order of
  the scan (`SBlockIter.serves_read`). The derived operator only has to say what
  its `make_*_iterator` methods do.
-/
namespace FastSTDB
open List Pull

variable {V C α β Φ : Type}
variable {it : SBlockIter V C} {xs : List α} {xss : List (List α)}

/-- `Serves` with the statuses of this code base. -/
abbrev Delivers (rd : Reader Status β C Φ) (F : Format α β) (s : C) (xs : List α) : Prop :=
  Serves rd .ok .noData F s xs

/-- An operator over a list in memory. -/
def listRead : Reader Status α (List α) Unit := fun φ s n =>
  some ⟨if s.length < n then .noData else .ok, s.take n, s.drop n, φ⟩

/-- The state `s` has the elements `xs` left and fills the buffers it is given with them. It says
`NoData` with the last of them if they leave room, or later. -/
def Fills (rd : Reader Status α C Φ) (s : C) (xs : List α) : Prop :=
  ∃ R : C → List α → Prop, R s xs ∧ ∀ s xs, R s xs → ∀ φ n, 0 < n → ∃ r, rd φ s n = some r ∧
    r.out = xs.take n ∧ R r.next (xs.drop n) ∧
    (r.status = .ok ∧ r.out ≠ [] ∨ r.status = .noData ∧ xs.length < n)

variable {rd : Reader Status α C Φ}

theorem Fills.read {s : C} (h : Fills rd s xs) (φ : Φ)
    {n : Nat} (hn : 0 < n) : ∃ r, rd φ s n = some r ∧ r.out = xs.take n ∧
      Fills rd r.next (xs.drop n) ∧
      (r.status = .ok ∧ r.out ≠ [] ∨ r.status = .noData ∧ xs.length < n) := by
  obtain ⟨R, hs, hR⟩ := h
  obtain ⟨r, hr, hout, hnext, hstatus⟩ := hR s xs hs φ n hn
  exact ⟨r, hr, hout, ⟨R, hnext, hR⟩, hstatus⟩

theorem Fills.delivers {s : C} (h : Fills rd s xs) : Delivers rd (.same α) s xs := by
  refine .coinduct (Fills rd) (fun s xs h φ n hn => ?_) h
  obtain ⟨r, hr, hout, hnext, hstatus⟩ := h.read φ hn
  refine ⟨r, xs.take n, xs.drop n, hr, (take_append_drop n xs).symm, hout, ?_, hnext, ?_⟩
  · rw [hout]
    exact length_take_le n xs
  · refine hstatus.imp id fun ⟨hno, hlt⟩ => ⟨hno, drop_eq_nil_of_le hlt.le, ?_⟩
    rwa [hout, take_of_length_le hlt.le]

theorem listRead_fills : Fills listRead xs xs := by
  refine ⟨Eq, rfl, ?_⟩
  rintro s _ rfl φ n hn
  refine ⟨_, rfl, rfl, rfl, ?_⟩
  by_cases hlt : s.length < n
  · exact .inr ⟨if_pos hlt, hlt⟩
  · refine .inl ⟨if_neg hlt, fun hnil => ?_⟩
    have hlen := congrArg length hnil
    rw [length_take, length_nil] at hlen
    omega

theorem listRead_delivers : Delivers listRead (.same α) xs xs := listRead_fills.delivers

theorem forall₂_listRead : Forall₂ (Delivers listRead (.same α)) xss xss :=
  forall₂_same.mpr fun _ _ => listRead_delivers

def scanOrder (beginTs endTs : Timestamp) (l : List α) : List α :=
  if beginTs < endTs then l else l.reverse

theorem scanOrder_map {γ : Type} (beginTs endTs : Timestamp) (f : α → γ) (l : List α) :
    scanOrder beginTs endTs (l.map f) = (scanOrder beginTs endTs l).map f := by
  unfold scanOrder
  split <;> simp

theorem scanOrder_perm (beginTs endTs : Timestamp) (l : List α) :
    (scanOrder beginTs endTs l).Perm l := by
  unfold scanOrder
  split
  · exact .refl l
  · exact reverse_perm l

theorem scanOrder_inj {beginTs endTs : Timestamp} {l l' : List α}
    (h : scanOrder beginTs endTs l = scanOrder beginTs endTs l') : l = l' := by
  unfold scanOrder at h
  split at h
  · exact h
  · exact reverse_inj.mp h

theorem forall₂_scanOrder {γ : Type} {R : α → γ → Prop} {l : List α} {l' : List γ}
    (beginTs endTs : Timestamp) (h : Forall₂ R l l') :
    Forall₂ R (scanOrder beginTs endTs l) (scanOrder beginTs endTs l') := by
  unfold scanOrder
  split
  · exact h
  · exact rel_reverse h

namespace SBlockIter

/-! ## The cursor -/

/-- The references still to be visited, in the order of the scan. -/
def todo (it : SBlockIter V C) : List (SubtreeRef V) :=
  if it.forward then it.refs.drop it.refsPos.toNat
  else (it.refs.take (it.refsPos + 1).toNat).reverse

/-- The cursor points into the references, or just past them. -/
def Cursor (it : SBlockIter V C) : Prop :=
  if it.forward then 0 ≤ it.refsPos ∧ it.refsPos ≤ it.refs.length
  else -1 ≤ it.refsPos ∧ it.refsPos < it.refs.length

theorem todo_length_le (it : SBlockIter V C) : it.todo.length ≤ it.refs.length := by
  unfold todo
  split <;> simp

theorem todo_with_iter (c : Option C) :
    ({ it with iter := c } : SBlockIter V C).todo = it.todo := rfl

theorem startPos_spec (it : SBlockIter V C)
    (h : it.refsPos = startPos it.beginTs it.endTs it.refs) :
    it.Cursor ∧ it.todo = scanOrder it.beginTs it.endTs it.refs := by
  unfold Cursor todo scanOrder forward
  rw [h, startPos]
  by_cases hd : it.beginTs < it.endTs
  · simp [hd]
  · have hlen : ((it.refs.length : Int) - 1 + 1).toNat = it.refs.length := by omega
    simp only [hd, decide_false, Bool.false_eq_true, if_false, hlen, take_length, and_true]
    omega

theorem nextRef_nil (hc : it.Cursor) (h : it.todo = []) : it.nextRef = none := by
  unfold Cursor at hc
  unfold todo at h
  unfold nextRef
  cases hf : it.forward with
  | true =>
    simp only [hf, if_true, drop_eq_nil_iff] at hc h ⊢
    rw [if_pos (by omega)]
  | false =>
    simp only [hf, Bool.false_eq_true, if_false, reverse_eq_nil_iff, take_eq_nil_iff] at hc h ⊢
    rw [if_pos]
    rcases h with h | h
    · omega
    · simp only [h, length_nil] at hc; omega

theorem nextRef_cons (hc : it.Cursor) {ref : SubtreeRef V} {rest : List (SubtreeRef V)}
    (h : it.todo = ref :: rest) : ∃ pos, it.nextRef = some (ref, { it with refsPos := pos }) ∧
      ({ it with refsPos := pos } : SBlockIter V C).Cursor ∧
      ({ it with refsPos := pos } : SBlockIter V C).todo = rest := by
  unfold Cursor todo forward at *
  unfold nextRef forward
  by_cases hf : it.beginTs < it.endTs
  · simp only [hf, decide_true, if_true] at hc h ⊢
    have hlt : it.refsPos.toNat < it.refs.length := by
      have : 0 < (it.refs.drop it.refsPos.toNat).length := by rw [h]; simp
      rw [length_drop] at this
      omega
    have hget : it.refs[it.refsPos.toNat]? = some ref := by
      have h0 : (it.refs.drop it.refsPos.toNat)[0]? = some ref := by rw [h]; rfl
      simpa using h0
    have hpos : (it.refsPos + 1).toNat = it.refsPos.toNat + 1 := by omega
    refine ⟨it.refsPos + 1, ?_, by omega, ?_⟩
    · rw [if_neg (by omega), hget, Option.map_some]
    · rw [hpos, ← drop_drop, h]
      rfl
  · simp only [hf, decide_false, Bool.false_eq_true, if_false] at hc h ⊢
    have hne : 0 ≤ it.refsPos := by
      by_contra hneg
      have h0 : (it.refsPos + 1).toNat = 0 := by omega
      rw [h0] at h
      simp at h
    obtain ⟨n, hn⟩ : ∃ n : Nat, it.refsPos = n := ⟨it.refsPos.toNat, by omega⟩
    have hnlt : n < it.refs.length := by omega
    have htake : it.refs.take (it.refsPos + 1).toNat = it.refs.take n ++ [it.refs[n]] := by
      have h1 : (it.refsPos + 1).toNat = n + 1 := by omega
      rw [h1]
      simp
    rw [htake, reverse_append] at h
    simp only [reverse_cons, reverse_nil, nil_append, singleton_append, cons.injEq] at h
    have hget : it.refs[it.refsPos.toNat]? = some ref := by
      rw [hn, Int.toNat_natCast, getElem?_eq_getElem hnlt, h.1]
    refine ⟨it.refsPos - 1, ?_, by omega, ?_⟩
    · rw [if_neg (by omega), hget, Option.map_some]
    · have h1 : (it.refsPos - 1 + 1).toNat = n := by omega
      rw [h1]
      exact h.2

/-! ## Children -/

section
variable (bs : BlockStore V) (m : Methods V C β Φ) (F : Format α β)

/-- Visiting `ref`, whose items are `xs`, either skips it, and there are none, or
opens a child that serves them. -/
def Opens (beginTs endTs : Timestamp) (ref : SubtreeRef V) (xs : List α) : Prop :=
  ∀ φ, (∃ status φ', openRef bs m beginTs endTs φ ref = some (status, none, φ') ∧
      (status = .notFound ∨ status = .unavailable) ∧ xs = []) ∨
    ∃ c φ', openRef bs m beginTs endTs φ ref = some (.ok, some c, φ') ∧
      Delivers m.readChild F c xs

/-- Items left to the operator: those of its child and of the references to be
visited. -/
def Left (it : SBlockIter V C) (xs : List α) : Prop :=
  it.Cursor ∧ it.fsmPos ≠ 0 ∧
    ∃ cur xss, (it.iter = none ∧ cur = [] ∨ ∃ c, it.iter = some c ∧ Delivers m.readChild F c cur) ∧
      Forall₂ (Opens bs m F it.beginTs it.endTs) it.todo xss ∧ xs = cur ++ xss.flatten

variable {bs m F}

/-- A bound on the rounds of the loop. -/
def rounds (it : SBlockIter V C) (size : Nat) (out : List β) : Nat :=
  2 * it.todo.length + 2 * (size - out.length) + (if it.iter.isSome then 1 else 0)

/-- What the loop achieves from `out` on. -/
def LoopSpec (bs : BlockStore V) (m : Methods V C β Φ) (F : Format α β)
    (size : Nat) (out : List β) (xs : List α)
    (res : Option (Reply β (SBlockIter V C) Φ)) : Prop :=
  ∃ r xs₁ xs₂ more, res = some r ∧ r.out = out ++ more ∧ xs = xs₁ ++ xs₂ ∧ F.Emits xs₁ more ∧
    r.out.length ≤ size ∧ Left bs m F r.next xs₂ ∧
    (r.status = .ok ∧ r.out.length = size ∨ r.status = .noData ∧ xs₂ = [] ∧ r.out.length < size)

theorem LoopSpec.extend (hF : F.Lawful) {size : Nat} {out new : List β} {ys : List α}
    {res : Option (Reply β (SBlockIter V C) Φ)} (he : F.Emits ys new)
    (h : LoopSpec bs m F size (out ++ new) xs res) : LoopSpec bs m F size out (ys ++ xs) res := by
  obtain ⟨r, xs1, xs2, more, hr, ho, hx, hem, hl, hR, hs⟩ := h
  exact ⟨r, ys ++ xs1, xs2, new ++ more, hr, by rw [ho, append_assoc],
    by rw [hx, append_assoc], hF.append he hem, hl, hR, hs⟩

theorem pull_spec (hF : F.Lawful) {size : Nat} {φ : Φ} {out : List β} {c : C} {cur : List α}
    {loop : Φ → SBlockIter V C → Status → List β → Option (Reply β (SBlockIter V C) Φ)}
    (hlt : out.length < size) (hc : it.iter = some c) (hcur : Delivers m.readChild F c cur)
    (hcursor : it.Cursor) (hfsm : it.fsmPos ≠ 0)
    (hopen : Forall₂ (Opens bs m F it.beginTs it.endTs) it.todo xss)
    (hroom : F.room (cur ++ xss.flatten) < size - out.length)
    (hloop : ∀ φ' it' status out' xs', Left bs m F it' xs' →
      (out'.length < size → F.room xs' < size - out'.length) → out'.length ≤ size →
      (out'.length = size → status = .ok) → rounds it' size out' < rounds it size out →
      LoopSpec bs m F size out' xs' (loop φ' it' status out')) :
    LoopSpec bs m F size out (cur ++ xss.flatten) (pull m loop size φ it out) := by
  obtain ⟨r, cur1, cur2, hr, hx, he, hl, hR, hst⟩ := hcur.step φ (size - out.length)
    ((hF.front _ _).trans_lt hroom)
  have hlen : (out ++ r.out).length = out.length + r.out.length := length_append
  rw [hx, append_assoc] at hroom
  have hroom' : (out ++ r.out).length < size →
      F.room (cur2 ++ xss.flatten) < size - (out ++ r.out).length := by
    intro hlt'
    have := hF.rest he hroom (by omega)
    omega
  unfold pull
  rw [hc, Option.bind_some, hr, Option.bind_some, hx, append_assoc]
  rcases hst with ⟨hok, hout⟩ | ⟨hnd, hnil, hroom⟩
  · have hpos : 0 < r.out.length := length_pos_iff.mpr hout
    simp only [hok]
    refine .extend hF he (hloop _ _ _ _ _ ?_ hroom' (by omega) (fun _ => rfl) ?_)
    · exact ⟨hcursor, hfsm, cur2, xss, .inr ⟨r.next, rfl, hR⟩, hopen, rfl⟩
    · simp only [rounds, todo_with_iter, hc, Option.isSome_some]
      omega
  · simp only [hnd]
    refine .extend hF he (hloop _ _ _ _ _ ?_ hroom' (by omega) (fun h => ?_) ?_)
    · exact ⟨hcursor, hfsm, [], xss, .inl ⟨rfl, rfl⟩, hopen, by rw [hnil]⟩
    · omega
    · simp only [rounds, todo_with_iter, hc, Option.isSome_some, if_true, Option.isSome_none,
        Bool.false_eq_true, if_false]
      omega

/-- The loop of `iter` delivers a front part of what is left. -/
theorem iterLoop_spec (hF : F.Lawful) (size fuel : Nat) (φ : Φ) (it : SBlockIter V C)
    (status : Status) (out : List β) (xs : List α) (hleft : Left bs m F it xs)
    (hroom : out.length < size → F.room xs < size - out.length) (hle : out.length ≤ size)
    (hst : out.length = size → status = .ok) (hf : rounds it size out < fuel) :
    LoopSpec bs m F size out xs (iterLoop bs m size fuel φ it status out) := by
  induction fuel generalizing φ it status out xs with
  | zero => omega
  | succ fuel ih =>
    obtain ⟨hcursor, hfsm, cur, xss, hcur, hopen, rfl⟩ := hleft
    rw [iterLoop]
    by_cases hlt : out.length < size
    · rw [if_pos hlt]
      rcases hcur with ⟨hnone, rfl⟩ | ⟨c, hsome, hserve⟩
      · rw [hnone]
        cases htodo : it.todo with
        | nil =>
          rw [htodo] at hopen
          cases hopen
          rw [getNextIter, nextRef_nil hcursor htodo]
          refine ⟨_, [], [], [], rfl, by simp, by simp, hF.nil, hle,
            ⟨hcursor, hfsm, [], [], .inl ⟨rfl, rfl⟩, ?_, rfl⟩, .inr ⟨rfl, rfl, hlt⟩⟩
          rw [todo_with_iter, htodo]
          exact .nil
        | cons ref rest =>
          obtain ⟨pos, hnext, hcursor', htodo'⟩ := nextRef_cons hcursor htodo
          rw [htodo] at hopen
          cases hopen with
          | cons href hrest =>
          rename_i xs xss
          rw [getNextIter, hnext]
          simp only
          rcases href φ with ⟨status', φ', ho, hskip, hempty⟩ | ⟨c, φ', ho, hserve⟩
          · -- the reference is skipped
            have htd : ({ it with refsPos := pos, iter := none } : SBlockIter V C).todo = rest :=
              htodo'
            rw [ho]
            simp only [Option.map_some, Option.bind_some, hskip]
            rw [hempty]
            rw [hempty] at hroom
            refine ih _ _ _ _ _ ⟨hcursor', hfsm, [], xss, .inl ⟨rfl, rfl⟩, ?_, rfl⟩ hroom hle
              (fun h => by omega) ?_
            · rw [htd]; exact hrest
            · simp only [rounds, htd, htodo, hnone, length_cons] at hf ⊢
              omega
          · -- the reference opens a child, which is read in the same round
            have htd : ({ it with refsPos := pos, iter := some c }).todo = rest :=
              htodo'
            rw [ho]
            simp only [Option.map_some, Option.bind_some, reduceCtorEq, or_self, if_false]
            rw [flatten_cons]
            refine pull_spec hF hlt rfl hserve hcursor' hfsm (by rw [htd]; exact hrest) (hroom hlt)
              (fun φ'' it' st' out' xs' hl' hm' hle' hst' hr' =>
                ih φ'' it' st' out' xs' hl' hm' hle' hst' ?_)
            refine hr'.trans_le ?_
            simp only [rounds, htd, htodo, length_cons, Option.isSome_some, if_true] at hf ⊢
            omega
      · rw [hsome]
        exact pull_spec hF hlt hsome hserve hcursor hfsm hopen (hroom hlt)
          (fun φ'' it' st' out' xs' hl' hm' hle' hst' hr' =>
            ih φ'' it' st' out' xs' hl' hm' hle' hst' (by omega))
    · rw [if_neg hlt]
      have hfull : out.length = size := by omega
      exact ⟨_, [], _, [], rfl, by simp, by simp, hF.nil, hle,
        ⟨hcursor, hfsm, cur, xss, hcur, hopen, rfl⟩, .inl ⟨hst hfull, hfull⟩⟩

/-! ## Reading -/

theorem iterate_spec (hF : F.Lawful) {φ : Φ} (h : Left bs m F it xs) (size : Nat)
    (hs : F.room xs < size) : LoopSpec bs m F size [] xs (iterate bs m φ it size) := by
  refine iterLoop_spec hF size _ φ it .noData [] xs h (fun _ => hs) zero_le ?_ ?_
  · intro h0; simp only [length_nil] at h0; omega
  · have := it.todo_length_le
    simp only [rounds]
    split <;> omega

/-- An operator over a stored superblock that has not been read yet. -/
def Unread (bs : BlockStore V) (m : Methods V C β Φ) (F : Format α β)
    (it : SBlockIter V C) (xs : List α) : Prop :=
  it.fsmPos = 0 ∧ ∃ it', it.init bs = some (.ok, it') ∧
    Left bs m F { it' with fsmPos := it'.fsmPos + 1 } xs

theorem left_ofNode {node : IOVecSuperblock V} {b e : Timestamp}
    (h : Forall₂ (Opens bs m F b e) (scanOrder b e node.refs) xss) :
    Left bs m F (ofNode node b e) xss.flatten := by
  obtain ⟨hc, ht⟩ := startPos_spec (ofNode node b e) rfl
  refine ⟨hc, Nat.one_ne_zero, [], xss, .inl ⟨rfl, rfl⟩, ?_, rfl⟩
  rw [ht]
  exact h

theorem unread_ofAddr {block : Block V} {refs : List (SubtreeRef V)} {addr : LogicAddr}
    (hread : bs.readIovecBlock addr = (.ok, some block)) (hpl : block.payload = .inner refs)
    (hsize : block.header.payloadSize = refs.length) {b e : Timestamp}
    (h : Forall₂ (Opens bs m F b e) (scanOrder b e refs) xss) :
    Unread bs m F (ofAddr addr b e) xss.flatten := by
  have hinit : (ofAddr addr b e : SBlockIter V C).init bs =
      some (.ok, ⟨b, e, addr, refs, none, 0, startPos b e refs⟩) := by
    simp [init, ofAddr, hread, IOVecSuperblock.ofBlock, hpl, hsize]
  refine ⟨rfl, _, hinit, ?_⟩
  obtain ⟨hc, ht⟩ := startPos_spec
    ⟨b, e, addr, refs, none, 0 + 1, startPos b e refs⟩ rfl
  refine ⟨hc, Nat.one_ne_zero, [], xss, .inl ⟨rfl, rfl⟩, ?_, rfl⟩
  rw [ht]
  exact h

theorem serves_read (hF : F.Lawful) (h : Unread bs m F it xs ∨ Left bs m F it xs) :
    Delivers (SBlockIter.read bs m) F it xs := by
  refine .coinduct (fun it xs => Unread bs m F it xs ∨ Left bs m F it xs) ?_ h
  rintro it xs hit φ size hs
  have hspec : LoopSpec bs m F size [] xs (read bs m φ it size) := by
    rcases hit with ⟨hfsm, it', hinit, hleft⟩ | hleft
    · simp only [read, hfsm, hinit]
      exact iterate_spec hF hleft size hs
    · simp only [read, hleft.2.1]
      exact iterate_spec hF hleft size hs
  obtain ⟨r, xs1, xs2, more, hr, ho, hx, he, hl, hR, hst⟩ := hspec
  refine ⟨r, xs1, xs2, hr, hx, by rw [ho]; exact he, hl, .inr hR, ?_⟩
  rcases hst with ⟨hok, hfull⟩ | hend
  · exact .inl ⟨hok, fun h0 => by rw [h0] at hfull; simp only [length_nil] at hfull; omega⟩
  · exact .inr hend

end
end SBlockIter
end FastSTDB
