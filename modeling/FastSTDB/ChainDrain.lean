import FastSTDB.Materializers
import FastSTDB.Scan

/-
  Draining chains — `ChainOperator` and `ChainMaterializer` (`operators/scan.cc`)

  An operator of a chain fills the buffer it is given as long as it has points (`Fills`).
  The loop of `ChainOperator` stays at an operator until that says `NoData`; the loop of
  `ChainMaterializer` goes on after every read that leaves room, which is right because
  only an operator without further points leaves room.
-/
namespace FastSTDB
open List Pull

variable {σ Φ : Type} {rd : Reader Status Point σ Φ} {ids : List ParamId}
  {xss : List (List Point)} {iters : List σ}

/-- The columns that are left of a chain have the points `items`, each with an id. -/
def ColumnChain.Left (rd : Reader Status Point σ Φ) (st : ColumnChain σ)
    (items : List (ParamId × Point)) : Prop :=
  st.ids.length = st.iters.length ∧ ∃ xss, Forall₂ (Fills rd) (st.iters.drop st.pos) xss ∧
    items = labelled (st.ids.drop st.pos) xss

/-- The loop delivers the first of the points that are left, as many as there is space for. -/
theorem columnLoop_spec : ∀ (fuel : Nat) (φ : Φ) (st : ColumnChain σ)
    (status : Status) (size : Nat) (out : List (ParamId × Point)),
    st.ids.length = st.iters.length → Forall₂ (Fills rd) (st.iters.drop st.pos) xss →
    0 < size → xss.length < fuel → (status = .ok ∧ out ≠ [] ∨ status = .noData) →
    ∃ r more rest, columnLoop rd fuel φ st status size out = some r ∧ r.out = out ++ more ∧
      labelled (st.ids.drop st.pos) xss = more ++ rest ∧ more.length ≤ size ∧ r.next.Left rd rest ∧
      (r.status = .ok ∧ r.out ≠ [] ∨ r.status = .noData ∧ rest = [] ∧ more.length < size) := by
  induction xss with
  | nil =>
    intro fuel φ st status size out hids hall hsize hfuel hstatus
    obtain ⟨fuel, rfl⟩ := Nat.exists_eq_add_of_lt hfuel
    have hend : st.iters[st.pos]? = none := by
      rw [getElem?_eq_none_iff]
      exact drop_eq_nil_iff.mp (forall₂_nil_right_iff.mp hall)
    have hnil : labelled (st.ids.drop st.pos) ([] : List (List Point)) = [] := by simp [labelled]
    refine ⟨⟨status, out, st, φ⟩, [], [], ?_, (append_nil _).symm, hnil, zero_le,
      ⟨hids, [], hall, hnil.symm⟩, hstatus.imp id fun hno => ⟨hno, rfl, hsize⟩⟩
    rw [columnLoop, hend]
  | cons xs xss ih =>
    intro fuel φ st status size out hids hall hsize hfuel hstatus
    obtain ⟨fuel, rfl⟩ : ∃ k, fuel = k + 1 := ⟨fuel - 1, by omega⟩
    obtain ⟨it, rest, hit, hrest, hdrop⟩ := forall₂_cons_right_iff.mp hall
    have hget : st.iters[st.pos]? = some it := by rw [← head?_drop, hdrop]; rfl
    have hpos := lt_of_getElem? hget
    have hrest' : Forall₂ (Fills rd) (st.iters.drop (st.pos + 1)) xss := by rwa [← tail_drop, hdrop]
    obtain ⟨id, hid, hdrop'⟩ : ∃ id, st.ids[st.pos]? = some id ∧
        st.ids.drop st.pos = id :: st.ids.drop (st.pos + 1) :=
      ⟨_, getElem?_eq_getElem (hids ▸ hpos), drop_eq_getElem_cons (hids ▸ hpos)⟩
    obtain ⟨r, hr, hout, hnext, hend⟩ := hit.read φ hsize
    have hlen : r.out.length = min size xs.length := by rw [hout, length_take]
    have hids' : st.ids.length = (st.iters.set st.pos r.next).length := by rw [length_set, hids]
    rw [columnLoop, hget, hdrop', labelled_cons]
    simp only [hid, hr, Option.bind_some, if_neg (show ¬ size < r.out.length by omega)]
    by_cases hfull : size - r.out.length = 0
    · -- the buffer is full, and the column may have more
      rw [if_pos hfull]
      refine ⟨_, _, labelled (st.ids.drop st.pos) (xs.drop size :: xss), rfl, rfl, ?_, ?_,
        ⟨hids', _, ?_, rfl⟩, .inl ?_⟩
      · rw [hdrop', labelled_cons, hout, ← append_assoc, ← map_append, take_append_drop]
      · rw [length_map]
        omega
      · rw [drop_set_self hpos]
        exact .cons hnext hrest'
      · rcases hend with ⟨hok, hne⟩ | ⟨-, hshort⟩
        · exact ⟨hok, by simp [hne]⟩
        · omega
    · -- there is room, so the column has no more
      have hall : r.out = xs := by rw [hout, take_of_length_le (by omega)]
      have hfine : ¬ (r.status ≠ .noData ∧ r.status ≠ .ok) :=
        fun hc => hend.elim (hc.2 ·.1) (hc.1 ·.1)
      rw [if_neg hfull, if_neg hfine, hall]
      obtain ⟨r', more, later, hloop, hout', hitems, hmore, hleft, hstop⟩ := ih fuel r.env
        ⟨st.iters.set st.pos r.next, st.ids, st.pos + 1⟩ r.status (size - xs.length)
        (out ++ xs.map fun a => (id, a)) hids' (by rwa [drop_set_of_lt (lt_add_one _)])
        (by omega) (Nat.succ_lt_succ_iff.mp hfuel)
        (hend.imp (fun h => ⟨h.1, by simp [← hall, h.2]⟩) And.left)
      refine ⟨r', xs.map (fun a => (id, a)) ++ more, later, hloop, ?_, ?_, ?_, hleft,
        hstop.imp (fun h => h) fun h => ⟨h.1, h.2.1, ?_⟩⟩
      · rw [hout', append_assoc]
      · rw [append_assoc, ← hitems]
      · rw [length_append, length_map]
        omega
      · rw [length_append, length_map]
        omega

def sampled : Format (ParamId × Point) Sample where
  room _ := sampleSize - 1
  Emits xs out := out = xs.map fun x => ⟨x.2.ts, x.1, .float x.2.value⟩

theorem ColumnChain.delivers (h : Forall₂ (Fills rd) iters xss) (hids : ids.length = iters.length) :
    Delivers (ColumnChain.read .float rd) sampled (.new ids iters) (labelled ids xss) := by
  refine .coinduct (ColumnChain.Left rd) ?_ ⟨hids, xss, h, rfl⟩
  rintro st _ ⟨hids, xss, hall, rfl⟩ φ n hn
  have hfuel : xss.length < st.iters.length + 1 := by
    rw [← hall.length_eq, length_drop]
    omega
  obtain ⟨r, more, rest, hloop, hout, hitems, hlen, hleft, hstop⟩ := columnLoop_spec
    (st.iters.length + 1) φ st .noData (n / sampleSize) [] hids hall
    (Nat.div_pos (Nat.le_of_pred_lt hn) (by decide)) hfuel (.inr rfl)
  have hle := Nat.div_le_self n sampleSize
  rw [nil_append] at hout
  refine ⟨⟨r.status, _, r.next, r.env⟩, more, rest, ?_, hitems, rfl, ?_, hleft,
    hstop.imp (fun h => ⟨h.1, ?_⟩) fun h => ⟨h.1, h.2.1, ?_⟩⟩
  · rw [ColumnChain.read, SampleFormat.float, hloop, ← hout]
    rfl
  · rw [length_map]
    omega
  · simpa [← hout] using h.2
  · rw [length_map]
    omega

/-- Chaining. The operators fill the buffers they are given until they have no points left. Both
chains deliver all points of one operator after the other and then say `NoData`, whatever the sizes
of the buffers; the materializer with the id of its column for each point. -/
theorem chains_drain {rd : Reader Status Point σ Unit} (h : Forall₂ (Fills rd) iters xss)
    (hids : ids.length = iters.length) {sizes bytes : Nat → Nat} (hsizes : ∀ i, 0 < sizes i)
    (hbytes : ∀ i, sampleSize ≤ bytes i) (fuel : Nat) (hfuel : xss.flatten.length < fuel) :
    drain (chainRead rd) .ok fuel () (iters, 0) sizes = some (xss.flatten, .noData) ∧
      drain (ColumnChain.read .float rd) .ok fuel () (.new ids iters) bytes =
        some ((labelled ids xss).map fun x => ⟨x.2.ts, x.1, .float x.2.value⟩, .noData) := by
  have hchain := chainRead_delivers (h.imp fun _ _ => Fills.delivers)
  have hlen := congrArg length (labelled_snd (hids.trans h.length_eq))
  rw [length_map] at hlen
  refine ⟨hchain.drain_eq fuel () sizes hfuel hsizes, ?_⟩
  exact (ColumnChain.delivers h hids).drain_map (fun _ _ he => he) fuel () bytes (hlen ▸ hfuel)
    fun i _ => hbytes i

theorem chains_drain_two :
    let xss : List (List Point) := [[⟨1, 5⟩, ⟨2, 6⟩], [⟨1, 7⟩]]
    drain (chainRead listRead) .ok 4 () (xss, 0) (fun _ => 2) = some (xss.flatten, .noData) ∧
      drain (ColumnChain.read .float listRead) .ok 4 () (.new [3, 4] xss) (fun _ => 64) =
        some ((labelled [3, 4] xss).map fun x => ⟨x.2.ts, x.1, .float x.2.value⟩, .noData) := by
  exact chains_drain (forall₂_same.mpr fun xs _ => listRead_fills) rfl (fun _ => by decide)
    (fun _ => by decide) 4 (by decide)

end FastSTDB
