import FastSTDB.FillOrder

/-
  The expandable store — volumes in a row

  The volume `g` has the generation `g`. The volumes are filled one after the other,
  and behind the last one a new one of the same size is added (`Shelf`). So nothing is
  ever reset, as long as the cursor is at the volume that is being filled.

  What is proved:
    1. `expandable_keeps` — over appends and reopenings every block stays where it is,
       if no volume has more than 2^20 blocks, writes succeed, and at each reopening
       some volume has free space or there is only one.
    2. `expandable_loses` — if all volumes are full, the constructor puts the cursor at
       the first one. The next append moves to the second, resets it and gives it a
       generation under which nothing is found.
-/
namespace FastSTDB
open List Option Segments FileStorage StoreOp

namespace ExpandableFileStorage

/-- The capacity of the volume `g`: later volumes are as large as the last one. -/
def shelfCap (capacities : List Nat) (g : Nat) : Nat :=
  capacities.getD (min g (capacities.length - 1)) 0

abbrev shelf (capacities : List Nat) : Layout where
  cap := shelfCap capacities
  slot g := g
  cap_eq h := congrArg _ h

/-! ## The row of volumes -/

structure Shelf (capacities : List Nat) (c : Fill) (vols : List VolumeState) : Prop where
  length : vols.length = max capacities.length (c.seg + 1)
  volumes : AllUpTo (shelf capacities) c vols

variable {capacities : List Nat} {c : Fill} {vols : List VolumeState} {s : VolumeState} {i : Nat}
  {data : Scatter.IOVecBlock}

theorem Shelf.capacity (h : Shelf capacities c vols) (hs : vols[i]? = some s) :
    s.capacity = shelfCap capacities i :=
  (h.volumes i s hs).capacity.trans (congrArg _ (h.volumes i s hs).slot)

theorem Shelf.volume (h : Shelf capacities c vols) : ∃ s, vols[c.seg]? = some s := by
  have hlt : c.seg < vols.length := by
    rw [h.length]
    omega
  exact ⟨_, getElem?_eq_getElem hlt⟩

theorem Shelf.shelfCap_pos (h : Shelf capacities c vols) (g : Nat) : 0 < shelfCap capacities g := by
  -- as large as the last one, or as one before it
  have hlen := h.length
  have hlt : min g (vols.length - 1) < vols.length := by omega
  have hs := getElem?_eq_getElem hlt
  have hsame : shelfCap capacities g = shelfCap capacities (min g (vols.length - 1)) := by
    rw [shelfCap]
    congr 1
    omega
  rw [hsame, ← h.capacity hs]
  exact (h.volumes _ _ hs).sized.pos

/-- The volumes with the one the next block goes to. -/
def grown (capacities : List Nat) (c : Fill) (vols : List VolumeState) : List VolumeState :=
  if vols.length ≤ (c.place (shelfCap capacities)).1 then
    vols ++ [⟨shelfCap capacities c.seg, 0, c.seg + 1,
      (VolumeFile.create (shelfCap capacities c.seg)).block⟩]
  else vols

theorem grown_eq (hlt : (c.place (shelfCap capacities)).1 < vols.length) :
    grown capacities c vols = vols := by rw [grown, if_neg (not_le.mpr hlt)]

theorem Shelf.grown_spec (h : Shelf capacities c vols) : (grown capacities c vols).length =
        max capacities.length ((c.place (shelfCap capacities)).1 + 1) ∧
      AllUpTo (shelf capacities) c (grown capacities c vols) := by
  have hlen := h.length
  by_cases hlt : (c.place (shelfCap capacities)).1 < vols.length
  · rw [grown_eq hlt]
    refine ⟨?_, h.volumes⟩
    rcases c.place_cases (shelfCap capacities) with ⟨-, hplace⟩ | ⟨-, hplace⟩ <;>
      rw [hplace] at hlt ⊢
    · exact hlen
    · omega
  · -- the volume that is being filled is the last one, and full
    have hfull : shelfCap capacities c.seg ≤ c.used := by
      by_contra hroom
      rw [Fill.place_of_room (not_le.mp hroom)] at hlt
      omega
    rw [Fill.place_of_full hfull] at hlt ⊢
    have heq : vols.length = c.seg + 1 := by omega
    have hgrown : grown capacities c vols = vols ++ [⟨shelfCap capacities c.seg, 0, c.seg + 1,
        (VolumeFile.create (shelfCap capacities c.seg)).block⟩] := by
      rw [grown, Fill.place_of_full hfull, if_pos (not_lt.mp hlt)]
    rw [hgrown]
    refine ⟨by rw [length_append, length_singleton]; omega, ?_⟩
    intro i s hs
    rcases lt_or_ge i vols.length with hi | hi
    · rw [getElem?_append_left hi] at hs
      exact h.volumes i s hs
    · rw [getElem?_append_right hi] at hs
      have hi' : i = c.seg + 1 := by
        have := lt_of_getElem? hs
        simp only [length_singleton] at this
        omega
      subst hi'
      rw [heq, Nat.sub_self] at hs
      cases hs
      obtain ⟨s0, hs0⟩ := h.volume
      have hcap := h.capacity hs0
      have hsized := (h.volumes _ s0 hs0).sized
      refine ⟨rfl, ?_, ⟨hcap ▸ hsized.pos, hcap ▸ hsized.lt, zero_le⟩,
        fun hlt' => absurd hlt' (by simp), fun heq' => absurd heq' (by simp), fun _ => rfl⟩
      show shelfCap capacities c.seg = shelfCap capacities (c.seg + 1)
      rw [shelfCap]
      congr 1
      omega

/-- The volume the next block goes to, and what it is used for. -/
theorem Shelf.next (h : Shelf capacities c vols) :
    ∃ s, (grown capacities c vols)[(c.place (shelfCap capacities)).1]? = some s ∧
      s.UpTo (shelf capacities) c (c.place (shelfCap capacities)).1 ∧
      s.used = (c.place (shelfCap capacities)).2 := by
  have hlt : (c.place (shelfCap capacities)).1 < (grown capacities c vols).length := by
    rw [h.grown_spec.1]
    omega
  have hs := getElem?_eq_getElem hlt
  have hin := h.grown_spec.2 _ _ hs
  refine ⟨_, hs, hin, ?_⟩
  rcases c.place_cases (shelfCap capacities) with ⟨-, hplace⟩ | ⟨-, hplace⟩ <;>
    simp only [hplace] at hin ⊢
  · exact hin.current hin.slot
  · exact hin.unused ((lt_add_one _).trans_eq hin.slot.symm)

theorem grown_of_getElem? (capacities : List Nat) (c : Fill) (hs : vols[i]? = some s) :
    (grown capacities c vols)[i]? = some s := by
  rw [grown]
  split
  · rw [getElem?_append_left (lt_of_getElem? hs), hs]
  · exact hs

theorem Shelf.kept (h : Shelf capacities c vols) (data : Scatter.IOVecBlock) :
    Shelf capacities (c.advance (shelfCap capacities))
      (written (shelf capacities) c data (grown capacities c vols)) :=
  ⟨length_written.trans h.grown_spec.1, h.grown_spec.2.written data⟩

theorem Shelf.adjust (h : Shelf capacities c vols) (hfull : shelfCap capacities c.seg ≤ c.used)
    (gen : Nat) : adjustCurrentVolume (ofVolumes vols c.seg gen) =
      some (ofVolumes (grown capacities c vols) (c.seg + 1) gen) := by
  rw [grown, Fill.place_of_full hfull]
  by_cases hlast : vols.length ≤ c.seg + 1
  · obtain ⟨s, hs⟩ := h.volume
    have hlen : vols.length = c.seg + 1 := by
      have := h.length
      omega
    rw [if_pos hlast, ← h.capacity hs]
    exact adjustCurrentVolume_last hs (h.volumes _ s hs).sized.pos hlen
  · rw [if_neg hlast]
    exact adjustCurrentVolume_next (not_le.mp hlast)

theorem Shelf.append (h : Shelf capacities c vols) {volume gen : Nat}
    (hcur : AtCursor (shelf capacities) c vols volume gen) (data : Scatter.IOVecBlock) :
    appendBlock .done data (ofVolumes vols volume gen) =
      some ((.ok, placeAddr (c.place (shelfCap capacities))),
        ofVolumes (written (shelf capacities) c data (grown capacities c vols))
          (c.place (shelfCap capacities)).1 (c.place (shelfCap capacities)).1) := by
  obtain ⟨s, hs, hin, hu⟩ := h.next
  refine hcur.append hs hin (fun hroom => ?_) (fun hfull => ⟨?_, h.adjust hfull, ?_⟩)
    (fun hnext => ⟨rfl, grown_eq ?_, hin.slot⟩) data
  · have hplace := Fill.place_of_room hroom
    refine ⟨grown_eq ?_, by rw [hplace] at hin; exact hin.slot⟩
    rw [hplace, h.length]
    omega
  · obtain ⟨s0, hs0⟩ := h.volume
    have hin0 := h.volumes _ s0 hs0
    exact ⟨s0, hs0, (hin0.used_eq hfull hin0.slot.le).symm.le⟩
  · rw [Fill.place_of_full hfull] at hin hu
    have hg : s.generation = c.seg + 1 := hin.slot
    have hu : s.used = 0 := hu
    rw [VolumeState.begun, if_pos hu, ← hg, ← hu]
  · rcases c.place_cases (shelfCap capacities) with ⟨-, hplace⟩ | ⟨-, hplace⟩ <;> rw [hplace]
    · exact (lt_add_one _).trans hnext
    · exact hnext

/-! ## Nothing is lost -/

/-- Volumes are only added: each of them stays, with its generation, and none of its
blocks goes away. -/
def Grows (vols vols' : List VolumeState) : Prop :=
  ∀ (i : Nat) (s : VolumeState), vols[i]? = some s →
    ∃ s' : VolumeState, vols'[i]? = some s' ∧ s'.generation = s.generation ∧ s.used ≤ s'.used

theorem Grows.refl (vols : List VolumeState) : Grows vols vols :=
  fun _ s hs => ⟨s, hs, rfl, le_rfl⟩

theorem Grows.trans {vols' vols'' : List VolumeState} (h : Grows vols vols')
    (h' : Grows vols' vols'') : Grows vols vols'' := by
  intro i s hs
  obtain ⟨s', hs', hg, hu⟩ := h i s hs
  obtain ⟨s'', hs'', hg', hu'⟩ := h' i s' hs'
  exact ⟨s'', hs'', hg'.trans hg, hu.trans hu'⟩

theorem Shelf.grows (h : Shelf capacities c vols) (data : Scatter.IOVecBlock) :
    Grows vols (written (shelf capacities) c data (grown capacities c vols)) := by
  intro i s hs
  have hs' := grown_of_getElem? capacities c hs
  by_cases hi : (c.place (shelfCap capacities)).1 = i
  · subst hi
    obtain ⟨t, ht, hin, hu⟩ := h.next
    cases hs'.symm.trans ht
    exact ⟨_, written_self data rfl ht, hin.slot.symm, hu.le.trans (Nat.le_succ _)⟩
  · exact ⟨s, (written_other data _ hi).trans hs', rfl, le_rfl⟩

theorem Shelf.present (h : Shelf capacities c vols) (hsmall : ∀ g, shelfCap capacities g ≤ 2 ^ 20)
    {p : Nat × Nat} (hp : Present (shelf capacities) p data vols) (data' : Scatter.IOVecBlock) :
    Present (shelf capacities) p data
      (written (shelf capacities) c data' (grown capacities c vols)) := by
  obtain ⟨s, hs, hg, hlt, hblock⟩ := hp
  have hs' := grown_of_getElem? capacities c hs
  refine Present.kept ⟨s, hs', hg, hlt, hblock⟩
    ((c.place_lt (h.shelfCap_pos _)).trans_le (hsmall _)) (fun hi => ⟨hi.symm, ?_⟩) data'
  obtain ⟨t, ht, -, hu⟩ := h.next
  rw [show (c.place (shelfCap capacities)).1 = p.1 from hi] at ht
  cases hs'.symm.trans ht
  exact hlt.trans_eq hu

theorem Grows.getGeneration {vols' : List VolumeState} (h : Grows vols vols') {v : Nat}
    (hv : v < vols.length) (volume gen volume' gen' : Nat) :
    (ofVolumes vols' volume' gen').metaVolume.getGeneration v =
        (ofVolumes vols volume gen).metaVolume.getGeneration v ∧
      ((ofVolumes vols volume gen).metaVolume.getNblocks v).2 ≤
        ((ofVolumes vols' volume' gen').metaVolume.getNblocks v).2 := by
  have hs := getElem?_eq_getElem hv
  obtain ⟨s', hs', hg, hu⟩ := h v _ hs
  simp only [MetaVolume.getGeneration, MetaVolume.getNblocks, metaVolume_ofVolumes,
    getField_metaOf _ hs, getField_metaOf _ hs']
  exact ⟨congrArg (Status.ok, ·) hg, hu⟩

theorem Shelf.reopened (h : Shelf capacities c vols) {volume gen : Nat}
    (hresume : resumes (ofVolumes vols volume gen) = true) :
    AtCursor (shelf capacities) c vols (firstFree vols 0).1 (firstFree vols 0).2 := by
  obtain ⟨s0, hs0⟩ := h.volume
  refine h.volumes.firstFree (fun _ _ => rfl) ⟨s0, hs0, (h.volumes _ s0 hs0).slot⟩
    (fun i s hs _ => (h.volumes i s hs).slot) (fun hfull => ?_)
  -- all volumes are full: there is only one
  have hone : vols.length = 1 := by
    rw [resumes, hasRoom_of_full hfull, length_volumes] at hresume
    exact beq_iff_eq.mp hresume
  have hlen := h.length
  have hseg : 0 = c.seg := by omega
  exact .inl ⟨hseg, .inl hseg⟩

theorem Shelf.run (ops : List StoreOp) {volume gen : Nat}
    (h : Shelf capacities c vols) (hcur : AtCursor (shelf capacities) c vols volume gen)
    (hsafe : everyStep appendBlock (safe resumes) ops (ofVolumes vols volume gen) = true) :
    ∃ results c' vols' volume' gen', runStore appendBlock ops (ofVolumes vols volume gen) =
      some (results, ofVolumes vols' volume' gen') ∧
    Shelf capacities c' vols' ∧ AtCursor (shelf capacities) c' vols' volume' gen' ∧ Grows vols vols' ∧
    ((∀ g, shelfCap capacities g ≤ 2 ^ 20) → ∀ p data,
      Present (shelf capacities) p data vols → Present (shelf capacities) p data vols') := by
  induction ops generalizing c vols volume gen with
  | nil => exact ⟨[], c, vols, volume, gen, rfl, h, hcur, .refl vols, fun _ _ _ hp => hp⟩
  | cons op ops ih =>
    rw [everyStep, Bool.and_eq_true] at hsafe
    obtain ⟨hop, hrest⟩ := hsafe
    cases op with
    | append io data =>
      obtain rfl := safe_append hop
      have happ := h.append hcur data
      simp only [step, happ] at hrest
      obtain ⟨results, c', vols', volume', gen', hrun, h', hcur', hgrows, hpresent⟩ :=
        ih (h.kept data) (atCursor_advance c _) hrest
      refine ⟨(.ok, placeAddr (c.place (shelfCap capacities))) :: results, c', vols', volume', gen',
        ?_, h', hcur', (h.grows data).trans hgrows, ?_⟩
      · simp only [runStore, step, happ, map_some, bind_some, hrun]
        rfl
      · intro hsmall p data' hp
        exact hpresent hsmall p data' (h.present hsmall hp data)
    | flush =>
      rw [runStore_silent rfl]
      exact ih h hcur hrest
    | reopen =>
      have hstep := reopen_ofVolumes volume gen (fun i s hi => (h.volumes i s hi).sized) appendBlock
      rw [hstep] at hrest
      rw [runStore_silent hstep]
      exact ih h (h.reopened hop) hrest

theorem shelf_new (hne : capacities ≠ []) (hcap : ∀ c ∈ capacities, 0 < c ∧ c < 2 ^ 32) :
    Shelf capacities ⟨0, 0⟩ (newVolumes capacities) := by
  have hpos := length_pos_of_ne_nil hne
  refine ⟨?_, ?_⟩
  · rw [newVolumes, length_mapIdx]
    exact (max_eq_left hpos).symm
  · intro i s hs
    have hsized := newVolumes_sized hcap s (mem_of_getElem? hs)
    obtain ⟨c, hc, rfl⟩ := newVolumes_getElem? hs
    have hlt : i < capacities.length := lt_of_getElem? hc
    refine ⟨rfl, ?_, hsized, fun h => absurd h (Nat.not_lt_zero _), fun _ => rfl, fun _ => rfl⟩
    show c = shelfCap capacities i
    rw [shelfCap, min_eq_left (Nat.le_sub_one_of_lt hlt), getD_eq_getElem?_getD, hc]
    rfl

end ExpandableFileStorage

open ExpandableFileStorage in
/-- A block is appended somewhere in a run of appends and reopenings. It can be read
back at the end of the run; the volumes there were are still there, with their
generations and at least as many blocks. -/
theorem expandable_keeps {capacities : List Nat} {fs₀ : FileStorage}
    (hcreate : create capacities = some fs₀) (hne : capacities ≠ [])
    (hsmall : ∀ c ∈ capacities, c ≤ 2 ^ 20) (ops₁ ops₂ : List StoreOp) (io : WriteOutcome)
    (data : Scatter.IOVecBlock) (hsplit : data.Split)
    (hsafe : everyStep appendBlock (safe resumes) (ops₁ ++ .append io data :: ops₂) fs₀ = true) :
    ∃ results₁ fs₁ addr fs₂ results₂ fs₃,
      runStore appendBlock ops₁ fs₀ = some (results₁, fs₁) ∧
      appendBlock io data fs₁ = some ((.ok, addr), fs₂) ∧
      runStore appendBlock ops₂ fs₂ = some (results₂, fs₃) ∧
      contains fs₃ addr = true ∧ readIovecBlock fs₃ addr = some (.ok, some data.contiguous) ∧
      ∀ v < fs₂.volumes.length,
        fs₃.metaVolume.getGeneration v = fs₂.metaVolume.getGeneration v ∧
        (fs₂.metaVolume.getNblocks v).2 ≤ (fs₃.metaVolume.getNblocks v).2 := by
  obtain ⟨hcap, rfl⟩ := create_inv hcreate fun c hc =>
    (hsmall c hc).trans_lt (by decide)
  -- the steps before
  obtain ⟨results₁, c, vols1, volume1, gen1, hrun1, h1, hcur1, -⟩ := Shelf.run ops₁
    (shelf_new hne hcap) (.inl ⟨rfl, .inl rfl⟩) (everyStep_left hsafe)
  have hsafe1 := everyStep_right hsafe hrun1
  rw [everyStep, Bool.and_eq_true] at hsafe1
  obtain ⟨hop, hsafe2⟩ := hsafe1
  obtain rfl := safe_append hop
  -- the append, and the steps after
  have happ := h1.append hcur1 data
  simp only [StoreOp.step, happ, map_some] at hsafe2
  obtain ⟨results₂, -, vols2, volume2, gen2, hrun2, -, -, hgrows, hpresent⟩ := Shelf.run ops₂
    (h1.kept data) (atCursor_advance c _) hsafe2
  have hplace : (c.place (shelfCap capacities)).2 < 2 ^ 32 :=
    ((c.place_lt (h1.shelfCap_pos _)).trans_le (getD_le hsmall _)).trans (by decide)
  obtain ⟨s, hs, -⟩ := h1.next
  have hread := (hpresent (fun _ => getD_le hsmall _) _ data (present_written data hs)).read hplace
    volume2 gen2
  rw [hsplit.ofBytes_iovecs] at hread
  refine ⟨results₁, _, placeAddr (c.place (shelfCap capacities)), _, results₂, _, hrun1, happ, hrun2,
    hread.1, hread.2, ?_⟩
  intro v hv
  rw [length_volumes] at hv
  exact hgrows.getGeneration hv _ _ _ _

open ExpandableFileStorage in
theorem expandable_keeps_one : ∃ fs₀ results₁ fs₁ addr fs₂ results₂ fs₃, create [1] = some fs₀ ∧
    everyStep appendBlock (safe resumes) ([.append .done zeroBlock, .reopen] ++
      .append .done oneBlock :: [.append .done zeroBlock]) fs₀ = true ∧
    runStore appendBlock [.append .done zeroBlock, .reopen] fs₀ = some (results₁, fs₁) ∧
    appendBlock .done oneBlock fs₁ = some ((.ok, addr), fs₂) ∧
    runStore appendBlock [.append .done zeroBlock] fs₂ = some (results₂, fs₃) ∧
    readIovecBlock fs₃ addr = some (.ok, some oneBlock.contiguous) := by
  have hcreate : create [1] = some (ofVolumes (newVolumes [1]) 0 0) := create_eq (by decide)
  have hsafe : everyStep appendBlock (safe resumes) ([.append .done zeroBlock, .reopen] ++
      .append .done oneBlock :: [.append .done zeroBlock]) (ofVolumes (newVolumes [1]) 0 0) =
      true := by decide +kernel
  obtain ⟨results₁, fs₁, addr, fs₂, results₂, fs₃, h1, happ, h2, -, hread, -⟩ :=
    expandable_keeps hcreate (by decide) (by decide) _ _ _ oneBlock oneBlock_split hsafe
  exact ⟨_, results₁, fs₁, addr, fs₂, results₂, fs₃, hcreate, hsafe, h1, happ, h2, hread⟩

open ExpandableFileStorage in
/-- One volume of one block, and a second that was added, both full. After a reopening
the next append resets the second one: its block is lost, and the new block is not
found at the address that was returned. -/
theorem expandable_loses :
    ((create [1]).bind (runStore appendBlock [.append .done zeroBlock, .append .done zeroBlock,
      .reopen, .append .done zeroBlock])).map (fun (results, fs) =>
        (results, results.map fun r => contains fs r.2)) =
      some ([(.ok, makeLogic 0 0), (.ok, makeLogic 1 0), (.ok, makeLogic 3 0)],
        [true, false, false]) := by
  decide +kernel

end FastSTDB
