import FastSTDB.FillOrder

/-
  The fixed-size store — a ring of volumes

  The generations are filled one after the other, and generation `g` lives in the
  volume `g % n`. So the volumes hold the newest `n` generations, and moving on takes
  the volume with the oldest (`Ring`).

  What is proved:
    1. `address_stability` — all addresses are different, and each reads back its
       block until its volume is recycled, and is unavailable afterwards, if no
       volume has more than 2^20 blocks. With more, the offset in the file wraps
       around (`address_aliased`).
    2. `reopen_same` — reopening changes neither the addresses nor what can be read,
       if at each reopening some volume has free space or the cursor is at the first
       volume. Otherwise the constructor puts the cursor at the first volume all the
       same (`reopen_skips`).
-/
namespace FastSTDB
open List Option Segments FileStorage VolumeState Fill

variable {i gen volume' gen' : Nat} {p : Nat × Nat}

/-! ## Runs -/

/-- The volumes whose generation a call has changed. -/
def recycledVolumes (before after : FileStorage) : List Nat :=
  (List.range before.volumes.length).filter fun v =>
    decide ((after.metaVolume.getGeneration v).2 ≠ (before.metaVolume.getGeneration v).2)

namespace FixedSizeFileStorage

/-- Successful calls: the addresses, the recycled volumes, and the store. -/
def appendAll : List (WriteOutcome × Scatter.IOVecBlock) → FileStorage →
    Option (List LogicAddr × List Nat × FileStorage)
  | [], fs => some ([], [], fs)
  | w :: ws, fs =>
    (appendBlock w.1 w.2 fs).bind fun ((status, addr), fs') =>
      if status = .ok then
        (appendAll ws fs').map fun (addrs, recycled, fs'') =>
          (addr :: addrs, recycledVolumes fs fs' ++ recycled, fs'')
      else none

/-- The capacity of the volume of a generation. -/
def ringCap (capacities : List Nat) (g : Nat) : Nat := capacities.getD (g % capacities.length) 0

abbrev ring (capacities : List Nat) : Layout where
  cap := ringCap capacities
  slot g := g % capacities.length
  cap_eq h := by rw [ringCap, ringCap, h]

/-! ## The ring -/

section
variable (capacities : List Nat)

/-- The volume `i` when the generations are filled up to `c`. -/
structure InRing (c : Fill) (i : Nat) (s : VolumeState) : Prop
    extends s.UpTo (ring capacities) c i where
  recent : c.seg < s.generation + capacities.length
  begun : s.generation ≤ c.seg ∨ s.generation = i

structure Ring (c : Fill) (vols : List VolumeState) : Prop where
  length : vols.length = capacities.length
  volumes : ∀ i s, vols[i]? = some s → InRing capacities c i s

end

variable {capacities : List Nat} {c : Fill} {vols : List VolumeState} {s : VolumeState}

theorem InRing.residue (h : InRing capacities c i s) : s.generation % capacities.length = i :=
  h.slot

theorem InRing.generation (h : InRing capacities c (c.seg % capacities.length) s) :
    s.generation = c.seg := by
  apply eq_of_mod_eq h.residue _ h.recent
  have hpos := h.recent
  rcases h.begun with hle | heq
  · omega
  · have := Nat.mod_le c.seg capacities.length
    omega

/-- The volume of the next generation has never been used, or holds the oldest one. -/
theorem InRing.next (h : InRing capacities c ((c.seg + 1) % capacities.length) s)
    (hfull : ringCap capacities c.seg ≤ c.used) : s.generation = c.seg + 1 ∧ s.used = 0 ∨
      s.generation + capacities.length = c.seg + 1 ∧ s.used = s.capacity := by
  have hrec := h.recent
  by_cases hle : s.generation ≤ c.seg
  · refine .inr ⟨?_, h.used_eq hfull hle⟩
    apply eq_of_mod_eq
    · rw [Nat.add_mod_right, h.residue]
    · omega
    · omega
  · have hgt : c.seg < s.generation := not_le.mp hle
    refine .inl ⟨?_, h.unused hgt⟩
    have heq := h.begun.resolve_left hle
    have := Nat.mod_le (c.seg + 1) capacities.length
    omega

theorem Ring.allUpTo (h : Ring capacities c vols) : AllUpTo (ring capacities) c vols :=
  fun i s hs => (h.volumes i s hs).toUpTo

section
variable (h : Ring capacities c vols) (hne : capacities ≠ [])
include h hne

theorem Ring.volume (g : Nat) : ∃ s, vols[g % capacities.length]? = some s := by
  have hlt : g % capacities.length < vols.length := by
    rw [h.length]
    exact Nat.mod_lt _ (length_pos_of_ne_nil hne)
  exact ⟨_, getElem?_eq_getElem hlt⟩

theorem Ring.ringCap_pos (g : Nat) : 0 < ringCap capacities g := by
  obtain ⟨s, hs⟩ := h.volume hne g
  have hin := h.volumes _ s hs
  exact (hin.sized.pos.trans_eq hin.capacity).trans_eq ((ring capacities).cap_eq hin.slot)

theorem Ring.kept (data : Scatter.IOVecBlock) :
    Ring capacities (c.advance (ringCap capacities)) (written (ring capacities) c data vols) := by
  refine ⟨length_written.trans h.length, fun i s hs => ⟨?_, ?_, ?_⟩⟩
  · exact h.allUpTo.written data i s hs
  · rcases written_cases hs with ⟨-, s', -, rfl⟩ | ⟨hi, hs'⟩
    · exact Nat.lt_add_of_pos_right (length_pos_of_ne_nil hne)
    · have hin := h.volumes i s hs'
      have hrec := hin.recent
      have hi : (c.place (ringCap capacities)).1 % capacities.length ≠ i := hi
      rw [advance]
      rcases c.place_cases (ringCap capacities) with ⟨-, hplace⟩ | ⟨-, hplace⟩ <;>
        rw [hplace] at hi ⊢
      · exact hrec
      · have hne : c.seg + 1 ≠ s.generation + capacities.length := by
          intro heq
          apply hi
          rw [heq, Nat.add_mod_right, hin.residue]
        show c.seg + 1 < _
        omega
  · rcases written_cases hs with ⟨-, s', -, rfl⟩ | ⟨-, hs'⟩
    · exact .inl le_rfl
    · exact (h.volumes i s hs').begun.imp_left fun hle => hle.trans (c.seg_le_place _)

variable {volume : Nat}

theorem Ring.append (hcur : AtCursor (ring capacities) c vols volume gen)
    (hgen : (c.place (ringCap capacities)).1 < 2 ^ 32) (data : Scatter.IOVecBlock) :
    appendBlock .done data (ofVolumes vols volume gen) =
      some ((.ok, placeAddr (c.place (ringCap capacities))),
        ofVolumes (written (ring capacities) c data vols)
          ((c.place (ringCap capacities)).1 % capacities.length)
          (c.place (ringCap capacities)).1) := by
  obtain ⟨s, hs⟩ := h.volume hne (c.place (ringCap capacities)).1
  have hin := h.volumes _ s hs
  refine hcur.append hs hin.toUpTo (fun hroom => ⟨rfl, ?_⟩) (fun hfull => ⟨?_, ?_, ?_⟩)
    (fun hlt => ?_) data
  · rw [place_of_room hroom] at hin
    exact hin.generation
  · obtain ⟨s0, hs0⟩ := h.volume hne c.seg
    have hin0 := h.volumes _ s0 hs0
    exact ⟨s0, hs0, (hin0.used_eq hfull hin0.generation.le).symm.le⟩
  · intro gen
    rw [adjustCurrentVolume, length_volumes, h.length]
    show some { ofVolumes vols _ gen with
      currentVolume := (c.seg % capacities.length + 1) % capacities.length } = _
    rw [Nat.mod_add_mod]
    rfl
  · rw [place_of_full hfull] at hin hgen
    rcases hin.next hfull with ⟨hg, hu⟩ | ⟨hg, hu⟩
    · rw [begun, if_pos hu, ← hg, ← hu]
    · have hused : s.used ≠ 0 := by
        rw [hu]
        exact hin.sized.pos.ne'
      rw [begun, if_neg hused, h.length, hg, u32_eq hgen]
  · rw [h.length] at hlt
    have hmod : (c.seg + 1) % capacities.length = c.seg + 1 := Nat.mod_eq_of_lt hlt
    refine ⟨hmod, rfl, ?_⟩
    show s.generation = (c.place (ringCap capacities)).1
    rcases c.place_cases (ringCap capacities) with ⟨-, hplace⟩ | ⟨hfull, hplace⟩ <;>
      rw [hplace] at hin ⊢
    · exact hin.generation
    · rcases hin.next hfull with ⟨hg, -⟩ | ⟨hold, -⟩
      · exact hg
      · omega

end

variable {volume : Nat}

/-! ## Stable addresses -/

/-- The volume of the place `p` has a later generation. -/
def Gone (capacities : List Nat) (p : Nat × Nat) (vols : List VolumeState) : Prop :=
  ∃ s, vols[p.1 % capacities.length]? = some s ∧ p.1 < s.generation

theorem mem_recycledVolumes {vols' : List VolumeState} {s' : VolumeState}
    (h : vols[i]? = some s) (h' : vols'[i]? = some s') :
    i ∈ recycledVolumes (ofVolumes vols volume gen) (ofVolumes vols' volume' gen') ↔
      s'.generation ≠ s.generation := by
  have hi : i < (ofVolumes vols volume gen).volumes.length := by
    rw [length_volumes]
    exact lt_of_getElem? h
  simp only [recycledVolumes, mem_filter, mem_range, hi, true_and, decide_eq_true_iff,
    MetaVolume.getGeneration, metaVolume_ofVolumes, getField_metaOf _ h, getField_metaOf _ h']
  rfl

variable {data : Scatter.IOVecBlock}

theorem present_or_gone (hring : Ring capacities c vols) (hne : capacities ≠ [])
    (hsmall : ∀ g, ringCap capacities g ≤ 2 ^ 20) (ht : c.Taken p)
    (h : Present (ring capacities) p data vols) (data' : Scatter.IOVecBlock)
    (volume gen volume' gen' : Nat) :
    (p.1 % capacities.length ∉ recycledVolumes (ofVolumes vols volume gen)
        (ofVolumes (written (ring capacities) c data' vols) volume' gen') ∧
      Present (ring capacities) p data (written (ring capacities) c data' vols)) ∨
    (p.1 % capacities.length ∈ recycledVolumes (ofVolumes vols volume gen)
        (ofVolumes (written (ring capacities) c data' vols) volume' gen') ∧
      Gone capacities p (written (ring capacities) c data' vols)) := by
  have hlt := (c.place_lt (hring.ringCap_pos hne _)).trans_le (hsmall _)
  obtain ⟨s, hs, hg, -⟩ := id h
  by_cases hi : (c.place (ringCap capacities)).1 % capacities.length = p.1 % capacities.length
  · have hs' := written_self (L := ring capacities) data' hi hs
    rcases ht.lt_place (ringCap capacities) with hnew | ⟨heq, hidx⟩
    · -- a later generation in the same volume
      refine .inr ⟨?_, _, hs', hnew⟩
      rw [mem_recycledVolumes hs hs', hg]
      exact hnew.ne'
    · -- the same generation: another index, and so another offset
      refine .inl ⟨?_, h.kept hlt (fun _ => ⟨heq, hidx⟩) data'⟩
      rw [mem_recycledVolumes hs hs', hg]
      exact not_not.mpr heq.symm
  · refine .inl ⟨?_, h.kept hlt (fun heq => absurd heq hi) data'⟩
    rw [mem_recycledVolumes hs ((written_other data' vols hi).trans hs)]
    exact not_not.mpr rfl

theorem Gone.step (hring : Ring capacities c vols) (ht : c.Taken p) (h : Gone capacities p vols)
    (data : Scatter.IOVecBlock) : Gone capacities p (written (ring capacities) c data vols) := by
  obtain ⟨s, hs, hlt⟩ := h
  by_cases hi : (c.place (ringCap capacities)).1 % capacities.length = p.1 % capacities.length
  · refine ⟨_, written_self data hi hs, ?_⟩
    rcases ht.lt_place (ringCap capacities) with hnew | ⟨heq, hidx⟩
    · exact hnew
    · -- the generation that is being filled is not gone
      have hseg : c.seg = p.1 := by
        rcases c.place_cases (ringCap capacities) with ⟨-, hplace⟩ | ⟨-, hplace⟩
        · rw [heq, hplace]
        · rw [hplace] at hidx
          omega
      rw [← hseg] at hs hlt
      have := (hring.volumes _ s hs).generation
      omega
  · refine ⟨s, ?_, hlt⟩
    rw [written_other data vols hi, hs]

theorem Ring.oldest (h : Ring capacities c vols) {j : Nat} {t : VolumeState}
    (data : Scatter.IOVecBlock)
    (hi : i ∈ recycledVolumes (ofVolumes vols volume gen)
      (ofVolumes (written (ring capacities) c data vols) volume' gen'))
    (hs : vols[i]? = some s) (ht : vols[j]? = some t) : s.generation ≤ t.generation := by
  by_cases hp : (c.place (ringCap capacities)).1 % capacities.length = i
  · subst hp
    have hin := h.volumes _ s hs
    have hne : (c.place (ringCap capacities)).1 ≠ s.generation :=
      (mem_recycledVolumes hs (written_self data rfl hs)).mp hi
    rcases c.place_cases (ringCap capacities) with ⟨-, hplace⟩ | ⟨hfull, hplace⟩ <;>
      rw [hplace] at hin hne
    · exact absurd hin.generation.symm hne
    · rcases hin.next hfull with ⟨hg, -⟩ | ⟨hg, -⟩
      · exact absurd hg.symm hne
      · have := (h.volumes j t ht).recent
        omega
  · have hs' := written_other (L := ring capacities) data vols hp
    rw [hs] at hs'
    exact absurd rfl ((mem_recycledVolumes hs hs').mp hi)

theorem Ring.oldest_generation (h : Ring capacities c vols) {v u : Nat} (data : Scatter.IOVecBlock)
    (hv : v ∈ recycledVolumes (ofVolumes vols volume gen)
      (ofVolumes (written (ring capacities) c data vols) volume' gen'))
    (hu : u < capacities.length) : ((ofVolumes vols volume gen).metaVolume.getGeneration v).2 ≤
      ((ofVolumes vols volume gen).metaVolume.getGeneration u).2 := by
  have hv' : v < vols.length := by
    rw [← length_volumes]
    exact mem_range.mp (mem_filter.mp hv).1
  have hsv := getElem?_eq_getElem hv'
  have hsu := getElem?_eq_getElem (hu.trans_eq h.length.symm)
  simp only [MetaVolume.getGeneration, metaVolume_ofVolumes, getField_metaOf _ hsv,
    getField_metaOf _ hsu]
  exact h.oldest data hv hsv hsu

/-- A run of appends: the addresses are the next places, and a block that was written
before is present until its volume is recycled. -/
theorem Ring.run (hne : capacities ≠ []) (ws : List (WriteOutcome × Scatter.IOVecBlock))
    (h : Ring capacities c vols)
    (hcur : AtCursor (ring capacities) c vols volume gen) (hdone : ∀ w ∈ ws, w.1 = .done)
    (hgen : ∀ p ∈ Fill.places (ringCap capacities) ws.length c, p.1 < 2 ^ 32) :
    ∃ recycled vols' volume' gen', appendAll ws (ofVolumes vols volume gen) =
      some ((Fill.places (ringCap capacities) ws.length c).map placeAddr, recycled,
        ofVolumes vols' volume' gen') ∧
    Ring capacities (.after (ringCap capacities) ws.length c) vols' ∧
    AtCursor (ring capacities) (.after (ringCap capacities) ws.length c) vols' volume' gen' ∧
    (∀ p, c.Taken p → Gone capacities p vols → Gone capacities p vols') ∧
    ((∀ g, ringCap capacities g ≤ 2 ^ 20) → ∀ p data, c.Taken p → Present (ring capacities) p data vols →
      (p.1 % capacities.length ∉ recycled → Present (ring capacities) p data vols') ∧
      (p.1 % capacities.length ∈ recycled → Gone capacities p vols')) := by
  induction ws generalizing c vols volume gen with
  | nil =>
    refine ⟨[], vols, volume, gen, rfl, h, hcur, fun _ _ hg => hg, ?_⟩
    intro _ p data _ hp
    exact ⟨fun _ => hp, fun hmem => (by cases hmem)⟩
  | cons w ws ih =>
    obtain ⟨hw, hdone⟩ := forall_mem_cons.mp hdone
    obtain ⟨hgen1, hgen⟩ := forall_mem_cons.mp hgen
    have happ := h.append hne hcur hgen1 w.2
    obtain ⟨recycled, vols', volume', gen', hrun, h', hcur', hgone, hpresent⟩ :=
      ih (h.kept hne w.2) (atCursor_advance c _) hdone hgen
    refine ⟨recycledVolumes (ofVolumes vols volume gen) (ofVolumes (written (ring capacities) c w.2 vols)
        ((c.place (ringCap capacities)).1 % capacities.length) (c.place (ringCap capacities)).1) ++
      recycled, vols', volume', gen', ?_, h', hcur', ?_, ?_⟩
    · rw [appendAll, hw, happ, bind_some]
      simp only [hrun]
      rfl
    · intro p ht hg
      exact hgone p (ht.advance _) (hg.step h ht w.2)
    · intro hsmall p data ht hp
      have hstep := present_or_gone h hne hsmall ht hp w.2 volume gen
        ((c.place (ringCap capacities)).1 % capacities.length) (c.place (ringCap capacities)).1
      rcases hstep with ⟨hnot, hp'⟩ | ⟨hmem, hg⟩
      · have := hpresent hsmall p data (ht.advance _) hp'
        rw [mem_append]
        exact ⟨fun hn => this.1 (fun hr => hn (.inr hr)), fun hr => this.2 (hr.resolve_left hnot)⟩
      · rw [mem_append]
        exact ⟨absurd (.inl hmem), fun _ => hgone p (ht.advance _) hg⟩

theorem read_of_present (hlen : vols.length = capacities.length) (hlt : p.2 < 2 ^ 32)
    (h : Present (ring capacities) p data vols) (volume gen : Nat) :
    contains (ofVolumes vols volume gen) (placeAddr p) = true ∧
      readIovecBlock (ofVolumes vols volume gen) (placeAddr p) =
        some (.ok, some (.ofBytes data.iovecs)) := by
  rw [contains, readIovecBlock, length_volumes, hlen]
  exact h.read hlt volume gen

theorem Gone.read (hlen : vols.length = capacities.length) (hlt : p.2 < 2 ^ 32)
    (h : Gone capacities p vols) (volume gen : Nat) :
    contains (ofVolumes vols volume gen) (placeAddr p) = false ∧
      readIovecBlock (ofVolumes vols volume gen) (placeAddr p) = some (.unavailable, none) := by
  obtain ⟨s, hs, hg⟩ := h
  have hne : s.generation ≠ p.1 := hg.ne'
  rw [contains, readIovecBlock, placeAddr, extractGen_makeLogic _ hlt, length_volumes, hlen,
    existsIn_ofVolumes hs hlt, readIn_ofVolumes hs hlt]
  simp [hne]

theorem ring_new (hne : capacities ≠ []) (hcap : ∀ c ∈ capacities, 0 < c ∧ c < 2 ^ 32) :
    Ring capacities ⟨0, 0⟩ (newVolumes capacities) := by
  refine ⟨length_mapIdx, ?_⟩
  intro i s hs
  have hsized := newVolumes_sized hcap s (mem_of_getElem? hs)
  obtain ⟨c, hc, rfl⟩ := newVolumes_getElem? hs
  have hlt : i < capacities.length := lt_of_getElem? hc
  have hmod : i % capacities.length = i := Nat.mod_eq_of_lt hlt
  refine ⟨⟨hmod, ?_, hsized, fun h => absurd h (Nat.not_lt_zero _), fun _ => rfl, fun _ => rfl⟩,
    Nat.add_pos_right _ (length_pos_of_ne_nil hne), .inr rfl⟩
  show c = capacities.getD (i % capacities.length) 0
  rw [hmod, getD_eq_getElem?_getD, hc]
  rfl

theorem atCursor_new : AtCursor (ring capacities) ⟨0, 0⟩ vols 0 0 :=
  .inl ⟨(Nat.zero_mod _).symm, .inl rfl⟩

theorem appendAll_append : ∀ (ws ws' : List (WriteOutcome × Scatter.IOVecBlock)) (fs : FileStorage),
    appendAll (ws ++ ws') fs = (appendAll ws fs).bind fun (addrs, recycled, fs) =>
      (appendAll ws' fs).map fun (addrs', recycled', fs) =>
        (addrs ++ addrs', recycled ++ recycled', fs)
  | [], ws', fs => by
    cases h : appendAll ws' fs <;> simp [appendAll]
  | w :: ws, ws', fs => by
    rw [cons_append, appendAll, appendAll]
    cases appendBlock w.1 w.2 fs with
    | none => rfl
    | some r =>
      obtain ⟨⟨status, addr⟩, fs'⟩ := r
      simp only [bind_some, appendAll_append ws ws' fs']
      by_cases hok : status = .ok
      · simp only [hok, if_true]
        cases appendAll ws fs' with
        | none => rfl
        | some r' =>
          obtain ⟨addrs, recycled, fs''⟩ := r'
          simp only [bind_some, map_some]
          cases appendAll ws' fs'' <;> simp
      · simp [hok]

theorem placeAddr_inj {q : Nat × Nat} (hp : p.2 < 2 ^ 32) (hq : q.2 < 2 ^ 32)
    (h : placeAddr p = placeAddr q) : p = q := by
  have h1 := congrArg extractGen h
  have h2 := congrArg extractVol h
  rw [placeAddr, placeAddr, extractGen_makeLogic _ hp, extractGen_makeLogic _ hq] at h1
  rw [placeAddr, placeAddr, extractVol_makeLogic _ hp, extractVol_makeLogic _ hq] at h2
  exact Prod.ext h1 h2

end FixedSizeFileStorage

open FixedSizeFileStorage in
/-- Blocks are written to a new store, `w` among them. Its address is different from
those before and after; it reads back `w` until a later call recycles the volume, and
is unavailable from then on. The call recycles the volume with the oldest generation,
if any. -/
theorem address_stability {capacities : List Nat} {fs₀ : FileStorage}
    (hcreate : create capacities = some fs₀) (hne : capacities ≠ [])
    (hsmall : ∀ c ∈ capacities, c ≤ 2 ^ 20) (ws₁ ws₂ : List (WriteOutcome × Scatter.IOVecBlock))
    (w : WriteOutcome × Scatter.IOVecBlock)
    (hdone : ∀ x ∈ ws₁ ++ w :: ws₂, x.1 = .done ∧ x.2.Split)
    (hgen : ∀ p ∈ Fill.places (ringCap capacities) (ws₁ ++ w :: ws₂).length ⟨0, 0⟩, p.1 < 2 ^ 32) :
    ∃ addrs₁ recycled₁ fs₁ addr fs₂ addrs₂ recycled₂ fs₃,
      appendAll ws₁ fs₀ = some (addrs₁, recycled₁, fs₁) ∧
      appendBlock w.1 w.2 fs₁ = some ((.ok, addr), fs₂) ∧
      appendAll ws₂ fs₂ = some (addrs₂, recycled₂, fs₃) ∧
      addr ∉ addrs₁ ∧ addr ∉ addrs₂ ∧
      (fs₂.currentVolume ∉ recycled₂ → contains fs₃ addr = true ∧
        readIovecBlock fs₃ addr = some (.ok, some w.2.contiguous)) ∧
      (fs₂.currentVolume ∈ recycled₂ → contains fs₃ addr = false ∧
        readIovecBlock fs₃ addr = some (.unavailable, none)) ∧
      ∀ v ∈ recycledVolumes fs₁ fs₂, ∀ u < capacities.length,
        (fs₁.metaVolume.getGeneration v).2 ≤ (fs₁.metaVolume.getGeneration u).2 := by
  obtain ⟨hcap, rfl⟩ := create_inv hcreate fun c hc =>
    (hsmall c hc).trans_lt (by decide)
  have hlen : (ws₁ ++ w :: ws₂).length = ws₁.length + (ws₂.length + 1) := by simp
  rw [hlen, places_add] at hgen
  obtain ⟨hgen1, hgen⟩ := forall_mem_append.mp hgen
  obtain ⟨hgenw, hgen2⟩ := forall_mem_cons.mp hgen
  obtain ⟨hdone1, hdone⟩ := forall_mem_append.mp hdone
  obtain ⟨hw, hdone2⟩ := forall_mem_cons.mp hdone
  -- the calls before, the call, and those after
  obtain ⟨recycled₁, vols1, volume1, gen1, hrun1, h1, hcur1, -, -⟩ := Ring.run hne ws₁
    (ring_new hne hcap) atCursor_new (fun x hx => (hdone1 x hx).1) hgen1
  generalize hc : Fill.after (ringCap capacities) ws₁.length ⟨0, 0⟩ = c at *
  have happ := h1.append hne hcur1 hgenw w.2
  obtain ⟨recycled₂, vols2, volume2, gen2, hrun2, h2, -, -, hpresent⟩ := Ring.run hne ws₂
    (h1.kept hne w.2) (atCursor_advance c _) (fun x hx => (hdone2 x hx).1) hgen2
  -- the indices are small
  have hpos := h1.ringCap_pos hne
  have hbound : ∀ p : Nat × Nat, p.2 < ringCap capacities p.1 → p.2 < 2 ^ 32 := fun p hp =>
    (hp.trans_le (getD_le hsmall _)).trans (by decide)
  have hplace := hbound _ (c.place_lt (hpos _))
  obtain ⟨s, hs⟩ := h1.volume hne (c.place (ringCap capacities)).1
  have hnew := hpresent (fun _ => getD_le hsmall _) _ w.2 (taken_place _) (present_written w.2 hs)
  refine ⟨_, recycled₁, _, placeAddr (c.place (ringCap capacities)), _, _, recycled₂, _, hrun1,
    by rw [hw.1]; exact happ, hrun2, ?_, ?_, ?_, ?_, ?_⟩
  · intro hmem
    obtain ⟨p, hp, heq⟩ := mem_map.mp hmem
    have ht := taken_of_mem hp
    rw [hc, placeAddr_inj (hbound p (place_lt_of_mem hpos hp)) hplace heq] at ht
    exact not_taken_place _ ht
  · intro hmem
    obtain ⟨p, hp, heq⟩ := mem_map.mp hmem
    have ht := not_taken_of_mem hp
    rw [placeAddr_inj (hbound p (place_lt_of_mem hpos hp)) hplace heq] at ht
    exact ht (taken_place _)
  · intro hnot
    rw [← hw.2.ofBytes_iovecs]
    exact read_of_present h2.length hplace (hnew.1 hnot) _ _
  · intro hmem
    exact (hnew.2 hmem).read h2.length hplace _ _
  · intro v hv u hu
    exact h1.oldest_generation w.2 hv hu

open FixedSizeFileStorage in
theorem address_stability_two : ∃ fs₀, create [2, 1] = some fs₀ ∧ ∃ addrs₁ recycled₁ fs₁ addr fs₂
    addrs₂ recycled₂ fs₃,
    appendAll [(.done, zeroBlock)] fs₀ = some (addrs₁, recycled₁, fs₁) ∧
    appendBlock .done oneBlock fs₁ = some ((.ok, addr), fs₂) ∧
    appendAll [(.done, zeroBlock)] fs₂ = some (addrs₂, recycled₂, fs₃) ∧
    addr ∉ addrs₁ ∧ addr ∉ addrs₂ ∧
    (fs₂.currentVolume ∉ recycled₂ →
      readIovecBlock fs₃ addr = some (.ok, some oneBlock.contiguous)) := by
  have hcreate : create [2, 1] = some (ofVolumes (newVolumes [2, 1]) 0 0) := create_eq (by decide)
  have hdone : ∀ x ∈ [(WriteOutcome.done, zeroBlock)] ++ (.done, oneBlock) :: [(.done, zeroBlock)],
      x.1 = .done ∧ x.2.Split := by
    simp [zeroBlock_split, oneBlock_split]
  obtain ⟨addrs₁, recycled₁, fs₁, addr, fs₂, addrs₂, recycled₂, fs₃, h1, hw, h2, hn1, hn2, hread, -⟩ :=
    address_stability hcreate (by decide) (by decide) [(.done, zeroBlock)] [(.done, zeroBlock)]
      (.done, oneBlock) hdone (by decide)
  exact ⟨_, hcreate, addrs₁, recycled₁, fs₁, addr, fs₂, addrs₂, recycled₂, fs₃, h1, hw, h2, hn1, hn2,
    fun hnot => (hread hnot).2⟩

open FixedSizeFileStorage in
/-- The block after the first 2^20 of a volume is written over the first. -/
theorem address_aliased : ∃ fs₀ fs₁ addr addrs recycled fs₂,
    create [2 ^ 20 + 1] = some fs₀ ∧ appendBlock .done zeroBlock fs₀ = some ((.ok, addr), fs₁) ∧
    appendAll (replicate (2 ^ 20) (.done, oneBlock)) fs₁ = some (addrs, recycled, fs₂) ∧
    contains fs₂ addr = true ∧ readIovecBlock fs₂ addr = some (.ok, some oneBlock.contiguous) ∧
    zeroBlock.contiguous ≠ oneBlock.contiguous := by
  have hcap : ∀ c ∈ [2 ^ 20 + 1], 0 < c ∧ c < 2 ^ 32 := by decide
  have hne : [2 ^ 20 + 1] ≠ [] := cons_ne_nil _ _
  have hroom : ringCap [2 ^ 20 + 1] 0 = 2 ^ 20 + 1 := rfl
  -- the first block
  have h0 := ring_new hne hcap
  have hplace0 : Fill.place (ringCap [2 ^ 20 + 1]) ⟨0, 0⟩ = (0, 0) := rfl
  have happ0 := h0.append hne atCursor_new (by rw [hplace0]; decide) zeroBlock
  -- the next ones fill the volume up to its last block
  let c1 : Fill := ⟨0, 1⟩
  have hadv : advance (ringCap [2 ^ 20 + 1]) ⟨0, 0⟩ = c1 := rfl
  obtain ⟨hafter, hsegs⟩ := after_of_room (2 ^ 20 - 1) (c := c1)
    (show 1 + (2 ^ 20 - 1) ≤ ringCap [2 ^ 20 + 1] 0 by rw [hroom]; decide)
  let ws : List (WriteOutcome × Scatter.IOVecBlock) := replicate (2 ^ 20 - 1) (.done, oneBlock)
  have hlen : ws.length = 2 ^ 20 - 1 := length_replicate
  obtain ⟨recycled, vols, volume, gen, hrun, h1, hcur1, -, -⟩ := Ring.run hne ws
    (h0.kept hne zeroBlock) (atCursor_advance ⟨0, 0⟩ _)
    (fun w hw => by rw [eq_of_mem_replicate hw])
    (by
      rw [hlen, hadv]
      intro p hp
      rw [hsegs p hp]
      decide)
  rw [hlen, hadv, hafter] at h1 hcur1
  -- the last one
  let c2 : Fill := ⟨0, 1 + (2 ^ 20 - 1)⟩
  have hplace2 : c2.place (ringCap [2 ^ 20 + 1]) = (0, 2 ^ 20) := by
    apply place_of_room
    show 1 + (2 ^ 20 - 1) < ringCap [2 ^ 20 + 1] 0
    decide
  have happ2 := h1.append hne hcur1 (by rw [hplace2]; decide) oneBlock
  have hpresent : Present (ring [2 ^ 20 + 1]) (0, 0) oneBlock
      (written (ring [2 ^ 20 + 1]) c2 oneBlock vols) := by
    obtain ⟨s, hs⟩ := h1.volume hne (c2.place (ringCap [2 ^ 20 + 1])).1
    have hs' := written_self (L := ring [2 ^ 20 + 1]) oneBlock rfl hs
    simp only [Layout.next, hplace2] at hs'
    exact ⟨_, hs', rfl, Nat.succ_pos _, filled_block_self (0, 2 ^ 20) oneBlock⟩
  have hread := read_of_present (h1.kept hne oneBlock).length (by decide) hpresent
    ((c2.place (ringCap [2 ^ 20 + 1])).1 % 1) (c2.place (ringCap [2 ^ 20 + 1])).1
  rw [oneBlock_split.ofBytes_iovecs] at hread
  have hsplit : replicate (2 ^ 20) (.done, oneBlock) = ws ++ [(.done, oneBlock)] :=
    replicate_succ'
  refine ⟨_, _, placeAddr (0, 0), ?addrs, ?recycled, _, create_eq hcap, happ0, ?run, hread.1,
    hread.2, ?_⟩
  case run =>
    rw [hsplit, appendAll_append, hrun, bind_some]
    simp only [appendAll, happ2, bind_some, if_true, map_some]
    rfl
  intro heq
  have hfirst := congrArg (fun b => (b.component 0).head?) heq
  exact absurd hfirst (by decide)

/-! ## Reopening -/

namespace FixedSizeFileStorage

variable {capacities : List Nat} {c : Fill} {vols : List VolumeState}

theorem Ring.reopened (h : Ring capacities c vols) (hne : capacities ≠ []) {volume : Nat}
    (hcur : AtCursor (ring capacities) c vols volume gen)
    (hresume : resumes (ofVolumes vols volume gen) = true) :
    AtCursor (ring capacities) c vols (firstFree vols 0).1 (firstFree vols 0).2 := by
  obtain ⟨s0, hs0⟩ := h.volume hne c.seg
  have hin0 := h.volumes _ s0 hs0
  refine h.allUpTo.firstFree (fun g hg => Nat.mod_eq_of_lt (hg.trans_eq h.length)) ⟨s0, hs0, hin0.generation⟩
    (fun i s hs hlt => ?_) (fun hfull => ?_)
  · have hin := h.volumes i s hs
    refine hin.begun.resolve_left fun hle => ?_
    have hi : c.seg < i := hlt.resolve_left (not_lt.mpr hle)
    have hmod : s.generation % capacities.length = s.generation :=
      Nat.mod_eq_of_lt (hle.trans_lt (hi.trans ((lt_of_getElem? hs).trans_eq h.length)))
    have hslot := hin.residue
    omega
  · -- all volumes are full: the cursor was at the first one
    have hzero : volume = 0 := by
      rw [resumes, hasRoom_of_full hfull] at hresume
      exact beq_iff_eq.mp hresume
    rcases hcur with ⟨hv, -⟩ | ⟨-, -, hv, -⟩
    · exact .inl ⟨hzero ▸ hv, .inr (hin0.full_of_volume hin0.generation
        (hfull s0 (mem_of_getElem? hs0)))⟩
    · omega

/-- A run with reopenings, and the same run without them. -/
theorem Ring.sessions (hne : capacities ≠ []) (ops : List StoreOp)
    {volume : Nat} (h : Ring capacities c vols)
    (hcur : AtCursor (ring capacities) c vols volume gen)
    (hcur' : AtCursor (ring capacities) c vols volume' gen')
    (hsafe : everyStep appendBlock (StoreOp.safe resumes) ops (ofVolumes vols volume gen) = true)
    (hgen : ∀ p ∈ Fill.places (ringCap capacities) (appendCount ops) c, p.1 < 2 ^ 32) :
    ∃ results vols1 volume1 gen1 volume1' gen1',
    runStore appendBlock ops (ofVolumes vols volume gen) =
      some (results, ofVolumes vols1 volume1 gen1) ∧
    runStore appendBlock (withoutReopen ops) (ofVolumes vols volume' gen') =
      some (results, ofVolumes vols1 volume1' gen1') ∧
    Ring capacities (.after (ringCap capacities) (appendCount ops) c) vols1 ∧
    AtCursor (ring capacities) (.after (ringCap capacities) (appendCount ops) c) vols1 volume1 gen1 := by
  induction ops generalizing c vols volume gen volume' gen' with
  | nil => exact ⟨[], vols, volume, gen, volume', gen', rfl, rfl, h, hcur⟩
  | cons op ops ih =>
    rw [everyStep, Bool.and_eq_true] at hsafe
    obtain ⟨hop, hrest⟩ := hsafe
    cases op with
    | append io data =>
      obtain rfl := StoreOp.safe_append hop
      rw [appendCount_append] at hgen ⊢
      obtain ⟨hgen1, hgen⟩ := forall_mem_cons.mp hgen
      have happ := h.append hne hcur hgen1 data
      have happ' := h.append hne hcur' hgen1 data
      simp only [StoreOp.step, happ] at hrest
      obtain ⟨results, vols1, volume1, gen1, volume1', gen1', hrun, hrun', h1, hcur1⟩ :=
        ih (h.kept hne data) (atCursor_advance c _) (atCursor_advance c _) hrest hgen
      refine ⟨(.ok, placeAddr (c.place (ringCap capacities))) :: results, vols1, volume1, gen1,
        volume1', gen1', ?_, ?_, h1, hcur1⟩
      · simp only [runStore, StoreOp.step, happ, map_some, bind_some, hrun]
        rfl
      · have hfilter : withoutReopen (.append .done data :: ops) =
            .append .done data :: withoutReopen ops := rfl
        rw [hfilter]
        simp only [runStore, StoreOp.step, happ', map_some, bind_some, hrun']
        rfl
    | flush =>
      have hfilter : withoutReopen (.flush :: ops) = .flush :: withoutReopen ops := rfl
      rw [hfilter, runStore_silent rfl, runStore_silent rfl]
      exact ih h hcur hcur' hrest hgen
    | reopen =>
      have hstep := reopen_ofVolumes volume gen (fun i s hi => (h.volumes i s hi).sized) appendBlock
      rw [hstep] at hrest
      rw [runStore_silent hstep]
      exact ih h (h.reopened hne hcur hop) hcur' hrest hgen

end FixedSizeFileStorage

open FixedSizeFileStorage in
/-- Reopening a store that has free space, or whose cursor is at the first volume,
changes nothing: the appends return the same, the same blocks can be read, and the
next volume to be recycled is the one with the oldest generation. -/
theorem reopen_same {capacities : List Nat} {fs₀ : FileStorage}
    (hcreate : create capacities = some fs₀) (hn : 2 ≤ capacities.length)
    (hlt : ∀ c ∈ capacities, c < 2 ^ 32) (ops : List StoreOp)
    (hsafe : everyStep appendBlock (StoreOp.safe resumes) ops fs₀ = true)
    (hgen : ∀ p ∈ Fill.places (ringCap capacities) (appendCount ops + 1) ⟨0, 0⟩, p.1 < 2 ^ 32) :
    ∃ results fs fs', runStore appendBlock ops fs₀ = some (results, fs) ∧
      runStore appendBlock (withoutReopen ops) fs₀ = some (results, fs') ∧
      (∀ addr, contains fs addr = contains fs' addr ∧
        readIovecBlock fs addr = readIovecBlock fs' addr) ∧
      ∀ data result fs₂, appendBlock .done data fs = some (result, fs₂) →
        ∀ v ∈ recycledVolumes fs fs₂, ∀ u < capacities.length,
          (fs.metaVolume.getGeneration v).2 ≤ (fs.metaVolume.getGeneration u).2 := by
  have hne : capacities ≠ [] := ne_nil_of_length_pos (by omega)
  obtain ⟨hcap, rfl⟩ := create_inv hcreate hlt
  rw [places_add] at hgen
  obtain ⟨hgen1, hgen⟩ := forall_mem_append.mp hgen
  obtain ⟨results, vols, volume, gen, volume', gen', hrun, hrun', h, hcur⟩ := Ring.sessions hne ops
    (ring_new hne hcap) atCursor_new atCursor_new hsafe hgen1
  refine ⟨results, _, _, hrun, hrun', fun addr => ⟨rfl, rfl⟩, ?_⟩
  intro data result fs₂ happ v hv u hu
  have hnext := h.append hne hcur (hgen _ mem_cons_self) data
  rw [hnext, some.injEq, Prod.mk.injEq] at happ
  obtain ⟨-, rfl⟩ := happ
  exact h.oldest_generation data hv hu

open FixedSizeFileStorage in
theorem reopen_same_two : ∃ fs₀ results fs fs', create [2, 1] = some fs₀ ∧
    everyStep appendBlock (StoreOp.safe resumes) [.append .done zeroBlock, .reopen,
      .append .done oneBlock, .reopen, .append .done zeroBlock] fs₀ = true ∧
    runStore appendBlock [.append .done zeroBlock, .reopen, .append .done oneBlock, .reopen,
      .append .done zeroBlock] fs₀ = some (results, fs) ∧
    runStore appendBlock [.append .done zeroBlock, .append .done oneBlock,
      .append .done zeroBlock] fs₀ = some (results, fs') ∧
    ∀ addr, contains fs addr = contains fs' addr ∧
      readIovecBlock fs addr = readIovecBlock fs' addr := by
  have hcreate : create [2, 1] = some (ofVolumes (newVolumes [2, 1]) 0 0) := create_eq (by decide)
  have hsafe : everyStep appendBlock (StoreOp.safe resumes) [.append .done zeroBlock, .reopen,
      .append .done oneBlock, .reopen, .append .done zeroBlock]
      (ofVolumes (newVolumes [2, 1]) 0 0) = true := by decide +kernel
  obtain ⟨results, fs, fs', hrun, hrun', hread, -⟩ := reopen_same hcreate (by decide) (by decide) _
    hsafe (by decide)
  exact ⟨_, results, fs, fs', hcreate, hsafe, hrun, hrun', hread⟩

open FixedSizeFileStorage in
/-- Two volumes of one block each, both full, the second written last: after a
reopening the next block goes to the second volume again, and its block is lost
instead of the older one. -/
theorem reopen_skips :
    ((create [1, 1]).bind (runStore appendBlock [.append .done zeroBlock, .append .done zeroBlock,
      .reopen, .append .done zeroBlock])).map (fun (results, fs) =>
        (results, contains fs (makeLogic 0 0), contains fs (makeLogic 1 0))) =
      some ([(.ok, makeLogic 0 0), (.ok, makeLogic 1 0), (.ok, makeLogic 3 0)], true, false) ∧
    ((create [1, 1]).bind (runStore appendBlock [.append .done zeroBlock, .append .done zeroBlock,
      .append .done zeroBlock])).map (fun (results, fs) =>
        (results, contains fs (makeLogic 0 0), contains fs (makeLogic 1 0))) =
      some ([(.ok, makeLogic 0 0), (.ok, makeLogic 1 0), (.ok, makeLogic 2 0)], false, true) := by
  decide +kernel

end FastSTDB
