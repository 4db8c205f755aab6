import FastSTDB.FileStorage
import FastSTDB.Lib.Segments

/-
  File storage — volumes that are filled one after the other

  Both stores fill one generation after the other and keep the generation `g` in the
  volume `slot g`: the fixed-size store in a ring, the expandable store in a row. Where
  the next block goes depends on the capacities only (`Segments.Fill`); the cursor in
  memory has to agree with that (`AtCursor`).
-/
namespace FastSTDB
open List Option Segments FileStorage

/-- The capacity of a generation, and the volume it is in. -/
structure Layout where
  cap : Nat → Nat
  slot : Nat → Nat
  cap_eq : ∀ {g g'}, slot g = slot g' → cap g = cap g'

variable {L : Layout} {c : Fill} {i volume gen : Nat} {p : Nat × Nat} {s : VolumeState}
  {vols vols' : List VolumeState} {data : Scatter.IOVecBlock}

/-- The place of the next block. -/
abbrev Layout.next (L : Layout) (c : Fill) : Nat × Nat := c.place L.cap

/-- The volume `i` when the generations are filled up to `c`. -/
structure VolumeState.UpTo (L : Layout) (c : Fill) (i : Nat) (s : VolumeState) : Prop where
  slot : L.slot s.generation = i
  capacity : s.capacity = L.cap s.generation
  sized : s.Sized
  full : s.generation < c.seg → s.used = s.capacity
  current : s.generation = c.seg → s.used = c.used
  unused : c.seg < s.generation → s.used = 0

def AllUpTo (L : Layout) (c : Fill) (vols : List VolumeState) : Prop :=
  ∀ (i : Nat) (s : VolumeState), vols[i]? = some s → s.UpTo L c i

namespace VolumeState.UpTo

theorem used_eq (h : s.UpTo L c i) (hfull : L.cap c.seg ≤ c.used) (hle : s.generation ≤ c.seg) :
    s.used = s.capacity := by
  rcases Nat.lt_or_eq_of_le hle with hlt | heq
  · exact h.full hlt
  · have hused := h.current heq
    have hcap := h.capacity
    have := h.sized.used_le
    rw [heq] at hcap
    omega

theorem full_of_volume (h : s.UpTo L c i) (hg : s.generation = c.seg)
    (hfull : s.capacity ≤ s.used) : L.cap c.seg ≤ c.used := by
  rw [h.capacity, h.current hg, hg] at hfull
  exact hfull

theorem filled (h : s.UpTo L c (L.slot (L.next c).1)) (data : Scatter.IOVecBlock) :
    (s.filled (L.next c) data).UpTo L (c.advance L.cap) (L.slot (L.next c).1) where
  slot := rfl
  capacity := h.capacity.trans (L.cap_eq h.slot)
  sized := by
    have hcap := h.capacity.trans (L.cap_eq h.slot)
    refine ⟨h.sized.pos, h.sized.lt, ?_⟩
    show (L.next c).2 < s.capacity
    rw [hcap]
    exact c.place_lt (hcap ▸ h.sized.pos)
  full := fun hlt => absurd hlt (lt_irrefl _)
  current := fun _ => rfl
  unused := fun hlt => absurd hlt (lt_irrefl _)

theorem other (h : s.UpTo L c i) (hi : L.slot (L.next c).1 ≠ i) : s.UpTo L (c.advance L.cap) i where
  slot := h.slot
  capacity := h.capacity
  sized := h.sized
  full := fun hlt => by
    rw [Fill.advance] at hlt
    rcases c.place_cases L.cap with ⟨-, hplace⟩ | ⟨hfull, hplace⟩ <;> rw [hplace] at hlt
    · exact h.full hlt
    · exact h.used_eq hfull (Nat.le_of_lt_succ hlt)
  current := fun heq => absurd ((congrArg L.slot heq).symm.trans h.slot) hi
  unused := fun hlt => h.unused ((c.seg_le_place L.cap).trans_lt hlt)

end VolumeState.UpTo

/-! ## The next block -/

def written (L : Layout) (c : Fill) (data : Scatter.IOVecBlock) (vols : List VolumeState) :
    List VolumeState :=
  vols.modify (L.slot (L.next c).1) (.filled (L.next c) data)

theorem length_written : (written L c data vols).length = vols.length := length_modify _ _ _

theorem written_self (data : Scatter.IOVecBlock) (hi : L.slot (L.next c).1 = i)
    (hs : vols[i]? = some s) : (written L c data vols)[i]? = some (s.filled (L.next c) data) := by
  rw [written, getElem?_modify, hs]
  exact congrArg some (if_pos hi)

theorem written_other (data : Scatter.IOVecBlock) (vols : List VolumeState)
    (hi : L.slot (L.next c).1 ≠ i) : (written L c data vols)[i]? = vols[i]? :=
  getElem?_modify_ne _ _ hi

/-- A volume is the one that was written to, or as it was. -/
theorem written_cases (h : (written L c data vols)[i]? = some s) :
    (L.slot (L.next c).1 = i ∧ ∃ s', vols[i]? = some s' ∧ s = s'.filled (L.next c) data) ∨
      L.slot (L.next c).1 ≠ i ∧ vols[i]? = some s := by
  by_cases hi : L.slot (L.next c).1 = i
  · have hs := getElem?_eq_getElem ((lt_of_getElem? h).trans_eq length_written)
    rw [written_self data hi hs] at h
    exact .inl ⟨hi, _, hs, (some.inj h).symm⟩
  · rw [written_other data vols hi] at h
    exact .inr ⟨hi, h⟩

theorem AllUpTo.written (h : AllUpTo L c vols) (data : Scatter.IOVecBlock) :
    AllUpTo L (c.advance L.cap) (written L c data vols) := by
  intro i s hs
  rcases written_cases hs with ⟨rfl, s', hs', rfl⟩ | ⟨hi, hs'⟩
  · exact (h _ s' hs').filled data
  · exact (h i s hs').other hi

/-- The cursor in memory: at the volume that is being filled, or, if that is full, at the next
one that was never used. -/
def AtCursor (L : Layout) (c : Fill) (vols : List VolumeState) (volume gen : Nat) : Prop :=
  (volume = L.slot c.seg ∧ (gen = c.seg ∨ L.cap c.seg ≤ c.used)) ∨
  (L.cap c.seg ≤ c.used ∧ c.seg + 1 < vols.length ∧ volume = c.seg + 1 ∧ gen = c.seg + 1)

theorem atCursor_advance (c : Fill) (vols : List VolumeState) :
    AtCursor L (c.advance L.cap) vols (L.slot (L.next c).1) (L.next c).1 := .inl ⟨rfl, .inl rfl⟩

/-- The block goes to the next place: into the current volume if it has free space, else behind
a transition, unless the cursor is at the next volume already. -/
theorem AtCursor.append {adjust : FileStorage → Option FileStorage}
    (hcur : AtCursor L c vols volume gen) (hs : vols'[L.slot (L.next c).1]? = some s)
    (h : s.UpTo L c (L.slot (L.next c).1))
    (hroom : c.used < L.cap c.seg → vols' = vols ∧ s.generation = c.seg)
    (hfull : L.cap c.seg ≤ c.used → (∃ s0, vols[L.slot c.seg]? = some s0 ∧ s0.capacity ≤ s0.used) ∧
      (∀ gen, adjust (ofVolumes vols (L.slot c.seg) gen) =
        some (ofVolumes vols' (L.slot (c.seg + 1)) gen)) ∧
      s.begun vols'.length = { s with used := 0, generation := c.seg + 1 })
    (hthere : c.seg + 1 < vols.length → L.slot (c.seg + 1) = c.seg + 1 ∧ vols' = vols ∧
      s.generation = (L.next c).1) (data : Scatter.IOVecBlock) :
    FileStorage.appendBlock adjust .done data (ofVolumes vols volume gen) =
      some ((.ok, placeAddr (L.next c)), ofVolumes (written L c data vols')
        (L.slot (L.next c).1) (L.next c).1) := by
  rw [written, modify_eq_set hs]
  rcases c.place_cases L.cap with ⟨hlt, hplace⟩ | ⟨hle, hplace⟩
  · -- the current volume has free space
    obtain ⟨rfl, hg⟩ := hroom hlt
    obtain ⟨rfl, rfl⟩ : volume = L.slot c.seg ∧ gen = c.seg := by
      rcases hcur with ⟨hv, hgen | hle⟩ | ⟨hle, -⟩
      · exact ⟨hv, hgen⟩
      · omega
      · omega
    have hu := h.current hg
    have hcap := h.capacity
    rw [hg] at hcap
    rw [Layout.next, hplace] at hs ⊢
    rw [VolumeState.filled_eq_push data hg hu, ← hu]
    exact appendBlock_room _ hs (by omega) h.sized.lt c.seg data
  · rcases hcur with ⟨rfl, -⟩ | ⟨-, hnext, rfl, rfl⟩
    · -- a transition to the next volume
      obtain ⟨⟨s0, hs0, hfull0⟩, hadjust, hbegun⟩ := hfull hle
      rw [Layout.next, hplace] at hs ⊢
      have hres := appendBlock_full hs0 hfull0 (hadjust gen) hs h.sized data
      rw [hbegun] at hres
      exact hres
    · -- the cursor is there already
      obtain ⟨hslot, rfl, hg⟩ := hthere hnext
      rw [Layout.next, hplace] at hs hg ⊢
      have hu : s.used = 0 := h.unused (hg ▸ Nat.lt_succ_self _)
      have hroom' : s.used < s.capacity := hu ▸ h.sized.pos
      rw [VolumeState.filled_eq_push data hg hu, ← hu]
      simp only [hslot] at hs ⊢
      exact appendBlock_room adjust hs hroom' h.sized.lt _ data

/-- The first volume with free space is the one that is being filled, or the first that was never
used. -/
theorem AllUpTo.firstFree (h : AllUpTo L c vols) (hslot : ∀ g < vols.length, L.slot g = g)
    (hcurrent : ∃ s, vols[L.slot c.seg]? = some s ∧ s.generation = c.seg)
    (hfresh : ∀ i (s : VolumeState), vols[i]? = some s → c.seg < s.generation ∨ c.seg < i →
      s.generation = i) (hnone : (∀ s ∈ vols, s.capacity ≤ s.used) → AtCursor L c vols 0 0) :
    AtCursor L c vols (firstFree vols 0).1 (firstFree vols 0).2 := by
  rcases firstFree_spec vols 0 with ⟨heq, hfull⟩ | ⟨i, s, heq, hs, hfree, hbefore⟩
  · rw [heq]
    exact hnone hfull
  · rw [heq, zero_add]
    have hin := h i s hs
    rcases Nat.lt_trichotomy s.generation c.seg with hlt | hg | hgt
    · have := hin.full hlt
      omega
    · exact .inl ⟨by rw [← hg, hin.slot], .inl hg⟩
    · -- never used: the one before it is full, and so is the generation in it
      have hgi := hfresh i s hs (.inl hgt)
      have hi := lt_of_getElem? hs
      obtain ⟨s0, hs0, hg0⟩ := hcurrent
      rw [hslot c.seg (by omega)] at hs0
      have hfull := (h _ s0 hs0).full_of_volume hg0 (hbefore _ s0 (by omega) hs0)
      have hnext : i = c.seg + 1 := by
        by_contra hne
        have hs1 := getElem?_eq_getElem (show c.seg + 1 < vols.length by omega)
        have hin1 := h _ _ hs1
        have hg1 := hfresh _ _ hs1 (.inr (lt_add_one _))
        have hfull1 := hbefore _ _ (by omega) hs1
        have hpos := hin1.sized.pos
        rw [hin1.unused (by omega)] at hfull1
        omega
      exact .inr ⟨hfull, by omega, hnext, by omega⟩

/-! ## The block at a place -/

def Present (L : Layout) (p : Nat × Nat) (data : Scatter.IOVecBlock) (vols : List VolumeState) :
    Prop :=
  ∃ s, vols[L.slot p.1]? = some s ∧ s.generation = p.1 ∧ p.2 < s.used ∧
    s.block (blockOffset p.2) = data.iovecs

theorem present_written (data : Scatter.IOVecBlock) (hs : vols[L.slot (L.next c).1]? = some s) :
    Present L (L.next c) data (written L c data vols) :=
  ⟨_, written_self data rfl hs, rfl, lt_add_one _, VolumeState.filled_block_self _ data⟩

/-- A block stays, unless the next one goes to its volume in a later generation. -/
theorem Present.kept (h : Present L p data vols) (hsmall : (L.next c).2 < 2 ^ 20)
    (hlt : L.slot (L.next c).1 = L.slot p.1 → p.1 = (L.next c).1 ∧ p.2 < (L.next c).2)
    (data' : Scatter.IOVecBlock) : Present L p data (written L c data' vols) := by
  obtain ⟨s, hs, hg, hu, hblock⟩ := h
  by_cases hi : L.slot (L.next c).1 = L.slot p.1
  · obtain ⟨heq, hidx⟩ := hlt hi
    refine ⟨_, written_self data' hi hs, heq.symm, Nat.lt_succ_of_lt hidx, ?_⟩
    rw [VolumeState.filled_block_of_lt hidx hsmall, hblock]
  · exact ⟨s, (written_other data' vols hi).trans hs, hg, hu, hblock⟩

theorem Present.read (hlt : p.2 < 2 ^ 32) (h : Present L p data vols) (volume gen : Nat) :
    (ofVolumes vols volume gen).existsIn (L.slot (extractGen (placeAddr p))) (placeAddr p) = true ∧
      (ofVolumes vols volume gen).readIn (L.slot (extractGen (placeAddr p))) (placeAddr p) =
        some (.ok, some (.ofBytes data.iovecs)) := by
  obtain ⟨s, hs, hg, hu, hb⟩ := h
  rw [placeAddr, extractGen_makeLogic _ hlt, existsIn_ofVolumes hs hlt, readIn_ofVolumes hs hlt, hb]
  simp [hg, hu]

end FastSTDB
