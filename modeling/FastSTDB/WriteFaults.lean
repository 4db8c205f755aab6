import FastSTDB.FileStorage
import FastSTDB.Lib.Merging

/-
  Failed writes — what a store does when a block cannot be written

  A write fails when the seek or the write to the file of the volume fails. Of the
  status of the first attempt `append_block` looks only at an overflow: every other
  error falls through to the code that records the block, with the index 0 that comes
  with an error. The second attempt, after a transition, is looked at.

  A failed write has no effect (`NoEffect`) if the status is not Ok, every volume is
  recorded to have the blocks that can be read from it, and what could be read before
  can be read under the same generation.

  What is proved:
    1. `failed_write_iff` — over all runs of either store: a failed write has no effect
       if and only if the current volume is full and the one moved to is empty. The
       failed writes before it are taken to have had no effect themselves.
    2. `failed_write_recorded` — a seek error on a new volume is answered with Ok and
       the address of a block that nothing was written to.
-/
namespace FastSTDB
open List Option FileStorage Merging VolumeState

variable {s s' : VolumeState} {io : WriteOutcome} {vols' : List VolumeState} {volume' : Nat}

/-! ## The two stores -/

inductive StoreKind where
  | fixed
  | expandable
  deriving DecidableEq

namespace StoreKind

def adjustCurrentVolume : StoreKind → FileStorage → Option FileStorage
  | .fixed => FixedSizeFileStorage.adjustCurrentVolume
  | .expandable => ExpandableFileStorage.adjustCurrentVolume

def appendBlock (kind : StoreKind) : WriteOutcome → Scatter.IOVecBlock → FileStorage →
    Option ((Status × LogicAddr) × FileStorage) :=
  FileStorage.appendBlock kind.adjustCurrentVolume

/-- The current volume is full, and the one that is moved to has no blocks. -/
def movesToEmpty (kind : StoreKind) (fs : FileStorage) : Bool :=
  ((fs.volumes[fs.currentVolume]?).any fun v => decide (v.file.size ≤ v.writePos)) &&
    ((kind.adjustCurrentVolume fs).any fun fs =>
      (fs.metaVolume.getNblocks fs.currentVolume).2 == 0)

end StoreKind

/-- The write succeeds, or it fails where that has no effect. -/
def StoreOp.harmless (kind : StoreKind) (op : StoreOp) (fs : FileStorage) : Bool :=
  match op with
  | .append io _ => io == .done || kind.movesToEmpty fs
  | .flush => true
  | .reopen => true

/-- Nothing was written, and nothing was lost. -/
structure NoEffect (fs : FileStorage) (result : Status × LogicAddr) (fs' : FileStorage) : Prop where
  refused : result.1 ≠ .ok
  recorded : ∀ i v, fs'.volumes[i]? = some v → fs'.metaVolume.getNblocks i = (.ok, v.writePos)
  kept : ∀ i v, fs.volumes[i]? = some v → ∃ v', fs'.volumes[i]? = some v' ∧
    fs'.metaVolume.getGeneration i = fs.metaVolume.getGeneration i ∧
    ∀ k, k < v.writePos → v'.readBlock k = v.readBlock k

/-! ## Volumes -/

def VolumeState.fault (io : WriteOutcome) (s : VolumeState) : VolumeState :=
  match io with
  | .writeError left => { s with block := Function.update s.block (blockOffset s.used) left }
  | _ => s

section
variable (io : WriteOutcome) (s : VolumeState)

theorem VolumeState.fault_used : (s.fault io).used = s.used := by
  cases io <;> rfl

theorem VolumeState.fault_capacity : (s.fault io).capacity = s.capacity := by
  cases io <;> rfl

theorem VolumeState.desc_fault (id : Nat) : (s.fault io).desc id = s.desc id := by
  cases io <;> rfl

end

theorem VolumeState.Sized.fault (h : s.Sized) (io : WriteOutcome) : (s.fault io).Sized := by
  refine ⟨?_, ?_, ?_⟩
  · rw [fault_capacity]; exact h.pos
  · rw [fault_capacity]; exact h.lt
  · rw [fault_capacity, fault_used]; exact h.used_le

theorem VolumeState.Sized.push (h : s.Sized) (hroom : s.used < s.capacity)
    (data : Scatter.IOVecBlock) : (s.push data).Sized := ⟨h.pos, h.lt, hroom⟩

theorem volume_appendBlock_failed (hroom : s.used < s.capacity) (hio : io ≠ .done)
    (data : Scatter.IOVecBlock) : ∃ status, status ≠ .ok ∧ status ≠ .overflow ∧
      s.volume.appendBlock io data = ((status, 0), (s.fault io).volume) := by
  have hnot : ¬ s.volume.file.size ≤ s.volume.writePos := not_le.mpr hroom
  cases io with
  | done => exact absurd rfl hio
  | seekError =>
    refine ⟨.fileSeekError, by decide, by decide, ?_⟩
    rw [Volume.appendBlock, if_neg hnot]
    rfl
  | writeError left =>
    refine ⟨.fileWriteError, by decide, by decide, ?_⟩
    rw [Volume.appendBlock, if_neg hnot]
    rfl

/-! ## Stores -/

/-- The parts of the store agree, and it has a current volume. -/
def FileStorage.Agrees (fs : FileStorage) : Prop :=
  ∃ vols volume gen, fs = ofVolumes vols volume gen ∧ volume < vols.length ∧ ∀ s ∈ vols, s.Sized

section Runs
variable {vols : List VolumeState} {volume gen : Nat} {s : VolumeState}

theorem FileStorage.agrees_set (hlt : volume < vols.length) (hsized : ∀ s ∈ vols, s.Sized)
    (hs : s.Sized) : (ofVolumes (vols.set volume s) volume gen).Agrees :=
  ⟨_, _, _, rfl, by rwa [length_set], forall_mem_set hsized hs _⟩

/-- A transition finds a volume: one there was, or a new and empty one. -/
structure Adjusted (vols vols' : List VolumeState) (volume' : Nat) : Prop where
  cursor : volume' < vols'.length
  sized : ∀ s ∈ vols', s.Sized
  old : ∀ (i : Nat) (s : VolumeState), vols[i]? = some s → vols'[i]? = some s
  new : ∀ (i : Nat) (s : VolumeState), vols'[i]? = some s → vols[i]? = some s ∨ s.used = 0

theorem StoreKind.adjust_ofVolumes (kind : StoreKind) (hvol : vols[volume]? = some s)
    (hsized : ∀ s ∈ vols, s.Sized) (gen : Nat) : ∃ vols' volume',
    kind.adjustCurrentVolume (ofVolumes vols volume gen) = some (ofVolumes vols' volume' gen) ∧
      Adjusted vols vols' volume' := by
  have hlt : volume < vols.length := lt_of_getElem? hvol
  cases kind with
  | fixed =>
    refine ⟨vols, (volume + 1) % vols.length, ?_, ?_, hsized, fun _ _ h => h, fun _ _ h => .inl h⟩
    · simp only [StoreKind.adjustCurrentVolume, FixedSizeFileStorage.adjustCurrentVolume,
        length_volumes]
      rfl
    · exact Nat.mod_lt _ (Nat.zero_lt_of_lt hlt)
  | expandable =>
    by_cases hlast : vols.length ≤ volume + 1
    · -- a new volume behind the last one
      have hlen : vols.length = volume + 1 := le_antisymm hlast hlt
      have hs := hsized s (mem_of_getElem? hvol)
      refine ⟨_, _, adjustCurrentVolume_last hvol hs.pos hlen, ?_, ?_, ?_, ?_⟩
      · rw [length_append, hlen]
        exact lt_add_one _
      · exact forall_mem_append.mpr ⟨hsized, forall_mem_singleton.mpr ⟨hs.pos, hs.lt, zero_le⟩⟩
      · intro i t ht
        exact (getElem?_append_left (lt_of_getElem? ht)).trans ht
      · intro i t ht
        rcases lt_or_ge i vols.length with hi | hi
        · exact .inl ((getElem?_append_left hi).symm.trans ht)
        · rw [getElem?_append_right hi, getElem?_singleton] at ht
          split at ht
          · cases ht
            exact .inr rfl
          · cases ht
    · have hnext := not_le.mp hlast
      exact ⟨vols, volume + 1, adjustCurrentVolume_next hnext, hnext, hsized, fun _ _ h => h,
        fun _ _ h => .inl h⟩

variable {kind : StoreKind}

theorem StoreKind.movesToEmpty_iff (hvol : vols[volume]? = some s)
    (hadjust : kind.adjustCurrentVolume (ofVolumes vols volume gen) = some (ofVolumes vols' volume' gen))
    (hvol' : vols'[volume']? = some s') :
    kind.movesToEmpty (ofVolumes vols volume gen) = true ↔ s.capacity ≤ s.used ∧ s'.used = 0 := by
  have hn : (metaOf vols').getNblocks volume' = (.ok, s'.used) := getField_metaOf _ hvol'
  rw [StoreKind.movesToEmpty, currentVolume_ofVolumes, volumes_ofVolumes hvol, hadjust, any_some,
    any_some, currentVolume_ofVolumes, metaVolume_ofVolumes, hn, Bool.and_eq_true,
    decide_eq_true_eq, beq_iff_eq]
  rfl

/-- A write that fails on a volume with free space is answered with Ok. -/
theorem StoreKind.appendBlock_failed_room (kind : StoreKind) (hvol : vols[volume]? = some s)
    (hroom : s.used < s.capacity) (hio : io ≠ .done) (data : Scatter.IOVecBlock) : ∃ fs',
    kind.appendBlock io data (ofVolumes vols volume gen) = some ((.ok, makeLogic gen 0), fs') := by
  obtain ⟨status, hok, hover, hfail⟩ := volume_appendBlock_failed hroom hio data
  -- the index 0 of the error is recorded
  have hset : (metaOf vols).setNblocks volume (u32 (0 + 1)) =
      (.ok, metaOf (vols.set volume { s with used := 1 })) := setField_metaOf _ hvol rfl
  rw [StoreKind.appendBlock, FileStorage.appendBlock, currentVolume_ofVolumes, volumes_ofVolumes hvol,
    bind_some, hfail]
  simp only [if_neg hover]
  refine ⟨{ ofVolumes (vols.set volume { s with used := 1 }) volume gen with
    volumes := ((ofVolumes vols volume gen).setVolume (s.fault io).volume).volumes }, ?_⟩
  have hmeta : ((ofVolumes vols volume gen).setVolume (s.fault io).volume).metaVolume =
      metaOf vols := rfl
  have hcur : ((ofVolumes vols volume gen).setVolume (s.fault io).volume).currentVolume =
      volume := rfl
  rw [recordBlock, hmeta, hcur, hset]
  rfl

/-- A write that fails after a transition is refused, and the cursor has moved. -/
theorem StoreKind.appendBlock_failed_full (hvol : vols[volume]? = some s)
    (hfull : s.capacity ≤ s.used)
    (hadjust : kind.adjustCurrentVolume (ofVolumes vols volume gen) = some (ofVolumes vols' volume' gen))
    (hvol' : vols'[volume']? = some s') (hs' : s'.Sized) (hio : io ≠ .done)
    (data : Scatter.IOVecBlock) :
    ∃ status, status ≠ .ok ∧ kind.appendBlock io data (ofVolumes vols volume gen) =
      some ((status, 0), ofVolumes (vols'.set volume' ((s'.begun vols'.length).fault io)) volume'
        (s'.begun vols'.length).generation) := by
  obtain ⟨status, hok, -, hfail⟩ := volume_appendBlock_failed (hs'.begun_room _) hio data
  refine ⟨status, hok, ?_⟩
  rw [StoreKind.appendBlock, appendBlock_overflow hvol hfull hadjust hvol' io data hfail]
  simp only [if_pos hok]
  have hmeta : metaOf (vols'.set volume' (s'.begun vols'.length)) =
      metaOf (vols'.set volume' ((s'.begun vols'.length).fault io)) := by
    simp only [metaOf, ← mapIdx_desc_set, desc_fault]
  simp only [ofVolumes, hmeta]

variable {results : List (Status × LogicAddr)}

theorem FileStorage.Agrees.step {fs fs' : FileStorage} (h : fs.Agrees) {op : StoreOp}
    (hop : op.harmless kind fs = true)
    (hstep : op.step kind.appendBlock fs = some (results, fs')) : fs'.Agrees := by
  obtain ⟨vols, volume, gen, rfl, hlt, hsized⟩ := h
  cases op with
  | flush =>
    cases hstep
    exact ⟨vols, volume, gen, rfl, hlt, hsized⟩
  | reopen =>
    rw [reopen_ofVolumes _ _ (fun i s hi => hsized s (mem_of_getElem? hi))] at hstep
    cases hstep
    refine ⟨vols, _, _, rfl, ?_, hsized⟩
    rcases firstFree_spec vols 0 with ⟨hfirst, -⟩ | ⟨i, s, hfirst, hi, -⟩
    · rw [hfirst]
      omega
    · rw [hfirst, zero_add]
      exact lt_of_getElem? hi
  | append io data =>
    obtain ⟨s, hvol⟩ : ∃ s, vols[volume]? = some s := ⟨_, getElem?_eq_getElem hlt⟩
    obtain ⟨vols', volume', hadjust, hadj⟩ := kind.adjust_ofVolumes hvol hsized gen
    obtain ⟨s', hvol'⟩ : ∃ s', vols'[volume']? = some s' := ⟨_, getElem?_eq_getElem hadj.cursor⟩
    have hs := hsized s (mem_of_getElem? hvol)
    have hs' := hadj.sized s' (mem_of_getElem? hvol')
    rw [StoreOp.step, map_eq_some_iff] at hstep
    obtain ⟨⟨result, fs1⟩, happend, heq⟩ := hstep
    cases heq
    by_cases hio : io = .done
    · subst hio
      rcases lt_or_ge s.used s.capacity with hroom | hfull
      · rw [StoreKind.appendBlock, appendBlock_room _ hvol hroom hs.lt] at happend
        cases happend
        exact agrees_set hlt hsized (hs.push hroom data)
      · rw [StoreKind.appendBlock, appendBlock_full hvol hfull hadjust hvol' hs'] at happend
        cases happend
        exact agrees_set hadj.cursor hadj.sized ((hs'.begun _).push (hs'.begun_room _) data)
    · -- the volume is full, or the write would not be harmless
      have hempty : kind.movesToEmpty (ofVolumes vols volume gen) = true := by
        rw [StoreOp.harmless, Bool.or_eq_true, beq_iff_eq] at hop
        exact hop.resolve_left hio
      obtain ⟨hfull, -⟩ := (StoreKind.movesToEmpty_iff hvol hadjust hvol').mp hempty
      obtain ⟨status, -, hfailed⟩ :=
        StoreKind.appendBlock_failed_full hvol hfull hadjust hvol' hs' hio data
      rw [hfailed] at happend
      cases happend
      exact agrees_set hadj.cursor hadj.sized ((hs'.begun _).fault io)

theorem FileStorage.Agrees.run (ops : List StoreOp) {fs fs' : FileStorage} (h : fs.Agrees)
    (hsteps : everyStep kind.appendBlock (StoreOp.harmless kind) ops fs = true)
    (hrun : runStore kind.appendBlock ops fs = some (results, fs')) : fs'.Agrees := by
  induction ops generalizing fs fs' results with
  | nil =>
    cases hrun
    exact h
  | cons op ops ih =>
    rw [runStore, bind_eq_some_iff] at hrun
    obtain ⟨⟨results1, fs1⟩, hstep, hrun⟩ := hrun
    obtain ⟨⟨results2, fs2⟩, hrest, heq⟩ := map_eq_some_iff.mp hrun
    cases heq
    rw [everyStep, Bool.and_eq_true, hstep] at hsteps
    exact ih (h.step hsteps.1 hstep) hsteps.2 hrest

theorem FileStorage.recorded_ofVolumes : ∀ i v, (ofVolumes vols volume gen).volumes[i]? = some v →
      (ofVolumes vols volume gen).metaVolume.getNblocks i = (.ok, v.writePos) := by
  intro i v hv
  simp only [ofVolumes, getElem?_map] at hv
  obtain ⟨s, hs, rfl⟩ := map_eq_some_iff.mp hv
  exact getField_metaOf _ hs

section
variable (hadj : Adjusted vols vols' volume') (hvol' : vols'[volume']? = some s')
include hadj hvol'

theorem noEffect_of_empty (hzero : s'.used = 0) {status : Status} (hok : status ≠ .ok)
    (io : WriteOutcome) : NoEffect (ofVolumes vols volume gen) (status, 0)
      (ofVolumes (vols'.set volume' ((s'.begun vols'.length).fault io)) volume'
        (s'.begun vols'.length).generation) := by
  have hbegun : s'.begun vols'.length = s' := if_pos hzero
  rw [hbegun]
  refine ⟨hok, recorded_ofVolumes, ?_⟩
  intro i v hv
  simp only [ofVolumes, getElem?_map] at hv
  obtain ⟨s, hs, rfl⟩ := map_eq_some_iff.mp hv
  have hs' := hadj.old i s hs
  by_cases hi : i = volume'
  · -- the volume that was moved to: there was nothing in it
    subst hi
    have hsame : s = s' := some.inj (hs'.symm.trans hvol')
    subst hsame
    have hset : (vols'.set i (s.fault io))[i]? = some (s.fault io) := getElem?_set_self hadj.cursor
    refine ⟨_, volumes_ofVolumes hset, ?_, ?_⟩
    · have hgen : ((s.fault io).desc i).generation = (s.desc i).generation := by
        rw [desc_fault]
      simp [metaVolume_ofVolumes, MetaVolume.getGeneration, getField_metaOf _ hset,
        getField_metaOf _ hs, hgen]
    · have hnone : s.volume.writePos = 0 := hzero
      omega
  · have hset : (vols'.set volume' (s'.fault io))[i]? = some s :=
      (getElem?_set_ne (fun h => hi h.symm)).trans hs'
    refine ⟨_, volumes_ofVolumes hset, ?_, fun _ _ => rfl⟩
    simp [metaVolume_ofVolumes, MetaVolume.getGeneration, getField_metaOf _ hset, getField_metaOf _ hs]

/-- A failed write that found a volume with blocks: they cannot be read any more. -/
theorem not_noEffect_of_used (hused : s'.used ≠ 0) {status : Status}
    (io : WriteOutcome) : ¬ NoEffect (ofVolumes vols volume gen) (status, 0)
      (ofVolumes (vols'.set volume' ((s'.begun vols'.length).fault io)) volume'
        (s'.begun vols'.length).generation) := by
  intro h
  have hold : vols[volume']? = some s' := (hadj.new volume' s' hvol').resolve_right hused
  obtain ⟨v', hv', -, hread⟩ := h.kept volume' s'.volume (volumes_ofVolumes hold)
  rw [volumes_ofVolumes (getElem?_set_self hadj.cursor)] at hv'
  cases hv'
  have hfirst := hread 0 (pos_of_ne_zero hused)
  have hbefore : ¬ s'.volume.writePos ≤ 0 := fun hle => hused (Nat.le_zero.mp hle)
  have hafter : ((s'.begun vols'.length).fault io).volume.writePos ≤ 0 := by
    have : ((s'.begun vols'.length).fault io).used = 0 := by rw [fault_used, begun_used]
    exact this.le
  rw [Volume.readBlock, Volume.readBlock, if_pos hafter, if_neg hbefore] at hfirst
  exact absurd (Prod.mk.inj hfirst).1 (by decide)

end

end Runs

/-! ## Results -/

theorem agrees_create {capacities : List Nat} {fs0 : FileStorage} (hne : capacities ≠ [])
    (hfit : ∀ c ∈ capacities, c < 2 ^ 32) (hcreate : create capacities = some fs0) :
    fs0.Agrees := by
  obtain ⟨hcap, rfl⟩ := create_inv hcreate hfit
  refine ⟨_, _, _, rfl, ?_, newVolumes_sized hcap⟩
  rw [newVolumes, length_mapIdx]
  exact length_pos_of_ne_nil hne

/-- **Failed writes.** After any run of a store in which failed writes had no effect, a
further write that fails has no effect if and only if the current volume is full and
the volume that is moved to has no blocks. -/
theorem failed_write_iff (kind : StoreKind) {capacities : List Nat} {fs₀ fs : FileStorage}
    (hne : capacities ≠ []) (hfit : ∀ c ∈ capacities, c < 2 ^ 32)
    (hcreate : create capacities = some fs₀) (ops : List StoreOp)
    {results : List (Status × LogicAddr)}
    (hsteps : everyStep kind.appendBlock (StoreOp.harmless kind) ops fs₀ = true)
    (hrun : runStore kind.appendBlock ops fs₀ = some (results, fs)) {io : WriteOutcome}
    (hio : io ≠ .done) (data : Scatter.IOVecBlock) :
    ∃ result fs', kind.appendBlock io data fs = some (result, fs') ∧
      (NoEffect fs result fs' ↔ kind.movesToEmpty fs = true) := by
  obtain ⟨vols, volume, gen, rfl, hlt, hsized⟩ :=
    (agrees_create hne hfit hcreate).run ops hsteps hrun
  obtain ⟨s, hvol⟩ : ∃ s, vols[volume]? = some s := ⟨_, getElem?_eq_getElem hlt⟩
  obtain ⟨vols', volume', hadjust, hadj⟩ := kind.adjust_ofVolumes hvol hsized gen
  obtain ⟨s', hvol'⟩ : ∃ s', vols'[volume']? = some s' := ⟨_, getElem?_eq_getElem hadj.cursor⟩
  have hs' := hadj.sized s' (mem_of_getElem? hvol')
  rw [StoreKind.movesToEmpty_iff hvol hadjust hvol']
  rcases lt_or_ge s.used s.capacity with hroom | hfull
  · obtain ⟨fs', happend⟩ := kind.appendBlock_failed_room hvol hroom hio data
    refine ⟨_, fs', happend, ?_⟩
    constructor
    · intro h
      exact absurd rfl h.refused
    · omega
  · obtain ⟨status, hok, happend⟩ :=
      StoreKind.appendBlock_failed_full hvol hfull hadjust hvol' hs' hio data
    refine ⟨_, _, happend, ?_⟩
    constructor
    · intro h
      refine ⟨hfull, ?_⟩
      by_contra hused
      exact not_noEffect_of_used hadj hvol' hused io h
    · intro h
      exact noEffect_of_empty hadj hvol' h.2 hok io

/-- Two volumes of one block, the first of which is full: a write that fails is refused
and nothing is lost. -/
theorem failed_write_two : ∃ fs₀ results fs result fs', create [1, 1] = some fs₀ ∧
    runStore StoreKind.fixed.appendBlock [.append .done zeroBlock] fs₀ = some (results, fs) ∧
    StoreKind.fixed.appendBlock .seekError oneBlock fs = some (result, fs') ∧
    NoEffect fs result fs' := by
  have hcap : ∀ c ∈ [1, 1], 0 < c ∧ c < 2 ^ 32 := by decide
  have hcreate := create_eq hcap
  have hio : WriteOutcome.seekError ≠ .done := by decide
  have hroom : (newVolumes [1, 1])[0]? = some ⟨1, 0, 0, (VolumeFile.create 1).block⟩ := rfl
  have hrun : runStore StoreKind.fixed.appendBlock [.append .done zeroBlock]
      (ofVolumes (newVolumes [1, 1]) 0 0) = some ([(.ok, makeLogic 0 0)],
        ofVolumes ((newVolumes [1, 1]).set 0
          (.push ⟨1, 0, 0, (VolumeFile.create 1).block⟩ zeroBlock)) 0 0) := by
    rw [runStore, StoreOp.step, StoreKind.appendBlock,
      appendBlock_room _ hroom (by decide) (by decide)]
    rfl
  obtain ⟨result, fs', happend, hiff⟩ := failed_write_iff .fixed (cons_ne_nil _ _)
    (fun c hc => (hcap c hc).2) hcreate [.append .done zeroBlock] (by decide +kernel) hrun hio
    oneBlock
  exact ⟨_, _, _, result, fs', hcreate, hrun, happend, hiff.mpr (by decide +kernel)⟩

/-- A seek error on a new volume of two blocks. The write is answered with Ok and the
address of block 0, and one block is recorded, but none can be read. -/
theorem failed_write_recorded :
    ((create [2]).bind (StoreKind.fixed.appendBlock .seekError oneBlock)).map (fun (result, fs) =>
        (result, fs.metaVolume.getNblocks 0, fs.volumes.map fun v => (v.readBlock 0).1)) =
      some ((.ok, makeLogic 0 0), (.ok, 1), [.overflow]) := by decide +kernel

end FastSTDB
