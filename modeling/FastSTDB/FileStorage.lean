import FastSTDB.Lib.Pairs
import FastSTDB.Volume
import Mathlib.Data.List.Sort

/-
  File storage — blocks in volumes, found by generation and index

  `append_block` writes to the current volume and, when that is full, moves to
  another one: the fixed-size store to the next in a ring, the expandable store to
  the next in a list that grows. A volume with blocks that is moved to is reset and
  gets a new generation. The address of a block is the generation of its volume and
  its index.

  The write cursor is not stored. A store that is opened takes the first volume with
  free space, and the first volume if there is none.

  A store all of whose parts agree (`FileStorage.ofVolumes`) is a list of volume
  states with a cursor: the descriptors in memory and in the registry and the write
  positions say the same. Creating, appending, transitions and reopening lead from
  such stores to such stores.

  Correspondence (C++ ↔ Lean):
    `FileStorage::FileStorage`                     ↔ `FileStorage.construct`
    `FixedSizeFileStorage::*`                      ↔ `FixedSizeFileStorage.*`
    `ExpandableFileStorage::*`                     ↔ `ExpandableFileStorage.*`
    `create_metadata_page`, `FileStorage::create`  ↔ `newDescs`, `FileStorage.create`
  Statistics, names and the dirty flags are left out: nothing modelled reads them.
-/
namespace FastSTDB
open List Option MetaVolume

variable {addr i k : Nat} {files : Nat → VolumeFile} {capacities : List Nat}

/-! ## Addresses -/

def makeLogic (gen addr : Nat) : LogicAddr := gen * 2 ^ 32 + addr

def extractGen (addr : LogicAddr) : Nat := addr / 2 ^ 32

def extractVol (addr : LogicAddr) : Nat := addr % 2 ^ 32

theorem extractGen_makeLogic (gen : Nat) (h : addr < 2 ^ 32) :
    extractGen (makeLogic gen addr) = gen := by
  rw [extractGen, makeLogic]
  omega

theorem extractVol_makeLogic (gen : Nat) (h : addr < 2 ^ 32) :
    extractVol (makeLogic gen addr) = addr := by
  rw [extractVol, makeLogic]
  omega

/-- The address of an index in a generation. -/
def placeAddr (p : Nat × Nat) : LogicAddr := makeLogic p.1 p.2

/-! ## The store -/

structure FileStorage where
  metaVolume : MetaVolume
  volumes : List Volume
  currentVolume : Nat
  currentGen : Nat

namespace FileStorage

/-- The volumes in the order of their ids; the `ix`-th is opened at the number of
blocks of the `ix`-th descriptor. -/
def openVolumes (metaVolume : MetaVolume) (files : Nat → VolumeFile) :
    List VolumeDesc → Nat → Option (List Volume)
  | [], _ => some []
  | d :: ds, ix =>
    match metaVolume.getNblocks ix with
    | (.ok, nblocks) =>
      (Volume.openExisting (files d.id) nblocks).bind fun v =>
        (openVolumes metaVolume files ds (ix + 1)).map (v :: ·)
    | _ => none

/-- The first volume with free space, and its generation. -/
def findCurrent (metaVolume : MetaVolume) : List Volume → Nat → Nat × Nat
  | [], _ => (0, 0)
  | v :: vs, i =>
    if (metaVolume.getNblocks i).2 < v.file.size then (i, (metaVolume.getGeneration i).2)
    else findCurrent metaVolume vs (i + 1)

/-- `FileStorage(meta)`: the registry holds the descriptors, the disk the files. -/
def construct (registry : List VolumeDesc) (files : Nat → VolumeFile) : Option FileStorage :=
  (openExisting registry).bind fun metaVolume =>
    (openVolumes metaVolume files (registry.insertionSort (fun a b => a.id ≤ b.id)) 0).map
      fun volumes =>
        let (volume, gen) := findCurrent metaVolume volumes 0
        ⟨metaVolume, volumes, volume, gen⟩

def newDescs (capacities : List Nat) : List VolumeDesc :=
  capacities.mapIdx fun ix capacity => ⟨ix, 0, capacity, ix⟩

def create (capacities : List Nat) : Option FileStorage :=
  construct (newDescs capacities) fun ix => .create (capacities.getD ix 0)

def reopen (fs : FileStorage) : Option FileStorage :=
  construct fs.metaVolume.registry fun ix => ((fs.volumes[ix]?).map Volume.file).getD ⟨0, fun _ => []⟩

def setVolume (fs : FileStorage) (v : Volume) : FileStorage :=
  { fs with volumes := fs.volumes.set fs.currentVolume v }

section Transition
variable (adjustCurrentVolume : FileStorage → Option FileStorage)

/-- Move to another volume; a volume with blocks is reset and gets a new generation. -/
def handleVolumeTransition (fs : FileStorage) : Option FileStorage :=
  (adjustCurrentVolume fs).bind fun fs =>
    match fs.metaVolume.getGeneration fs.currentVolume, fs.metaVolume.getNblocks fs.currentVolume,
      fs.volumes[fs.currentVolume]? with
    | (.ok, gen), (.ok, nblocks), some v =>
      if nblocks ≠ 0 then
        let gen := u32 (gen + fs.volumes.length)
        match fs.metaVolume.setGeneration fs.currentVolume gen with
        | (.ok, metaVolume) =>
          match metaVolume.setNblocks fs.currentVolume 0 with
          | (.ok, metaVolume) => some { fs.setVolume v.reset with metaVolume, currentGen := gen }
          | _ => none
        | _ => none
      else some { fs with currentGen := gen }
    | _, _, _ => none

/-- Record the block and return its address. -/
def recordBlock (fs : FileStorage) (addr : Nat) : Option ((Status × LogicAddr) × FileStorage) :=
  match fs.metaVolume.setNblocks fs.currentVolume (u32 (addr + 1)) with
  | (.ok, metaVolume) => some ((.ok, makeLogic fs.currentGen addr), { fs with metaVolume })
  | _ => none

/-- `append_block`. Of the errors of the first attempt only an overflow is looked at. -/
def appendBlock (io : WriteOutcome) (data : Scatter.IOVecBlock) (fs : FileStorage) :
    Option ((Status × LogicAddr) × FileStorage) :=
  (fs.volumes[fs.currentVolume]?).bind fun v =>
    let ((status, addr), v) := v.appendBlock io data
    let fs := fs.setVolume v
    if status = .overflow then
      (fs.handleVolumeTransition adjustCurrentVolume).bind fun fs =>
        (fs.volumes[fs.currentVolume]?).bind fun v =>
          let ((status, addr), v) := v.appendBlock io data
          let fs := fs.setVolume v
          if status ≠ .ok then some ((status, 0), fs) else fs.recordBlock addr
    else fs.recordBlock addr

end Transition

section
variable (fs : FileStorage) (volix : Nat) (addr : LogicAddr)

/-- The volume at index `volix` decides whether the address exists. -/
def existsIn : Bool :=
  match fs.metaVolume.getGeneration volix, fs.metaVolume.getNblocks volix with
  | (.ok, gen), (.ok, nblocks) =>
    decide (gen = extractGen addr) && decide (extractVol addr < nblocks)
  | _, _ => false

/-- Reading the block at an address from the volume at index `volix`. -/
def readIn : Option (Status × Option Scatter.IOVecBlock) :=
  match fs.metaVolume.getGeneration volix, fs.metaVolume.getNblocks volix with
  | (.ok, gen), (.ok, nblocks) =>
    if gen ≠ extractGen addr ∨ nblocks ≤ extractVol addr then some (.unavailable, none)
    else (fs.volumes[volix]?).map fun v => v.readBlock (extractVol addr)
  | _, _ => some (.badArg, none)

end

end FileStorage

namespace FixedSizeFileStorage

def adjustCurrentVolume (fs : FileStorage) : Option FileStorage :=
  some { fs with currentVolume := (fs.currentVolume + 1) % fs.volumes.length }

def appendBlock : WriteOutcome → Scatter.IOVecBlock → FileStorage →
    Option ((Status × LogicAddr) × FileStorage) :=
  FileStorage.appendBlock adjustCurrentVolume

def contains (fs : FileStorage) (addr : LogicAddr) : Bool :=
  fs.existsIn (extractGen addr % fs.volumes.length) addr

def readIovecBlock (fs : FileStorage) (addr : LogicAddr) :
    Option (Status × Option Scatter.IOVecBlock) :=
  fs.readIn (extractGen addr % fs.volumes.length) addr

end FixedSizeFileStorage

namespace ExpandableFileStorage

/-- A new volume has the size of the one before it. -/
def adjustCurrentVolume (fs : FileStorage) : Option FileStorage :=
  let current := fs.currentVolume + 1
  if fs.volumes.length ≤ current then
    (fs.volumes[fs.currentVolume]?).bind fun prev =>
      (Volume.openExisting (.create prev.file.size) 0).map fun v =>
        { fs with
          metaVolume := fs.metaVolume.addVolume current v.file.size
          volumes := fs.volumes ++ [v]
          currentVolume := current }
  else some { fs with currentVolume := current }

def appendBlock : WriteOutcome → Scatter.IOVecBlock → FileStorage →
    Option ((Status × LogicAddr) × FileStorage) :=
  FileStorage.appendBlock adjustCurrentVolume

def contains (fs : FileStorage) (addr : LogicAddr) : Bool := fs.existsIn (extractGen addr) addr

def readIovecBlock (fs : FileStorage) (addr : LogicAddr) :
    Option (Status × Option Scatter.IOVecBlock) :=
  fs.readIn (extractGen addr) addr

end ExpandableFileStorage

/-! ## Sessions -/

inductive StoreOp where
  | append (io : WriteOutcome) (data : Scatter.IOVecBlock)
  | flush
  | reopen
  deriving DecidableEq

section Sessions
variable (appendBlock : WriteOutcome → Scatter.IOVecBlock → FileStorage →
  Option ((Status × LogicAddr) × FileStorage))

/-- One step; flushing volumes and descriptors does nothing. -/
def StoreOp.step (op : StoreOp) (fs : FileStorage) :
    Option (List (Status × LogicAddr) × FileStorage) :=
  match op with
  | .append io data => (appendBlock io data fs).map fun (result, fs) => ([result], fs)
  | .flush => some ([], fs)
  | .reopen => fs.reopen.map ([], ·)

def runStore : List StoreOp → FileStorage → Option (List (Status × LogicAddr) × FileStorage)
  | [], fs => some ([], fs)
  | op :: ops, fs =>
    (op.step appendBlock fs).bind fun (results, fs) =>
      (runStore ops fs).map fun (results', fs) => (results ++ results', fs)

/-- A condition on every step of a run and the store before it. -/
def everyStep (cond : StoreOp → FileStorage → Bool) : List StoreOp → FileStorage → Bool
  | [], _ => true
  | op :: ops, fs =>
    cond op fs &&
      match op.step appendBlock fs with
      | some (_, fs) => everyStep cond ops fs
      | none => true

end Sessions

section Sessions
variable {appendBlock : WriteOutcome → Scatter.IOVecBlock → FileStorage →
  Option ((Status × LogicAddr) × FileStorage)} {cond : StoreOp → FileStorage → Bool}
  {ops' : List StoreOp}

theorem runStore_silent {op : StoreOp} {fs fs' : FileStorage}
    (h : op.step appendBlock fs = some ([], fs')) (ops : List StoreOp) :
    runStore appendBlock (op :: ops) fs = runStore appendBlock ops fs' := by simp [runStore, h]

theorem everyStep_left : ∀ {ops : List StoreOp} {fs : FileStorage},
    everyStep appendBlock cond (ops ++ ops') fs = true → everyStep appendBlock cond ops fs = true
  | [], _, _ => rfl
  | op :: ops, fs, h => by
    rw [cons_append, everyStep, Bool.and_eq_true] at h
    rw [everyStep, Bool.and_eq_true]
    refine ⟨h.1, ?_⟩
    have hrest := h.2
    cases hstep : op.step appendBlock fs with
    | none => rfl
    | some r =>
      rw [hstep] at hrest
      exact everyStep_left hrest

theorem everyStep_right : ∀ {ops : List StoreOp} {fs fs' : FileStorage}
    {results : List (Status × LogicAddr)}, everyStep appendBlock cond (ops ++ ops') fs = true →
    runStore appendBlock ops fs = some (results, fs') → everyStep appendBlock cond ops' fs' = true
  | [], _, _, _, h, hrun => by
    cases hrun
    exact h
  | op :: ops, fs, fs', results, h, hrun => by
    rw [cons_append, everyStep, Bool.and_eq_true] at h
    rw [runStore, bind_eq_some_iff] at hrun
    obtain ⟨r, hstep, hrun⟩ := hrun
    obtain ⟨r', hrun', heq⟩ := map_eq_some_iff.mp hrun
    have hrest := h.2
    rw [hstep] at hrest
    obtain ⟨-, rfl⟩ := Prod.mk.inj heq
    exact everyStep_right hrest hrun'

end Sessions

def appendCount (ops : List StoreOp) : Nat :=
  ops.countP fun
    | .append _ _ => true
    | _ => false

theorem appendCount_append (io : WriteOutcome) (data : Scatter.IOVecBlock) (ops : List StoreOp) :
    appendCount (.append io data :: ops) = appendCount ops + 1 := countP_cons_of_pos rfl

def withoutReopen (ops : List StoreOp) : List StoreOp := ops.filter (· ≠ .reopen)

def FileStorage.hasRoom (fs : FileStorage) : Bool :=
  fs.volumes.any fun v => decide (v.writePos < v.file.size)

/-- The cursor that a reopening finds is right. -/
def FixedSizeFileStorage.resumes (fs : FileStorage) : Bool :=
  fs.hasRoom || fs.currentVolume == 0

def ExpandableFileStorage.resumes (fs : FileStorage) : Bool :=
  fs.hasRoom || fs.volumes.length == 1

/-- Writes succeed, and stores are reopened when the cursor can be found. -/
def StoreOp.safe (resumes : FileStorage → Bool) (op : StoreOp) (fs : FileStorage) : Bool :=
  match op with
  | .append io _ => io == .done
  | .flush => true
  | .reopen => resumes fs

variable {fs : FileStorage} {s : VolumeState}

theorem StoreOp.safe_append {resumes : FileStorage → Bool} {io : WriteOutcome}
    {data : Scatter.IOVecBlock}
    (h : (StoreOp.append io data).safe resumes fs = true) : io = .done := by
  simpa [StoreOp.safe] using h

/-! ## Stores whose parts agree -/

/-- A volume and what is recorded of it. -/
structure VolumeState where
  capacity : Nat
  used : Nat
  generation : Nat
  block : Nat → List UInt8

namespace VolumeState

def desc (id : Nat) (s : VolumeState) : VolumeDesc := ⟨id, s.used, s.capacity, s.generation⟩

def volume (s : VolumeState) : Volume := ⟨⟨s.capacity, s.block⟩, s.used⟩

def push (s : VolumeState) (data : Scatter.IOVecBlock) : VolumeState :=
  { s with
    used := s.used + 1
    block := Function.update s.block (blockOffset s.used) data.iovecs }

/-- The volume with one more block, at the index `p.2` of the generation `p.1`. -/
def filled (p : Nat × Nat) (data : Scatter.IOVecBlock) (s : VolumeState) : VolumeState :=
  ({ s with used := p.2, generation := p.1 } : VolumeState).push data

theorem filled_eq_push {p : Nat × Nat} (data : Scatter.IOVecBlock) (hg : s.generation = p.1)
    (hu : s.used = p.2) : s.filled p data = s.push data := by rw [filled, ← hg, ← hu]

theorem filled_block_self (p : Nat × Nat) (data : Scatter.IOVecBlock) :
    (s.filled p data).block (blockOffset p.2) = data.iovecs := Function.update_self _ _ _

theorem filled_block_of_lt {p : Nat × Nat} (hk : k < p.2) (hp : p.2 < 2 ^ 20)
    (data : Scatter.IOVecBlock) :
    (s.filled p data).block (blockOffset k) = s.block (blockOffset k) := by
  have hne := fun he => hk.ne (blockOffset_inj (hk.trans hp) hp he)
  simp only [filled, push, Function.update_of_ne hne]

/-- The volume as a transition among `n` volumes leaves it. -/
def begun (n : Nat) (s : VolumeState) : VolumeState :=
  if s.used = 0 then s else { s with used := 0, generation := u32 (s.generation + n) }

/-- The numbers fit into 32 bits, and the file exists. -/
structure Sized (s : VolumeState) : Prop where
  pos : 0 < s.capacity
  lt : s.capacity < 2 ^ 32
  used_le : s.used ≤ s.capacity

theorem begun_used (n : Nat) : (s.begun n).used = 0 := by
  unfold begun
  split
  · assumption
  · rfl

theorem begun_capacity (n : Nat) : (s.begun n).capacity = s.capacity := by
  unfold begun
  split <;> rfl

theorem Sized.begun (h : s.Sized) (n : Nat) : (s.begun n).Sized := by
  refine ⟨?_, ?_, ?_⟩
  · rw [begun_capacity]; exact h.pos
  · rw [begun_capacity]; exact h.lt
  · rw [begun_used]; exact zero_le

theorem Sized.begun_room (h : s.Sized) (n : Nat) : (s.begun n).used < (s.begun n).capacity := by
  rw [begun_used]
  exact (h.begun n).pos

end VolumeState

namespace FileStorage
open VolumeState (desc begun begun_used)

def metaOf (vols : List VolumeState) : MetaVolume :=
  ⟨vols.mapIdx desc, vols.mapIdx desc⟩

def ofVolumes (vols : List VolumeState) (volume gen : Nat) : FileStorage where
  metaVolume := metaOf vols
  volumes := vols.map VolumeState.volume
  currentVolume := volume
  currentGen := gen

variable {vols : List VolumeState} {volume gen : Nat}

theorem getField_metaOf (field : VolumeDesc → Nat) (h : vols[i]? = some s) :
    (metaOf vols).getField field i = (.ok, field (s.desc i)) := by simp [getField, metaOf, h]

theorem metaVolume_ofVolumes : (ofVolumes vols volume gen).metaVolume = metaOf vols := rfl

theorem currentVolume_ofVolumes : (ofVolumes vols volume gen).currentVolume = volume := rfl

theorem volumes_ofVolumes (h : vols[i]? = some s) :
    (ofVolumes vols volume gen).volumes[i]? = some s.volume := by simp [ofVolumes, h]

theorem length_volumes : (ofVolumes vols volume gen).volumes.length = vols.length := length_map _

theorem mapIdx_desc_set : (vols.mapIdx desc).set i (s.desc i) = (vols.set i s).mapIdx desc := by
  apply ext_getElem?
  intro j
  simp only [getElem?_set, getElem?_mapIdx, length_mapIdx]
  by_cases hij : i = j
  · subst hij
    simp only [if_true]
    split <;> rfl
  · simp only [if_neg hij]

theorem setField_metaOf (change : VolumeDesc → VolumeDesc) {s' : VolumeState}
    (h : vols[i]? = some s) (hs : change (s.desc i) = s'.desc i) :
    (metaOf vols).setField change i = (.ok, metaOf (vols.set i s')) := by
  have hid : (s'.desc i).id = i := rfl
  simp only [setField, metaOf, getElem?_mapIdx, h, map_some, hs, hid, mapIdx_desc_set]

theorem getD_le {l : List Nat} {b : Nat} (h : ∀ c ∈ l, c ≤ b) (i : Nat) : l.getD i 0 ≤ b := by
  rw [getD_eq_getElem?_getD]
  cases hc : l[i]? with
  | none => exact zero_le
  | some c => exact h c (mem_of_getElem? hc)

theorem modify_eq_set {α : Type} {l : List α} {a : α} (h : l[i]? = some a) (f : α → α) :
    l.modify i f = l.set i (f a) := by
  rw [modify_eq_set_getElem?, h]
  rfl

/-! ## Appending -/

theorem recordBlock_push (h : vols[volume]? = some s) (hlt : s.used + 1 < 2 ^ 32) (gen : Nat)
    (data : Scatter.IOVecBlock) : ({ ofVolumes vols volume gen with
        volumes := (vols.set volume (s.push data)).map VolumeState.volume } : FileStorage).recordBlock
          s.used =
      some ((.ok, makeLogic gen s.used), ofVolumes (vols.set volume (s.push data)) volume gen) := by
  have hset : (metaOf vols).setNblocks volume (u32 (s.used + 1)) =
      (.ok, metaOf (vols.set volume (s.push data))) := by
    apply setField_metaOf _ h
    rw [u32_eq hlt]
    rfl
  simp only [recordBlock, ofVolumes, hset]

theorem volume_appendBlock (hroom : s.used < s.capacity) (hlt : s.capacity < 2 ^ 32)
    (data : Scatter.IOVecBlock) :
    s.volume.appendBlock .done data = ((.ok, s.used), (s.push data).volume) := by
  have hnot : ¬ s.volume.file.size ≤ s.volume.writePos := not_le.mpr hroom
  rw [Volume.appendBlock, if_neg hnot]
  have hpos : u32 (s.volume.writePos + 1) = s.used + 1 := u32_eq (lt_of_le_of_lt hroom hlt)
  simp only [hpos]
  rfl

theorem appendBlock_room (adjust : FileStorage → Option FileStorage) (h : vols[volume]? = some s)
    (hroom : s.used < s.capacity) (hlt : s.capacity < 2 ^ 32) (gen : Nat)
    (data : Scatter.IOVecBlock) : appendBlock adjust .done data (ofVolumes vols volume gen) =
      some ((.ok, makeLogic gen s.used), ofVolumes (vols.set volume (s.push data)) volume gen) := by
  have hrec := recordBlock_push h (lt_of_le_of_lt hroom hlt) gen data
  rw [map_set] at hrec
  rw [appendBlock, currentVolume_ofVolumes, volumes_ofVolumes h, bind_some, volume_appendBlock hroom hlt]
  exact hrec

variable {adjust : FileStorage → Option FileStorage} {vols' : List VolumeState}

theorem handleVolumeTransition_begun (hadjust : adjust fs = some (ofVolumes vols volume gen))
    (h : vols[volume]? = some s) : fs.handleVolumeTransition adjust =
      some (ofVolumes (vols.set volume (s.begun vols.length)) volume
        (s.begun vols.length).generation) := by
  rw [handleVolumeTransition, hadjust, bind_some]
  simp only [currentVolume_ofVolumes, metaVolume_ofVolumes, getGeneration, getNblocks,
    getField_metaOf _ h, volumes_ofVolumes h, length_volumes]
  by_cases hused : s.used = 0
  · -- an empty volume is taken as it is
    have hdesc : ¬ (s.desc volume).nblocks ≠ 0 := fun hn => hn hused
    rw [if_neg hdesc, begun, if_pos hused, set_same h]
    rfl
  · have hdesc : (s.desc volume).nblocks ≠ 0 := hused
    let s1 : VolumeState := { s with generation := u32 (s.generation + vols.length) }
    have hgen : (metaOf vols).setGeneration volume
        (u32 ((s.desc volume).generation + vols.length)) = (.ok, metaOf (vols.set volume s1)) :=
      setField_metaOf _ h rfl
    have hlt := lt_of_getElem? h
    have h1 : (vols.set volume s1)[volume]? = some s1 := getElem?_set_self hlt
    have hn : (metaOf (vols.set volume s1)).setNblocks volume 0 =
        (.ok, metaOf ((vols.set volume s1).set volume { s1 with used := 0 })) :=
      setField_metaOf _ h1 rfl
    rw [if_pos hdesc]
    simp only [hgen, hn, set_set]
    rw [begun, if_neg hused]
    simp only [ofVolumes, map_set]
    rfl

section
variable (h : vols[volume]? = some s) (hfull : s.capacity ≤ s.used) {volume' gen' : Nat}
  (hadjust : adjust (ofVolumes vols volume gen) = some (ofVolumes vols' volume' gen'))
  {s' : VolumeState} (h' : vols'[volume']? = some s')
include h hfull hadjust h'

/-- When the current volume is full, the block goes to the volume moved to. -/
theorem appendBlock_overflow (io : WriteOutcome) (data : Scatter.IOVecBlock) {status : Status}
    {w : VolumeState}
    (hsecond : (s'.begun vols'.length).volume.appendBlock io data = ((status, addr), w.volume)) :
    appendBlock adjust io data (ofVolumes vols volume gen) =
      let fs : FileStorage := { ofVolumes (vols'.set volume' (s'.begun vols'.length)) volume'
            (s'.begun vols'.length).generation with
          volumes := (vols'.set volume' w).map VolumeState.volume }
      if status ≠ .ok then some ((status, 0), fs) else fs.recordBlock addr := by
  have hsame : (ofVolumes vols volume gen).setVolume s.volume = ofVolumes vols volume gen := by
    rw [setVolume, currentVolume_ofVolumes, set_same (volumes_ofVolumes h)]
    rfl
  have hover : s.volume.appendBlock io data = ((.overflow, 0), s.volume) := if_pos hfull
  have hlt' := lt_of_getElem? h'
  rw [appendBlock, currentVolume_ofVolumes, volumes_ofVolumes h, bind_some, hover]
  simp only [hsame]
  rw [handleVolumeTransition_begun hadjust h', bind_some, currentVolume_ofVolumes,
    volumes_ofVolumes (getElem?_set_self hlt'), bind_some, hsecond]
  have hset : (vols'.set volume' w).map VolumeState.volume =
      ((vols'.set volume' (s'.begun vols'.length)).map VolumeState.volume).set volume' w.volume := by
    rw [← map_set, set_set]
  simp only [hset]
  rfl

theorem appendBlock_full (hs' : s'.Sized) (data : Scatter.IOVecBlock) :
    appendBlock adjust .done data (ofVolumes vols volume gen) =
      some ((.ok, makeLogic (s'.begun vols'.length).generation 0),
        ofVolumes (vols'.set volume' ((s'.begun vols'.length).push data)) volume'
          (s'.begun vols'.length).generation) := by
  have hroom := hs'.begun_room vols'.length
  have hcap := (hs'.begun vols'.length).lt
  have hsecond := volume_appendBlock hroom hcap data
  have hrec := recordBlock_push (getElem?_set_self (lt_of_getElem? h'))
    (lt_of_le_of_lt hroom hcap) (s'.begun vols'.length).generation data
  rw [set_set, begun_used] at hrec
  rw [appendBlock_overflow h hfull hadjust h' .done data hsecond, begun_used]
  exact hrec

end

theorem adjustCurrentVolume_next (h : volume + 1 < vols.length) :
    ExpandableFileStorage.adjustCurrentVolume (ofVolumes vols volume gen) =
      some (ofVolumes vols (volume + 1) gen) := by
  rw [ExpandableFileStorage.adjustCurrentVolume, length_volumes]
  exact if_neg (not_le.mpr h)

theorem adjustCurrentVolume_last (h : vols[volume]? = some s) (hpos : 0 < s.capacity)
    (hlen : vols.length = volume + 1) :
    ExpandableFileStorage.adjustCurrentVolume (ofVolumes vols volume gen) =
      some (ofVolumes (vols ++ [⟨s.capacity, 0, volume + 1, (VolumeFile.create s.capacity).block⟩])
        (volume + 1) gen) := by
  have hopen : Volume.openExisting (.create s.volume.file.size) 0 =
      some ⟨.create s.capacity, 0⟩ := if_neg hpos.ne'
  simp only [ExpandableFileStorage.adjustCurrentVolume, currentVolume_ofVolumes, length_volumes,
    if_pos hlen.le, volumes_ofVolumes h, bind_some, hopen]
  simp only [ofVolumes, metaOf, map_append, mapIdx_append, mapIdx_singleton,
    hlen, zero_add]
  rfl

/-! ## Opening -/

def firstFree : List VolumeState → Nat → Nat × Nat
  | [], _ => (0, 0)
  | s :: ss, i => if s.used < s.capacity then (i, s.generation) else firstFree ss (i + 1)

/-- Either all volumes are full, or the first with free space is found. -/
theorem firstFree_spec : ∀ (vols : List VolumeState) (k : Nat),
    (firstFree vols k = (0, 0) ∧ ∀ s ∈ vols, s.capacity ≤ s.used) ∨
    ∃ i s, firstFree vols k = (k + i, s.generation) ∧ vols[i]? = some s ∧ s.used < s.capacity ∧
      ∀ j s', j < i → vols[j]? = some s' → s'.capacity ≤ s'.used
  | [], _ => .inl ⟨rfl, fun _ h => (by cases h)⟩
  | s :: ss, k => by
    rw [firstFree]
    by_cases hroom : s.used < s.capacity
    · rw [if_pos hroom]
      exact .inr ⟨0, s, rfl, rfl, hroom, fun j s' hj => absurd hj (Nat.not_lt_zero j)⟩
    · rw [if_neg hroom]
      have hfull : s.capacity ≤ s.used := not_lt.mp hroom
      rcases firstFree_spec ss (k + 1) with ⟨heq, hall⟩ | ⟨i, s', heq, hi, hfree, hbefore⟩
      · exact .inl ⟨heq, forall_mem_cons.mpr ⟨hfull, hall⟩⟩
      · refine .inr ⟨i + 1, s', ?_, hi, hfree, ?_⟩
        · rw [heq, add_assoc, add_comm 1 i]
        · intro j s'' hj hs''
          cases j with
          | zero => cases hs''; exact hfull
          | succ j => exact hbefore j s'' (Nat.lt_of_succ_lt_succ hj) hs''

theorem openExisting_mapIdx : openExisting (vols.mapIdx desc) = some (metaOf vols) := by
  let l := vols.mapIdx desc
  have hfind : ∀ id ∈ range l.length,
      l.find? (fun d => d.id == id) = some (l.getD id ⟨0, 0, 0, 0⟩) := by
    intro id hid
    have hlt := mem_range.mp hid
    have hids : ∀ i (hi : i < l.length), l[i].id = i := by
      simp [l, desc]
    rw [find?_eq_some_iff_getElem, getD_eq_getElem?_getD, getElem?_eq_getElem hlt]
    refine ⟨by simp [hids id hlt], id, hlt, rfl, ?_⟩
    intro j hj
    simp [hids j (hj.trans hlt), hj.ne]
  have hall : (range l.length).map (fun id => l.getD id ⟨0, 0, 0, 0⟩) = l := by
    apply ext_getElem
    · simp
    · intro i _ hi
      simp [getElem?_eq_getElem hi]
  rw [openExisting, Pairs.mapM_pure (forall₂_same.mpr hfind), hall]
  rfl

theorem drop_eq_cons {l : List VolumeState} (h : vols.drop k = s :: l) :
    vols[k]? = some s ∧ vols.drop (k + 1) = l := by
  constructor
  · rw [← head?_drop, h]
    rfl
  · rw [← tail_drop, h]
    rfl

theorem openVolumes_drop (hfiles : ∀ i s, vols[i]? = some s → files i = s.volume.file ∧ s.Sized) :
    ∀ (l : List VolumeState) (k : Nat), vols.drop k = l →
    openVolumes (metaOf vols) files (l.mapIdx fun i s => s.desc (k + i)) k =
      some (l.map VolumeState.volume)
  | [], _, _ => rfl
  | s :: l, k, h => by
    obtain ⟨hs, hl⟩ := drop_eq_cons h
    have ih := openVolumes_drop hfiles l (k + 1) hl
    obtain ⟨hfile, hsize⟩ := hfiles k s hs
    have hid : (s.desc (k + 0)).id = k := rfl
    have hopen : Volume.openExisting (files k) (s.desc k).nblocks = some s.volume := by
      have hne : ¬ s.volume.file.size = 0 := hsize.pos.ne'
      rw [Volume.openExisting, hfile, if_neg hne]
      have hused : u32 (s.desc k).nblocks = s.used := u32_eq (hsize.used_le.trans_lt hsize.lt)
      rw [hused]
      rfl
    have hrest : (fun i s' => desc (k + (i + 1)) s') =
        fun i s' => desc (k + 1 + i) s' := by
      funext i s'
      rw [add_assoc, add_comm 1 i]
    rw [mapIdx_cons, hrest, openVolumes]
    simp only [getNblocks, getField_metaOf _ hs, hid, hopen, bind_some, ih, map_some, map_cons]

theorem findCurrent_drop : ∀ (l : List VolumeState) (k : Nat), vols.drop k = l →
    findCurrent (metaOf vols) (l.map VolumeState.volume) k = firstFree l k
  | [], _, _ => rfl
  | s :: l, k, h => by
    obtain ⟨hs, hl⟩ := drop_eq_cons h
    rw [map_cons, findCurrent, findCurrent_drop l (k + 1) hl]
    simp only [getNblocks, getGeneration, getField_metaOf _ hs]
    rfl

theorem construct_ofVolumes
    (hfiles : ∀ i s, vols[i]? = some s → files i = s.volume.file ∧ s.Sized) :
    construct (vols.mapIdx desc) files =
      some (ofVolumes vols (firstFree vols 0).1 (firstFree vols 0).2) := by
  have hsorted : (vols.mapIdx desc).insertionSort (fun a b => a.id ≤ b.id) = vols.mapIdx desc := by
    apply Pairwise.insertionSort_eq
    rw [pairwise_iff_getElem]
    intro i j hi hj hij
    simpa [desc] using hij.le
  have hopen := openVolumes_drop hfiles vols 0 drop_zero
  simp only [zero_add] at hopen
  have hfind := findCurrent_drop vols 0 drop_zero
  rw [construct, openExisting_mapIdx, bind_some, hsorted, hopen, map_some]
  simp only [hfind]
  rfl

theorem reopen_ofVolumes (volume gen : Nat)
    (h : ∀ (i : Nat) (s : VolumeState), vols[i]? = some s → s.Sized)
    (appendBlock : WriteOutcome → Scatter.IOVecBlock → FileStorage →
      Option ((Status × LogicAddr) × FileStorage)) :
    StoreOp.reopen.step appendBlock (ofVolumes vols volume gen) =
      some ([], ofVolumes vols (firstFree vols 0).1 (firstFree vols 0).2) := by
  refine congrArg (Option.map ([], ·)) (construct_ofVolumes fun i s hi => ⟨?_, h i s hi⟩)
  rw [volumes_ofVolumes hi, map_some, getD_some]

theorem hasRoom_of_full (h : ∀ s ∈ vols, s.capacity ≤ s.used) :
    (ofVolumes vols volume gen).hasRoom = false := by
  rw [hasRoom, List.any_eq_false]
  intro v hv
  obtain ⟨s, hs, rfl⟩ := mem_map.mp hv
  rw [decide_eq_true_iff]
  exact not_lt.mpr (h s hs)

/-! ## New stores -/

def newVolumes (capacities : List Nat) : List VolumeState :=
  capacities.mapIdx fun ix capacity => ⟨capacity, 0, ix, (VolumeFile.create capacity).block⟩

theorem newVolumes_getElem? (h : (newVolumes capacities)[i]? = some s) :
    ∃ c, capacities[i]? = some c ∧ s = ⟨c, 0, i, (VolumeFile.create c).block⟩ := by
  rw [newVolumes, getElem?_mapIdx] at h
  obtain ⟨c, hc, rfl⟩ := map_eq_some_iff.mp h
  exact ⟨c, hc, rfl⟩

theorem newVolumes_sized (h : ∀ c ∈ capacities, 0 < c ∧ c < 2 ^ 32) :
    ∀ s ∈ newVolumes capacities, s.Sized := by
  intro s hs
  obtain ⟨i, hi⟩ := getElem?_of_mem hs
  obtain ⟨c, hc, rfl⟩ := newVolumes_getElem? hi
  obtain ⟨hpos, hlt⟩ := h c (mem_of_getElem? hc)
  exact ⟨hpos, hlt, zero_le⟩

theorem create_eq (h : ∀ c ∈ capacities, 0 < c ∧ c < 2 ^ 32) :
    create capacities = some (ofVolumes (newVolumes capacities) 0 0) := by
  have hdescs : newDescs capacities = (newVolumes capacities).mapIdx desc := by
    apply ext_getElem?
    intro i
    simp only [newDescs, newVolumes, getElem?_mapIdx, Option.map_map]
    rfl
  have hfirst : firstFree (newVolumes capacities) 0 = (0, 0) := by
    cases capacities with
    | nil => rfl
    | cons c cs =>
      have hpos : 0 < c := (h c mem_cons_self).1
      rw [newVolumes, mapIdx_cons, firstFree, if_pos hpos]
  rw [create, hdescs, construct_ofVolumes, hfirst]
  intro i s hi
  refine ⟨?_, newVolumes_sized h s (mem_of_getElem? hi)⟩
  obtain ⟨c, hc, rfl⟩ := newVolumes_getElem? hi
  rw [getD_eq_getElem?_getD, hc]
  rfl

theorem openVolumes_size {m : MetaVolume} :
    ∀ {ds : List VolumeDesc} {k : Nat} {vs : List Volume}, openVolumes m files ds k = some vs →
    ∀ d ∈ ds, 0 < (files d.id).size
  | [], _, _, _, _, hd => by cases hd
  | d :: ds, k, vs, h, d', hd' => by
    rw [openVolumes] at h
    split at h
    · rw [bind_eq_some_iff] at h
      obtain ⟨v, hv, hrest⟩ := h
      obtain ⟨vs', hvs', -⟩ := map_eq_some_iff.mp hrest
      rcases mem_cons.mp hd' with rfl | hd'
      · rw [Volume.openExisting] at hv
        split at hv
        · cases hv
        · next hne => exact pos_of_ne_zero hne
      · exact openVolumes_size hvs' d' hd'
    · cases h

theorem create_pos (h : create capacities = some fs) : ∀ c ∈ capacities, 0 < c := by
  intro c hc
  rw [create, construct, bind_eq_some_iff] at h
  obtain ⟨m, -, h⟩ := h
  obtain ⟨vs, hvs, -⟩ := map_eq_some_iff.mp h
  obtain ⟨i, hi⟩ := getElem?_of_mem hc
  have hmem : ⟨i, 0, c, i⟩ ∈
      (newDescs capacities).insertionSort (fun a b => a.id ≤ b.id) := by
    rw [mem_insertionSort]
    apply mem_of_getElem?
    rw [newDescs, getElem?_mapIdx, hi]
    rfl
  have hsize := openVolumes_size hvs _ hmem
  rw [getD_eq_getElem?_getD, hi] at hsize
  exact hsize

theorem create_inv (h : create capacities = some fs) (hlt : ∀ c ∈ capacities, c < 2 ^ 32) :
    (∀ c ∈ capacities, 0 < c ∧ c < 2 ^ 32) ∧ ofVolumes (newVolumes capacities) 0 0 = fs := by
  have hcap := fun c hc => And.intro (create_pos h c hc) (hlt c hc)
  rw [create_eq hcap] at h
  exact ⟨hcap, some.inj h⟩

/-! ## Reading -/

theorem existsIn_ofVolumes {g : Nat} (h : vols[i]? = some s) (hk : k < 2 ^ 32) :
    (ofVolumes vols volume gen).existsIn i (makeLogic g k) =
      (decide (s.generation = g) && decide (k < s.used)) := by
  simp only [existsIn, metaVolume_ofVolumes, getGeneration, getNblocks,
    getField_metaOf _ h, extractGen_makeLogic g hk, extractVol_makeLogic g hk]
  rfl

theorem readIn_ofVolumes {g : Nat} (h : vols[i]? = some s) (hk : k < 2 ^ 32) :
    (ofVolumes vols volume gen).readIn i (makeLogic g k) =
      if s.generation = g ∧ k < s.used then some (.ok, some (.ofBytes (s.block (blockOffset k))))
      else some (.unavailable, none) := by
  have hdead : ((s.desc i).generation ≠ g ∨ (s.desc i).nblocks ≤ k) ↔
      ¬ (s.generation = g ∧ k < s.used) := by
    rw [not_and_or, not_lt]
    rfl
  simp only [readIn, metaVolume_ofVolumes, getGeneration, getNblocks,
    getField_metaOf _ h, extractGen_makeLogic g hk, extractVol_makeLogic g hk, volumes_ofVolumes h,
    map_some, hdead]
  by_cases hlive : s.generation = g ∧ k < s.used
  · have hpos : ¬ s.volume.writePos ≤ k := not_le.mpr hlive.2
    rw [if_neg (not_not.mpr hlive), if_pos hlive, Volume.readBlock, if_neg hpos]
    rfl
  · rw [if_pos hlive, if_neg hlive]

end FileStorage

end FastSTDB
