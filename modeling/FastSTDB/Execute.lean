import FastSTDB.QueryPlan

/-
  Executing a query plan (`queryplan.cc`)

  `QueryPlanExecutor::execute` reads samples into a buffer of 4096 bytes as long as the
  materializer says `Ok`, and hands each sample to the processor. It ends at the
  first other status, on an error, or when the processor wants no more.

  Correspondence (C++ ↔ Lean):
    `IStreamProcessor`              ↔ `StreamProcessor π`
    the loop over the buffer        ↔ `putLoop`
    `QueryPlanExecutor::execute`    ↔ `QueryPlanExecutor.execute`, `executeLoop`

  The classes of materializers are a parameter. The number of reads is bounded, so
  that an execution that never ends has no outcome for any bound.

  1. `executeLoop_replay`: the executor makes the same calls on every processor that
     accepts all samples; `recorder` is one that keeps them.
  2. `executeLoop_drain`, `executeLoop_folds`: it delivers what draining the materializer
     gives.
  3. `executeLoop_keeps`: it delivers nothing else than samples of the reads.
-/
namespace FastSTDB
open List Option Pull

variable {V Op μ π Φ : Type}

/-! ## The executor -/

/-- What the executor calls on a processor; `put` also tells whether to go on. An error is
the status of the plan or that of a read. -/
structure StreamProcessor (π : Type) where
  put : π → Sample → Bool × π
  setError : π → QueryCode ⊕ Status → π

/-- The sample that starts at a byte of the buffer. -/
def sampleAt : List Sample → Nat → Option Sample
  | [], _ => none
  | s :: samples, pos =>
    if pos = 0 then some s
    else if pos < s.payload.space then none
    else sampleAt samples (pos - s.payload.space)

/-- The loop over the buffer: `pos` moves on by `payload.size`. -/
def putLoop (proc : StreamProcessor π) (samples : List Sample) : Nat → Nat → π → Option (Bool × π)
  | 0, _, _ => none
  | fuel + 1, pos, p =>
    if pos < bufferBytes samples then
      (sampleAt samples pos).bind fun s =>
        match proc.put p s with
        | (true, p) => putLoop proc samples fuel (pos + s.payload.size) p
        | (false, p) => some (false, p)
    else some (true, p)

namespace QueryPlanExecutor

def destSize : Nat := 0x1000

/-- The loop of `execute`, for at most `reads` reads. -/
def executeLoop (rd : Reader Status Sample μ Φ) (proc : StreamProcessor π) :
    Nat → Φ → μ → π → Option π
  | 0, _, _, _ => none
  | reads + 1, φ, m, p =>
    (rd φ m destSize).bind fun r =>
      if r.status ≠ .ok ∧ r.status ≠ .noData ∧ r.status ≠ .unavailable then
        some (proc.setError p (.inr r.status))
      else
        (putLoop proc r.out (bufferBytes r.out + 1) 0 p).bind fun (more, p) =>
          if more = true ∧ r.status = .ok then executeLoop rd proc reads r.env r.next p
          else some p

/-- `execute`; `make` constructs the materializers and `rd` reads from them. -/
def execute (cstore : ColumnStore V Op) (plan : TwoStepQueryPlan V)
    (make : (Op → Bool) → ColumnMaterializer Op → Option μ) (rd : Reader Status Sample μ Φ)
    (proc : StreamProcessor π) (reads : Nat) (φ : Φ) (p : π) : Option π :=
  match plan.execute cstore with
  | .ok column => (make cstore.forward column).bind fun m => executeLoop rd proc reads φ m p
  | .error (.status code) => some (proc.setError p (.inl code))
  | .error _ => none

end QueryPlanExecutor

/-! ## Processors that accept every sample -/

inductive Call where
  | put (sample : Sample)
  | setError (error : QueryCode ⊕ Status)

/-- The processor that accepts every sample and keeps the calls. -/
def recorder : StreamProcessor (List Call) where
  put calls s := (true, calls ++ [.put s])
  setError calls error := calls ++ [.setError error]

/-- The processor that keeps the calls and accepts samples as long as the client wants more. -/
def recording (more : List Call → Bool) : StreamProcessor (List Call) where
  put calls s := (more (calls ++ [.put s]), calls ++ [.put s])
  setError calls error := calls ++ [.setError error]

def putSamples (calls : List Call) : List Sample :=
  calls.filterMap fun
    | .put s => some s
    | .setError _ => none

/-- Make the calls on another processor. -/
def StreamProcessor.replay (proc : StreamProcessor π) (p : π) (calls : List Call) : π :=
  calls.foldl (fun p call =>
    match call with
    | .put s => (proc.put p s).2
    | .setError error => proc.setError p error) p

theorem StreamProcessor.replay_concat (proc : StreamProcessor π) (p : π) (calls : List Call)
    (call : Call) : proc.replay p (calls ++ [call]) =
      match call with
      | .put s => (proc.put (proc.replay p calls) s).2
      | .setError error => proc.setError (proc.replay p calls) error := by
  rw [replay, foldl_append]
  rfl

section Accepting
variable {proc : StreamProcessor π} (hacc : ∀ p s, (proc.put p s).1 = true)
include hacc

theorem putLoop_replay (samples : List Sample) (p : π) (fuel pos : Nat) (calls : List Call) :
    putLoop proc samples fuel pos (proc.replay p calls) =
    (putLoop recorder samples fuel pos calls).map fun r => (r.1, proc.replay p r.2) := by
  induction fuel generalizing pos calls with
  | zero => rfl
  | succ fuel ih =>
    rw [putLoop, putLoop]
    by_cases hpos : pos < bufferBytes samples
    · rw [if_pos hpos, if_pos hpos]
      cases sampleAt samples pos with
      | none => rfl
      | some s =>
        have hput : proc.put (proc.replay p calls) s =
            (true, proc.replay p (calls ++ [.put s])) := by
          rw [proc.replay_concat]
          exact Prod.ext (hacc _ _) rfl
        rw [bind_some, hput]
        exact ih (pos + s.payload.size) (calls ++ [.put s])
    · rw [if_neg hpos, if_neg hpos]
      rfl

/-- A processor that accepts every sample gets the calls the recorder gets. -/
theorem executeLoop_replay (rd : Reader Status Sample μ Φ) (p : π) (reads : Nat) (φ : Φ) (m : μ)
    (calls : List Call) : QueryPlanExecutor.executeLoop rd proc reads φ m (proc.replay p calls) =
    (QueryPlanExecutor.executeLoop rd recorder reads φ m calls).map (proc.replay p) := by
  induction reads generalizing φ m calls with
  | zero => rfl
  | succ reads ih =>
    rw [QueryPlanExecutor.executeLoop, QueryPlanExecutor.executeLoop]
    cases rd φ m QueryPlanExecutor.destSize with
    | none => rfl
    | some r =>
      rw [bind_some, bind_some]
      by_cases herr : r.status ≠ .ok ∧ r.status ≠ .noData ∧ r.status ≠ .unavailable
      · rw [if_pos herr, if_pos herr]
        exact congrArg some (proc.replay_concat p calls (.setError (.inr r.status))).symm
      · rw [if_neg herr, if_neg herr, putLoop_replay hacc]
        cases putLoop recorder r.out (bufferBytes r.out + 1) 0 calls with
        | none => rfl
        | some q =>
          obtain ⟨more, calls'⟩ := q
          simp only [map_some, bind_some]
          by_cases hmore : more = true ∧ r.status = .ok
          · rw [if_pos hmore, if_pos hmore]
            exact ih r.env r.next calls'
          · rw [if_neg hmore, if_neg hmore]
            rfl

end Accepting

/-! ## Runs of the executor -/

theorem PData.space_pos (p : PData) : 0 < p.space := by
  have hhead : 0 < sampleSize := Nat.succ_pos 31
  cases p with
  | float _ => exact hhead
  | tuple _ data => exact Nat.add_pos_left hhead _
  | event data => exact Nat.add_pos_left hhead _

theorem sampleAt_append (before rest : List Sample) (s : Sample) :
    sampleAt (before ++ s :: rest) (bufferBytes before) = some s := by
  induction before with
  | nil => rfl
  | cons d before ih =>
    have hpos := d.payload.space_pos
    have hbytes : bufferBytes (d :: before) = d.payload.space + bufferBytes before := by
      simp [bufferBytes]
    rw [cons_append, sampleAt, hbytes, if_neg (by omega), if_neg (by omega),
      Nat.add_sub_cancel_left, ih]

theorem bufferBytes_append (before after : List Sample) :
    bufferBytes (before ++ after) = bufferBytes before + bufferBytes after := by simp [bufferBytes]

variable {samples : List Sample}

/-- The loop over the buffer puts its samples one after the other, if their sizes fit into
`payload.size`. -/
theorem putLoop_recorder (hsmall : ∀ s ∈ samples, s.payload.space < 2 ^ 16)
    (rest before : List Sample) (fuel : Nat) (calls : List Call) (heq : samples = before ++ rest)
    (hfuel : bufferBytes rest < fuel) : putLoop recorder samples fuel (bufferBytes before) calls =
      some (true, calls ++ rest.map .put) := by
  induction rest generalizing before fuel calls with
  | nil =>
    obtain ⟨fuel, rfl⟩ : ∃ k, fuel = k + 1 := ⟨fuel - 1, by omega⟩
    rw [append_nil] at heq
    rw [putLoop, heq, if_neg (lt_irrefl _), map_nil, append_nil]
  | cons s rest ih =>
    obtain ⟨fuel, rfl⟩ : ∃ k, fuel = k + 1 := ⟨fuel - 1, by omega⟩
    have hpos := s.payload.space_pos
    have hbytes : bufferBytes (s :: rest) = s.payload.space + bufferBytes rest := by
      simp [bufferBytes]
    have hsize : s.payload.size = s.payload.space := Nat.mod_eq_of_lt (hsmall s (by rw [heq]; simp))
    have hlt : bufferBytes before < bufferBytes samples := by
      rw [heq, bufferBytes_append]
      omega
    have hat : sampleAt samples (bufferBytes before) = some s := by
      rw [heq]
      exact sampleAt_append before rest s
    have hnext : bufferBytes before + s.payload.space = bufferBytes (before ++ [s]) := by
      simp [bufferBytes]
    have hrest := ih (before ++ [s]) fuel (calls ++ [.put s]) (by rw [heq]; simp) (by omega)
    rw [putLoop, if_pos hlt, hat, bind_some, hsize, hnext]
    show putLoop recorder samples fuel (bufferBytes (before ++ [s])) (calls ++ [.put s]) = _
    rw [hrest, append_assoc]
    rfl

namespace QueryPlanExecutor
variable {rd : Reader Status Sample μ Φ} {φ : Φ} {m : μ}

theorem executeLoop_step {r : Reply Sample μ Φ} (hr : rd φ m destSize = some r)
    (hstatus : r.status = .ok ∨ r.status = .noData) (hsmall : ∀ s ∈ r.out, s.payload.space < 2 ^ 16)
    (reads : Nat) (calls : List Call) : executeLoop rd recorder (reads + 1) φ m calls =
      if r.status = .ok then executeLoop rd recorder reads r.env r.next (calls ++ r.out.map .put)
      else some (calls ++ r.out.map .put) := by
  have hfine : ¬ (r.status ≠ .ok ∧ r.status ≠ .noData ∧ r.status ≠ .unavailable) := by
    rcases hstatus with h | h
    · exact fun hc => hc.1 h
    · exact fun hc => hc.2.1 h
  have hput : putLoop recorder r.out (bufferBytes r.out + 1) 0 calls =
      some (true, calls ++ r.out.map .put) :=
    putLoop_recorder hsmall r.out [] (bufferBytes r.out + 1) calls rfl (lt_add_one _)
  rw [executeLoop, hr, bind_some, if_neg hfine, hput]
  simp

variable {proc : StreamProcessor π} {P : Sample → Prop}

theorem executeLoop_mono {reads reads' : Nat} (hle : reads ≤ reads') :
    ∀ {φ : Φ} {m : μ} {p q : π}, executeLoop rd proc reads φ m p = some q →
      executeLoop rd proc reads' φ m p = some q := by
  induction reads generalizing reads' with
  | zero => intro φ m p q h; cases h
  | succ reads ih =>
    intro φ m p q h
    obtain ⟨reads', rfl⟩ : ∃ k, reads' = k + 1 := ⟨reads' - 1, by omega⟩
    rw [executeLoop] at h ⊢
    obtain ⟨r, hr, h⟩ := bind_eq_some_iff.mp h
    rw [hr, bind_some]
    by_cases herr : r.status ≠ .ok ∧ r.status ≠ .noData ∧ r.status ≠ .unavailable
    · rw [if_pos herr] at h ⊢
      exact h
    · rw [if_neg herr] at h ⊢
      obtain ⟨⟨more, p'⟩, hput, h⟩ := bind_eq_some_iff.mp h
      rw [hput, bind_some]
      simp only at h ⊢
      by_cases hmore : more = true ∧ r.status = .ok
      · rw [if_pos hmore] at h ⊢
        exact ih (by omega) h
      · rw [if_neg hmore] at h ⊢
        exact h

theorem executeLoop_unique {reads reads' : Nat} {p q q' : π}
    (h : executeLoop rd proc reads φ m p = some q)
    (h' : executeLoop rd proc reads' φ m p = some q') : q = q' := by
  have h1 := executeLoop_mono (le_max_left reads reads') h
  have h2 := executeLoop_mono (le_max_right reads reads') h'
  exact some.inj (h1.symm.trans h2)

/-- A materializer inside another type of states is executed in the same way. -/
theorem executeLoop_map {ν : Type} {rd' : Reader Status Sample ν Φ} (f : μ → ν)
    (hf : ∀ φ m n, rd' φ (f m) n =
      (rd φ m n).map (fun r => ⟨r.status, r.out, f r.next, r.env⟩)) (proc : StreamProcessor π)
    (reads : Nat) (φ : Φ) (m : μ) (p : π) :
    executeLoop rd' proc reads φ (f m) p = executeLoop rd proc reads φ m p := by
  induction reads generalizing φ m p with
  | zero => rfl
  | succ reads ih =>
    rw [executeLoop, executeLoop, hf]
    cases rd φ m destSize with
    | none => rfl
    | some r => simp [ih]

/-- If draining a materializer ends with `NoData`, the executor delivers what it drains to. -/
theorem executeLoop_drain {fuel : Nat} {out : List Sample} (calls : List Call)
    (h : drain rd .ok fuel φ m (fun _ => destSize) = some (out, .noData)) :
    (∀ s ∈ out, s.payload.space < 2 ^ 16) →
    executeLoop rd recorder fuel φ m calls = some (calls ++ out.map .put) := by
  induction fuel generalizing φ m out calls with
  | zero => cases h
  | succ fuel ih =>
    intro hsmall
    obtain ⟨r, hr, h⟩ := bind_eq_some_iff.mp h
    by_cases hok : r.status = .ok ∧ r.out.length ≠ 0
    · rw [if_pos hok] at h
      obtain ⟨⟨out', status⟩, hrest, heq⟩ := map_eq_some_iff.mp h
      cases heq
      have hih := ih (calls ++ r.out.map .put) hrest (forall_mem_append.mp hsmall).2
      rw [executeLoop_step hr (.inl hok.1) (forall_mem_append.mp hsmall).1, if_pos hok.1, hih]
      rw [append_assoc, map_append]
    · rw [if_neg hok] at h
      obtain ⟨rfl, hstatus⟩ := Prod.mk.inj (some.inj h)
      rw [executeLoop_step hr (.inr hstatus) hsmall, if_neg (by rw [hstatus]; decide)]

/-- Buffers and reads leave no trace: a processor that accepts every sample is folded over what
draining the materializer gives. -/
theorem executeLoop_folds {proc : StreamProcessor π} (hacc : ∀ p s, (proc.put p s).1 = true)
    {fuel : Nat} {out : List Sample} (hsmall : ∀ s ∈ out, s.payload.space < 2 ^ 16)
    (h : drain rd .ok fuel φ m (fun _ => destSize) = some (out, .noData)) (p : π) :
    executeLoop rd proc fuel φ m p = some (out.foldl (fun p s => (proc.put p s).2) p) := by
  have hfold : proc.replay p (out.map .put) = out.foldl (fun p s => (proc.put p s).2) p := foldl_map
  rw [← hfold]
  exact (executeLoop_replay hacc rd p fuel φ m []).trans (by rw [executeLoop_drain [] h hsmall]; rfl)

theorem executeLoop_folds_count :
    let rd : Reader Status Sample (List Sample) Unit := fun _ ss _ => some ⟨.noData, ss, [], ()⟩
    let count : StreamProcessor Nat := ⟨fun n _ => (true, n + 1), fun n _ => n⟩
    let ss : List Sample := [⟨10, 1, .float 0⟩, ⟨20, 1, .float 0⟩]
    executeLoop rd count 1 () ss 0 = some 2 := by
  intro rd count ss
  have hdrain : drain rd .ok 1 () ss (fun _ => destSize) = some (ss, .noData) := rfl
  exact executeLoop_folds (fun _ _ => rfl) (by decide) hdrain 0

/-- Every sample that is delivered was in the buffer of some read. -/
theorem putLoop_mem (hsamples : ∀ s ∈ samples, P s)
    (more : List Call → Bool) : ∀ (fuel pos : Nat) {calls : List Call} {q : Bool × List Call},
      putLoop (recording more) samples fuel pos calls = some q → (∀ s ∈ putSamples calls, P s) →
      ∀ s ∈ putSamples q.2, P s := by
  have hat : ∀ (l : List Sample) (pos : Nat) {s : Sample}, sampleAt l pos = some s → s ∈ l := by
    intro l
    induction l with
    | nil => intro pos s h; cases h
    | cons d l ih =>
      intro pos s h
      rw [sampleAt] at h
      split at h
      · cases h
        exact mem_cons_self
      · split at h
        · cases h
        · exact mem_cons_of_mem _ (ih _ h)
  intro fuel
  induction fuel with
  | zero => intro pos calls q h; cases h
  | succ fuel ih =>
    intro pos calls q h hcalls
    rw [putLoop] at h
    split at h
    · obtain ⟨s, hs, h⟩ := bind_eq_some_iff.mp h
      have hput : ∀ s' ∈ putSamples (calls ++ [.put s]), P s' := by
        intro s' hs'
        rw [putSamples, filterMap_append, mem_append] at hs'
        rcases hs' with hs' | hs'
        · exact hcalls s' hs'
        · obtain rfl : s' = s := by simpa using hs'
          exact hsamples s' (hat samples pos hs)
      simp only [recording] at h
      cases hmore : more (calls ++ [.put s]) with
      | true =>
        rw [hmore] at h
        exact ih (pos + s.payload.size) h hput
      | false =>
        rw [hmore] at h
        cases h
        exact hput
    · cases h
      exact hcalls

/-- What holds of the samples of every read holds of those that are delivered, whenever the
client stops. -/
theorem executeLoop_keeps {I : μ → Prop} (hread : Keeps rd destSize I P) (more : List Call → Bool)
    (reads : Nat) {calls calls' : List Call} (hm : I m)
    (h : executeLoop rd (recording more) reads φ m calls = some calls') :
    (∀ s ∈ putSamples calls, P s) → ∀ s ∈ putSamples calls', P s := by
  induction reads generalizing φ m calls calls' with
  | zero => cases h
  | succ reads ih =>
    intro hcalls
    obtain ⟨r, hr, h⟩ := bind_eq_some_iff.mp h
    obtain ⟨hnext, hout⟩ := hread φ m r hm hr
    split at h
    · cases h
      intro s hs
      rw [recording, putSamples, filterMap_append, mem_append] at hs
      rcases hs with hs | hs
      · exact hcalls s hs
      · simp at hs
    · obtain ⟨⟨go, p⟩, hput, h⟩ := bind_eq_some_iff.mp h
      have hp := putLoop_mem hout more _ _ hput hcalls
      dsimp only at h
      split at h
      · exact ih hnext h hp
      · cases h
        exact hp

end QueryPlanExecutor

end FastSTDB
