import FastSTDB.Codec

/-
  Block codec over bytes — both kinds of blocks hold what was written

  `LawfulBlock` says what a block promises in the states that a predicate calls valid.
  Its image is the memory of the block in one piece, written or not; `bytes` are those
  in front of the write position. A write appends to them, and a store through a
  pointer changes one of them.

  The image of a block of components has 1024 bytes for each component, also for
  those that are not allocated. Components are allocated before their first byte is
  written, so what is written is also the front of their concatenation
  (`Scatter.IOVecBlock.flatten_take`).
-/
namespace FastSTDB
open List DataBuffer
open FastSTDB.IOVecBlock (componentSize ncomponents)
open Bytes (splice splice_append_left splice_append_right)

variable {i c : Nat} {comp d : List UInt8} {rest : List (List UInt8)}

/-- The memory of a block in one piece, written or not. -/
class Memory (B : Type) where
  image : B → List UInt8

export Memory (image)

/-- What the codec may expect of a block in a valid state. -/
class LawfulBlock {B : Type} [BlockRW B] [Memory B] (Valid : B → Prop) : Prop where
  length_image : ∀ {b}, Valid b → faststdbBlockSize ≤ (image b).length
  size_le : ∀ {b}, Valid b → BlockT.size b ≤ faststdbBlockSize
  spaceLeft_eq : ∀ {b}, Valid b → BlockT.spaceLeft b = faststdbBlockSize - BlockT.size b
  put : ∀ {b} (v : UInt8), Valid b → BlockT.size b < faststdbBlockSize →
    Valid (BlockT.put b v) ∧ image (BlockT.put b v) = (image b).set (BlockT.size b) v ∧
      BlockT.size (BlockT.put b v) = BlockT.size b + 1
  /-- A value is written digit by digit, if its digits fit. -/
  putBase128 : ∃ safePut : B → UInt8 → Bool × B,
    (∀ {b} v, Valid b → BlockT.size b < faststdbBlockSize → safePut b v = (true, BlockT.put b v)) ∧
    ∀ {b b'} n, Valid b → BlockT.size b < faststdbBlockSize →
      putDigits safePut 10 n b = (true, b') → BlockT.putBase128 b n = (true, b')
  /-- Headers lie in the first component. -/
  allocate : ∀ {b} {sz : Nat}, Valid b → 0 < sz → BlockT.size b + sz ≤ componentSize →
    ∃ b', BlockRW.allocate b sz = some (BlockT.size b, b') ∧ Valid b' ∧ image b' = image b ∧
      BlockT.size b' = BlockT.size b + sz
  get : ∀ {b} {i : Nat}, Valid b → i < BlockT.size b → BlockRW.get b i = (image b)[i]?
  load : ∀ {b} {i : Nat}, Valid b → i < BlockT.size b → i < componentSize →
    BlockRW.load b i = (image b).getD i 0
  store : ∀ {b} {i : Nat} (v : UInt8), Valid b → i < BlockT.size b → i < componentSize →
    Valid (BlockRW.store b i v) ∧ image (BlockRW.store b i v) = (image b).set i v ∧
      BlockT.size (BlockRW.store b i v) = BlockT.size b

/-! ## What is written -/

section Bytes
variable {B : Type} [BlockRW B] [Memory B]

/-- The bytes in front of the write position. -/
def bytes (b : B) : List UInt8 := (image b).take (BlockT.size b)

variable {Valid : B → Prop} [LawfulBlock Valid] {b : B}

theorem length_bytes (h : Valid b) : (bytes b).length = BlockT.size b := by
  rw [bytes, length_take, min_eq_left]
  exact (LawfulBlock.size_le h).trans (LawfulBlock.length_image h)

theorem bytes_put (v : UInt8) (h : Valid b) (hsize : BlockT.size b < faststdbBlockSize) :
    bytes (BlockT.put b v) = bytes b ++ [v] := by
  obtain ⟨-, himage, hsize'⟩ := LawfulBlock.put v h hsize
  have hlt : BlockT.size b < (image b).length := hsize.trans_le (LawfulBlock.length_image h)
  rw [bytes, himage, hsize', take_add_one, take_set,
    set_eq_of_length_le (length_take_le _ _), getElem?_set_self hlt]
  rfl

theorem bytes_store (v : UInt8) (h : Valid b) (hi : i < BlockT.size b) (hcomp : i < componentSize) :
    bytes (BlockRW.store b i v) = (bytes b).set i v := by
  obtain ⟨-, himage, hsize⟩ := LawfulBlock.store v h hi hcomp
  rw [bytes, himage, hsize, take_set]
  rfl

theorem load_eq (h : Valid b) (hi : i < BlockT.size b) (hcomp : i < componentSize) :
    BlockRW.load b i = (bytes b).getD i 0 := by
  rw [LawfulBlock.load h hi hcomp, bytes, getD_eq_getElem?_getD, getD_eq_getElem?_getD,
    getElem?_take_of_lt hi]

theorem get_eq (h : Valid b) (hi : i < BlockT.size b) : BlockRW.get b i = (bytes b)[i]? := by
  rw [LawfulBlock.get h hi, bytes, getElem?_take_of_lt hi]

end Bytes

/-! ## Flat buffers -/

theorem DataBuffer.pos_safePut (b : DataBuffer) (v : UInt8) (h : b.pos < b.bytes.length) :
    b.safePut v = (true, b.put v) := by rw [safePut, if_neg h.ne]

instance : Memory DataBuffer := ⟨DataBuffer.bytes⟩

structure DataBuffer.Sized (b : DataBuffer) : Prop where
  length : b.bytes.length = faststdbBlockSize
  pos_le : b.pos ≤ faststdbBlockSize

instance : LawfulBlock Sized where
  length_image h := h.1.symm.le
  size_le h := h.2
  spaceLeft_eq := by
    intro b h
    show b.bytes.length - b.pos = _
    rw [h.1]
    rfl
  put := by
    intro b v h hsize
    refine ⟨⟨?_, hsize⟩, rfl, rfl⟩
    show (b.bytes.set b.pos v).length = _
    rw [length_set, h.1]
  putBase128 := by
    refine ⟨safePut, ?_, ?_⟩
    · intro b v h hsize
      exact b.pos_safePut v (by rw [h.1]; exact hsize)
    · intro b b' n h hsize hput
      have hspace : ¬ b.bytes.length ≤ b.pos := by rw [h.1]; exact not_le.mpr hsize
      show DataBuffer.putBase128 b n = _
      rw [DataBuffer.putBase128, if_neg hspace, hput]
  allocate := by
    intro b sz h _ hsize
    have hle : b.pos + sz ≤ componentSize := hsize
    have hlen : ¬ b.bytes.length - b.pos < sz := by
      rw [h.1]
      simp only [componentSize, faststdbBlockSize] at *
      omega
    refine ⟨{ b with pos := b.pos + sz }, ?_, ⟨h.1, ?_⟩, rfl, rfl⟩
    · show allocate b sz = _
      rw [allocate, if_neg hlen]
      rfl
    · exact hle.trans (by decide)
  get _ _ := rfl
  load _ _ _ := rfl
  store := by
    intro b i v h _ _
    refine ⟨⟨?_, h.2⟩, rfl, rfl⟩
    show (b.bytes.set i v).length = _
    rw [length_set, h.1]

/-! ## Pieces of equal length -/

section Pieces
variable {α β : Type} {f : α → List β} {n : Nat} {l : List α}

section
variable (hf : ∀ x ∈ l, (f x).length = n) {x : α} (hx : l[c]? = some x)
include hf hx

theorem flatMap_split : ∃ front back, front.length = n * c ∧ l.flatMap f = front ++ (f x ++ back) ∧
    ∀ y, (l.set c y).flatMap f = front ++ (f y ++ back) := by
  induction l generalizing c with
  | nil => cases hx
  | cons z l ih =>
    cases c with
    | zero =>
      cases hx
      exact ⟨[], l.flatMap f, rfl, rfl, fun _ => rfl⟩
    | succ c =>
      obtain ⟨front, back, hlen, hl, hset⟩ := ih (forall_mem_cons.mp hf).2 hx
      refine ⟨f z ++ front, back, ?_, ?_, fun y => ?_⟩
      · rw [length_append, hlen, hf z mem_cons_self, Nat.mul_succ, add_comm]
      · rw [flatMap_cons, hl, append_assoc]
      · rw [set_cons_succ, flatMap_cons, hset, append_assoc]

theorem flatMap_set {y : α} {v : β} (hi : i < n) (hy : f y = (f x).set i v) :
    (l.set c y).flatMap f = (l.flatMap f).set (n * c + i) v := by
  obtain ⟨front, back, hlen, hl, hset⟩ := flatMap_split hf hx
  rw [← hf x (mem_of_getElem? hx)] at hi
  rw [hset, hl, hy, ← hlen, set_append_right _ _ le_self_add, Nat.add_sub_cancel_left,
    set_append_left _ _ hi]

theorem flatMap_splice {y : α} {src : List β} (hi : i + src.length ≤ n)
    (hy : f y = splice (f x) i src) :
    (l.set c y).flatMap f = splice (l.flatMap f) (n * c + i) src := by
  obtain ⟨front, back, hlen, hl, hset⟩ := flatMap_split hf hx
  rw [← hf x (mem_of_getElem? hx)] at hi
  rw [hset, hl, hy, ← hlen, splice_append_right, splice_append_left hi]

theorem flatMap_getElem? (hi : i < n) : (l.flatMap f)[n * c + i]? = (f x)[i]? := by
  obtain ⟨front, back, hlen, hl, -⟩ := flatMap_split hf hx
  rw [← hf x (mem_of_getElem? hx)] at hi
  rw [hl, ← hlen, getElem?_append_right le_self_add, Nat.add_sub_cancel_left,
    getElem?_append_left hi]

end

end Pieces

/-! ## Blocks of components -/

namespace Scatter.IOVecBlock
variable {b : IOVecBlock}

theorem resized_eq (h : comp ≠ []) : resized comp = comp := if_neg h

theorem component_ne_nil (h : comp.length = componentSize) : comp ≠ [] := by
  rintro rfl
  cases h

theorem length_resized (h : comp = [] ∨ comp.length = componentSize) :
    (resized comp).length = componentSize := by
  rcases h with rfl | h
  · rw [resized, if_pos rfl, length_replicate]
  · rw [resized_eq (component_ne_nil h), h]

/-- A block under construction. -/
structure Shaped (b : IOVecBlock) : Prop where
  count : b.data.length = ncomponents
  pos_le : b.pos ≤ faststdbBlockSize
  comp : ∀ comp ∈ b.data, comp = [] ∨ comp.length = componentSize
  /-- A component with something written is allocated. -/
  alloc : ∀ c, componentSize * c < b.pos → b.component c ≠ []

/-- The memory of the block, with all components. -/
def memory (b : IOVecBlock) : List UInt8 := b.data.flatMap resized

structure Contiguous (b : IOVecBlock) : Prop where
  shape : ∃ d rest, b.data = d :: rest ∧ d.length = faststdbBlockSize ∧
    b.memory = d ++ rest.flatMap resized
  pos : b.pos = faststdbBlockSize

theorem memory_cons (hdata : b.data = d :: rest) (hne : d ≠ []) :
    b.memory = d ++ rest.flatMap resized := by rw [memory, hdata, flatMap_cons, resized_eq hne]

theorem contiguous_shape (hdata : b.data = d :: rest) (hlen : d.length = faststdbBlockSize) :
    ∃ d rest, b.data = d :: rest ∧ d.length = faststdbBlockSize ∧
      b.memory = d ++ rest.flatMap resized := by
  refine ⟨d, rest, hdata, hlen, memory_cons hdata ?_⟩
  rintro rfl
  cases hlen

theorem Shaped.length_resized (h : Shaped b) : ∀ comp ∈ b.data,
    (resized comp).length = componentSize := fun comp hmem =>
  IOVecBlock.length_resized (h.comp comp hmem)

theorem Shaped.length_memory (h : Shaped b) : b.memory.length = faststdbBlockSize := by
  rw [memory, length_flatMap, map_congr_left h.length_resized, map_const',
    h.count]
  rfl

theorem Shaped.component_eq (h : Shaped b) (hc : c < ncomponents) :
    b.data[c]? = some (b.component c) := by
  have hlt : c < b.data.length := by rw [h.count]; exact hc
  rw [component, getD_eq_getElem?_getD, getElem?_eq_getElem hlt]
  rfl

theorem div_componentSize {pos : Nat} (h : pos < faststdbBlockSize) :
    pos / componentSize < ncomponents := by
  simp only [componentSize, ncomponents, faststdbBlockSize] at *
  omega

theorem mod_componentSize (pos : Nat) : pos % componentSize < componentSize :=
  Nat.mod_lt _ (by decide)

theorem pos_split (pos : Nat) : componentSize * (pos / componentSize) + pos % componentSize = pos :=
  Nat.div_add_mod pos componentSize

section
variable (h : Shaped b)
include h

theorem Shaped.replace {n : Nat} (hlen : comp.length = componentSize)
    (hlt : b.pos < faststdbBlockSize) (hn : b.pos % componentSize + n ≤ componentSize) :
    Shaped ⟨b.data.set (b.pos / componentSize) comp, b.pos + n⟩ := by
  have hc := div_componentSize hlt
  have hcount : b.pos / componentSize < b.data.length := by rw [h.count]; exact hc
  refine ⟨by rw [length_set, h.count], ?_, ?_, ?_⟩
  · simp only [componentSize, faststdbBlockSize] at *
    omega
  · intro comp' hmem
    rcases mem_or_eq_of_mem_set hmem with hmem | rfl
    · exact h.comp comp' hmem
    · exact .inr hlen
  · intro c hpos
    rw [component, getD_eq_getElem?_getD]
    by_cases heq : b.pos / componentSize = c
    · rw [heq, getElem?_set_self (heq ▸ hcount)]
      exact component_ne_nil hlen
    · rw [getElem?_set_ne heq]
      apply h.alloc c
      -- the other components with something written had it before
      simp only [componentSize] at *
      omega

theorem Shaped.put (v : UInt8) (hlt : b.pos < faststdbBlockSize) :
    Shaped (b.put v) ∧ (b.put v).memory = b.memory.set b.pos v := by
  have hcomp := h.component_eq (div_componentSize hlt)
  have hlen : (resized (b.component (b.pos / componentSize))).length = componentSize :=
    h.length_resized _ (mem_of_getElem? hcomp)
  have hset : ((resized (b.component (b.pos / componentSize))).set (b.pos % componentSize) v).length =
      componentSize := by rw [length_set, hlen]
  refine ⟨h.replace hset hlt (mod_componentSize b.pos), ?_⟩
  have hmem := flatMap_set h.length_resized hcomp (mod_componentSize b.pos)
    (resized_eq (component_ne_nil hset))
  rw [pos_split] at hmem
  exact hmem

theorem Shaped.allocate {sz : Nat} (hpos : 0 < sz) (hsize : b.pos + sz ≤ componentSize) :
    ∃ b', b.allocate sz = some (b.pos, b') ∧ Shaped b' ∧ b'.memory = b.memory ∧
      b'.pos = b.pos + sz := by
  have hlt : b.pos < faststdbBlockSize := by
    simp only [componentSize, faststdbBlockSize] at *
    omega
  have hc := div_componentSize hlt
  have hcomp := h.component_eq hc
  have hlen := h.length_resized _ (mem_of_getElem? hcomp)
  have hmod : b.pos % componentSize = b.pos := Nat.mod_eq_of_lt (by omega)
  have hroom : ¬ (resized (b.component (b.pos / componentSize))).length - b.pos % componentSize <
      sz := by rw [hlen]; omega
  refine ⟨⟨b.data.set (b.pos / componentSize) (resized (b.component (b.pos / componentSize))),
    b.pos + sz⟩, ?_, h.replace hlen hlt (by rw [hmod]; omega), ?_, rfl⟩
  · rw [IOVecBlock.allocate, if_neg (not_le.mpr hc), if_neg hroom]
  · -- allocating a component does not change the memory
    rw [memory, flatMap_def, map_set, resized_eq (component_ne_nil hlen), memory, flatMap_def]
    have hmap : (b.data.map resized)[b.pos / componentSize]? =
        some (resized (b.component (b.pos / componentSize))) := by
      rw [getElem?_map, hcomp]
      rfl
    rw [set_same hmap]

theorem Shaped.getElem? (hi : i < b.pos) :
    (b.component (i / componentSize))[i % componentSize]? = b.memory[i]? := by
  have hlt : i < faststdbBlockSize := hi.trans_le h.pos_le
  have hcomp := h.component_eq (div_componentSize hlt)
  have hne : b.component (i / componentSize) ≠ [] := by
    apply h.alloc
    have := pos_split i
    omega
  have hget := flatMap_getElem? h.length_resized hcomp (mod_componentSize i)
  rw [pos_split, resized_eq hne] at hget
  exact hget.symm

theorem Shaped.scattered : (b.component 0).length ≠ faststdbBlockSize := by
  have hcomp := h.component_eq (c := 0) (by decide)
  rcases h.comp _ (mem_of_getElem? hcomp) with hnil | hlen
  · rw [hnil]
    decide
  · rw [hlen]
    decide

theorem Shaped.get (hi : i < b.pos) : b.get i = b.memory[i]? := by
  rw [IOVecBlock.get, if_neg h.scattered]
  exact h.getElem? hi

theorem Shaped.first_component (hpos : 0 < b.pos) :
    ∃ d rest, b.data = d :: rest ∧ d.length = componentSize ∧
      b.memory = d ++ rest.flatMap resized := by
  have hne : b.component 0 ≠ [] := h.alloc 0 hpos
  have hcomp := h.component_eq (c := 0) (by decide)
  cases hdata : b.data with
  | nil => rw [hdata] at hcomp; cases hcomp
  | cons d rest =>
    rw [hdata] at hcomp
    have hd : d = b.component 0 := Option.some.inj hcomp
    have hmem : d ∈ b.data := by rw [hdata]; exact mem_cons_self
    exact ⟨d, rest, rfl, (h.comp d hmem).resolve_left (hd ▸ hne), memory_cons hdata (hd ▸ hne)⟩

end

theorem store_eq (v : UInt8) (hdata : b.data = d :: rest) (hi : i < componentSize) :
    BlockRW.store b i v = ⟨d.set i v :: rest, b.pos⟩ := by
  show (⟨b.data.set (i / componentSize) ((b.component (i / componentSize)).set
    (i % componentSize) v), b.pos⟩ : IOVecBlock) = _
  rw [Nat.div_eq_of_lt hi, Nat.mod_eq_of_lt hi, component, hdata]
  rfl

theorem Shaped.store (h : Shaped b) (v : UInt8) (hi : i < b.pos) (hcomp : i < componentSize) :
    Shaped (BlockRW.store b i v) := by
  obtain ⟨d, rest, hdata, -, -⟩ := h.first_component (Nat.zero_lt_of_lt hi)
  rw [store_eq v hdata hcomp]
  refine ⟨?_, h.pos_le, ?_, ?_⟩
  · rw [← h.count, hdata]
    rfl
  · intro comp hmem
    rcases mem_cons.mp hmem with rfl | hmem
    · rw [set_eq_nil_iff, length_set]
      exact h.comp d (by rw [hdata]; exact mem_cons_self)
    · exact h.comp comp (by rw [hdata]; exact mem_cons_of_mem _ hmem)
  · intro c hpos
    have hold := h.alloc c hpos
    rw [component, hdata] at hold
    cases c with
    | zero =>
      intro hnil
      exact hold ((set_eq_nil_iff i v).mp hnil)
    | succ c => exact hold

instance : Memory IOVecBlock := ⟨memory⟩

theorem image_store (v : UInt8) (hdata : b.data = d :: rest) (hlen : componentSize ≤ d.length)
    (hmem : b.memory = d ++ rest.flatMap resized) (hi : i < componentSize) :
    image (BlockRW.store b i v) = (image b).set i v := by
  have hlt : i < d.length := hi.trans_le hlen
  have hne : d.set i v ≠ [] := by
    rw [Ne, set_eq_nil_iff]
    rintro rfl
    cases hlt
  show (BlockRW.store b i v).memory = b.memory.set i v
  rw [store_eq v hdata hi, hmem, set_append_left _ _ hlt, memory, flatMap_cons, resized_eq hne]

theorem load_first (hdata : b.data = d :: rest) (hlen : componentSize ≤ d.length)
    (hmem : b.memory = d ++ rest.flatMap resized) (hi : i < componentSize) :
    BlockRW.load b i = (image b).getD i 0 := by
  show (b.component (i / componentSize)).getD (i % componentSize) 0 = b.memory.getD i 0
  rw [Nat.div_eq_of_lt hi, Nat.mod_eq_of_lt hi, component, hdata, hmem,
    getD_append _ _ _ _ (hi.trans_le hlen)]
  rfl

instance : LawfulBlock Shaped where
  length_image h := h.length_memory.symm.le
  size_le h := h.pos_le
  spaceLeft_eq _ := rfl
  put := by
    intro b v h hsize
    obtain ⟨hshaped, hmem⟩ := h.put v hsize
    exact ⟨hshaped, hmem, rfl⟩
  putBase128 := by
    refine ⟨safePut, ?_, fun _ _ _ hput => hput⟩
    intro b v _ hsize
    have hc : b.pos / componentSize < ncomponents := div_componentSize hsize
    rw [safePut, if_neg (not_le.mpr hc)]
    rfl
  allocate h hpos hsize := h.allocate hpos hsize
  get h hi := h.get hi
  load := by
    intro b i h hi hcomp
    obtain ⟨d, rest, hdata, hlen, hmem⟩ := h.first_component (Nat.zero_lt_of_lt hi)
    exact load_first hdata hlen.symm.le hmem hcomp
  store := by
    intro b i v h hi hcomp
    obtain ⟨d, rest, hdata, hlen, hmem⟩ := h.first_component (Nat.zero_lt_of_lt hi)
    exact ⟨h.store v hi hcomp, image_store v hdata hlen.symm.le hmem hcomp, rfl⟩

instance : LawfulBlock Contiguous where
  length_image := by
    intro b h
    obtain ⟨d, rest, -, hlen, hmem⟩ := h.shape
    show faststdbBlockSize ≤ b.memory.length
    rw [hmem, length_append, hlen]
    exact le_self_add
  size_le h := h.pos.le
  spaceLeft_eq _ := rfl
  -- there is no space in a block in one piece
  put := by
    intro b v h hsize
    exact absurd (h.pos ▸ hsize) (lt_irrefl _)
  putBase128 := by
    refine ⟨safePut, ?_, fun _ _ _ hput => hput⟩
    intro b v h hsize
    exact absurd (h.pos ▸ hsize) (lt_irrefl _)
  allocate := by
    intro b sz h hpos hsize
    have hlt : b.pos < componentSize := (Nat.lt_add_of_pos_right hpos).trans_le hsize
    rw [h.pos] at hlt
    exact absurd hlt (by decide)
  get := by
    intro b i h hi
    obtain ⟨d, rest, hdata, hlen, hmem⟩ := h.shape
    have hlt : i < d.length := by rw [hlen, ← h.pos]; exact hi
    have hzero : b.component 0 = d := by rw [component, hdata]; rfl
    show IOVecBlock.get b i = b.memory[i]?
    rw [IOVecBlock.get, hzero, if_pos hlen, hmem, getElem?_append_left hlt]
  load := by
    intro b i h _ hcomp
    obtain ⟨d, rest, hdata, hlen, hmem⟩ := h.shape
    exact load_first hdata (by rw [hlen]; decide) hmem hcomp
  store := by
    intro b i v h _ hcomp
    obtain ⟨d, rest, hdata, hlen, hmem⟩ := h.shape
    have hle : componentSize ≤ d.length := by rw [hlen]; decide
    refine ⟨?_, image_store v hdata hle hmem hcomp, rfl⟩
    rw [store_eq v hdata hcomp]
    have hset : (d.set i v).length = faststdbBlockSize := by rw [length_set, hlen]
    exact ⟨contiguous_shape rfl hset, h.pos⟩

theorem Shaped.flatten_take (h : Shaped b) : b.data.flatten.take b.pos = bytes b := by
  have hrun : ∀ (data : List (List UInt8)) (pos : Nat),
      (∀ comp ∈ data, comp = [] ∨ comp.length = componentSize) →
      (∀ c, componentSize * c < pos → data.getD c [] ≠ []) →
      data.flatten.take pos = (data.flatMap resized).take pos := by
    intro data
    induction data with
    | nil => intro pos _ _; rfl
    | cons d data ih =>
      intro pos hcomp halloc
      cases hpos : pos with
      | zero => rfl
      | succ p =>
        have hne : d ≠ [] := halloc 0 (by omega)
        have hlen : d.length = componentSize := (hcomp d mem_cons_self).resolve_left hne
        have hrest := ih (p + 1 - componentSize) (forall_mem_cons.mp hcomp).2
          (fun c hc => halloc (c + 1) (by rw [Nat.mul_succ]; omega))
        rw [flatten_cons, flatMap_cons, resized_eq hne, take_append, take_append, hlen, hrest]
  exact hrun b.data b.pos h.comp h.alloc

theorem Shaped.contiguous (h : Shaped b) : Contiguous b.contiguous ∧
    ∃ more, bytes b.contiguous = bytes b ++ more := by
  have hlen : b.memory.length = faststdbBlockSize := h.length_memory
  have hdata : b.contiguous.data = b.memory :: replicate (ncomponents - 1) [] := rfl
  obtain hshape := contiguous_shape hdata hlen
  refine ⟨⟨hshape, rfl⟩, b.memory.drop b.pos, ?_⟩
  have hne : b.memory ≠ [] := by
    intro hnil
    rw [hnil] at hlen
    cases hlen
  show b.contiguous.memory.take faststdbBlockSize = b.memory.take b.pos ++ _
  rw [take_append_drop, memory_cons hdata hne, take_left' hlen]

theorem shaped_new : Shaped new where
  count := rfl
  pos_le := zero_le
  comp := by
    intro comp hmem
    exact .inl (eq_of_mem_replicate hmem)
  alloc := by
    intro c hc
    exact absurd hc (Nat.not_lt_zero _)

end Scatter.IOVecBlock
end FastSTDB
