import FastSTDB.NodeBytes

/-
  Checksums of nodes — which changes of a stored node are noticed
  (`checksum` of `block_store.cc`, `commit` and `read_and_check` of `nbtree.cc`)

  A commit records in the header how many bytes of the content the checksum covers, and
  `read_and_check` recomputes the checksum over as many. A leaf records the size of its
  content. A superblock records the number of its references instead, not their size
  in bytes, so only its first bytes are covered: at most 32 of the first reference.

  The checksum is any function of bytes that can be continued from a part to the whole;
  `Ideal` says that it has no collisions, too. The header is a record beside the bytes.

  Correspondence (C++ ↔ Lean):
    `crc32c_impl_t`                        ↔ `Checksum.impl`
    `BlockStore::checksum` (data / block)  ↔ `Checksum.ofData`, `Checksum.ofBlock`

  1. `Grown` — superblocks that appends and copies on write make; they carry their
     references (`Grown.carries`).
  2. `Committed` — the nodes a tree stores; `Committed.covers` says what is covered.
  3. `corruption_noticed` — a change of the content is noticed exactly in what is covered.
  4. `no_false_corruption` — a node that did not change passes.
-/
namespace FastSTDB.Scatter
open List Bytes Codec Scatter.IOVecSuperblock
open FastSTDB.IOVecBlock (componentSize ncomponents)

/-- A checksum with its value for no bytes, and how some more bytes change it. -/
structure Checksum (C : Type) where
  zero : C
  impl : C → List UInt8 → C

/-- The checksum that keeps all bytes. -/
def Checksum.recording : Checksum (List UInt8) := ⟨[], (· ++ ·)⟩

variable {C : Type}

/-- Bytes may be added part by part. -/
def Checksum.Continues (crc : Checksum C) : Prop :=
  ∀ a b, crc.impl (crc.impl crc.zero a) b = crc.impl crc.zero (a ++ b)

/-- Different bytes have different checksums, too. -/
structure Checksum.Ideal (crc : Checksum C) : Prop where
  nil : ∀ c, crc.impl c [] = c
  append : ∀ c a b, crc.impl (crc.impl c a) b = crc.impl c (a ++ b)
  injective : ∀ a b, crc.impl crc.zero a = crc.impl crc.zero b → a = b

namespace Checksum

def ofData (crc : Checksum C) (data : List UInt8) (size : Nat) : C :=
  crc.impl crc.zero (data.take size)

/-- The loop over the components of a block. -/
def ofComponents (crc : Checksum C) : List (List UInt8) → Nat → Nat → C → C
  | [], _, _, c => c
  | comp :: rest, offset, size, c =>
    if comp.length < offset ∨ comp.length = 0 ∨ size = 0 then c
    else
      let sz := min (comp.length - offset) size
      ofComponents crc rest 0 (size - sz) (crc.impl c ((comp.drop offset).take sz))

def ofBlock (crc : Checksum C) (block : IOVecBlock) (offset size : Nat) : C :=
  crc.ofComponents block.data offset size crc.zero

end Checksum

/-- The fields of the header of a node that are checked. -/
structure CheckedHeader (C : Type) where
  payloadSize : Nat
  checksum : C

/-- A node in the store; the bytes are the whole block. -/
structure StoredNode (C : Type) where
  header : CheckedHeader C
  bytes : List UInt8

def IOVecLeaf.commit (crc : Checksum C) (leaf : BlockWriter IOVecBlock) : Option (StoredNode C) :=
  leaf.commit.map fun (size, w) =>
    let size := (size % 2 ^ 16 + 2 ^ 16 - subtreeRefSize) % 2 ^ 16
    ⟨⟨size, crc.ofBlock w.block subtreeRefSize size⟩, w.block.iovecs⟩

def IOVecSuperblock.commit (crc : Checksum C) (node : IOVecSuperblock) :
    Status × Option (StoredNode C) :=
  if node.immutable then (.badData, none)
  else
    match node.readAll with
    | none => (.badData, none)
    | some _ =>
      let payloadSize := node.writePos % 2 ^ 16
      (.ok, some ⟨⟨payloadSize,
        crc.ofData ((node.block.component 0).drop subtreeRefSize) payloadSize⟩, node.block.iovecs⟩)

variable [DecidableEq C]

section
variable (crc : Checksum C)

def readAndCheck (stored : StoredNode C) : Status × IOVecBlock :=
  let block := .ofBytes stored.bytes
  if (block.component 0).length = faststdbBlockSize ∧
      crc.ofData ((block.component 0).drop subtreeRefSize) stored.header.payloadSize ≠
        stored.header.checksum then (.badData, block)
  else (.ok, block)

/-- The same test, of a block in one piece or in components. -/
def passesCheck (header : CheckedHeader C) (block : IOVecBlock) : Bool :=
  !((block.component 0).length = faststdbBlockSize ∧
    crc.ofData ((block.component 0).drop subtreeRefSize) header.payloadSize ≠ header.checksum)

/-- The same check, but a block that fails it is not returned. -/
def readIovecBlockFromBstore (stored : StoredNode C) : Option IOVecBlock :=
  match readAndCheck crc stored with
  | (.ok, block) => some block
  | _ => none

/-- `IOVecSuperblock(block)`, of a block that was read. -/
def IOVecSuperblock.ofBlock (stored : StoredNode C) (block : IOVecBlock) : IOVecSuperblock :=
  ⟨block, stored.header.payloadSize, true⟩

/-- Copy on write, of a stored superblock. -/
def IOVecSuperblock.copyStored (stored : StoredNode C) (removeLast : Bool) :
    Option IOVecSuperblock :=
  (readIovecBlockFromBstore crc stored).bind fun block =>
    copy stored.header.payloadSize block removeLast

end

/-- The superblocks a tree can have in memory, with their references. -/
inductive Grown (crc : Checksum C) : IOVecSuperblock → List RefImage → Prop
  | new {node} : IOVecSuperblock.new = some node → Grown crc node []
  | append {node node' refs p} : Grown crc node refs → node.append p = some (.ok, node') →
      Grown crc node' (refs ++ [p])
  | copy {node node' refs stored removeLast} : Grown crc node refs → refs ≠ [] →
      node.commit crc = (.ok, some stored) →
      copyStored crc stored removeLast = some node' →
      Grown crc node' (if removeLast then refs.dropLast else refs)

/-- The nodes a tree stores, with their content: the compressed points of a leaf, the references
of a superblock. -/
inductive Committed (crc : Checksum C) : NBTreeBlockType → List UInt8 → StoredNode C → Prop
  | leaf {id pts leaf size w stored} : IOVecLeaf.create id = some leaf →
      (leaf.putAll pts).2.commit = some (size, w) →
      IOVecLeaf.commit crc (leaf.putAll pts).2 = some stored →
      Committed crc .leaf ((bytes w.block).drop subtreeRefSize) stored
  | inner {node refs stored} : Grown crc node refs → refs ≠ [] →
      node.commit crc = (.ok, some stored) → Committed crc .inner (refBytes refs) stored

/-! ## Checksums of blocks -/

omit [DecidableEq C] in
/-- Over allocated components, the loop computes the checksum of the bytes in one piece. -/
theorem Checksum.Continues.ofComponents {crc : Checksum C} (hcrc : crc.Continues)
    (comps : List (List UInt8)) (offset size : Nat) (c : C) (a : List UInt8)
    (hc : ∀ b, crc.impl c b = crc.impl crc.zero (a ++ b))
    (hzero : size = 0 → c = crc.impl crc.zero a) (hoff : offset ≤ componentSize)
    (hcomp : ∀ comp ∈ comps, comp = [] ∨ comp.length = componentSize)
    (halloc : ∀ i, componentSize * i < offset + size → comps.getD i [] ≠ []) :
    crc.ofComponents comps offset size c =
    crc.impl crc.zero (a ++ ((comps.flatMap IOVecBlock.resized).drop offset).take size) := by
  induction comps generalizing offset size c a with
  | nil =>
    have hsize : size = 0 := by
      by_contra hsize
      exact halloc 0 (by omega) rfl
    rw [Checksum.ofComponents, flatMap_nil, drop_nil, take_nil, append_nil, hzero hsize]
  | cons comp rest ih =>
    rw [Checksum.ofComponents]
    by_cases hsize : size = 0
    · rw [if_pos (.inr (.inr hsize)), hsize, take_zero, append_nil, hzero hsize]
    · have hne : comp ≠ [] := halloc 0 (by omega)
      have hlen : comp.length = componentSize := (hcomp comp mem_cons_self).resolve_left hne
      have hgo : ¬ (comp.length < offset ∨ comp.length = 0 ∨ size = 0) := by
        simp only [componentSize] at *
        omega
      rw [if_neg hgo]
      dsimp only
      rw [hc, ih 0 _ _ _ (hcrc _) (fun _ => rfl) zero_le
          (forall_mem_cons.mp hcomp).2 ?_, append_assoc, drop_zero, flatMap_cons, IOVecBlock.resized_eq hne,
        drop_append_of_le_length (by rw [hlen]; exact hoff), take_append, length_drop]
      · have htake : (comp.drop offset).take (min (comp.length - offset) size) =
            (comp.drop offset).take size := by
          rw [← length_drop, ← take_take, take_of_length_le]
          rw [length_take]
          exact min_le_right _ _
        have hleft : size - min (comp.length - offset) size = size - (comp.length - offset) := by
          omega
        rw [htake, hleft]
      · -- there is something in the next components only if this one is used up
        intro i hi
        apply halloc (i + 1)
        rw [Nat.mul_succ]
        omega

/-! ## Superblocks in memory -/

theorem iovecs_eq {b : IOVecBlock} (h : b.Shaped) : b.iovecs = b.memory := by
  have hsplit : b.Split := ⟨h.count, h.comp⟩
  have hbytes := hsplit.ofBytes_iovecs
  exact (cons.inj (congrArg IOVecBlock.data hbytes)).1

/-- What the header of a stored node says about its content: the checksum covers `n` bytes. -/
structure Covers (crc : Checksum C) (stored : StoredNode C) (content : List UInt8) (n : Nat) :
    Prop where
  payload : stored.header.payloadSize = n
  le : n ≤ content.length
  checksum : stored.header.checksum = crc.impl crc.zero (content.take n)
  length : stored.bytes.length = faststdbBlockSize
  content : (stored.bytes.drop subtreeRefSize).take content.length = content

section Check
variable {crc : Checksum C} {stored : StoredNode C} {content : List UInt8} {n : Nat}

omit [DecidableEq C] in
theorem Covers.covered (h : Covers crc stored content n) :
    content.take n = (stored.bytes.drop subtreeRefSize).take n := by
  have htake := congrArg (List.take n) h.content
  rw [take_take, min_eq_left h.le] at htake
  exact htake.symm

theorem readAndCheck_cases (hlen : stored.bytes.length = faststdbBlockSize) :
    readAndCheck crc stored =
      (if crc.ofData (stored.bytes.drop subtreeRefSize) stored.header.payloadSize =
        stored.header.checksum then .ok else .badData, .ofBytes stored.bytes) := by
  rw [readAndCheck]
  by_cases hcheck : crc.ofData (stored.bytes.drop subtreeRefSize) stored.header.payloadSize =
      stored.header.checksum
  · rw [if_neg (fun hbad => hbad.2 hcheck), if_pos hcheck]
  · rw [if_pos ⟨hlen, hcheck⟩, if_neg hcheck]

theorem Covers.readAndCheck (h : Covers crc stored content n) :
    readAndCheck crc stored = (.ok, .ofBytes stored.bytes) := by
  rw [readAndCheck_cases h.length, Checksum.ofData, h.payload, h.checksum, h.covered, if_pos rfl]

theorem take_drop_ne_iff {a b : List UInt8} {k : Nat} :
    (a.drop k).take n ≠ (b.drop k).take n ↔ ∃ i, i < n ∧ a[k + i]? ≠ b[k + i]? := by
  constructor
  · intro hne
    by_contra hall
    apply hne
    apply ext_getElem?
    intro i
    rw [getElem?_take, getElem?_take, getElem?_drop, getElem?_drop]
    split
    next hi =>
      by_contra hdiff
      exact hall ⟨i, hi, hdiff⟩
    next => rfl
  · intro hdiff heq
    obtain ⟨i, hi, hdiff⟩ := hdiff
    apply hdiff
    have hget := congrArg (fun l => l[i]?) heq
    simpa only [getElem?_take_of_lt hi, getElem?_drop] using hget

/-- A change is noticed if and only if it is in what the checksum covers. -/
theorem Covers.badData_iff (hcrc : crc.Ideal) (h : Covers crc stored content n)
    {changed : List UInt8} (hlen : changed.length = faststdbBlockSize) :
    (FastSTDB.Scatter.readAndCheck crc { stored with bytes := changed }).1 = .badData ↔
      ∃ i, i < n ∧ changed[subtreeRefSize + i]? ≠ stored.bytes[subtreeRefSize + i]? := by
  rw [← take_drop_ne_iff, readAndCheck_cases hlen, Checksum.ofData, h.payload, h.checksum, h.covered]
  constructor
  · intro hbad heq
    rw [heq, if_pos rfl] at hbad
    cases hbad
  · intro hne
    exact if_neg (fun heq => hne (hcrc.injective _ _ heq))

end Check

section Superblocks
variable {crc : Checksum C} {node : IOVecSuperblock} {refs : List RefImage}

theorem Carries.stored (h : node.Carries refs) :
    (node.block.memory.drop subtreeRefSize).take (refBytes refs).length = refBytes refs := by
  have hcontent := h.content
  rw [← hcontent, length_drop, length_bytes h.shaped]
  show _ = (node.block.memory.take node.block.pos).drop subtreeRefSize
  rw [drop_take]
  rfl

omit [DecidableEq C] in
/-- A commit succeeds, and covers as many bytes as there are references. -/
theorem commit_carries (crc : Checksum C) (h : node.Carries refs) :
    ∃ stored, node.commit crc = (.ok, some stored) ∧
    stored.bytes = node.block.memory ∧ Covers crc stored (refBytes refs) refs.length := by
  have hread := h.readAll
  have hcount := h.count
  have hmod : node.writePos % 2 ^ 16 = refs.length := by
    rw [h.writePos, Nat.mod_eq_of_lt]
    simp only [nbtreeFanout] at *
    omega
  have hle : refs.length ≤ (refBytes refs).length := by
    rw [length_refBytes]
    exact Nat.le_mul_of_pos_left _ (by decide)
  have hpos : 0 < node.block.pos := by
    rw [h.pos]
    exact Nat.mul_pos (by decide) (Nat.succ_pos _)
  -- the covered bytes lie in the first component
  obtain ⟨d, rest, hdata, hd, hmem⟩ := h.shaped.first_component hpos
  have hfirst : node.block.component 0 = d := by
    rw [IOVecBlock.component, hdata]
    rfl
  have hcovered : (d.drop subtreeRefSize).take refs.length = (refBytes refs).take refs.length := by
    have hroom : refs.length ≤ (d.drop subtreeRefSize).length := by
      rw [length_drop, hd]
      simp only [componentSize, subtreeRefSize, nbtreeFanout] at *
      omega
    calc (d.drop subtreeRefSize).take refs.length
        = (node.block.memory.drop subtreeRefSize).take refs.length := by
          rw [hmem, drop_append_of_le_length (by rw [hd]; decide), take_append_of_le_length hroom]
      _ = ((node.block.memory.drop subtreeRefSize).take (refBytes refs).length).take
            refs.length := by
          rw [take_take, min_eq_left hle]
      _ = (refBytes refs).take refs.length := by
          rw [Carries.stored h]
  refine ⟨⟨⟨refs.length, crc.impl crc.zero ((refBytes refs).take refs.length)⟩,
    node.block.memory⟩, ?_, rfl, rfl, hle, rfl, h.shaped.length_memory, Carries.stored h⟩
  simp only [commit, h.writable, Bool.false_eq_true, if_false, hread, hmod, hfirst,
    iovecs_eq h.shaped, Checksum.ofData, hcovered]

/-- Whatever was done to make it, a superblock carries its references. -/
theorem Grown.carries (h : Grown crc node refs) : node.Carries refs := by
  induction h with
  | new hnew =>
    obtain ⟨node, hnode, hcarries⟩ := new_carries
    rw [hnew] at hnode
    cases hnode
    exact hcarries
  | @append node node' refs p _ happend ih =>
    rcases ih.append p with ⟨-, hfull⟩ | ⟨next, hok, hcarries⟩
    · rw [happend] at hfull
      cases hfull
    · rw [happend] at hok
      cases hok
      exact hcarries
  | @copy node node' refs stored removeLast _ _ hcommit hcopy ih =>
    obtain ⟨stored', hcommit', hbytes, hcovers⟩ := commit_carries crc ih
    rw [hcommit] at hcommit'
    cases hcommit'
    rw [copyStored, readIovecBlockFromBstore, hcovers.readAndCheck,
      Option.bind_some, hcovers.payload, hbytes] at hcopy
    obtain ⟨next, hnext, hcarries⟩ := ih.copy removeLast
    rw [hcopy] at hnext
    cases hnext
    exact hcarries

theorem Carries.readBack (h : node.Carries refs) :
    (IOVecSuperblock.mk (.ofBytes node.block.memory) refs.length true).readAll =
      some (refs.map (·.val)) := by
  rw [← pieces_refBytes]
  apply Pairs.mapM_pure
  rw [forall₂_same]
  intro ix hix
  have hle : subtreeRefSize ≤ (refBytes refs).length - subtreeRefSize * ix := by
    rw [length_refBytes, ← Nat.mul_sub]
    exact Nat.le_mul_of_pos_right _ (Nat.sub_pos_of_lt (mem_range.mp hix))
  have hchunk : ((refBytes refs).drop (subtreeRefSize * ix)).take subtreeRefSize =
      (node.block.memory.drop (subtreeRefSize * (ix + 1))).take subtreeRefSize := by
    conv_lhs => rw [← Carries.stored h]
    rw [drop_take, take_take, Nat.min_eq_left hle, drop_drop, Nat.mul_succ, add_comm]
  rw [hchunk, IOVecBlock.readChunk, if_pos (by exact h.shaped.length_memory)]
  rfl

/-- A superblock holds up to 32 references, and they are read from it and from its block. -/
theorem superblock_codec (h : Grown crc node refs) :
    refs.length ≤ nbtreeFanout ∧ (node.isFull = true ↔ refs.length = nbtreeFanout) ∧
    (∀ p, if refs.length = nbtreeFanout then node.append p = some (.overflow, node)
      else ∃ node', node.append p = some (.ok, node') ∧ Grown crc node' (refs ++ [p])) ∧
    node.readAll = some (refs.map (·.val)) ∧
    (refs ≠ [] → ∃ stored block, node.commit crc = (.ok, some stored) ∧
      readIovecBlockFromBstore crc stored = some block ∧
      (ofBlock stored block).readAll = some (refs.map (·.val)) ∧
      ∀ removeLast, ∃ node', copyStored crc stored removeLast = some node' ∧
        Grown crc node' (if removeLast then refs.dropLast else refs)) := by
  have hcarries := h.carries
  have hcount := hcarries.count
  refine ⟨hcount, ?_, fun p => ?_, hcarries.readAll, fun hne => ?_⟩
  · rw [isFull, hcarries.writePos, decide_eq_true_iff]
    exact ⟨hcount.antisymm, fun heq => heq.ge⟩
  · rcases hcarries.append p with ⟨hfull, happend⟩ | ⟨node', happend, hnext⟩
    · rw [if_pos (hcount.antisymm hfull)]
      exact happend
    · have hle := hnext.count
      rw [length_append, length_singleton] at hle
      rw [if_neg (by omega)]
      exact ⟨node', happend, h.append happend⟩
  · obtain ⟨stored, hcommit, hbytes, hcovers⟩ := commit_carries crc hcarries
    have hread : readIovecBlockFromBstore crc stored = some (.ofBytes stored.bytes) := by
      rw [readIovecBlockFromBstore, hcovers.readAndCheck]
    refine ⟨stored, .ofBytes stored.bytes, hcommit, hread, ?_, fun removeLast => ?_⟩
    · rw [ofBlock, hcovers.payload, hbytes]
      exact Carries.readBack hcarries
    · obtain ⟨node', hcopy, -⟩ := hcarries.copy removeLast
      rw [← hcovers.payload, ← hbytes] at hcopy
      have hstored : copyStored crc stored removeLast = some node' := by
        rw [copyStored, hread, Option.bind_some, hcopy]
      exact ⟨node', hstored, h.copy hne hcommit hstored⟩

/-- A reference, a commit, a copy on write of the block, and another reference. -/
theorem superblock_codec_copied :
    let p : RefImage := ⟨replicate 110 1, length_replicate⟩
    let q : RefImage := ⟨replicate 110 2, length_replicate⟩
    ∃ (node copied last : IOVecSuperblock) (stored : StoredNode (List UInt8)),
      node.readAll = some [p.val] ∧ node.commit .recording = (.ok, some stored) ∧
      copyStored .recording stored false = some copied ∧
      copied.append q = some (.ok, last) ∧ last.readAll = some [p.val, q.val] := by
  intro p q
  obtain ⟨empty, hnew, -⟩ := new_carries
  have hempty : Grown .recording empty [] := .new hnew
  obtain ⟨node, -, hnode⟩ := (superblock_codec hempty).2.2.1 p
  obtain ⟨stored, block, hcommit, -, -, hcopies⟩ :=
    (superblock_codec hnode).2.2.2.2 (cons_ne_nil p [])
  obtain ⟨copied, hcopy, hcopied⟩ := hcopies false
  obtain ⟨last, happend, hlast⟩ := (superblock_codec hcopied).2.2.1 q
  exact ⟨node, copied, last, stored, (superblock_codec hnode).2.2.2.1, hcommit, hcopy, happend,
    (superblock_codec hlast).2.2.2.1⟩

end Superblocks

/-! ## Stored nodes -/

section Nodes
variable {crc : Checksum C} {kind : NBTreeBlockType} {content : List UInt8} {stored : StoredNode C}

omit [DecidableEq C] in
theorem leaf_covers (hcrc : crc.Continues) {leaf w : BlockWriter IOVecBlock} {size : Nat}
    (hcommit : leaf.commit = some (size, w)) (hshaped : w.block.Shaped) (hpos : w.block.pos = size)
    (hsize : subtreeRefSize + blockHeaderSize ≤ size) :
    ∃ stored, IOVecLeaf.commit crc leaf = some stored ∧
      Covers crc stored ((bytes w.block).drop subtreeRefSize)
        ((bytes w.block).drop subtreeRefSize).length := by
  have hle : size ≤ faststdbBlockSize := hpos ▸ hshaped.pos_le
  have hlen : ((bytes w.block).drop subtreeRefSize).length = size - subtreeRefSize := by
    rw [length_drop, length_bytes hshaped]
    exact congrArg (· - subtreeRefSize) hpos
  have hmod : (size % 2 ^ 16 + 2 ^ 16 - subtreeRefSize) % 2 ^ 16 = size - subtreeRefSize := by
    simp only [subtreeRefSize, blockHeaderSize, faststdbBlockSize] at *
    omega
  have hcontent : (w.block.memory.drop subtreeRefSize).take (size - subtreeRefSize) =
      (bytes w.block).drop subtreeRefSize := by
    show _ = (w.block.memory.take w.block.pos).drop subtreeRefSize
    rw [drop_take, hpos]
  have hsum : subtreeRefSize + (size - subtreeRefSize) = w.block.pos := by
    omega
  have hblock : crc.ofBlock w.block subtreeRefSize (size - subtreeRefSize) =
      crc.impl crc.zero ((bytes w.block).drop subtreeRefSize) := by
    rw [Checksum.ofBlock, hcrc.ofComponents _ _ _ _ [] (fun _ => rfl) ?_ (by decide) hshaped.comp
      (fun i hi => hshaped.alloc i (hsum ▸ hi)), ← hcontent]
    · rfl
    · intro hnone
      simp only [subtreeRefSize, blockHeaderSize] at *
      omega
  refine ⟨⟨⟨size - subtreeRefSize, crc.impl crc.zero ((bytes w.block).drop subtreeRefSize)⟩,
    w.block.memory⟩, ?_, hlen.symm, le_rfl, ?_, hshaped.length_memory, ?_⟩
  · rw [IOVecLeaf.commit, hcommit, Option.map_some]
    dsimp only
    rw [hmod, hblock, iovecs_eq hshaped]
  · rw [take_length]
  · rw [hlen]
    exact hcontent

/-- How much of a node is covered: all of a leaf, of a superblock a byte for each reference. -/
theorem Committed.covers (hcrc : crc.Continues) (h : Committed crc kind content stored) :
    (kind = .leaf ∧ Covers crc stored content content.length) ∨ (kind = .inner ∧ content ≠ [] ∧
        Covers crc stored content (content.length / subtreeRefSize)) := by
  cases h with
  | @leaf id pts leaf size w stored hcreate hcommit hstored =>
    obtain ⟨leaf', size', w', hcreate', hcommit', hshaped, hpos, hsize⟩ := leaf_block id pts
    rw [hcreate] at hcreate'
    cases hcreate'
    rw [hcommit] at hcommit'
    cases hcommit'
    obtain ⟨stored', hstored', hcovers⟩ := leaf_covers hcrc hcommit hshaped hpos hsize
    rw [hstored] at hstored'
    cases hstored'
    exact .inl ⟨rfl, hcovers⟩
  | @inner node refs stored hgrown hne hcommit =>
    obtain ⟨stored', hcommit', -, hcovers⟩ := commit_carries crc hgrown.carries
    rw [hcommit] at hcommit'
    cases hcommit'
    have hlen := length_refBytes refs
    refine .inr ⟨rfl, ?_, ?_⟩
    · intro hnil
      rw [hnil] at hlen
      have hpos : 0 < refs.length := length_pos_iff.mpr hne
      simp only [length_nil, subtreeRefSize] at hlen
      omega
    · rw [hlen, Nat.mul_div_cancel_left _ (by decide)]
      exact hcovers

end Nodes

/-! ## A superblock with one reference -/

theorem Checksum.recording_ideal : Checksum.recording.Ideal where
  nil c := append_nil c
  append := append_assoc
  injective a b h := by simpa only [recording, nil_append] using h

def zeroRef : RefImage := ⟨replicate subtreeRefSize 0, length_replicate⟩

theorem zeroRef_stored : ∃ stored, Committed .recording .inner (refBytes [zeroRef]) stored ∧
    Covers .recording stored (refBytes [zeroRef]) 1 ∧
    ∀ i, i < subtreeRefSize → stored.bytes[subtreeRefSize + i]? = some 0 := by
  obtain ⟨node, hnew, hcarries⟩ := new_carries
  rcases hcarries.append zeroRef with ⟨hfull, -⟩ | ⟨node', happend, hcarries'⟩
  · exact absurd hfull (by decide)
  · obtain ⟨stored, hcommit, -, hcovers⟩ := commit_carries .recording hcarries'
    refine ⟨stored, .inner ((Grown.new hnew).append happend) (cons_ne_nil _ _) hcommit, hcovers, ?_⟩
    intro i hi
    have hcontent := congrArg (fun l => l[i]?) hcovers.content
    have hlen : (refBytes [zeroRef]).length = subtreeRefSize := length_refBytes _
    have hzero : (refBytes [zeroRef])[i]? = some 0 := by exact getElem?_replicate_of_lt hi
    simp only [nil_append, hlen, getElem?_take_of_lt hi, getElem?_drop, hzero] at hcontent
    exact hcontent

/-- Of the stored node, byte `i` of the reference is set to 1. -/
def setRefByte (stored : StoredNode (List UInt8)) (i : Nat) : List UInt8 :=
  stored.bytes.set (subtreeRefSize + i) 1

theorem setRefByte_ne {stored : StoredNode (List UInt8)} {i : Nat}
    (hzero : stored.bytes[subtreeRefSize + i]? = some 0) :
    (setRefByte stored i)[subtreeRefSize + i]? ≠ stored.bytes[subtreeRefSize + i]? := by
  have hlt := lt_of_getElem? hzero
  rw [hzero, setRefByte, getElem?_set_self hlt]
  decide

/-! ## What is noticed -/

/-- **Changes of a stored node.** The content of a node is stored behind the header. The checksum
in the header is that of the whole content for leaves only, and with a checksum without collisions
a change of the content is noticed if and only if the node is a leaf or one of the first bytes of
the content changes, as many as the superblock has references. -/
theorem corruption_noticed {crc : Checksum C} {kind : NBTreeBlockType} {content : List UInt8}
    {stored : StoredNode C} (hcrc : crc.Ideal) (h : Committed crc kind content stored) :
    (stored.bytes.drop subtreeRefSize).take content.length = content ∧
      (stored.header.checksum = crc.impl crc.zero content ↔ kind = .leaf) ∧
      ∀ changed : List UInt8, changed.length = faststdbBlockSize → (∃ i, i < content.length ∧
          changed[subtreeRefSize + i]? ≠ stored.bytes[subtreeRefSize + i]?) →
        ((readAndCheck crc { stored with bytes := changed }).1 = .badData ↔
          kind = .leaf ∨ ∃ i, i < content.length / subtreeRefSize ∧
            changed[subtreeRefSize + i]? ≠ stored.bytes[subtreeRefSize + i]?) := by
  rcases h.covers (hcrc.append _) with ⟨rfl, hcovers⟩ | ⟨rfl, hne, hcovers⟩
  · refine ⟨hcovers.content, ?_, ?_⟩
    · rw [hcovers.checksum]
      simp
    · intro changed hlen hdiff
      rw [hcovers.badData_iff hcrc hlen]
      exact ⟨fun _ => .inl rfl, fun _ => hdiff⟩
  · have hpos : 0 < content.length := length_pos_iff.mpr hne
    refine ⟨hcovers.content, ?_, ?_⟩
    · rw [hcovers.checksum]
      constructor
      · intro heq
        have hlen := congrArg length (hcrc.injective _ _ heq)
        rw [length_take] at hlen
        simp only [subtreeRefSize] at hlen
        omega
      · intro hkind
        cases hkind
    · intro changed hlen _
      rw [hcovers.badData_iff hcrc hlen]
      constructor
      · intro hin
        exact .inr hin
      · intro hin
        rcases hin with hkind | hin
        · cases hkind
        · exact hin

/-- The first byte of the reference is covered: changing it is noticed. -/
theorem corruption_noticed_first : ∃ stored changed,
    Committed .recording .inner (refBytes [zeroRef]) stored ∧
      changed.length = faststdbBlockSize ∧ changed[subtreeRefSize]? ≠ stored.bytes[subtreeRefSize]? ∧
      (readAndCheck .recording { stored with bytes := changed }).1 = .badData := by
  obtain ⟨stored, hstored, hcovers, hzero⟩ := zeroRef_stored
  have hlen : (setRefByte stored 0).length = faststdbBlockSize := by
    rw [setRefByte, length_set, hcovers.length]
  have hne := setRefByte_ne (hzero 0 (by decide))
  have hnoticed := (corruption_noticed Checksum.recording_ideal hstored).2.2 _ hlen
    ⟨0, by rw [length_refBytes]; decide, hne⟩
  exact ⟨stored, _, hstored, hlen, hne,
    hnoticed.mpr (.inr ⟨0, by rw [length_refBytes]; decide, hne⟩)⟩

/-- The second byte of the reference is not: the changed node is read as if nothing happened. -/
theorem corruption_unnoticed : ∃ stored changed,
    Committed .recording .inner (refBytes [zeroRef]) stored ∧ changed.length = faststdbBlockSize ∧
      changed[subtreeRefSize + 1]? ≠ stored.bytes[subtreeRefSize + 1]? ∧
      (readAndCheck .recording { stored with bytes := changed }).1 = .ok := by
  obtain ⟨stored, hstored, hcovers, hzero⟩ := zeroRef_stored
  have hlen : (setRefByte stored 1).length = faststdbBlockSize := by
    rw [setRefByte, length_set, hcovers.length]
  refine ⟨stored, setRefByte stored 1, hstored, hlen, setRefByte_ne (hzero 1 (by decide)), ?_⟩
  have hbad := hcovers.badData_iff Checksum.recording_ideal hlen
  rw [readAndCheck_cases hlen] at hbad ⊢
  -- the only covered byte is the first one
  apply if_pos
  by_contra hcheck
  obtain ⟨i, hi, hdiff⟩ := hbad.mp (if_neg hcheck)
  apply hdiff
  rw [setRefByte, getElem?_set_ne (by omega)]

/-! ## What is not -/

/-- **No false corruption.** A stored node that is read as it was written passes the test, in one
piece or in components: the checksum in its header, computed from the components, is that of the
bytes that are read. -/
theorem no_false_corruption {crc : Checksum C} {kind : NBTreeBlockType} {content : List UInt8}
    {stored : StoredNode C} (hcrc : crc.Continues) (h : Committed crc kind content stored) :
    readAndCheck crc stored = (.ok, .ofBytes stored.bytes) ∧ stored.header.checksum =
        crc.ofData (stored.bytes.drop subtreeRefSize) stored.header.payloadSize ∧
      ∀ block : IOVecBlock, block.Split ∨ block = .ofBytes stored.bytes →
        passesCheck crc stored.header block = true := by
  obtain ⟨n, hcovers⟩ : ∃ n, Covers crc stored content n := by
    rcases h.covers hcrc with ⟨-, hcovers⟩ | ⟨-, -, hcovers⟩
    · exact ⟨_, hcovers⟩
    · exact ⟨_, hcovers⟩
  have hsum : stored.header.checksum =
      crc.ofData (stored.bytes.drop subtreeRefSize) stored.header.payloadSize := by
    rw [Checksum.ofData, hcovers.payload, hcovers.checksum, hcovers.covered]
  refine ⟨hcovers.readAndCheck, hsum, ?_⟩
  rintro block (hsplit | rfl)
  · -- no component has the size of a block
    have hne : (block.component 0).length ≠ faststdbBlockSize := by
      obtain ⟨comp, rest, hdata⟩ := exists_cons_of_ne_nil (ne_nil_of_length_eq_add_one hsplit.1)
      rw [IOVecBlock.component, hdata]
      show comp.length ≠ faststdbBlockSize
      rcases hsplit.2 comp (by rw [hdata]; exact mem_cons_self) with hnil | hlen
      · rw [hnil]
        decide
      · rw [hlen]
        decide
    simp [passesCheck, hne]
  · simp [passesCheck, IOVecBlock.ofBytes, IOVecBlock.component, hsum]

/-- Points that do not compress well. -/
def roughPoints : List Point :=
  (List.range 128).map fun i => ⟨.ofNat i, .ofNat (i ^ 5 * 0x9E3779B97F4A7C15)⟩

/-- A superblock, and a leaf that takes up more than one component. -/
theorem no_false_corruption_nodes :
    (∃ stored, Committed .recording .inner (refBytes [zeroRef]) stored ∧
      readAndCheck .recording stored = (.ok, .ofBytes stored.bytes)) ∧
    ∃ content stored, Committed .recording .leaf content stored ∧ componentSize < content.length ∧
      readAndCheck .recording stored = (.ok, .ofBytes stored.bytes) := by
  have hcrc := Checksum.recording_ideal.append []
  constructor
  · obtain ⟨stored, hstored, -, -⟩ := zeroRef_stored
    exact ⟨stored, hstored, (no_false_corruption hcrc hstored).1⟩
  · obtain ⟨leaf, size, w, hcreate, hcommit, hshaped, hpos, hsize⟩ := leaf_block 7 roughPoints
    obtain ⟨stored, hstored, -⟩ := leaf_covers hcrc hcommit hshaped hpos hsize
    have hlong : (((IOVecLeaf.create 7).bind fun leaf => (leaf.putAll roughPoints).2.commit).map
        Prod.fst) = some 1243 := by decide +kernel
    rw [hcreate, Option.bind_some, hcommit] at hlong
    cases hlong
    have hleaf := Committed.leaf hcreate hcommit hstored
    refine ⟨_, stored, hleaf, ?_, (no_false_corruption hcrc hleaf).1⟩
    rw [length_drop, length_bytes hshaped, show BlockT.size w.block = 1243 from hpos]
    decide

end FastSTDB.Scatter
