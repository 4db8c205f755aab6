import FastSTDB.CodecBlocks
import FastSTDB.BlockContents

/-
  Block codec over bytes — it does what the model of `FastSTDB.Compression` does

  In the model a block is a number of header bytes and the stream behind them. The
  codec over a lawful block follows it: `Written Valid hd s b` says that the block `s` holds
  the header `hd` and then the stream of `b`. Whatever the model writes the codec
  writes too (`Sim`), and a raw write also fails together with that of the model
  (`Agrees`); a chunk never fails, so nothing has to be said about half a chunk.

  A writer and its model are related by `MirrorsAt`, which `new`, `put` and `commit` keep
  (`new_mirrorsAt`, `put_mirrorsAt`, `commit_mirrorsAt`).
-/
namespace FastSTDB.Codec
open List Bytes BlockWriter

variable {B : Type} [BlockRW B] [Memory B] {Valid : B → Prop} [LawfulBlock Valid]
  {hd : List UInt8} {s : B} {b : IOVecBlock}

/-- The block is valid and holds the header `hd` and behind it the stream of the model. -/
structure Written (Valid : B → Prop) (hd : List UInt8) (s : B) (b : IOVecBlock) : Prop where
  valid : Valid s
  base : hd.length = b.base
  bytes_eq : bytes s = hd ++ b.bytes

theorem Written.size (h : Written Valid hd s b) : BlockT.size s = b.size := by
  rw [← length_bytes h.valid, h.bytes_eq, length_append, h.base]
  rfl

theorem Written.size_le (h : Written Valid hd s b) : b.size ≤ faststdbBlockSize :=
  h.size ▸ LawfulBlock.size_le h.valid

theorem Written.spaceLeft (h : Written Valid hd s b) : BlockT.spaceLeft s = BlockT.spaceLeft b := by
  rw [LawfulBlock.spaceLeft_eq h.valid, h.size]
  rfl

omit [LawfulBlock Valid] in
theorem Written.refl (h : Valid s) : Written Valid [] s ⟨0, bytes s⟩ := ⟨h, rfl, rfl⟩

/-! ## Streams -/

theorem Written.put (h : Written Valid hd s b) (v : UInt8) (hlt : b.size < faststdbBlockSize) :
    Written Valid hd (BlockT.put s v) (BlockT.put b v) := by
  have hsize : BlockT.size s < faststdbBlockSize := h.size ▸ hlt
  refine ⟨(LawfulBlock.put v h.valid hsize).1, h.base, ?_⟩
  rw [bytes_put v h.valid hsize, h.bytes_eq, append_assoc]
  rfl

theorem size_put (v : UInt8) : (BlockT.put b v).size = b.size + 1 := by
  rw [IOVecBlock.put_eq_append, IOVecBlock.size_append, length_singleton]

theorem size_putPod (w n : Nat) : (putPod b w n).size = b.size + w := by
  rw [IOVecBlock.putPod_eq_append, IOVecBlock.size_append, length_leBytes]

theorem Written.putPod (h : Written Valid hd s b) (w n : Nat) (hle : b.size + w ≤ faststdbBlockSize) :
    Written Valid hd (putPod s w n) (putPod b w n) := by
  induction w generalizing s b n with
  | zero => exact h
  | succ w ih =>
    have hlt : b.size < faststdbBlockSize := by omega
    apply ih (h.put (.ofNat n) hlt)
    rw [size_put]
    omega

def Agrees (Valid : B → Prop) (hd : List UInt8) (x : Bool × B) (y : Bool × IOVecBlock) : Prop :=
  x.1 = y.1 ∧ Written Valid hd x.2 y.2

/-- What the model writes is written. -/
def Sim (Valid : B → Prop) (hd : List UInt8) (x : Bool × B) (y : Bool × IOVecBlock) : Prop :=
  y.1 = true → x.1 = true ∧ Written Valid hd x.2 y.2

section Results
omit [LawfulBlock Valid]

variable {x : Bool × B} {y : Bool × IOVecBlock} {g : IOVecBlock → Bool × IOVecBlock}

theorem Agrees.sim (h : Agrees Valid hd x y) : Sim Valid hd x y :=
  fun hy => ⟨h.1.trans hy, h.2⟩

theorem Agrees.both (h : Agrees Valid hd x y) :
    ∃ ok s b, x = (ok, s) ∧ y = (ok, b) ∧ Written Valid hd s b :=
  ⟨y.1, x.2, y.2, Prod.ext h.1 rfl, rfl, h.2⟩

theorem Sim.ok (h : Sim Valid hd x (true, b)) : ∃ s', x = (true, s') ∧ Written Valid hd s' b := by
  obtain ⟨hx, hw⟩ := h rfl
  exact ⟨x.2, Prod.ext hx rfl, hw⟩

theorem Sim.bind {f : B → Bool × B} :
    Sim Valid hd x y → (∀ s b, Written Valid hd s b → Sim Valid hd (f s) (g b)) →
      Sim Valid hd (andThen x f) (andThen y g) := by
  intro h hf
  obtain ⟨xok, s⟩ := x
  obtain ⟨yok, b⟩ := y
  cases yok with
  | false => intro hy; cases hy
  | true =>
    obtain ⟨s', hx, hw⟩ := h.ok
    cases hx
    exact hf s b hw

theorem Agrees.bind {f : B → Bool × B} :
    Agrees Valid hd x y → (∀ s b, Written Valid hd s b → Agrees Valid hd (f s) (g b)) →
      Agrees Valid hd (andThen x f) (andThen y g) := by
  intro h hf
  obtain ⟨ok, s, b, rfl, rfl, hw⟩ := h.both
  cases ok with
  | false => exact ⟨rfl, hw⟩
  | true => exact hf s b hw

end Results

theorem putRaw_agrees (h : Written Valid hd s b) (w n : Nat) :
    Agrees Valid hd (putRaw s w n) (putRaw b w n) := by
  rw [putRaw, putRaw, h.spaceLeft]
  have hle := h.size_le
  split
  next => exact ⟨rfl, h⟩
  next hspace =>
    rw [IOVecBlock.spaceLeft_eq] at hspace
    exact ⟨rfl, h.putPod w n (by omega)⟩

theorem encode_agrees (h : Written Valid hd s b) (fst snd : UInt64) :
    Agrees Valid hd (encode fst snd s) (encode fst snd b) := by
  rw [encode, encode, h.spaceLeft]
  split
  next => exact ⟨rfl, h⟩
  next hspace =>
    rw [IOVecBlock.spaceLeft_eq] at hspace
    refine ⟨rfl, ((h.put _ (by omega)).putPod _ _ ?_).putPod _ _ ?_⟩
    · rw [size_put]
      omega
    · rw [size_putPod, size_put]
      omega

theorem encodePairs_sim : ∀ (iter : List UInt64) {s : B} {b : IOVecBlock}, Written Valid hd s b →
    Sim Valid hd (encodePairs iter s) (encodePairs iter b)
  | [], _, _, h => fun _ => ⟨rfl, h⟩
  | [_], _, _, h => fun _ => ⟨rfl, h⟩
  | fst :: snd :: rest, _, _, h =>
    (encode_agrees h fst snd).sim.bind fun _ _ h => encodePairs_sim rest h

theorem shortcut_agrees (h : Written Valid hd s b) : Agrees Valid hd (shortcut s) (shortcut b) := by
  rw [shortcut, shortcut, h.spaceLeft]
  split
  next => exact ⟨rfl, h⟩
  next hspace =>
    rw [IOVecBlock.spaceLeft_eq] at hspace
    exact ⟨rfl, h.put _ (by omega)⟩

theorem tput_sim (h : Written Valid hd s b) (iter : List UInt64) :
    Sim Valid hd (tput iter s) (tput iter b) := by
  rw [tput, tput]
  split
  next => exact (shortcut_agrees h).sim
  next =>
    have hpairs := encodePairs_sim iter h
    cases hm : encodePairs iter b with
    | mk ok b' =>
      rw [hm] at hpairs
      cases ok with
      | false => intro hy; cases hy
      | true =>
        obtain ⟨s', hc, hw⟩ := hpairs.ok
        rw [hc]
        exact fun _ => ⟨rfl, hw⟩

theorem full_iff :
    IOVecBlock.ncomponents ≤ b.size / IOVecBlock.componentSize ↔ ¬ b.size < faststdbBlockSize := by
  simp only [IOVecBlock.ncomponents, IOVecBlock.componentSize, faststdbBlockSize]
  omega

/-- The digits of a value, given that the two ways to write a byte correspond. -/
theorem putDigits_sim {safePut : B → UInt8 → Bool × B}
    (hsafe : ∀ {s : B} v, Valid s → BlockT.size s < faststdbBlockSize →
      safePut s v = (true, BlockT.put s v)) (fuel n : Nat) (h : Written Valid hd s b) :
    Sim Valid hd (putDigits safePut fuel n s) (putDigits IOVecBlock.safePut fuel n b) := by
  induction fuel generalizing n s b with
  | zero => intro hy; cases hy
  | succ fuel ih =>
    rw [putDigits, putDigits, IOVecBlock.safePut]
    by_cases hlt : b.size < faststdbBlockSize
    · rw [if_neg (full_iff.not_left.mpr hlt), hsafe _ h.valid (h.size ▸ hlt), andThen_true, andThen_true]
      by_cases hz : n / 128 = 0
      · rw [if_pos hz, if_pos hz]
        exact fun _ => ⟨rfl, h.put _ hlt⟩
      · rw [if_neg hz, if_neg hz]
        exact ih _ (h.put _ hlt)
    · rw [if_pos (full_iff.mpr hlt)]
      intro hy
      cases hy

theorem putBase128_sim (h : Written Valid hd s b) (n : Nat) :
    Sim Valid hd (BlockT.putBase128 s n) (BlockT.putBase128 b n) := by
  have hlaw : LawfulBlock Valid := inferInstance
  obtain ⟨safePut, hsafe, hput⟩ := hlaw.putBase128
  have hdigits := putDigits_sim hsafe 10 n h
  rw [show BlockT.putBase128 b n = putDigits IOVecBlock.safePut 10 n b from rfl]
  intro hy
  obtain ⟨hx, hw⟩ := hdigits hy
  -- the model has written something, so there was space
  have hlt : BlockT.size s < faststdbBlockSize := by
    rw [h.size]
    by_contra hge
    rw [putDigits, IOVecBlock.safePut, if_pos (full_iff.mpr hge)] at hy
    cases hy
  rw [hput n h.valid hlt (Prod.ext hx rfl)]
  exact ⟨rfl, hw⟩

theorem deltaDeltaTput_sim (h : Written Valid hd s b) {prev prev' : UInt64} {iter : List UInt64}
    {b' : IOVecBlock} (hy : deltaDeltaTput prev iter b = (true, prev', b')) :
    ∃ s', deltaDeltaTput prev iter s = (true, prev', s') ∧ Written Valid hd s' b' := by
  have hmin := putBase128_sim h (minDelta prev iter).toNat
  rw [deltaDeltaTput] at hy
  rw [deltaDeltaTput]
  cases hm : BlockT.putBase128 b (minDelta prev iter).toNat with
  | mk ok b1 =>
    rw [hm] at hy hmin
    cases ok with
    | false => cases hy
    | true =>
      obtain ⟨s1, hc, hw⟩ := hmin.ok
      rw [hc]
      dsimp only at hy ⊢
      rw [Prod.mk.injEq] at hy
      obtain ⟨hok, rfl, rfl⟩ := hy
      obtain ⟨hx, hw'⟩ := tput_sim hw _ hok
      exact ⟨_, by rw [hx], hw'⟩

theorem putWidths_agrees : ∀ (ws : List Nat) (n : Nat) {s : B} {b : IOVecBlock}, Written Valid hd s b →
    Agrees Valid hd (putWidths ws n s) (putWidths ws n b)
  | [], _, _, _, h => ⟨rfl, h⟩
  | w :: ws, n, _, _, h => (putRaw_agrees h w n).bind fun _ _ h => putWidths_agrees ws _ h

theorem encodeValue_agrees (h : Written Valid hd s b) (diff : UInt64) (flag : Nat) :
    Agrees Valid hd (encodeValue s diff flag) (encodeValue b diff flag) := putWidths_agrees _ _ h

theorem fcmPutPairs_sim : ∀ (coded : List (UInt64 × Nat)) {s : B} {b : IOVecBlock},
    Written Valid hd s b → Sim Valid hd (fcmPutPairs coded s) (fcmPutPairs coded b)
  | [], _, _, h => fun _ => ⟨rfl, h⟩
  | [_], _, _, h => fun _ => ⟨rfl, h⟩
  | (d1, f1) :: (d2, f2) :: rest, _, _, h => by
    refine (putRaw_agrees h _ _).sim.bind fun _ _ h => ?_
    refine (encodeValue_agrees h d1 _).sim.bind fun _ _ h => ?_
    exact (encodeValue_agrees h d2 _).sim.bind fun _ _ h => fcmPutPairs_sim rest h

theorem fcmTput_sim (h : Written Valid hd s b) {p p' : DfcmPredictor} {values : List UInt64}
    {b' : IOVecBlock} (hy : fcmTput p values b = (true, p', b')) :
    ∃ s', fcmTput p values s = (true, p', s') ∧ Written Valid hd s' b' := by
  rw [fcmTput] at hy
  rw [fcmTput]
  dsimp only at hy ⊢
  rw [Prod.mk.injEq] at hy
  obtain ⟨hok, rfl, rfl⟩ := hy
  split
  next hz =>
    rw [if_pos hz] at hok
    obtain ⟨hx, hw⟩ := (putRaw_agrees h 1 0xFF).sim hok
    exact ⟨_, by rw [hx], hw⟩
  next hz =>
    rw [if_neg hz] at hok
    obtain ⟨hx, hw⟩ := fcmPutPairs_sim _ h hok
    exact ⟨_, by rw [hx], hw⟩

/-! ## Headers -/

def header (id : ParamId) (nchunks ntail : Nat) : List UInt8 :=
  leBytes 2 faststdbVersion ++ (leBytes 2 nchunks ++ (leBytes 2 ntail ++ leBytes 8 id.toNat))

theorem length_header (id : ParamId) (nchunks ntail : Nat) :
    (header id nchunks ntail).length = blockHeaderSize := by rfl

theorem ofLe_two (n : Nat) : ofLe [.ofNat n, .ofNat (n / 256)] = n % 2 ^ 16 := by
  have h1 : (UInt8.ofNat n).toNat = n % 256 := by simp
  have h2 : (UInt8.ofNat (n / 256)).toNat = n / 256 % 256 := by simp
  simp only [ofLe]
  omega

theorem ofNat_mod (n : Nat) : UInt8.ofNat (n % 2 ^ 16) = UInt8.ofNat n ∧
    UInt8.ofNat (n % 2 ^ 16 / 256) = UInt8.ofNat (n / 256) := by
  constructor
  · apply UInt8.toNat_inj.mp
    simp only [UInt8.toNat_ofNat']
    omega
  · apply UInt8.toNat_inj.mp
    simp only [UInt8.toNat_ofNat']
    omega

section Header
variable {pre : List UInt8} {id : ParamId} {nchunks ntail : Nat}

theorem Written.store16 (h : Written Valid hd s b) (ptr : Nat) (hptr : ptr + 1 < hd.length)
    (hcomp : hd.length ≤ IOVecBlock.componentSize) (n : Nat) :
    Written Valid ((hd.set ptr (.ofNat n)).set (ptr + 1) (.ofNat (n / 256)))
      (store16 s ptr n) b := by
  have hstep : ∀ {hd : List UInt8} {s : B} {i : Nat} (v : UInt8), Written Valid hd s b → i < hd.length →
      hd.length ≤ IOVecBlock.componentSize → Written Valid (hd.set i v) (BlockRW.store s i v) b := by
    intro hd s i v h hi hcomp
    have hlt : i < BlockT.size s := by
      rw [h.size, IOVecBlock.size, ← h.base]
      omega
    have hc : i < IOVecBlock.componentSize := lt_of_lt_of_le hi hcomp
    refine ⟨(LawfulBlock.store v h.valid hlt hc).1, by rw [length_set, h.base], ?_⟩
    rw [bytes_store v h.valid hlt hc, h.bytes_eq, set_append_left _ _ hi]
  have hfirst := hstep (.ofNat n) h (Nat.lt_of_succ_lt hptr) hcomp
  exact hstep _ hfirst (by rw [length_set]; exact hptr) (by rw [length_set]; exact hcomp)

/-- The header of the codec, behind `pre`, ends in the first component. -/
def RoomFor (pre : List UInt8) : Prop := pre.length + blockHeaderSize ≤ IOVecBlock.componentSize

theorem length_behind : (pre ++ header id nchunks ntail).length = pre.length + blockHeaderSize := by
  rw [length_append, length_header]

theorem Written.store_behind (h : Written Valid (pre ++ hd) s b)
    (hroom : RoomFor pre) (hlen : hd.length = blockHeaderSize) {i : Nat}
    (hi : i + 1 < blockHeaderSize) (n : Nat) :
    Written Valid (pre ++ (hd.set i (.ofNat n)).set (i + 1) (.ofNat (n / 256)))
      (Codec.store16 s (pre.length + i) n) b := by
  have hlength : (pre ++ hd).length = pre.length + blockHeaderSize := by rw [length_append, hlen]
  have hstored := h.store16 (pre.length + i) (by rw [hlength]; omega) (by rw [hlength]; exact hroom) n
  have hset : ∀ (hd : List UInt8) (k : Nat) (v : UInt8),
      (pre ++ hd).set (pre.length + k) v = pre ++ hd.set k v := by
    intro hd k v
    rw [set_append_right _ _ le_self_add, Nat.add_sub_cancel_left]
  rwa [hset, add_assoc, hset] at hstored

theorem header_mod : header id (nchunks % 2 ^ 16) ntail = header id nchunks ntail ∧
      header id nchunks (ntail % 2 ^ 16) = header id nchunks ntail := by
  have hmod : ∀ n : Nat, leBytes 2 (n % 2 ^ 16) = leBytes 2 n := by
    intro n
    simp only [leBytes, ofNat_mod]
  exact ⟨by rw [header, hmod, header], by rw [header, hmod, header]⟩

theorem succ_mod (n : Nat) : (n % 2 ^ 16 + 1) % 2 ^ 16 = (n + 1) % 2 ^ 16 := Nat.mod_add_mod _ _ _

section
variable (h : Written Valid (pre ++ header id nchunks ntail) s b) (hroom : RoomFor pre)
include h hroom

theorem Written.load {i : Nat} (hi : i < blockHeaderSize) :
    BlockRW.load s (pre.length + i) = (header id nchunks ntail).getD i 0 := by
  have hlt : pre.length + i < (pre ++ header id nchunks ntail).length := by
    rw [length_behind]
    omega
  have hsize : pre.length + i < BlockT.size s := by
    rw [h.size, IOVecBlock.size, ← h.base]
    omega
  have hc : pre.length + i < IOVecBlock.componentSize :=
    lt_of_lt_of_le (Nat.add_lt_add_left hi _) hroom
  rw [load_eq h.valid hsize hc, h.bytes_eq, getD_append _ _ _ _ hlt,
    getD_append_right _ _ _ _ le_self_add, Nat.add_sub_cancel_left]

theorem Written.load_nchunks : load16 s (pre.length + 2) = nchunks % 2 ^ 16 := by
  rw [load16, add_assoc, h.load hroom (by decide), h.load hroom (by decide)]
  exact ofLe_two nchunks

theorem Written.load_ntail : load16 s (pre.length + 4) = ntail % 2 ^ 16 := by
  rw [load16, add_assoc, h.load hroom (by decide), h.load hroom (by decide)]
  exact ofLe_two ntail

theorem Written.store_nchunks (n : Nat) :
    Written Valid (pre ++ header id n ntail) (Codec.store16 s (pre.length + 2) n) b :=
  h.store_behind hroom (length_header _ _ _) (i := 2) (by decide) n

theorem Written.store_ntail (n : Nat) :
    Written Valid (pre ++ header id nchunks n) (Codec.store16 s (pre.length + 4) n) b :=
  h.store_behind hroom (length_header _ _ _) (i := 4) (by decide) n

theorem Written.increment_nchunks : Written Valid (pre ++ header id (nchunks + 1) ntail)
      (increment s (pre.length + 2)) b := by
  rw [increment, h.load_nchunks hroom, succ_mod, ← header_mod.1]
  exact h.store_nchunks hroom _

theorem Written.increment_ntail : Written Valid (pre ++ header id nchunks (ntail + 1))
      (increment s (pre.length + 4)) b := by
  rw [increment, h.load_ntail hroom, succ_mod, ← header_mod.2]
  exact h.store_ntail hroom _

end

theorem roomFor_nil : RoomFor [] := by
  rw [RoomFor]
  decide

theorem Written.header_lt (h : Written Valid (header id nchunks ntail) s b) :
    blockHeaderSize ≤ BlockT.size s := by
  rw [h.size, IOVecBlock.size, ← h.base]
  exact le_self_add

end Header

/-! ## Writers -/

/-- The writer is in the state of the model; behind `pre` is the header, with the counters of the
model. -/
structure MirrorsAt (Valid : B → Prop) (pre : List UInt8) (id : ParamId) (w : BlockWriter B)
    (m : IOVecBlockWriter) : Prop where
  block : Written Valid (pre ++ header id m.nchunks m.ntail) w.block m.block
  prev : w.prev = m.prev
  predictor : w.predictor = m.predictor
  writeIndex : w.writeIndex = m.writeIndex
  writebuf : w.writebuf = m.writebuf
  nchunks : w.nchunks = pre.length + 2
  ntail : w.ntail = pre.length + 4

/-- A model writer with so many bytes before the stream. -/
def freshAt (base : Nat) : IOVecBlockWriter := { IOVecBlockWriter.init with block := ⟨base, []⟩ }

theorem putRaw_bytes (h : Valid s) {w : Nat} (n : Nat)
    (hle : BlockT.size s + w ≤ faststdbBlockSize) : ∃ s', putRaw s w n = (true, s') ∧ Valid s' ∧
      bytes s' = bytes s ++ leBytes w n := by
  have hfit : IOVecBlock.Fits ⟨0, bytes s⟩ (leBytes w n) := by
    rw [IOVecBlock.Fits, IOVecBlock.size, length_leBytes, length_bytes h, zero_add]
    exact hle
  have hagrees := putRaw_agrees (.refl h) w n
  rw [putRaw_fit hfit] at hagrees
  obtain ⟨hok, hw⟩ := hagrees
  exact ⟨(putRaw s w n).2, Prod.ext hok rfl, hw.valid, hw.bytes_eq⟩

theorem allocate_bytes (h : Valid s) (sz : Nat) (hpos : 0 < sz)
    (hle : BlockT.size s + sz ≤ IOVecBlock.componentSize) :
    ∃ s' gap, BlockRW.allocate s sz = some (BlockT.size s, s') ∧ Valid s' ∧ gap.length = sz ∧
      bytes s' = bytes s ++ gap := by
  obtain ⟨s', halloc, hvalid, himage, hsize⟩ := LawfulBlock.allocate h hpos hle
  have hlen := LawfulBlock.length_image h
  refine ⟨s', ((image s).drop (BlockT.size s)).take sz, halloc, hvalid, ?_, ?_⟩
  · rw [length_take, length_drop]
    simp only [IOVecBlock.componentSize, faststdbBlockSize] at *
    omega
  · rw [bytes, himage, hsize, take_add]
    rfl

theorem new_mirrorsAt (id : ParamId) (h : Valid s) (hroom : RoomFor (bytes s)) :
    ∃ w, BlockWriter.new id s = some w ∧
      MirrorsAt Valid (bytes s) id w (freshAt ((bytes s).length + blockHeaderSize)) := by
  generalize hpre : bytes s = pre at hroom ⊢
  have hsize : BlockT.size s = pre.length := by rw [← length_bytes h, hpre]
  rw [RoomFor, blockHeaderSize, IOVecBlock.componentSize] at hroom
  obtain ⟨s1, hver, hv1, hb1⟩ := putRaw_bytes h (w := 2) faststdbVersion
    (by rw [faststdbBlockSize]; omega)
  rw [hpre] at hb1
  have hsize1 : BlockT.size s1 = pre.length + 2 := by
    rw [← length_bytes hv1, hb1, length_append, length_leBytes]
  obtain ⟨s2, gap2, halloc2, hv2, hg2, hb2⟩ := allocate_bytes hv1 2 (by decide)
    (by rw [IOVecBlock.componentSize]; omega)
  have hsize2 : BlockT.size s2 = pre.length + 4 := by
    rw [← length_bytes hv2, hb2, length_append, length_bytes hv1, hsize1, hg2]
  obtain ⟨s3, gap3, halloc3, hv3, hg3, hb3⟩ := allocate_bytes hv2 2 (by decide)
    (by rw [IOVecBlock.componentSize]; omega)
  have hsize3 : BlockT.size s3 = pre.length + 6 := by
    rw [← length_bytes hv3, hb3, length_append, length_bytes hv2, hsize2, hg3]
  obtain ⟨s4, hid, hv4, hb4⟩ := putRaw_bytes hv3 (w := 8) id.toNat
    (by rw [faststdbBlockSize]; omega)
  -- the counters hold whatever was in the memory
  have hlen : (leBytes 2 faststdbVersion ++ (gap2 ++ (gap3 ++ leBytes 8 id.toNat))).length =
      blockHeaderSize := by
    simp only [length_append, hg2, hg3]
    rfl
  have hw4 : Written Valid (pre ++ (leBytes 2 faststdbVersion ++ (gap2 ++ (gap3 ++
      leBytes 8 id.toNat)))) s4 ⟨pre.length + blockHeaderSize, []⟩ := by
    refine ⟨hv4, ?_, ?_⟩
    · rw [length_append, hlen]
    · rw [hb4, hb3, hb2, hb1]
      simp only [append_assoc, append_nil]
  have htail := hw4.store_behind hroom hlen (i := 4) (by decide) 0
  have hchunks := htail.store_behind hroom (by simp only [length_set, hlen]) (i := 2) (by decide) 0
  refine ⟨⟨store16 (store16 s4 (pre.length + 4) 0) (pre.length + 2) 0, 0, .init, 0, [],
    pre.length + 2, pre.length + 4⟩, ?_, ?_⟩
  · rw [new, hver]
    dsimp only
    rw [halloc2, Option.bind_some, halloc3, Option.bind_some, hid, hsize1, hsize2]
    rfl
  · refine ⟨?_, rfl, rfl, rfl, rfl, rfl, rfl⟩
    -- and are set to 0
    obtain ⟨a, a', rfl⟩ : ∃ a a', gap2 = [a, a'] := length_eq_two.mp hg2
    obtain ⟨c, c', rfl⟩ : ∃ c c', gap3 = [c, c'] := length_eq_two.mp hg3
    exact hchunks

section Put
variable {pre : List UInt8} {id : ParamId} {w : BlockWriter B} {m m' : IOVecBlockWriter}

theorem MirrorsAt.roomForChunk (h : MirrorsAt Valid pre id w m) : w.roomForChunk = m.roomForChunk := by
  rw [BlockWriter.roomForChunk, h.block.spaceLeft]
  rfl

theorem putPoint_agrees (h : Written Valid hd s b) (p : Point) :
    Agrees Valid hd (putPoint s p) (putPoint b p) :=
  (putRaw_agrees h 8 p.ts.toNat).bind fun _ _ h => putRaw_agrees h 8 p.value.toNat

theorem putChunk_mirrors (h : MirrorsAt Valid pre id w m) (hpre : RoomFor pre) {buf : List Point}
    (hm : m.putChunk buf = (.ok, m')) :
    ∃ w', w.putChunk buf = (.ok, w') ∧ MirrorsAt Valid pre id w' m' := by
  rw [IOVecBlockWriter.putChunk] at hm
  rw [putChunk, h.prev, h.predictor]
  cases hts : deltaDeltaTput m.prev (buf.map Point.ts) m.block with
  | mk ok r =>
    obtain ⟨prev, b1⟩ := r
    rw [hts] at hm
    cases ok with
    | false => cases hm
    | true =>
      obtain ⟨s1, hs1, hw1⟩ := deltaDeltaTput_sim h.block hts
      cases hval : fcmTput m.predictor (buf.map Point.value) b1 with
      | mk ok r =>
        obtain ⟨predictor, b2⟩ := r
        dsimp only at hm
        rw [hval] at hm
        cases ok with
        | false => cases hm
        | true =>
          obtain ⟨s2, hs2, hw2⟩ := fcmTput_sim hw1 hval
          cases hm
          refine ⟨{ w with block := increment s2 w.nchunks, prev, predictor }, ?_, ?_⟩
          · rw [hs1]
            dsimp only
            rw [hs2]
          · refine ⟨?_, rfl, rfl, h.writeIndex, h.writebuf, h.nchunks, h.ntail⟩
            rw [h.nchunks]
            exact hw2.increment_nchunks hpre

theorem put_mirrorsAt (h : MirrorsAt Valid pre id w m) (hpre : RoomFor pre) {p : Point}
    (ho : m.roomForChunk = true → (m.put p).1 = .ok) {status : Status} (hm : m.put p = (status, m')) :
    ∃ w', w.put p = (status, w') ∧ MirrorsAt Valid pre id w' m' := by
  cases hroom : m.roomForChunk with
  | true =>
    have hok := hm
    have hstatus := ho hroom
    rw [hm] at hstatus
    cases hstatus
    rw [IOVecBlockWriter.put, hroom] at hok
    rw [put, h.roomForChunk, hroom, h.writebuf, h.writeIndex]
    by_cases hfull : (m.writeIndex + 1) % chunkSize = 0
    · rw [if_pos hfull] at hok ⊢
      refine putChunk_mirrors ?_ hpre hok
      exact ⟨h.block, h.prev, h.predictor, rfl, rfl, h.nchunks, h.ntail⟩
    · rw [if_neg hfull] at hok ⊢
      obtain ⟨-, rfl⟩ := Prod.mk.inj hok
      exact ⟨_, rfl, h.block, h.prev, h.predictor, rfl, rfl, h.nchunks, h.ntail⟩
  | false =>
    obtain ⟨ok, s1, b1, hx, hy, hw⟩ := (putPoint_agrees h.block p).both
    rw [IOVecBlockWriter.put, hroom, hy] at hm
    rw [put, h.roomForChunk, hroom, hx]
    cases ok with
    | true =>
      obtain ⟨rfl, rfl⟩ := Prod.mk.inj hm
      refine ⟨_, rfl, ?_, h.prev, h.predictor, h.writeIndex, h.writebuf, h.nchunks, h.ntail⟩
      rw [h.ntail]
      exact hw.increment_ntail hpre
    | false =>
      obtain ⟨rfl, rfl⟩ := Prod.mk.inj hm
      exact ⟨_, rfl, hw, h.prev, h.predictor, h.writeIndex, h.writebuf, h.nchunks, h.ntail⟩

theorem flushTail_mirrors (hpre : RoomFor pre) : ∀ (ps : List Point) {w : BlockWriter B} {m : IOVecBlockWriter},
    MirrorsAt Valid pre id w m → MirrorsAt Valid pre id (.flushTail ps w) (.flushTail ps m)
  | [], _, _, h => h
  | p :: ps, w, m, h => by
    obtain ⟨ok, s1, b1, hx, hy, hw⟩ := (putPoint_agrees h.block p).both
    rw [flushTail, IOVecBlockWriter.flushTail, hx, hy]
    cases ok with
    | true =>
      apply flushTail_mirrors hpre ps
      refine ⟨?_, h.prev, h.predictor, by rw [h.writeIndex], h.writebuf, h.nchunks, h.ntail⟩
      rw [h.ntail]
      exact hw.increment_ntail hpre
    | false => exact ⟨hw, h.prev, h.predictor, h.writeIndex, h.writebuf, h.nchunks, h.ntail⟩

theorem commit_mirrorsAt (h : MirrorsAt Valid pre id w m) (hpre : RoomFor pre)
    (hh : m.writeIndex % chunkSize ≠ 0 → m.ntail = 0) {size : Nat}
    (hm : m.commit = some (size, m')) :
    ∃ w', w.commit = some (size, w') ∧ MirrorsAt Valid pre id w' m' := by
  have hno : ¬ (m.writeIndex % chunkSize ≠ 0 ∧ load16 w.block w.ntail ≠ 0) := by
    rintro ⟨hidx, hload⟩
    rw [h.ntail, h.block.load_ntail hpre, hh hidx] at hload
    exact hload rfl
  rw [IOVecBlockWriter.commit] at hm
  split at hm
  next => cases hm
  next =>
    have hflush := flushTail_mirrors hpre m.writebuf h
    rw [commit, h.writeIndex, h.writebuf]
    dsimp only at hm ⊢
    rw [if_neg hno]
    generalize flushTail m.writebuf w = w1 at hflush ⊢
    generalize IOVecBlockWriter.flushTail m.writebuf m = m1 at hflush hm
    obtain ⟨rfl, rfl⟩ := Prod.mk.inj (Option.some.inj hm)
    have hstored : Written Valid (pre ++ header id (m.writeIndex / chunkSize) m1.ntail)
        (store16 w1.block w1.nchunks (m.writeIndex / chunkSize % 2 ^ 16)) m1.block := by
      rw [hflush.nchunks, ← header_mod.1]
      exact hflush.block.store_nchunks hpre _
    rw [hstored.size]
    exact ⟨_, rfl, hstored, hflush.prev, hflush.predictor, hflush.writeIndex, rfl,
      hflush.nchunks, hflush.ntail⟩

end Put
end FastSTDB.Codec
