import Aiopquic.Buffer
import Aiopquic.ExtensionBlock
import Aiopquic.ObjectFaithful
import Mathlib.Tactic.NormNum

/-!
# What the calls of a `Buffer` do

A read call gives the value of some bytes of the memory, or raises and leaves the buffer as it is. A
push writes some bytes at the cursor, or raises and leaves the bytes and the cursor as they are.
-/

namespace Aiopquic

open Circular (copyIn copyOut copyOut_succ copyOut_take copyOut_drop copyOut_copyIn copyOut_length)
open Fallible (raise get modify)

/-! ## Integers with their length in front -/

/-- The integer that some bytes stand for. -/
def vintValue (vi64 : Bool) : List UInt8 → ℕ
  | [] => 0
  | first :: later => vintHead vi64 first * 256 ^ later.length + beValue later

/-- The bytes of an integer of a flavour, as the encoder of object bodies writes them. -/
def vintWrite (vi64 : Bool) (v : ℕ) : List UInt8 := (VintCodec.ofFlavour vi64).write v

/-- The lengths of the integers of RFC 9000, with the high bits of the first byte. -/
theorem varint_width_cases (first : UInt8) :
    first.toNat / 64 = 0 ∧ vintWidth false first = 1 ∨ first.toNat / 64 = 1 ∧
    vintWidth false first = 2 ∨
      first.toNat / 64 = 2 ∧ vintWidth false first = 4 ∨ first.toNat / 64 = 3 ∧
      vintWidth false first = 8 := by
  have hbyte := first.toNat_lt
  have hsize : vintWidth false first = 2 ^ (first.toNat / 64) := rfl
  have hquot : first.toNat / 64 = 0 ∨ first.toNat / 64 = 1 ∨ first.toNat / 64 = 2 ∨
    first.toNat / 64 = 3 := by
    omega
  rcases hquot with hquot | hquot | hquot | hquot
  · exact .inl ⟨hquot, by rw [hsize, hquot]; rfl⟩
  · exact .inr (.inl ⟨hquot, by rw [hsize, hquot]; rfl⟩)
  · exact .inr (.inr (.inl ⟨hquot, by rw [hsize, hquot]; rfl⟩))
  · exact .inr (.inr (.inr ⟨hquot, by rw [hsize, hquot]; rfl⟩))

theorem and_low_bits (n k : ℕ) : n &&& (1 <<< k - 1) = n % 2 ^ k := by
  rw [Nat.one_shiftLeft, Nat.and_two_pow_sub_one_eq_mod]

theorem vintValue_eq (vi64 : Bool) (first : UInt8) (later : List UInt8) :
    vintValue vi64 (first :: later) = beFrom (vintHead vi64 first) later := by
  rw [vintValue, beFrom_eq]

/-- Two bits taken off the first of eight bytes are taken off the number. -/
theorem low_bits_eq {first : UInt8} {later : List UInt8} (h : beValue later < 2 ^ 56)
    (hlen : later.length = 7) :
    (first.toNat * 256 ^ later.length + beValue later) % 2 ^ 62 =
      vintHead false first * 256 ^ later.length + beValue later := by
  have hhead : vintHead false first = first.toNat % 64 := rfl
  rw [hlen, hhead]
  omega

namespace Buffer

variable {b : Buffer} {n : ℕ}

/-! ## Pulls -/

theorem pulling_of_le {α : Type} {value : Buffer → α} (h : b.pos + n ≤ b.capacity) :
    pulling n value b = (.ok (value b), b.advance n h) := by
  rw [pulling, Fallible.get_bind, dif_pos h]
  rfl

theorem pulling_of_lt {α : Type} {value : Buffer → α} (h : b.capacity < b.pos + n) :
    pulling n value b = (.error .readOutOfBounds, b) := by
  rw [pulling, Fallible.get_bind, dif_neg (not_le.2 h)]
  rfl

theorem pulling_congr {α : Type} {value value' : Buffer → α} (h : value b = value' b) :
    pulling n value b = pulling n value' b := by
  rcases le_or_gt (b.pos + n) b.capacity with hle | hlt
  · rw [pulling_of_le hle, pulling_of_le hle, h]
  · rw [pulling_of_lt hlt, pulling_of_lt hlt]

/-- The bytes from the cursor on, one by one. -/
theorem copyOut_byteAt (k : ℕ) : (copyOut b.buf (b.pos + k) (n + 1)) =
    b.buf (b.pos + k) :: copyOut b.buf (b.pos + (k + 1)) n := by
  rw [copyOut_succ, Nat.add_assoc]

/-- A pull of a number with its most significant byte first. -/
def pullBe (n : ℕ) : Op ℕ := pulling n fun b => beValue (copyOut b.buf b.pos n)

theorem pullUint8_eq : pullUint8 = pullBe 1 := by
  funext b
  refine pulling_congr ?_
  rw [copyOut_succ]
  simp [byteAt, beValue, copyOut]

theorem pullUint16_eq : pullUint16 = pullBe 2 := by
  funext b
  refine pulling_congr ?_
  rw [← beFrom_zero, ← Nat.add_zero b.pos, copyOut_byteAt, copyOut_byteAt]
  simp [byteAt, beFrom_cons, beFrom_nil, copyOut]

theorem pullUint32_eq : pullUint32 = pullBe 4 := by
  funext b
  refine pulling_congr ?_
  rw [← beFrom_zero, ← Nat.add_zero b.pos, copyOut_byteAt, copyOut_byteAt, copyOut_byteAt,
    copyOut_byteAt]
  simp [byteAt, beFrom_cons, beFrom_nil, copyOut, Nat.shiftLeft_or_distrib, ← Nat.shiftLeft_add]

theorem pullUint64_eq : pullUint64 = pullBe 8 := by
  funext b
  exact pulling_congr (beFrom_zero _)

theorem pullUint_eq (m : Int32) :
    pullUint m = if m.toInt < 0 then raise .negativeSize else pullBe m.toInt.toNat := by
  rw [pullUint]
  split
  · rename_i h
    subst h
    exact pullUint8_eq
  split
  · rename_i h
    subst h
    exact pullUint16_eq
  split
  · rename_i h
    subst h
    exact pullUint32_eq
  split
  · rename_i h
    subst h
    exact pullUint64_eq
  split
  · rfl
  · funext b
    exact pulling_congr (beFrom_zero _)

/-- A pull of an integer of a flavour. -/
def pullFlavour (vi64 : Bool) : Op ℕ := do
  let b ← get
  if b.capacity < b.pos + 1 then raise .readOutOfBounds
  else pulling (vintWidth vi64 (b.buf b.pos)) fun b =>
    vintValue vi64 (copyOut b.buf b.pos (vintWidth vi64 (b.buf b.pos)))

theorem pullUintVar_eq : pullUintVar = pullFlavour false := by
  funext b
  rw [pullUintVar, pullFlavour, Fallible.get_bind, Fallible.get_bind]
  split
  · rfl
  · have hsize : 1 <<< (b.byteAt 0 >>> 6) = vintWidth false (b.buf b.pos) := by
      rw [Nat.one_shiftLeft, Nat.shiftRight_eq_div_pow]
      rfl
    have hfirst : b.byteAt 0 &&& 0x3F = vintHead false (b.buf b.pos) :=
      Nat.and_two_pow_sub_one_eq_mod (b.buf b.pos).toNat 6
    dsimp only
    rw [hsize, hfirst]
    refine pulling_congr ?_
    rcases varint_width_cases (b.buf b.pos) with ⟨-, hs⟩ | ⟨-, hs⟩ | ⟨-, hs⟩ | ⟨-, hs⟩
    · rw [hs, if_pos rfl, copyOut_succ, vintValue_eq]
      rfl
    · rw [hs, if_neg (by decide), if_pos rfl, hfirst, copyOut_succ, vintValue_eq, copyOut_byteAt]
      rfl
    · rw [hs, if_neg (by decide), if_neg (by decide), if_pos rfl, hfirst, copyOut_succ,
        vintValue_eq,
        copyOut_byteAt, copyOut_byteAt, copyOut_byteAt]
      simp [byteAt, beFrom_cons, beFrom_nil, copyOut, Nat.shiftLeft_or_distrib, ← Nat.shiftLeft_add]
    · -- the two high bits are taken off the number
      rw [hs, if_neg (by decide), if_neg (by decide), if_neg (by decide), and_low_bits, fromBytes,
        beFrom_zero,
        copyOut_succ, beValue, vintValue]
      exact low_bits_eq (by simpa using FlatBuffer.beValue_lt (copyOut b.buf (b.pos + 1) 7))
        copyOut_length

theorem pullUintVi64_eq : pullUintVi64 = pullFlavour true := by
  funext b
  rw [pullUintVi64, pullFlavour, Fallible.get_bind, Fallible.get_bind]
  split
  · rfl
  · have hsize : leadingOnes (UInt8.ofNat (b.byteAt 0)) + 1 = vintWidth true (b.buf b.pos) := by
      rw [byteAt, UInt8.ofNat_toNat]
      rfl
    dsimp only
    rw [hsize]
    refine pulling_congr ?_
    rw [byteAt, Nat.add_zero, UInt8.ofNat_toNat, vintWidth, if_pos rfl, copyOut_succ, vintValue_eq,
      and_mask_eq (leadingOnes_le _)]
    rfl

/-! ## Pushes -/

/-- `raw` is at the cursor, which is behind it, and the rest of the memory is as before. -/
structure Pushed (b b' : Buffer) (raw : List UInt8) : Prop where
  pos : b'.pos = b.pos + raw.length
  bytes : copyOut b'.buf b.pos raw.length = raw
  frame : ∀ i, i < b.pos ∨ b.pos + raw.length ≤ i → b'.buf i = b.buf i
  capacity : b.capacity ≤ b'.capacity
  growable : b'.growable = b.growable
  vi64 : b'.vi64 = b.vi64

/-- The bytes and the cursor are as before. -/
structure Kept (b b' : Buffer) : Prop where
  pos : b'.pos = b.pos
  buf : b'.buf = b.buf
  capacity : b.capacity ≤ b'.capacity
  growable : b'.growable = b.growable
  vi64 : b'.vi64 = b.vi64
  fixed : b.growable = false → b'.capacity = b.capacity

theorem Kept.refl (b : Buffer) : Kept b b := ⟨rfl, rfl, le_rfl, rfl, rfl, fun _ => rfl⟩

/-- There is memory for `n` bytes at the cursor, or it can be had. -/
def HasRoom (heap : Heap) (b : Buffer) (n : ℕ) : Prop :=
  b.pos + n ≤ b.capacity ∨ heap.has (max (b.capacity * 2) (b.pos + n)) = true

variable {heap : Heap} {raw : List UInt8} {e : BufferRaise} {b' : Buffer}

theorem grow_fixed (h : b.growable = false) (need : ℕ) :
    grow heap need b = (.error .writePastFixed, b) := by
  rw [grow, Fallible.get_bind, if_pos (by simp [h])]
  rfl

theorem grow_of_has (hg : b.growable = true) {need : ℕ}
    (h : heap.has (max (b.capacity * 2) need) = true) :
    ∃ b', grow heap need b = (.ok (), b') ∧ Kept b b' ∧ need ≤ b'.capacity := by
  have hcap : (if b.capacity * 2 < need then need else b.capacity * 2) =
    max (b.capacity * 2) need := by
    split <;> omega
  rw [grow, Fallible.get_bind, if_neg (by simp [hg]), dif_pos (hcap.symm ▸ h)]
  refine ⟨_, rfl, ⟨rfl, rfl, ?_, rfl, rfl, fun hfixed => by simp [hg] at hfixed⟩, ?_⟩
  · dsimp only
    omega
  · dsimp only
    omega

theorem grow_of_not_has (hg : b.growable = true) {need : ℕ}
    (h : heap.has (max (b.capacity * 2) need) = false) :
    grow heap need b = (.error .memory, b) := by
  have hcap : (if b.capacity * 2 < need then need else b.capacity * 2) =
    max (b.capacity * 2) need := by
    split <;> omega
  rw [grow, Fallible.get_bind, if_neg (by simp [hg]), dif_neg (by simp [hcap, h])]
  rfl

theorem store_of_le (h : b.pos + raw.length ≤ b.capacity) :
    store raw b = (.ok (), b.put raw h) ∧ Pushed b (b.put raw h) raw := by
  refine ⟨?_, rfl, copyOut_copyIn, fun i hi => ?_, le_rfl, rfl, rfl⟩
  · rw [store, Fallible.get_bind, dif_pos h]
    rfl
  · refine Circular.copyIn_ne fun j hj => ?_
    omega

theorem Pushed.of_kept {c : Buffer} (hkept : Kept b c) (h : Pushed c b' raw) : Pushed b b' raw where
  pos := by rw [h.pos, hkept.pos]
  bytes := by rw [← hkept.pos, h.bytes]
  frame i hi := by rw [h.frame i (hkept.pos ▸ hi), hkept.buf]
  capacity := hkept.capacity.trans h.capacity
  growable := h.growable.trans hkept.growable
  vi64 := h.vi64.trans hkept.vi64

theorem Pushed.at_pos (h : Pushed b b' raw) {j : ℕ} (hj : j < raw.length) :
    b'.buf (b.pos + j) = raw[j] := by
  have hget := congrArg (·[j]?) h.bytes
  simp only [copyOut, List.getElem?_map, List.getElem?_range hj, Option.map_some,
    List.getElem?_eq_getElem hj] at hget
  exact Option.some.inj hget

/-! ### With the check -/

theorem checkPush_fixed (h : b.growable = false) (need : ℤ) :
    checkPush heap need b = (.error .writeToFixed, b) := by
  rw [checkPush, Fallible.get_bind, if_pos (by simp [h])]
  rfl

theorem checkPush_of_room (hg : b.growable = true) (h : HasRoom heap b n) :
    ∃ b', checkPush heap n b = (.ok (), b') ∧ Kept b b' ∧ b'.pos + n ≤ b'.capacity := by
  rw [checkPush, Fallible.get_bind, if_neg (by simp [hg])]
  split
  · have hhas := h.resolve_left (by omega)
    obtain ⟨b', hgrow, hkept, hle⟩ := grow_of_has hg hhas
    exact ⟨b', hgrow, hkept, by rw [hkept.pos]; exact hle⟩
  · exact ⟨b, rfl, .refl b, by omega⟩

theorem checkPush_of_full (hg : b.growable = true) (h : ¬ HasRoom heap b n) :
    checkPush heap n b = (.error .memory, b) := by
  obtain ⟨hfull, hhas⟩ := not_or.1 h
  rw [checkPush, Fallible.get_bind, if_neg (by simp [hg]), if_pos (by omega)]
  exact grow_of_not_has hg (Bool.eq_false_iff.2 hhas)

/-- A push of bytes that are known: it raises for a buffer that does not grow, or if there is no
memory. -/
theorem checked_of_room (hg : b.growable = true) (h : HasRoom heap b raw.length) :
    ∃ b', (checkPush heap raw.length >>= fun _ => store raw) b = (.ok (), b') ∧
    Pushed b b' raw := by
  obtain ⟨c, hcheck, hkept, hle⟩ := checkPush_of_room hg h
  obtain ⟨hstore, hpushed⟩ := store_of_le hle
  exact ⟨_, (Fallible.bind_ok hcheck).trans hstore, hpushed.of_kept hkept⟩

theorem checked_of_full (hg : b.growable = true) (h : ¬ HasRoom heap b raw.length) :
    (checkPush heap raw.length >>= fun _ => store raw) b = (.error .memory, b) :=
  Fallible.bind_error (checkPush_of_full hg h)

theorem checked_fixed (h : b.growable = false) {need : ℤ} {g : Unit → Op Unit} :
    (checkPush heap need >>= g) b = (.error .writeToFixed, b) :=
  Fallible.bind_error (checkPush_fixed h need)

/-! ### The bytes of the numbers -/

/-- The checks and the bytes of a push of a number. -/
def pushRaw (heap : Heap) (raw : List UInt8) : Op Unit := checkPush heap raw.length >>=
    fun _ => store raw

/-- The bytes of a signed number are those of the unsigned number with the same bits. -/
theorem lowByte_shift (v : ℤ) {k : ℕ} (hk : k < 4) :
    lowByte (v >>> (8 * k)) = .ofNat ((v % 2 ^ 64).toNat >>> (8 * k) &&& 0xff) := by
  have hmask : ∀ u : ℕ, u &&& 0xff = u % 256 := fun u => Nat.and_two_pow_sub_one_eq_mod u 8
  rw [lowByte, hmask, Int.shiftRight_eq_div_pow, Nat.shiftRight_eq_div_pow]
  refine congrArg UInt8.ofNat ?_
  have hcases : k = 0 ∨ k = 1 ∨ k = 2 ∨ k = 3 := by omega
  rcases hcases with rfl | rfl | rfl | rfl <;> norm_num <;> omega

theorem lowByte_eq (v : ℤ) : lowByte v = .ofNat ((v % 2 ^ 64).toNat >>> 0 &&& 0xff) := by
  rw [← lowByte_shift v (k := 0) (by decide), Nat.mul_zero, Int.shiftRight_zero]

/-- The bytes that a push of `n` bytes writes for a number. -/
def signedBytes (n : ℕ) (v : ℤ) : List UInt8 := beBytes n (v % 2 ^ 64).toNat

theorem pushUint8_eq (v : ℤ) : pushUint8 heap v =
    if -2 ^ 31 ≤ v ∧ v < 2 ^ 31 then pushRaw heap (signedBytes 1 v) else raise .intOverflow := by
  rw [pushUint8, toSigned]
  split
  · rw [signedBytes, beBytes, ← lowByte_eq]
    rfl
  · rfl

theorem pushUint16_eq (v : ℤ) : pushUint16 heap v =
    if -2 ^ 31 ≤ v ∧ v < 2 ^ 31 then pushRaw heap (signedBytes 2 v) else raise .intOverflow := by
  rw [pushUint16, toSigned]
  split
  · rw [signedBytes, beBytes, ← lowByte_shift v (by decide), beBytes, ← lowByte_eq]
    rfl
  · rfl

theorem pushUint32_eq (v : ℤ) : pushUint32 heap v =
    if -2 ^ 63 ≤ v ∧ v < 2 ^ 63 then pushRaw heap (signedBytes 4 v) else raise .intOverflow := by
  rw [pushUint32, toSigned]
  split
  · rw [signedBytes, beBytes, ← lowByte_shift v (by decide), beBytes, ← lowByte_shift v (by decide),
      beBytes,
      ← lowByte_shift v (by decide), beBytes, ← lowByte_eq]
    rfl
  · rfl

/-- A push through `int.to_bytes`. -/
def pushBig (heap : Heap) (n v : ℤ) : Op Unit := do
  checkPush heap n
  let raw ← toBytes n v
  store raw

theorem pushBig_eq {n v : ℤ} (hn : 0 ≤ n) (hv : 0 ≤ v) (hlt : v < 256 ^ n.toNat) :
    pushBig heap n v = pushRaw heap (beBytes n.toNat v.toNat) := by
  have hbytes : toBytes n v = pure (beBytes n.toNat v.toNat) := by
    rw [toBytes, if_neg (by omega), if_neg (by omega)]
  rw [pushBig, hbytes, pushRaw, length_beBytes, Int.toNat_of_nonneg hn]
  rfl

/-- Otherwise it raises, perhaps after the memory has grown. -/
theorem pushBig_raises {n v : ℤ} (h : n < 0 ∨ v < 0 ∨ 256 ^ n.toNat ≤ v) :
    ∃ e b', pushBig heap n v b = (.error e, b') ∧ Kept b b' := by
  obtain ⟨e, hbytes⟩ : ∃ e, toBytes n v = raise e := by
    rw [toBytes]
    split
    · exact ⟨_, rfl⟩
    · rw [if_pos (by omega)]
      exact ⟨_, rfl⟩
  by_cases hg : b.growable = true
  · rcases lt_or_ge n 0 with hneg | hpos
    · have hcheck : checkPush heap n b = (.ok (), b) := by
        have := b.pos_le
        rw [checkPush, Fallible.get_bind, if_neg (by simp [hg]), if_neg (by omega)]
        rfl
      refine ⟨e, b, ?_, .refl b⟩
      rw [pushBig, Fallible.bind_ok hcheck, hbytes]
      rfl
    · lift n to ℕ using hpos
      by_cases hroom : HasRoom heap b n
      · obtain ⟨b', hcheck, hkept, -⟩ := checkPush_of_room hg hroom
        refine ⟨e, b', ?_, hkept⟩
        rw [pushBig, Fallible.bind_ok hcheck, hbytes]
        rfl
      · exact ⟨_, b, Fallible.bind_error (checkPush_of_full hg hroom), .refl b⟩
  · exact ⟨_, b, checked_fixed (by simpa using hg), .refl b⟩

/-! ### Integers of a flavour -/

theorem eq_pushRaw {n : ℤ} {written : List UInt8} (hn : n = raw.length) (h : written = raw) :
    (checkPush heap n >>= fun _ => store written) = pushRaw heap raw := by
  subst hn h
  rfl

/-- The first byte: the bits that a number has above those of the other bytes, behind the mark. -/
theorem markedByte {q : ℕ} (hq : q < 64) (m : ℕ) :
    UInt8.ofNat (q &&& 0x3F) ||| UInt8.ofNat m = UInt8.ofNat (q ||| m) := by
  have hmask : q &&& 0x3F = q % 64 := Nat.and_two_pow_sub_one_eq_mod q 6
  rw [hmask, Nat.mod_eq_of_lt hq, UInt8.ofNat_or]

theorem pushUintVar_eq {v : ℤ} (hv : 0 ≤ v) (hlt : v < 2 ^ 62) :
    pushUintVar heap v = pushRaw heap (varintWrite v.toNat) := by
  have huint : toUint64 v = pure v.toNat := by rw [toUint64, if_pos (by omega)]
  rw [pushUintVar, huint]
  obtain ⟨u, hu⟩ : ∃ u, v.toNat = u := ⟨_, rfl⟩
  have hlt' : u < 2 ^ 62 := by omega
  rw [hu]
  show (if u < 1 <<< 6 then _ else _) = _
  have hshift : ∀ k, u >>> k = u / 2 ^ k := fun k => Nat.shiftRight_eq_div_pow u k
  by_cases h6 : u < 1 <<< 6
  · have hlow : u < 64 := h6
    have hwrite : varintWrite u = [.ofNat u] := if_pos hlow
    rw [if_pos h6, hwrite]
    exact eq_pushRaw rfl (by rw [← Nat.or_zero u, ← markedByte hlow]; simp)
  rw [if_neg h6]
  change ¬ u < 64 at h6
  by_cases h14 : u < 1 <<< 14
  · have hlow : u < 16384 := h14
    have hwrite : varintWrite u = [.ofNat (u >>> 8 ||| 0x40), .ofNat (u &&& 0xff)] := by
      rw [varintWrite, if_neg h6, if_pos hlow]
    rw [if_pos h14, hwrite]
    exact eq_pushRaw rfl (by rw [← markedByte (by rw [hshift]; omega)]; rfl)
  rw [if_neg h14]
  change ¬ u < 16384 at h14
  by_cases h30 : u < 1 <<< 30
  · have hlow : u < 1073741824 := h30
    have hwrite : varintWrite u = .ofNat (u >>> 24 ||| 0x80) :: beBytes 3 u :=
      (if_neg h6).trans ((if_neg h14).trans (if_pos hlow))
    rw [if_pos h30, hwrite]
    exact eq_pushRaw rfl (by rw [← markedByte (by rw [hshift]; omega)]; rfl)
  · have hhigh : ¬ u < 1073741824 := h30
    have hwrite : varintWrite u = .ofNat (u >>> 56 ||| 0xc0) :: beBytes 7 u :=
      (if_neg h6).trans ((if_neg h14).trans (if_neg hhigh))
    rw [if_neg h30, if_pos (show u < 1 <<< 62 from hlt'), hwrite]
    exact eq_pushRaw rfl (by rw [← markedByte (by rw [hshift]; omega)]; rfl)

theorem pushUintVi64_eq {v : ℤ} (hv : 0 ≤ v) (hlt : v < 2 ^ 64) :
    pushUintVi64 heap v = pushRaw heap (vi64Write v.toNat) := by
  have huint : toUint64 v = pure v.toNat := by rw [toUint64, if_pos (by omega)]
  have hsize := VintCodec.vi64_decodes.size_eq v.toNat (by omega)
  rw [pushUintVi64, huint]
  show (checkPush heap (vi64Size v.toNat) >>= fun _ => if vi64Size v.toNat = 9 then _ else _) = _
  change vi64Size v.toNat = (vi64Write v.toNat).length at hsize
  by_cases hnine : vi64Size v.toNat = 9
  · have hwrite : vi64Write v.toNat = 0xFF :: vi64Tail 9 v.toNat := if_pos hnine
    simp only [if_pos hnine]
    exact eq_pushRaw (by rw [hsize]) hwrite.symm
  · have hwrite : vi64Write v.toNat = _ :: vi64Tail (vi64Size v.toNat) v.toNat := if_neg hnine
    simp only [if_neg hnine]
    exact eq_pushRaw (by rw [hsize]) hwrite.symm

theorem toUint64_raises {v : ℤ} (h : ¬ (0 ≤ v ∧ v < 2 ^ 64)) : toUint64 v = raise .intOverflow :=
  if_neg h

/-- Integers that the flavour does not have are refused. -/
theorem pushUintVar_raises {v : ℤ} (h : ¬ (0 ≤ v ∧ v < 2 ^ 62)) :
    ∃ e, pushUintVar heap v = raise e := by
  by_cases hu : 0 ≤ v ∧ v < 2 ^ 64
  · have huint : toUint64 v = pure v.toNat := if_pos hu
    refine ⟨.tooLarge v, ?_⟩
    rw [pushUintVar, huint]
    show (if v.toNat < 1 <<< 6 then _ else _) = _
    rw [if_neg (by simp; omega), if_neg (by simp; omega), if_neg (by simp; omega),
      if_neg (by simp; omega)]
  · exact ⟨.intOverflow, by rw [pushUintVar, toUint64_raises hu]; rfl⟩

theorem pushUintVi64_raises {v : ℤ} (h : ¬ (0 ≤ v ∧ v < 2 ^ 64)) :
    pushUintVi64 heap v = raise .intOverflow := by
  rw [pushUintVi64, toUint64_raises h]
  rfl

/-! ### Bytes -/

/-- `push_bytes` does not ask if the buffer is there to be written. -/
theorem pushBytes_of_le (hne : raw ≠ []) (h : b.pos + raw.length ≤ b.capacity) :
    ∃ b', pushBytes heap raw b = (.ok (), b') ∧ Pushed b b' raw := by
  obtain ⟨hstore, hpushed⟩ := store_of_le h
  refine ⟨_, ?_, hpushed⟩
  rw [pushBytes, Fallible.get_bind, if_neg hne, if_neg (by omega), hstore]

theorem pushBytes_of_room (hg : b.growable = true) (h : HasRoom heap b raw.length) :
    ∃ b', pushBytes heap raw b = (.ok (), b') ∧ Pushed b b' raw := by
  by_cases hne : raw = []
  · subst hne
    refine ⟨b, ?_, rfl, rfl, fun _ _ => rfl, le_rfl, rfl, rfl⟩
    rw [pushBytes, Fallible.get_bind, if_pos rfl]
    rfl
  · rcases le_or_gt (b.pos + raw.length) b.capacity with hle | hlt
    · exact pushBytes_of_le hne hle
    · obtain ⟨c, hgrow, hkept, hle⟩ := grow_of_has hg (h.resolve_left (by omega))
      obtain ⟨hstore, hpushed⟩ :=
        store_of_le (show c.pos + raw.length ≤ c.capacity by rw [hkept.pos]; exact hle)
      refine ⟨_, ?_, hpushed.of_kept hkept⟩
      rw [pushBytes, Fallible.get_bind, if_neg hne, if_pos hlt, Fallible.bind_ok hgrow, hstore]

theorem pushBytes_of_full (hg : b.growable = true) (h : ¬ HasRoom heap b raw.length) :
    pushBytes heap raw b = (.error .memory, b) := by
  obtain ⟨hfull, hhas⟩ := not_or.1 h
  have hne : raw ≠ [] := by
    rintro rfl
    exact hfull b.pos_le
  rw [pushBytes, Fallible.get_bind, if_neg hne, if_pos (by omega)]
  exact Fallible.bind_error (grow_of_not_has hg (by simpa using hhas))

theorem pushBytes_fixed (hg : b.growable = false) (h : b.capacity < b.pos + raw.length) :
    pushBytes heap raw b = (.error .writePastFixed, b) := by
  have hne : raw ≠ [] := by
    rintro rfl
    exact absurd b.pos_le (not_le.2 h)
  rw [pushBytes, Fallible.get_bind, if_neg hne, if_pos h]
  exact Fallible.bind_error (grow_fixed hg _)

theorem pushRaw_outcome (heap : Heap) (b : Buffer) (raw : List UInt8) :
    (∃ b', pushRaw heap raw b = (.ok (), b') ∧ Pushed b b' raw ∧ b.growable = true) ∨
      ∃ e, pushRaw heap raw b = (.error e, b) := by
  by_cases hg : b.growable = true
  · by_cases hroom : HasRoom heap b raw.length
    · obtain ⟨b', hrun, hpushed⟩ := checked_of_room hg hroom
      exact .inl ⟨b', hrun, hpushed, hg⟩
    · exact .inr ⟨_, checked_of_full hg hroom⟩
  · exact .inr ⟨_, checked_fixed (by simpa using hg)⟩

theorem pushBytes_outcome (heap : Heap) (b : Buffer) (raw : List UInt8) :
    (∃ b', pushBytes heap raw b = (.ok (), b') ∧ Pushed b b' raw ∧
      (b.growable = true ∨ b.pos + raw.length ≤ b.capacity)) ∨ ∃ e, pushBytes heap raw b =
      (.error e, b) := by
  by_cases hg : b.growable = true
  · by_cases hroom : HasRoom heap b raw.length
    · obtain ⟨b', hrun, hpushed⟩ := pushBytes_of_room hg hroom
      exact .inl ⟨b', hrun, hpushed, .inl hg⟩
    · exact .inr ⟨_, pushBytes_of_full hg hroom⟩
  · rcases le_or_gt (b.pos + raw.length) b.capacity with hle | hlt
    · by_cases hne : raw = []
      · subst hne
        refine .inl ⟨b, ?_, ⟨rfl, rfl, fun _ _ => rfl, le_rfl, rfl, rfl⟩, .inr hle⟩
        rw [pushBytes, Fallible.get_bind, if_pos rfl]
        rfl
      · obtain ⟨b', hrun, hpushed⟩ := pushBytes_of_le hne hle
        exact .inl ⟨b', hrun, hpushed, .inr hle⟩
    · exact .inr ⟨_, pushBytes_fixed (by simpa using hg) hlt⟩

end Buffer

/-! ## Calls -/

/-- A call of a push. -/
inductive PushCall
  | uint8 (v : ℤ)
  | uint16 (v : ℤ)
  | uint32 (v : ℤ)
  | uint64 (v : ℤ)
  | uint (n : Int32) (v : ℤ)
  | uintVar (v : ℤ)
  | uintVi64 (v : ℤ)
  | vint (v : ℤ)
  | bytes (data : List UInt8)
  deriving DecidableEq

namespace PushCall

open Buffer

def run (heap : Heap) : PushCall → Op Unit
  | uint8 v => pushUint8 heap v
  | uint16 v => pushUint16 heap v
  | uint32 v => pushUint32 heap v
  | uint64 v => pushUint64 heap v
  | uint n v => pushUint heap n v
  | uintVar v => pushUintVar heap v
  | uintVi64 v => pushUintVi64 heap v
  | vint v => pushVint heap v
  | bytes data => pushBytes heap data

/-- The bytes of an unsigned number of any length, if it has no more. -/
def bigBytes (n v : ℤ) : Option (List UInt8) :=
  if 0 ≤ n ∧ 0 ≤ v ∧ v < 256 ^ n.toNat then some (beBytes n.toNat v.toNat) else none

/-- The bytes of a signed number of `bits` bits, cut to `n`. -/
def cutBytes (bits n : ℕ) (v : ℤ) : Option (List UInt8) :=
  if -2 ^ (bits - 1) ≤ v ∧ v < 2 ^ (bits - 1) then some (signedBytes n v) else none

def vintBytes (vi64 : Bool) (v : ℤ) : Option (List UInt8) :=
  if 0 ≤ v ∧ v < vintBound vi64 then some (vintWrite vi64 v.toNat) else none

/-- The bytes that a call is to push on a buffer of a flavour, if its arguments stand for some. -/
def pushed (vi64 : Bool) : PushCall → Option (List UInt8)
  | uint8 v => cutBytes 32 1 v
  | uint16 v => cutBytes 32 2 v
  | uint32 v => cutBytes 64 4 v
  | uint64 v => bigBytes 8 v
  | uint n v =>
    if n = 1 then cutBytes 32 1 v
    else if n = 2 then cutBytes 32 2 v
    else if n = 4 then cutBytes 64 4 v
    else bigBytes n.toInt v
  | uintVar v => vintBytes false v
  | uintVi64 v => vintBytes true v
  | vint v => vintBytes vi64 v
  | bytes data => some data

/-- What a push of `raw` does, if there are such bytes: they are pushed, or it raises. -/
def Outcome (x : Op Unit) (b : Buffer) (raw : Option (List UInt8)) (may : Prop) : Prop :=
  (∃ b' r, raw = some r ∧ x b = (.ok (), b') ∧ Pushed b b' r ∧ may) ∨ ∃ e b', x b = (.error e, b') ∧
    Kept b b'

variable {heap : Heap} {b : Buffer} {x : Op Unit} {raw : Option (List UInt8)}

theorem outcome_pushRaw (raw : List UInt8) :
    Outcome (pushRaw heap raw) b (some raw) (b.growable = true) := by
  rcases pushRaw_outcome heap b raw with ⟨b', hrun, hpushed, hg⟩ | ⟨e, hrun⟩
  · exact .inl ⟨b', raw, rfl, hrun, hpushed, hg⟩
  · exact .inr ⟨e, b, hrun, .refl b⟩

theorem outcome_raise (e : BufferRaise) : Outcome (raise e) b raw (b.growable = true) :=
  .inr ⟨e, b, rfl, .refl b⟩

theorem outcome_signed (bits n : ℕ) (v : ℤ)
    (hx : x =
      if -2 ^ (bits - 1) ≤ v ∧ v < 2 ^ (bits - 1) then pushRaw heap (signedBytes n v)
      else raise .intOverflow) :
    Outcome x b (cutBytes bits n v) (b.growable = true) := by
  rw [hx, cutBytes]
  split
  · exact outcome_pushRaw _
  · exact outcome_raise _

theorem outcome_big (n v : ℤ) :
    Outcome (pushBig heap n v) b (bigBytes n v) (b.growable = true) := by
  rw [bigBytes]
  split
  · rename_i h
    rw [pushBig_eq h.1 h.2.1 h.2.2]
    exact outcome_pushRaw _
  · exact .inr (pushBig_raises (by omega))

theorem outcome_var (v : ℤ) :
    Outcome (pushUintVar heap v) b (vintBytes false v) (b.growable = true) := by
  rw [vintBytes]
  split
  · rename_i h
    rw [pushUintVar_eq h.1 h.2]
    exact outcome_pushRaw _
  · rename_i h
    obtain ⟨e, he⟩ : ∃ e, pushUintVar heap v = raise e := pushUintVar_raises h
    rw [he]
    exact outcome_raise e

theorem outcome_vi64 (v : ℤ) :
    Outcome (pushUintVi64 heap v) b (vintBytes true v) (b.growable = true) := by
  rw [vintBytes]
  split
  · rename_i h
    rw [pushUintVi64_eq h.1 h.2]
    exact outcome_pushRaw _
  · rename_i h
    rw [pushUintVi64_raises h]
    exact outcome_raise _

/-- The pushes of integers raise for a buffer that does not grow. -/
theorem run_outcome (heap : Heap) (b : Buffer) (call : PushCall) :
    Outcome (call.run heap) b (call.pushed b.vi64)
      (b.growable = true ∨ ∃ data, call = bytes data ∧ b.pos + data.length ≤ b.capacity) := by
  have hnum : ∀ {x raw} {may : Prop}, Outcome x b raw (b.growable = true) →
      Outcome x b raw (b.growable = true ∨ may) := by
    rintro x raw may (⟨b', r, hraw, hrun, hpushed, hg⟩ | h)
    · exact .inl ⟨b', r, hraw, hrun, hpushed, .inl hg⟩
    · exact .inr h
  cases call with
  | uint8 v => exact hnum (outcome_signed 32 1 v (pushUint8_eq v))
  | uint16 v => exact hnum (outcome_signed 32 2 v (pushUint16_eq v))
  | uint32 v => exact hnum (outcome_signed 64 4 v (pushUint32_eq v))
  | uint64 v => exact hnum (outcome_big 8 v)
  | uint n v =>
    refine hnum ?_
    show Outcome (pushUint heap n v) b (ite ..) _
    rw [pushUint]
    by_cases h1 : n = 1
    · rw [if_pos h1, if_pos h1]
      exact outcome_signed 32 1 v (pushUint8_eq v)
    rw [if_neg h1, if_neg h1]
    by_cases h2 : n = 2
    · rw [if_pos h2, if_pos h2]
      exact outcome_signed 32 2 v (pushUint16_eq v)
    rw [if_neg h2, if_neg h2]
    by_cases h4 : n = 4
    · rw [if_pos h4, if_pos h4]
      exact outcome_signed 64 4 v (pushUint32_eq v)
    rw [if_neg h4, if_neg h4]
    by_cases h8 : n = 8
    · subst h8
      rw [if_pos rfl]
      exact outcome_big 8 v
    · rw [if_neg h8]
      exact outcome_big n.toInt v
  | uintVar v => exact hnum (outcome_var v)
  | uintVi64 v => exact hnum (outcome_vi64 v)
  | vint v =>
    refine hnum ?_
    show Outcome (pushVint heap v) b (vintBytes b.vi64 v) _
    cases hvi : b.vi64 with
    | true =>
      have heq : pushVint heap v b = pushUintVi64 heap v b := by
        rw [pushVint, Fallible.get_bind, if_pos hvi]
      unfold Outcome
      rw [heq]
      exact outcome_vi64 v
    | false =>
      have heq : pushVint heap v b = pushUintVar heap v b := by
        rw [pushVint, Fallible.get_bind, if_neg (by simp [hvi])]
      unfold Outcome
      rw [heq]
      exact outcome_var v
  | bytes data =>
    rcases pushBytes_outcome heap b data with ⟨b', hrun, hpushed, hmay⟩ | ⟨e, hrun⟩
    · exact .inl ⟨b', data, rfl, hrun, hpushed, hmay.imp_right fun hle => ⟨data, rfl, hle⟩⟩
    · exact .inr ⟨e, b, hrun, .refl b⟩

end PushCall

end Aiopquic
