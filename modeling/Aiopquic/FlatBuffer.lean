import Aiopquic.StreamChain

/-!
# What a `StreamChain` is for

A flat buffer of bytes with a cursor and one anchor. A chain stands for the buffer of its chunks put
together, and each of its functions does what the buffer's does.
-/

namespace Aiopquic

open Fallible (raise get modify)

/-- Bytes with a cursor and an anchor among them. -/
@[ext] structure FlatBuffer where
  bytes : List UInt8
  pos : ℕ
  anchor : ℕ
  pos_le : pos ≤ bytes.length
  anchor_le : anchor ≤ bytes.length

/-- Most significant byte first. -/
def beValue : List UInt8 → ℕ
  | [] => 0
  | b :: rest => b.toNat * 256 ^ rest.length + beValue rest

namespace FlatBuffer

abbrev Op (α : Type) := Fallible FlatBuffer Raise α

def empty : FlatBuffer := ⟨[], 0, 0, le_rfl, le_rfl⟩

variable (f : FlatBuffer)

/-- The bytes behind the cursor. -/
def rest : List UInt8 := f.bytes.drop f.pos

theorem length_rest : f.rest.length = f.bytes.length - f.pos := List.length_drop

theorem pos_add_length_rest : f.pos + f.rest.length = f.bytes.length := by
  have := f.pos_le
  rw [length_rest]
  omega

def append (data : List UInt8) : FlatBuffer where
  bytes := f.bytes ++ data
  pos := f.pos
  anchor := f.anchor
  pos_le := f.pos_le.trans (by simp)
  anchor_le := f.anchor_le.trans (by simp)

def advance (n : ℕ) (h : n ≤ f.rest.length) : FlatBuffer where
  bytes := f.bytes
  pos := f.pos + n
  anchor := f.anchor
  pos_le := by
    have := f.pos_add_length_rest
    omega
  anchor_le := f.anchor_le

/-! ## The operations -/

def extend (data : List UInt8) : Op Unit := modify (·.append data)

def capacity : Op ℤ := do
  let f ← get
  pure f.bytes.length

def len : Op ℤ := do
  let f ← get
  pure f.rest.length

def tell : Op ℤ := do
  let f ← get
  pure f.pos

/-- The next `n` bytes. -/
def take (n : ℕ) : Op (List UInt8) := do
  let f ← get
  if h : n ≤ f.rest.length then do
    modify fun _ => f.advance n h
    pure (f.rest.take n)
  else raise (.streamUnderflow f.pos (ssize (f.pos + n)))

def pullBytes (n : ℤ) : Op (List UInt8) := if n < 0 then raise .negativePull else take n.toNat

/-- The next `n` bytes as a number. -/
def pullBe (n : ℕ) : Op ℕ := do
  let raw ← take n
  pure (beValue raw)

def pullUint (n : Int32) : Op ℕ := do
  let raw ← pullBytes n.toInt
  pure (beValue raw)

/-- A number whose first byte says how long it is. -/
def pullPrefixed (size : UInt8 → ℕ) (head : UInt8 → ℕ) : Op ℕ := do
  let f ← get
  match f.rest with
  | [] => raise (.streamUnderflow f.pos (ssize (f.pos + 1)))
  | first :: _ => do
    let raw ← take (size first)
    pure (head first * 256 ^ raw.tail.length + beValue raw.tail)

/-- The integer of RFC 9000: two bits of length. -/
def pullUintVar : Op ℕ := pullPrefixed (fun b => 2 ^ (b.toNat / 64)) fun b => b.toNat % 64

/-- The vi64 integer: as many bytes follow as the first has leading ones. -/
def pullUintVi64 : Op ℕ := pullPrefixed (fun b => leadingOnes b + 1) fun b => b.toNat % 2 ^
    (7 - leadingOnes b)

def save : Op Unit := modify fun f => { f with anchor := f.pos, anchor_le := f.pos_le }

def rollback : Op Unit := modify fun f => { f with pos := f.anchor, pos_le := f.anchor_le }

def commit : Op Unit := modify fun f => ⟨f.rest, 0, 0, Nat.zero_le _, Nat.zero_le _⟩

def dataSlice (start stop : ℤ) : Op (List UInt8) := do
  let f ← get
  if start < 0 ∨ f.bytes.length < stop ∨ stop < start
    then raise (.dataSliceRange start stop f.bytes.length)
  else pure ((f.bytes.drop start.toNat).take (stop - start).toNat)

def seek (pos : ℤ) : Op Unit := do
  let f ← get
  if h : 0 ≤ pos ∧ pos ≤ f.bytes.length then
    modify fun _ => { f with pos := pos.toNat, pos_le := by omega }
  else raise (.seekRange pos f.bytes.length)

variable {f} {n : ℕ}

theorem take_of_le (h : n ≤ f.rest.length) : take n f = (.ok (f.rest.take n), f.advance n h) := by
  rw [take, Fallible.get_bind, dif_pos h]
  rfl

theorem take_of_lt (h : f.rest.length < n) :
    take n f = (.error (.streamUnderflow f.pos (ssize (f.pos + n))), f) := by
  rw [take, Fallible.get_bind, dif_neg (not_le.2 h)]
  rfl

theorem rest_advance (h : n ≤ f.rest.length) : (f.advance n h).rest = f.rest.drop n := by
  rw [rest, rest, List.drop_drop]
  rfl

theorem advance_zero : f.advance 0 (Nat.zero_le _) = f := rfl

theorem advance_advance {m k : ℕ} (hm : m ≤ f.rest.length) (h : n ≤ (f.advance m hm).rest.length)
    (hk : k ≤ f.rest.length) (hadd : m + n = k) :
    (f.advance m hm).advance n h = f.advance k hk := by
  subst hadd
  ext1
  · rfl
  · exact Nat.add_assoc ..
  · rfl

theorem pullBe_of_le (h : n ≤ f.rest.length) :
    pullBe n f = (.ok (beValue (f.rest.take n)), f.advance n h) :=
  Fallible.bind_ok (take_of_le h)

theorem pullBe_of_lt (h : f.rest.length < n) :
    pullBe n f = (.error (.streamUnderflow f.pos (ssize (f.pos + n))), f) :=
  Fallible.bind_error (take_of_lt h)

/-- The buffer `n` bytes further on, or at its end. -/
def skip (f : FlatBuffer) (n : ℕ) : FlatBuffer where
  bytes := f.bytes
  pos := min (f.pos + n) f.bytes.length
  anchor := f.anchor
  pos_le := min_le_right ..
  anchor_le := f.anchor_le

theorem advance_eq_skip (h : n ≤ f.rest.length) : f.advance n h = f.skip n := by
  have hlen := f.pos_add_length_rest
  have hle : f.pos + n ≤ f.bytes.length := by omega
  ext1
  · rfl
  · exact (min_eq_left hle).symm
  · rfl

theorem pos_skip (h : n ≤ f.rest.length) : (f.skip n).pos = f.pos + n := by
  rw [← advance_eq_skip h]
  rfl

theorem rest_skip : (f.skip n).rest = f.rest.drop n := by
  rw [rest, rest, List.drop_drop]
  rcases le_total (f.pos + n) f.bytes.length with h | h
  · show f.bytes.drop (min (f.pos + n) f.bytes.length) = _
    rw [min_eq_left h]
  · show f.bytes.drop (min (f.pos + n) f.bytes.length) = _
    rw [min_eq_right h, List.drop_length, List.drop_eq_nil_of_le h]

theorem skip_zero : f.skip 0 = f := by
  rw [← advance_eq_skip (Nat.zero_le _)]
  rfl

theorem skip_skip (m : ℕ) : (f.skip m).skip n = f.skip (m + n) := by
  ext1
  · rfl
  · show min (min (f.pos + m) f.bytes.length + n) f.bytes.length = min (f.pos + (m + n))
      f.bytes.length
    omega
  · rfl

section Prefixed

variable {size head : UInt8 → ℕ} {first : UInt8} {later : List UInt8}

theorem pullPrefixed_nil (h : f.rest = []) :
    pullPrefixed size head f = (.error (.streamUnderflow f.pos (ssize (f.pos + 1))), f) := by
  rw [pullPrefixed, Fallible.get_bind, h]
  rfl

theorem pullPrefixed_of_lt (h : f.rest = first :: later) (hlt : f.rest.length < size first) :
    pullPrefixed size head f =
    (.error (.streamUnderflow f.pos (ssize (f.pos + size first))), f) := by
  rw [pullPrefixed, Fallible.get_bind, h]
  exact Fallible.bind_error (take_of_lt hlt)

theorem pullPrefixed_of_le (h : f.rest = first :: later) (hle : size first ≤ f.rest.length)
    {raw : List UInt8}
    (hraw : f.rest.take (size first) = raw) :
    pullPrefixed size head f =
      (.ok (head first * 256 ^ raw.tail.length + beValue raw.tail),
      f.advance (size first) hle) := by
  subst hraw
  conv_lhs => rw [pullPrefixed, Fallible.get_bind, h]
  exact Fallible.bind_ok (take_of_le hle)

end Prefixed

end FlatBuffer

/-! ## Numbers from bytes -/

theorem beFrom_nil (acc : ℕ) : beFrom acc [] = acc := rfl

theorem beFrom_cons (acc : ℕ) (b : UInt8) (bytes : List UInt8) :
    beFrom acc (b :: bytes) = beFrom (acc <<< 8 ||| b.toNat) bytes := rfl

/-- The shifts of the source put the bytes behind one another. -/
theorem beFrom_eq (acc : ℕ) (bytes : List UInt8) :
    beFrom acc bytes = acc * 256 ^ bytes.length + beValue bytes := by
  induction bytes generalizing acc with
  | nil => simp [beFrom_nil, beValue]
  | cons b bytes ih =>
    have hb : b.toNat < 2 ^ 8 := b.toNat_lt
    rw [beFrom_cons, ih, ← Nat.shiftLeft_add_eq_or_of_lt hb, Nat.shiftLeft_eq, beValue,
      List.length_cons, pow_succ]
    ring

theorem beFrom_zero (bytes : List UInt8) : beFrom 0 bytes = beValue bytes := by
  rw [beFrom_eq, Nat.zero_mul, Nat.zero_add]

theorem leadingOnes_le (first : UInt8) : leadingOnes first ≤ 8 := by
  have := List.Sublist.length_le
    (List.takeWhile_sublist (fun k => first.toNat &&& 0x80 >>> k ≠ 0) (l := List.range 8))
  simpa [leadingOnes] using this

/-- What `pull_uint_vi64` leaves of the first byte. -/
theorem and_mask_eq {k : ℕ} (hk : k ≤ 8) (first : ℕ) :
    first &&& 0xFF >>> (k + 1) = first % 2 ^ (7 - k) := by
  have hmask : ∀ k ≤ 8, 0xFF >>> (k + 1) = 2 ^ (7 - k) - 1 := by decide
  rw [hmask k hk, Nat.and_two_pow_sub_one_eq_mod]

end Aiopquic
