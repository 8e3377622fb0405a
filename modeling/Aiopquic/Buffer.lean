import Aiopquic.Lib.Circular
import Aiopquic.ObjectCodec

/-!
# `Buffer` (`_buffer.pyx`)

One piece of memory with one cursor, for reading and for writing. A buffer that is made from data
has that data for its memory. One that is made from a capacity is there to be written, and a push
that does not fit makes its memory larger. Reads are bounded by the memory, not by what was written
into it.
-/

namespace Aiopquic

open Circular (copyIn copyOut)
open Fallible (raise get modify)

/-- What the functions raise. -/
inductive BufferRaise
  | readOutOfBounds
  | seekOutOfBounds (pos : ℤ)
  | sliceOutOfBounds (start stop : ℤ)
  | negativeRead
  | writePastFixed
  | writeToFixed
  | tooLarge (v : ℤ)
  /-- A Python integer that does not fit the type it is converted to. -/
  | intOverflow
  /-- The `ValueError` of `int.to_bytes`. -/
  | negativeLength
  /-- The `SystemError` of `PyBytes_FromStringAndSize`. -/
  | negativeSize
  | memory
  /-- A write behind the memory, which is undefined. -/
  | overrun
  deriving DecidableEq, Repr

/-- The sizes that an allocator has memory for when it is asked. It never has a quarter of the
address space. -/
structure Heap where
  has : ℕ → Bool
  has_lt : ∀ n, has n = true → n < 2 ^ 62

/-- `buf` is what each position holds. Behind the capacity that is what `realloc` will find
there. -/
@[ext] structure Buffer where
  buf : ℕ → UInt8
  capacity : ℕ
  pos : ℕ
  growable : Bool
  vi64 : Bool
  pos_le : pos ≤ capacity
  capacity_lt : capacity < 2 ^ 62

namespace Buffer

abbrev Op (α : Type) := Fallible Buffer BufferRaise α

/-! ## New buffers -/

theorem zero_le_length (data : List UInt8) : 0 ≤ data.length := Nat.zero_le _

theorem length_lt_of_has (heap : Heap) (data : List UInt8)
    (h : heap.has (if 0 < data.length then data.length else 1) = true) : data.length < 2 ^ 62 := by
  have hlt := heap.has_lt _ h
  split at hlt
  · exact hlt
  · omega

/-- `__cinit__`. The memory that `malloc` gives out holds `found`. -/
def create (heap : Heap) (found : ℕ → UInt8) (capacity : Option ℤ) (data : Option (List UInt8))
    (vi64 : Bool) :
    Except BufferRaise Buffer :=
  match data with
  | some data =>
    if h : heap.has (if 0 < data.length then data.length else 1) then
      .ok {
        buf := copyIn found 0 data
        capacity := data.length
        pos := 0
        growable := false
        vi64
        pos_le := zero_le_length data
        capacity_lt := length_lt_of_has heap data h }
    else .error .memory
  | none =>
    let n := capacity.getD 1024
    if ¬ (-2 ^ 63 ≤ n ∧ n < 2 ^ 63) then .error .intOverflow
    else
      let n := if n ≤ 0 then 1024 else n.toNat
      if h : heap.has n then
        .ok {
          buf := found
          capacity := n
          pos := 0
          growable := true
          vi64
          pos_le := Nat.zero_le _
          capacity_lt := heap.has_lt _ h }
      else .error .memory

variable (b : Buffer)

/-- The cursor is moved forward. -/
def advance (n : ℕ) (h : b.pos + n ≤ b.capacity) : Buffer :=
  { b with pos := b.pos + n, pos_le := h }

/-- `memcpy` to the cursor, which is moved behind the bytes. -/
def put (raw : List UInt8) (h : b.pos + raw.length ≤ b.capacity) : Buffer :=
  { b.advance raw.length h with buf := copyIn b.buf b.pos raw }

/-- `p[i]` for the bytes from the cursor on. -/
def byteAt (i : ℕ) : ℕ := (b.buf (b.pos + i)).toNat

/-! ## State -/

/-- The `vi64` setter. -/
def setVi64 (value : Bool) : Op Unit := modify fun b => { b with vi64 := value }

/-- `tell`. -/
def tell : Op ℕ := do
  let b ← get
  pure b.pos

/-- `PyBytes_FromStringAndSize` on the memory from `start` on. -/
def pyBytes (start : ℕ) (n : ℤ) : Op (List UInt8) := do
  let b ← get
  if n < 0 then raise .negativeSize
  else if 2 ^ 63 - 34 < n then raise .intOverflow
  else if 2 ^ 62 ≤ n then raise .memory
  else pure (copyOut b.buf start n.toNat)

/-- `data`. -/
def data : Op (List UInt8) := do
  let b ← get
  pyBytes 0 b.pos

/-- `seek`. -/
def seek (pos : Int64) : Op Unit := do
  let b ← get
  if h : 0 ≤ pos.toInt ∧ pos.toInt ≤ b.capacity then
    modify fun _ => { b with pos := pos.toInt.toNat, pos_le := by omega }
  else raise (.seekOutOfBounds pos.toInt)

/-- `data_slice`. -/
def dataSlice (start stop : Int64) : Op (List UInt8) := do
  let b ← get
  if start.toInt < 0 ∨ b.capacity < stop.toInt ∨ stop.toInt < start.toInt then
    raise (.sliceOutOfBounds start.toInt stop.toInt)
  else pyBytes start.toInt.toNat (stop.toInt - start.toInt)

/-! ## Pulls -/

/-- What the pulls have in common: `n` bytes are read if they are there, and the cursor is moved. -/
def pulling {α : Type} (n : ℕ) (value : Buffer → α) : Op α := do
  let b ← get
  if h : b.pos + n ≤ b.capacity then do
    modify fun _ => b.advance n h
    pure (value b)
  else raise .readOutOfBounds

/-- `pull_uint8`. -/
def pullUint8 : Op ℕ := pulling 1 fun b => b.byteAt 0

/-- `pull_uint16`. -/
def pullUint16 : Op ℕ := pulling 2 fun b => b.byteAt 0 <<< 8 ||| b.byteAt 1

/-- `pull_uint32`. -/
def pullUint32 : Op ℕ :=
  pulling 4 fun b => b.byteAt 0 <<< 24 ||| b.byteAt 1 <<< 16 ||| b.byteAt 2 <<< 8 ||| b.byteAt 3

/-- `pull_uint64`. -/
def pullUint64 : Op ℕ := pulling 8 fun b => fromBytes (copyOut b.buf b.pos 8)

/-- `pull_uint`. -/
def pullUint (n : Int32) : Op ℕ :=
  if n = 1 then pullUint8
  else if n = 2 then pullUint16
  else if n = 4 then pullUint32
  else if n = 8 then pullUint64
  else if n.toInt < 0 then raise .negativeSize
  else pulling n.toInt.toNat fun b => fromBytes (copyOut b.buf b.pos n.toInt.toNat)

/-- `pull_uint_var`. -/
def pullUintVar : Op ℕ := do
  let b ← get
  if b.capacity < b.pos + 1 then raise .readOutOfBounds
  else
    let first := b.byteAt 0
    let n := 1 <<< (first >>> 6)
    pulling n fun b =>
      if n = 1 then first &&& 0x3F
      else if n = 2 then (b.byteAt 0 &&& 0x3F) <<< 8 ||| b.byteAt 1
      else if n = 4 then
        (b.byteAt 0 &&& 0x3F) <<< 24 ||| b.byteAt 1 <<< 16 ||| b.byteAt 2 <<< 8 ||| b.byteAt 3
      else fromBytes (copyOut b.buf b.pos 8) &&& (1 <<< 62 - 1)

/-- `pull_uint_vi64`. -/
def pullUintVi64 : Op ℕ := do
  let b ← get
  if b.capacity < b.pos + 1 then raise .readOutOfBounds
  else
    let first := b.byteAt 0
    let k := leadingOnes (UInt8.ofNat first)
    pulling (k + 1) fun b => beFrom (first &&& 0xFF >>> (k + 1)) (copyOut b.buf (b.pos + 1) k)

/-- `pull_vint`. -/
def pullVint : Op ℕ := do
  let b ← get
  if b.vi64 then pullUintVi64 else pullUintVar

/-- `pull_bytes`. The sum with the cursor is of type `Py_ssize_t`. -/
def pullBytes (n : Int64) : Op (List UInt8) := do
  let b ← get
  if n.toInt < 0 then raise .negativeRead
  else if b.capacity < ssize (b.pos + n.toInt) then raise .readOutOfBounds
  else do
    let out ← pyBytes b.pos n.toInt
    if h : b.pos + n.toInt.toNat ≤ b.capacity then do
      modify fun _ => b.advance n.toInt.toNat h
      pure out
    else raise .overrun

/-! ## Pushes -/

/-- `_grow`. -/
def grow (heap : Heap) (need : ℕ) : Op Unit := do
  let b ← get
  if ¬ b.growable then raise .writePastFixed
  else
    let newCap := if b.capacity * 2 < need then need else b.capacity * 2
    if h : heap.has newCap then
      modify fun _ =>
        { b with
          capacity := newCap
          pos_le := by
            have := b.pos_le
            dsimp only [newCap]
            split <;> omega
          capacity_lt := heap.has_lt _ h }
    else raise .memory

/-- `_check_push`. -/
def checkPush (heap : Heap) (need : ℤ) : Op Unit := do
  let b ← get
  if ¬ b.growable then raise .writeToFixed
  else if b.capacity < b.pos + need then grow heap (b.pos + need).toNat
  else pure ()

/-- The bytes are written at the cursor. -/
def store (raw : List UInt8) : Op Unit := do
  let b ← get
  if h : b.pos + raw.length ≤ b.capacity then modify fun _ => b.put raw h else raise .overrun

/-- `<uint8_t>(v & 0xFF)`. -/
def lowByte (v : ℤ) : UInt8 := .ofNat (v % 256).toNat

/-- `int(v).to_bytes(n, "big")`. -/
def toBytes (n v : ℤ) : Op (List UInt8) :=
  if n < 0 then raise .negativeLength
  else if v < 0 ∨ 256 ^ n.toNat ≤ v then raise .intOverflow
  else pure (beBytes n.toNat v.toNat)

/-- A Python integer as a signed type of `bits` bits. -/
def toSigned (bits : ℕ) (v : ℤ) : Op ℤ :=
  if -2 ^ (bits - 1) ≤ v ∧ v < 2 ^ (bits - 1) then pure v else raise .intOverflow

/-- A Python integer as `uint64_t`. -/
def toUint64 (v : ℤ) : Op ℕ := if 0 ≤ v ∧ v < 2 ^ 64 then pure v.toNat else raise .intOverflow

variable (heap : Heap)

/-- `push_uint8`. -/
def pushUint8 (v : ℤ) : Op Unit := do
  let v ← toSigned 32 v
  checkPush heap 1
  store [lowByte v]

/-- `push_uint16`. -/
def pushUint16 (v : ℤ) : Op Unit := do
  let v ← toSigned 32 v
  checkPush heap 2
  store [lowByte (v >>> (8 : ℕ)), lowByte v]

/-- `push_uint32`. -/
def pushUint32 (v : ℤ) : Op Unit := do
  let v ← toSigned 64 v
  checkPush heap 4
  store [lowByte (v >>> (24 : ℕ)), lowByte (v >>> (16 : ℕ)), lowByte (v >>> (8 : ℕ)), lowByte v]

/-- `push_uint64`. -/
def pushUint64 (v : ℤ) : Op Unit := do
  checkPush heap 8
  let raw ← toBytes 8 v
  store raw

/-- `push_uint`. -/
def pushUint (n : Int32) (v : ℤ) : Op Unit :=
  if n = 1 then pushUint8 heap v
  else if n = 2 then pushUint16 heap v
  else if n = 4 then pushUint32 heap v
  else if n = 8 then pushUint64 heap v
  else do
    checkPush heap n.toInt
    let raw ← toBytes n.toInt v
    store raw

/-- `push_uint_var`. -/
def pushUintVar (v : ℤ) : Op Unit := do
  let u ← toUint64 v
  if u < 1 <<< 6 then do
    checkPush heap 1
    store [.ofNat (u &&& 0x3F) ||| 0]
  else if u < 1 <<< 14 then do
    checkPush heap 2
    store [.ofNat (u >>> 8 &&& 0x3F) ||| 0x40, .ofNat (u &&& 0xFF)]
  else if u < 1 <<< 30 then do
    checkPush heap 4
    store [.ofNat (u >>> 24 &&& 0x3F) ||| 0x80, .ofNat (u >>> 16 &&& 0xFF),
      .ofNat (u >>> 8 &&& 0xFF),
      .ofNat (u &&& 0xFF)]
  else if u < 1 <<< 62 then do
    checkPush heap 8
    store [.ofNat (u >>> 56 &&& 0x3F) ||| 0xC0, .ofNat (u >>> 48 &&& 0xFF),
      .ofNat (u >>> 40 &&& 0xFF),
      .ofNat (u >>> 32 &&& 0xFF), .ofNat (u >>> 24 &&& 0xFF), .ofNat (u >>> 16 &&& 0xFF),
      .ofNat (u >>> 8 &&& 0xFF), .ofNat (u &&& 0xFF)]
  else raise (.tooLarge v)

/-- The length that `push_uint_vi64` finds for a number. -/
def vi64Bytes (u : ℕ) : ℕ :=
  if u < 1 <<< 7 then 1
  else if u < 1 <<< 14 then 2
  else if u < 1 <<< 21 then 3
  else if u < 1 <<< 28 then 4
  else if u < 1 <<< 35 then 5
  else if u < 1 <<< 42 then 6
  else if u < 1 <<< 49 then 7
  else if u < 1 <<< 56 then 8
  else 9

/-- `push_uint_vi64`. -/
def pushUintVi64 (v : ℤ) : Op Unit := do
  let u ← toUint64 v
  let n := vi64Bytes u
  checkPush heap n
  if n = 9 then
    store (0xFF :: (List.range' 1 8).map fun i => .ofNat (u >>> (8 * (8 - i)) &&& 0xFF))
  else
    store (.ofNat ((0xFF ^^^ 0xFF >>> (n - 1)) ||| u >>> (8 * (n - 1))) ::
      (List.range' 1 (n - 1)).map fun i => .ofNat (u >>> (8 * (n - 1 - i)) &&& 0xFF))

/-- `push_vint`. -/
def pushVint (v : ℤ) : Op Unit := do
  let b ← get
  if b.vi64 then pushUintVi64 heap v else pushUintVar heap v

/-- `push_bytes`. -/
def pushBytes (data : List UInt8) : Op Unit := do
  let b ← get
  if data = [] then pure ()
  else if b.capacity < b.pos + data.length then do
    grow heap (b.pos + data.length)
    store data
  else store data

end Buffer

end Aiopquic
