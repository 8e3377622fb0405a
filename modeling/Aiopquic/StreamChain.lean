import Aiopquic.Lib.Fallible
import Mathlib.Data.List.TakeWhile
import Mathlib.Tactic.Ring

/-!
# `StreamChain` (`_streamchain.pyx`)

A chain of byte chunks with a cursor, one anchor for `save` and `rollback`, and a `commit` that
drops what is behind the cursor. A pull reads within one chunk or walks over several, and each moves
the cursor itself. Bounds are not checked: a read behind a chunk is undefined, and raises `overread`
here.
-/

namespace Aiopquic

open Fallible (raise get modify)

/-- What the functions raise, with the numbers that are in the message. -/
inductive Raise
  | streamUnderflow (pos needed : ℤ)
  | negativePull
  | dataSliceRange (start stop total : ℤ)
  | seekRange (pos total : ℤ)
  | framerDesync (extsLen limit : ℤ)
  | deltaOverflow (extId : ℕ)
  | valueOverflow (valueLen : ℤ) (extId : ℕ)
  | extsOverrun (pos extsEnd : ℤ) (extId : ℕ)
  /-- A Python integer that does not fit the C type. -/
  | intOverflow
  /-- A Python object that is not of the type it is converted from. -/
  | typeError
  /-- `IndexError` of the deque. -/
  | chunkIndex
  | overread
  /-- A loop that does not end. -/
  | stuck
  deriving DecidableEq, Repr

/-- A sum of type `Py_ssize_t`. -/
def ssize (n : ℤ) : ℤ := Int.bmod n (2 ^ 64)

structure StreamChain where
  chunks : List (List UInt8) := []
  chunkIdx : ℕ := 0
  chunkOff : ℕ := 0
  pos : ℤ := 0
  total : ℤ := 0
  saveChunkIdx : ℕ := 0
  saveChunkOff : ℕ := 0
  savePos : ℤ := 0
  deriving DecidableEq, Repr

/-! ## Numbers from bytes -/

/-- Most significant byte first, behind what is in `acc`. -/
def beFrom (acc : ℕ) (bytes : List UInt8) : ℕ := bytes.foldl (fun acc b => acc <<< 8 ||| b.toNat)
    acc

/-- `int.from_bytes(raw, "big")`. -/
def fromBytes (raw : List UInt8) : ℕ := beFrom 0 raw

/-- The number of leading ones of a byte, `k` of `pull_uint_vi64`. -/
def leadingOnes (first : UInt8) : ℕ :=
  ((List.range 8).takeWhile fun k => first.toNat &&& 0x80 >>> k ≠ 0).length

namespace StreamChain

abbrev Op (α : Type) := Fallible StreamChain Raise α

/-! ## Ingest and queries -/

/-- `extend`. -/
def extend (data : List UInt8) : Op Unit :=
  if data = [] then pure ()
  else modify fun c => { c with chunks := c.chunks ++ [data], total := c.total + data.length }

/-- `capacity`. -/
def capacity : Op ℤ := do
  let c ← get
  pure c.total

/-- `__len__`. -/
def len : Op ℤ := do
  let c ← get
  pure (c.total - c.pos)

/-- `tell`. -/
def tell : Op ℤ := do
  let c ← get
  pure c.pos

/-! ## Pulls -/

/-- `_chunk_at` of the cursor. -/
def chunkAt : Op (List UInt8) := do
  let c ← get
  match c.chunks[c.chunkIdx]? with
  | none => raise .chunkIndex
  | some chunk => pure chunk

/-- The end of every pull: `n` bytes of a chunk of `len` bytes are taken. -/
def advance (len n : ℕ) (c : StreamChain) : StreamChain :=
  let c := { c with chunkOff := c.chunkOff + n, pos := c.pos + n }
  if len ≤ c.chunkOff then { c with chunkIdx := c.chunkIdx + 1, chunkOff := 0 } else c

/-- The loop of `pull_bytes`, for the `left` bytes that are not written yet. -/
def pullLoop : ℕ → ℕ → Op (List UInt8)
  | 0, _ => raise .stuck
  | fuel + 1, left =>
    if left = 0 then pure []
    else do
      let chunk ← chunkAt
      let c ← get
      let take := min left (chunk.length - c.chunkOff)
      modify (advance chunk.length take)
      let rest ← pullLoop fuel (left - take)
      pure ((chunk.drop c.chunkOff).take take ++ rest)

/-- `pull_bytes`. -/
def pullBytes (n : ℤ) : Op (List UInt8) := do
  let c ← get
  if n < 0 then raise .negativePull
  else if c.total - c.pos < n then raise (.streamUnderflow c.pos (ssize (c.pos + n)))
  else if n = 0 then pure []
  else do
    let chunk ← chunkAt
    if n.toNat ≤ chunk.length - c.chunkOff then do
      modify (advance chunk.length n.toNat)
      pure ((chunk.drop c.chunkOff).take n.toNat)
    else pullLoop (c.chunks.length + 1) n.toNat

/-- `p[i]` for the bytes from the cursor on. -/
def byteAt (chunk : List UInt8) (off i : ℕ) : Op ℕ :=
  match chunk[off + i]? with
  | none => raise .overread
  | some b => pure b.toNat

/-- `pull_uint8`. -/
def pullUint8 : Op ℕ := do
  let c ← get
  if c.total - c.pos < 1 then raise (.streamUnderflow c.pos (ssize (c.pos + 1)))
  else do
    let chunk ← chunkAt
    let b ← byteAt chunk c.chunkOff 0
    modify (advance chunk.length 1)
    pure b

/-- `_pull_uint_n`. -/
def pullUintN (n : ℕ) : Op ℕ := do
  let c ← get
  if c.total - c.pos < n then raise (.streamUnderflow c.pos (ssize (c.pos + n)))
  else do
    let chunk ← chunkAt
    if n ≤ chunk.length - c.chunkOff then do
      modify (advance chunk.length n)
      pure (beFrom 0 ((chunk.drop c.chunkOff).take n))
    else do
      let raw ← pullBytes n
      pure (beFrom 0 raw)

/-- `pull_uint16`. -/
def pullUint16 : Op ℕ := pullUintN 2

/-- `pull_uint32`. -/
def pullUint32 : Op ℕ := pullUintN 4

/-- `pull_uint64`. -/
def pullUint64 : Op ℕ := do
  let raw ← pullBytes 8
  pure (fromBytes raw)

/-- `pull_uint`. -/
def pullUint (n : Int32) : Op ℕ :=
  if n = 1 then pullUint8
  else if n = 2 then pullUint16
  else if n = 4 then pullUint32
  else if n = 8 then pullUint64
  else do
    let raw ← pullBytes n.toInt
    pure (fromBytes raw)

/-- `pull_uint_var`. -/
def pullUintVar : Op ℕ := do
  let c ← get
  if c.total - c.pos < 1 then raise (.streamUnderflow c.pos (ssize (c.pos + 1)))
  else do
    let chunk ← chunkAt
    let first ← byteAt chunk c.chunkOff 0
    let nbytes := 1 <<< (first >>> 6)
    if c.total - c.pos < nbytes then raise (.streamUnderflow c.pos (ssize (c.pos + nbytes)))
    else if nbytes = 1 then do
      modify (advance chunk.length 1)
      pure (first &&& 0x3F)
    else if nbytes ≤ chunk.length - c.chunkOff then do
      let p1 ← byteAt chunk c.chunkOff 1
      if nbytes = 2 then do
        modify (advance chunk.length 2)
        pure ((first &&& 0x3F) <<< 8 ||| p1)
      else do
        let p2 ← byteAt chunk c.chunkOff 2
        let p3 ← byteAt chunk c.chunkOff 3
        if nbytes = 4 then do
          modify (advance chunk.length 4)
          pure ((first &&& 0x3F) <<< 24 ||| p1 <<< 16 ||| p2 <<< 8 ||| p3)
        else do
          let p4 ← byteAt chunk c.chunkOff 4
          let p5 ← byteAt chunk c.chunkOff 5
          let p6 ← byteAt chunk c.chunkOff 6
          let p7 ← byteAt chunk c.chunkOff 7
          modify (advance chunk.length 8)
          pure ((first &&& 0x3F) <<< 56 ||| p1 <<< 48 ||| p2 <<< 40 ||| p3 <<< 32 ||| p4 <<< 24 |||
            p5 <<< 16 |||
            p6 <<< 8 ||| p7)
    else do
      let raw ← pullBytes nbytes
      pure (beFrom ((raw.headD 0).toNat &&& 0x3F) raw.tail)

/-- `pull_uint_vi64`. -/
def pullUintVi64 : Op ℕ := do
  let c ← get
  if c.total - c.pos < 1 then raise (.streamUnderflow c.pos (ssize (c.pos + 1)))
  else do
    let chunk ← chunkAt
    let first ← byteAt chunk c.chunkOff 0
    let k := leadingOnes (UInt8.ofNat first)
    if c.total - c.pos < k + 1 then raise (.streamUnderflow c.pos (ssize (c.pos + (k + 1))))
    else do
      let raw ← pullBytes (k + 1)
      pure (beFrom ((raw.headD 0).toNat &&& 0xFF >>> (k + 1)) raw.tail)

/-! ## The anchor -/

/-- `save`. -/
def save : Op Unit :=
  modify fun c => { c with saveChunkIdx := c.chunkIdx, saveChunkOff := c.chunkOff, savePos := c.pos }

/-- `rollback`. -/
def rollback : Op Unit :=
  modify fun c => { c with chunkIdx := c.saveChunkIdx, chunkOff := c.saveChunkOff, pos := c.savePos }

/-- The loop of `commit`: `left` chunks are behind the cursor. -/
def dropChunks : ℕ → Op Unit
  | 0 => pure ()
  | left + 1 => do
    let c ← get
    match c.chunks with
    | [] => raise .chunkIndex
    | old :: chunks => do
      modify fun c => { c with chunks, total := c.total - old.length, pos := c.pos - old.length, chunkIdx := left }
      dropChunks left

/-- `commit` behind its loop: the rest of the first chunk becomes a chunk. -/
def trim (c : StreamChain) : StreamChain :=
  match c.chunks with
  | [] => c
  | first :: rest =>
    if 0 < c.chunkOff then
      { c with
        chunks := first.drop c.chunkOff :: rest
        total := c.total - c.chunkOff
        pos := c.pos - c.chunkOff
        chunkOff := 0 }
    else c

/-- `commit`. -/
def commit : Op Unit := do
  let c ← get
  dropChunks c.chunkIdx
  modify trim
  modify fun c => { c with saveChunkIdx := 0, saveChunkOff := 0, savePos := 0 }

/-! ## Slices and seeks -/

/-- The walk of `data_slice` and `seek`: the chunk that holds byte `left`, counted from the first
chunk on, and the offset in it. -/
def locate : List (List UInt8) → ℕ → Option (ℕ × ℕ)
  | [], _ => none
  | chunk :: rest, left =>
    if left < chunk.length then some (0, left)
    else (locate rest (left - chunk.length)).map fun found => (found.1 + 1, found.2)

/-- The loop of `data_slice`: `left` bytes from `off` on in the first of the chunks. -/
def slice : List (List UInt8) → ℕ → ℕ → Op (List UInt8)
  | _, _, 0 => pure []
  | [], _, _ + 1 => raise .chunkIndex
  | chunk :: rest, off, left + 1 => do
    let take := min (left + 1) (chunk.length - off)
    let out ← slice rest 0 (left + 1 - take)
    pure ((chunk.drop off).take take ++ out)

/-- `data_slice`. -/
def dataSlice (start stop : ℤ) : Op (List UInt8) := do
  let c ← get
  if start < 0 ∨ c.total < stop ∨ stop < start then raise (.dataSliceRange start stop c.total)
  else if start = stop then pure []
  else
    let (idx, off) := (locate c.chunks start.toNat).getD (0, 0)
    slice (c.chunks.drop idx) off (stop - start).toNat

/-- `seek`. -/
def seek (pos : ℤ) : Op Unit := do
  let c ← get
  if pos < 0 ∨ c.total < pos then raise (.seekRange pos c.total)
  else
    let (idx, off) := (locate c.chunks pos.toNat).getD (c.chunks.length, 0)
    modify fun c => { c with chunkIdx := idx, chunkOff := off, pos }

end StreamChain

end Aiopquic
