import Aiopquic.StreamChain
import Mathlib.Data.List.Nodup
import Mathlib.Data.List.Sort

/-!
# Object bodies (`_streamchain.pyx`)

The parser and the encoder of the body of an object on a subgroup stream. Each is there twice in the
source, once for each integer format, and is one definition here with the format as a parameter. The
encoder goes over the extensions twice: first for the size of the bytes object it makes, and then to
write into it.
-/

namespace Aiopquic

open Fallible (raise get)

/-! ## Extensions -/

inductive ExtValue
  | int (n : ℤ)
  | bytes (data : List UInt8)
  deriving DecidableEq, Repr

/-- A dict of extensions, in the order of insertion. -/
structure ExtDict where
  items : List (ℤ × ExtValue) := []
  nodup : (items.map Prod.fst).Nodup := by simp
  deriving DecidableEq

namespace ExtDict

theorem nodup_nil : (([] : List (ℤ × ExtValue)).map Prod.fst).Nodup := List.nodup_nil

theorem map_set_fst (items : List (ℤ × ExtValue)) (id : ℤ) (value : ExtValue) :
    (items.map fun item => if item.1 = id then (id, value) else item).map Prod.fst =
    items.map Prod.fst := by
  rw [List.map_map]
  refine List.map_congr_left fun item _ => ?_
  by_cases h : item.1 = id
  · simp [h]
  · simp [h]

/-- `exts[id] = value`. -/
def set (exts : ExtDict) (id : ℤ) (value : ExtValue) : ExtDict :=
  if h : id ∈ exts.items.map Prod.fst then
    ⟨exts.items.map fun item => if item.1 = id then (id, value) else item, by
      rw [map_set_fst]
      exact exts.nodup⟩
  else
    ⟨exts.items ++ [(id, value)], by
      rw [List.map_append]
      exact exts.nodup.append (List.nodup_singleton _) (List.disjoint_singleton.2 h)⟩

/-- `sorted(exts.items()) if kvp_delta else exts.items()`. -/
def ordered (exts : ExtDict) (kvpDelta : Bool) : List (ℤ × ExtValue) :=
  if kvpDelta then exts.items.insertionSort fun a b => a.1 ≤ b.1 else exts.items

end ExtDict

/-! ## The parser -/

/-- What the parser returns. -/
structure ObjectBody where
  delta : ℕ
  exts : Option ExtDict
  status : ℕ
  payload : List UInt8
  deriving DecidableEq

/-- The functions of the chain the parser calls: `pullVint` is `pull_uint_var` or
`pull_uint_vi64`. -/
structure BodySource (σ : Type) where
  pullVint : Fallible σ Raise ℕ
  pullBytes : ℤ → Fallible σ Raise (List UInt8)
  tell : Fallible σ Raise ℤ

namespace BodySource

variable {σ : Type} (src : BodySource σ)

/-- An integer that is converted to `Py_ssize_t`. -/
def pullSsize : Fallible σ Raise ℤ := do
  let n ← src.pullVint
  if n < 2 ^ 63 then pure n else raise .intOverflow

/-- The value of an extension. -/
def extValue (extsEnd : ℤ) (extId : ℕ) : Fallible σ Raise ExtValue :=
  if extId % 2 = 0 then do
    let n ← src.pullVint
    pure (.int n)
  else do
    let valueLen ← src.pullSsize
    let pos ← src.tell
    if extsEnd - pos < valueLen ∨ 0xFFFF < valueLen then raise (.valueOverflow valueLen extId)
    else do
      let data ← src.pullBytes valueLen
      pure (.bytes data)

/-- The loop over the extensions. -/
def extLoop (kvpDelta : Bool) (extsEnd : ℤ) : ℕ → ℕ → ExtDict → Fallible σ Raise ExtDict
  | 0, _, _ => raise .stuck
  | fuel + 1, prevId, exts => do
    let pos ← src.tell
    if pos < extsEnd then do
      let wireId ← src.pullVint
      let extId := if kvpDelta then prevId + wireId else wireId
      if kvpDelta ∧ 0xFFFFFFFFFFFFFFFF < extId then raise (.deltaOverflow extId)
      else do
        let value ← src.extValue extsEnd extId
        let pos ← src.tell
        if extsEnd < pos then raise (.extsOverrun pos extsEnd extId)
        else
          extLoop kvpDelta extsEnd fuel (if kvpDelta then extId else prevId) (exts.set extId value)
    else pure exts

/-- The block of extensions. -/
def parseExts (extsLenLimit : ℤ) (kvpDelta : Bool) : Fallible σ Raise (Option ExtDict) := do
  let extsLen ← src.pullSsize
  if extsLenLimit < extsLen then raise (.framerDesync extsLen extsLenLimit)
  else if 0 < extsLen then do
    let pos ← src.tell
    let extsEnd := ssize (pos + extsLen)
    let exts ← src.extLoop kvpDelta extsEnd ((extsEnd - pos).toNat + 1) 0 ⟨[], ExtDict.nodup_nil⟩
    pure (if exts.items = [] then none else some exts)
  else pure none

/-- What `parse_object_subgroup` and `parse_object_subgroup_vi64` do. -/
def parseObject (extensionsPresent : Bool) (extsLenLimit : ℤ) (kvpDelta : Bool) :
    Fallible σ Raise ObjectBody := do
  let delta ← src.pullVint
  let exts ← (if extensionsPresent then src.parseExts extsLenLimit kvpDelta else pure none)
  let payloadLen ← src.pullSsize
  if payloadLen = 0 then do
    let status ← src.pullVint
    pure { delta, exts, status, payload := [] }
  else do
    let payload ← src.pullBytes payloadLen
    pure { delta, exts, status := 0, payload }

end BodySource

namespace StreamChain

/-- The chain as `parse_object_subgroup` uses it. -/
def varintSource : BodySource StreamChain := ⟨pullUintVar, pullBytes, tell⟩

/-- The chain as `parse_object_subgroup_vi64` uses it. -/
def vi64Source : BodySource StreamChain := ⟨pullUintVi64, pullBytes, tell⟩

/-- `parse_object_subgroup`. -/
def parseObjectSubgroup : Bool → ℤ → Bool → Op ObjectBody := varintSource.parseObject

/-- `parse_object_subgroup_vi64`. -/
def parseObjectSubgroupVi64 : Bool → ℤ → Bool → Op ObjectBody := vi64Source.parseObject

end StreamChain

/-! ## Integers -/

/-- `_varint_size`. -/
def varintSize (v : ℕ) : ℕ :=
  if v < 64 then 1 else if v < 16384 then 2 else if v < 1073741824 then 4 else 8

/-- `_varint_write`. -/
def varintWrite (v : ℕ) : List UInt8 :=
  if v < 64 then [.ofNat v]
  else if v < 16384 then [.ofNat (v >>> 8 ||| 0x40), .ofNat (v &&& 0xff)]
  else if v < 1073741824 then
    [.ofNat (v >>> 24 ||| 0x80), .ofNat (v >>> 16 &&& 0xff), .ofNat (v >>> 8 &&& 0xff),
      .ofNat (v &&& 0xff)]
  else
    [.ofNat (v >>> 56 ||| 0xc0), .ofNat (v >>> 48 &&& 0xff), .ofNat (v >>> 40 &&& 0xff),
      .ofNat (v >>> 32 &&& 0xff),
      .ofNat (v >>> 24 &&& 0xff), .ofNat (v >>> 16 &&& 0xff), .ofNat (v >>> 8 &&& 0xff),
        .ofNat (v &&& 0xff)]

/-- `_vi64_size`. -/
def vi64Size (v : ℕ) : ℕ :=
  if v < 1 <<< 7 then 1
  else if v < 1 <<< 14 then 2
  else if v < 1 <<< 21 then 3
  else if v < 1 <<< 28 then 4
  else if v < 1 <<< 35 then 5
  else if v < 1 <<< 42 then 6
  else if v < 1 <<< 49 then 7
  else if v < 1 <<< 56 then 8
  else 9

/-- The loop of `_vi64_write`: the bytes `i` to `n - 1`. -/
def vi64Tail (n v : ℕ) : List UInt8 :=
  (List.range' 1 (n - 1)).map fun i => .ofNat (v >>> (8 * (n - 1 - i)) &&& 0xff)

/-- `_vi64_write`. -/
def vi64Write (v : ℕ) : List UInt8 :=
  let n := vi64Size v
  if n = 9 then 0xFF :: vi64Tail 9 v
  else .ofNat ((0xFF ^^^ 0xFF >>> (n - 1)) ||| v >>> (8 * (n - 1))) :: vi64Tail n v

/-- An integer format of the encoder. -/
structure VintCodec where
  size : ℕ → ℕ
  write : ℕ → List UInt8

def VintCodec.varint : VintCodec := ⟨varintSize, varintWrite⟩

def VintCodec.vi64 : VintCodec := ⟨vi64Size, vi64Write⟩

/-! ## The encoder -/

/-- A Python integer as `uint64_t`. -/
def uint64 (n : ℤ) : Except Raise ℕ := if 0 ≤ n ∧ n < 2 ^ 64 then .ok n.toNat
    else .error .intOverflow

namespace ExtValue

/-- `<uint64_t>ext_value`. -/
def toUint64 : ExtValue → Except Raise ℕ
  | int n => uint64 n
  | bytes _ => .error .typeError

/-- The bytes of a value, which has a length. -/
def toBytes : ExtValue → Except Raise (List UInt8)
  | int _ => .error .typeError
  | bytes data => .ok data

end ExtValue

/-- An element of `ext_pairs`. -/
structure ExtPair where
  wireId : ℕ
  absId : ℕ
  value : ExtValue
  deriving DecidableEq, Repr

/-- The loop that makes `ext_pairs`, from `prev_v` on. -/
def extPairs (kvpDelta : Bool) : ℕ → List (ℤ × ExtValue) → Except Raise (List ExtPair)
  | _, [] => .ok []
  | prev, (extId, value) :: rest => do
    let absId ← uint64 extId
    let wireId := if kvpDelta then (absId + (2 ^ 64 - prev)) % 2 ^ 64 else absId
    let pairs ← extPairs kvpDelta (if kvpDelta then absId else prev) rest
    .ok ({ wireId, absId, value } :: pairs)

namespace VintCodec

variable (codec : VintCodec)

/-- The size pass for one extension. -/
def pairSize (pair : ExtPair) : Except Raise ℕ :=
  if pair.absId % 2 = 0 then do
    let v ← pair.value.toUint64
    .ok (codec.size pair.wireId + codec.size v)
  else do
    let data ← pair.value.toBytes
    .ok (codec.size pair.wireId + (codec.size data.length + data.length))

/-- The write pass for one extension. -/
def pairWrite (pair : ExtPair) : Except Raise (List UInt8) :=
  if pair.absId % 2 = 0 then do
    let v ← pair.value.toUint64
    .ok (codec.write pair.wireId ++ codec.write v)
  else do
    let data ← pair.value.toBytes
    .ok (codec.write pair.wireId ++ (codec.write data.length ++ data))

/-- `ext_block_size`. -/
def blockSize : List ExtPair → Except Raise ℕ
  | [] => .ok 0
  | pair :: rest => do
    let size ← codec.pairSize pair
    let more ← blockSize rest
    .ok (size + more)

/-- The extensions of the write pass. -/
def blockWrite : List ExtPair → Except Raise (List UInt8)
  | [] => .ok []
  | pair :: rest => do
    let written ← codec.pairWrite pair
    let more ← blockWrite rest
    .ok (written ++ more)

/-- `ext_pairs`, with none if no extensions are written. -/
def writtenPairs (exts : Option ExtDict) (status : Int32) (extensionsPresent kvpDelta : Bool) :
    Except Raise (List ExtPair) :=
  match exts with
  | some exts =>
    if extensionsPresent ∧ status = 0 then extPairs kvpDelta 0 (exts.ordered kvpDelta) else .ok []
  | none => .ok []

/-- The bytes object that is made: its size, and what is written into it from its start on. -/
structure Encoded where
  size : ℕ
  written : List UInt8
  deriving DecidableEq, Repr

/-- What `encode_object_subgroup` and `encode_object_subgroup_vi64` do. -/
def encodeObject (delta : ℤ) (exts : Option ExtDict) (status : Int32) (payload : List UInt8)
    (extensionsPresent kvpDelta : Bool) : Except Raise Encoded := do
  let delta ← uint64 delta
  let pairs ← writtenPairs exts status extensionsPresent kvpDelta
  let extBlockSize ← codec.blockSize pairs
  let statusV := (status.toInt % 2 ^ 64).toNat
  let size := codec.size delta +
    (if extensionsPresent then codec.size extBlockSize + extBlockSize else 0) +
    (if status = 0 ∧ 0 < payload.length then codec.size payload.length + payload.length
      else codec.size 0 + codec.size statusV)
  let block ← codec.blockWrite pairs
  let written := codec.write delta ++
    (if extensionsPresent then codec.write extBlockSize ++ block else []) ++
    (if status = 0 ∧ 0 < payload.length then codec.write payload.length ++ payload
      else codec.write 0 ++ codec.write statusV)
  .ok { size, written }

end VintCodec

/-- `encode_object_subgroup`. -/
def encodeObjectSubgroup :
    ℤ → Option ExtDict → Int32 → List UInt8 → Bool → Bool → Except Raise VintCodec.Encoded :=
  VintCodec.varint.encodeObject

/-- `encode_object_subgroup_vi64`. -/
def encodeObjectSubgroupVi64 :
    ℤ → Option ExtDict → Int32 → List UInt8 → Bool → Bool → Except Raise VintCodec.Encoded :=
  VintCodec.vi64.encodeObject

/-! ## The two flavours -/

/-- The parser of a flavour: `vi64` or the integers of RFC 9000. -/
def StreamChain.parseBody (vi64 : Bool) : Bool → ℤ → Bool → StreamChain.Op ObjectBody :=
  if vi64 then StreamChain.parseObjectSubgroupVi64 else StreamChain.parseObjectSubgroup

/-- The encoder of a flavour. -/
def encodeBody (vi64 : Bool) :
    ℤ → Option ExtDict → Int32 → List UInt8 → Bool → Bool → Except Raise VintCodec.Encoded :=
  if vi64 then encodeObjectSubgroupVi64 else encodeObjectSubgroup

/-- The format of a flavour. -/
def VintCodec.ofFlavour (vi64 : Bool) : VintCodec := if vi64 then .vi64 else .varint

/-- What the integers of a flavour are below. -/
def vintBound (vi64 : Bool) : ℕ := if vi64 then 2 ^ 64 else 2 ^ 62

end Aiopquic
