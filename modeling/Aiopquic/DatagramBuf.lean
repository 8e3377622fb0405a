import Aiopquic.DgramMarks
import Aiopquic.Lib.Interleave
import Mathlib.Data.Nat.Bitwise

/-!
# The datagram record ring (`datagram_buf.h`)

A record is a four byte header with the payload's length, and the payload. Both are copied into a
power-of-two buffer at counters that only grow, each in at most two pieces, so a record may wrap
anywhere. One thread pushes records and another takes them; a copy is one action for each of its
pieces.

`records` and `taken` are history: the payloads pushed so far and how many of them were popped.
-/

namespace Aiopquic

open Interleave Interleave.Prog Circular

/-! ## The header -/

/-- The header that `aiopquic_dgram_buf_push_record` writes. -/
def recHeader (len : ℕ) : List UInt8 :=
  [.ofNat (len &&& 0xff), .ofNat (len >>> 8 &&& 0xff), .ofNat (len >>> 16 &&& 0xff),
    .ofNat (len >>> 24 &&& 0xff)]

/-- The length that `aiopquic_dgram_buf_peek_len` reads from a header. -/
def headerLen : List UInt8 → ℕ
  | [a, b, c, d] => a.toNat ||| b.toNat <<< 8 ||| c.toNat <<< 16 ||| d.toNat <<< 24
  | _ => 0

@[simp] theorem length_recHeader (len : ℕ) : (recHeader len).length = dgramRecHdr := rfl

theorem or_shiftLeft {a b i : ℕ} (h : a < 2 ^ i) : a ||| b <<< i = a + b * 2 ^ i := by
  rw [Nat.or_comm, ← Nat.shiftLeft_add_eq_or_of_lt h, Nat.shiftLeft_eq, Nat.add_comm]

/-- The header gives the length back. -/
theorem headerLen_recHeader {len : ℕ} (h : len < 2 ^ 32) : headerLen (recHeader len) = len := by
  have hbyte : ∀ n : ℕ, (UInt8.ofNat (n &&& 0xff)).toNat = n % 2 ^ 8 := by
    intro n
    rw [show 0xff = 2 ^ 8 - 1 from rfl, Nat.and_two_pow_sub_one_eq_mod, UInt8.toNat_ofNat',
      Nat.mod_mod]
  rw [recHeader, headerLen, hbyte, hbyte, hbyte, hbyte, or_shiftLeft (i := 8) (by omega),
    or_shiftLeft (i := 16) (by omega), or_shiftLeft (i := 24) (by omega)]
  simp only [Nat.shiftRight_eq_div_pow]
  omega

/-- A record as it stands in the ring. -/
def recBytes (data : List UInt8) : List UInt8 := recHeader data.length ++ data

@[simp] theorem length_recBytes (data : List UInt8) : (recBytes data).length = dgramRecHdr +
    data.length := by
  rw [recBytes, List.length_append, length_recHeader]

/-! ## The ring -/

/-- `aiopquic_dgram_buf_t`. The `uint64_t` counters are unbounded here. -/
structure DgramBuf where
  buf : ℕ → UInt8
  geo : Geometry
  maxRecord : ℕ
  head : ℕ
  tail : ℕ
  drainPending : Bool
  records : List (List UInt8)
  taken : ℕ

namespace DgramBuf

theorem dgramCapacity_pow2 (capacity maxRecord : UInt32) :
    ∃ k, k ≤ 31 ∧ dgramCapacity capacity maxRecord = 2 ^ k := by
  unfold dgramCapacity
  dsimp only
  split <;> exact ceilPow2U32_pow2 _

/-- `aiopquic_dgram_buf_create`: `NULL` for a ring without records; allocation succeeds. -/
def create (capacity maxRecord : UInt32) : Option DgramBuf :=
  if ceilPow2U32 capacity = 0 ∨ maxRecord = 0 then none
  else some
    { buf := fun _ => 0
      geo := ⟨dgramCapacity capacity maxRecord, dgramCapacity capacity maxRecord - 1,
        dgramCapacity_pow2 capacity maxRecord, rfl⟩
      maxRecord := maxRecord.toNat
      head := 0
      tail := 0
      drainPending := false
      records := []
      taken := 0 }

/-- `aiopquic_dgram_ring_write`. -/
def ringWrite (geo : Geometry) (pos : ℕ) (src : List UInt8) : Prog DgramBuf Unit := do
  let off := pos &&& geo.mask
  let first := min (geo.capacity - off) src.length
  modify fun b => { b with buf := copyIn b.buf off (src.take first) }
  when (first < src.length) <| modify fun b => { b with buf := copyIn b.buf 0 (src.drop first) }

/-- `aiopquic_dgram_ring_read`. -/
def ringRead (geo : Geometry) (pos n : ℕ) : Prog DgramBuf (List UInt8) := do
  let off := pos &&& geo.mask
  let first := min (geo.capacity - off) n
  let out₁ ← load fun b => copyOut b.buf off first
  -- a second `memcpy` of no bytes reads nothing, as the skipped one does
  let out₂ ← load fun b => copyOut b.buf 0 (n - first)
  pure (out₁ ++ out₂)

/-- The bytes a record of `len` bytes needs, in `uint32_t`. -/
def recNeed (len : ℕ) : ℕ := (dgramRecHdr + len) % 2 ^ 32

/-- The two copies of a push and its tail store. -/
def writeRecord (geo : Geometry) (tail : ℕ) (data : List UInt8) : Prog DgramBuf Unit := do
  ringWrite geo tail (recHeader data.length)
  ringWrite geo (tail + dgramRecHdr) data
  modify fun b => { b with
    tail := tail + dgramRecHdr + data.length
    records := b.records ++ [data] }

/-- Whether a push that read `tail` finds room: it looks, arms the drain signal if not, and looks
again. -/
def recRoom (geo : Geometry) (tail len : ℕ) : Prog DgramBuf Bool := do
  let head ← load (·.head)
  if recNeed len ≤ sub32 geo.capacity (diff32 tail head) then pure true
  else do
    modify fun b => { b with drainPending := true }
    let head ← load (·.head)
    pure (decide (recNeed len ≤ sub32 geo.capacity (diff32 tail head)))

/-- `aiopquic_dgram_buf_push_record`: `1` accepted, `0` ring full, `-1` too large. -/
def pushRecord (data : List UInt8) : Prog DgramBuf ℤ := do
  let maxRecord ← load (·.maxRecord)
  if maxRecord < data.length then pure (-1)
  else do
    let (tail, geo) ← load fun b => (b.tail, b.geo)
    let room ← recRoom geo tail data.length
    if room then do
      writeRecord geo tail data
      pure 1
    else pure 0

/-- `aiopquic_dgram_buf_peek_len`: the length of the head record, `0` if there is none. -/
def peekLen : Prog DgramBuf ℕ := do
  let (head, geo) ← load fun b => (b.head, b.geo)
  let tail ← load (·.tail)
  if diff64 tail head < dgramRecHdr then pure 0
  else do
    let hdr ← ringRead geo head dgramRecHdr
    pure (headerLen hdr)

/-- `aiopquic_dgram_buf_pop_into`. Returns what it copies to `out`. -/
def popInto (len : ℕ) : Prog DgramBuf (List UInt8) := do
  let (head, geo) ← load fun b => (b.head, b.geo)
  let out ← ringRead geo (head + dgramRecHdr) len
  modify fun b => { b with head := head + dgramRecHdr + len, taken := b.taken + 1 }
  pure out

/-- `aiopquic_dgram_buf_used`. -/
def used : Prog DgramBuf ℕ := do
  let tail ← load (·.tail)
  let head ← load (·.head)
  pure (diff32 tail head)

/-! ## The history behind the ring -/

/-- Every byte ever published. -/
def bytes (b : DgramBuf) : List UInt8 := b.records.flatMap recBytes

/-- The slots between head and tail hold the last published bytes, the tail counts all of them, and
the head stands between two records. -/
structure Wf (b : DgramBuf) : Prop where
  window : Window b.geo.capacity b.buf b.head b.tail b.bytes
  length : b.bytes.length = b.tail
  taken : b.taken ≤ b.records.length
  head : b.head = ((b.records.take b.taken).flatMap recBytes).length
  sized : ∀ r ∈ b.records, dgramRecHdr + r.length ≤ b.geo.capacity

variable {b c d : DgramBuf} {data xs src r : List UInt8} {pos n len : ℕ}

/-- Rounding up stops at `2 ^ 31`. -/
theorem min_le_ceilPow2U32 (n : UInt32) : min n.toNat (2 ^ 31) ≤ ceilPow2U32 n := by
  rcases le_total n.toNat (2 ^ 31) with hle | hge
  · exact (min_le_left _ _).trans (le_ceilPow2U32 n hle)
  · refine (min_le_right _ _).trans ?_
    have hlog : 31 ≤ n.toNat.log2 := (Nat.le_log2 (by omega)).2 hge
    unfold ceilPow2U32
    rw [if_neg (by omega)]
    split
    · exact hge
    · rw [if_pos (by omega)]

/-- A ring has room for two of the largest records, as far as `uint32_t` can say. -/
theorem min_le_dgramCapacity (capacity maxRecord : UInt32) :
    min (2 * (dgramRecHdr + maxRecord.toNat) % 2 ^ 32) (2 ^ 31) ≤ dgramCapacity capacity
    maxRecord := by
  have hneed : (2 * (4 + maxRecord) : UInt32).toNat = 2 * (dgramRecHdr + maxRecord.toNat) %
    2 ^ 32 := by
    simp only [UInt32.toNat_mul, UInt32.toNat_add, UInt32.reduceToNat, dgramRecHdr]
    omega
  have hceil := min_le_ceilPow2U32 (2 * (4 + maxRecord))
  unfold dgramCapacity
  simp only [dgramRecHdr] at hneed ⊢
  split <;> omega

/-- A ring for records below `2 ^ 30` bytes holds the largest of them. -/
theorem le_geo_capacity {capacity maxRecord : UInt32} (hmax : maxRecord.toNat < 2 ^ 30) :
    dgramRecHdr + maxRecord.toNat ≤ dgramCapacity capacity maxRecord := by
  have hle := min_le_dgramCapacity capacity maxRecord
  simp only [dgramRecHdr] at hle ⊢
  omega

/-- A new ring: empty, and of the size that was worked out. -/
structure Fresh (capacity maxRecord : UInt32) (b : DgramBuf) : Prop where
  wf : b.Wf
  records : b.records = []
  taken : b.taken = 0
  capacity : b.geo.capacity = dgramCapacity capacity maxRecord
  maxRecord : b.maxRecord = maxRecord.toNat

theorem create_fresh {capacity maxRecord : UInt32} (h : create capacity maxRecord = some b) :
    Fresh capacity maxRecord b := by
  rw [create] at h
  split at h
  · cases h
  cases h
  exact ⟨⟨Window.empty _ _, rfl, le_rfl, rfl, nofun⟩, rfl, rfl, rfl, rfl⟩

theorem Wf.head_le (w : b.Wf) : b.head ≤ b.tail := w.window.head_le

theorem Wf.tail_le (w : b.Wf) : b.tail ≤ b.head + b.geo.capacity := w.window.tail_le

theorem Wf.diff_lt (w : b.Wf) : b.tail - b.head < 2 ^ 32 := by
  have := w.tail_le
  have := b.geo.capacity_lt
  omega

/-- The queued bytes are those of the records not yet taken. -/
theorem Wf.drop_head (w : b.Wf) :
    b.bytes.drop b.head = (b.records.drop b.taken).flatMap recBytes := by
  have hsplit : b.bytes =
      (b.records.take b.taken).flatMap recBytes ++ (b.records.drop b.taken).flatMap recBytes := by
    rw [← List.flatMap_append, List.take_append_drop, bytes]
  rw [w.head, hsplit, List.drop_left]

/-! ## The two sides -/

/-- What the producer sees of the consumer: the head moves. -/
structure ConsumerMoves (b b' : DgramBuf) : Prop where
  geo : b'.geo = b.geo
  buf : b'.buf = b.buf
  tail : b'.tail = b.tail
  records : b'.records = b.records
  maxRecord : b'.maxRecord = b.maxRecord
  head_le : b.head ≤ b'.head

/-- What the consumer sees of the producer: records are added. -/
structure ProducerMoves (b b' : DgramBuf) : Prop where
  geo : b'.geo = b.geo
  head : b'.head = b.head
  taken : b'.taken = b.taken
  maxRecord : b'.maxRecord = b.maxRecord
  records : b.records <+: b'.records

theorem ConsumerMoves.refl (b : DgramBuf) : ConsumerMoves b b := ⟨rfl, rfl, rfl, rfl, rfl, le_rfl⟩

theorem ConsumerMoves.trans (h : ConsumerMoves b c) (h' : ConsumerMoves c d) : ConsumerMoves b d :=
  ⟨h'.geo.trans h.geo, h'.buf.trans h.buf, h'.tail.trans h.tail, h'.records.trans h.records,
    h'.maxRecord.trans h.maxRecord, h.head_le.trans h'.head_le⟩

theorem ProducerMoves.refl (b : DgramBuf) : ProducerMoves b b :=
  ⟨rfl, rfl, rfl, rfl, List.prefix_rfl⟩

theorem ProducerMoves.trans (h : ProducerMoves b c) (h' : ProducerMoves c d) : ProducerMoves b d :=
  ⟨h'.geo.trans h.geo, h'.head.trans h.head, h'.taken.trans h.taken, h'.maxRecord.trans h.maxRecord,
    h.records.trans h'.records⟩

theorem ProducerMoves.bytes (h : ProducerMoves b c) : b.bytes <+: c.bytes := by
  obtain ⟨more, hmore⟩ := h.records
  rw [DgramBuf.bytes, DgramBuf.bytes, ← hmore, List.flatMap_append]
  exact List.prefix_append _ _

/-- The bytes only grow for the consumer. -/
theorem ProducerMoves.tail_le (h : ProducerMoves b c) (hb : b.Wf) (hc : c.Wf) :
    b.tail ≤ c.tail := by
  rw [← hb.length, ← hc.length]
  exact h.bytes.length_le

/-- The producer's contract. -/
def producer : Contract DgramBuf where
  inv := Wf
  rely := ConsumerMoves
  guar := ProducerMoves
  rely_refl := .refl
  rely_trans := .trans
  guar_refl := .refl

/-- The consumer's contract. -/
def consumer : Contract DgramBuf where
  inv := Wf
  rely := ProducerMoves
  guar := ConsumerMoves
  rely_refl := .refl
  rely_trans := .trans
  guar_refl := .refl

/-! ## Pushing -/

/-- The producer's state while the bytes `xs` stand past the tail of `b`, unpublished. -/
structure Staged (b : DgramBuf) (xs : List UInt8) (c : DgramBuf) : Prop where
  geo : c.geo = b.geo
  tail : c.tail = b.tail
  records : c.records = b.records
  maxRecord : c.maxRecord = b.maxRecord
  head_le : b.head ≤ c.head
  slots : ∀ j (hj : j < xs.length), c.buf ((b.tail + j) % b.geo.capacity) = xs[j]

theorem Staged.stable (h : Staged b xs c) (hm : ConsumerMoves c d) : Staged b xs d :=
  ⟨hm.geo.trans h.geo, hm.tail.trans h.tail, hm.records.trans h.records,
    hm.maxRecord.trans h.maxRecord,
    h.head_le.trans hm.head_le, fun j hj => by rw [hm.buf]; exact h.slots j hj⟩

theorem Staged.nil (h : ConsumerMoves b c) : Staged b [] c :=
  ⟨h.geo, h.tail, h.records, h.maxRecord, h.head_le, nofun⟩

/-- A change of slots outside the window. -/
theorem Wf.copy (w : b.Wf) {m : ℕ → UInt8}
    (h : ∀ i, b.head ≤ i → i < b.tail → m (i % b.geo.capacity) = b.buf (i % b.geo.capacity)) :
    ({ b with buf := m } : DgramBuf).Wf :=
  ⟨w.window.congr h, w.length, w.taken, w.head, w.sized⟩

/-- The memory after both pieces of a copy past the staged bytes. -/
theorem Staged.copied (h : Staged b xs c)
    (hroom : b.tail + xs.length + src.length ≤ b.head + b.geo.capacity)
    (hle : b.head ≤ b.tail) (hd : ConsumerMoves { c with buf := d.buf } d)
    (hbuf : d.buf = copyWrapped c.buf b.geo.capacity (b.tail + xs.length) src) :
    Staged b (xs ++ src) d := by
  refine ⟨hd.geo.trans h.geo, hd.tail.trans h.tail, hd.records.trans h.records,
    hd.maxRecord.trans h.maxRecord, h.head_le.trans hd.head_le, fun j hj => ?_⟩
  rw [List.length_append] at hj
  rw [hbuf]
  rcases lt_or_ge j xs.length with hlt | hge
  · rw [List.getElem_append_left hlt, ← h.slots j hlt]
    exact copyWrapped_frame (by omega) (by omega)
  · obtain ⟨k, rfl⟩ := Nat.exists_eq_add_of_le hge
    rw [List.getElem_append_right hge, ← Nat.add_assoc]
    have hk : k < src.length := by omega
    rw [copyWrapped_at b.geo.capacity_pos (by omega) hk]
    congr 1
    omega

/-- Writing past the staged bytes stages more. -/
theorem ringWrite_spec (h : Staged b xs c)
    (hroom : b.tail + xs.length + src.length ≤ b.head + b.geo.capacity) (hle : b.head ≤ b.tail) :
    wp producer (ringWrite b.geo (b.tail + xs.length) src) (fun _ => Staged b (xs ++ src)) c := by
  unfold ringWrite
  rw [b.geo.and_mask]
  refine wp_modify_bind fun d hcd hd => ?_
  have hsd := h.stable hcd
  -- the window ends before the copy and starts less than a capacity behind its end
  have hwin : ∀ i, d.head ≤ i → i < d.tail →
      i < b.tail + xs.length ∧ b.tail + xs.length + src.length ≤ i + b.geo.capacity := by
    intro i hi hi'
    have := hsd.head_le
    have := hsd.tail
    omega
  refine ⟨⟨rfl, rfl, rfl, rfl, List.prefix_rfl⟩, hd.copy fun i hi hi' => ?_, ?_⟩
  · rw [hsd.geo]
    exact copyIn_first_frame (hwin i hi hi').1 (hwin i hi hi').2
  unfold Prog.when
  split
  · refine wp_modify fun e hde he => ?_
    have hbuf : copyIn e.buf 0
      (src.drop (firstPart b.geo.capacity (b.tail + xs.length) src.length)) =
        copyWrapped d.buf b.geo.capacity (b.tail + xs.length) src := by
      rw [hde.buf]
      rfl
    refine ⟨⟨rfl, rfl, rfl, rfl, List.prefix_rfl⟩, he.copy fun i hi hi' => ?_,
      hsd.copied hroom hle ⟨hde.geo, rfl, hde.tail, hde.records, hde.maxRecord, hde.head_le⟩ hbuf⟩
    obtain ⟨hlt, hle⟩ := hwin i (hde.head_le.trans hi) (hi'.trans_eq hde.tail)
    rw [hde.geo, hsd.geo, hde.buf]
    refine (congrFun (hde.buf ▸ hbuf) _).trans ?_
    exact copyIn_second_frame hlt hle
  · rename_i hge
    refine hsd.copied hroom hle ⟨rfl, rfl, rfl, rfl, rfl, le_rfl⟩ ?_
    have hdrop : src.drop (firstPart b.geo.capacity (b.tail + xs.length) src.length) = [] :=
      List.drop_eq_nil_of_le (not_lt.1 hge)
    rw [copyWrapped, hdrop, copyIn_nil]
    rfl

/-- Publishing a record whose bytes are staged. -/
theorem Wf.publish (hc : c.Wf) (h : Staged b (recBytes data) c)
    (hroom : b.tail + (recBytes data).length ≤ b.head + b.geo.capacity) (hle : b.head ≤ b.tail) :
    ({ c with
      tail := b.tail + dgramRecHdr + data.length
      records := c.records ++ [data] } : DgramBuf).Wf := by
  have hlen := length_recBytes data
  have htail : b.tail + dgramRecHdr + data.length = c.tail + (recBytes data).length := by
    rw [h.tail, hlen]
    omega
  have hbytes : (c.records ++ [data]).flatMap recBytes = c.bytes ++ recBytes data := by
    simp [DgramBuf.bytes]
  have htake : (c.records ++ [data]).take c.taken = c.records.take c.taken :=
    List.take_append_of_le_length hc.taken
  have hhead := h.head_le
  refine ⟨?_, ?_, ?_, ?_, fun r hr => ?_⟩
  · show Window c.geo.capacity c.buf c.head _ ((c.records ++ [data]).flatMap recBytes)
    rw [htail, hbytes]
    refine (hc.window.append _).publish ?_ ?_ fun j hj => ?_
    · rw [h.tail, h.geo]
      omega
    · rw [List.length_append, hc.length]
    · rw [List.getElem?_append_right (by rw [hc.length]; omega), hc.length, Nat.add_sub_cancel_left,
        List.getElem?_eq_getElem hj, h.tail, h.geo, h.slots j hj]
  · show ((c.records ++ [data]).flatMap recBytes).length = _
    rw [htail, hbytes, List.length_append, hc.length]
  · show c.taken ≤ (c.records ++ [data]).length
    rw [List.length_append]
    exact hc.taken.trans (Nat.le_add_right _ _)
  · show c.head = (((c.records ++ [data]).take c.taken).flatMap recBytes).length
    rw [htake]
    exact hc.head
  · rcases List.mem_append.1 hr with hr | hr
    · exact hc.sized r hr
    · rw [List.mem_singleton.1 hr]
      show dgramRecHdr + data.length ≤ c.geo.capacity
      rw [h.geo]
      omega

/-- With room for it, a record is added. -/
theorem writeRecord_spec (hb : b.Wf)
    (hroom : b.tail + (recBytes data).length ≤ b.head + b.geo.capacity) :
    wp producer (writeRecord b.geo b.tail data) (fun _ c => c.records = b.records ++ [data]) b := by
  have hlen := length_recBytes data
  unfold writeRecord
  have hnil : Staged b [] b := .nil (.refl b)
  refine wp_seq (ringWrite_spec hnil ?_ hb.head_le) hb fun _ c hc h => ?_
  · rw [List.length_nil, length_recHeader]
    omega
  refine wp_seq (ringWrite_spec h ?_ hb.head_le) hc fun _ d hd h => ?_
  · rw [List.nil_append, length_recHeader]
    omega
  refine wp_modify fun e hde he => ?_
  have hst := h.stable hde
  rw [hst.records]
  refine ⟨⟨rfl, rfl, rfl, rfl, ?_⟩, hst.records ▸ he.publish hst hroom hb.head_le, rfl⟩
  rw [hst.records]
  exact List.prefix_append _ _

/-- What a producer finds free when the head it read was `h`. -/
theorem Wf.sub32_diff32 (w : b.Wf) {t h : ℕ} (ht : t = b.tail) (hh : h = b.head) :
    sub32 b.geo.capacity (diff32 t h) = b.geo.capacity - (b.tail - b.head) := by
  subst ht hh
  have := w.tail_le
  rw [diff32_eq w.head_le w.diff_lt, sub32_eq (by omega) b.geo.capacity_lt]

/-- A push that finds no room has not found the ring empty, unless the record is larger than the
ring. -/
theorem recRoom_spec (hlen : dgramRecHdr + len < 2 ^ 32) :
    wp producer (recRoom b.geo b.tail len)
      (fun ok c => ConsumerMoves b c ∧
        (ok = true → b.tail + (dgramRecHdr + len) ≤ c.head + b.geo.capacity) ∧
        (ok = false → b.head ≠ b.tail ∨ b.geo.capacity < dgramRecHdr + len)) b := by
  have hneed : recNeed len = dgramRecHdr + len := Nat.mod_eq_of_lt hlen
  have hfree : ∀ c, c.Wf → ConsumerMoves b c →
      sub32 b.geo.capacity (diff32 b.tail c.head) = b.geo.capacity - (b.tail - c.head) := by
    intro c hc hbc
    rw [← hbc.geo, ← hbc.tail]
    exact hc.sub32_diff32 rfl rfl
  unfold recRoom
  rw [hneed]
  refine wp_load_bind fun c hbc hc => ?_
  rw [hfree c hc hbc]
  have hle := hc.head_le
  have htail := hc.tail_le
  rw [hbc.tail] at hle htail
  rw [hbc.geo] at htail
  split
  · exact ⟨hbc, fun _ => by omega, nofun⟩
  rename_i hfull
  refine wp_modify_bind fun d hcd hd => ?_
  have hbd := hbc.trans hcd
  refine ⟨⟨rfl, rfl, rfl, rfl, List.prefix_rfl⟩,
    ⟨hd.window, hd.length, hd.taken, hd.head, hd.sized⟩, ?_⟩
  refine wp_load_bind fun e hde he => ?_
  have hbe : ConsumerMoves b e :=
    ⟨hde.geo.trans hbd.geo, hde.buf.trans hbd.buf, hde.tail.trans hbd.tail,
      hde.records.trans hbd.records,
      hde.maxRecord.trans hbd.maxRecord, hbd.head_le.trans hde.head_le⟩
  have hle' := he.head_le
  have htail' := he.tail_le
  have hfirst := hbe.head_le
  rw [hbe.tail] at hle' htail'
  rw [hbe.geo] at htail'
  rw [hfree e he hbe]
  refine ⟨hbe, fun hok => ?_, fun _ => ?_⟩
  · have := of_decide_eq_true hok
    omega
  · have := hbc.head_le
    omega

/-- A push adds the record, or leaves every byte and the tail as they are: because the ring was not
empty or is too small, or because the record is too large. -/
theorem pushRecord_spec (hlen : data.length ≤ b.maxRecord → dgramRecHdr + data.length < 2 ^ 32) :
    wp producer (pushRecord data)
      (fun rc c => rc = 1 ∧ c.records = b.records ++ [data] ∧ data.length ≤ b.maxRecord ∨
        ConsumerMoves b c ∧
        (rc = 0 ∧ (b.head ≠ b.tail ∨ b.geo.capacity < dgramRecHdr + data.length) ∧
          data.length ≤ b.maxRecord ∨ rc = -1 ∧ b.maxRecord < data.length)) b := by
  unfold pushRecord
  refine wp_load_bind fun c hbc hc => ?_
  rw [hbc.maxRecord]
  split
  · rename_i hlarge
    exact .inr ⟨hbc, .inr ⟨rfl, hlarge⟩⟩
  rename_i hmax
  have hmax : data.length ≤ b.maxRecord := not_lt.1 hmax
  refine wp_load_bind fun d hcd hd => ?_
  have hbd := hbc.trans hcd
  refine wp_seq (recRoom_spec (hlen hmax)) hd fun room e he h => ?_
  obtain ⟨hde, hroom, hfull⟩ := h
  have hbe := hbd.trans hde
  cases room with
  | false =>
    refine .inr ⟨hbe, .inl ⟨rfl, ?_, hmax⟩⟩
    rw [← hbd.geo]
    refine (hfull rfl).imp_left fun hne heq => hne ?_
    have := hd.head_le
    have := hbd.head_le
    have := hbd.tail
    omega
  | true =>
    have hfits : e.tail + (recBytes data).length ≤ e.head + e.geo.capacity := by
      rw [length_recBytes, hde.tail, hde.geo]
      exact hroom rfl
    have hspec := writeRecord_spec he hfits
    rw [hde.geo, hde.tail] at hspec
    refine wp_seq hspec he fun _ f _ h => .inl ⟨rfl, ?_, hmax⟩
    rw [h, hbe.records]

/-- No action publishes anything but `data`. -/
def Adds (data : List UInt8) (b c : DgramBuf) : Prop :=
  c.records = b.records ∨ c.records = b.records ++ [data]

theorem Adds.refl (data : List UInt8) (b : DgramBuf) : Adds data b b := .inl rfl

theorem only_ringWrite {geo : Geometry} : Only (Adds data) (ringWrite geo pos src) :=
  only_bind (only_modify fun _ => .inl rfl) fun _ => only_when (only_modify fun _ => .inl rfl)

theorem only_pushRecord : Only (Adds data) (pushRecord data) := by
  refine only_bind (only_load (.refl data)) fun maxRecord => ?_
  split
  · trivial
  refine only_bind (only_load (.refl data)) fun x => only_bind ?_ fun room => ?_
  · refine only_bind (only_load (.refl data)) fun _ => ?_
    split
    · trivial
    · exact only_bind (only_modify fun _ => .inl rfl) fun _ => only_bind (only_load (.refl data))
        fun _ => trivial
  · split
    · refine only_bind (only_bind only_ringWrite fun _ => only_bind only_ringWrite fun _ => ?_)
        fun _ => trivial
      exact only_modify fun _ => .inr rfl
    · trivial

/-- `used` never exceeds the capacity. -/
theorem used_producer : wp producer used (fun n c => ConsumerMoves b c ∧ n ≤ b.geo.capacity) b := by
  unfold used
  refine wp_load_bind fun c hbc hc => wp_load_bind fun d hcd hd => ⟨hbc.trans hcd, ?_⟩
  have hle := hd.tail_le
  rw [← hcd.tail, diff32_eq hd.head_le hd.diff_lt, ← hbc.geo, ← hcd.geo]
  omega

theorem used_reads : Reads used := reads_load_bind fun _ => reads_load_bind fun _ => trivial

/-! ## Taking -/

/-- `ringRead` reads published bytes that have not been taken. -/
theorem ringRead_spec (hb : b.Wf) (hpos : b.head ≤ pos) (hle : pos + n ≤ b.tail) :
    wp consumer (ringRead b.geo pos n)
      (fun out c => ProducerMoves b c ∧ out = (b.bytes.drop pos).take n) b := by
  obtain ⟨k, rfl⟩ := Nat.exists_eq_add_of_le hpos
  have hlen := hb.length
  unfold ringRead
  rw [b.geo.and_mask]
  refine wp_load_bind fun c hbc hc => wp_load_bind fun d hcd hd => ?_
  have hbd := hbc.trans hcd
  refine ⟨hbd, ?_⟩
  have htc := hbc.tail_le hb hc
  have htd := hbd.tail_le hb hd
  -- the window from the counter on
  have hwc : Window b.geo.capacity c.buf (b.head + k) c.tail c.bytes := by
    have := hc.window.advance (n := k) (by rw [hbc.head]; omega)
    rwa [hbc.geo, hbc.head] at this
  have hwd : Window b.geo.capacity d.buf (b.head + k) d.tail d.bytes := by
    have := hd.window.advance (n := k) (by rw [hbd.head]; omega)
    rwa [hbd.geo, hbd.head] at this
  have h₁ := hwc.copyOut_first (n := min (b.geo.capacity - (b.head + k) % b.geo.capacity) n)
    (by omega)
    (by omega)
  rw [take_drop_of_isPrefix hbc.bytes (by omega)] at h₁
  rw [h₁]
  rcases le_or_gt n (b.geo.capacity - (b.head + k) % b.geo.capacity) with hle' | hlt
  · rw [min_eq_right hle', Nat.sub_self]
    simp [copyOut]
  · have h₂ := hwd.copyOut_second (n := n - (b.geo.capacity - (b.head + k) % b.geo.capacity))
      b.geo.capacity_pos (by omega)
    rw [take_drop_of_isPrefix hbd.bytes (by omega)] at h₂
    rw [min_eq_left hlt.le, h₂, take_add_drop, Nat.add_sub_cancel' hlt.le]

/-- The record at the head, as it stands in the ring. -/
theorem Wf.head_record (w : b.Wf) (hr : b.records[b.taken]? = some r) :
    b.bytes.drop b.head = recBytes r ++ (b.records.drop (b.taken + 1)).flatMap recBytes := by
  obtain ⟨hlt, rfl⟩ := List.getElem?_eq_some_iff.1 hr
  rw [w.drop_head, List.drop_eq_getElem_cons hlt, List.flatMap_cons]

/-- It lies between head and tail. -/
theorem Wf.head_record_le (w : b.Wf) (hr : b.records[b.taken]? = some r) :
    b.head + dgramRecHdr + r.length ≤ b.tail := by
  have hlen := congrArg List.length (w.head_record hr)
  rw [List.length_drop, w.length, List.length_append, length_recBytes] at hlen
  have := w.head_le
  simp only [dgramRecHdr] at hlen ⊢
  omega

/-- Without a record to take, head and tail meet. -/
theorem Wf.head_eq_tail (w : b.Wf) (h : b.taken = b.records.length) : b.head = b.tail := by
  rw [w.head, h, List.take_length, ← w.length, bytes]

/-- `peekLen` finds the length of the record at the head, and `0` where there was none. -/
theorem peekLen_spec (hb : b.Wf) :
    wp consumer peekLen
      (fun n c => ProducerMoves b c ∧ (n = 0 ∧ b.taken = b.records.length ∨
        ∃ r, c.records[b.taken]? = some r ∧ n = r.length)) b := by
  unfold peekLen
  refine wp_load_bind fun c hbc hc => wp_load_bind fun d hcd hd => ?_
  have hbd := hbc.trans hcd
  have hdiff : diff64 d.tail c.head = d.tail - d.head := by
    rw [← hcd.head]
    exact diff64_eq hd.head_le (hd.diff_lt.trans (by decide))
  rw [hdiff]
  rcases hd.taken.eq_or_lt with hnone | hsome
  · have hmeet := hd.head_eq_tail hnone
    rw [hmeet, Nat.sub_self, if_pos (by decide)]
    refine ⟨hbd, .inl ⟨rfl, le_antisymm hb.taken ?_⟩⟩
    rw [← hbd.taken, hnone]
    exact hbd.records.length_le
  · have hr := List.getElem?_eq_getElem hsome
    have hle := hd.head_record_le hr
    have hsize := hd.sized _ (List.getElem_mem hsome)
    rw [if_neg (by omega), ← hcd.geo, ← hcd.head]
    refine wp_seq (ringRead_spec hd le_rfl (by omega)) hd fun hdr e _ h => ?_
    obtain ⟨hde, rfl⟩ := h
    have hbe := hbd.trans hde
    refine ⟨hbe, .inr ?_⟩
    have hhdr : (d.bytes.drop d.head).take dgramRecHdr = recHeader d.records[d.taken].length := by
      rw [hd.head_record hr, recBytes, List.append_assoc]
      exact List.take_left' (length_recHeader _)
    have hlt : d.records[d.taken].length < 2 ^ 32 := by
      have := d.geo.capacity_lt
      omega
    rw [hhdr, headerLen_recHeader hlt]
    refine ⟨_, ?_, rfl⟩
    rw [← hbd.taken]
    exact getElem?_of_isPrefix hde.records hr

/-- `popInto` takes the record at the head. -/
theorem popInto_spec (hr : b.records[b.taken]? = some r) :
    wp consumer (popInto r.length)
      (fun out c => out = r ∧ c.taken = b.taken + 1 ∧ b.records <+: c.records) b := by
  unfold popInto
  refine wp_load_bind fun c hbc hc => ?_
  have hrc : c.records[c.taken]? = some r := by
    rw [hbc.taken]
    exact getElem?_of_isPrefix hbc.records hr
  have hle := hc.head_record_le hrc
  refine wp_seq (ringRead_spec hc (Nat.le_add_right _ _) hle) hc fun out d hd h => ?_
  obtain ⟨hcd, rfl⟩ := h
  have hout : (c.bytes.drop (c.head + dgramRecHdr)).take r.length = r := by
    rw [← List.drop_drop, hc.head_record hrc, recBytes, List.append_assoc,
      List.drop_left' (length_recHeader _), List.take_left' rfl]
  rw [hout]
  refine wp_modify_bind fun e hde he => ?_
  have hbe := (hbc.trans hcd).trans hde
  have hce := hcd.trans hde
  have hre : e.records[e.taken]? = some r := by
    rw [hbe.taken]
    exact getElem?_of_isPrefix hbe.records hr
  have hle' := he.head_record_le hre
  obtain ⟨hlt, hget⟩ := List.getElem?_eq_some_iff.1 hre
  rw [← hce.head]
  have hmove : e.head ≤ e.head + dgramRecHdr + r.length :=
    Nat.le_add_right_of_le (Nat.le_add_right _ _)
  refine ⟨⟨rfl, rfl, rfl, rfl, rfl, hmove⟩, ?_, rfl, ?_, hbe.records⟩
  · refine ⟨?_, he.length, hlt, ?_, he.sized⟩
    · have := he.window.advance (n := dgramRecHdr + r.length) (by omega)
      rwa [← Nat.add_assoc] at this
    · show e.head + dgramRecHdr + r.length =
        ((e.records.take (e.taken + 1)).flatMap recBytes).length
      rw [List.take_succ_eq_append_getElem hlt, List.flatMap_append, List.length_append,
        ← he.head, hget]
      simp [Nat.add_assoc]
  · rw [← hbe.taken]

end DgramBuf

end Aiopquic
