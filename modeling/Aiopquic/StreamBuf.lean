import Aiopquic.Lib.Circular
import Aiopquic.Lib.Interleave

/-!
# The per-stream byte ring (`stream_buf.h`)

`StreamBuf` is `aiopquic_stream_buf_t`: one producer thread and one consumer thread move bytes
through it with two atomic counters, and no lock. The functions are programs over the ring's own
state, with one action for each atomic load or store and for each `memcpy`.

`writes` is a history variable: the payload of each `push` that published something, in order. No
function reads it. `Wf` ties the ring to it, `producer` and `consumer` are the contracts of the two
sides, and each function has one specification against the contract of the side that calls it.
-/

namespace Aiopquic

open Interleave Interleave.Prog Circular

/-! ## Sizing and hashing -/

/-- `aiopquic_ceil_pow2_u32`. `Nat.log2 n + 1` is `32 - __builtin_clz(n)` for a nonzero `n`. -/
def ceilPow2U32 (n : UInt32) : ℕ :=
  if n.toNat = 0 then 1
  else if n.toNat &&& (n.toNat - 1) = 0 then n.toNat
  else if 32 ≤ n.toNat.log2 + 1 then 2 ^ 31
  else 2 ^ (n.toNat.log2 + 1)

/-- The rounded capacity is a power of two that fits 32 bits. -/
theorem ceilPow2U32_pow2 (n : UInt32) : ∃ k, k ≤ 31 ∧ ceilPow2U32 n = 2 ^ k := by
  unfold ceilPow2U32
  split
  · exact ⟨0, by omega, rfl⟩
  · rename_i hn
    split
    · rename_i hand
      obtain ⟨k, hk⟩ := (Nat.and_sub_one_eq_zero_iff_isPowerOfTwo hn).1 hand
      refine ⟨k, ?_, hk⟩
      have hlt : 2 ^ k < 2 ^ 32 := hk ▸ n.toNat_lt
      have := (Nat.pow_lt_pow_iff_right (by norm_num : 1 < 2)).1 hlt
      omega
    · split
      · exact ⟨31, le_rfl, rfl⟩
      · exact ⟨n.toNat.log2 + 1, by omega, rfl⟩

/-- A power of two stays as it is. -/
theorem ceilPow2U32_of_pow2 {n : UInt32} {k : ℕ} (h : n.toNat = 2 ^ k) :
    ceilPow2U32 n = n.toNat := by
  have hpos : n.toNat ≠ 0 := by
    rw [h]
    exact (Nat.two_pow_pos k).ne'
  unfold ceilPow2U32
  rw [if_neg hpos, if_pos ((Nat.and_sub_one_eq_zero_iff_isPowerOfTwo hpos).2 ⟨k, h⟩)]

/-- It is at least the requested size, as long as that is at most `2 ^ 31`. -/
theorem le_ceilPow2U32 (n : UInt32) (h : n.toNat ≤ 2 ^ 31) : n.toNat ≤ ceilPow2U32 n := by
  unfold ceilPow2U32
  split
  · omega
  · split
    · exact le_rfl
    · split
      · exact h
      · exact Nat.lt_log2_self.le

/-- `AIOPQUIC_FNV1A_INIT`. -/
def fnv1aInit : UInt32 := 0x811c9dc5

/-- `AIOPQUIC_FNV1A_PRIME`. -/
def fnv1aPrime : UInt32 := 0x01000193

/-- `aiopquic_fnv1a_step`. -/
def fnv1aStep (h : UInt32) (p : List UInt8) : UInt32 :=
  p.foldl (fun h x => (h ^^^ x.toUInt32) * fnv1aPrime) h

/-! ## The ring -/

/-- `aiopquic_stream_buf_t`. The `uint64_t` counters are unbounded here. -/
structure StreamBuf where
  buf : ℕ → UInt8
  geo : Geometry
  tail : ℕ
  head : ℕ
  finPending : Bool
  hashEnabled : Bool
  pushHash : UInt32
  popHash : UInt32
  /-- History: the payloads published by `push`. -/
  writes : List (List UInt8)

namespace StreamBuf

/-- `aiopquic_stream_buf_create`; `hash` is the `AIOPQUIC_TX_HASH` switch. -/
def create (capacity : UInt32) (hash : Bool) : StreamBuf where
  buf := fun _ => 0
  geo := ⟨ceilPow2U32 capacity, ceilPow2U32 capacity - 1, ceilPow2U32_pow2 capacity, rfl⟩
  tail := 0
  head := 0
  finPending := false
  hashEnabled := hash
  pushHash := fnv1aInit
  popHash := fnv1aInit
  writes := []

/-- The second half of `aiopquic_stream_buf_push`: copy `data` past `tail` in at most two pieces,
then publish the new tail. -/
def commit (geo : Geometry) (hash : Bool) (tail : ℕ) (data : List UInt8) : Prog StreamBuf Unit := do
  let off := tail &&& geo.mask
  let first := min (geo.capacity - off) data.length
  modify fun b => { b with buf := copyIn b.buf off (data.take first) }
  when (first < data.length) <|
    modify fun b => { b with buf := copyIn b.buf 0 (data.drop first) }
  when hash <|
    modify fun b => { b with pushHash := fnv1aStep b.pushHash data }
  modify fun b => { b with tail := tail + data.length, writes := b.writes ++ [data] }

/-- `aiopquic_stream_buf_push`. Returns the number of bytes accepted; `0` means the ring is full. -/
def push (data : List UInt8) : Prog StreamBuf ℕ := do
  let (tail, geo, hash) ← load fun b => (b.tail, b.geo, b.hashEnabled)
  let head ← load (·.head)
  let freeBytes := sub32 geo.capacity (diff32 tail head)
  if freeBytes = 0 then pure 0
  else do
    let toWrite := min data.length freeBytes
    commit geo hash tail (data.take toWrite)
    pure toWrite

/-- The second half of `aiopquic_stream_buf_pop`: copy `toRead` bytes from `head` in at most two
pieces, then advance the head. Returns what was written to `out`. -/
def fetch (geo : Geometry) (hash : Bool) (head toRead : ℕ) : Prog StreamBuf (List UInt8) := do
  let off := head &&& geo.mask
  let first := min (geo.capacity - off) toRead
  let out₁ ← load fun b => copyOut b.buf off first
  -- a second `memcpy` of no bytes reads nothing, as the skipped one does
  let out₂ ← load fun b => copyOut b.buf 0 (toRead - first)
  when hash <|
    modify fun b => { b with popHash := fnv1aStep b.popHash (out₁ ++ out₂) }
  modify fun b => { b with head := head + toRead }
  pure (out₁ ++ out₂)

/-- `aiopquic_stream_buf_pop`. Returns the bytes drained, at most `maxBytes`. -/
def pop (maxBytes : ℕ) : Prog StreamBuf (List UInt8) := do
  let (head, geo, hash) ← load fun b => (b.head, b.geo, b.hashEnabled)
  let tail ← load (·.tail)
  let available := diff32 tail head
  if available = 0 then pure [] else fetch geo hash head (min maxBytes available)

/-- A buffer of the given size after `aiopquic_stream_buf_pop` wrote `out` to it. -/
def fillBuffer (size : ℕ) (out : List UInt8) : List UInt8 := out ++ List.replicate
    (size - out.length) 0

theorem fillBuffer_eq {size : ℕ} {out : List UInt8} (h : out.length = size) :
    fillBuffer size out = out := by
  simp [fillBuffer, h]

/-- `aiopquic_stream_buf_used`. -/
def used : Prog StreamBuf ℕ := do
  let tail ← load (·.tail)
  let head ← load (·.head)
  pure (diff32 tail head)

/-- `aiopquic_stream_buf_set_fin`. -/
def setFin : Prog StreamBuf Unit := modify fun b => { b with finPending := true }

/-- `aiopquic_stream_buf_fin_pending`. -/
def finPendingLoad : Prog StreamBuf Bool := load (·.finPending)

/-! ## The history behind the ring -/

/-- Every byte ever published. -/
def bytes (b : StreamBuf) : List UInt8 := b.writes.flatten

/-- The bytes published and not yet taken. -/
def queued (b : StreamBuf) : List UInt8 := b.bytes.drop b.head

/-- The slots between head and tail hold the last published bytes, and the tail counts all of
them. -/
structure Wf (b : StreamBuf) : Prop where
  window : Window b.geo.capacity b.buf b.head b.tail b.bytes
  length : b.bytes.length = b.tail

theorem create_wf (capacity : UInt32) (hash : Bool) : (create capacity hash).Wf :=
  ⟨Window.empty _ _, rfl⟩

theorem Wf.head_le {b : StreamBuf} (w : b.Wf) : b.head ≤ b.tail := w.window.head_le

theorem Wf.tail_le {b : StreamBuf} (w : b.Wf) : b.tail ≤ b.head + b.geo.capacity := w.window.tail_le

/-- The number of queued bytes fits the ring, so `tail - head` does not wrap in 32 bits. -/
theorem Wf.diff_lt {b : StreamBuf} (w : b.Wf) : b.tail - b.head < 2 ^ 32 := by
  have := w.tail_le
  have := b.geo.capacity_lt
  omega

theorem Wf.queued_length {b : StreamBuf} (w : b.Wf) : b.queued.length = b.tail - b.head := by
  rw [queued, List.length_drop, w.length]

/-! ## The two sides -/

/-- One action of a `push` that may publish `data` in the states in which `P` allows it. -/
inductive ProducerStep (P : StreamBuf → List UInt8 → Prop) (b : StreamBuf) : StreamBuf → Prop
  | stay : ProducerStep P b b
  | copy (m : ℕ → UInt8)
      (h : ∀ i, b.head ≤ i → i < b.tail → m (i % b.geo.capacity) = b.buf (i % b.geo.capacity)) :
      ProducerStep P b { b with buf := m }
  | hash (x : UInt32) : ProducerStep P b { b with pushHash := x }
  | publish (data : List UInt8) (h : P b data) :
      ProducerStep P b { b with tail := b.tail + data.length, writes := b.writes ++ [data] }

/-- One action of the consumer. -/
inductive ConsumerStep (b : StreamBuf) : StreamBuf → Prop
  | stay : ConsumerStep b b
  | hash (x : UInt32) : ConsumerStep b { b with popHash := x }
  | take (n : ℕ) (h : b.head + n ≤ b.tail) : ConsumerStep b { b with head := b.head + n }

/-- What the producer sees of the consumer: only the head moves. -/
structure ConsumerMoves (b b' : StreamBuf) : Prop where
  geo : b'.geo = b.geo
  buf : b'.buf = b.buf
  tail : b'.tail = b.tail
  writes : b'.writes = b.writes
  fin : b'.finPending = b.finPending
  hash : b'.hashEnabled = b.hashEnabled
  head_le : b.head ≤ b'.head

/-- What the consumer sees of the producer: bytes are added, and the FIN may be set. -/
structure ProducerMoves (b b' : StreamBuf) : Prop where
  geo : b'.geo = b.geo
  head : b'.head = b.head
  hash : b'.hashEnabled = b.hashEnabled
  writes : b.writes <+: b'.writes
  fin : b.finPending → b'.finPending

theorem ConsumerMoves.refl (b : StreamBuf) : ConsumerMoves b b :=
  ⟨rfl, rfl, rfl, rfl, rfl, rfl, le_rfl⟩

theorem ConsumerMoves.trans {b c d : StreamBuf} (h : ConsumerMoves b c) (h' : ConsumerMoves c d) :
    ConsumerMoves b d :=
  ⟨h'.geo.trans h.geo, h'.buf.trans h.buf, h'.tail.trans h.tail, h'.writes.trans h.writes,
    h'.fin.trans h.fin, h'.hash.trans h.hash, h.head_le.trans h'.head_le⟩

theorem ProducerMoves.refl (b : StreamBuf) : ProducerMoves b b :=
  ⟨rfl, rfl, rfl, List.prefix_rfl, id⟩

theorem ProducerMoves.trans {b c d : StreamBuf} (h : ProducerMoves b c) (h' : ProducerMoves c d) :
    ProducerMoves b d :=
  ⟨h'.geo.trans h.geo, h'.head.trans h.head, h'.hash.trans h.hash,
    h.writes.trans h'.writes, fun hf => h'.fin (h.fin hf)⟩

theorem ConsumerStep.moves {b b' : StreamBuf} (h : ConsumerStep b b') : ConsumerMoves b b' := by
  cases h with
  | stay => exact .refl b
  | hash x => exact ⟨rfl, rfl, rfl, rfl, rfl, rfl, le_rfl⟩
  | take n h => exact ⟨rfl, rfl, rfl, rfl, rfl, rfl, Nat.le_add_right _ _⟩

theorem ProducerStep.moves {P : StreamBuf → List UInt8 → Prop} {b b' : StreamBuf}
    (h : ProducerStep P b b') : ProducerMoves b b' := by
  cases h with
  | stay => exact .refl b
  | copy m h => exact ⟨rfl, rfl, rfl, List.prefix_rfl, id⟩
  | hash x => exact ⟨rfl, rfl, rfl, List.prefix_rfl, id⟩
  | publish data h => exact ⟨rfl, rfl, rfl, List.prefix_append _ _, id⟩

/-- The byte history only grows for the consumer. -/
theorem ProducerMoves.bytes {b b' : StreamBuf} (h : ProducerMoves b b') : b.bytes <+: b'.bytes := by
  obtain ⟨r, hr⟩ := h.writes
  rw [StreamBuf.bytes, StreamBuf.bytes, ← hr, List.flatten_append]
  exact List.prefix_append _ _

/-- The contract of a `push` that publishes only what `P` allows. -/
def producer (P : StreamBuf → List UInt8 → Prop) : Contract StreamBuf where
  inv := Wf
  rely := ConsumerMoves
  guar := ProducerStep P
  rely_refl := .refl
  rely_trans := .trans
  guar_refl := fun _ => .stay

/-- The consumer's contract. -/
def consumer : Contract StreamBuf where
  inv := Wf
  rely := ProducerMoves
  guar := ConsumerStep
  rely_refl := .refl
  rely_trans := .trans
  guar_refl := fun _ => .stay

/-! ## Specifications -/

theorem Wf.copy {b : StreamBuf} (w : b.Wf) {m : ℕ → UInt8}
    (h : ∀ i, b.head ≤ i → i < b.tail → m (i % b.geo.capacity) = b.buf (i % b.geo.capacity)) :
    ({ b with buf := m } : StreamBuf).Wf :=
  ⟨w.window.congr h, w.length⟩

/-- Publishing bytes that stand past the tail. -/
theorem Wf.publish {b : StreamBuf} (w : b.Wf) {data : List UInt8}
    (hroom : b.tail + data.length ≤ b.head + b.geo.capacity)
    (h : ∀ j (hj : j < data.length), b.buf ((b.tail + j) % b.geo.capacity) = data[j]) :
    ({ b with tail := b.tail + data.length, writes := b.writes ++ [data] } : StreamBuf).Wf := by
  have hbytes : (b.writes ++ [data]).flatten = b.bytes ++ data := by simp [bytes]
  have hlen : (b.bytes ++ data).length = b.tail + data.length := by
    rw [List.length_append, w.length]
  refine ⟨?_, ?_⟩
  · simp only [bytes, hbytes]
    refine (w.window.append data).publish hroom hlen.ge fun j hj => ?_
    rw [List.getElem?_append_right (by rw [w.length]; omega), w.length, Nat.add_sub_cancel_left,
      List.getElem?_eq_getElem hj, h j hj]
  · simp only [bytes, hbytes]
    exact hlen

/-- The producer's state while `data` stands past the tail of `b`, unpublished. -/
structure Staged (b : StreamBuf) (data : List UInt8) (c : StreamBuf) : Prop where
  moves : c.geo = b.geo ∧ c.tail = b.tail ∧ c.writes = b.writes ∧ c.finPending = b.finPending
  head_le : b.head ≤ c.head
  slots : ∀ j (hj : j < data.length), c.buf ((b.tail + j) % b.geo.capacity) = data[j]

theorem Staged.stable {b c d : StreamBuf} {data : List UInt8} (h : Staged b data c)
    (hm : ConsumerMoves c d) : Staged b data d := by
  obtain ⟨hg, ht, hw, hf⟩ := h.moves
  refine ⟨⟨hm.geo.trans hg, hm.tail.trans ht, hm.writes.trans hw, hm.fin.trans hf⟩,
    h.head_le.trans hm.head_le, fun j hj => ?_⟩
  rw [hm.buf]
  exact h.slots j hj

/-- From `b` the producer has published `data` as one write. -/
structure Committed (b : StreamBuf) (data : List UInt8) (b' : StreamBuf) : Prop where
  geo : b'.geo = b.geo
  tail : b'.tail = b.tail + data.length
  writes : b'.writes = b.writes ++ [data]
  fin : b'.finPending = b.finPending
  head_le : b.head ≤ b'.head

/-- The producer's own fields, which no consumer changes, decide whether `data` may be published. -/
def Allows (P : StreamBuf → List UInt8 → Prop) (b : StreamBuf) (data : List UInt8) : Prop :=
  ∀ b' : StreamBuf, b'.geo = b.geo → b'.writes = b.writes → b'.finPending = b.finPending → P b' data

/-- `commit` publishes `data` as one write when there is room for it at the start: the consumer can
only make more room meanwhile. -/
theorem commit_spec {P : StreamBuf → List UInt8 → Prop} {b : StreamBuf} {data : List UInt8}
    (hb : b.Wf)
    (hP : Allows P b data) (hroom : b.tail + data.length ≤ b.head + b.geo.capacity) :
    wp (producer P) (commit b.geo b.hashEnabled b.tail data)
      (fun _ => Committed b data) b := by
  have hlen : data.length ≤ b.geo.capacity := by
    have := hb.head_le
    omega
  -- the last two actions, once the bytes are in place
  have hpublish : ∀ c, Staged b data c → c.Wf →
      wp (producer P) (when b.hashEnabled
          (modify fun b => { b with pushHash := fnv1aStep b.pushHash data }) >>= fun _ =>
        modify fun b' => { b' with tail := b.tail + data.length, writes := b'.writes ++ [data] })
      (fun _ => Committed b data) c := by
    intro c hc hcw
    have hstore : ∀ c, Staged b data c → wp (producer P)
        (modify fun b' => { b' with tail := b.tail + data.length, writes := b'.writes ++ [data] })
        (fun _ => Committed b data) c := by
      intro c hc
      refine wp_modify fun d hcd hd => ?_
      have hs := hc.stable hcd
      obtain ⟨hg, ht, hw, hf⟩ := hs.moves
      rw [← ht]
      refine ⟨.publish data (hP d hg hw hf), hd.publish ?_ ?_,
        hg, by rw [ht], by rw [hw], hf, hs.head_le⟩
      · have := hs.head_le
        rw [ht, hg]
        omega
      · rw [ht, hg]
        exact hs.slots
    refine wp_when_bind
      (fun _ => wp_modify_bind fun d hcd hd => ⟨.hash _, ⟨hd.window, hd.length⟩, ?_⟩)
      (fun _ => hstore c hc)
    have hs := hc.stable hcd
    exact hstore _ ⟨hs.moves, hs.head_le, hs.slots⟩
  unfold commit
  rw [b.geo.and_mask]
  refine wp_modify_bind fun c hbc hc => ?_
  have hframe : ∀ i, c.head ≤ i → i < c.tail →
      i < b.tail ∧ b.tail + data.length ≤ i + b.geo.capacity := by
    intro i hi hi'
    have := hbc.head_le
    have := hbc.tail
    omega
  have hfirst : ∀ i, c.head ≤ i → i < c.tail →
      copyIn c.buf (b.tail % b.geo.capacity)
        (data.take (firstPart b.geo.capacity b.tail data.length)) (i % c.geo.capacity) =
      c.buf (i % c.geo.capacity) := by
    intro i hi hi'
    rw [hbc.geo]
    exact copyIn_first_frame (hframe i hi hi').1 (hframe i hi hi').2
  refine ⟨.copy _ hfirst, hc.copy hfirst, wp_when_bind (fun hlt => ?_) (fun hge => ?_)⟩
  · refine wp_modify_bind fun d hcd hd => ?_
    have hbuf : copyIn d.buf 0 (data.drop (firstPart b.geo.capacity b.tail data.length)) =
        copyWrapped c.buf b.geo.capacity b.tail data := by
      rw [hcd.buf]
      rfl
    have hsecond : ∀ i, d.head ≤ i → i < d.tail →
        copyIn d.buf 0 (data.drop (firstPart b.geo.capacity b.tail data.length))
          (i % d.geo.capacity) = d.buf (i % d.geo.capacity) := by
      intro i hi hi'
      have h₁ := hcd.head_le
      have h₂ := hcd.tail
      obtain ⟨hlt, hle⟩ := hframe i (by simpa using h₁.trans hi) (by simpa using h₂ ▸ hi')
      rw [hbuf, hcd.buf, hcd.geo, hbc.geo]
      exact copyIn_second_frame hlt hle
    refine ⟨.copy _ hsecond, hd.copy hsecond, hpublish _ ⟨?_, ?_, ?_⟩ (hd.copy hsecond)⟩
    · exact ⟨hcd.geo.trans hbc.geo, hcd.tail.trans hbc.tail, hcd.writes.trans hbc.writes,
        hcd.fin.trans hbc.fin⟩
    · exact hbc.head_le.trans hcd.head_le
    · intro j hj
      dsimp only
      rw [show min (b.geo.capacity - b.tail % b.geo.capacity) data.length =
        firstPart b.geo.capacity b.tail data.length from rfl, hbuf]
      exact copyWrapped_at b.geo.capacity_pos hlen hj
  · refine hpublish _ ⟨⟨hbc.geo, hbc.tail, hbc.writes, hbc.fin⟩, hbc.head_le, fun j hj => ?_⟩
      (hc.copy hfirst)
    have hdrop : data.drop (firstPart b.geo.capacity b.tail data.length) = [] :=
      List.drop_eq_nil_of_le (not_lt.1 hge)
    have := copyWrapped_at (m := c.buf) (t := b.tail) b.geo.capacity_pos hlen hj
    rw [copyWrapped, hdrop, copyIn_nil] at this
    exact this

/-- What a producer finds free when the head it read was `h`. -/
theorem Wf.sub32_diff32 {b : StreamBuf} (w : b.Wf) {t h : ℕ} (ht : t = b.tail) (hh : h = b.head) :
    sub32 b.geo.capacity (diff32 t h) = b.geo.capacity - (b.tail - b.head) := by
  subst ht hh
  have := w.tail_le
  rw [diff32_eq w.head_le w.diff_lt, sub32_eq (by omega) b.geo.capacity_lt]

/-- `push` accepts what was free at the head it read, as one write. -/
theorem push_spec {P : StreamBuf → List UInt8 → Prop} {b : StreamBuf} {data : List UInt8}
    (hdata : data ≠ [])
    (hP : ∀ h, b.head ≤ h →
    Allows P b (data.take (min data.length (b.geo.capacity - (b.tail - h))))) :
    wp (producer P) (push data)
      (fun r b' => ∃ h, b.head ≤ h ∧ h ≤ b'.head ∧
        r = min data.length (b.geo.capacity - (b.tail - h)) ∧
        if r = 0 then ConsumerMoves b b' else Committed b (data.take r) b') b := by
  unfold push
  refine wp_load_bind fun c hbc hc => ?_
  dsimp only
  refine wp_load_bind fun d hcd hd => ?_
  have hbd := hbc.trans hcd
  have hfree : sub32 c.geo.capacity (diff32 c.tail d.head) = b.geo.capacity -
    (b.tail - d.head) := by
    rw [← hcd.geo, ← hbd.geo, ← hbd.tail]
    exact hd.sub32_diff32 hcd.tail.symm rfl
  have hpos := List.length_pos_iff.2 hdata
  rw [hfree]
  split
  · rename_i hzero
    exact ⟨d.head, hbd.head_le, le_rfl, by omega, by simpa using hbd⟩
  · rename_i hfree'
    have hroom : d.tail +
      (data.take (min data.length (b.geo.capacity - (b.tail - d.head)))).length ≤
        d.head + d.geo.capacity := by
      have := hd.head_le
      have := hbd.tail
      rw [List.length_take, hbd.geo]
      omega
    rw [← hcd.geo, ← hcd.hash, ← hcd.tail]
    have hallow := hP d.head hbd.head_le
    refine wp_seq (commit_spec hd
      (fun b' hg hw hf => hallow b' (hg.trans hbd.geo) (hw.trans hbd.writes)
      (hf.trans hbd.fin)) hroom) hd fun _ e _ he => ?_
    refine ⟨d.head, hbd.head_le, he.head_le, rfl, ?_⟩
    rw [if_neg (by omega)]
    exact ⟨he.geo.trans hbd.geo, by rw [he.tail, hbd.tail], by rw [he.writes, hbd.writes],
      he.fin.trans hbd.fin, hbd.head_le.trans he.head_le⟩

/-- With room for all of it, `push` accepts everything. -/
theorem push_fits {P : StreamBuf → List UInt8 → Prop} {b : StreamBuf} {data : List UInt8}
    (hb : b.Wf)
    (hdata : data ≠ []) (hP : Allows P b data)
    (hroom : b.tail + data.length ≤ b.head + b.geo.capacity) :
    wp (producer P) (push data) (fun r b' => r = data.length ∧ Committed b data b') b := by
  have hall : ∀ h, b.head ≤ h → data.take (min data.length (b.geo.capacity - (b.tail - h))) =
    data := by
    intro h hle
    have := hb.head_le
    exact List.take_of_length_le (by omega)
  refine wp_mono (push_spec hdata fun h hle => by rw [hall h hle]; exact hP) hb fun r b' _ h => ?_
  obtain ⟨h, hle, -, hr, hpost⟩ := h
  have hpos := List.length_pos_iff.2 hdata
  have hlen : r = data.length := by
    have := hb.head_le
    omega
  rw [if_neg (by omega), hlen, List.take_length] at hpost
  exact ⟨hlen, hpost⟩

theorem Wf.tail_mono {b b' : StreamBuf} (w : b.Wf) (w' : b'.Wf) (h : ProducerMoves b b') :
    b.tail ≤ b'.tail := by
  rw [← w.length, ← w'.length]
  exact h.bytes.length_le

/-- From `b` the consumer has taken `out`, all that it asked for of what was there at some tail `t`
it read. -/
structure Popped (b : StreamBuf) (maxBytes : ℕ) (out : List UInt8) (b' : StreamBuf) : Prop where
  geo : b'.geo = b.geo
  writes : b.writes <+: b'.writes
  fin : b.finPending → b'.finPending
  head : b'.head = b.head + out.length
  eq : out = (b'.bytes.drop b.head).take out.length
  length : ∃ t, b.tail ≤ t ∧ t ≤ b'.tail ∧ out.length = min maxBytes (t - b.head)

/-- `fetch` takes `n` bytes that were there at the start. -/
theorem fetch_spec {b : StreamBuf} {n : ℕ} (hb : b.Wf) (hn : b.head + n ≤ b.tail) :
    wp consumer (fetch b.geo b.hashEnabled b.head n)
      (fun out b' => b'.geo = b.geo ∧ b.writes <+: b'.writes ∧ (b.finPending → b'.finPending) ∧
        b'.head = b.head + n ∧ out = (b.bytes.drop b.head).take n) b := by
  have hlen := hb.length
  unfold fetch
  rw [b.geo.and_mask]
  refine wp_load_bind fun c hbc hc => wp_load_bind fun d hcd hd => ?_
  have hbd := hbc.trans hcd
  have htc := hb.tail_mono hc hbc
  have htd := hb.tail_mono hd hbd
  -- the two pieces are the slices of the history on both sides of the wrap
  have hout : copyOut c.buf (b.head % b.geo.capacity)
    (min (b.geo.capacity - b.head % b.geo.capacity) n) ++
      copyOut d.buf 0 (n - min (b.geo.capacity - b.head % b.geo.capacity) n) =
      (b.bytes.drop b.head).take n := by
    have h₁ := hc.window.copyOut_first (n := min (b.geo.capacity - b.head % b.geo.capacity) n)
      (by rw [hbc.geo, hbc.head]; omega) (by rw [hbc.head]; omega)
    rw [hbc.geo, hbc.head, take_drop_of_isPrefix hbc.bytes (by omega)] at h₁
    rw [h₁]
    rcases le_or_gt n (b.geo.capacity - b.head % b.geo.capacity) with hle | hlt
    · rw [min_eq_right hle, Nat.sub_self]
      simp [copyOut]
    · have hsum : b.head + (b.geo.capacity - b.head % b.geo.capacity) +
          (n - (b.geo.capacity - b.head % b.geo.capacity)) = b.head + n := by omega
      have h₂ := hd.window.copyOut_second (n := n - (b.geo.capacity - b.head % b.geo.capacity))
        d.geo.capacity_pos (by rw [hbd.geo, hbd.head]; omega)
      rw [hbd.geo, hbd.head, take_drop_of_isPrefix hbd.bytes (by omega)] at h₂
      rw [min_eq_left hlt.le, h₂, take_add_drop, Nat.add_sub_cancel' hlt.le]
  rw [hout]
  -- the head store, with or without the hash update before it
  have hstore : ∀ e, ProducerMoves b e → wp consumer
      (modify (fun b' => { b' with head := b.head + n }) >>= fun _ =>
        pure ((b.bytes.drop b.head).take n))
      (fun out b' => b'.geo = b.geo ∧ b.writes <+: b'.writes ∧ (b.finPending → b'.finPending) ∧
        b'.head = b.head + n ∧ out = (b.bytes.drop b.head).take n) e := by
    intro e hbe
    refine wp_modify_bind fun f hef hf => ?_
    have hbf := hbe.trans hef
    have htf := hb.tail_mono hf hbf
    have hle : f.head + n ≤ f.tail := by
      rw [hbf.head]
      omega
    rw [← hbf.head]
    exact ⟨.take n hle, ⟨hf.window.advance hle, hf.length⟩, hbf.geo, hbf.writes, hbf.fin, rfl,
      by rw [hbf.head]⟩
  refine wp_when_bind
    (fun _ => wp_modify_bind fun e hde he => ⟨.hash _, ⟨he.window, he.length⟩, ?_⟩)
    (fun _ => hstore d hbd)
  have hbe := hbd.trans hde
  exact hstore _ ⟨hbe.geo, hbe.head, hbe.hash, hbe.writes, hbe.fin⟩

/-- `pop` takes from the head everything it asked for that the tail it read covers. -/
theorem pop_spec {b : StreamBuf} {n : ℕ} (hb : b.Wf) : wp consumer (pop n) (Popped b n) b := by
  unfold pop
  refine wp_load_bind fun c hbc hc => ?_
  dsimp only
  refine wp_load_bind fun d hcd hd => ?_
  have hbd := hbc.trans hcd
  have htail := hb.tail_mono hd hbd
  have hhead := hd.head_le
  have hdiff : diff32 d.tail c.head = d.tail - d.head := by
    rw [← hcd.head]
    exact diff32_eq hd.head_le hd.diff_lt
  rw [hdiff]
  split
  · rename_i hzero
    exact ⟨hbd.geo, hbd.writes, hbd.fin, hbd.head, rfl, d.tail, htail, le_rfl, by
      rw [← hbd.head, hzero]
      simp⟩
  · rw [← hcd.geo, ← hcd.hash, ← hcd.head]
    refine wp_mono (fetch_spec hd (n := min n (d.tail - d.head)) (by omega)) hd fun out e he h => ?_
    obtain ⟨hgeo, hwrites, hfin, hhead', hout⟩ := h
    have hlen : out.length = min n (d.tail - d.head) := by
      rw [hout, List.length_take, List.length_drop, hd.length]
      omega
    have hbytes : d.bytes <+: e.bytes := by
      obtain ⟨r, hr⟩ := hwrites
      rw [bytes, bytes, ← hr, List.flatten_append]
      exact List.prefix_append _ _
    refine ⟨hgeo.trans hbd.geo, hbd.writes.trans hwrites, fun h => hfin (hbd.fin h), ?_, ?_,
      d.tail, htail, ?_, ?_⟩
    · rw [hhead', hlen, hbd.head]
    · rw [hlen, ← hbd.head, take_drop_of_isPrefix hbytes (by rw [hd.length]; omega)]
      exact hout
    · rw [← hd.length, ← he.length]
      exact hbytes.length_le
    · rw [hlen, hbd.head]

/-- The consumer reads the FIN flag of the moment. -/
theorem finPendingLoad_spec {b : StreamBuf} : wp consumer finPendingLoad
    (fun f b' => ProducerMoves b b' ∧ b'.finPending = f) b :=
  wp_load fun _ hbc _ => ⟨hbc, rfl⟩

/-- The consumer counts everything up to a tail it read. -/
theorem used_consumer {b : StreamBuf} (hb : b.Wf) : wp consumer used
    (fun n b' => ProducerMoves b b' ∧ ∃ t, b.tail ≤ t ∧ t ≤ b'.tail ∧ n = t - b.head) b := by
  unfold used
  refine wp_load_bind fun c hbc hc => wp_load_bind fun d hcd hd => ?_
  have hbd := hbc.trans hcd
  have hcd' := hc.tail_mono hd hcd
  refine ⟨hbd, c.tail, hb.tail_mono hc hbc, hcd', ?_⟩
  rw [hcd.head, diff32_eq hc.head_le hc.diff_lt, hbc.head]

end StreamBuf

end Aiopquic
