import Aiopquic.Lib.Circular
import Aiopquic.Lib.Interleave

/-!
# The event ring (`spsc_ring.h`)

`SpscRing` is `spsc_ring_t`: a ring of event entries with one producer and one consumer, used in
both directions between the asyncio thread and the picoquic worker. The functions are programs over
the ring, one action for each atomic access and for each access of a slot.

Three fields are history or section variables that no function reads: `log`, the entries ever
published, `writing`, set from a producer's slot write to its tail store, and `claimed`, set while
the consumer has taken the payload out of the head slot and not yet advanced the head.
-/

namespace Aiopquic

open Interleave Interleave.Prog Circular

/-! ## Entries -/

/-- `spsc_event_type_t`. -/
inductive EventType
  | streamData | streamFin | streamReset | stopSending | close | appClose | ready | almostReady
  | datagram | datagramAcked | datagramLost | pathAvailable | pathSuspended | pathDeleted
  | pacingChanged | streamTxDrained | datagramTxDrained | txEventRingDrained | wtStreamDestroy
  | streamDestroy | cnxStack | cnxSnapshot
  | txClose | txStreamReset | txStopSending | txMarkActive | txConnect | txWtOpen
  | txWtCreateStream | txWtClose | txWtDrain | txWtResetStream | txWtDeregister | txWtStopSending
  | txOpenFlowControl | txSetAppFlowControl | txWtSessionCleanup | txMarkDatagramReady
  | txCnxRefresh | txMarkWtDatagramReady | txSetStreamPriority | txWtSetStreamPriority | txWtFin
  | txDgramRingRelease | txSetDatagramPriority | txWtSetDatagramPriority | txSetMaxConnections
  | wtSessionReady | wtSessionRefused | wtSessionClosed | wtSessionDraining | wtStreamData
  | wtStreamFin | wtStreamReset | wtStopSending | wtDatagram | wtNewStream | wtStreamCreated
  | wtNewSession | wtStreamLinkRelease | wtCnxClosed
  deriving DecidableEq, Repr

/-- The `data_buf` pointer of an entry: nothing, a payload the entry owns, or a pointer that belongs
elsewhere. -/
inductive DataBuf
  | null
  | owned (bytes : List UInt8)
  | borrowed (ptr : ℕ)
  deriving DecidableEq, Repr

/-- `spsc_entry_t`. The pointers `cnx` and `streamCtx` are addresses, `0` for `NULL`. -/
structure Entry where
  streamId : ℕ := 0
  eventType : EventType := .streamData
  dataLength : ℕ := 0
  isFin : ℕ := 0
  aux : ℕ := 0
  dataBuf : DataBuf := .null
  cnx : ℕ := 0
  streamCtx : ℕ := 0
  errorCode : ℕ := 0
  deriving DecidableEq, Repr

namespace Entry

/-- The payload an entry owns. -/
def payload (e : Entry) : List UInt8 :=
  match e.dataBuf with
  | .owned bytes => bytes
  | _ => []

/-- The slot that `spsc_ring_push` fills for `entry` and a payload: it owns a copy, or nothing. -/
def withData (entry : Entry) (data : List UInt8) : Entry :=
  { entry with
    dataBuf := if data = [] then .null else .owned data
    dataLength := data.length }

/-- The test under which `spsc_ring_pop` frees the slot's buffer. -/
def Frees (e : Entry) : Prop := e.dataBuf ≠ .null ∧ 0 < e.dataLength

instance (e : Entry) : Decidable e.Frees := inferInstanceAs (Decidable (_ ∧ _))

end Entry

/-! ## The ring -/

/-- `spsc_ring_t`. -/
structure SpscRing where
  tail : ℕ
  head : ℕ
  bytesPending : ℕ
  geo : Geometry
  entries : ℕ → Entry
  /-- History: the entries published, in order. -/
  log : List Entry
  /-- A producer has written a slot and not yet published it. -/
  writing : Bool
  /-- The consumer has emptied the head slot and not yet advanced the head. -/
  claimed : Bool

namespace SpscRing

/-- `spsc_ring_create`, for a capacity that is a power of two. -/
def create (geo : Geometry) : SpscRing where
  tail := 0
  head := 0
  bytesPending := 0
  geo := geo
  entries := fun _ => {}
  log := []
  writing := false
  claimed := false

/-- A producer's write of `e` to the slot of counter `i`. -/
def fill (r : SpscRing) (i : ℕ) (e : Entry) : SpscRing :=
  { r with entries := Function.update r.entries (i &&& r.geo.mask) e, writing := true }

/-- The consumer's write of `e` to the slot of counter `i`, after it took the payload. -/
def claim (r : SpscRing) (i : ℕ) (e : Entry) : SpscRing :=
  { r with entries := Function.update r.entries (i &&& r.geo.mask) e, claimed := true }

/-- The store of a new head, which gives the slot back. -/
def advance (r : SpscRing) (head : ℕ) : SpscRing := { r with head := head, claimed := false }

/-- The store of a new tail, which publishes the slot `e`. -/
def publish (r : SpscRing) (tail : ℕ) (e : Entry) : SpscRing :=
  { r with tail := tail, log := r.log ++ [e], writing := false }

/-- `spsc_ring_push` and `spsc_ring_push_borrowed` from the test for room on: fill the slot, count
its payload, publish the tail. `counted` is what is added to `bytes_pending`. -/
def put (e : Entry) (counted : ℕ) : Prog SpscRing ℤ := do
  let (tail, geo) ← load fun r => (r.tail, r.geo)
  let head ← load (·.head)
  if geo.capacity ≤ diff64 tail head then pure (-1)
  else do
    modify fun r => r.fill tail e
    when (0 < counted) <| modify fun r => { r with bytesPending := r.bytesPending + counted }
    modify fun r => r.publish (tail + 1) e
    pure 0

/-- `spsc_ring_push`. Returns `0`, or `-1` when the ring is full; allocation succeeds. -/
def push (entry : Entry) (data : List UInt8) : Prog SpscRing ℤ :=
  put (entry.withData data) data.length

/-- `spsc_ring_push_borrowed`: the entry goes into the slot as it is and `bytes_pending` is not
touched. -/
def pushBorrowed (entry : Entry) : Prog SpscRing ℤ := put entry 0

/-- `spsc_ring_peek`: the entry at the head, if there is one. -/
def peek : Prog SpscRing (Option Entry) := do
  let (head, geo) ← load fun r => (r.head, r.geo)
  let tail ← load (·.tail)
  if tail ≤ head then pure none
  else do
    let e ← load fun r => r.entries (head &&& geo.mask)
    pure (some e)

/-- `spsc_ring_pop`: free the payload of the head slot if it owns one, then advance the head. -/
def pop : Prog SpscRing Unit := do
  let (head, geo) ← load fun r => (r.head, r.geo)
  let e ← load fun r => r.entries (head &&& geo.mask)
  when e.Frees <| modify fun r => { r with bytesPending := diff64 r.bytesPending e.dataLength }
  when e.Frees <| modify fun r => r.claim head { e with dataBuf := .null }
  modify fun r => r.advance (head + 1)

/-- `spsc_ring_take_data` on the head slot: the consumer becomes the owner of the payload. -/
def takeData (e : Entry) : Prog SpscRing Unit :=
  modify fun r => r.claim r.head { e with dataBuf := .null, dataLength := 0 }

/-- `spsc_ring_count`. -/
def count : Prog SpscRing ℕ := do
  let head ← load (·.head)
  let tail ← load (·.tail)
  pure (diff32 tail head)

theorem peek_reads : Reads peek := by
  unfold peek
  refine reads_load_bind fun p => reads_load_bind fun tail => ?_
  split
  · trivial
  · exact reads_load_bind fun e => trivial

theorem count_reads : Reads count := by
  unfold count
  exact reads_load_bind fun head => reads_load_bind fun tail => trivial

/-! ## The history behind the ring -/

/-- The entries published and not yet popped. -/
def queued (r : SpscRing) : List Entry := r.log.drop r.head

/-- The slots from the head on hold the last published entries, the one the consumer has claimed
excepted, and the tail counts all of them. -/
structure Wf (r : SpscRing) : Prop where
  window : Window r.geo.capacity r.entries (r.head + r.claimed.toNat) r.tail r.log
  length : r.log.length = r.tail
  tail_le : r.tail ≤ r.head + r.geo.capacity
  room : r.writing → r.tail < r.head + r.geo.capacity

theorem create_wf (geo : Geometry) : (create geo).Wf :=
  ⟨Window.empty _ _, rfl, by simp [create], by simp [create]⟩

theorem Wf.head_le {r : SpscRing} (w : r.Wf) : r.head ≤ r.tail :=
  (Nat.le_add_right _ _).trans w.window.head_le

theorem Wf.diff64_eq {r : SpscRing} (w : r.Wf) : diff64 r.tail r.head = r.tail - r.head := by
  have := w.tail_le
  have := r.geo.capacity_lt
  exact Circular.diff64_eq w.head_le (by omega)

theorem Wf.diff32_eq {r : SpscRing} (w : r.Wf) : diff32 r.tail r.head = r.tail - r.head := by
  have := w.tail_le
  have := r.geo.capacity_lt
  exact Circular.diff32_eq w.head_le (by omega)

theorem Wf.queued_length {r : SpscRing} (w : r.Wf) : r.queued.length = r.tail - r.head := by
  rw [queued, List.length_drop, w.length]

/-- The entries in the slots from head to tail. -/
def contents (r : SpscRing) : List Entry :=
  (List.range (r.tail - r.head)).map fun j => r.entries ((r.head + j) &&& r.geo.mask)

/-- The slots hold what the log says is queued. -/
theorem Wf.contents_eq {r : SpscRing} (w : r.Wf) (hc : r.claimed = false) :
    r.contents = r.queued := by
  have hlen := w.queued_length
  refine List.ext_getElem (by simp [contents, hlen]) fun j hj hj' => ?_
  simp only [contents, List.length_map, List.length_range] at hj
  have hslot := w.window.slot (r.head + j) (by simp [hc]) (by omega)
  rw [List.getElem?_eq_getElem (by rw [w.length]; omega)] at hslot
  simp only [contents, List.getElem_map, List.getElem_range, queued, List.getElem_drop,
    r.geo.and_mask]
  exact (Option.some.inj hslot).symm

/-- The head slot holds the oldest queued entry as long as the consumer has not claimed it. -/
theorem Wf.slot_head {r : SpscRing} (w : r.Wf) (hc : r.claimed = false) (h : r.head < r.tail) :
    r.log[r.head]? = some (r.entries (r.head % r.geo.capacity)) :=
  w.window.slot r.head (by simp [hc]) h

/-! ## The two sides -/

/-- One action of a producer that may publish the entry `e` as number `n`, once. -/
inductive ProducerStep (n : ℕ) (e : Entry) (r : SpscRing) : SpscRing → Prop
  | stay : ProducerStep n e r r
  | slot (h : r.tail < r.head + r.geo.capacity) :
      ProducerStep n e r (r.fill r.tail e)
  | count (k : ℕ) : ProducerStep n e r { r with bytesPending := k }
  | publish (h : r.tail = n) : ProducerStep n e r (r.publish (r.tail + 1) e)

/-- One action of a consumer that may advance the head from `h`. -/
inductive ConsumerStep (h : Option ℕ) (r : SpscRing) : SpscRing → Prop
  | stay : ConsumerStep h r r
  | count (k : ℕ) : ConsumerStep h r { r with bytesPending := k }
  | claim (e : Entry) (hlt : r.head < r.tail) :
      ConsumerStep h r (r.claim r.head e)
  | advance (hh : h = some r.head) (hlt : r.head < r.tail) :
      ConsumerStep h r (r.advance (r.head + 1))

/-- What a producer sees of the consumer: the head grows and the slot at the tail is left alone. -/
structure ConsumerMoves (r r' : SpscRing) : Prop where
  geo : r'.geo = r.geo
  tail : r'.tail = r.tail
  log : r'.log = r.log
  writing : r'.writing = r.writing
  head_le : r.head ≤ r'.head
  slot : r.tail < r.head + r.geo.capacity →
    r'.entries (r.tail % r.geo.capacity) = r.entries (r.tail % r.geo.capacity)

/-- What the consumer sees of a producer: the log grows. -/
structure ProducerMoves (r r' : SpscRing) : Prop where
  geo : r'.geo = r.geo
  head : r'.head = r.head
  claimed : r'.claimed = r.claimed
  log : r.log <+: r'.log

theorem ConsumerMoves.refl (r : SpscRing) : ConsumerMoves r r :=
  ⟨rfl, rfl, rfl, rfl, le_rfl, fun _ => rfl⟩

theorem ConsumerMoves.trans {r s t : SpscRing} (h : ConsumerMoves r s) (h' : ConsumerMoves s t) :
    ConsumerMoves r t := by
  refine ⟨h'.geo.trans h.geo, h'.tail.trans h.tail, h'.log.trans h.log, h'.writing.trans h.writing,
    h.head_le.trans h'.head_le, fun hlt => ?_⟩
  have hslot := h'.slot (by rw [h.tail, h.geo]; have := h.head_le; omega)
  rw [h.tail, h.geo] at hslot
  exact hslot.trans (h.slot hlt)

theorem ProducerMoves.refl (r : SpscRing) : ProducerMoves r r := ⟨rfl, rfl, rfl, List.prefix_rfl⟩

theorem ProducerMoves.trans {r s t : SpscRing} (h : ProducerMoves r s) (h' : ProducerMoves s t) :
    ProducerMoves r t :=
  ⟨h'.geo.trans h.geo, h'.head.trans h.head, h'.claimed.trans h.claimed, h.log.trans h'.log⟩

theorem ConsumerStep.moves {h : Option ℕ} {r r' : SpscRing} (hs : ConsumerStep h r r') :
    ConsumerMoves r r' := by
  cases hs with
  | stay => exact .refl r
  | count k => exact ⟨rfl, rfl, rfl, rfl, le_rfl, fun _ => rfl⟩
  | claim e hlt =>
    refine ⟨rfl, rfl, rfl, rfl, le_rfl, fun hroom => ?_⟩
    have hne := slot_ne hlt hroom
    simp [SpscRing.claim, r.geo.and_mask, Function.update_of_ne hne.symm]
  | advance hh hlt => exact ⟨rfl, rfl, rfl, rfl, Nat.le_succ _, fun _ => rfl⟩

theorem ProducerStep.moves {n : ℕ} {e : Entry} {r r' : SpscRing} (hs : ProducerStep n e r r') :
    ProducerMoves r r' := by
  cases hs with
  | stay => exact .refl r
  | slot h => exact ⟨rfl, rfl, rfl, List.prefix_rfl⟩
  | count k => exact ⟨rfl, rfl, rfl, List.prefix_rfl⟩
  | publish h => exact ⟨rfl, rfl, rfl, List.prefix_append _ _⟩

/-- The contract of a producer that publishes `e` as entry number `n`. -/
def producer (n : ℕ) (e : Entry) : Contract SpscRing where
  inv := Wf
  rely := ConsumerMoves
  guar := ProducerStep n e
  rely_refl := .refl
  rely_trans := .trans
  guar_refl := fun _ => .stay

/-- The contract of a consumer that pops entry number `h`, or none. -/
def consumer (h : Option ℕ) : Contract SpscRing where
  inv := Wf
  rely := ProducerMoves
  guar := ConsumerStep h
  rely_refl := .refl
  rely_trans := .trans
  guar_refl := fun _ => .stay

/-! ## Specifications -/

/-- Writing the free slot at the tail. -/
theorem Wf.update_tail {r : SpscRing} (w : r.Wf) (h : r.tail < r.head + r.geo.capacity)
    (e : Entry) :
    Window r.geo.capacity (Function.update r.entries (r.tail &&& r.geo.mask) e)
      (r.head + r.claimed.toNat) r.tail r.log := by
  refine w.window.congr fun i hi hi' => ?_
  have hne : i % r.geo.capacity ≠ r.tail % r.geo.capacity := slot_ne hi' (by omega)
  rw [r.geo.and_mask]
  exact Function.update_of_ne hne _ _

theorem Wf.fill {r : SpscRing} (w : r.Wf) (h : r.tail < r.head + r.geo.capacity) (e : Entry) :
    (r.fill r.tail e).Wf :=
  ⟨w.update_tail h e, w.length, w.tail_le, fun _ => h⟩

/-- Publishing the slot at the tail. -/
theorem Wf.window_publish {r : SpscRing} (w : r.Wf) (h : r.tail < r.head + r.geo.capacity)
    {e : Entry}
    (he : r.entries (r.tail % r.geo.capacity) = e) :
    Window r.geo.capacity r.entries (r.head + r.claimed.toNat) (r.tail + 1) (r.log ++ [e]) := by
  refine (w.window.append [e]).publish (by omega) (by simp [w.length]) fun j hj => ?_
  obtain rfl : j = 0 := by omega
  rw [Nat.add_zero, ← w.length, List.getElem?_concat_length, w.length, he]

theorem Wf.publish {r : SpscRing} (w : r.Wf) (h : r.tail < r.head + r.geo.capacity) {e : Entry}
    (he : r.entries (r.tail % r.geo.capacity) = e) : (r.publish (r.tail + 1) e).Wf :=
  ⟨w.window_publish h he, by simp [SpscRing.publish, w.length], h, by simp [SpscRing.publish]⟩

/-- From `r` the producer has published `e`. -/
structure Put (r : SpscRing) (e : Entry) (r' : SpscRing) : Prop where
  geo : r'.geo = r.geo
  log : r'.log = r.log ++ [e]
  head_le : r.head ≤ r'.head
  writing : r'.writing = false

/-- `put` publishes the entry, unless the ring was full when it began. -/
theorem put_spec {r : SpscRing} {e : Entry} {k : ℕ} (hr : r.Wf) :
    wp (producer r.tail e) (put e k)
      (fun rc r' => rc = 0 ∧ Put r e r' ∨
        rc = -1 ∧ ConsumerMoves r r' ∧ r.tail = r.head + r.geo.capacity) r := by
  unfold put
  refine wp_load_bind fun s hrs hs => ?_
  dsimp only
  refine wp_load_bind fun t hst ht => ?_
  have hrt := hrs.trans hst
  rw [← hst.tail, ← hst.geo, ht.diff64_eq]
  split
  · rename_i hfull
    refine .inr ⟨rfl, hrt, ?_⟩
    have := hr.tail_le
    have := hrt.head_le
    have hle := ht.head_le
    rw [hrt.tail] at hle
    rw [hrt.geo, hrt.tail] at hfull
    omega
  · rename_i hroom
    have hlt : t.tail < t.head + t.geo.capacity := by
      have := ht.head_le
      omega
    -- the tail store, from any state in which the slot is filled
    have hpub : ∀ u, u.geo = r.geo → u.tail = r.tail → u.log = r.log → r.head ≤ u.head →
        u.tail < u.head + u.geo.capacity → u.entries (u.tail % u.geo.capacity) = e →
        wp (producer r.tail e) (modify (fun r' => r'.publish (t.tail + 1) e) >>= fun _ => pure 0)
          (fun rc r' => rc = 0 ∧ Put r e r' ∨
            rc = -1 ∧ ConsumerMoves r r' ∧ r.tail = r.head + r.geo.capacity) u := by
      intro u hg htl hlog hhd hlt' he
      refine wp_modify_bind fun v huv hv => ?_
      have hslot := huv.slot hlt'
      rw [he, ← huv.tail, ← huv.geo] at hslot
      have htail : v.tail = t.tail := by rw [huv.tail, htl, hrt.tail]
      have hroom' : v.tail < v.head + v.geo.capacity := by
        rw [huv.tail, huv.geo]
        have := huv.head_le
        omega
      rw [← htail]
      refine ⟨.publish (by rw [huv.tail, htl]), hv.publish hroom' hslot, .inl ⟨rfl, ?_⟩⟩
      exact ⟨huv.geo.trans hg, by
        simp [SpscRing.publish, huv.log, hlog], hhd.trans huv.head_le, rfl⟩
    refine wp_modify_bind fun u htu hu => ?_
    have hru := hrt.trans htu
    have hlt' : u.tail < u.head + u.geo.capacity := by
      rw [htu.tail, htu.geo]
      have := htu.head_le
      omega
    rw [← htu.tail]
    refine ⟨.slot hlt', hu.fill hlt' e, ?_⟩
    rw [htu.tail]
    refine wp_when_bind (fun _ => wp_modify_bind fun v huv hv => ?_) (fun _ => ?_)
    · refine ⟨.count _, ⟨hv.window, hv.length, hv.tail_le, hv.room⟩, ?_⟩
      have hslot := huv.slot (hlt')
      have hgeo : v.geo = u.geo := huv.geo
      have htail : v.tail = u.tail := huv.tail
      refine hpub _ (hgeo.trans hru.geo) (htail.trans hru.tail) (huv.log.trans hru.log)
        (hru.head_le.trans huv.head_le) ?_ ?_
      · have : u.head ≤ v.head := huv.head_le
        simp only [hgeo, htail]
        omega
      · simp only [hgeo, htail]
        simpa [SpscRing.fill, u.geo.and_mask, htu.tail] using hslot
    · refine hpub _ hru.geo hru.tail hru.log hru.head_le hlt' ?_
      simp [SpscRing.fill, u.geo.and_mask, htu.tail]

/-- `peek` returns the oldest queued entry, and nothing only if nothing was queued at the start. -/
theorem peek_spec {r : SpscRing} {h : Option ℕ} (hr : r.Wf) (hc : r.claimed = false) :
    wp (consumer h) peek
      (fun o r' => ProducerMoves r r' ∧ match o with
        | some e => r'.log[r.head]? = some e
        | none => r.head = r.tail) r := by
  unfold peek
  refine wp_load_bind fun s hrs hs => ?_
  dsimp only
  refine wp_load_bind fun t hst ht => ?_
  have hrt := hrs.trans hst
  have hlen := hrt.log.length_le
  rw [hr.length, ht.length] at hlen
  split
  · rename_i hle
    refine ⟨hrt, ?_⟩
    have := hr.head_le
    rw [hrs.head] at hle
    show r.head = r.tail
    omega
  · rename_i hlt
    refine wp_load_bind fun u htu hu => ?_
    have hru := hrt.trans htu
    have hlen' := htu.log.length_le
    rw [ht.length, hu.length] at hlen'
    refine ⟨hru, ?_⟩
    rw [hrs.geo, ← hru.geo, u.geo.and_mask, hrs.head, ← hru.head]
    rw [hrs.head, ← hru.head] at hlt
    exact hu.slot_head (hru.claimed.trans hc) (by omega)

theorem Wf.claim {r : SpscRing} (w : r.Wf) (hlt : r.head < r.tail) (e : Entry) :
    (r.claim r.head e).Wf := by
  have htl := w.tail_le
  have hc : r.claimed.toNat ≤ 1 := Bool.toNat_le r.claimed
  refine ⟨⟨hlt, ?_, w.window.tail_le_length, fun i hi hi' => ?_⟩, w.length, w.tail_le, w.room⟩
  · show r.tail ≤ r.head + 1 + r.geo.capacity
    omega
  · have hi₁ : r.head + 1 ≤ i := hi
    have hi₂ : i < r.tail := hi'
    have hne : i % r.geo.capacity ≠ r.head % r.geo.capacity := (slot_ne (by omega) (by omega)).symm
    simp only [SpscRing.claim, r.geo.and_mask, Function.update_of_ne hne]
    exact w.window.slot i (by omega) hi₂

theorem Wf.advance {r : SpscRing} (w : r.Wf) (hlt : r.head < r.tail) :
    (r.advance (r.head + 1)).Wf := by
  have htl := w.tail_le
  have hc : r.claimed.toNat ≤ 1 := Bool.toNat_le r.claimed
  refine ⟨⟨hlt, ?_, w.window.tail_le_length, fun i hi hi' => w.window.slot i ?_ hi'⟩, w.length, ?_,
    fun hwr => ?_⟩
  · show r.tail ≤ r.head + 1 + 0 + r.geo.capacity
    omega
  · have hi₁ : r.head + 1 ≤ i := hi
    omega
  · show r.tail ≤ r.head + 1 + r.geo.capacity
    omega
  · have := w.room hwr
    show r.tail < r.head + 1 + r.geo.capacity
    omega

theorem ProducerMoves.nonempty {r s : SpscRing} (h : ProducerMoves r s) (hr : r.Wf) (hs : s.Wf)
    (hlt : r.head < r.tail) : s.head < s.tail := by
  have hlen := h.log.length_le
  rw [hr.length, hs.length] at hlen
  rw [h.head]
  omega

/-- From `r` the consumer has popped one entry. -/
structure Popped (r r' : SpscRing) : Prop where
  geo : r'.geo = r.geo
  head : r'.head = r.head + 1
  log : r.log <+: r'.log
  claimed : r'.claimed = false

/-- `pop` advances the head by one. -/
theorem pop_spec {r : SpscRing} (hr : r.Wf) (hlt : r.head < r.tail) :
    wp (consumer (some r.head)) pop (fun _ => Popped r) r := by
  -- the head store, claimed or not
  have hstore : ∀ s, s.head = r.head → s.geo = r.geo → r.log <+: s.log → s.Wf → s.head < s.tail →
      wp (consumer (some r.head)) (modify fun s' => s'.advance (r.head + 1))
        (fun _ => Popped r) s := by
    intro s hh hg hl hs hlt'
    refine wp_modify fun t hst ht => ?_
    have hhead : t.head = r.head := hst.head.trans hh
    have hlt'' := hst.nonempty hs ht hlt'
    rw [← hhead]
    exact ⟨.advance rfl hlt'', ht.advance hlt'', hst.geo.trans hg, by rw [← hhead]; rfl,
      hl.trans hst.log, rfl⟩
  unfold pop
  refine wp_load_bind fun s hrs hs => ?_
  dsimp only
  refine wp_load_bind fun t hst ht => ?_
  have hrt := hrs.trans hst
  rw [hrs.head, hrs.geo]
  generalize t.entries (r.head &&& r.geo.mask) = e
  refine wp_when_bind (fun hf => ?_) (fun hf => ?_)
  · refine wp_modify_bind fun u htu hu =>
      ⟨.count _, ⟨hu.window, hu.length, hu.tail_le, hu.room⟩, wp_when_bind (fun _ => ?_)
        (absurd hf)⟩
    have hru := hrt.trans htu
    refine wp_modify_bind fun v huv hv => ?_
    have hrv : ProducerMoves r v := hru.trans ⟨huv.geo, huv.head, huv.claimed, huv.log⟩
    have hlt' := hrv.nonempty hr hv hlt
    rw [← hrv.head]
    refine ⟨.claim _ hlt', hv.claim hlt' _, ?_⟩
    have := hstore (v.claim v.head { e with dataBuf := .null }) hrv.head hrv.geo hrv.log
      (hv.claim hlt' _) hlt'
    rw [hrv.head] at this ⊢
    exact this
  · exact wp_when_bind (fun hf' => absurd hf' hf)
      (fun _ => hstore t hrt.head hrt.geo hrt.log ht (hrt.nonempty hr ht hlt))

/-- `takeData` leaves the queue as it is. -/
theorem takeData_spec {r : SpscRing} {h : Option ℕ} {e : Entry} (hr : r.Wf)
    (hlt : r.head < r.tail) :
    wp (consumer h) (takeData e) (fun _ r' => r'.geo = r.geo ∧ r'.head = r.head ∧ r.log <+: r'.log)
    r := by
  refine wp_modify fun s hrs hs => ?_
  have hlt' := hrs.nonempty hr hs hlt
  exact ⟨.claim _ hlt', hs.claim hlt' _, hrs.geo, hrs.head, hrs.log⟩

/-- A producer counts at least what is queued, and at most what was queued at the start. -/
theorem count_producer {r : SpscRing} {n : ℕ} {e : Entry} : wp (producer n e) count
    (fun k r' => ConsumerMoves r r' ∧ r'.tail - r'.head ≤ k ∧ k ≤ r.tail - r.head) r := by
  unfold count
  refine wp_load_bind fun s hrs hs => wp_load_bind fun t hst ht => ⟨hrs.trans hst, ?_⟩
  have hle := hs.head_le
  have hdiff := hs.diff32_eq
  have h₁ := hst.head_le
  have h₂ := hrs.head_le
  have h₃ := hrs.tail
  rw [hst.tail, hdiff]
  omega

/-- The consumer's count covers what was queued at the start, and is covered by what is queued
now. -/
theorem count_spec {r : SpscRing} {h : Option ℕ} (hr : r.Wf) :
    wp (consumer h) count
      (fun n r' => ProducerMoves r r' ∧ r.tail - r.head ≤ n ∧ n ≤ r'.tail - r'.head) r := by
  unfold count
  refine wp_load_bind fun s hrs hs => wp_load_bind fun t hst ht => ?_
  have hrt := hrs.trans hst
  have hlen := hrt.log.length_le
  rw [hr.length, ht.length] at hlen
  rw [← hst.head, ht.diff32_eq]
  refine ⟨hrt, ?_, le_rfl⟩
  rw [hrt.head]
  omega

end SpscRing

end Aiopquic
