import Aiopquic.Lib.Erasure
import Aiopquic.RxCredit

/-!
# The RX ring and the window (`stream_buf.h`, `_transport.pyx`)

`start` is given one number for two purposes. Rounded up to a power of two it becomes the size of
each stream's RX ring; as it is, it becomes the window in the transport parameters, so that the peer
never has more in flight than the ring holds.

What a ring has free is `capacity - (uint32_t)(tail - head)`, in 32 bits. `RoomWatch` is a ring with
the history of these expressions: the three values each of them was computed from.
-/

namespace Aiopquic

open Interleave Interleave.Prog Circular

/-! ## `start` -/

/-- The fields of `picoquic_tp_t` that `start` writes. -/
structure TransportParameters where
  maxDatagramFrameSize : ℕ
  initialMaxStreamDataBidiLocal : ℕ
  initialMaxStreamDataBidiRemote : ℕ
  initialMaxStreamDataUni : ℕ
  initialMaxData : ℕ
  initialMaxStreamIdUnidir : ℕ
  initialMaxStreamIdBidir : ℕ
  isResetStreamAtEnabled : Bool
  deriving DecidableEq, Repr

/-- The arguments of `start` that the transport parameters depend on. -/
structure StartArgs where
  rxDataRingCap : UInt32
  maxDatagramFrameSize : UInt32 := 0
  initialMaxData : UInt64 := 0
  initialMaxStreamsUni : UInt64 := 0
  initialMaxStreamsBidi : UInt64 := 0
  resetStreamAt : Bool := false

namespace StartArgs

variable (a : StartArgs)

/-- The values that are given replace the defaults. -/
def override (tp : TransportParameters) : TransportParameters :=
  let tp := if 0 < a.maxDatagramFrameSize
    then { tp with maxDatagramFrameSize := a.maxDatagramFrameSize.toNat } else tp
  let tp := if 0 < a.rxDataRingCap then
    { tp with
      initialMaxStreamDataBidiLocal := a.rxDataRingCap.toNat
      initialMaxStreamDataBidiRemote := a.rxDataRingCap.toNat
      initialMaxStreamDataUni := a.rxDataRingCap.toNat }
    else tp
  let tp := if 0 < a.initialMaxData then { tp with initialMaxData := a.initialMaxData.toNat }
    else tp
  let tp := if 0 < a.initialMaxStreamsUni then
    { tp with initialMaxStreamIdUnidir := a.initialMaxStreamsUni.toNat } else tp
  if 0 < a.initialMaxStreamsBidi
    then { tp with initialMaxStreamIdBidir := a.initialMaxStreamsBidi.toNat } else tp

/-- The default transport parameters once `start` has set them. `cur` is what
`picoquic_get_default_tp` returns; it may be `NULL`. -/
def transportParameters (cur : Option TransportParameters) : Option TransportParameters :=
  let cur := if 0 < a.maxDatagramFrameSize ∨ 0 < a.rxDataRingCap ∨ 0 < a.initialMaxData ∨
    0 < a.initialMaxStreamsUni ∨ 0 < a.initialMaxStreamsBidi then cur.map a.override else cur
  if a.resetStreamAt then cur.map fun tp => { tp with isResetStreamAtEnabled := true } else cur

end StartArgs

/-- `ctx->rx_data_ring_cap`, after a `start` with the argument `rxDataRingCap`. -/
def ctxRxDataRingCap (rxDataRingCap : UInt32) : UInt32 :=
  if 0 < rxDataRingCap then .ofNat (ceilPow2U32 rxDataRingCap) else 0

/-- `AIOPQUIC_RX_DATA_RING_CAP_DEFAULT`. -/
def rxDataRingCapDefault : UInt32 := (1 : UInt32) <<< 22

/-- `advertise_cap` and `physical_cap`, what the first callback of a stream passes on to
`aiopquic_stream_buf_create`. -/
def physicalCap (rxDataRingCap : UInt32) : UInt32 :=
  if 0 < ctxRxDataRingCap rxDataRingCap then ctxRxDataRingCap rxDataRingCap
    else rxDataRingCapDefault

/-- The capacity of a stream's RX ring. -/
def rxRingCapacity (rxDataRingCap : UInt32) : ℕ :=
  (StreamBuf.create (physicalCap rxDataRingCap) false).geo.capacity

/-- It is the capacity that the receive credit counts on. -/
theorem rxRingCapacity_eq (r : CreditSite) : rxRingCapacity r.rxDataRingCap = r.cap := rfl

theorem rxRingCapacity_pow2 (rxDataRingCap : UInt32) :
    ∃ k, rxRingCapacity rxDataRingCap = 2 ^ k := by
  obtain ⟨k, -, hk⟩ := (StreamBuf.create (physicalCap rxDataRingCap) false).geo.pow2
  exact ⟨k, hk⟩

/-- The second rounding changes nothing. -/
theorem rxRingCapacity_of_pos {rxDataRingCap : UInt32} (h : 0 < rxDataRingCap) :
    rxRingCapacity rxDataRingCap = ceilPow2U32 rxDataRingCap := by
  obtain ⟨k, hk, hpow⟩ := ceilPow2U32_pow2 rxDataRingCap
  have hlt : ceilPow2U32 rxDataRingCap < 2 ^ 32 := by
    rw [hpow]
    exact Nat.pow_lt_pow_right (by omega) (by omega)
  have hcap : (ctxRxDataRingCap rxDataRingCap).toNat = ceilPow2U32 rxDataRingCap := by
    rw [ctxRxDataRingCap, if_pos h]
    exact UInt32.toNat_ofNat_of_lt' hlt
  have hpos : 0 < ctxRxDataRingCap rxDataRingCap := by
    rw [UInt32.lt_iff_toNat_lt, hcap, hpow]
    exact Nat.two_pow_pos k
  show ceilPow2U32 (physicalCap rxDataRingCap) = _
  rw [physicalCap, if_pos hpos, ceilPow2U32_of_pow2 (hcap.trans hpow), hcap]

/-- The rounding ends at `2 ^ 31`. -/
theorem ceilPow2U32_le (n : UInt32) : ceilPow2U32 n ≤ 2 ^ 31 := by
  obtain ⟨k, hk, hpow⟩ := ceilPow2U32_pow2 n
  rw [hpow]
  exact Nat.pow_le_pow_right (by omega) hk

/-! ## The room in a ring -/

/-- `aiopquic_stream_buf_free`. -/
def StreamBuf.free : Prog StreamBuf ℕ := do
  let (tail, capacity) ← load fun b => (b.tail, b.geo.capacity)
  let head ← load (·.head)
  pure (sub32 capacity (diff32 tail head))

/-- What each thread may call on a ring: the worker pushes, the asyncio thread pops. -/
inductive RingMenu : Thread → StreamBuf → Prog StreamBuf Unit → Prop
  | push (b : StreamBuf) (data : List UInt8) :
      RingMenu .worker b (StreamBuf.push data >>= fun _ => pure ())
  | pop (b : StreamBuf) (maxBytes : ℕ) : RingMenu .asyncio b
    (StreamBuf.pop maxBytes >>= fun _ => pure ())
  | free (b : StreamBuf) (i : Thread) : RingMenu i b (StreamBuf.free >>= fun _ => pure ())

/-- The values of one expression `capacity - (uint32_t)(tail - head)`, or of `(uint32_t)(tail -
head)` alone. -/
structure RoomSum where
  capacity : ℕ
  tail : ℕ
  head : ℕ
  deriving DecidableEq, Repr

/-- Neither subtraction wraps, and nothing is cut off. -/
structure RoomSum.Exact (r : RoomSum) : Prop where
  head_le : r.head ≤ r.tail
  used : diff32 r.tail r.head = r.tail - r.head
  used_le : diff32 r.tail r.head ≤ r.capacity
  room : sub32 r.capacity (diff32 r.tail r.head) = r.capacity - (r.tail - r.head)

/-- A ring with its history. -/
structure RoomWatch where
  buf : StreamBuf
  sums : List RoomSum := []

namespace RoomWatch

def bufLoc : Loc RoomWatch StreamBuf where
  get := (·.buf)
  set := fun buf s => { s with buf := buf }
  get_set := fun _ _ => rfl

/-- Note an expression. -/
def see (r : RoomSum) (s : RoomWatch) : RoomWatch := { s with sums := s.sums ++ [r] }

/-- `aiopquic_stream_buf_push`. -/
def push (data : List UInt8) : Prog RoomWatch ℕ := do
  let (tail, geo, hash) ← load fun s => (s.buf.tail, s.buf.geo, s.buf.hashEnabled)
  let head ← rmw (fun s => s.see ⟨geo.capacity, tail, s.buf.head⟩) (·.buf.head)
  let freeBytes := sub32 geo.capacity (diff32 tail head)
  if freeBytes = 0 then pure 0
  else do
    let toWrite := min data.length freeBytes
    (StreamBuf.commit geo hash tail (data.take toWrite)).on bufLoc
    pure toWrite

/-- `aiopquic_stream_buf_pop`. -/
def pop (maxBytes : ℕ) : Prog RoomWatch (List UInt8) := do
  let (head, geo, hash) ← load fun s => (s.buf.head, s.buf.geo, s.buf.hashEnabled)
  let tail ← rmw (fun s => s.see ⟨geo.capacity, s.buf.tail, head⟩) (·.buf.tail)
  let available := diff32 tail head
  if available = 0 then pure []
  else (StreamBuf.fetch geo hash head (min maxBytes available)).on bufLoc

/-- `aiopquic_stream_buf_free`. -/
def free : Prog RoomWatch ℕ := do
  let (tail, capacity) ← load fun s => (s.buf.tail, s.buf.geo.capacity)
  let head ← rmw (fun s => s.see ⟨capacity, tail, s.buf.head⟩) (·.buf.head)
  pure (sub32 capacity (diff32 tail head))

inductive Menu : Thread → RoomWatch → Prog RoomWatch Unit → Prop
  | push (s : RoomWatch) (data : List UInt8) : Menu .worker s (push data >>= fun _ => pure ())
  | pop (s : RoomWatch) (maxBytes : ℕ) : Menu .asyncio s (pop maxBytes >>= fun _ => pure ())
  | free (s : RoomWatch) (i : Thread) : Menu i s (free >>= fun _ => pure ())

/-- A stream's RX ring after a `start` with the argument `rxDataRingCap`. -/
def init (rxDataRingCap : UInt32) (hash : Bool) : RoomWatch :=
  { buf := .create (physicalCap rxDataRingCap) hash }

/-! ### The history can be forgotten -/

theorem push_erases (data : List UInt8) : Erases (·.buf) (push data) (StreamBuf.push data) := by
  refine erases_bind (erases_load fun b : StreamBuf => (b.tail, b.geo, b.hashEnabled))
    fun ⟨tail, geo, hash⟩ => ?_
  refine erases_bind (erases_rmw (g := fun b : StreamBuf => b.head) fun _ => rfl) fun head => ?_
  dsimp only
  split
  · exact erases_ret 0
  · exact erases_bind (erases_on bufLoc _) fun _ => erases_ret _

theorem pop_erases (maxBytes : ℕ) : Erases (·.buf) (pop maxBytes) (StreamBuf.pop maxBytes) := by
  refine erases_bind (erases_load fun b : StreamBuf => (b.head, b.geo, b.hashEnabled))
    fun ⟨head, geo, hash⟩ => ?_
  refine erases_bind (erases_rmw (g := fun b : StreamBuf => b.tail) fun _ => rfl) fun tail => ?_
  dsimp only
  split
  · exact erases_ret []
  · exact erases_on bufLoc _

theorem free_erases : Erases (·.buf) free StreamBuf.free := by
  refine erases_bind (erases_load fun b : StreamBuf => (b.tail, b.geo.capacity))
    fun ⟨tail, capacity⟩ => ?_
  exact erases_bind (erases_rmw (g := fun b : StreamBuf => b.head) fun _ => rfl) fun head =>
    erases_ret _

/-- Every run of the ring is one whose expressions are noted. -/
theorem reachable_ring {s : RoomWatch} {c' : Config Thread StreamBuf}
    (h : Reachable RingMenu s.buf c') :
    ∃ c, Reachable Menu s c ∧ c.mem.buf = c'.mem ∧ ∀ i, Erases (·.buf) (c.prog i) (c'.prog i) := by
  refine h.carry fun i s q hq => ?_
  cases hq with
  | push _ data => exact ⟨_, .push s data, erases_bind (push_erases data) fun _ => erases_ret ()⟩
  | pop _ maxBytes =>
    exact ⟨_, .pop s maxBytes, erases_bind (pop_erases maxBytes) fun _ =>
      erases_ret ()⟩
  | free _ i => exact ⟨_, .free s i, erases_bind free_erases fun _ => erases_ret ()⟩

/-! ### The proof outline -/

/-- What the counters of one state give is exact. -/
theorem exact_of_wf {b : StreamBuf} (w : b.Wf) :
    RoomSum.Exact ⟨b.geo.capacity, b.tail, b.head⟩ := by
  have hle := w.tail_le
  have hdiff := diff32_eq w.head_le w.diff_lt
  refine ⟨w.head_le, hdiff, ?_, w.sub32_diff32 rfl rfl⟩
  show diff32 b.tail b.head ≤ b.geo.capacity
  omega

/-- What holds between any two steps. -/
structure Inv (s : RoomWatch) : Prop where
  buf : s.buf.Wf
  sums : ∀ r ∈ s.sums, r.Exact

/-- The rely–guarantee outline. -/
def outline : Outline Menu :=
  duo Inv (fun s t => StreamBuf.ProducerMoves s.buf t.buf)
    (fun s t => StreamBuf.ConsumerMoves s.buf t.buf)
    (fun _ => True) (fun _ => True) (fun s => .refl s.buf) (fun h h' => h.trans h')
      (fun s => .refl s.buf)
    (fun h h' => h.trans h') (fun _ _ _ => trivial) (fun _ _ _ => trivial)

variable {s t : RoomWatch}

theorem Inv.see (h : Inv s) {r : RoomSum} (hr : r.Exact) : Inv (s.see r) := by
  refine ⟨h.buf, fun x hx => ?_⟩
  rcases List.mem_append.1 hx with hx | hx
  · exact h.sums x hx
  · obtain rfl := List.mem_singleton.1 hx
    exact hr

theorem embeds_commit :
    Embeds (outline.contract .worker) bufLoc (StreamBuf.producer fun _ _ => True)
    (fun _ => True) where
  inv := fun s hs => hs.buf
  rely := fun s t _ hm _ => ⟨hm, trivial⟩
  step := fun s buf hs _ hg hbuf => ⟨hg.moves, ⟨hbuf, hs.sums⟩, trivial⟩

theorem embeds_fetch : Embeds (outline.contract .asyncio) bufLoc StreamBuf.consumer
    (fun _ => True) where
  inv := fun s hs => hs.buf
  rely := fun s t _ hm _ => ⟨hm, trivial⟩
  step := fun s buf hs _ hg hbuf => ⟨hg.moves, ⟨hbuf, hs.sums⟩, trivial⟩

theorem push_spec (data : List UInt8) :
    wp (outline.contract .worker) (push data) (fun _ _ => True) s := by
  unfold push
  refine wp_load_bind fun t hst ht => ?_
  dsimp only
  refine wp_rmw_bind fun u htu hu => ?_
  have hm : StreamBuf.ConsumerMoves t.buf u.buf := htu
  have hexact := exact_of_wf hu.buf
  have hroom : sub32 u.buf.geo.capacity (diff32 u.buf.tail u.buf.head) =
      u.buf.geo.capacity - (u.buf.tail - u.buf.head) := hexact.room
  rw [← hm.geo, ← hm.tail, ← hm.hash]
  refine ⟨StreamBuf.ProducerMoves.refl u.buf, hu.see hexact, ?_⟩
  rw [hroom]
  split
  · trivial
  · refine wp_seq (wp_on embeds_commit trivial
      (StreamBuf.commit_spec hu.buf (fun _ _ _ _ => trivial) ?_))
      (hu.see hexact) fun _ _ _ _ => trivial
    have := hu.buf.head_le
    rw [List.length_take]
    omega

theorem pop_spec (maxBytes : ℕ) :
    wp (outline.contract .asyncio) (pop maxBytes) (fun _ _ => True) s := by
  unfold pop
  refine wp_load_bind fun t hst ht => ?_
  dsimp only
  refine wp_rmw_bind fun u htu hu => ?_
  have hm : StreamBuf.ProducerMoves t.buf u.buf := htu
  have hexact := exact_of_wf hu.buf
  have hused : diff32 u.buf.tail u.buf.head = u.buf.tail - u.buf.head := hexact.used
  rw [← hm.geo, ← hm.head, ← hm.hash]
  refine ⟨StreamBuf.ConsumerMoves.refl u.buf, hu.see hexact, ?_⟩
  rw [hused]
  split
  · trivial
  · refine wp_mono (wp_on embeds_fetch trivial (StreamBuf.fetch_spec hu.buf ?_)) (hu.see hexact)
      fun _ _ _ _ => trivial
    have := hu.buf.head_le
    omega

/-- Either thread may ask for what is free. The producer's tail is that of the second load, and the
consumer's head that of the first. -/
theorem free_spec (i : Thread) : wp (outline.contract i) free (fun _ _ => True) s := by
  unfold free
  refine wp_load_bind fun t hst ht => ?_
  dsimp only
  refine wp_rmw_bind fun u htu hu => ?_
  cases i with
  | worker =>
    have hm : StreamBuf.ConsumerMoves t.buf u.buf := htu
    rw [← hm.geo, ← hm.tail]
    exact ⟨StreamBuf.ProducerMoves.refl u.buf, Inv.see hu (exact_of_wf hu.buf), trivial⟩
  | asyncio =>
    have hm : StreamBuf.ProducerMoves t.buf u.buf := htu
    rw [hm.head]
    exact ⟨StreamBuf.ConsumerMoves.refl u.buf, Inv.see hu (exact_of_wf ht.buf), trivial⟩

theorem outline_sound : outline.Sound := by
  rintro i s p hs hidle hp
  cases hp with
  | push _ data => exact wp_seq (push_spec data) hs fun _ _ _ _ => trivial
  | pop _ maxBytes => exact wp_seq (pop_spec maxBytes) hs fun _ _ _ _ => trivial
  | free _ i => exact wp_seq (free_spec i) hs fun _ _ _ _ => by cases i <;> trivial

/-- Every expression of every run is exact. -/
theorem sums_exact (rxDataRingCap : UInt32) (hash : Bool) {c : Config Thread RoomWatch}
    (hc : Reachable Menu (init rxDataRingCap hash) c) : ∀ r ∈ c.mem.sums, r.Exact := by
  have hinv : Inv (init rxDataRingCap hash) := ⟨StreamBuf.create_wf _ _, fun _ hr => nomatch hr⟩
  exact (outline.reachable outline_sound hinv (fun i => by cases i <;> trivial) hc).1.sums

end RoomWatch

/-! ## The theorem -/

/-- The RX ring of a stream holds what the window lets the peer send, and knows how much room it
has. -/
structure RingBacks (rxDataRingCap : UInt32) : Prop where
  pow2 : ∃ k, rxRingCapacity rxDataRingCap = 2 ^ k
  window : 0 < rxDataRingCap → ∀ (a : StartArgs) (cur tp : TransportParameters), a.rxDataRingCap =
    rxDataRingCap →
    a.transportParameters (some cur) = some tp →
    tp.initialMaxStreamDataBidiLocal ≤ rxRingCapacity rxDataRingCap ∧
    tp.initialMaxStreamDataBidiRemote ≤ rxRingCapacity rxDataRingCap ∧
    tp.initialMaxStreamDataUni ≤ rxRingCapacity rxDataRingCap
  exact : ∀ (hash : Bool) (c : Config Thread RoomWatch),
    Reachable RoomWatch.Menu (RoomWatch.init rxDataRingCap hash) c → ∀ r ∈ c.mem.sums, r.Exact

/-- The windows that `start` sets are its argument. -/
theorem StartArgs.override_windows (a : StartArgs) (h : 0 < a.rxDataRingCap)
    (cur : TransportParameters) :
    (a.override cur).initialMaxStreamDataBidiLocal = a.rxDataRingCap.toNat ∧
    (a.override cur).initialMaxStreamDataBidiRemote = a.rxDataRingCap.toNat ∧
    (a.override cur).initialMaxStreamDataUni = a.rxDataRingCap.toNat := by
  rw [StartArgs.override]
  simp only [if_pos h]
  -- the limits that are set afterwards are other fields
  by_cases hdata : 0 < a.initialMaxData <;> by_cases huni : 0 < a.initialMaxStreamsUni <;>
    by_cases hbidi : 0 < a.initialMaxStreamsBidi <;> simp [hdata, huni, hbidi]

theorem StartArgs.transportParameters_of_pos (a : StartArgs) (h : 0 < a.rxDataRingCap)
    (cur : TransportParameters) :
    a.transportParameters (some cur) = some (if a.resetStreamAt then
      { a.override cur with isResetStreamAtEnabled := true } else a.override cur) := by
  have hset : 0 < a.maxDatagramFrameSize ∨ 0 < a.rxDataRingCap ∨ 0 < a.initialMaxData ∨
      0 < a.initialMaxStreamsUni ∨ 0 < a.initialMaxStreamsBidi := .inr (.inl h)
  simp only [StartArgs.transportParameters, if_pos hset, Option.map_some]
  split
  · rfl
  · rfl

theorem StartArgs.windows (a : StartArgs) (h : 0 < a.rxDataRingCap) {cur tp : TransportParameters}
    (htp : a.transportParameters (some cur) = some tp) :
    tp.initialMaxStreamDataBidiLocal = a.rxDataRingCap.toNat ∧
    tp.initialMaxStreamDataBidiRemote = a.rxDataRingCap.toNat ∧
    tp.initialMaxStreamDataUni = a.rxDataRingCap.toNat := by
  have hset := a.override_windows h cur
  rw [a.transportParameters_of_pos h] at htp
  obtain rfl := Option.some.inj htp
  split
  · exact hset
  · exact hset

/-- A ring backs its window just if that is at most `2 ^ 31`. -/
theorem ring_backs_iff (rxDataRingCap : UInt32) :
    RingBacks rxDataRingCap ↔ rxDataRingCap.toNat ≤ 2 ^ 31 := by
  constructor
  · intro h
    by_cases hpos : 0 < rxDataRingCap
    · have hcur := StartArgs.transportParameters_of_pos { rxDataRingCap } hpos
        ⟨0, 0, 0, 0, 0, 0, 0, false⟩
      have hwindow := (h.window hpos { rxDataRingCap } _ _ rfl hcur).1
      rw [(StartArgs.windows { rxDataRingCap } hpos hcur).1, rxRingCapacity_of_pos hpos] at hwindow
      exact hwindow.trans (ceilPow2U32_le rxDataRingCap)
    · have hzero : rxDataRingCap.toNat = 0 := by
        rw [UInt32.lt_iff_toNat_lt] at hpos
        exact Nat.eq_zero_of_not_pos hpos
      omega
  · intro hle
    refine ⟨rxRingCapacity_pow2 rxDataRingCap, fun hpos a cur tp ha htp => ?_, fun hash c hc =>
      RoomWatch.sums_exact rxDataRingCap hash hc⟩
    subst ha
    obtain ⟨hlocal, hremote, huni⟩ := a.windows hpos htp
    rw [hlocal, hremote, huni, rxRingCapacity_of_pos hpos]
    have hroom := le_ceilPow2U32 a.rxDataRingCap hle
    exact ⟨hroom, hroom, hroom⟩

/-- With a window of `2 ^ 31 + 1` bytes the ring is a byte too small. -/
theorem ring_smaller : ¬ RingBacks 0x80000001 := by
  intro h
  have := h.window (by decide) { rxDataRingCap := 0x80000001 } ⟨0, 0, 0, 0, 0, 0, 0, false⟩ _ rfl
    rfl
  revert this
  decide

end Aiopquic
