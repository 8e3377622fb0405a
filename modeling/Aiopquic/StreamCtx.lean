import Aiopquic.StreamBuf
import Mathlib.Data.Option.Basic

/-!
# The per-stream context (`stream_ctx.h`)

`StreamCtx` is `aiopquic_stream_ctx_t`: the two byte rings of a stream, `tx` filled by asyncio and
pulled by the worker, `rx` the other way round, and the flags and counters the two threads share.
The observability counters and timestamps are left out, and so is the reference count.

`sendData` is the asyncio thread's write. Its contract `sender` says what the worker sees of it.
`popRx` is how a drain takes the received bytes, under the contract `receiver`.
-/

namespace Aiopquic

open Interleave Interleave.Prog Circular

/-- `aiopquic_stream_ctx_t`; a ring that is `NULL` is `none`. -/
structure StreamCtx where
  tx : Option StreamBuf := none
  rx : Option StreamBuf := none
  rxConsumed : ℕ := 0
  bytesPendingRelease : ℕ := 0
  lastFcPushConsumed : ℕ := 0
  txDrainPending : Bool := false
  rxEventPending : Bool := false
  txResetPending : Bool := false
  txReliableSize : ℕ := 0

namespace StreamCtx

/-- What stands for a ring that is not there; it is never accessed. -/
def noBuf : StreamBuf := .create 0 false

/-- `sc->tx`. -/
def txBuf (sc : StreamCtx) : StreamBuf := sc.tx.getD noBuf

/-- `sc->rx`. -/
def rxBuf (sc : StreamCtx) : StreamBuf := sc.rx.getD noBuf

/-- The TX ring of a context. -/
def txLoc : Loc StreamCtx StreamBuf where
  get := txBuf
  set := fun b sc => { sc with tx := some b }
  get_set := fun _ _ => rfl

/-- The RX ring of a context. -/
def rxLoc : Loc StreamCtx StreamBuf where
  get := rxBuf
  set := fun b sc => { sc with rx := some b }
  get_set := fun _ _ => rfl

/-- `aiopquic_stream_ctx_tx_drain_take`. -/
def txDrainTake : Prog StreamCtx Bool :=
  rmw (fun sc => { sc with txDrainPending := false }) (·.txDrainPending)

/-- `aiopquic_stream_ctx_tx_sendable`. -/
def txSendable (avail : ℕ) : Prog StreamCtx ℕ := do
  let (reset, size) ← load fun sc => (sc.txResetPending, sc.txReliableSize)
  if reset = false then pure avail
  else do
    let head ← load (·.txBuf.head)
    pure (min (size - head) avail)

/-! ## Writing -/

/-- The room check of `aiopquic_stream_ctx_send_data`: arm the drain signal if `len` bytes do not
fit, and look once more. -/
def sendRoom (len : ℕ) : Prog StreamCtx Bool := do
  let (tail, capacity) ← load fun sc => (sc.txBuf.tail, sc.txBuf.geo.capacity)
  let head ← load (·.txBuf.head)
  if len ≤ sub32 capacity (diff32 tail head) then pure true
  else do
    modify fun sc => { sc with txDrainPending := true }
    let head ← load (·.txBuf.head)
    pure (decide (len ≤ sub32 capacity (diff32 tail head)))

/-- The byte part of `aiopquic_stream_ctx_send_data`: `false` if the ring had no room. -/
def sendBytes (data : List UInt8) : Prog StreamCtx Bool := do
  let room ← sendRoom data.length
  if room = false then pure false
  else do
    let accepted ← (StreamBuf.push data).on txLoc
    pure (decide (accepted = data.length))

/-- `aiopquic_stream_ctx_send_data` on a context; `hash` is the ring's hash switch. Returns `1` when
all of `data` was pushed, `0` when the ring has no room, `-2` when it can never fit. -/
def sendData (data : List UInt8) (capacity : UInt32) (setFin hash : Bool) : Prog StreamCtx ℤ := do
  let tx ← load (·.tx)
  when (tx.isNone) <| modify fun sc => { sc with tx := some (.create capacity hash) }
  let cap ← load (·.txBuf.geo.capacity)
  if cap < data.length then pure (-2)
  else do
    let ok ← (if 0 < data.length then sendBytes data else pure true)
    if ok = false then pure 0
    else do
      when setFin <| StreamBuf.setFin.on txLoc
      pure 1

/-! ## The writer's side -/

/-- Every write published to the TX ring. -/
def txWrites (sc : StreamCtx) : List (List UInt8) := sc.txBuf.writes

/-- Every byte published to the TX ring. -/
def txBytes (sc : StreamCtx) : List UInt8 := sc.txBuf.bytes

/-- The write a call with `data` publishes: an empty one publishes nothing. -/
def chunk (data : List UInt8) : List (List UInt8) := if data = [] then [] else [data]

/-- The TX ring is well formed. -/
def TxWf (sc : StreamCtx) : Prop := sc.txBuf.Wf

/-- What a writer sees of the worker: only the consumer's side of the TX ring moves. -/
structure TxPulls (sc sc' : StreamCtx) : Prop where
  isSome : sc'.tx.isSome = sc.tx.isSome
  buf : StreamBuf.ConsumerMoves sc.txBuf sc'.txBuf

theorem TxPulls.refl (sc : StreamCtx) : TxPulls sc sc := ⟨rfl, .refl _⟩

theorem TxPulls.trans {a b c : StreamCtx} (h : TxPulls a b) (h' : TxPulls b c) : TxPulls a c :=
  ⟨h'.isSome.trans h.isSome, h.buf.trans h'.buf⟩

/-- One action of a writer that may publish what `P` allows and set the FIN where `F` allows it. -/
inductive SendStep (P : StreamBuf → List UInt8 → Prop) (F : StreamBuf → Prop) (sc : StreamCtx) :
    StreamCtx → Prop
  | stay : SendStep P F sc sc
  | create (capacity : UInt32) (hash : Bool) (h : sc.tx = none) :
      SendStep P F sc { sc with tx := some (.create capacity hash) }
  | push (b : StreamBuf) (h : sc.tx.isSome) (hs : StreamBuf.ProducerStep P sc.txBuf b) :
      SendStep P F sc { sc with tx := some b }
  | fin (h : sc.tx.isSome) (hF : F sc.txBuf) :
      SendStep P F sc { sc with tx := some { sc.txBuf with finPending := true } }
  | arm : SendStep P F sc { sc with txDrainPending := true }

/-- The contract of a writer. -/
def sender (P : StreamBuf → List UInt8 → Prop) (F : StreamBuf → Prop) : Contract StreamCtx where
  inv := TxWf
  rely := TxPulls
  guar := SendStep P F
  rely_refl := .refl
  rely_trans := .trans
  guar_refl := fun _ => .stay

variable {P : StreamBuf → List UInt8 → Prop} {F : StreamBuf → Prop}

/-- The TX ring under a writer. -/
theorem embeds_producer :
    Embeds (sender P F) txLoc (StreamBuf.producer P) (fun sc => sc.tx.isSome = true) where
  inv := fun _ h => h
  rely := fun _ _ h hm _ => ⟨hm.buf, hm.isSome.trans h⟩
  step := fun _ b _ h hs hb => ⟨.push b h hs, hb, rfl⟩

/-- The room check says `true` only if the data fits. -/
theorem sendRoom_spec {len : ℕ} {sc : StreamCtx} :
    wp (sender P F) (sendRoom len)
      (fun ok sc' => TxPulls sc sc' ∧
        (ok = true → sc'.txBuf.tail + len ≤ sc'.txBuf.head + sc'.txBuf.geo.capacity)) sc := by
  have hfits : ∀ {t : StreamCtx}, t.TxWf → ∀ {tail capacity}, t.txBuf.tail = tail →
      t.txBuf.geo.capacity = capacity → len ≤ sub32 capacity (diff32 tail t.txBuf.head) →
      t.txBuf.tail + len ≤ t.txBuf.head + t.txBuf.geo.capacity := by
    rintro t ht _ _ rfl rfl hle
    rw [StreamBuf.Wf.sub32_diff32 ht rfl rfl] at hle
    have h₁ := StreamBuf.Wf.head_le ht
    have h₂ := StreamBuf.Wf.tail_le ht
    omega
  unfold sendRoom
  refine wp_load_bind fun t hst ht => ?_
  dsimp only
  refine wp_load_bind fun u htu hu => ?_
  have hsu := hst.trans htu
  split
  · rename_i hle
    exact ⟨hsu, fun _ => hfits hu htu.buf.tail (by rw [htu.buf.geo]) hle⟩
  · refine wp_modify_bind fun v huv hv => ⟨.arm, hv, wp_load_bind fun w hvw hw => ?_⟩
    have hvw' : TxPulls v w := ⟨hvw.isSome, hvw.buf⟩
    have htw := (htu.trans huv).trans hvw'
    exact ⟨hst.trans htw, fun hok =>
      hfits hw htw.buf.tail (by rw [htw.buf.geo]) (of_decide_eq_true hok)⟩

/-- The TX ring exists and carries these writes and this FIN flag. -/
structure TxHolds (writes : List (List UInt8)) (fin : Bool) (sc : StreamCtx) : Prop where
  isSome : sc.tx.isSome = true
  writes : sc.txWrites = writes
  fin : sc.txBuf.finPending = fin

theorem TxHolds.stable {writes : List (List UInt8)} {fin : Bool} {sc sc' : StreamCtx}
    (h : TxHolds writes fin sc) (hm : TxPulls sc sc') : TxHolds writes fin sc' :=
  ⟨hm.isSome.trans h.isSome, hm.buf.writes.trans h.writes, hm.buf.fin.trans h.fin⟩

/-- The byte part pushes all of `data` as one write, or nothing. -/
theorem sendBytes_spec {data : List UInt8} {sc : StreamCtx} {writes : List (List UInt8)}
    {fin : Bool}
    (h : TxHolds writes fin sc) (hdata : data ≠ [])
    (hP : ∀ b : StreamBuf, b.writes = writes → b.finPending = fin → P b data) (hsc : sc.TxWf) :
    wp (sender P F) (sendBytes data)
      (fun ok sc' => if ok = true then TxHolds (writes ++ [data]) fin sc'
      else TxHolds writes fin sc')
      sc := by
  unfold sendBytes
  refine wp_seq sendRoom_spec hsc fun ok t ht hok => ?_
  obtain ⟨hpulls, hroom⟩ := hok
  have hh := h.stable hpulls
  split
  · exact hh
  · rename_i hne
    have hallow : StreamBuf.Allows P t.txBuf data := fun b' _ hw hf =>
      hP b' (hw.trans hh.writes) (hf.trans hh.fin)
    refine wp_seq (wp_on embeds_producer hh.isSome
      (StreamBuf.push_fits ht hdata hallow (hroom (by simpa using hne)))) ht fun r u hu hr => ?_
    obtain ⟨⟨hlen, hcommit⟩, hsome⟩ := hr
    rw [wp_pure, decide_eq_true hlen, if_pos rfl]
    refine ⟨hsome, ?_, hcommit.fin.trans hh.fin⟩
    rw [txWrites, show u.txBuf.writes = t.txBuf.writes ++ [data] from hcommit.writes]
    exact congrArg (· ++ [data]) hh.writes

/-- The outcome of a write of `data`: all of it, with the FIN if asked for, or nothing. -/
structure Sent (writes : List (List UInt8)) (fin : Bool) (data : List UInt8)
    (setFin : Bool) (rc : ℤ)
    (sc : StreamCtx) : Prop where
  code : rc = 1 ∨ rc = 0 ∨ rc = -2
  accepted : rc = 1 → TxHolds (writes ++ chunk data) (fin || setFin) sc
  refused : rc ≠ 1 → TxHolds writes fin sc

/-- `sendData` is all or nothing. -/
theorem sendData_spec {data : List UInt8} {capacity : UInt32} {setFin hash : Bool} {sc : StreamCtx}
    (hP : ∀ b : StreamBuf, b.writes = sc.txWrites → b.finPending = sc.txBuf.finPending → P b data)
    (hF : setFin = true → ∀ b : StreamBuf, b.writes = sc.txWrites ++ chunk data →
      b.finPending = sc.txBuf.finPending → F b) :
    wp (sender P F) (sendData data capacity setFin hash)
      (Sent sc.txWrites sc.txBuf.finPending data setFin) sc := by
  -- the FIN store that ends an accepted write
  have hfin : ∀ u, TxHolds (sc.txWrites ++ chunk data) sc.txBuf.finPending u →
      wp (sender P F) (when setFin (StreamBuf.setFin.on txLoc) >>= fun _ => pure 1)
        (Sent sc.txWrites sc.txBuf.finPending data setFin) u := by
    intro u hu
    refine wp_when_bind (fun hset => ?_) (fun hset => ?_)
    · refine wp_modify_bind fun v huv hv => ?_
      have hv' := hu.stable huv
      refine ⟨.fin hv'.isSome (hF hset _ hv'.writes hv'.fin), ⟨hv.window, hv.length⟩, .inl rfl,
        fun _ => ?_,
        fun h => absurd rfl h⟩
      exact ⟨rfl, hv'.writes, by rw [hset, Bool.or_true]; rfl⟩
    · refine ⟨.inl rfl, fun _ => ?_, fun h => absurd rfl h⟩
      have : setFin = false := by simpa using hset
      rw [this, Bool.or_false]
      exact hu
  -- everything after the ring is there
  have hmain : ∀ u, u.TxWf → TxHolds sc.txWrites sc.txBuf.finPending u →
      wp (sender P F) (load (·.txBuf.geo.capacity) >>= fun cap =>
        if cap < data.length then pure (-2)
        else do
          let ok ← (if 0 < data.length then sendBytes data else pure true)
          if ok = false then pure 0
          else do
            when setFin <| StreamBuf.setFin.on txLoc
            pure 1) (Sent sc.txWrites sc.txBuf.finPending data setFin) u := by
    intro u hu hhold
    refine wp_load_bind fun v huv hv => ?_
    have hhold := hhold.stable huv
    split
    · exact ⟨.inr (.inr rfl), fun h => absurd h (by decide), fun _ => hhold⟩
    · split
      · rename_i hpos
        have hdata : data ≠ [] := List.length_pos_iff.1 hpos
        refine wp_seq (sendBytes_spec hhold hdata hP hv) hv fun ok w hw hok => ?_
        cases ok with
        | false => exact ⟨.inr (.inl rfl), fun h => absurd h (by decide), fun _ => hok⟩
        | true =>
          refine hfin w ?_
          rw [chunk, if_neg hdata]
          exact hok
      · rename_i hpos
        have hdata : data = [] := List.length_eq_zero_iff.1 (by omega)
        refine hfin v ?_
        rw [chunk, if_pos hdata, List.append_nil]
        exact hhold
  unfold sendData
  refine wp_load_bind fun t hst ht => wp_when_bind (fun hnone => ?_) (fun hsome => ?_)
  · refine wp_modify_bind fun u htu hu => ?_
    have htn : t.tx = none := by simpa using hnone
    have hun : u.tx = none := by
      have := htu.isSome
      rw [htn] at this
      simpa using this
    have hw₀ : sc.txWrites = [] := by
      have := hst.buf.writes
      rw [txBuf, htn] at this
      exact this.symm
    have hf₀ : sc.txBuf.finPending = false := by
      have := hst.buf.fin
      rw [txBuf, htn] at this
      exact this.symm
    have hwf := StreamBuf.create_wf capacity hash
    exact ⟨.create capacity hash hun, hwf, hmain _ hwf ⟨rfl, hw₀.symm, hf₀.symm⟩⟩
  · have htn : t.tx.isSome = true := by
      rw [Option.isSome_iff_ne_none]
      simpa using hsome
    exact hmain t ht ⟨htn, hst.buf.writes, hst.buf.fin⟩

/-- A check that begins with room for the data finds it. -/
theorem sendRoom_fits {len : ℕ} {sc : StreamCtx}
    (hroom : sc.txBuf.tail + len ≤ sc.txBuf.head + sc.txBuf.geo.capacity) :
    wp (sender P F) (sendRoom len) (fun ok c => ok = true ∧ TxPulls sc c) sc := by
  unfold sendRoom
  refine wp_load_bind fun c hsc hc => wp_load_bind fun d hcd hd => ?_
  have hsd := hsc.trans hcd
  have hfits : len ≤ sub32 c.txBuf.geo.capacity (diff32 c.txBuf.tail d.txBuf.head) := by
    rw [← hcd.buf.geo, StreamBuf.Wf.sub32_diff32 hd hcd.buf.tail.symm rfl]
    have := hsd.buf.head_le
    have := StreamBuf.Wf.head_le hd
    rw [hsd.buf.tail, hsd.buf.geo] at *
    omega
  rw [if_pos hfits]
  exact ⟨rfl, hsd⟩

/-- A write that makes its ring and fits into it is accepted. -/
theorem sendData_accepts {data : List UInt8} {capacity : UInt32} {setFin hash : Bool}
    {sc : StreamCtx}
    (hnone : sc.tx = none) (hlen : data.length ≤ ceilPow2U32 capacity) :
    wp (sender (fun _ _ => True) fun _ => True) (sendData data capacity setFin hash)
    (fun rc _ => rc = 1) sc := by
  unfold sendData
  refine wp_load_bind fun c hsc hc => ?_
  have hnone' : c.tx = none := by
    have := hsc.isSome
    rw [hnone] at this
    simpa using this
  refine wp_when_bind (fun _ => wp_modify_bind fun d hcd hd => ?_) fun hsome =>
    absurd (by rw [hnone']; rfl) hsome
  have hd' : d.tx = none := by
    have := hcd.isSome
    rw [hnone'] at this
    simpa using this
  have hwf := StreamBuf.create_wf capacity hash
  refine ⟨.create capacity hash hd', hwf, wp_load_bind fun e hde he => ?_⟩
  have hgeo : e.txBuf.geo.capacity = ceilPow2U32 capacity := congrArg Geometry.capacity hde.buf.geo
  have hdone : ∀ u : StreamCtx, u.tx.isSome = true →
      wp (sender (fun _ _ => True) fun _ => True) (do
        when setFin <| StreamBuf.setFin.on txLoc
        pure (1 : ℤ)) (fun rc _ => rc = 1) u := by
    intro u hsome
    refine wp_when_bind (fun _ => wp_modify_bind fun v huv hv => ?_) fun _ => rfl
    exact ⟨.fin (huv.isSome.trans hsome) trivial, ⟨hv.window, hv.length⟩, rfl⟩
  rw [if_neg (by omega)]
  split
  · rename_i hpos
    have hroom : e.txBuf.tail + data.length ≤ e.txBuf.head + e.txBuf.geo.capacity := by
      have htail : e.txBuf.tail = 0 := hde.buf.tail
      rw [hgeo, htail]
      omega
    refine wp_seq (R := fun ok c => ok = true ∧ c.tx.isSome = true) ?_ he fun ok u hu h => ?_
    · unfold sendBytes
      refine wp_seq (sendRoom_fits hroom) he fun ok u hu h => ?_
      obtain ⟨rfl, hm⟩ := h
      have hsome : u.tx.isSome = true := hm.isSome.trans hde.isSome
      have hroom' : u.txBuf.tail + data.length ≤ u.txBuf.head + u.txBuf.geo.capacity := by
        have := hm.buf.head_le
        rw [hm.buf.tail, hm.buf.geo]
        omega
      refine wp_seq (wp_on embeds_producer hsome
        (StreamBuf.push_fits hu (List.length_pos_iff.1 hpos)
        (fun _ _ _ _ => trivial) hroom')) hu fun r v hv h => ⟨decide_eq_true h.1.1, h.2⟩
    · obtain ⟨rfl, hsome⟩ := h
      exact hdone u hsome
  · exact hdone e hde.isSome

/-! ## Receiving -/

/-- What `drain_rx` does with the bytes of a `STREAM_DATA` or `STREAM_FIN` entry once the
notification flag is cleared: pop all of `sc->rx` into a `StreamChunk`, whose `_wrap` adds the
length to `bytes_pending_release`; take a `memoryview` of it, whose `__getbuffer__` subtracts the
length again; and add it to `rx_consumed`. -/
def popRx : Prog StreamCtx (Option (List UInt8)) := do
  let rx ← load (·.rx)
  if rx.isNone then pure none
  else do
    let avail ← StreamBuf.used.on rxLoc
    if avail = 0 then pure none
    else do
      let out ← (StreamBuf.pop avail).on rxLoc
      modify fun sc => { sc with bytesPendingRelease := sc.bytesPendingRelease + avail }
      modify fun sc => { sc with bytesPendingRelease := sc.bytesPendingRelease - avail }
      modify fun sc => { sc with rxConsumed := sc.rxConsumed + avail }
      pure (some (StreamBuf.fillBuffer avail out))

/-- Every write published to the RX ring. -/
def rxWrites (sc : StreamCtx) : List (List UInt8) := sc.rxBuf.writes

/-- Every byte published to the RX ring. -/
def rxBytes (sc : StreamCtx) : List UInt8 := sc.rxBuf.bytes

/-- What a drain sees of the worker: the RX ring may appear, and bytes are added to it. -/
structure RxFeeds (sc sc' : StreamCtx) : Prop where
  isSome : sc.rx.isSome = true → sc'.rx.isSome = true
  buf : sc.rx.isSome = true → StreamBuf.ProducerMoves sc.rxBuf sc'.rxBuf
  head : sc'.rxBuf.head = sc.rxBuf.head
  writes : sc.rxWrites <+: sc'.rxWrites
  pending : sc'.bytesPendingRelease = sc.bytesPendingRelease
  consumed : sc'.rxConsumed = sc.rxConsumed

theorem RxFeeds.refl (sc : StreamCtx) : RxFeeds sc sc :=
  ⟨id, fun _ => .refl _, rfl, List.prefix_rfl, rfl, rfl⟩

theorem RxFeeds.trans {a b c : StreamCtx} (h : RxFeeds a b) (h' : RxFeeds b c) : RxFeeds a c :=
  ⟨fun hs => h'.isSome (h.isSome hs), fun hs => (h.buf hs).trans (h'.buf (h.isSome hs)),
    h'.head.trans h.head, h.writes.trans h'.writes, h'.pending.trans h.pending,
    h'.consumed.trans h.consumed⟩

/-- One action of a drain. It counts no more than it popped, up to what `base` was already too
much. -/
inductive PopStep (base : ℕ) (sc : StreamCtx) : StreamCtx → Prop
  | stay : PopStep base sc sc
  | ring (b : StreamBuf) (h : sc.rx.isSome) (hs : StreamBuf.ConsumerStep sc.rxBuf b) :
      PopStep base sc { sc with rx := some b }
  | pending (n : ℕ) (h : sc.rxConsumed + (sc.bytesPendingRelease + n) ≤ sc.rxBuf.head + base) :
      PopStep base sc { sc with bytesPendingRelease := sc.bytesPendingRelease + n }
  | release (n : ℕ) : PopStep base sc { sc with bytesPendingRelease := sc.bytesPendingRelease - n }
  | consumed (n : ℕ) (h : sc.rxConsumed + n + sc.bytesPendingRelease ≤ sc.rxBuf.head + base) :
      PopStep base sc { sc with rxConsumed := sc.rxConsumed + n }

/-- What a drain leaves alone. -/
structure Pops (sc sc' : StreamCtx) : Prop where
  isSome : sc'.rx.isSome = sc.rx.isSome
  buf : StreamBuf.ConsumerMoves sc.rxBuf sc'.rxBuf
  eventPending : sc'.rxEventPending = sc.rxEventPending
  mark : sc'.lastFcPushConsumed = sc.lastFcPushConsumed
  consumed_le : sc.rxConsumed ≤ sc'.rxConsumed

theorem PopStep.pops {base : ℕ} {sc sc' : StreamCtx} (h : PopStep base sc sc') : Pops sc sc' := by
  cases h with
  | stay => exact ⟨rfl, .refl _, rfl, rfl, le_rfl⟩
  | ring b h hs => exact ⟨h.symm, hs.moves, rfl, rfl, le_rfl⟩
  | pending n h => exact ⟨rfl, .refl _, rfl, rfl, le_rfl⟩
  | release n => exact ⟨rfl, .refl _, rfl, rfl, le_rfl⟩
  | consumed n h => exact ⟨rfl, .refl _, rfl, rfl, Nat.le_add_right _ _⟩

/-- A drain counts no more than it popped. -/
theorem PopStep.counted {base : ℕ} {sc sc' : StreamCtx} (h : PopStep base sc sc')
    (hc : sc.rxConsumed + sc.bytesPendingRelease ≤ sc.rxBuf.head + base) :
    sc'.rxConsumed + sc'.bytesPendingRelease ≤ sc'.rxBuf.head + base := by
  cases h with
  | stay => exact hc
  | ring b h hs => exact hc.trans (Nat.add_le_add_right hs.moves.head_le _)
  | pending n h => exact h
  | release n =>
    show sc.rxConsumed + (sc.bytesPendingRelease - n) ≤ sc.rxBuf.head + base
    omega
  | consumed n h => exact h

/-- The contract of a drain. -/
def receiver (base : ℕ) : Contract StreamCtx where
  inv := fun sc => sc.rxBuf.Wf
  rely := RxFeeds
  guar := PopStep base
  rely_refl := .refl
  rely_trans := .trans
  guar_refl := fun _ => .stay

/-- The RX ring under a drain that found it. -/
theorem embeds_consumer (base pending consumed : ℕ) :
    Embeds (receiver base) rxLoc StreamBuf.consumer (fun sc => sc.rx.isSome = true ∧
      sc.bytesPendingRelease = pending ∧ sc.rxConsumed = consumed) where
  inv := fun _ h => h
  rely := fun _ _ h hm _ =>
    ⟨hm.buf h.1, hm.isSome h.1, hm.pending.trans h.2.1, hm.consumed.trans h.2.2⟩
  step := fun _ b _ h hs hb => ⟨.ring b h.1 hs, hb, rfl, h.2⟩

/-- From `sc` a drain has taken everything up to a tail it read, as the data `d`. -/
structure Taken (sc : StreamCtx) (d : Option (List UInt8)) (sc' : StreamCtx) : Prop where
  writes : sc.rxWrites <+: sc'.rxWrites
  tail_le : sc.rxBuf.tail ≤ sc'.rxBuf.head
  bytes : sc'.rxBytes.take sc.rxBuf.head ++ d.getD [] = sc'.rxBytes.take sc'.rxBuf.head
  head : sc'.rxBuf.head = sc.rxBuf.head + (d.getD []).length
  pending : sc'.bytesPendingRelease = sc.bytesPendingRelease
  consumed : sc'.rxConsumed = sc.rxConsumed + (d.getD []).length

theorem RxFeeds.bytes {sc sc' : StreamCtx} (h : RxFeeds sc sc') : sc.rxBytes <+: sc'.rxBytes := by
  obtain ⟨l, hl⟩ := h.writes
  show sc.rxWrites.flatten <+: sc'.rxWrites.flatten
  rw [← hl, List.flatten_append]
  exact List.prefix_append _ _

theorem RxFeeds.tail_le {sc sc' : StreamCtx} (h : RxFeeds sc sc') (hw : sc.rxBuf.Wf)
    (hw' : sc'.rxBuf.Wf) : sc.rxBuf.tail ≤ sc'.rxBuf.tail := by
  rw [← hw.length, ← hw'.length]
  exact h.bytes.length_le

/-- Nothing was there to take. -/
theorem Taken.of_empty {sc sc' : StreamCtx} (h : RxFeeds sc sc')
    (htail : sc.rxBuf.tail ≤ sc.rxBuf.head) : Taken sc none sc' :=
  ⟨h.writes, by rw [h.head]; exact htail, by simp [h.head], h.head, h.pending, h.consumed⟩

theorem popRx_spec {base : ℕ} {sc : StreamCtx} (hsc : sc.rxBuf.Wf)
    (hbase : sc.rxConsumed + sc.bytesPendingRelease ≤ sc.rxBuf.head + base) :
    wp (receiver base) popRx (Taken sc) sc := by
  unfold popRx
  refine wp_load_bind fun t hst ht => ?_
  have htail := hst.tail_le hsc ht
  split
  · rename_i hnone
    have hbuf : t.rxBuf = noBuf := by
      have : t.rx = none := by simpa using hnone
      rw [rxBuf, this]
      rfl
    have hzero : t.rxBuf.tail = 0 := by rw [hbuf]; rfl
    exact .of_empty hst (by omega)
  rename_i hsome
  have hsome' : t.rx.isSome = true := by
    rw [Option.isSome_iff_ne_none]
    simpa using hsome
  refine wp_seq (wp_on (embeds_consumer base sc.bytesPendingRelease sc.rxConsumed)
    ⟨hsome', hst.pending, hst.consumed⟩ (StreamBuf.used_consumer ht)) ht fun avail u hu h => ?_
  obtain ⟨⟨htu, tail, hle₁, hle₂, havail⟩, husome, hpend, hcons⟩ := h
  have hhead : u.rxBuf.head = sc.rxBuf.head := htu.head.trans hst.head
  have hthead : t.rxBuf.head = sc.rxBuf.head := hst.head
  have hle₁' : t.rxBuf.tail ≤ tail := hle₁
  have hle₂' : tail ≤ u.rxBuf.tail := hle₂
  have havail' : avail = tail - t.rxBuf.head := havail
  have hwr : sc.rxWrites <+: u.rxWrites := hst.writes.trans htu.writes
  have htle := ht.head_le
  split
  · rename_i hzero
    exact ⟨hwr, by omega, by simp [hhead], hhead, hpend, hcons⟩
  refine wp_seq (wp_on (embeds_consumer base sc.bytesPendingRelease sc.rxConsumed)
    ⟨husome, hpend, hcons⟩ (StreamBuf.pop_spec hu)) hu fun out v hv h => ?_
  obtain ⟨hpop, hvsome, hvpend, hvcons⟩ := h
  obtain ⟨tail', hge, -, hlen⟩ := hpop.length
  have hge' : u.rxBuf.tail ≤ tail' := hge
  have hlen' : out.length = avail := by
    have : out.length = min avail (tail' - u.rxBuf.head) := hlen
    omega
  have hvhead : v.rxBuf.head = sc.rxBuf.head + avail := by
    rw [show v.rxBuf.head = u.rxBuf.head + out.length from hpop.head, hhead, hlen']
  have hout : out = (v.rxBytes.drop sc.rxBuf.head).take avail := by
    rw [← hhead, ← hlen']
    exact hpop.eq
  have hvpend' : v.bytesPendingRelease = sc.bytesPendingRelease := hvpend
  have hvcons' : v.rxConsumed = sc.rxConsumed := hvcons
  refine wp_modify_bind fun w hvw hw => ⟨.pending avail ?_, hw, ?_⟩
  · rw [hvw.consumed, hvw.pending, hvw.head]
    omega
  refine wp_modify_bind fun x hwx hx => ⟨.release avail, hx, ?_⟩
  have hxpend : x.bytesPendingRelease = sc.bytesPendingRelease + avail := by
    rw [show x.bytesPendingRelease = w.bytesPendingRelease + avail from hwx.pending,
      hvw.pending, hvpend']
  have hxcons : x.rxConsumed = sc.rxConsumed := hwx.consumed.trans (hvw.consumed.trans hvcons')
  have hxhead : x.rxBuf.head = sc.rxBuf.head + avail := hwx.head.trans (hvw.head.trans hvhead)
  have hvx : v.rxBytes <+: x.rxBytes := hvw.bytes.trans hwx.bytes
  refine wp_modify_bind fun y hxy hy => ?_
  have hypend : y.bytesPendingRelease = sc.bytesPendingRelease := by
    rw [show y.bytesPendingRelease = x.bytesPendingRelease - avail from hxy.pending, hxpend,
      Nat.add_sub_cancel]
  have hycons : y.rxConsumed = sc.rxConsumed := hxy.consumed.trans hxcons
  have hyhead : y.rxBuf.head = sc.rxBuf.head + avail := hxy.head.trans hxhead
  have hvy : v.rxBytes <+: y.rxBytes := hvx.trans hxy.bytes
  have hvlen : v.rxBytes.length = v.rxBuf.tail := hv.length
  have hvle := hv.head_le
  refine ⟨.consumed avail (by omega), hy, ?_⟩
  rw [wp_pure, StreamBuf.fillBuffer_eq hlen']
  refine ⟨(hwr.trans hpop.writes).trans (hvw.writes.trans (hwx.writes.trans hxy.writes)),
    ?_, ?_, ?_,
    hypend, ?_⟩
  · show sc.rxBuf.tail ≤ y.rxBuf.head
    omega
  · show y.rxBytes.take sc.rxBuf.head ++ out = y.rxBytes.take y.rxBuf.head
    rw [hyhead, List.take_add, hout]
    congr 1
    exact (take_drop_of_isPrefix hvy (by omega)).symm
  · show y.rxBuf.head = sc.rxBuf.head + out.length
    rw [hyhead, hlen']
  · show y.rxConsumed + avail = sc.rxConsumed + out.length
    rw [hycons, hlen']

end StreamCtx

end Aiopquic
