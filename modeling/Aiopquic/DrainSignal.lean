import Aiopquic.RxWake
import Aiopquic.Threads

/-!
# The drain signal of a full ring (`stream_ctx.h`, `datagram_buf.h`)

A writer that finds its ring full arms the ring's drain flag and looks once more; a pull that has
taken something out exchanges the flag, and queues a drain event if it was set. `sc->tx` with
`aiopquic_stream_ctx_send_data` and a datagram ring with `aiopquic_dgram_buf_push_record` do this in
the same way. `DrainRing` is either ring, with its counters and its flag; what the slots hold plays
no part here.

Four fields are history or section variables that no function reads. `mark` is the number of RX
events there were when the last call armed the flag, and `waiting` what the last refused call saw.
`popped` is set from the pop of a pull to its exchange, and `firing` from an exchange that took the
flag until the event is queued. `raised` and `taken` count how often the flag was set and taken.
-/

namespace Aiopquic

open Interleave Interleave.Prog Circular

/-- What a call saw that found no room for `need` bytes. -/
structure Refusal where
  tail : ℕ
  head : ℕ
  capacity : ℕ
  need : ℕ
  deriving DecidableEq, Repr

/-- A byte ring with its drain flag; `capacity` is `0` as long as it is not there. `signal` is the
type of its drain event, and `result` what the last call returned. -/
structure DrainRing where
  signal : EventType
  tail : ℕ := 0
  head : ℕ := 0
  capacity : ℕ := 0
  drainPending : Bool := false
  rx : WakeCtx
  result : Option ℤ := none
  mark : Option ℕ := none
  waiting : Option Refusal := none
  popped : Bool := false
  firing : Bool := false
  raised : ℕ := 0
  taken : ℕ := 0

namespace DrainRing

/-- A stream without a TX ring. -/
def stream (geo : Geometry) : DrainRing := { signal := .streamTxDrained, rx := .create geo }

/-- A datagram ring. -/
def dgram (geo : Geometry) (capacity : ℕ) : DrainRing :=
  { signal := .datagramTxDrained, capacity := capacity, rx := .create geo }

/-- The RX event queue. -/
def rxLoc : Loc DrainRing WakeCtx where
  get := (·.rx)
  set := fun rx s => { s with rx := rx }
  get_set := fun _ _ => rfl

/-! ## Writers -/

/-- A call begins. -/
def beginCall (s : DrainRing) : DrainRing :=
  { s with result := none, mark := none, waiting := none }

/-- The exchange that arms the flag. -/
def armStore (s : DrainRing) : DrainRing :=
  { s with
    drainPending := true
    mark := some s.rx.q.accepted.length
    raised := if s.drainPending then s.raised else s.raised + 1 }

/-- A call returns. -/
def endCall (rc : ℤ) (s : DrainRing) : DrainRing := { s with result := some rc }

/-- A call that found no room returns `0`. -/
def refuse (r : Refusal) (s : DrainRing) : DrainRing :=
  { s with result := some 0, waiting := some r }

/-- The tail store. -/
def publish (tail : ℕ) (s : DrainRing) : DrainRing := { s with tail := tail }

/-- The room check both writers make for `need` bytes: arm the flag if they do not fit, and look
once more. -/
def checkRoom (need : ℕ) : Prog DrainRing (Option Refusal) := do
  let (tail, capacity) ← load fun s => (s.tail, s.capacity)
  let head ← load (·.head)
  if need ≤ sub32 capacity (diff32 tail head) then pure none
  else do
    modify armStore
    let head ← load (·.head)
    if need ≤ sub32 capacity (diff32 tail head) then pure none
    else pure (some ⟨tail, head, capacity, need⟩)

/-- `aiopquic_stream_buf_push`, for `len` bytes. -/
def pushBytes (len : ℕ) : Prog DrainRing ℕ := do
  let (tail, capacity) ← load fun s => (s.tail, s.capacity)
  let head ← load (·.head)
  let freeBytes := sub32 capacity (diff32 tail head)
  if freeBytes = 0 then pure 0
  else do
    let toWrite := min len freeBytes
    modify (publish (tail + toWrite))
    pure toWrite

/-- `aiopquic_stream_ctx_send_data` of `len` bytes; `capacity` is that of the ring it makes if there
is none. -/
def sendData (len capacity : ℕ) : Prog DrainRing Unit := do
  modify beginCall
  let cap ← load (·.capacity)
  when (cap = 0) <| modify fun s => { s with capacity := capacity }
  let cap ← load (·.capacity)
  if cap < len then modify (endCall (-2))
  else if len = 0 then modify (endCall 1)
  else do
    let refusal ← checkRoom len
    match refusal with
    | some r => modify (refuse r)
    | none => do
      let accepted ← pushBytes len
      modify (endCall (if accepted ≠ len then 0 else 1))

/-- `AIOPQUIC_DGRAM_REC_HDR`. -/
def recHdr : ℕ := 4

/-- `aiopquic_dgram_buf_push_record` of `len` bytes. -/
def pushRecord (len maxRecord : ℕ) : Prog DrainRing Unit := do
  modify beginCall
  if maxRecord < len then modify (endCall (-1))
  else do
    let refusal ← checkRoom ((recHdr + len) % 2 ^ 32)
    match refusal with
    | some r => modify (refuse r)
    | none => do
      let tail ← load (·.tail)
      modify (publish (tail + recHdr + len))
      modify (endCall 1)

/-! ## Pulls -/

/-- The head store of a pop. -/
def popStore (head : ℕ) (s : DrainRing) : DrainRing := { s with head := head, popped := true }

/-- The exchange of `aiopquic_stream_ctx_tx_drain_take` and `aiopquic_dgram_buf_drain_take`. -/
def takeFlag (s : DrainRing) : DrainRing :=
  { s with
    drainPending := false
    popped := false
    firing := s.drainPending
    taken := if s.drainPending then s.taken + 1 else s.taken }

/-- The drain event was queued, or the flag is set again. -/
def fired (rc : ℤ) (s : DrainRing) : DrainRing :=
  if rc = 0 then { s with firing := false }
  else
    { s with
      firing := false
      drainPending := true
      raised := if s.drainPending then s.raised else s.raised + 1 }

/-- The end of both pulls; `event` is the drain event. -/
def drainTake (event : Entry) : Prog DrainRing Unit := do
  let taken ← rmw takeFlag (·.drainPending)
  when taken <| do
    let rc ← (WakeCtx.rxPush event []).on rxLoc
    modify (fired rc)

/-- The pull of `prepare_to_send` and of `provide_data`, for at most `limit` bytes. -/
def pullStream (streamId cnx session limit : ℕ) : Prog DrainRing Unit := do
  let tail ← load (·.tail)
  let head ← load (·.head)
  let toSend := min (diff32 tail head) limit
  when (0 < toSend) <| do
    let head ← load (·.head)
    let tail ← load (·.tail)
    let available := diff32 tail head
    when (0 < available) <| modify (popStore (head + min toSend available))
  drainTake { eventType := .streamTxDrained, streamId := streamId, cnx := cnx, streamCtx := session }

/-- `prepare_datagram`, for a head record of `rec` bytes in a packet with `length` bytes left. -/
def prepareDatagram (cnx rec length : ℕ) (buffer : Bool) : Prog DrainRing Unit :=
  when (rec ≠ 0 ∧ rec ≤ length ∧ buffer) <| do
    let head ← load (·.head)
    modify (popStore (head + recHdr + rec))
    drainTake { eventType := .datagramTxDrained, cnx := cnx }

/-- Writes to a stream, records to a datagram ring, and their pulls; any other event may be queued,
and asyncio drains the events. The capacity of a stream's ring is a `uint32_t`. -/
inductive Menu : Thread → DrainRing → Prog DrainRing Unit → Prop
  | sendData (s : DrainRing) (len capacity : ℕ) (hs : s.signal = .streamTxDrained)
    (hcap : capacity < 2 ^ 32) :
      Menu .asyncio s (sendData len capacity)
  | pushRecord (s : DrainRing) (len maxRecord : ℕ) (hs : s.signal = .datagramTxDrained) :
      Menu .asyncio s (pushRecord len maxRecord)
  | drainRx (s : DrainRing) (maxEvents : ℕ) : Menu .asyncio s ((WakeCtx.drain maxEvents).on rxLoc)
  | pullStream (s : DrainRing) (streamId cnx session limit : ℕ) (hs : s.signal = .streamTxDrained) :
      Menu .worker s (pullStream streamId cnx session limit)
  | prepareDatagram (s : DrainRing) (cnx rec length : ℕ) (buffer : Bool)
      (hs : s.signal = .datagramTxDrained) : Menu .worker s (prepareDatagram cnx rec length buffer)
  | rxEvent (s : DrainRing) (e : Entry) (data : List UInt8) :
      Menu .worker s ((WakeCtx.pushCall e data).on rxLoc)

/-! ## The proof outline -/

/-- A drain event was queued as event number `mark` or later. -/
def Answered (mark : ℕ) (s : DrainRing) : Prop :=
  ∃ e ∈ s.rx.q.accepted.drop mark, e.eventType = s.signal

/-- What holds between any two steps. -/
structure Inv (s : DrainRing) : Prop where
  rx : s.rx.Inv
  /-- The window of a stream's ring is no longer than the ring. -/
  window : s.signal = .streamTxDrained →
    s.head ≤ s.tail ∧ s.tail ≤ s.head + s.capacity ∧ s.capacity < 2 ^ 32
  /-- Every set flag was taken once, or is still set. -/
  count : s.raised = s.taken + s.drainPending.toNat
  /-- An arm keeps its signal alive. -/
  signalled : ∀ m, s.mark = some m → m ≤ s.rx.q.accepted.length ∧
    (s.drainPending = true ∨ s.firing = true ∨ s.Answered m)
  /-- While the flag is set, the ring is as full as the refused call saw it, or a pull is about to
  take the flag. -/
  waiting : ∀ r, s.waiting = some r → s.mark ≠ none ∧ s.tail = r.tail ∧ s.capacity = r.capacity ∧
    sub32 r.capacity (diff32 r.tail r.head) < r.need ∧
    (s.drainPending = true → s.head = r.head ∨ s.popped = true)

/-- A step of the worker. -/
structure WorkerMoves (s t : DrainRing) : Prop where
  rx : WakeCtx.WorkerMoves s.rx t.rx
  signal : t.signal = s.signal
  tail : t.tail = s.tail
  capacity : t.capacity = s.capacity
  result : t.result = s.result
  mark : t.mark = s.mark
  waiting : t.waiting = s.waiting
  head_le : s.head ≤ t.head
  flag : t.drainPending = true → s.drainPending = true ∧ (t.head = s.head ∨ t.popped = true) ∧
    (s.popped = true → t.popped = true)

/-- A step of the asyncio thread. -/
structure AsyncioMoves (s t : DrainRing) : Prop where
  rx : WakeCtx.AsyncioMoves s.rx t.rx
  signal : t.signal = s.signal
  head : t.head = s.head
  tail_le : s.tail ≤ t.tail
  popped : t.popped = s.popped
  firing : t.firing = s.firing
  pending : s.drainPending = true → t.drainPending = true
  mark : ∀ m, t.mark = some m → s.mark = some m ∨ t.drainPending = true

variable {s t u : DrainRing}

theorem WorkerMoves.refl (s : DrainRing) : WorkerMoves s s :=
  ⟨.refl _, rfl, rfl, rfl, rfl, rfl, rfl, le_rfl, fun h => ⟨h, .inl rfl, id⟩⟩

theorem WorkerMoves.trans (h : WorkerMoves s t) (h' : WorkerMoves t u) : WorkerMoves s u := by
  refine ⟨h.rx.trans h'.rx, h'.signal.trans h.signal, h'.tail.trans h.tail,
    h'.capacity.trans h.capacity,
    h'.result.trans h.result, h'.mark.trans h.mark, h'.waiting.trans h.waiting,
      h.head_le.trans h'.head_le,
    fun hu => ?_⟩
  obtain ⟨ht, hhead', hpop'⟩ := h'.flag hu
  obtain ⟨hs, hhead, hpop⟩ := h.flag ht
  refine ⟨hs, ?_, fun hp => hpop' (hpop hp)⟩
  rcases hhead' with hhead' | hp
  · rcases hhead with hhead | hp
    · exact .inl (hhead'.trans hhead)
    · exact .inr (hpop' hp)
  · exact .inr hp

theorem AsyncioMoves.refl (s : DrainRing) : AsyncioMoves s s :=
  ⟨.refl _, rfl, rfl, le_rfl, rfl, rfl, id, fun _ h => .inl h⟩

theorem AsyncioMoves.trans (h : AsyncioMoves s t) (h' : AsyncioMoves t u) : AsyncioMoves s u := by
  refine ⟨h.rx.trans h'.rx, h'.signal.trans h.signal, h'.head.trans h.head,
    h.tail_le.trans h'.tail_le,
    h'.popped.trans h.popped, h'.firing.trans h.firing, fun hp => h'.pending (h.pending hp),
      fun m hm => ?_⟩
  rcases h'.mark m hm with hm | hp
  · exact (h.mark m hm).imp_right h'.pending
  · exact .inr hp

/-- The worker outside a pull. -/
structure WorkerIdle (s : DrainRing) : Prop where
  rx : s.rx.WorkerIdle
  popped : s.popped = false
  firing : s.firing = false

/-- The asyncio thread outside a call: a call that returned `0` was refused. -/
structure AsyncioIdle (s : DrainRing) : Prop where
  rx : s.rx.AsyncioIdle
  refused : s.result = some 0 → s.waiting ≠ none

theorem WorkerIdle.stable (h : s.WorkerIdle) (hm : AsyncioMoves s t) : t.WorkerIdle :=
  ⟨h.rx.stable hm.rx, hm.popped.trans h.popped, hm.firing.trans h.firing⟩

theorem AsyncioIdle.stable (h : s.AsyncioIdle) (hm : WorkerMoves s t) : t.AsyncioIdle := by
  refine ⟨h.rx.stable hm.rx, ?_⟩
  rw [hm.result, hm.waiting]
  exact h.refused

/-- The rely–guarantee outline. -/
def outline : Outline Menu :=
  duo Inv WorkerMoves AsyncioMoves WorkerIdle AsyncioIdle .refl .trans .refl .trans
    (fun h hm _ => h.stable hm) (fun h hm _ => h.stable hm)

/-! ## The RX queue beside the ring -/

theorem Answered.mono {m : ℕ} (h : s.Answered m) (hacc : s.rx.q.accepted <+: t.rx.q.accepted)
    (hsig : t.signal = s.signal) : t.Answered m := by
  obtain ⟨e, he, htype⟩ := h
  exact ⟨e, (hacc.drop m).subset he, htype.trans hsig.symm⟩

/-- A step of the RX queue keeps the invariant. -/
theorem Inv.setRx (hs : Inv s) {rx : WakeCtx} (hrx : rx.Inv)
    (hacc : s.rx.q.accepted <+: rx.q.accepted) :
    Inv (rxLoc.set rx s) := by
  refine ⟨hrx, hs.window, hs.count, fun m hm => ?_, hs.waiting⟩
  obtain ⟨hle, hsig⟩ := hs.signalled m hm
  refine ⟨hle.trans hacc.length_le, ?_⟩
  rcases hsig with hp | hf | ha
  · exact .inl hp
  · exact .inr (.inl hf)
  · exact .inr (.inr (Answered.mono ha hacc rfl))

theorem embeds_rx_worker {F : DrainRing → Prop} (hF : ∀ s t, F s → AsyncioMoves s t → F t)
    (hset : ∀ s rx, F s → F (rxLoc.set rx s)) :
    Embeds (outline.contract .worker) rxLoc (WakeCtx.outline.contract .worker) F where
  inv := fun s hs => hs.rx
  rely := fun s t hFs hm _ => ⟨hm.rx, hF s t hFs hm⟩
  step := by
    rintro s rx hs hFs hg hrx
    have hm : WakeCtx.WorkerMoves s.rx rx := hg
    exact ⟨⟨hm, rfl, rfl, rfl, rfl, rfl, rfl, le_rfl, fun h => ⟨h, .inl rfl, id⟩⟩,
      hs.setRx hrx hm.queue.accepted, hset s rx hFs⟩

theorem embeds_rx_asyncio {F : DrainRing → Prop} (hF : ∀ s t, F s → WorkerMoves s t → F t)
    (hset : ∀ s rx, F s → F (rxLoc.set rx s)) :
    Embeds (outline.contract .asyncio) rxLoc (WakeCtx.outline.contract .asyncio) F where
  inv := fun s hs => hs.rx
  rely := fun s t hFs hm _ => ⟨hm.rx, hF s t hFs hm⟩
  step := by
    rintro s rx hs hFs hg hrx
    have hm : WakeCtx.AsyncioMoves s.rx rx := hg
    have hacc : rx.q.accepted = s.rx.q.accepted := hm.queue.accepted
    exact ⟨⟨hm, rfl, rfl, le_rfl, rfl, rfl, id, fun _ h => .inl h⟩,
      hs.setRx hrx (hacc ▸ List.prefix_rfl),
      hset s rx hFs⟩

/-! ## Writers -/

/-- The asyncio thread inside a call that has not decided. -/
structure Calling (k : EventType) (s : DrainRing) : Prop where
  signal : s.signal = k
  rx : s.rx.AsyncioIdle
  result : s.result = none
  waiting : s.waiting = none

variable {k : EventType}

theorem Calling.stable (h : s.Calling k) (hm : WorkerMoves s t) : t.Calling k :=
  ⟨hm.signal.trans h.signal, h.rx.stable hm.rx, hm.result.trans h.result,
    hm.waiting.trans h.waiting⟩

/-- A call has found no room: the flag was armed, and as long as it is set the ring is as it was
seen. -/
structure Refused (r : Refusal) (s : DrainRing) : Prop where
  mark : s.mark ≠ none
  tail : s.tail = r.tail
  capacity : s.capacity = r.capacity
  full : sub32 r.capacity (diff32 r.tail r.head) < r.need
  held : s.drainPending = true → s.head = r.head ∨ s.popped = true

theorem Refused.stable {r : Refusal} (h : s.Refused r) (hm : WorkerMoves s t) : t.Refused r := by
  refine ⟨hm.mark ▸ h.mark, hm.tail.trans h.tail, hm.capacity.trans h.capacity, h.full,
    fun ht => ?_⟩
  obtain ⟨hs, hhead, hpop⟩ := hm.flag ht
  rcases hhead with hhead | hp
  · rcases h.held hs with heq | hp
    · exact .inl (hhead.trans heq)
    · exact .inr (hpop hp)
  · exact .inr hp

/-- There is room for `need` bytes. -/
def Fits (need : ℕ) (s : DrainRing) : Prop :=
  s.signal = .streamTxDrained → s.tail + need ≤ s.head + s.capacity

theorem Fits.stable {need : ℕ} (h : s.Fits need) (hm : WorkerMoves s t) : t.Fits need := by
  intro hsig
  rw [hm.tail, hm.capacity]
  exact (h (hm.signal ▸ hsig)).trans (Nat.add_le_add_right hm.head_le _)

/-- The arithmetic of the room check. -/
theorem Inv.fits (hs : Inv s) {need tail capacity : ℕ} (ht : s.tail = tail)
    (hc : s.capacity = capacity)
    (h : need ≤ sub32 capacity (diff32 tail s.head)) : s.Fits need := by
  intro hsig
  obtain ⟨hle, hcap, hlt⟩ := hs.window hsig
  subst ht hc
  rw [diff32_eq hle (by omega), sub32_eq (by omega) hlt] at h
  omega

theorem armStore_keeps (hs : Inv s) (h : s.Calling k) :
    AsyncioMoves s s.armStore ∧ Inv s.armStore ∧ s.armStore.Calling k := by
  refine ⟨⟨.refl _, rfl, rfl, le_rfl, rfl, rfl, fun _ => rfl, fun _ _ => .inr rfl⟩, ?_,
    h.signal, h.rx, h.result, h.waiting⟩
  refine ⟨hs.rx, hs.window, ?_, fun m hm => ?_, fun r hr => ?_⟩
  · show (if s.drainPending then s.raised else s.raised + 1) = s.taken + 1
    have hcount := hs.count
    cases hp : s.drainPending <;> rw [hp] at hcount <;> simp_all
  · cases hm
    exact ⟨le_rfl, .inl rfl⟩
  · exact absurd (h.waiting.symm.trans hr) (by simp)

theorem checkRoom_spec {need : ℕ} (h : s.Calling k) :
    wp (outline.contract .asyncio) (checkRoom need)
      (fun o t => t.Calling k ∧ match o with
        | none => t.Fits need
        | some r => t.Refused r) s := by
  unfold checkRoom
  refine wp_load_bind fun t hst ht => ?_
  dsimp only
  refine wp_load_bind fun u htu hu => ?_
  have hcu := (h.stable hst).stable htu
  split
  · rename_i hle
    exact ⟨hcu, hu.fits htu.tail htu.capacity hle⟩
  · refine wp_modify_bind fun v huv hv => ?_
    obtain ⟨hm, hi, hcv⟩ := armStore_keeps hv (hcu.stable huv)
    refine ⟨hm, hi, wp_load_bind fun w hvw hw => ?_⟩
    have htail : w.tail = t.tail := (hvw.tail.trans huv.tail).trans htu.tail
    have hcap : w.capacity = t.capacity := (hvw.capacity.trans huv.capacity).trans htu.capacity
    have hcw := hcv.stable hvw
    split
    · rename_i hle
      exact ⟨hcw, hw.fits htail hcap hle⟩
    · rename_i hfull
      refine ⟨hcw, ?_, htail, hcap, Nat.lt_of_not_le hfull, fun _ => .inl rfl⟩
      rw [hvw.mark]
      exact Option.some_ne_none _

/-- A call begins, returns, or makes the ring. -/
theorem beginCall_keeps (hs : Inv s) (h : s.AsyncioIdle) :
    AsyncioMoves s s.beginCall ∧ Inv s.beginCall ∧ s.beginCall.Calling s.signal :=
  ⟨⟨.refl _, rfl, rfl, le_rfl, rfl, rfl, id, nofun⟩, ⟨hs.rx, hs.window, hs.count, nofun, nofun⟩,
    rfl, h.rx, rfl, rfl⟩

theorem endCall_keeps {rc : ℤ} (hs : Inv s) (h : s.Calling k) (hrc : rc ≠ 0) :
    AsyncioMoves s (s.endCall rc) ∧ Inv (s.endCall rc) ∧ (s.endCall rc).AsyncioIdle :=
  ⟨⟨.refl _, rfl, rfl, le_rfl, rfl, rfl, id, fun _ h => .inl h⟩,
    ⟨hs.rx, hs.window, hs.count, hs.signalled, hs.waiting⟩, h.rx,
    fun h0 => absurd (Option.some.inj h0) hrc⟩

theorem endCall_spec {rc : ℤ} (h : s.Calling k) (hrc : rc ≠ 0) :
    wp (outline.contract .asyncio) (modify (endCall rc)) (fun _ => AsyncioIdle) s :=
  wp_modify fun _ hst ht => endCall_keeps ht (h.stable hst) hrc

theorem refuse_spec {r : Refusal} (h : s.Calling k) (hr : s.Refused r) :
    wp (outline.contract .asyncio) (modify (refuse r)) (fun _ => AsyncioIdle) s := by
  refine wp_modify fun t hst ht => ?_
  have hr' := hr.stable hst
  refine ⟨⟨.refl _, rfl, rfl, le_rfl, rfl, rfl, id, fun _ h => .inl h⟩, ?_, (h.stable hst).rx,
    fun _ => Option.some_ne_none r⟩
  refine ⟨ht.rx, ht.window, ht.count, ht.signalled, fun r' hw => ?_⟩
  obtain rfl : r = r' := Option.some.inj hw
  exact ⟨hr'.mark, hr'.tail, hr'.capacity, hr'.full, hr'.held⟩

/-- The tail store of a call. -/
theorem publish_keeps (tail : ℕ) (hs : Inv s) (h : s.Calling k) (hle : s.tail ≤ tail)
    (hfit : s.signal = .streamTxDrained → tail ≤ s.head + s.capacity) :
    AsyncioMoves s (s.publish tail) ∧ Inv (s.publish tail) ∧ (s.publish tail).Calling k := by
  refine ⟨⟨.refl _, rfl, rfl, hle, rfl, rfl, id, fun _ h => .inl h⟩, ?_, h.signal, h.rx,
    h.result, h.waiting⟩
  refine ⟨hs.rx, fun hsig => ?_, hs.count, hs.signalled, fun r hr => ?_⟩
  · obtain ⟨hw, -, hlt⟩ := hs.window hsig
    exact ⟨hw.trans hle, hfit hsig, hlt⟩
  · exact absurd (h.waiting.symm.trans hr) (by simp)

/-- A push of bytes that fit takes all of them. -/
theorem pushBytes_spec {len : ℕ} (h : s.Calling .streamTxDrained) (hlen : 0 < len)
    (hfit : s.Fits len) :
    wp (outline.contract .asyncio) (pushBytes len)
      (fun n t => n = len ∧ t.Calling .streamTxDrained) s := by
  unfold pushBytes
  refine wp_load_bind fun t hst ht => ?_
  dsimp only
  refine wp_load_bind fun u htu hu => ?_
  have hsigu : u.signal = .streamTxDrained := ((h.stable hst).stable htu).signal
  obtain ⟨hle, hcap, hlt⟩ := hu.window hsigu
  have hroom := (hfit.stable hst).stable htu hsigu
  have hfree : sub32 t.capacity (diff32 t.tail u.head) = u.capacity - (u.tail - u.head) := by
    rw [← htu.capacity, ← htu.tail, diff32_eq hle (by omega), sub32_eq (by omega) hlt]
  rw [hfree, if_neg (by omega), min_eq_left (by omega)]
  refine wp_modify_bind fun v huv hv => ?_
  have hcv := ((h.stable hst).stable htu).stable huv
  have htail : v.tail = t.tail := huv.tail.trans htu.tail
  obtain ⟨hm, hi, hc⟩ := publish_keeps (t.tail + len) hv hcv (by omega) fun hs => by
    have := (((hfit.stable hst).stable htu).stable huv) hs
    omega
  exact ⟨hm, hi, rfl, hc⟩

theorem sendData_spec {len capacity : ℕ} (h : s.AsyncioIdle) (hsig : s.signal = .streamTxDrained)
    (hcap : capacity < 2 ^ 32) :
    wp (outline.contract .asyncio) (sendData len capacity) (fun _ => AsyncioIdle) s := by
  unfold sendData
  refine wp_modify_bind fun t hst ht => ?_
  obtain ⟨hm, hi, hct⟩ := beginCall_keeps ht (h.stable hst)
  rw [hst.signal, hsig] at hct
  refine ⟨hm, hi, ?_⟩
  -- everything after the ring is there
  have hmain : ∀ u : DrainRing, u.Calling .streamTxDrained →
      wp (outline.contract .asyncio) (load (·.capacity) >>= fun cap =>
        if cap < len then modify (endCall (-2))
        else if len = 0 then modify (endCall 1)
        else do
          let refusal ← checkRoom len
          match refusal with
          | some r => modify (refuse r)
          | none => do
            let accepted ← pushBytes len
            modify (endCall (if accepted ≠ len then 0 else 1))) (fun _ => AsyncioIdle) u := by
    intro u hcu
    refine wp_load_bind fun v huv hv => ?_
    have hcv := hcu.stable huv
    split
    · exact endCall_spec hcv (by decide)
    · split
      · exact endCall_spec hcv (by decide)
      · rename_i hlen
        refine wp_seq (checkRoom_spec hcv) hv fun o w hw hpost => ?_
        obtain ⟨hcw, hpost⟩ := hpost
        cases o with
        | some r => exact refuse_spec hcw hpost
        | none =>
          refine wp_seq (pushBytes_spec hcw (Nat.pos_of_ne_zero hlen) hpost) hw fun n x hx hpost =>
            ?_
          obtain ⟨rfl, hcx⟩ := hpost
          rw [if_neg (by simp)]
          exact endCall_spec hcx (by decide)
  refine wp_load_bind fun u htu hu => ?_
  have hcu := hct.stable htu
  refine wp_when_bind (fun h0 => ?_) (fun _ => hmain u hcu)
  refine wp_modify_bind fun v huv hv => ?_
  have hcv := hcu.stable huv
  have hzero : v.capacity = 0 := huv.capacity.trans h0
  refine ⟨⟨.refl _, rfl, rfl, le_rfl, rfl, rfl, id, fun _ h => .inl h⟩, ?_, ?_⟩
  · refine ⟨hv.rx, fun hs => ?_, hv.count, hv.signalled, fun r hr => ?_⟩
    · obtain ⟨hle, hwin, -⟩ := hv.window hs
      refine ⟨hle, ?_, hcap⟩
      show v.tail ≤ v.head + capacity
      omega
    · exact absurd (hcv.waiting.symm.trans hr) (by simp)
  · exact hmain _ ⟨hcv.signal, hcv.rx, hcv.result, hcv.waiting⟩

theorem pushRecord_spec {len maxRecord : ℕ} (h : s.AsyncioIdle)
    (hsig : s.signal = .datagramTxDrained) :
    wp (outline.contract .asyncio) (pushRecord len maxRecord) (fun _ => AsyncioIdle) s := by
  unfold pushRecord
  refine wp_modify_bind fun t hst ht => ?_
  obtain ⟨hm, hi, hct⟩ := beginCall_keeps ht (h.stable hst)
  rw [hst.signal, hsig] at hct
  refine ⟨hm, hi, ?_⟩
  split
  · exact endCall_spec hct (by decide)
  · refine wp_seq (checkRoom_spec hct) hi fun o u hu hpost => ?_
    obtain ⟨hcu, hpost⟩ := hpost
    cases o with
    | some r => exact refuse_spec hcu hpost
    | none =>
      refine wp_load_bind fun v huv hv => wp_modify_bind fun w hvw hw => ?_
      have hcw := (hcu.stable huv).stable hvw
      have htail : w.tail = v.tail := hvw.tail
      obtain ⟨hm, hi, hc⟩ := publish_keeps (v.tail + recHdr + len) hw hcw (by omega)
        fun hs => absurd (hcw.signal.symm.trans hs) (by decide)
      exact ⟨hm, hi, endCall_spec hc (by decide)⟩

/-- asyncio drains events. -/
theorem drainRx_spec (maxEvents : ℕ) (hs : Inv s) (h : s.AsyncioIdle) :
    wp (outline.contract .asyncio) ((WakeCtx.drain maxEvents).on rxLoc) (fun _ => AsyncioIdle)
    s := by
  refine wp_mono (wp_on (embeds_rx_asyncio (F := fun s => s.result = some 0 → s.waiting ≠ none) ?_
    (fun _ _ h => h)) h.refused (WakeCtx.drain_spec maxEvents hs.rx h.rx)) hs fun _ t _ ht => ?_
  · intro u v hu hm
    rw [hm.result, hm.waiting]
    exact hu
  · exact ⟨ht.1, ht.2⟩

/-! ## Pulls -/

/-- The worker inside a pull, before the exchange. -/
structure Pulling (k : EventType) (s : DrainRing) : Prop where
  signal : s.signal = k
  rx : s.rx.WorkerIdle
  firing : s.firing = false

theorem Pulling.stable (h : s.Pulling k) (hm : AsyncioMoves s t) : t.Pulling k :=
  ⟨hm.signal.trans h.signal, h.rx.stable hm.rx, hm.firing.trans h.firing⟩

/-- The worker has taken the flag when there were `n` events: it owes an event to every arm made so
far; one made since has set the flag again. -/
structure Firing (k : EventType) (n : ℕ) (s : DrainRing) : Prop where
  signal : s.signal = k
  popped : s.popped = false
  firing : s.firing = true
  marks : ∀ m, s.mark = some m → m ≤ n ∨ s.drainPending = true

theorem Firing.stable {n : ℕ} (h : s.Firing k n) (hm : AsyncioMoves s t) : t.Firing k n := by
  refine ⟨hm.signal.trans h.signal, hm.popped.trans h.popped, hm.firing.trans h.firing,
    fun m ht => ?_⟩
  rcases hm.mark m ht with hs | hp
  · exact (h.marks m hs).imp_right hm.pending
  · exact .inr hp

/-- The exchange of a pull. -/
theorem takeFlag_keeps (hs : Inv s) (h : s.Pulling k) :
    WorkerMoves s s.takeFlag ∧ Inv s.takeFlag := by
  refine ⟨⟨.refl _, rfl, rfl, rfl, rfl, rfl, rfl, le_rfl, nofun⟩, ?_⟩
  refine ⟨hs.rx, hs.window, ?_, fun m hm => ?_, fun r hr => ?_⟩
  · show s.raised = (if s.drainPending then s.taken + 1 else s.taken) + 0
    have hcount := hs.count
    cases hp : s.drainPending <;> rw [hp] at hcount <;> simpa using hcount
  · obtain ⟨hle, hsig⟩ := hs.signalled m hm
    refine ⟨hle, ?_⟩
    rcases hsig with hp | hf | ha
    · exact .inr (.inl hp)
    · exact absurd (h.firing.symm.trans hf) (by simp)
    · exact .inr (.inr ha)
  · obtain ⟨hmark, htail, hcap, hfull, -⟩ := hs.waiting r hr
    exact ⟨hmark, htail, hcap, hfull, nofun⟩

/-- The end of an answer that was queued as event number `n`. -/
theorem fired_keeps {n : ℕ} {before : List Entry} {e : Entry} (hs : Inv s) (h : s.Firing k n)
    (hrx : s.rx.WorkerIdle) (hn : before.length = n) (he : e.eventType = k)
    (hacc : s.rx.q.accepted = before ++ [e]) :
    WorkerMoves s (s.fired 0) ∧ Inv (s.fired 0) ∧ (s.fired 0).WorkerIdle := by
  refine ⟨⟨.refl _, rfl, rfl, rfl, rfl, rfl, rfl, le_rfl, fun h => ⟨h, .inl rfl, id⟩⟩, ?_, hrx,
    h.popped, rfl⟩
  refine ⟨hs.rx, hs.window, hs.count, fun m hm => ⟨(hs.signalled m hm).1, ?_⟩, hs.waiting⟩
  rcases h.marks m hm with hle | hp
  · refine .inr (.inr ⟨e, ?_, he.trans h.signal.symm⟩)
    show e ∈ s.rx.q.accepted.drop m
    rw [hacc, List.drop_append_of_le_length (by omega)]
    simp
  · exact .inl hp

/-- The end of a pull leaves no arm without its event. -/
theorem drainTake_spec {event : Entry} (he : event.eventType = k) (h : s.Pulling k) :
    wp (outline.contract .worker) (drainTake event) (fun _ => WorkerIdle) s := by
  unfold drainTake
  refine wp_rmw_bind fun t hst ht => ?_
  have ht' := h.stable hst
  obtain ⟨hm, hi⟩ := takeFlag_keeps ht ht'
  refine ⟨hm, hi, ?_⟩
  unfold when
  split
  · rename_i htaken
    have hfiring : t.takeFlag.Firing k t.rx.q.accepted.length :=
      ⟨ht'.signal, rfl, htaken, fun m hmark => .inl (ht.signalled m hmark).1⟩
    refine wp_seq (wp_on (embeds_rx_worker (fun _ _ h hm => Firing.stable h hm) fun _ _ h => ?_)
      hfiring
      (WakeCtx.rxPush_spec (·.eventType = k) he he ht.rx ht'.rx)) hi fun rc u hu hpost => ?_
    · exact ⟨h.signal, h.popped, h.firing, h.marks⟩
    obtain ⟨⟨rfl, hrx, e, he', hacc⟩, hfiring⟩ := hpost
    refine wp_modify fun v huv hv => ?_
    exact fired_keeps hv (hfiring.stable huv) (hrx.stable huv.rx) rfl he'
      (huv.rx.queue.accepted.trans hacc)
  · rename_i htaken
    have hno : t.drainPending = false := by simpa using htaken
    exact ⟨ht'.rx, rfl, hno⟩

/-- The head store of a pop. -/
theorem popStore_keeps (head : ℕ) (hs : Inv s) (h : s.Pulling k) (hle : s.head ≤ head)
    (hfit : s.signal = .streamTxDrained → head ≤ s.tail) :
    WorkerMoves s (s.popStore head) ∧ Inv (s.popStore head) ∧ (s.popStore head).Pulling k := by
  refine ⟨⟨.refl _, rfl, rfl, rfl, rfl, rfl, rfl, hle, fun h => ⟨h, .inr rfl, fun _ => rfl⟩⟩, ?_,
    h.signal, h.rx, h.firing⟩
  refine ⟨hs.rx, fun hsig => ?_, hs.count, hs.signalled, fun r hr => ?_⟩
  · obtain ⟨-, hwin, hlt⟩ := hs.window hsig
    exact ⟨hfit hsig, hwin.trans (Nat.add_le_add_right hle _), hlt⟩
  · obtain ⟨hmark, htail, hcap, hfull, -⟩ := hs.waiting r hr
    exact ⟨hmark, htail, hcap, hfull, fun _ => .inr rfl⟩

theorem pullStream_spec {streamId cnx session limit : ℕ} (h : s.WorkerIdle)
    (hsig : s.signal = .streamTxDrained) :
    wp (outline.contract .worker) (pullStream streamId cnx session limit) (fun _ => WorkerIdle)
    s := by
  have hpull : s.Pulling .streamTxDrained := ⟨hsig, h.rx, h.firing⟩
  unfold pullStream
  refine wp_load_bind fun t hst ht => wp_load_bind fun u htu hu => ?_
  have hpu := (hpull.stable hst).stable htu
  dsimp only
  refine wp_when_bind (fun hpos => ?_) (fun _ => drainTake_spec rfl hpu)
  simp only [bind_assoc]
  refine wp_load_bind fun v huv hv => wp_load_bind fun w hvw hw => ?_
  have hpw := (hpu.stable huv).stable hvw
  refine wp_when_bind (fun havail => ?_) (fun _ => drainTake_spec rfl hpw)
  refine wp_modify_bind fun x hwx hx => ?_
  have hhead : w.head = v.head := hvw.head
  have hheadx : x.head = w.head := hwx.head
  have htailx : w.tail ≤ x.tail := hwx.tail_le
  obtain ⟨hle, hwin, hlt⟩ := hw.window hpw.signal
  have hdiff : diff32 w.tail v.head = w.tail - w.head := by
    rw [← hhead]
    exact diff32_eq hle (by omega)
  rw [hdiff]
  obtain ⟨hm, hi, hpx⟩ :=
    popStore_keeps (v.head + min (min (diff32 t.tail u.head) limit) (w.tail - w.head))
    hx (hpw.stable hwx) (by omega) fun _ => by omega
  exact ⟨hm, hi, drainTake_spec rfl hpx⟩

theorem prepareDatagram_spec {cnx rec length : ℕ} {buffer : Bool} (h : s.WorkerIdle)
    (hsig : s.signal = .datagramTxDrained) :
    wp (outline.contract .worker) (prepareDatagram cnx rec length buffer) (fun _ => WorkerIdle)
    s := by
  have hpull : s.Pulling .datagramTxDrained := ⟨hsig, h.rx, h.firing⟩
  unfold prepareDatagram when
  split
  · refine wp_load_bind fun t hst ht => wp_modify_bind fun u htu hu => ?_
    have hpu := (hpull.stable hst).stable htu
    have hhead : u.head = t.head := htu.head
    obtain ⟨hm, hi, hpu'⟩ := popStore_keeps (t.head + recHdr + rec) hu hpu (by omega)
      fun hs => absurd (hpu.signal.symm.trans hs) (by decide)
    exact ⟨hm, hi, drainTake_spec rfl hpu'⟩
  · exact h

/-- Another event for the RX side. -/
theorem rxEvent_spec {e : Entry} {data : List UInt8} (hs : Inv s) (h : s.WorkerIdle) :
    wp (outline.contract .worker) ((WakeCtx.pushCall e data).on rxLoc) (fun _ => WorkerIdle) s := by
  refine wp_mono (wp_on (embeds_rx_worker (F := fun s => s.popped = false ∧ s.firing = false) ?_
    (fun _ _ h => h)) ⟨h.popped, h.firing⟩ (WakeCtx.pushCall_spec hs.rx h.rx)) hs fun _ t _ ht => ?_
  · exact fun u v h hm => ⟨hm.popped.trans h.1, hm.firing.trans h.2⟩
  · exact ⟨ht.1, ht.2.1, ht.2.2⟩

/-! ## Every run -/

theorem outline_sound : outline.Sound := by
  rintro i s p hs hidle hp
  cases hp with
  | sendData _ len capacity hsig hcap => exact sendData_spec hidle hsig hcap
  | pushRecord _ len maxRecord hsig => exact pushRecord_spec hidle hsig
  | drainRx _ maxEvents => exact drainRx_spec maxEvents hs hidle
  | pullStream _ streamId cnx session limit hsig => exact pullStream_spec hidle hsig
  | prepareDatagram _ cnx rec length buffer hsig => exact prepareDatagram_spec hidle hsig
  | rxEvent _ e data => exact rxEvent_spec hs hidle

/-- The two rings as they are made. -/
def IsInit (s : DrainRing) : Prop :=
  ∃ geo, s = stream geo ∨ ∃ capacity, s = dgram geo capacity

theorem IsInit.inv (h : s.IsInit) : Inv s := by
  obtain ⟨geo, rfl | ⟨capacity, rfl⟩⟩ := h
  · exact ⟨WakeCtx.create_inv geo, fun _ => ⟨le_rfl, le_rfl, Nat.two_pow_pos 32⟩, rfl, nofun, nofun⟩
  · exact ⟨WakeCtx.create_inv geo, nofun, rfl, nofun, nofun⟩

theorem IsInit.idle (h : s.IsInit) (i : Thread) : outline.idle i s := by
  obtain ⟨geo, rfl | ⟨capacity, rfl⟩⟩ := h
  · cases i with
    | worker => exact ⟨WakeCtx.create_idle geo .worker, rfl, rfl⟩
    | asyncio => exact ⟨WakeCtx.create_idle geo .asyncio, nofun⟩
  · cases i with
    | worker => exact ⟨WakeCtx.create_idle geo .worker, rfl, rfl⟩
    | asyncio => exact ⟨WakeCtx.create_idle geo .asyncio, nofun⟩

/-- After a call that returned `0`, the flag it armed is still set and the ring as full as the call
saw it, or a pull is about to take the flag or to queue the drain event, or a drain event was queued
after the arm; and every flag that was set was taken by one pull, or is still set. -/
theorem refused_writer_is_woken {s₀ : DrainRing} (h₀ : s₀.IsInit) {c : Config Thread DrainRing}
    (hc : Reachable Menu s₀ c) :
    c.mem.raised = c.mem.taken + c.mem.drainPending.toNat ∧
    (c.Idle .asyncio → c.mem.result = some 0 → ∃ r m, c.mem.waiting = some r ∧ c.mem.mark = some m ∧
      ((c.mem.drainPending = true ∧ c.mem.tail = r.tail ∧ c.mem.head = r.head ∧ c.mem.capacity =
      r.capacity ∧
          sub32 r.capacity (diff32 r.tail r.head) < r.need) ∨
        (¬ c.Idle .worker ∧ (c.mem.drainPending = true ∧ c.mem.popped = true ∨ c.mem.firing = true))
        ∨
        c.mem.Answered m)) := by
  have h := outline.reachable outline_sound h₀.inv h₀.idle hc
  have hinv : Inv c.mem := h.1
  have hbusy : c.mem.popped = true ∨ c.mem.firing = true → ¬ c.Idle .worker := by
    intro hb hidle
    have hw : WorkerIdle c.mem := h.idle hidle
    rcases hb with hb | hb
    · exact absurd (hw.popped.symm.trans hb) (by simp)
    · exact absurd (hw.firing.symm.trans hb) (by simp)
  refine ⟨hinv.count, fun hidle hres => ?_⟩
  have ha : AsyncioIdle c.mem := h.idle hidle
  obtain ⟨r, hr⟩ := Option.ne_none_iff_exists'.1 (ha.refused hres)
  obtain ⟨hmark, htail, hcap, hfull, hheld⟩ := hinv.waiting r hr
  obtain ⟨m, hm⟩ := Option.ne_none_iff_exists'.1 hmark
  refine ⟨r, m, hr, hm, ?_⟩
  rcases (hinv.signalled m hm).2 with hp | hf | hans
  · rcases hheld hp with hhead | hpop
    · exact .inl ⟨hp, htail, hhead, hcap, hfull⟩
    · exact .inr (.inl ⟨hbusy (.inl hpop), .inl ⟨hp, hpop⟩⟩)
  · exact .inr (.inl ⟨hbusy (.inr hf), .inr hf⟩)
  · exact .inr (.inr hans)

/-- A write fills the ring, the next one is refused, and then a pull takes the flag. -/
def wokenRun : Config Thread DrainRing :=
  (((Config.start (stream (.ofExp 2 Geometry.exp_two))).call .asyncio (sendData 4 4)).drive
    (.replicate 10 .asyncio)).call .asyncio (sendData 1 4) |>.drive (.replicate 8 .asyncio)
    |>.call .worker (pullStream 4 1 0 2) |>.drive (.replicate 24 .worker)

theorem refused_writer_is_woken_wokenRun :
    wokenRun.mem.result = some 0 ∧ wokenRun.mem.raised = 1 ∧ wokenRun.mem.taken = 1 ∧
      ∃ r m, wokenRun.mem.waiting = some r ∧ wokenRun.mem.mark = some m ∧
        ((wokenRun.mem.drainPending = true ∧ wokenRun.mem.tail = r.tail ∧
        wokenRun.mem.head = r.head ∧
            wokenRun.mem.capacity = r.capacity ∧ sub32 r.capacity (diff32 r.tail r.head) < r.need) ∨
          (¬ wokenRun.Idle .worker ∧
            (wokenRun.mem.drainPending = true ∧ wokenRun.mem.popped = true ∨
            wokenRun.mem.firing = true)) ∨
          wokenRun.mem.Answered m) := by
  have h₀ : Reachable Menu (stream (.ofExp 2 (by decide))) (Config.start _) := .refl
  have h₁ := (h₀.call (i := .asyncio) rfl (.sendData _ 4 4 rfl (by decide))).drive
    (.replicate 10 .asyncio)
  have h₂ := (h₁.call (i := .asyncio) rfl (.sendData _ 1 4 rfl (by decide))).drive
    (.replicate 8 .asyncio)
  have h₃ := (h₂.call (i := .worker) rfl (.pullStream _ 4 1 0 2 rfl)).drive (.replicate 24 .worker)
  have hwoken := refused_writer_is_woken ⟨_, .inl rfl⟩ h₃
  refine ⟨by decide, by decide, by decide, hwoken.2 ?_ (by decide)⟩
  exact Config.idle_of_isIdle (by decide)

end DrainRing

end Aiopquic
