import Aiopquic.TxActiveWriter

/-!
# The TX event ring and the packet loop (`callback.h`)

A producer that pushed a command wakes the worker only if `tx_worker_idle` says that the worker may
be asleep. The worker sets the flag before a wait that can block and looks at the ring again; every
callback of the packet loop clears it. A producer that found the ring full arms
`tx_event_ring_drain_pending`, and the worker answers with `TX_EVENT_RING_DRAINED` once the ring is
at or below its low water mark.

`TxLoop` has both flags, the ring, the RX queue that takes the answers, and the wake of the packet
loop. The last fields are section and history variables: `blocked` and `armed` follow the worker's
wait, `draining` its drain loop, `firing` its answer, `deciding` and `posting` a producer's wake
decision, and `arms` the calls that armed the drain signal, the newest first.
-/

namespace Aiopquic

open Interleave Interleave.Prog Circular

/-- A call of `aiopquic_arm_tx_event_ring_drain_pending`: the RX events there were at its store,
whether the ring was at or below low water then, and what the call returned. -/
structure Arm where
  mark : ℕ
  atLow : Bool
  result : Option Bool
  deriving DecidableEq, Repr

/-- The part of `aiopquic_ctx_t` that the TX event ring and the packet loop share. -/
structure TxLoop where
  ring : SpscRing
  lowWater : ℕ
  drainPending : Bool
  rx : WakeCtx
  workerIdle : Bool
  workerArmedAt : ℕ
  wakeLost : ℕ
  /-- A wake is posted to the packet loop and not yet taken. -/
  wake : Bool
  /-- The worker is in a wait that can block. -/
  blocked : Bool
  /-- The worker set its idle flag on an empty ring and has not left the wait since. -/
  armed : Bool
  /-- The worker is in its drain loop. -/
  draining : Bool
  /-- The worker took the drain flag and has not yet queued the answer. -/
  firing : Bool
  /-- A producer began a push at this tail and has not yet settled its wake. -/
  deciding : Option ℕ
  /-- A producer took the idle flag and has not yet posted the wake. -/
  posting : Bool
  arms : List Arm

namespace TxLoop

/-- The rings of a new context, with the worker running. -/
def init (txGeo rxGeo : Geometry) (lowWaterPct : ℕ) (env : Option ℤ) : TxLoop where
  ring := .create txGeo
  lowWater := TxSide.lowWaterOf txGeo.capacity (TxSide.wakePct lowWaterPct env)
  drainPending := false
  rx := .create rxGeo
  workerIdle := false
  workerArmedAt := 0
  wakeLost := 0
  wake := false
  blocked := false
  armed := false
  draining := false
  firing := false
  deciding := none
  posting := false
  arms := []

/-- The TX event ring. -/
def ringLoc : Loc TxLoop SpscRing where
  get := (·.ring)
  set := fun ring s => { s with ring := ring }
  get_set := fun _ _ => rfl

/-- The RX queue. -/
def rxLoc : Loc TxLoop WakeCtx where
  get := (·.rx)
  set := fun rx s => { s with rx := rx }
  get_set := fun _ _ => rfl

/-- Nothing is queued for the worker. -/
def Empty (s : TxLoop) : Prop := s.ring.tail ≤ s.ring.head

instance (s : TxLoop) : Decidable s.Empty := inferInstanceAs (Decidable (_ ≤ _))

/-- The ring is at or below its low water mark. -/
def AtLow (s : TxLoop) : Prop := s.ring.tail - s.ring.head ≤ s.lowWater

instance (s : TxLoop) : Decidable s.AtLow := inferInstanceAs (Decidable (_ ≤ _))

/-! ## The producer -/

/-- The exchange of `tx_worker_idle` to 0 by a producer. -/
def takeIdle (s : TxLoop) : TxLoop := { s with workerIdle := false, posting := s.workerIdle }

/-- `aiopquic_tx_wake_needed`. -/
def txWakeNeeded : Prog TxLoop Bool := do
  let idle ← load (·.workerIdle)
  if idle = false then pure false else rmw takeIdle (·.workerIdle)

/-- `picoquic_wake_up_network_thread`. -/
def postWake (s : TxLoop) : TxLoop := { s with wake := true, posting := false }

/-- `TransportContext.wake_up`, and the last step of every push. -/
def wakeUp : Prog TxLoop Unit := do
  let needed ← txWakeNeeded
  when needed (modify postWake)

/-- A push of a command with its wake decision. -/
def push (e : Entry) (data : List UInt8) : Prog TxLoop ℤ := do
  modify fun s => { s with deciding := some s.ring.tail }
  let rc ← (SpscRing.push e data).on ringLoc
  when (rc = 0) wakeUp
  modify fun s => { s with deciding := none }
  pure rc

/-- The store of `tx_event_ring_drain_pending`. -/
def armStore (s : TxLoop) : TxLoop :=
  { s with
    drainPending := true
    arms := ⟨s.rx.q.accepted.length, decide s.AtLow, none⟩ :: s.arms }

/-- The newest call has returned `waits`. -/
def answer (waits : Bool) (s : TxLoop) : TxLoop :=
  { s with
    arms := match s.arms with
      | [] => []
      | a :: rest => { a with result := some waits } :: rest }

/-- `aiopquic_arm_tx_event_ring_drain_pending`. -/
def armDrainPending : Prog TxLoop Bool := do
  modify armStore
  let count ← SpscRing.count.on ringLoc
  let lowWater ← load (·.lowWater)
  let waits := decide (lowWater < count)
  modify (answer waits)
  pure waits

/-! ## The worker -/

/-- `AIOPQUIC_TX_WAKE_LOST_US`. -/
def wakeLostUs : ℕ := 50000

/-- What the clearing of the idle flag does when the flag was still set after a long wait. -/
def noteLost : Prog TxLoop Unit := do
  let entry ← SpscRing.peek.on ringLoc
  when (entry.isSome = true) <| modify fun s => { s with wakeLost := s.wakeLost + 1 }

/-- The head of `aiopquic_loop_cb`, at time `now`: whatever callback it is, the worker is
running. -/
def clearIdle (now : ℕ) : Prog TxLoop Unit := do
  let idle ← load (·.workerIdle)
  if idle = false then pure ()
  else do
    let armedAt ← load (·.workerArmedAt)
    if armedAt = 0 then modify fun s => { s with workerIdle := false }
    else do
      let was ← rmw (fun s => { s with workerIdle := false }) (·.workerIdle)
      when (was = true ∧ wakeLostUs ≤ diff64 now armedAt) noteLost

/-- The packet loop leaves the wait and makes a callback. -/
def leaveWait (s : TxLoop) : TxLoop := { s with blocked := false, armed := false }

/-- The idle flag is set before a wait. -/
def setIdle (s : TxLoop) : TxLoop := { s with workerIdle := true, armed := decide s.Empty }

/-- `aiopquic_tx_worker_idle_arm`. -/
def txWorkerIdleArm : Prog TxLoop Bool := do
  modify setIdle
  let entry ← SpscRing.peek.on ringLoc
  if entry = none then pure false
  else do
    modify fun s => { s with workerIdle := false, armed := false }
    pure true

/-- `picoquic_packet_loop_time_check`, with `tc->current_time` and `tc->delta_t`. With nothing
queued the worker waits, and blocks if `delta_t` is positive; otherwise it enters the drain loop. -/
def timeCheck (now currentTime : ℕ) (deltaT : ℤ) : Prog TxLoop Unit := do
  modify leaveWait
  clearIdle now
  if 0 < deltaT then do
    modify fun s => { s with workerArmedAt := if wakeLostUs ≤ deltaT then currentTime else 0 }
    let queued ← txWorkerIdleArm
    if queued then modify fun s => { s with draining := true }
    else modify fun s => { s with blocked := true }
  else do
    let entry ← SpscRing.peek.on ringLoc
    when (entry.isSome = true) <| modify fun s => { s with draining := true }

/-- `picoquic_packet_loop_wake_up`: the packet loop takes the wake, and the worker enters the drain
loop. -/
def wakeUpCb (now : ℕ) : Prog TxLoop Unit := do
  modify fun s => { s.leaveWait with wake := false }
  clearIdle now
  modify fun s => { s with draining := true }

/-- Any other callback of the packet loop. -/
def otherCb (now : ℕ) : Prog TxLoop Unit := do
  modify leaveWait
  clearIdle now

/-- The compare-exchange of `tx_event_ring_drain_pending` from 1 to 0. -/
def takePending (s : TxLoop) : TxLoop := { s with drainPending := false, firing := s.drainPending }

/-- The worker is done with its answer; out of memory, it arms the flag again. -/
def fired (rc : ℤ) (s : TxLoop) : TxLoop :=
  { s with drainPending := if rc = 0 then s.drainPending else true, firing := false }

/-- `aiopquic_maybe_fire_tx_event_ring_drained`. -/
def maybeFireDrained : Prog TxLoop Unit := do
  let pending ← load (·.drainPending)
  if pending = false then pure ()
  else do
    let count ← SpscRing.count.on ringLoc
    let lowWater ← load (·.lowWater)
    if lowWater < count then pure ()
    else do
      let taken ← rmw takePending (·.drainPending)
      if taken = false then pure ()
      else do
        let rc ← (WakeCtx.rxPush { eventType := .txEventRingDrained } []).on rxLoc
        modify (fired rc)

/-- One turn of the drain loop: an entry is handled and popped, or the loop ends with
`aiopquic_tx_event_ring_drained_final`. -/
def drainTurn : Prog TxLoop Unit := do
  let entry ← SpscRing.peek.on ringLoc
  match entry with
  | none => do
    maybeFireDrained
    modify fun s => { s with draining := false }
  | some _ => do
    SpscRing.pop.on ringLoc
    maybeFireDrained

/-! ## Runs -/

/-- A call that drops its result. -/
def call {α : Type} (p : Prog TxLoop α) : Prog TxLoop Unit := do
  let _ ← p
  pure ()

/-- Pushes, wakes, arms and RX drains of the asyncio thread; callbacks of the packet loop in any
order, the drain loop of one ending before the next begins; and the other events the worker queues
on the RX side. -/
inductive Menu : Thread → TxLoop → Prog TxLoop Unit → Prop
  | push (s : TxLoop) (e : Entry) (data : List UInt8) : Menu .asyncio s (call (push e data))
  | wakeUp (s : TxLoop) : Menu .asyncio s wakeUp
  | arm (s : TxLoop) : Menu .asyncio s (call armDrainPending)
  | drainRx (s : TxLoop) (maxEvents : ℕ) : Menu .asyncio s ((WakeCtx.drain maxEvents).on rxLoc)
  | timeCheck (s : TxLoop) (now currentTime : ℕ) (deltaT : ℤ) (h : s.draining = false) :
      Menu .worker s (timeCheck now currentTime deltaT)
  | wakeUpCb (s : TxLoop) (now : ℕ) (h : s.draining = false) : Menu .worker s (wakeUpCb now)
  | otherCb (s : TxLoop) (now : ℕ) (h : s.draining = false) : Menu .worker s (otherCb now)
  | drainTurn (s : TxLoop) (h : s.draining = true) : Menu .worker s drainTurn
  | rxEvent (s : TxLoop) (e : Entry) (data : List UInt8) (h : e.eventType ≠ .txEventRingDrained) :
      Menu .worker s ((WakeCtx.pushCall e data).on rxLoc)

/-! ## The proof outline -/

/-- The producer has published its entry and not yet settled the wake. -/
def Deciding (s : TxLoop) : Prop := ∃ n, s.deciding = some n ∧ n < s.ring.tail

/-- A `TX_EVENT_RING_DRAINED` is queued on the RX side, after the first `mark` events. -/
def Answered (mark : ℕ) (s : TxLoop) : Prop :=
  ∃ e ∈ s.rx.q.accepted.drop mark, e.eventType = .txEventRingDrained

/-- Nobody waits for a signal that the worker owes: the flag is down, or the newest call found the
ring at or below low water, or the ring is above low water. -/
def Quiet (s : TxLoop) : Prop :=
  s.drainPending = false ∨ (∃ a rest, s.arms = a :: rest ∧ a.atLow = true) ∨ ¬ s.AtLow

/-- What holds between any two steps. -/
structure Inv (s : TxLoop) : Prop where
  ring : s.ring.Wf
  rx : s.rx.Inv
  /-- A wait begins with the idle flag set on an empty ring. -/
  blocked : s.blocked = true → s.armed = true
  /-- The flag of a waiting worker is taken only by a producer that wakes it. -/
  flag : s.armed = true → s.workerIdle = true ∨ s.posting = true ∨ s.wake = true
  /-- A waiting worker misses nothing. -/
  covered : s.armed = true → s.Empty ∨ s.wake = true ∨ s.Deciding
  marks : ∀ a ∈ s.arms, a.mark ≤ s.rx.q.accepted.length
  /-- An arm keeps its signal alive. -/
  signalled : ∀ a ∈ s.arms, s.Answered a.mark ∨ s.drainPending = true ∨ s.firing = true
  /-- An arm at or below low water does not make its caller wait. -/
  retried : ∀ a ∈ s.arms, a.atLow = true → a.result ≠ some true
  quiet : s.draining = false → s.Quiet

/-- A step of the worker. -/
structure WorkerMoves (s s' : TxLoop) : Prop where
  ring : SpscRing.ConsumerMoves s.ring s'.ring
  rx : WakeCtx.WorkerMoves s.rx s'.rx
  lowWater : s'.lowWater = s.lowWater
  deciding : s'.deciding = s.deciding
  posting : s'.posting = s.posting
  arms : s'.arms = s.arms
  armed : s'.armed = true → s.armed = true ∧ (s.wake = true → s'.wake = true) ∨ s'.Empty

/-- A step of the asyncio thread. -/
structure AsyncioMoves (s s' : TxLoop) : Prop where
  ring : SpscRing.ProducerMoves s.ring s'.ring
  rx : WakeCtx.AsyncioMoves s.rx s'.rx
  armed : s'.armed = s.armed
  blocked : s'.blocked = s.blocked
  lowWater : s'.lowWater = s.lowWater
  draining : s'.draining = s.draining
  firing : s'.firing = s.firing
  pending : s.drainPending = true → s'.drainPending = true
  arms : ∀ a ∈ s'.arms, (∃ b ∈ s.arms, b.mark = a.mark) ∨ s'.drainPending = true
  quiet : s.Quiet → s'.Quiet

variable {s s' t : TxLoop}

theorem WorkerMoves.refl (s : TxLoop) : WorkerMoves s s :=
  ⟨.refl _, .refl _, rfl, rfl, rfl, rfl, fun h => .inl ⟨h, id⟩⟩

/-- The worker leaves an empty ring empty. -/
theorem Empty.stable (h : s.Empty) (hm : SpscRing.ConsumerMoves s.ring s'.ring) : s'.Empty := by
  rw [Empty, hm.tail]
  exact le_trans h hm.head_le

theorem WorkerMoves.trans (h : WorkerMoves s s') (h' : WorkerMoves s' t) : WorkerMoves s t := by
  refine ⟨h.ring.trans h'.ring, h.rx.trans h'.rx, h'.lowWater.trans h.lowWater,
    h'.deciding.trans h.deciding, h'.posting.trans h.posting, h'.arms.trans h.arms, fun ht => ?_⟩
  rcases h'.armed ht with ⟨ha, hw⟩ | he
  · rcases h.armed ha with ⟨ha', hw'⟩ | he
    · exact .inl ⟨ha', fun hs => hw (hw' hs)⟩
    · exact .inr (he.stable h'.ring)
  · exact .inr he

theorem AsyncioMoves.refl (s : TxLoop) : AsyncioMoves s s :=
  ⟨.refl _, .refl _, rfl, rfl, rfl, rfl, rfl, id, fun a ha => .inl ⟨a, ha, rfl⟩, id⟩

theorem AsyncioMoves.trans (h : AsyncioMoves s s') (h' : AsyncioMoves s' t) : AsyncioMoves s t := by
  refine ⟨h.ring.trans h'.ring, h.rx.trans h'.rx, h'.armed.trans h.armed,
    h'.blocked.trans h.blocked,
    h'.lowWater.trans h.lowWater, h'.draining.trans h.draining, h'.firing.trans h.firing,
    fun hp => h'.pending (h.pending hp), fun a ha => ?_, fun hq => h'.quiet (h.quiet hq)⟩
  rcases h'.arms a ha with ⟨b, hb, hmark⟩ | hp
  · rcases h.arms b hb with ⟨c, hc, hmark'⟩ | hp
    · exact .inl ⟨c, hc, hmark'.trans hmark⟩
    · exact .inr (h'.pending hp)
  · exact .inr hp

/-- A waiting worker has an empty ring or a wake. -/
def Settled (s : TxLoop) : Prop := s.armed = true → s.Empty ∨ s.wake = true

theorem Settled.stable (h : s.Settled) (hm : WorkerMoves s s') : s'.Settled := by
  intro ha
  rcases hm.armed ha with ⟨ha', hw⟩ | he
  · rcases h ha' with he | hwake
    · exact .inl (he.stable hm.ring)
    · exact .inr (hw hwake)
  · exact .inl he

/-- The worker outside an operation. -/
structure WorkerIdle (s : TxLoop) : Prop where
  rx : s.rx.WorkerIdle
  claimed : s.ring.claimed = false
  firing : s.firing = false

/-- The asyncio thread between two accesses of the rings. -/
structure Calling (d : Option ℕ) (s : TxLoop) : Prop where
  rx : s.rx.AsyncioIdle
  deciding : s.deciding = d
  posting : s.posting = false

/-- The asyncio thread outside an operation. -/
structure AsyncioIdle (s : TxLoop) : Prop extends Calling none s where
  settled : s.Settled

theorem WorkerIdle.stable (h : s.WorkerIdle) (hm : AsyncioMoves s s') : s'.WorkerIdle :=
  ⟨h.rx.stable hm.rx, hm.ring.claimed.trans h.claimed, hm.firing.trans h.firing⟩

theorem Calling.stable {d : Option ℕ} (h : s.Calling d) (hm : WorkerMoves s s') : s'.Calling d :=
  ⟨h.rx.stable hm.rx, hm.deciding.trans h.deciding, hm.posting.trans h.posting⟩

theorem AsyncioIdle.stable (h : s.AsyncioIdle) (hm : WorkerMoves s s') : s'.AsyncioIdle :=
  ⟨h.toCalling.stable hm, h.settled.stable hm⟩

/-- The rely–guarantee outline. -/
def outline : Outline Menu :=
  duo Inv WorkerMoves AsyncioMoves WorkerIdle AsyncioIdle .refl .trans .refl .trans
    (fun h hm _ => h.stable hm) (fun h hm _ => h.stable hm)

end TxLoop

end Aiopquic
