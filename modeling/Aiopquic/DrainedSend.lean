import Aiopquic.Lib.Steps
import Mathlib.Logic.Function.Basic
import Mathlib.Data.Nat.Notation

/-!
# `send_stream_data_drained` on one event loop (`connection.py`, `webtransport.py`)

Coroutines of any number of connections share one transport. A send that raises `BufferError` has
armed the drain flag of the stream's ring or of the TX event ring. The coroutine then makes two
tasks that wait on the stream's and on the transport's `asyncio.Event`, and waits for the first. The
tasks start at a later turn of the loop, and every coroutine clears both events before it sends.

`ready` is the queue of the loop. A step runs any of its callbacks; the loop itself always runs the
first. Python may drain an RX event between any two callbacks, and every event reaches the
connection it is for. A stream is one life of its drain event: a stream that is used again after
`STREAM_DESTROY` is a new one.
-/

namespace Aiopquic

/-- What refused a send: the ring of the stream, or the TX event ring. -/
inductive Refuser
  | stream
  | ring
  deriving DecidableEq, Repr

/-- A task that waits on an event: not started, or in the event's list of waiters. -/
inductive WaitTask
  | created
  | registered
  deriving DecidableEq, Repr

/-- Where a coroutine is: in a callback of the loop, at `ring_event.wait()` under ring pressure, at
the `asyncio.wait` after a `BufferError` with its two tasks, or out. -/
inductive SendPhase
  | running
  | pressed
  | waiting (refuser : Refuser) (sc ring : WaitTask)
  | done
  deriving DecidableEq, Repr

structure SendCoroutine where
  stream : ℕ := 0
  phase : SendPhase := .done
  deriving DecidableEq, Repr

/-- A callback of the loop: the first turn of a coroutine's task, or a turn on the coroutine's way
back to its loop, with the number of turns that follow. -/
inductive LoopCallback
  | startSc (co : ℕ)
  | startRing (co : ℕ)
  | turn (co later : ℕ)
  deriving DecidableEq, Repr

inductive SignalEvt
  | streamTxDrained (stream : ℕ)
  | txEventRingDrained
  | streamDestroy (stream : ℕ)
  | close (conn : ℕ)
  deriving DecidableEq, Repr

/-- What one pass of the coroutine's loop meets: the TX event ring above `hard_wait_at`, still so
after the arm or not; or a send that ends the loop, by its return or by another exception, or raises
`BufferError`. -/
inductive PassAnswer
  | pressure (holds : Bool)
  | ended
  | refused (refuser : Refuser)
  deriving DecidableEq, Repr

/-- The pass gets to the send. -/
def PassAnswer.sends : PassAnswer → Bool
  | .pressure _ => false
  | _ => true

/-- `raw` says whether the coroutines are of `QuicConnection`, which stop when their stream is
retired. -/
structure DrainedSend where
  raw : Bool
  /-- The connection, or session, of a stream. -/
  conn : ℕ → ℕ
  closed : ℕ → Bool := fun _ => false
  retired : ℕ → Bool := fun _ => false
  scEvent : ℕ → Bool := fun _ => false
  ringEvent : Bool := false
  /-- `sc->tx_drain_pending`. -/
  scPending : ℕ → Bool := fun _ => false
  /-- `tx_event_ring_drain_pending`. -/
  ringPending : Bool := false
  rx : List SignalEvt := []
  coroutines : ℕ → SendCoroutine := fun _ => {}
  spawned : ℕ := 0
  ready : List LoopCallback := []

namespace DrainedSend

def setPhase (s : DrainedSend) (i : ℕ) (phase : SendPhase) : DrainedSend :=
  { s with coroutines := Function.update s.coroutines i { s.coroutines i with phase := phase } }

/-! ## Events -/

/-- The coroutines that `woken` picks go on after `later` further turns of the loop. -/
def wake (s : DrainedSend) (woken : SendCoroutine → Bool) (later : ℕ) : DrainedSend :=
  { s with
    coroutines := fun i =>
      if woken (s.coroutines i) then { s.coroutines i with phase := .running } else s.coroutines i
    ready := s.ready ++ ((List.range s.spawned).filter fun i => woken (s.coroutines i)).map
      (.turn · later) }

/-- The turns from the set of an event to the loop of a coroutine that waits for a task: the task,
the completion of the wait, the coroutine that cancels the other task, that task, and `gather`. -/
def turns : ℕ := 5

/-- The coroutine waits with a task that is in the list of the event of `stream`. -/
def atSc (stream : ℕ) (c : SendCoroutine) : Bool :=
  match c.phase with
  | .waiting _ .registered _ => c.stream = stream
  | _ => false

/-- The coroutine waits with a task that is in the list of the transport's event. -/
def atRing (c : SendCoroutine) : Bool :=
  match c.phase with
  | .waiting _ _ .registered => true
  | _ => false

/-- `set` of a stream's event. -/
def setSc (s : DrainedSend) (stream : ℕ) : DrainedSend :=
  { s with scEvent := Function.update s.scEvent stream true }.wake (atSc stream) turns

/-- `set` of the transport's event. -/
def setRing (s : DrainedSend) : DrainedSend :=
  ({ s with ringEvent := true }.wake atRing turns).wake (fun c => c.phase = SendPhase.pressed) 0

/-- `drain_rx` and the handler of one event. -/
def handle (s : DrainedSend) : SignalEvt → DrainedSend
  | .streamTxDrained stream => s.setSc stream
  | .txEventRingDrained => s.setRing
  | .streamDestroy stream =>
    { s.setSc stream with retired := Function.update s.retired stream true }
  | .close conn =>
    { s with
      closed := Function.update s.closed conn true
      scEvent := fun stream => if s.conn stream = conn then true else s.scEvent stream
      }.wake (fun c => s.conn c.stream = conn ∧ atSc c.stream c) turns |>.setRing

/-! ## The loop of a coroutine -/

/-- Both events are cleared before the send. -/
def clearBoth (s : DrainedSend) (i : ℕ) : DrainedSend :=
  { s with scEvent := Function.update s.scEvent (s.coroutines i).stream false, ringEvent := false }

/-- A refused send has armed the flag of what refused it. -/
def arm (s : DrainedSend) (i : ℕ) : Refuser → DrainedSend
  | .stream => { s with scPending := Function.update s.scPending (s.coroutines i).stream true }
  | .ring => { s with ringPending := true }

/-- The pass returns at once. -/
def Over (s : DrainedSend) (i : ℕ) : Prop :=
  s.closed (s.conn (s.coroutines i).stream) = true ∨ s.raw = true ∧
    s.retired (s.coroutines i).stream = true

instance (s : DrainedSend) (i : ℕ) : Decidable (s.Over i) := inferInstanceAs (Decidable (_ ∨ _))

/-- One pass of the `while` loop of `send_stream_data_drained`. -/
def pass (s : DrainedSend) (i : ℕ) (answer : PassAnswer) : DrainedSend :=
  if s.Over i then s.setPhase i .done
  else
    match answer with
    | .pressure holds =>
      let s := { s with ringEvent := false, ringPending := true }
      if holds then s.setPhase i .pressed else { s with ready := .turn i 0 :: s.ready }
    | .ended => (s.clearBoth i).setPhase i .done
    | .refused r =>
      let s := ((s.clearBoth i).arm i r).setPhase i (.waiting r .created .created)
      { s with ready := s.ready ++ [.startSc i, .startRing i] }

/-- The first turn of a task: it is done if its event is set, and becomes a waiter of it if not. -/
def start (s : DrainedSend) (i : ℕ) (isSet : Bool) (phase : SendPhase) : DrainedSend :=
  if isSet then { s.setPhase i .running with ready := s.ready ++ [.turn i (turns - 1)] }
  else s.setPhase i phase

/-- A callback runs. A task of a coroutine that no longer waits for it does nothing. -/
def call (s : DrainedSend) (answer : PassAnswer) : LoopCallback → DrainedSend
  | .startSc i =>
    match (s.coroutines i).phase with
    | .waiting r .created ring =>
      s.start i (s.scEvent (s.coroutines i).stream) (.waiting r .registered ring)
    | _ => s
  | .startRing i =>
    match (s.coroutines i).phase with
    | .waiting r sc .created => s.start i s.ringEvent (.waiting r sc .registered)
    | _ => s
  | .turn i (later + 1) => { s with ready := s.ready ++ [.turn i later] }
  | .turn i 0 => if (s.coroutines i).phase = .running then s.pass i answer else s

/-! ## Runs -/

inductive Act
  /-- A coroutine is called; `later` turns pass before its loop. -/
  | spawn (stream later : ℕ)
  /-- The loop runs the callback at a place of its queue. -/
  | run (place : ℕ) (answer : PassAnswer)
  | cancel (co : ℕ)
  /-- The worker takes an armed flag of a stream, and pushes `STREAM_TX_DRAINED`. -/
  | fireSc (stream : ℕ)
  | fireRing
  /-- The worker pushes another event. -/
  | push (ev : SignalEvt)
  | drain
  deriving DecidableEq, Repr

/-- One step. -/
def step (s : DrainedSend) : Act → Option DrainedSend
  | .spawn stream later =>
    some { s with
      coroutines := Function.update s.coroutines s.spawned ⟨stream, .running⟩
      spawned := s.spawned + 1
      ready := s.ready ++ [.turn s.spawned later] }
  | .run k answer => (s.ready[k]?).map fun c => { s with ready := s.ready.eraseIdx k }.call answer c
  | .cancel i => some (s.setPhase i .done)
  | .fireSc stream =>
    if s.scPending stream = true then
      some { s with
        scPending := Function.update s.scPending stream false, rx :=
          s.rx ++ [.streamTxDrained stream] }
    else none
  | .fireRing =>
    if s.ringPending = true
      then some { s with ringPending := false, rx := s.rx ++ [.txEventRingDrained] }
    else none
  | .push ev =>
    match ev with
    | .streamDestroy _ | .close _ => some { s with rx := s.rx ++ [ev] }
    | _ => none
  | .drain =>
    match s.rx with
    | [] => none
    | ev :: rx => some ({ s with rx := rx }.handle ev)

/-- The drain flag of what refused a coroutine on `stream` is armed, or its event is queued. -/
def Backed (s : DrainedSend) (stream : ℕ) : Refuser → Prop
  | .stream => s.scPending stream = true ∨ .streamTxDrained stream ∈ s.rx
  | .ring => s.ringPending = true ∨ .txEventRingDrained ∈ s.rx

instance (s : DrainedSend) (stream : ℕ) : DecidablePred (s.Backed stream)
  | .stream => inferInstanceAs (Decidable (_ ∨ _))
  | .ring => inferInstanceAs (Decidable (_ ∨ _))

/-- No coroutine that waits after a `BufferError` is forgotten. -/
def Remembered (s : DrainedSend) : Prop :=
  ∀ i r sc ring, (s.coroutines i).phase = .waiting r sc ring →
    s.scEvent (s.coroutines i).stream = true ∨ s.ringEvent = true ∨
      s.Backed (s.coroutines i).stream r

/-- What a pass of `i` owes to a coroutine `w` in a phase: where `w` waits and its signal is spent,
the pass clears no set event that a task of `w` has yet to look at. -/
def Spares (s : DrainedSend) (i : ℕ) (answer : PassAnswer) (w : ℕ) : SendPhase → Prop
  | .waiting r sc ring => s.Backed (s.coroutines w).stream r ∨
    (ring = .created → s.ringEvent = false) ∧
      (answer.sends = true → (s.coroutines w).stream = (s.coroutines i).stream → sc = .created →
        s.scEvent (s.coroutines w).stream = false)
  | _ => True

instance (s : DrainedSend) (i : ℕ) (answer : PassAnswer) (w : ℕ) : DecidablePred
    (s.Spares i answer w)
  | .waiting _ _ _ => inferInstanceAs (Decidable (_ ∨ _))
  | .running | .pressed | .done => .isTrue trivial

/-- A callback that is a pass of a coroutine spares the others. -/
def Considerate (s : DrainedSend) (answer : PassAnswer) : Option LoopCallback → Prop
  | some (.turn i 0) => (s.coroutines i).phase = .running → ¬ s.Over i →
      ∀ w < s.spawned, s.Spares i answer w (s.coroutines w).phase
  | _ => True

instance (s : DrainedSend) (answer : PassAnswer) : DecidablePred (s.Considerate answer)
  | some (.turn _ 0) => inferInstanceAs (Decidable (_ → _ → ∀ w < s.spawned, _))
  | none | some (.turn _ (_ + 1)) | some (.startSc _) | some (.startRing _) => .isTrue trivial

/-- What a step of a run has to meet. -/
def Ok (s : DrainedSend) : Act → Prop
  | .run k answer => s.Considerate answer s.ready[k]?
  | _ => True

instance (s : DrainedSend) : DecidablePred s.Ok
  | .run _ _ => inferInstanceAs (Decidable (s.Considerate _ _))
  | .spawn _ _ | .cancel _ | .fireSc _ | .fireRing | .push _ | .drain => .isTrue trivial

/-! ## The invariant -/

/-- A coroutine that waits has its signal to come, or has a task that will find its event set. -/
def Heard (s : DrainedSend) (c : SendCoroutine) : Prop :=
  ∀ r sc ring, c.phase = .waiting r sc ring →
    s.Backed c.stream r ∨ sc = .created ∧ s.scEvent c.stream = true ∨ ring = .created ∧
      s.ringEvent = true

structure Inv (s : DrainedSend) : Prop where
  unspawned : ∀ i, s.spawned ≤ i → (s.coroutines i).phase = .done
  heard : ∀ i, s.Heard (s.coroutines i)

variable {s s' : DrainedSend}

theorem Inv.remembered (h : s.Inv) : s.Remembered := by
  intro i r sc ring hphase
  rcases h.heard i r sc ring hphase with hb | ⟨-, hsc⟩ | ⟨-, hring⟩
  · exact .inr (.inr hb)
  · exact .inl hsc
  · exact .inr (.inl hring)

/-- A coroutine that does not wait is in no need of a signal. -/
theorem heard_of_not_waiting {c : SendCoroutine} (h : ∀ r sc ring, c.phase ≠ .waiting r sc ring) :
    s.Heard c :=
  fun r sc ring hc => absurd hc (h r sc ring)

theorem Inv.setPhase (h : s.Inv) {i : ℕ} {phase : SendPhase} (hi : i < s.spawned ∨ phase = .done)
    (hheard : s.Heard ⟨(s.coroutines i).stream, phase⟩) : (s.setPhase i phase).Inv := by
  constructor
  · intro k hk
    by_cases hki : k = i
    · subst hki
      simpa [DrainedSend.setPhase] using hi.resolve_left (Nat.not_lt.2 hk)
    · simpa [DrainedSend.setPhase, hki] using h.unspawned k hk
  · intro k
    by_cases hki : k = i
    · subst hki
      rw [show (s.setPhase k phase).coroutines k = ⟨(s.coroutines k).stream, phase⟩ from
        Function.update_self ..]
      exact hheard
    · rw [show (s.setPhase i phase).coroutines k = s.coroutines k from Function.update_of_ne hki ..]
      exact h.heard k

/-- Only the coroutines that are not woken need what `Heard` says. -/
theorem Inv.wake {woken : SendCoroutine → Bool}
    (hdone : ∀ i, s.spawned ≤ i → (s.coroutines i).phase = .done)
    (hwoken : ∀ c, woken c = true → c.phase ≠ .done)
    (h : ∀ i, woken (s.coroutines i) = false → s.Heard (s.coroutines i)) (later : ℕ) :
    (s.wake woken later).Inv := by
  constructor
  · intro i hi
    have hno : woken (s.coroutines i) = false := Bool.eq_false_iff.2 fun hw =>
      hwoken _ hw (hdone i hi)
    simpa [DrainedSend.wake, hno] using hdone i hi
  · intro i
    by_cases hw : woken (s.coroutines i) = true
    · exact heard_of_not_waiting (by simp [DrainedSend.wake, hw])
    · rw [show (s.wake woken later).coroutines i = s.coroutines i from if_neg hw]
      exact h i (Bool.eq_false_iff.2 hw)

/-! ### The events -/

theorem atSc_eq_true {stream : ℕ} {c : SendCoroutine} {r : Refuser} {ring : WaitTask}
    (hphase : c.phase = .waiting r .registered ring) (hstream : c.stream = stream) :
    atSc stream c = true := by
  simp [atSc, hphase, hstream]

theorem atRing_eq_true {c : SendCoroutine} {r : Refuser} {sc : WaitTask}
    (hphase : c.phase = .waiting r sc .registered) : atRing c = true := by
  simp [atRing, hphase]

theorem phase_ne_done_of_atSc {stream : ℕ} {c : SendCoroutine} (h : atSc stream c = true) :
    c.phase ≠ .done := by
  intro hphase
  simp [atSc, hphase] at h

theorem phase_ne_done_of_atRing {c : SendCoroutine} (h : atRing c = true) : c.phase ≠ .done := by
  intro hphase
  simp [atRing, hphase] at h

/-- After the event of a stream is set, all coroutines on the stream are woken or will find it
set. -/
theorem Inv.setSc (hdone : ∀ i, s.spawned ≤ i → (s.coroutines i).phase = .done) {stream : ℕ}
    (h : ∀ i, (s.coroutines i).stream ≠ stream → s.Heard (s.coroutines i)) :
    (s.setSc stream).Inv := by
  apply Inv.wake (s := { s with scEvent := Function.update s.scEvent stream true }) hdone
    (fun c => phase_ne_done_of_atSc)
  intro i hno r sc ring hphase
  by_cases hstream : (s.coroutines i).stream = stream
  · cases sc with
    | created => exact .inr (.inl ⟨rfl, by simp [hstream]⟩)
    | registered => exact absurd (atSc_eq_true hphase hstream) (by simp [hno])
  · rcases h i hstream r sc ring hphase with hb | ⟨hsc, hset⟩ | hring
    · exact .inl hb
    · exact .inr (.inl ⟨hsc, by simp [hstream, hset]⟩)
    · exact .inr (.inr hring)

/-- After the transport's event is set, every coroutine is woken or will find it set. -/
theorem Inv.setRing (hdone : ∀ i, s.spawned ≤ i → (s.coroutines i).phase = .done) :
    s.setRing.Inv := by
  have hinv : ({ s with ringEvent := true }.wake atRing turns).Inv := by
    apply Inv.wake (s := { s with ringEvent := true }) hdone (fun c => phase_ne_done_of_atRing)
    intro i hno r sc ring hphase
    cases ring with
    | created => exact .inr (.inr ⟨rfl, rfl⟩)
    | registered => exact absurd (atRing_eq_true hphase) (by simp [hno])
  exact Inv.wake hinv.unspawned (fun c hc => by simp_all) (fun i _ => hinv.heard i) 0

theorem Inv.drain (h : s.Inv) {ev : SignalEvt} {rx : List SignalEvt} (hrx : s.rx = ev :: rx) :
    ({ s with rx := rx }.handle ev).Inv := by
  -- only the event of a stream takes a signal from a coroutine, and only on that stream
  have hheard : ∀ i, .streamTxDrained (s.coroutines i).stream ≠ ev → .txEventRingDrained ≠ ev →
      Heard { s with rx := rx } (s.coroutines i) := by
    intro i hsc hring r sc ring hphase
    rcases h.heard i r sc ring hphase with hb | hset
    · refine .inl ?_
      cases r with
      | stream => exact hb.imp_right fun hm => (List.mem_cons.1 (hrx ▸ hm)).resolve_left hsc
      | ring => exact hb.imp_right fun hm => (List.mem_cons.1 (hrx ▸ hm)).resolve_left hring
    · exact .inr hset
  cases ev with
  | streamTxDrained stream =>
    exact Inv.setSc (s := { s with rx := rx }) h.unspawned fun i hi =>
      hheard i (by simpa using hi) (by simp)
  | txEventRingDrained => exact Inv.setRing (s := { s with rx := rx }) h.unspawned
  | streamDestroy stream =>
    have hinv : ({ s with rx := rx }.setSc stream).Inv :=
      Inv.setSc (s := { s with rx := rx }) h.unspawned fun i _ => hheard i (by simp) (by simp)
    exact ⟨hinv.unspawned, hinv.heard⟩
  | close conn =>
    apply Inv.setRing
    intro i hi
    have hphase := h.unspawned i hi
    simp [DrainedSend.wake, atSc, hphase]

/-! ### The loop -/

theorem Inv.start (h : s.Inv) {i : ℕ} (hi : i < s.spawned) {isSet : Bool} {phase : SendPhase}
    (hheard : isSet = false → s.Heard ⟨(s.coroutines i).stream, phase⟩) :
    (s.start i isSet phase).Inv := by
  unfold DrainedSend.start
  cases isSet with
  | true =>
    have hinv : (s.setPhase i .running).Inv := h.setPhase (.inl hi) (heard_of_not_waiting (by simp))
    exact ⟨hinv.unspawned, hinv.heard⟩
  | false => exact h.setPhase (.inl hi) (hheard rfl)

theorem Inv.lt_spawned (h : s.Inv) {i : ℕ} (hi : (s.coroutines i).phase ≠ .done) : i < s.spawned :=
  Nat.lt_of_not_le fun hle => hi (h.unspawned i hle)

theorem Inv.startSc (h : s.Inv) (answer : PassAnswer) (i : ℕ) :
    (s.call answer (.startSc i)).Inv := by
  simp only [call]
  split
  · rename_i r ring hphase
    apply h.start (h.lt_spawned (by simp [hphase]))
    intro hset r' sc' ring' heq
    cases heq
    rcases h.heard i r .created ring hphase with hb | ⟨-, hsc⟩ | hring
    · exact .inl hb
    · exact absurd hsc (by simp [hset])
    · exact .inr (.inr hring)
  · exact h

theorem Inv.startRing (h : s.Inv) (answer : PassAnswer) (i : ℕ) :
    (s.call answer (.startRing i)).Inv := by
  simp only [call]
  split
  · rename_i r sc hphase
    apply h.start (h.lt_spawned (by simp [hphase]))
    intro hset r' sc' ring' heq
    cases heq
    rcases h.heard i r sc .created hphase with hb | hsc | ⟨-, hring⟩
    · exact .inl hb
    · exact .inr (.inl hsc)
    · exact absurd hring (by simp [hset])
  · exact h

/-- A step of the signals on their way to Python. -/
theorem Inv.signal (h : s.Inv) {scPending : ℕ → Bool} {ringPending : Bool} {rx : List SignalEvt}
    (hb : ∀ stream r, s.Backed stream r →
      Backed { s with scPending := scPending, ringPending := ringPending, rx := rx } stream r) :
    Inv { s with scPending := scPending, ringPending := ringPending, rx := rx } :=
  ⟨h.unspawned, fun i r sc ring hphase => (h.heard i r sc ring hphase).imp_left (hb _ r)⟩

/-- What the condition leaves to a waiting coroutine. -/
theorem Spares.of_waiting {i w : ℕ} {answer : PassAnswer} {r : Refuser} {sc ring : WaitTask}
    (h : s.Spares i answer w (s.coroutines w).phase)
    (hphase : (s.coroutines w).phase = .waiting r sc ring) :
    s.Backed (s.coroutines w).stream r ∨ (ring = .created → s.ringEvent = false) ∧
      (answer.sends = true → (s.coroutines w).stream = (s.coroutines i).stream → sc = .created →
        s.scEvent (s.coroutines w).stream = false) := by
  rw [hphase] at h
  exact h

section Pass

variable {i : ℕ} {answer : PassAnswer}

theorem Inv.clearRing (h : s.Inv)
    (hok : ∀ w < s.spawned, s.Spares i answer w (s.coroutines w).phase) :
    Inv { s with ringEvent := false, ringPending := true } := by
  refine ⟨h.unspawned, fun w r sc ring hphase => ?_⟩
  have hphase : (s.coroutines w).phase = .waiting r sc ring := hphase
  have hbacked : s.Backed (s.coroutines w).stream r →
      Backed { s with ringEvent := false, ringPending := true } (s.coroutines w).stream r := by
    intro hb
    cases r with
    | stream => exact hb
    | ring => exact .inl rfl
  rcases h.heard w r sc ring hphase with hb | hsc | ⟨hring, hset⟩
  · exact .inl (hbacked hb)
  · exact .inr (.inl hsc)
  · -- the event that `w` has yet to look at is cleared
    rcases (hok w (h.lt_spawned (by simp [hphase]))).of_waiting hphase with hb | ⟨hclear, -⟩
    · exact .inl (hbacked hb)
    · rw [hclear hring] at hset
      cases hset

theorem Inv.clearBoth (h : s.Inv) (hsends : answer.sends = true)
    (hok : ∀ w < s.spawned, s.Spares i answer w (s.coroutines w).phase) : (s.clearBoth i).Inv := by
  refine ⟨h.unspawned, fun w r sc ring hphase => ?_⟩
  have hphase : (s.coroutines w).phase = .waiting r sc ring := hphase
  rcases (hok w (h.lt_spawned (by simp [hphase]))).of_waiting hphase with hb | ⟨hring, hsc⟩
  · exact .inl hb
  · rcases h.heard w r sc ring hphase with hb | ⟨hcreated, hset⟩ | ⟨hcreated, hset⟩
    · exact .inl hb
    · have hne : (s.coroutines w).stream ≠ (s.coroutines i).stream := by
        intro heq
        rw [hsc hsends heq hcreated] at hset
        cases hset
      exact .inr (.inl ⟨hcreated, (Function.update_of_ne hne ..).trans hset⟩)
    · rw [hring hcreated] at hset
      cases hset

theorem Inv.arm (h : s.Inv) (r : Refuser) : (s.arm i r).Inv := by
  cases r with
  | stream =>
    refine h.signal fun stream r hb => ?_
    cases r with
    | stream =>
      refine hb.imp_left fun hp => ?_
      by_cases hstream : stream = (s.coroutines i).stream
      · simp [hstream]
      · simpa [hstream] using hp
    | ring => exact hb
  | ring =>
    refine h.signal fun stream r hb => ?_
    cases r with
    | stream => exact hb
    | ring => exact .inl rfl

theorem backed_arm (r : Refuser) : (s.arm i r).Backed (s.coroutines i).stream r := by
  cases r with
  | stream => exact .inl (Function.update_self ..)
  | ring => exact .inl rfl

theorem Inv.pass (h : s.Inv) (hrun : (s.coroutines i).phase = .running)
    (hok : ¬ s.Over i → ∀ w < s.spawned, s.Spares i answer w (s.coroutines w).phase) :
    (s.pass i answer).Inv := by
  have hi : i < s.spawned := h.lt_spawned (by simp [hrun])
  unfold DrainedSend.pass
  split
  · exact h.setPhase (.inr rfl) (heard_of_not_waiting (by simp))
  · rename_i hover
    cases answer with
    | pressure holds =>
      have hinv := h.clearRing (hok hover)
      cases holds with
      | true => exact hinv.setPhase (.inl hi) (heard_of_not_waiting (by simp))
      | false => exact ⟨hinv.unspawned, hinv.heard⟩
    | ended =>
      exact (h.clearBoth rfl (hok hover)).setPhase (.inr rfl)
        (heard_of_not_waiting (by simp))
    | refused r =>
      have hinv : (((s.clearBoth i).arm i r).setPhase i (.waiting r .created .created)).Inv := by
        have hclear : ((s.clearBoth i).arm i r).Inv := (h.clearBoth rfl (hok hover)).arm r
        refine hclear.setPhase (.inl ?_) ?_
        · cases r <;> exact hi
        · intro r' sc ring heq
          cases heq
          refine .inl ?_
          have hstream : (((s.clearBoth i).arm i r).coroutines i).stream =
            (s.coroutines i).stream := by
            cases r <;> rfl
          rw [hstream]
          exact backed_arm (s := s.clearBoth i) r
      exact ⟨hinv.unspawned, hinv.heard⟩

end Pass

theorem Inv.step (h : s.Inv) {a : Act} (hok : s.Ok a) (hs : s.step a = some s') : s'.Inv := by
  cases a with
  | spawn stream later =>
    obtain rfl := Option.some.inj hs
    constructor
    · intro i hi
      have hlt : s.spawned < i := hi
      exact (congrArg SendCoroutine.phase (Function.update_of_ne (Nat.ne_of_gt hlt) ..)).trans
        (h.unspawned i (Nat.le_of_lt hlt))
    · intro i
      by_cases hi : i = s.spawned
      · subst hi
        exact heard_of_not_waiting (by simp)
      · dsimp only
        rw [Function.update_of_ne hi]
        exact h.heard i
  | run k answer =>
    simp only [DrainedSend.step, Option.map_eq_some_iff] at hs
    obtain ⟨c, hc, rfl⟩ := hs
    have hinv : Inv { s with ready := s.ready.eraseIdx k } := ⟨h.unspawned, h.heard⟩
    simp only [Ok, hc] at hok
    cases c with
    | startSc i => exact hinv.startSc answer i
    | startRing i => exact hinv.startRing answer i
    | turn i later =>
      cases later with
      | succ later => exact ⟨hinv.unspawned, hinv.heard⟩
      | zero =>
        simp only [call]
        split
        · rename_i hrun
          exact hinv.pass hrun (hok hrun)
        · exact hinv
  | cancel i =>
    obtain rfl := Option.some.inj hs
    exact h.setPhase (.inr rfl) (heard_of_not_waiting (by simp))
  | fireSc stream =>
    simp only [DrainedSend.step, Option.ite_none_right_eq_some, Option.some.injEq] at hs
    obtain ⟨-, rfl⟩ := hs
    refine h.signal fun stream' r hb => ?_
    cases r with
    | stream =>
      by_cases heq : stream' = stream
      · subst heq
        exact .inr (by simp)
      · rcases hb with hp | hm
        · exact .inl ((Function.update_of_ne heq ..).trans hp)
        · exact .inr (List.mem_append_left _ hm)
    | ring => exact hb.imp_right (List.mem_append_left _)
  | fireRing =>
    simp only [DrainedSend.step, Option.ite_none_right_eq_some, Option.some.injEq] at hs
    obtain ⟨-, rfl⟩ := hs
    refine h.signal fun stream' r hb => ?_
    cases r with
    | stream => exact hb.imp_right (List.mem_append_left _)
    | ring => exact .inr (by simp)
  | push ev =>
    have hs' : s' = { s with rx := s.rx ++ [ev] } := by
      cases ev <;> simp_all [DrainedSend.step]
    subst hs'
    refine h.signal fun stream' r hb => ?_
    cases r with
    | stream => exact hb.imp_right (List.mem_append_left _)
    | ring => exact hb.imp_right (List.mem_append_left _)
  | drain =>
    simp only [DrainedSend.step] at hs
    split at hs
    · cases hs
    · rename_i ev rx hrx
      obtain rfl := Option.some.inj hs
      exact h.drain hrx

/-- No coroutine yet. -/
def init (raw : Bool) (conn : ℕ → ℕ) : DrainedSend := { raw, conn }

theorem inv_init (raw : Bool) (conn : ℕ → ℕ) : (init raw conn).Inv :=
  ⟨fun _ _ => rfl, fun _ => heard_of_not_waiting (by simp [init])⟩

/-- In every run in which each pass spares the coroutines that have yet to look at a set event, no
coroutine that waits after a `BufferError` is forgotten. -/
theorem parked_sender_is_remembered {raw : Bool} {conn : ℕ → ℕ} {acts : List Act}
    (hok : Steps.Along step Ok (init raw conn) acts)
    (hrun : Steps.run step (init raw conn) acts = some s) : s.Remembered := by
  have hinv : s.Inv := Steps.invariant (I := Inv) (fun _ _ _ h hok hs => h.step hok hs)
    (inv_init raw conn) hok hrun
  exact hinv.remembered

/-- Two coroutines of one stream: the second is refused after the tasks of the first have started,
and the event that Python drains wakes the first. -/
def wokenActs : List Act :=
  [.spawn 4 0, .spawn 4 2, .run 0 (.refused .stream), .run 0 .ended, .run 0 .ended, .run 0 .ended,
    .run 0 .ended, .fireSc 4, .run 0 (.refused .ring), .drain]

theorem parked_sender_is_remembered_wokenActs :
    ∃ s, Steps.run step (init true fun _ => 0) wokenActs = some s ∧ s.Remembered ∧
      (s.coroutines 0).phase = .running ∧ (s.coroutines 1).phase = .waiting .ring .created
      .created := by
  refine ⟨_, rfl, parked_sender_is_remembered (s := _) ?_
    (rfl : Steps.run step (init true fun _ => 0) wokenActs = some _), rfl, rfl⟩
  decide

/-- The first coroutine is refused, Python drains the event before its tasks start, and the second,
which is already in the queue, clears the event and sends. The loop runs its callbacks in order. -/
def forgottenActs : List Act :=
  [.spawn 4 0, .spawn 4 0, .run 0 (.refused .stream), .fireSc 4, .drain, .run 0 .ended,
    .run 0 .ended,
    .run 0 .ended]

theorem parked_sender_is_remembered_forgottenActs :
    ∃ s, Steps.run step (init true fun _ => 0) forgottenActs = some s ∧
      (s.coroutines 0).phase = .waiting .stream .registered .registered ∧ s.ready = [] ∧
      ¬ s.Remembered := by
  refine ⟨_, rfl, rfl, rfl, fun h => ?_⟩
  have hforgotten := h 0 .stream .registered .registered rfl
  exact absurd hforgotten (by decide)

end DrainedSend

end Aiopquic
