import Aiopquic.Drains

/-!
# A drain whose handler raises (`_transport.pyx`)

`drain_rx_callback` calls its handler in three places. For the ends of a WebTransport stream and of
a raw stream it calls it bare; for every other event it catches what the handler raises, pushes the
credit of the cycle and raises it again. In no case is the entry popped, and in no case is the
eventfd cleared.

`drainRaising` is `drain_rx_callback` for a handler that may raise. With one that does not it is
`drainRxCallback` (`drainRaising_never`).
-/

namespace Aiopquic

open Traced

namespace DrainCtx

/-! ## The program -/

/-- What leaves a drain whose handler has raised: the entry that stays, the local variables, the
arguments of the call that raised, and the notes of the cycle at that moment. -/
structure HandlerRaised where
  entry : Entry
  loop : CallbackLoop
  event : DrainedEvent
  notes : List (ℕ × ℕ × ℕ)

/-- The handler raises in the call with `ev`. -/
def raiseFrom (e : Entry) (v : CallbackLoop) (ev : DrainedEvent) :
    Drain (Except HandlerRaised CallbackLoop) := do
  let s ← get
  pure (.error ⟨e, v, ev, s.pendingFc⟩)

/-- One entry in the loop of `drain_rx_callback`. `raises` tells of the calls so far whether the
last one raises. -/
def drainRaisingEntry (keeps raises : List DrainedEvent → Bool) (e : Entry) (v : CallbackLoop) :
    Drain (Except HandlerRaised CallbackLoop) := do
  if e.eventType = .wtStreamLinkRelease then do
    (match e.dataBuf with
      | .null => pure ()
      | .owned _ => emit .wild
      | .borrowed link => emit (.destroyLink link))
    onRx RxQueue.pop
    pure (.ok v.counted)
  else if e.eventType = .wtStreamDestroy then do
    let v := { v with calls := v.calls ++ [destroyEventOf e] }
    if raises v.calls then raiseFrom e v (destroyEventOf e)
    else do
      onRx RxQueue.pop
      pure (.ok v.counted)
  else if e.eventType = .streamDestroy then do
    let v := { v with calls := v.calls ++ [destroyEventOf e] }
    if raises v.calls then raiseFrom e v (destroyEventOf e)
    else do
      (if e.streamCtx ≠ 0 then emit (.destroy e.streamCtx) else pure ())
      onRx RxQueue.pop
      pure (.ok v.counted)
  else if e.eventType = .txEventRingDrained then do
    modify setDrainEvent
    onRx RxQueue.pop
    pure (.ok v.counted)
  else if e.eventType = .cnxSnapshot then do
    (if 0 < e.dataLength ∧ e.dataBuf ≠ .null then do
        let buf ← takeData e
        modify (storeSnapshot e.cnx buf e.dataLength)
      else pure ())
    onRx RxQueue.pop
    pure (.ok v.counted)
  else do
    let v ← v.clearData
    let (data, scPtr) ← drainRxCallbackData e
    if data = none ∧ (e.eventType = .streamData ∨ e.eventType = .wtStreamData) then do
      rxEventRelease e
      onRx RxQueue.pop
      pure (.ok v)
    else do
      let v := v.call keeps (eventOf e data scPtr)
      if raises v.calls then do
        -- `except BaseException`: the credit is pushed, the entry stays
        let raised ← raiseFrom e v (eventOf e data scPtr)
        flushPendingFc
        pure raised
      else do
        (if Ends e.eventType then modify (forgetSnapshot e.cnx) else pure ())
        rxEventRelease e
        onRx RxQueue.pop
        pure (.ok v.counted)

/-- The loop of `drain_rx_callback`. -/
def drainRaisingLoop (keeps raises : List DrainedEvent → Bool) :
    ℕ → CallbackLoop → Drain (Except HandlerRaised CallbackLoop)
  | 0, v => pure (.ok v)
  | n + 1, v => do
    let entry ← onRx RxQueue.peek
    match entry with
    | none => do
      let moved ← onRx RxQueue.refill
      if moved = 0 then pure (.ok v) else drainRaisingLoop keeps raises n v
    | some e => do
      let out ← drainRaisingEntry keeps raises e v
      match out with
      | .error raised => pure (.error raised)
      | .ok v => drainRaisingLoop keeps raises n v

/-- `drain_rx_callback`, for a handler that leaves the transport alone. On the way out the variable
`data` is let go of, also when the handler raised. -/
def drainRaising (keeps raises : List DrainedEvent → Bool) (maxEvents : ℤ) :
    Drain (Except HandlerRaised CallbackLoop) := do
  modify fun s => { s with pendingFc := [] }
  modify beginDrainCycle
  let _ ← onRx RxQueue.refill
  let out ← drainRaisingLoop keeps raises maxEvents.toNat {}
  match out with
  | .error raised => do
    let _ ← raised.loop.clearData
    pure (.error raised)
  | .ok v => do
    flushPendingFc
    modify clearRx
    let v ← v.clearData
    pure (.ok v)

/-! ## A handler that does not raise -/

section never

variable {keeps : List DrainedEvent → Bool} {e : Entry} {v : CallbackLoop} {α β : Type}

/-- The same run, with the result marked as a return. -/
def Returns (x : Drain (Except HandlerRaised α)) (y : Drain α) : Prop :=
  ∀ s, x s = (.ok (y s).1, (y s).2.1, (y s).2.2)

theorem Returns.pure (a : α) : Returns (pure (.ok a)) (pure a : Drain α) := fun _ => rfl

theorem Returns.both {x : Drain β} {g : β → Drain (Except HandlerRaised α)} {k : β → Drain α}
    (h : ∀ b, Returns (g b) (k b)) : Returns (x >>= g) (x >>= k) := by
  intro s
  rw [bind_apply, h]
  rfl

theorem Returns.ite {p : Prop} [Decidable p] {x x' : Drain (Except HandlerRaised α)}
    {y y' : Drain α} (h : p → Returns x y) (h' : ¬ p → Returns x' y') :
    Returns (if p then x else x') (if p then y else y') := by
  split
  · exact h ‹_›
  · exact h' ‹_›

theorem Returns.bind {x : Drain (Except HandlerRaised β)} {y : Drain β}
    {g : Except HandlerRaised β → Drain (Except HandlerRaised α)} {k : β → Drain α}
    (hx : Returns x y) (h : ∀ b, Returns (g (.ok b)) (k b)) : Returns (x >>= g) (y >>= k) := by
  intro s
  rw [bind_apply, hx, h]
  rfl

/-- A result that is only marked at the end. -/
theorem Returns.last (y : Drain α) : Returns (y >>= fun a => Pure.pure (.ok a)) y := by
  intro s
  rw [bind_apply]
  exact congrArg (fun l => (_, _, l)) (List.append_nil _)

theorem entry_never :
    Returns (drainRaisingEntry keeps (fun _ => false) e v) (drainRxCallbackEntry keeps e v) := by
  unfold drainRaisingEntry drainRxCallbackEntry
  refine .ite (fun _ => ?_) fun _ => .ite (fun _ => ?_) fun _ => .ite (fun _ => ?_)
    fun _ => .ite (fun _ => ?_) fun _ => .ite (fun _ => ?_) fun _ => ?_
  · exact .both fun _ => .both fun _ => .pure _
  · exact .both fun _ => .pure _
  · exact .both fun _ => .both fun _ => .pure _
  · exact .both fun _ => .both fun _ => .pure _
  · exact .both fun _ => .both fun _ => .pure _
  · refine .both fun v => .both fun d => .ite (fun _ => ?_) fun _ => ?_
    · exact .both fun _ => .both fun _ => .pure _
    · exact .both fun _ => .both fun _ => .both fun _ => .pure _

theorem loop_never (n : ℕ) :
    Returns (drainRaisingLoop keeps (fun _ => false) n v) (drainRxCallbackLoop keeps n v) := by
  induction n generalizing v with
  | zero => exact .pure v
  | succ n ih =>
    unfold drainRaisingLoop drainRxCallbackLoop
    refine .both fun entry => ?_
    cases entry with
    | none => exact .both fun moved => .ite (fun _ => .pure v) fun _ => ih
    | some e => exact .bind entry_never fun v => ih

/-- With a handler that never raises, this is `drain_rx_callback` as the two drains have it. -/
theorem drainRaising_never (keeps : List DrainedEvent → Bool) (maxEvents : ℤ) :
    Returns (drainRaising keeps (fun _ => false) maxEvents) (drainRxCallback keeps maxEvents) := by
  unfold drainRaising drainRxCallback
  refine .both fun _ => .both fun _ => .both fun _ => .bind (loop_never _) fun v => ?_
  exact .both fun _ => .both fun _ => .last v.clearData

end never

end DrainCtx

/-! ## What an entry shows -/

namespace Entry

open DrainCtx (eventOf destroyEventOf CarriesSnapshot)

/-- The events whose handler is called bare. -/
def Bare (e : Entry) : Prop := e.eventType = .wtStreamDestroy ∨ e.eventType = .streamDestroy

instance (e : Entry) : Decidable e.Bare := inferInstanceAs (Decidable (_ ∨ _))

/-- The drain takes the payload out of the entry, or the pointer to it. -/
def Loaded (e : Entry) : Prop := 0 < e.dataLength ∧ e.dataBuf ≠ .null

instance (e : Entry) : Decidable e.Loaded := inferInstanceAs (Decidable (_ ∧ _))

/-- The context whose bytes the entry announces. -/
def announced (e : Entry) : Option ℕ :=
  if (e.eventType = .streamData ∨ e.eventType = .streamFin) ∧ e.streamCtx ≠ 0
    then some e.streamCtx
  else
    match e.dataBuf with
    | .borrowed sc =>
      if e.dataLength = 0 ∧ (e.eventType = .wtStreamData ∨ e.eventType = .wtStreamFin)
        then some sc else none
    | _ => none

/-- The `sc_ptr` of the event. -/
def scPtr (e : Entry) : ℕ :=
  if e.Loaded then 0
  else if (e.eventType = .streamData ∨ e.eventType = .streamFin) ∧ e.streamCtx ≠ 0 then 0
  else
    match e.dataBuf with
    | .borrowed sc => if e.dataLength ≠ 0 then 0 else sc
    | _ => 0

/-- `data` can be what a drain takes from the entry: the payload, or bytes that have arrived in the
context it announces, or nothing. -/
def Shows (e : Entry) (data : Option ChunkView) : Prop :=
  if e.Loaded then data = if CarriesSnapshot e.eventType then none else some ⟨e.payload, none⟩
  else ∀ chunk, data = some chunk → chunk.sc ≠ none ∧ e.announced = chunk.sc

/-- `ev` can be what a drain passes to the handler for the entry. -/
def Presents (e : Entry) (ev : DrainedEvent) : Prop :=
  if e.Bare then ev = destroyEventOf e else ∃ data, ev = eventOf e data e.scPtr ∧ e.Shows data

/-- What a call of the handler leaves of the entry: it has no payload any more. -/
def left (e : Entry) : Entry :=
  if e.Bare then e else if e.Loaded then { e with dataBuf := .null, dataLength := 0 } else e

/-- The entry can go without a call: a drain handles it itself, or it announces bytes and finds
none. -/
def Quiet (e : Entry) : Prop :=
  e.eventType = .wtStreamLinkRelease ∨ e.eventType = .txEventRingDrained ∨
    e.eventType = .cnxSnapshot ∨ e.eventType = .streamData ∨ e.eventType = .wtStreamData

/-- A call of the handler, and whether it raised. -/
abbrev Call := DrainedEvent × Bool

/-- All calls for an entry until it is popped: it is presented anew after each one that raised, with
what the last one left of it. -/
def Told (e : Entry) : List Call → Prop
  | [] => e.Quiet
  | (ev, raised) :: calls => e.Presents ev ∧ if raised then e.left.Told calls else calls = []

/-- The calls so far for an entry that is still there, as `e'`: all raised. -/
def Trying (e e' : Entry) : List Call → Prop
  | [] => e' = e
  | (ev, raised) :: calls => e.Presents ev ∧ raised = true ∧ e.left.Trying e' calls

variable {e e' : Entry} {ev : DrainedEvent} {calls rest : List Call}

theorem Trying.again (h : e.Trying e' calls) (hev : e'.Presents ev) :
    e.Trying e'.left (calls ++ [(ev, true)]) := by
  induction calls generalizing e with
  | nil =>
    obtain rfl : e' = e := h
    exact ⟨hev, rfl, rfl⟩
  | cons call calls ih => exact ⟨h.1, h.2.1, ih h.2.2⟩

theorem Trying.told (h : e.Trying e' calls) (hrest : e'.Told rest) : e.Told (calls ++ rest) := by
  induction calls generalizing e with
  | nil =>
    obtain rfl : e' = e := h
    exact hrest
  | cons call calls ih =>
    obtain ⟨hev, hraised, htry⟩ := h
    refine ⟨hev, ?_⟩
    rw [if_pos hraised]
    exact ih htry

end Entry

end Aiopquic
