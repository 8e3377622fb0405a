import Aiopquic.AtomicSend
import Aiopquic.Lib.Steps

/-!
# Sends before the connection exists (`quic/connection.py`, `callback.h`)

A client's `_cnx_ptr` is `0` until the asyncio thread handles `ALMOST_READY`, which the worker posts
when it has created the connection. `send_stream_data` does not look at `_cnx_ptr`: it commits the
bytes and pushes a `TX_MARK_ACTIVE` that names whatever is there, and the worker drops a mark that
names no live connection.

Here a call of `tx_send_atomic` is one step, with the outcome that the room in the rings gives it. A
call is scheduled if a mark for its stream that names the live connection was pushed after its bytes
and is queued or was handled.
-/

namespace Aiopquic

/-- How a `send_stream_data` can raise. -/
inductive SendError
  | noMemory
  | noTransport
  | write (o : WriteOutcome)
  deriving DecidableEq, Repr

/-- One finished call of `send_stream_data`: what it was given, the context of its stream, whether
the connection was closed, and how it ended. -/
structure SendRecord where
  streamId : ℕ
  streamCtx : ℕ
  data : List UInt8
  endStream : Bool
  closed : Bool
  result : Except SendError Unit
  deriving DecidableEq

/-- It returned normally on a connection that was not closed. -/
def SendRecord.Accepted (r : SendRecord) : Prop := r.result = .ok () ∧ r.closed = false

instance : DecidablePred SendRecord.Accepted := fun _ => inferInstanceAs (Decidable (_ ∧ _))

/-- An entry of the TX event ring, with the number of calls that began before its push. -/
structure PostedEntry where
  entry : Entry
  after : ℕ
  deriving DecidableEq

/-- The worker's connection: not created yet, usable, closing, or deleted. -/
inductive Stage
  | absent
  | live
  | closing
  | deleted
  deriving DecidableEq, Repr

/-- What a stream's context was given to send. -/
structure Outgoing where
  bytes : List UInt8 := []
  fin : Bool := false
  deriving DecidableEq

/-- A client connection: the Python object, the two event rings, and the worker's connection.
`handled` and `calls` are history: the marks that reached picoquic, and the calls of
`send_stream_data`. -/
structure ClientLink where
  transport : Bool := false
  closed : Bool := false
  cnxPtr : ℕ := 0
  streamCtxs : ℕ → Option ℕ := fun _ => none
  tx : ℕ → Outgoing := fun _ => {}
  asked : Bool := false
  commands : List PostedEntry := []
  events : List (EventType × ℕ) := []
  cnx : ℕ := 0
  stage : Stage := .absent
  handled : List PostedEntry := []
  calls : List SendRecord := []

namespace ClientLink

/-! ## The asyncio thread -/

/-- `_get_or_create_stream_ctx`; `fresh` is what `stream_ctx_create` would return, `0` for
`NULL`. -/
def getOrCreateStreamCtx (s : ClientLink) (streamId fresh : ℕ) : Option (ℕ × ClientLink) :=
  if s.closed then some (0, s)
  else
    match s.streamCtxs streamId with
    | some sc => some (sc, s)
    | none =>
      if fresh = 0 then none
      else some (fresh, { s with streamCtxs := Function.update s.streamCtxs streamId (some fresh) })

/-- A push into the TX event ring. -/
def pushTx (s : ClientLink) (entry : Entry) (after : ℕ) : ClientLink :=
  { s with commands := s.commands ++ [⟨entry, after⟩] }

/-- What a `tx_send_atomic` that returns `0` does. -/
def commit (s : ClientLink) (streamId sc : ℕ) (data : List UInt8) (endStream : Bool) : ClientLink :=
  let before := s.tx sc
  let outgoing : Outgoing := ⟨before.bytes ++ SendSide.narrowed data, before.fin || endStream⟩
  let s := { s with tx := Function.update s.tx sc outgoing }
  s.pushTx (TxSide.markActive ⟨s.cnxPtr, streamId, sc⟩ sc) (s.calls.length + 1)

/-- `QuicConnection.send_stream_data`, with the outcome of its `tx_send_atomic`, and the context it
used. -/
def sendStreamData (s : ClientLink) (streamId fresh : ℕ) (data : List UInt8) (endStream : Bool)
    (outcome : WriteOutcome) : Except SendError Unit × ℕ × ClientLink :=
  if s.closed then (.ok (), 0, s)
  else
    match s.getOrCreateStreamCtx streamId fresh with
    | none => (.error .noMemory, 0, s)
    | some (sc, s) =>
      if sc = 0 then (.ok (), 0, s)
      else if s.transport = false then (.error .noTransport, sc, s)
      else if outcome = .sent then (.ok (), sc, s.commit streamId sc data endStream)
      else (.error (.write outcome), sc, s)

/-- A write that is all or nothing does to the context and the ring what the step does. -/
theorem sendStreamData_of_write {s : ClientLink} {r : WriteCall} (h : SendSide.AllOrNothing r)
    {streamId sc : ℕ}
    {taken : List Entry} (hclosed : s.closed = false) (htransport : s.transport = true)
    (hctx : s.streamCtxs streamId = some sc) (hsc : sc ≠ 0)
    (hmark : r.mark = TxSide.markActive ⟨s.cnxPtr, streamId, sc⟩ sc)
    (hbytes : r.before.bytes = (s.tx sc).bytes)
    (hfin : r.before.fin = (s.tx sc).fin) (hlog : r.before.log = taken ++ s.commands.map (·.entry))
    (fresh : ℕ) :
    let s' := (s.sendStreamData streamId fresh r.data r.endStream r.outcome).2.2
    r.after.bytes = (s'.tx sc).bytes ∧ r.after.fin = (s'.tx sc).fin ∧
      r.after.log = taken ++ s'.commands.map (·.entry) := by
  have hget : s.getOrCreateStreamCtx streamId fresh = some (sc, s) := by
    rw [getOrCreateStreamCtx, if_neg (by simp [hclosed]), hctx]
  have hcall : s.sendStreamData streamId fresh r.data r.endStream r.outcome =
      if r.outcome = .sent then (.ok (), sc, s.commit streamId sc r.data r.endStream)
      else (.error (.write r.outcome), sc, s) := by
    rw [sendStreamData, if_neg (by simp [hclosed]), hget]
    dsimp only
    rw [if_neg hsc, if_neg (by simp [htransport])]
  rw [hcall]
  by_cases hsent : r.outcome = .sent
  · rw [if_pos hsent, h.sent hsent]
    simp [Standing.committed, commit, pushTx, hbytes, hfin, hlog, hmark]
  · rw [if_neg hsent, h.refused hsent]
    exact ⟨hbytes, hfin, hlog⟩

/-- The events of `_handle_raw_event` that touch `_cnx_ptr` or `_closed`. -/
def handleRawEvent (s : ClientLink) (evtType : EventType) (cnxPtr : ℕ) : ClientLink :=
  if evtType = .close ∨ evtType = .appClose then
    { s with
      closed := true
      cnxPtr := 0
      streamCtxs := fun _ => none }
  else if (evtType = .ready ∨ evtType = .almostReady) ∧ cnxPtr ≠ 0 then { s with cnxPtr := cnxPtr }
  else s

/-! ## The worker -/

/-- `aiopquic_rx_push`; `posted` is `false` where the event is lost. -/
def rxPush (s : ClientLink) (posted : Bool) (evtType : EventType) (cnx : ℕ) : ClientLink :=
  { s with events := if posted then s.events ++ [(evtType, cnx)] else s.events }

/-- `aiopquic_cnx_is_alive`. -/
def IsAlive (s : ClientLink) (cnx : ℕ) : Prop := (s.stage = .live ∨ s.stage = .closing) ∧
    s.cnx = cnx

instance (s : ClientLink) (cnx : ℕ) : Decidable (s.IsAlive cnx) := inferInstanceAs
    (Decidable (_ ∧ _))

/-- One entry of the TX loop of `aiopquic_loop_cb`. `newCnx` is what the creation of a connection
gives, `0` where it fails, and `posted` whether its event gets through. -/
def loopEntry (s : ClientLink) (c : PostedEntry) (newCnx : ℕ) (posted : Bool) : ClientLink :=
  if c.entry.eventType = .txConnect then
    if newCnx = 0 then s
    else ({ s with cnx := newCnx, stage := .live } : ClientLink).rxPush posted .almostReady newCnx
  else if c.entry.cnx = 0 ∨ ¬ s.IsAlive c.entry.cnx then s
  else if c.entry.eventType = .txMarkActive then
    if c.entry.streamCtx ≠ 0 ∧ s.stage = .closing then s else { s with handled := s.handled ++ [c] }
  else if c.entry.eventType = .txClose then { s with stage := .closing }
  else s

/-! ## Steps -/

/-- What can happen next. The flag of a push says whether the ring has room for it. -/
inductive Act
  | start
  | connect (pushed : Bool)
  | send (streamId fresh : ℕ) (data : List UInt8) (endStream : Bool) (outcome : WriteOutcome)
  | adopt (streamId streamCtx : ℕ)
  | retire (streamId : ℕ)
  | command (entry : Entry)
  | close (pushed : Bool)
  | stop
  | drain
  | pop (newCnx : ℕ) (posted : Bool)
  | handshake (posted : Bool)
  | disconnect (evtType : EventType) (posted : Bool)
  | delete

/-- One step. A connection calls `connect()` once. -/
def step (s : ClientLink) : Act → Option ClientLink
  | .start => some { s with transport := true }
  | .connect pushed =>
    if s.asked then none
    else
      let s := { s with transport := true }
      if pushed then some { s.pushTx { eventType := .txConnect } s.calls.length with asked := true }
      else some s
  | .send streamId fresh data endStream outcome =>
    let (result, sc, s') := s.sendStreamData streamId fresh data endStream outcome
    some { s' with calls := s.calls ++ [⟨streamId, sc, data, endStream, s.closed, result⟩] }
  | .adopt streamId sc =>
    if sc ≠ 0 ∧ s.streamCtxs streamId = none then
      some { s with streamCtxs := Function.update s.streamCtxs streamId (some sc) }
    else some s
  | .retire streamId => some { s with streamCtxs := Function.update s.streamCtxs streamId none }
  | .command entry =>
    if entry.eventType = .txConnect then none else some (s.pushTx entry s.calls.length)
  | .close pushed =>
    if s.transport ∧ s.closed = false then
      let entry : Entry := { eventType := .txClose, cnx := s.cnxPtr }
      if pushed then some { s.pushTx entry s.calls.length with closed := true } else some s
    else some s
  | .stop =>
    some
      { s with
        transport := false
        closed := true
        streamCtxs := fun _ => none
        commands := []
        events := []
        stage := .deleted }
  | .drain =>
    match s.events with
    | [] => none
    | (evtType, cnx) :: rest =>
        some (({ s with events := rest } : ClientLink).handleRawEvent evtType cnx)
  | .pop newCnx posted =>
    match s.commands with
    | [] => none
    | c :: rest => some (({ s with commands := rest } : ClientLink).loopEntry c newCnx posted)
  | .handshake posted => if s.stage = .live then some (s.rxPush posted .ready s.cnx) else none
  | .disconnect evtType posted =>
    if (s.stage = .live ∨ s.stage = .closing) ∧ (evtType = .close ∨ evtType = .appClose) then
      some (({ s with stage := .closing } : ClientLink).rxPush posted evtType s.cnx)
    else none
  | .delete => if s.stage = .closing then some { s with stage := .deleted } else none

/-! ## Scheduled sends -/

/-- The connection is open: not closed on the Python side, and not closing or deleted on the
worker's. -/
def Open (s : ClientLink) : Prop := s.closed = false ∧ (s.stage = .absent ∨ s.stage = .live)

instance (s : ClientLink) : Decidable s.Open := inferInstanceAs (Decidable (_ ∧ _))

/-- A mark for the stream and context of the `i`-th call, naming the live connection, was pushed
after its bytes and is queued or was handled. -/
def Scheduled (s : ClientLink) (i : ℕ) (r : SendRecord) : Prop :=
  s.stage = .live ∧ ∃ c ∈ s.commands ++ s.handled, c.entry.eventType = .txMarkActive ∧
    c.entry.cnx = s.cnx ∧
    c.entry.streamId = r.streamId ∧ c.entry.streamCtx = r.streamCtx ∧ i < c.after

instance (s : ClientLink) (i : ℕ) (r : SendRecord) : Decidable (s.Scheduled i r) :=
  inferInstanceAs (Decidable (_ ∧ _))

/-- While the connection is open, every call that was accepted is scheduled. -/
def Kept (s : ClientLink) : Prop :=
  s.Open → ∀ i (h : i < s.calls.length), s.calls[i].Accepted → s.Scheduled i s.calls[i]

instance (s : ClientLink) : Decidable s.Kept := inferInstanceAs (Decidable (_ → _))

/-- The accepted calls on a context. -/
def acceptedOn (calls : List SendRecord) (sc : ℕ) : List SendRecord :=
  calls.filter fun r => r.Accepted ∧ r.streamCtx = sc

/-- Accepted calls are scheduled, and no other call committed anything. -/
structure SendsKept (s : ClientLink) : Prop where
  kept : s.Kept
  bytes : ∀ sc, (s.tx sc).bytes = (acceptedOn s.calls sc).flatMap fun r => SendSide.narrowed r.data
  fin : ∀ sc, (s.tx sc).fin = (acceptedOn s.calls sc).any (·.endStream)

/-- The rings and the heap have room for the call. -/
def HasRoom (s : ClientLink) (streamId fresh : ℕ) (outcome : WriteOutcome) : Prop :=
  s.transport = true ∧ (s.streamCtxs streamId ≠ none ∨ fresh ≠ 0) ∧ outcome = .sent

instance (s : ClientLink) (streamId fresh : ℕ) (outcome : WriteOutcome) :
    Decidable (s.HasRoom streamId fresh outcome) := inferInstanceAs (Decidable (_ ∧ _))

/-- A call on an open connection that there is room for is made when `_cnx_ptr` is set. -/
def Ready (s : ClientLink) : Act → Prop
  | .send streamId fresh _ _ outcome => s.Open → s.HasRoom streamId fresh outcome → s.cnxPtr ≠ 0
  | _ => True

instance (s : ClientLink) : DecidablePred s.Ready
  | .send .. => inferInstanceAs (Decidable (_ → _))
  | .start | .connect _ | .adopt .. | .retire _ | .command _ | .close _ | .stop | .drain | .pop ..
  | .handshake _ | .disconnect .. | .delete => .isTrue trivial

/-! ## What holds of an open connection -/

/-- The number of `TX_CONNECT` entries in the TX event ring. -/
def connects (s : ClientLink) : ℕ := s.commands.countP (·.entry.eventType = .txConnect)

/-- The number of connections the worker created. -/
def created (s : ClientLink) : ℕ := if s.stage = .absent then 0 else 1

/-- While `_closed` is not set: a connection is asked for once, and what names it names the
worker's. -/
structure Coherent (s : ClientLink) : Prop where
  once : s.connects + s.created ≤ s.asked.toNat
  cnx : s.stage = .absent ↔ s.cnx = 0
  ptr : s.cnxPtr = 0 ∨ s.cnxPtr = s.cnx
  events : ∀ e ∈ s.events, e.2 = s.cnx
  quiet : s.stage = .absent → s.events = []

/-- What holds after any run. -/
structure Inv (s : ClientLink) : Prop where
  coherent : s.closed = false → s.Coherent
  ctxs : ∀ streamId, s.streamCtxs streamId ≠ some 0
  after : ∀ c ∈ s.commands ++ s.handled, c.after ≤ s.calls.length
  bytes : ∀ sc, (s.tx sc).bytes = (acceptedOn s.calls sc).flatMap fun r => SendSide.narrowed r.data
  fin : ∀ sc, (s.tx sc).fin = (acceptedOn s.calls sc).any (·.endStream)

variable {s s' : ClientLink} {c : PostedEntry} {entry : Entry}

theorem init_inv : Inv {} where
  coherent _ := ⟨by decide, by decide, .inl rfl, by simp, fun _ => rfl⟩
  ctxs := by simp
  after := by simp
  bytes _ := rfl
  fin _ := rfl

theorem init_kept : Kept {} := fun _ i h => absurd h (Nat.not_lt_zero i)

/-! ### Parts of steps -/

theorem Coherent.pushTx (h : s.Coherent) (he : entry.eventType ≠ .txConnect) (after : ℕ) :
    (s.pushTx entry after).Coherent := by
  have hcount : (s.pushTx entry after).connects = s.connects := by
    rw [connects, ClientLink.pushTx, List.countP_append, List.countP_singleton,
      if_neg (by simpa using he)]
    rfl
  exact ⟨hcount ▸ h.once, h.cnx, h.ptr, h.events, h.quiet⟩

theorem Coherent.rxPush (h : s.Coherent) (hstage : s.stage ≠ .absent) (posted : Bool)
    (evtType : EventType) :
    (s.rxPush posted evtType s.cnx).Coherent := by
  refine ⟨h.once, h.cnx, h.ptr, fun e he => ?_, fun ha => absurd ha hstage⟩
  dsimp only [ClientLink.rxPush] at he ⊢
  split at he
  · rcases List.mem_append.1 he with he | he
    · exact h.events e he
    · rw [List.mem_singleton.1 he]
  · exact h.events e he

/-- The event at the head is handled. -/
theorem Coherent.handleRawEvent {evtType : EventType} {cnx : ℕ} {rest : List (EventType × ℕ)}
    (h : s.Coherent)
    (hev : s.events = (evtType, cnx) :: rest) :
    (({ s with events := rest } : ClientLink).handleRawEvent evtType cnx).Coherent := by
  have hcnx : cnx = s.cnx := h.events (evtType, cnx) (by simp [hev])
  have hrest : ∀ e ∈ rest, e.2 = s.cnx := fun e he => h.events e (by simp [hev, he])
  have hquiet : s.stage = .absent → rest = [] := fun ha => by
    have := h.quiet ha
    simp [hev] at this
  unfold ClientLink.handleRawEvent
  split_ifs
  · exact ⟨h.once, h.cnx, .inl rfl, hrest, hquiet⟩
  · exact ⟨h.once, h.cnx, .inr hcnx, hrest, hquiet⟩
  · exact ⟨h.once, h.cnx, h.ptr, hrest, hquiet⟩

/-- The worker's connection moves on. -/
theorem Coherent.moves (h : s.Coherent) (hstage : s.stage ≠ .absent) {stage : Stage}
    (hne : stage ≠ .absent) :
    ({ s with stage := stage } : ClientLink).Coherent := by
  refine ⟨?_, ?_, h.ptr, h.events, fun ha => absurd ha hne⟩
  · have honce := h.once
    rw [created, if_neg hstage] at honce
    rw [created, if_neg hne]
    exact honce
  · exact ⟨fun ha => absurd ha hne, fun h0 => absurd (h.cnx.2 h0) hstage⟩

theorem connects_cons {rest : List PostedEntry} (hcmd : s.commands = c :: rest) :
    s.connects = ({ s with commands := rest } : ClientLink).connects +
      if c.entry.eventType = .txConnect then 1 else 0 := by
  rw [connects, hcmd, List.countP_cons]
  simp [connects]

/-- A connection is created once. -/
theorem Coherent.absent {rest : List PostedEntry} (h : s.Coherent) (hcmd : s.commands = c :: rest)
    (hc : c.entry.eventType = .txConnect) : s.stage = .absent := by
  by_contra hne
  have honce := h.once
  rw [connects_cons hcmd, if_pos hc, created, if_neg hne] at honce
  have := Bool.toNat_le s.asked
  omega

theorem IsAlive.present {cnx : ℕ} (h : s.IsAlive cnx) : s.stage ≠ .absent := by
  rcases h.1 with h | h <;> simp [h]

/-- The entry at the head is handled. -/
theorem Coherent.loopEntry {rest : List PostedEntry} (h : s.Coherent)
    (hcmd : s.commands = c :: rest)
    (newCnx : ℕ) (posted : Bool) :
    (({ s with commands := rest } : ClientLink).loopEntry c newCnx posted).Coherent := by
  have honce := h.once
  rw [connects_cons hcmd] at honce
  have hpopped : ({ s with commands := rest } : ClientLink).Coherent :=
    ⟨le_trans (Nat.add_le_add_right (Nat.le_add_right _ _) _) honce, h.cnx, h.ptr,
      h.events, h.quiet⟩
  unfold ClientLink.loopEntry
  split_ifs with hconnect hnull hdead hmark hclosing hclose
  · exact hpopped
  · -- the connection is created
    have habsent := h.absent hcmd hconnect
    have hptr : s.cnxPtr = 0 := h.ptr.elim id fun hp => hp.trans (h.cnx.1 habsent)
    have hnone : ∀ e ∈ s.events, e.2 = newCnx := by simp [h.quiet habsent]
    refine Coherent.rxPush (s := { s with commands := rest, cnx := newCnx, stage := .live })
      ⟨?_, ?_, .inl hptr, hnone, by simp⟩ (by simp) _ _
    · rw [if_pos hconnect, created, if_pos habsent] at honce
      exact honce
    · simpa using hnull
  · exact hpopped
  · exact hpopped
  · exact ⟨hpopped.once, h.cnx, h.ptr, h.events, h.quiet⟩
  · rw [not_or, not_not] at hdead
    exact hpopped.moves (IsAlive.present (s := s) hdead.2) (by simp)
  · exact hpopped

/-! ### Steps other than a send -/

/-- A step that is not a send adds no call and no bytes, and while the connection is open it loses
no mark that names it. -/
structure Other (s s' : ClientLink) : Prop where
  tx : s'.tx = s.tx
  calls : s'.calls = s.calls
  ctxs : ∀ streamId, s'.streamCtxs streamId = some 0 → s.streamCtxs streamId = some 0
  after : ∀ c ∈ s'.commands ++ s'.handled, c ∈ s.commands ++ s.handled ∨ c.after ≤ s.calls.length
  closed : s'.closed = false → s.closed = false
  coherent : s'.closed = false → s.Coherent → s'.Coherent
  opens : s'.Open → s.Coherent → s.Open
  live : s'.Open → s.Coherent → s.stage = .live → s'.stage = .live ∧ s'.cnx = s.cnx
  marks : s'.Open → s.Coherent → s.stage = .live → ∀ c ∈ s.commands ++ s.handled,
    c.entry.eventType = .txMarkActive → c.entry.cnx = s.cnx → c ∈ s'.commands ++ s'.handled

/-- A step of the asyncio thread that pushes at most one entry. -/
theorem Other.of_push {l : List PostedEntry} (htx : s'.tx = s.tx) (hcalls : s'.calls = s.calls)
    (hctxs : ∀ streamId, s'.streamCtxs streamId = some 0 → s.streamCtxs streamId = some 0)
    (hcommands : s'.commands = s.commands ++ l) (hl : ∀ c ∈ l, c.after ≤ s.calls.length)
    (hhandled : s'.handled = s.handled) (hclosed : s'.closed = false → s.closed = false)
    (hstage : s'.stage = s.stage) (hcnx : s'.cnx = s.cnx)
    (hcoherent : s'.closed = false → s.Coherent → s'.Coherent) : Other s s' := by
  refine ⟨htx, hcalls, hctxs, fun c hc => ?_, hclosed, hcoherent, fun ho _ =>
    ⟨hclosed ho.1, hstage ▸ ho.2⟩,
    fun _ _ hlive => ⟨hstage.trans hlive, hcnx⟩, fun _ _ _ c hc _ _ => ?_⟩
  · rw [hcommands, hhandled, List.mem_append, List.mem_append] at hc
    rcases hc with (hc | hc) | hc
    · exact .inl (List.mem_append_left _ hc)
    · exact .inr (hl c hc)
    · exact .inl (List.mem_append_right _ hc)
  · rw [hcommands, hhandled]
    rcases List.mem_append.1 hc with hc | hc
    · exact List.mem_append_left _ (List.mem_append_left _ hc)
    · exact List.mem_append_right _ hc

/-- The connection ends, or was not open. -/
theorem Other.of_ended (htx : s'.tx = s.tx) (hcalls : s'.calls = s.calls)
    (hctxs : ∀ streamId, s'.streamCtxs streamId = some 0 → s.streamCtxs streamId = some 0)
    (hmem : ∀ c ∈ s'.commands ++ s'.handled, c ∈ s.commands ++ s.handled)
    (hclosed : s'.closed = false → s.closed = false)
    (hcoherent : s'.closed = false → s.Coherent → s'.Coherent) (hends : ¬ s'.Open) : Other s s' :=
  ⟨htx, hcalls, hctxs, fun c hc => .inl (hmem c hc), hclosed, hcoherent, fun ho => absurd ho hends,
    fun ho => absurd ho hends, fun ho => absurd ho hends⟩

theorem Other.refl (s : ClientLink) : Other s s :=
  .of_push (l := []) rfl rfl (fun _ => id) (List.append_nil _).symm (by simp) rfl id rfl rfl
    fun _ => id

/-- The head of the TX event ring is handled. -/
theorem loopEntry_other {rest : List PostedEntry} (hs : s.commands = c :: rest) (newCnx : ℕ)
    (posted : Bool) :
    Other s (({ s with commands := rest } : ClientLink).loopEntry c newCnx posted) := by
  have hcoherent := fun h : s.Coherent => h.loopEntry hs newCnx posted
  have hmem : ∀ d ∈ rest ++ s.handled, d ∈ s.commands ++ s.handled := fun d hd => by
    rw [hs]
    exact List.mem_cons_of_mem _ hd
  -- a mark that names the connection stays where the head is not such a mark
  have hmarks : (c.entry.eventType = .txMarkActive → c.entry.cnx ≠ s.cnx) →
    ∀ d ∈ s.commands ++ s.handled,
      d.entry.eventType = .txMarkActive → d.entry.cnx = s.cnx → d ∈ rest ++ s.handled := by
    intro hne d hd hmark hcnx
    rw [hs] at hd
    rcases List.mem_cons.1 hd with rfl | hd
    · exact absurd hcnx (hne hmark)
    · exact hd
  -- the head goes and nothing else happens
  have hdropped : (s.Coherent → s.stage = .live → c.entry.eventType = .txMarkActive →
    c.entry.cnx ≠ s.cnx) →
      (s.Coherent → ({ s with commands := rest } : ClientLink).Coherent) →
      Other s { s with commands := rest } := fun hne hco =>
    ⟨rfl, rfl, fun _ => id, fun d hd => .inl (hmem d hd), id, fun _ => hco, fun ho _ => ho,
      fun _ _ h => ⟨h, rfl⟩, fun _ hs h => hmarks (hne hs h)⟩
  unfold ClientLink.loopEntry at hcoherent ⊢
  split_ifs at hcoherent ⊢ with hconnect hnull hdead hmark hclosing hclose
  · exact hdropped (fun _ _ hm => by simp [hconnect] at hm) hcoherent
  · refine ⟨rfl, rfl, fun _ => id, fun d hd => .inl (hmem d hd), id, fun _ => hcoherent, ?_, ?_, ?_⟩
    · exact fun ho h => ⟨ho.1, .inl (h.absent hs hconnect)⟩
    · exact fun _ h hlive => by simp [h.absent hs hconnect] at hlive
    · exact fun _ h hlive => by simp [h.absent hs hconnect] at hlive
  · refine hdropped (fun h hlive _ hcnx => ?_) hcoherent
    rcases hdead with h0 | hdead
    · have habsent := h.cnx.2 (hcnx ▸ h0)
      simp [habsent] at hlive
    · exact hdead ⟨.inl hlive, hcnx.symm⟩
  · refine hdropped (fun _ hlive => ?_) hcoherent
    simp [hlive] at hclosing
  · refine ⟨rfl, rfl, fun _ => id, fun d hd => ?_, id, fun _ => hcoherent, fun ho _ => ho,
      fun _ _ h => ⟨h, rfl⟩, fun _ _ _ d hd _ _ => ?_⟩
    · left
      rw [hs]
      rw [← List.append_assoc] at hd
      rcases List.mem_append.1 hd with hd | hd
      · exact List.mem_cons_of_mem _ hd
      · rw [List.mem_singleton.1 hd]
        exact List.mem_cons_self
    · rw [hs] at hd
      rw [← List.append_assoc]
      rcases List.mem_cons.1 hd with rfl | hd
      · exact List.mem_append_right _ (List.mem_singleton.2 rfl)
      · exact List.mem_append_left _ hd
  · exact .of_ended rfl rfl (fun _ => id) hmem id (fun _ => hcoherent) (by simp [Open])
  · exact hdropped (fun _ _ hm => absurd hm hmark) hcoherent

/-- The head of the RX event ring is handled. -/
theorem handleRawEvent_other {evtType : EventType} {cnx : ℕ} {rest : List (EventType × ℕ)}
    (hs : s.events = (evtType, cnx) :: rest) :
    Other s (({ s with events := rest } : ClientLink).handleRawEvent evtType cnx) := by
  have hcoherent := fun h : s.Coherent => h.handleRawEvent hs
  unfold ClientLink.handleRawEvent at hcoherent ⊢
  split_ifs at hcoherent ⊢
  · exact .of_ended rfl rfl (fun _ => by simp) (fun _ => id) (by simp) (by simp) (by simp [Open])
  · exact .of_push (l := []) rfl rfl (fun _ => id) (List.append_nil _).symm (by simp) rfl id rfl rfl
      fun _ => hcoherent
  · exact .of_push (l := []) rfl rfl (fun _ => id) (List.append_nil _).symm (by simp) rfl id rfl rfl
      fun _ => hcoherent

theorem update_ne_zero {m : ℕ → Option ℕ} {streamId sc : ℕ} (hsc : sc ≠ 0) (i : ℕ) :
    Function.update m streamId (some sc) i = some 0 → m i = some 0 := by
  rw [Function.update_apply]
  split
  · exact fun h => absurd (Option.some.inj h) hsc
  · exact id

/-- Every step but a send. -/
theorem step_other {a : Act}
    (ha : ∀ streamId fresh data endStream outcome, a ≠ .send streamId fresh data endStream outcome)
    (h : step s a = some s') : Other s s' := by
  cases a with
  | start =>
    cases h
    exact .of_push (l := []) rfl rfl (fun _ => id) (List.append_nil _).symm (by simp) rfl id rfl rfl
      fun _ h => ⟨h.once, h.cnx, h.ptr, h.events, h.quiet⟩
  | connect pushed =>
    rw [step, Option.ite_none_left_eq_some] at h
    obtain ⟨hasked, h⟩ := h
    have hasked : s.asked = false := by simpa using hasked
    cases pushed with
    | false =>
      cases h
      exact .of_push (l := []) rfl rfl (fun _ => id) (List.append_nil _).symm (by simp)
        rfl id rfl rfl
        fun _ h => ⟨h.once, h.cnx, h.ptr, h.events, h.quiet⟩
    | true =>
      cases h
      refine .of_push rfl rfl (fun _ => id) rfl (by simp) rfl id rfl rfl fun _ h =>
        ⟨?_, h.cnx, h.ptr, h.events, h.quiet⟩
      -- nothing was asked for before
      have honce := h.once
      rw [hasked] at honce
      have hconnects : s.connects = 0 := by
        rw [Bool.toNat_false] at honce
        omega
      have hcreated : s.created = 0 := by
        rw [Bool.toNat_false] at honce
        omega
      show (s.commands ++ [_]).countP _ + s.created ≤ 1
      rw [List.countP_append, hcreated]
      rw [connects] at hconnects
      rw [hconnects]
      simp
  | send => exact absurd rfl (ha _ _ _ _ _)
  | adopt streamId sc =>
    rw [step] at h
    split at h
    · rename_i hsc
      cases h
      exact .of_push (l := []) rfl rfl (update_ne_zero hsc.1) (List.append_nil _).symm (by simp)
        rfl id rfl rfl
        fun _ h => ⟨h.once, h.cnx, h.ptr, h.events, h.quiet⟩
    · cases h
      exact .refl s
  | retire streamId =>
    cases h
    refine .of_push (l := []) rfl rfl (fun i => ?_) (List.append_nil _).symm (by simp)
      rfl id rfl rfl
        fun _ h => ⟨h.once, h.cnx, h.ptr, h.events, h.quiet⟩
    show Function.update s.streamCtxs streamId none i = some 0 → s.streamCtxs i = some 0
    rw [Function.update_apply]
    split <;> simp
  | command entry =>
    rw [step, Option.ite_none_left_eq_some] at h
    obtain ⟨hentry, h⟩ := h
    cases h
    exact .of_push rfl rfl (fun _ => id) rfl (by simp) rfl id rfl rfl fun _ h => h.pushTx hentry _
  | close pushed =>
    rw [step] at h
    split at h
    · cases pushed with
      | false =>
        cases h
        exact .refl s
      | true =>
        cases h
        refine .of_push rfl rfl (fun _ => id) rfl (by simp) rfl (by simp) rfl rfl (by simp)
    · cases h
      exact .refl s
  | stop =>
    cases h
    exact .of_ended rfl rfl (fun _ => by simp) (fun _ => List.mem_append_right _)
      (by simp) (by simp)
      (by simp [Open])
  | drain =>
    rw [step] at h
    split at h
    · cases h
    · rename_i hs
      cases h
      exact handleRawEvent_other hs
  | pop newCnx posted =>
    rw [step] at h
    split at h
    · cases h
    · rename_i hs
      cases h
      exact loopEntry_other hs newCnx posted
  | handshake posted =>
    rw [step, Option.ite_none_right_eq_some] at h
    obtain ⟨hlive, h⟩ := h
    cases h
    exact .of_push (l := []) rfl rfl (fun _ => id) (List.append_nil _).symm (by simp) rfl id rfl rfl
      fun _ h => h.rxPush (by simp [hlive]) posted .ready
  | disconnect evtType posted =>
    rw [step, Option.ite_none_right_eq_some] at h
    obtain ⟨⟨hstage, -⟩, h⟩ := h
    cases h
    have hpresent : s.stage ≠ .absent := by rcases hstage with h | h <;> simp [h]
    exact .of_ended rfl rfl (fun _ => id) (fun _ => id) id
      (fun _ h => (h.moves hpresent (by simp)).rxPush (by simp) posted evtType)
      (by simp [Open, ClientLink.rxPush])
  | delete =>
    rw [step, Option.ite_none_right_eq_some] at h
    obtain ⟨hstage, h⟩ := h
    cases h
    exact .of_ended rfl rfl (fun _ => id) (fun _ => id) id
      (fun _ h => h.moves (by simp [hstage]) (by simp))
      (by simp [Open])

/-! ### A send -/

/-- What a send does: it returns at once on a closed connection, it raises, or it has room and
commits. -/
theorem sendStreamData_cases (hctxs : ∀ streamId, s.streamCtxs streamId ≠ some 0)
    (streamId fresh : ℕ)
    (data : List UInt8) (endStream : Bool) (outcome : WriteOutcome) :
    ∃ result sc m s', s.sendStreamData streamId fresh data endStream outcome = (result, sc, s') ∧
      (∀ i, m i ≠ some 0) ∧
      (s.closed = true ∧ result = .ok () ∧ s' = s ∨
        ¬ s.HasRoom streamId fresh outcome ∧ (∃ e, result = .error e) ∧
        s' = { s with streamCtxs := m } ∨
        s.closed = false ∧ s.HasRoom streamId fresh outcome ∧ result = .ok () ∧
          s' = ({ s with streamCtxs := m } : ClientLink).commit streamId sc data endStream) := by
  by_cases hclosed : s.closed = true
  · exact ⟨_, _, s.streamCtxs,
      s, by rw [sendStreamData, if_pos hclosed], hctxs, .inl ⟨hclosed, rfl, rfl⟩⟩
  -- the context is there, or made, or there is no memory
  obtain ⟨sc, m, hsc, hm, hroom, hget⟩ | ⟨hnone, hfresh, hget⟩ :
      (∃ sc m, sc ≠ 0 ∧ (∀ i, m i ≠ some 0) ∧ (s.streamCtxs streamId ≠ none ∨ fresh ≠ 0) ∧
        s.getOrCreateStreamCtx streamId fresh = some (sc, { s with streamCtxs := m })) ∨
      s.streamCtxs streamId = none ∧ fresh = 0 ∧ s.getOrCreateStreamCtx streamId fresh = none := by
    rw [getOrCreateStreamCtx, if_neg hclosed]
    cases hs : s.streamCtxs streamId with
    | some sc =>
      refine .inl ⟨sc, s.streamCtxs, ?_, hctxs, .inl (by simp), rfl⟩
      rintro rfl
      exact hctxs streamId hs
    | none =>
      by_cases hfresh : fresh = 0
      · exact .inr ⟨rfl, hfresh, if_pos hfresh⟩
      · have hm : ∀ i, Function.update s.streamCtxs streamId (some fresh) i ≠ some 0 := fun i h =>
          hctxs i (update_ne_zero hfresh i h)
        exact .inl ⟨fresh, _, hfresh, hm, .inr hfresh, if_neg hfresh⟩
  · by_cases htransport : s.transport = false
    · refine ⟨.error .noTransport, sc, m, { s with streamCtxs := m }, ?_, hm,
        .inr (.inl ⟨fun h => ?_, ⟨_, rfl⟩, rfl⟩)⟩
      · rw [sendStreamData, if_neg hclosed, hget]
        dsimp only
        rw [if_neg hsc, if_pos htransport]
      · exact Bool.false_ne_true (htransport.symm.trans h.1)
    by_cases hsent : outcome = .sent
    · have hhas : s.HasRoom streamId fresh outcome := ⟨by simpa using htransport, hroom, hsent⟩
      refine ⟨.ok (), sc, m, _, ?_, hm, .inr (.inr ⟨by simpa using hclosed, hhas, rfl, rfl⟩)⟩
      rw [sendStreamData, if_neg hclosed, hget]
      dsimp only
      rw [if_neg hsc, if_neg htransport, if_pos hsent]
    · refine ⟨.error (.write outcome), sc, m, { s with streamCtxs := m }, ?_, hm,
        .inr (.inl ⟨fun h => hsent h.2.2, ⟨_, rfl⟩, rfl⟩)⟩
      rw [sendStreamData, if_neg hclosed, hget]
      dsimp only
      rw [if_neg hsc, if_neg htransport, if_neg hsent]
  · refine ⟨.error .noMemory, 0, s.streamCtxs, s, ?_, hctxs,
      .inr (.inl ⟨fun h => ?_, ⟨_, rfl⟩, rfl⟩)⟩
    · rw [sendStreamData, if_neg hclosed, hget]
    · exact h.2.1.elim (fun h => h hnone) fun h => h hfresh

theorem acceptedOn_append {calls : List SendRecord} {r : SendRecord} (sc : ℕ) : acceptedOn
    (calls ++ [r]) sc =
    if r.Accepted ∧ r.streamCtx = sc then acceptedOn calls sc ++ [r] else acceptedOn calls sc := by
  rw [acceptedOn, List.filter_append]
  split
  · rename_i h
    rw [List.filter_cons_of_pos (by simpa using h)]
    rfl
  · rename_i h
    rw [List.filter_cons_of_neg (by simpa using h)]
    exact List.append_nil _

/-- A call that was not accepted keeps the account of what was committed. -/
theorem acceptedOn_of_not {calls : List SendRecord} {r : SendRecord} (hr : ¬ r.Accepted) (sc : ℕ) :
    acceptedOn (calls ++ [r]) sc = acceptedOn calls sc := by
  rw [acceptedOn_append, if_neg fun h => hr h.1]

/-- After one more call, all are scheduled if this one is. -/
theorem Kept.append_iff {r : SendRecord} (hk : s.Kept) (hcalls : s'.calls = s.calls ++ [r])
    (hopen : s'.Open → s.Open) (hstage : s'.stage = s.stage) (hcnx : s'.cnx = s.cnx)
    (hmarks : ∀ c ∈ s.commands ++ s.handled, c ∈ s'.commands ++ s'.handled) :
    s'.Kept ↔ (s'.Open → r.Accepted → s'.Scheduled s.calls.length r) := by
  constructor
  · intro h ho hr
    have hlast := h ho s.calls.length (by simp [hcalls])
    simp only [hcalls, List.getElem_concat_length] at hlast
    exact hlast hr
  · intro h ho i hi hr
    rw [hcalls, List.length_append, List.length_singleton] at hi
    by_cases hlt : i < s.calls.length
    · have hget : s'.calls[i] = s.calls[i] := by simp [hcalls, List.getElem_append_left hlt]
      rw [hget] at hr ⊢
      obtain ⟨hlive, c, hc, hmark⟩ := hk (hopen ho) i hlt hr
      exact ⟨hstage.trans hlive, c, hmarks c hc, hcnx ▸ hmark⟩
    · obtain rfl : i = s.calls.length := by omega
      have hget : s'.calls[s.calls.length] = r := by simp [hcalls]
      rw [hget] at hr ⊢
      exact h ho hr

variable {streamId fresh : ℕ} {data : List UInt8} {endStream : Bool} {outcome : WriteOutcome}

/-- The state after a call that is not accepted, whatever context it made. -/
def refuse (s : ClientLink) (m : ℕ → Option ℕ) (r : SendRecord) : ClientLink :=
  { s with
    streamCtxs := m
    calls := s.calls ++ [r] }

theorem Inv.refuse (hs : s.Inv) {r : SendRecord} {m : ℕ → Option ℕ} (hr : ¬ r.Accepted)
    (hm : ∀ i, m i ≠ some 0) : (s.refuse m r).Inv where
  coherent h := ⟨(hs.coherent h).once, (hs.coherent h).cnx, (hs.coherent h).ptr,
    (hs.coherent h).events,
    (hs.coherent h).quiet⟩
  ctxs := hm
  after c hc := by
    have := hs.after c hc
    show c.after ≤ (s.calls ++ [r]).length
    rw [List.length_append]
    omega
  bytes sc := by
    show (s.tx sc).bytes = (acceptedOn (s.calls ++ [r]) sc).flatMap _
    rw [acceptedOn_of_not hr]
    exact hs.bytes sc
  fin sc := by
    show (s.tx sc).fin = (acceptedOn (s.calls ++ [r]) sc).any _
    rw [acceptedOn_of_not hr]
    exact hs.fin sc

theorem refuse_kept (hk : s.Kept) {r : SendRecord} {m : ℕ → Option ℕ} (hr : ¬ r.Accepted) :
    (s.refuse m r).Kept := by
  have hiff : (s.refuse m r).Kept ↔ _ := hk.append_iff rfl id rfl rfl fun _ => id
  exact hiff.2 fun _ h => absurd h hr

/-- The state after an accepted call. -/
def accept (s : ClientLink) (m : ℕ → Option ℕ) (streamId sc : ℕ) (data : List UInt8)
    (endStream : Bool) :
    ClientLink :=
  { ({ s with streamCtxs := m } : ClientLink).commit streamId sc data endStream with
    calls := s.calls ++ [⟨streamId, sc, data, endStream, s.closed, .ok ()⟩] }

theorem Inv.accept (hs : s.Inv) (hclosed : s.closed = false) {m : ℕ → Option ℕ} {sc : ℕ}
    (hm : ∀ i, m i ≠ some 0) : (s.accept m streamId sc data endStream).Inv where
  coherent h := by
    have hmark : (TxSide.markActive ⟨s.cnxPtr, streamId, sc⟩ sc).eventType ≠ .txConnect := by
      simp [TxSide.markActive]
    have := (hs.coherent h).pushTx hmark (s.calls.length + 1)
    exact ⟨this.once, this.cnx, this.ptr, this.events, this.quiet⟩
  ctxs := hm
  after c hc := by
    show c.after ≤ (s.calls ++ [_]).length
    rw [List.length_append, List.length_singleton]
    have hc : c ∈ (s.commands ++ [_]) ++ s.handled := hc
    rw [List.mem_append, List.mem_append, List.mem_singleton] at hc
    rcases hc with (hc | rfl) | hc
    · have := hs.after c (List.mem_append_left _ hc)
      omega
    · exact le_rfl
    · have := hs.after c (List.mem_append_right _ hc)
      omega
  bytes i := by
    show (Function.update s.tx sc _ i).bytes = (acceptedOn (s.calls ++ [_]) i).flatMap _
    rw [acceptedOn_append, Function.update_apply]
    by_cases hi : i = sc
    · subst hi
      rw [if_pos rfl, if_pos ⟨⟨rfl, hclosed⟩, rfl⟩, List.flatMap_append, ← hs.bytes i]
      simp
    · rw [if_neg hi, if_neg fun h => hi h.2.symm]
      exact hs.bytes i
  fin i := by
    show (Function.update s.tx sc _ i).fin = (acceptedOn (s.calls ++ [_]) i).any _
    rw [acceptedOn_append, Function.update_apply]
    by_cases hi : i = sc
    · subst hi
      rw [if_pos rfl, if_pos ⟨⟨rfl, hclosed⟩, rfl⟩, List.any_append, ← hs.fin i]
      simp
    · rw [if_neg hi, if_neg fun h => hi h.2.symm]
      exact hs.fin i

/-- An accepted call is scheduled exactly if `_cnx_ptr` was set: only its own mark is younger than
its bytes. -/
theorem accept_kept_iff (hs : s.Inv) (hk : s.Kept) {m : ℕ → Option ℕ} {sc : ℕ} :
    (s.accept m streamId sc data endStream).Kept ↔ (s.Open → s.cnxPtr ≠ 0) := by
  let mark : PostedEntry := ⟨TxSide.markActive ⟨s.cnxPtr, streamId, sc⟩ sc, s.calls.length + 1⟩
  have hmarks : ∀ c ∈ s.commands ++ s.handled, c ∈ (s.commands ++ [mark]) ++ s.handled :=
    fun c hc => by
    rcases List.mem_append.1 hc with hc | hc
    · exact List.mem_append_left _ (List.mem_append_left _ hc)
    · exact List.mem_append_right _ hc
  have hiff : (s.accept m streamId sc data endStream).Kept ↔
    _ := hk.append_iff rfl id rfl rfl hmarks
  refine hiff.trans ?_
  constructor
  · intro h ho h0
    obtain ⟨hlive, c, hc, -, hcnx, -, -, hafter⟩ := h ho ⟨rfl, ho.1⟩
    have hlive : s.stage = .live := hlive
    have hcnx : c.entry.cnx = s.cnx := hcnx
    have hc : c ∈ (s.commands ++ [mark]) ++ s.handled := hc
    have hold : ∀ c ∈ s.commands ++ s.handled, c.after ≤ s.calls.length := hs.after
    rw [List.mem_append, List.mem_append, List.mem_singleton] at hc
    rcases hc with (hc | rfl) | hc
    · have := hold c (List.mem_append_left _ hc)
      omega
    · have habsent := (hs.coherent ho.1).cnx.2 (hcnx.symm.trans h0)
      simp [hlive] at habsent
    · have := hold c (List.mem_append_right _ hc)
      omega
  · intro h ho _
    have hco := hs.coherent ho.1
    have hptr : s.cnxPtr = s.cnx := hco.ptr.resolve_left (h ho)
    have hlive : s.stage = .live := by
      refine ho.2.resolve_left fun habsent => h ho ?_
      rw [hptr]
      exact hco.cnx.1 habsent
    exact ⟨hlive, mark, List.mem_append_left _ (List.mem_append_right _ (List.mem_singleton.2 rfl)),
      rfl, hptr,
      rfl, rfl, Nat.lt_succ_self _⟩

/-- A send keeps what holds; all accepted calls stay scheduled exactly if it was made when ready. -/
theorem send_spec (hs : s.Inv)
    (h : step s (.send streamId fresh data endStream outcome) = some s') :
    s'.Inv ∧ (s.Kept → (s'.Kept ↔ s.Ready (.send streamId fresh data endStream outcome))) := by
  obtain ⟨result, sc, m, u, hcall, hm, hcases⟩ :=
    sendStreamData_cases hs.ctxs streamId fresh data endStream outcome
  rw [step, hcall] at h
  cases h
  rcases hcases with ⟨hclosed, rfl, rfl⟩ | ⟨hroom, ⟨e, rfl⟩, rfl⟩ | ⟨hclosed, hroom, rfl, rfl⟩
  · have hr : ¬ SendRecord.Accepted ⟨streamId, sc, data, endStream, u.closed, .ok ()⟩ := fun h => by
      simp [SendRecord.Accepted, hclosed] at h
    have hnot : ¬ u.Open := fun ho => by simp [Open, hclosed] at ho
    exact ⟨hs.refuse hr hs.ctxs, fun hk => ⟨fun _ ho => absurd ho hnot, fun _ => refuse_kept hk hr⟩⟩
  · have hr : ¬ SendRecord.Accepted ⟨streamId, sc, data, endStream, s.closed, .error e⟩ :=
      fun h => by
      simp [SendRecord.Accepted] at h
    exact ⟨hs.refuse hr hm, fun hk => ⟨fun _ _ h => absurd h hroom, fun _ => refuse_kept hk hr⟩⟩
  · refine ⟨hs.accept hclosed hm, fun hk => (accept_kept_iff hs hk).trans ?_⟩
    exact ⟨fun h ho _ => h ho, fun h ho => h ho hroom⟩

/-! ### All steps -/

theorem Other.inv (h : Other s s') (hs : s.Inv) : s'.Inv where
  coherent hc := h.coherent hc (hs.coherent (h.closed hc))
  ctxs i hi := hs.ctxs i (h.ctxs i hi)
  after c hc := by
    rw [h.calls]
    exact (h.after c hc).elim (hs.after c) id
  bytes sc := by
    rw [h.tx, h.calls]
    exact hs.bytes sc
  fin sc := by
    rw [h.tx, h.calls]
    exact hs.fin sc

theorem Other.kept (h : Other s s') (hs : s.Inv) (hk : s.Kept) : s'.Kept := by
  intro ho i hi hr
  have hi' : i < s.calls.length := h.calls ▸ hi
  have hget : s'.calls[i] = s.calls[i] := by simp only [h.calls]
  rw [hget] at hr ⊢
  have hco := hs.coherent (h.closed ho.1)
  obtain ⟨hlive, c, hc, hmark, hcnx, hrest⟩ := hk (h.opens ho hco) i _ hr
  obtain ⟨hlive', hcnx'⟩ := h.live ho hco hlive
  exact ⟨hlive', c, h.marks ho hco hlive c hc hmark hcnx, hmark, hcnx.trans hcnx'.symm, hrest⟩

theorem step_inv {a : Act} (hs : s.Inv) (h : step s a = some s') : s'.Inv := by
  cases a with
  | send => exact (send_spec hs h).1
  | _ => exact (step_other (by simp) h).inv hs

theorem Inv.sendsKept_iff (hs : s.Inv) : s.SendsKept ↔ s.Kept :=
  ⟨fun h => h.kept, fun h => ⟨h, hs.bytes, hs.fin⟩⟩

/-- From a state where all is as it should be, exactly the steps that are ready keep it so. -/
theorem step_sendsKept_iff {a : Act} (hs : s.Inv) (hk : s.SendsKept) :
    (∀ s' ∈ step s a, s'.SendsKept) ↔ s.Ready a := by
  cases a with
  | send streamId fresh data endStream outcome =>
    obtain ⟨s', h⟩ : ∃ s', step s (.send streamId fresh data endStream outcome) =
      some s' := ⟨_, rfl⟩
    obtain ⟨hinv, hiff⟩ := send_spec hs h
    have honly : (∀ u ∈ step s (.send streamId fresh data endStream outcome), u.SendsKept) ↔
      s'.SendsKept := by
      simp [h]
    exact honly.trans (hinv.sendsKept_iff.trans (hiff hk.kept))
  | _ =>
    refine ⟨fun _ => trivial, fun _ s' h => ?_⟩
    have hother := step_other (by simp) h
    exact (hother.inv hs).sendsKept_iff.2 (hother.kept hs hk.kept)

/-! ## The theorem -/

/-- In a run from a new connection, accepted sends are scheduled after every step, and no other send
commits anything, exactly if every send that there is room for on the open connection is made with
`_cnx_ptr` set. -/
theorem sends_kept_iff (acts : List Act) :
    Steps.Always step SendsKept {} acts ↔ Steps.Along step Ready {} acts :=
  Steps.always_iff (fun _ _ _ hs h => step_inv hs h) (fun _ _ hs hk => step_sendsKept_iff hs hk)
    init_inv
    (init_inv.sendsKept_iff.2 init_kept)

/-- A send before `ALMOST_READY`: its mark names no connection and is dropped. Afterwards the
connection is there, both rings are empty, and nothing will move the byte. -/
def strandedActs : List Act :=
  [.connect true, .send 4 9 [1] false .sent, .pop 7 true, .pop 0 true, .drain]

theorem stranded_send : ∃ s, Steps.run step {} strandedActs = some s ∧ s.Open ∧ s.cnxPtr = 7 ∧
    s.commands = [] ∧
    s.events = [] ∧ (s.tx 9).bytes = [1] ∧ (∃ r ∈ s.calls, r.Accepted) ∧ ¬ s.SendsKept ∧
    ¬ Steps.Always step SendsKept {} strandedActs := by
  refine ⟨_, rfl, by
    decide, rfl, rfl, rfl, rfl, by decide, fun h => absurd h.kept (by decide), fun h => ?_⟩
  -- it fails right after the send
  have hsend := h.2 _ rfl
  exact absurd (hsend.1 _ rfl).kept (by decide)

end ClientLink

end Aiopquic
