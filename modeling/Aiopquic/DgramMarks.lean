import Aiopquic.Lib.Steps
import Aiopquic.StreamBuf

/-!
# Owed datagram marks (`connection.py`, `webtransport.py`, `datagram_buf.h`, `callback.h`, `h3wt_callback.h`)

`send_datagram_frame` commits a record to the sender's ring and posts a mark, so that the worker
arms picoquic's datagram scheduler. Where the TX event ring is full the mark is owed: the next send
posts it, or the next `DATAGRAM_TX_DRAINED` event. A writer that finds the record ring full parks
until that event.

A sender is a raw connection or a WebTransport session. Its address is the `picoquic_cnx_t*` or the
`aiopquic_wt_session_t*`, and its ring has its number. Each step is one access to the shared rings,
so that the worker and Python interleave inside a send and inside `prepare_datagram`. Memory
allocation succeeds.
-/

namespace Aiopquic

/-- `AIOPQUIC_DGRAM_REC_HDR`. -/
def dgramRecHdr : ℕ := 4

/-- The capacity that `aiopquic_dgram_buf_create` gives a ring, with the `uint32_t` arithmetic of
its size check. -/
def dgramCapacity (capacity maxRecord : UInt32) : ℕ :=
  let need : UInt32 := 2 * (4 + maxRecord)
  if ceilPow2U32 capacity < need.toNat then ceilPow2U32 need else ceilPow2U32 capacity

/-- Two of the largest records fit, unless the size check overflows. -/
theorem le_dgramCapacity (capacity maxRecord : UInt32)
    (h : maxRecord.toNat + dgramRecHdr ≤ 2 ^ 30) :
    2 * (dgramRecHdr + maxRecord.toNat) ≤ dgramCapacity capacity maxRecord := by
  have hneed : (2 * (4 + maxRecord) : UInt32).toNat = 2 * (dgramRecHdr + maxRecord.toNat) := by
    simp only [UInt32.toNat_mul, UInt32.toNat_add, UInt32.reduceToNat, dgramRecHdr] at h ⊢
    omega
  have hle : (2 * (4 + maxRecord) : UInt32).toNat ≤ 2 ^ 31 := by
    omega
  unfold dgramCapacity
  dsimp only
  split
  · rw [← hneed]
    exact le_ceilPow2U32 _ hle
  · omega

inductive SenderKind
  | raw
  | webTransport
  deriving DecidableEq, Repr

/-- A raw connection or a WebTransport session with its datagram ring: what Python keeps, the ring,
and what the worker and picoquic keep. -/
structure DgramSender where
  kind : SenderKind := .raw
  cnx : ℕ := 0
  /-- `_dgram_mark_owed`. -/
  markOwed : Bool := false
  /-- A send returned 0, and the drain event has not been set since. -/
  parked : Bool := false
  closed : Bool := false
  capacity : ℕ := 0
  maxRecord : ℕ := 0
  /-- The payload lengths of the queued records. -/
  records : List ℕ := []
  drainPending : Bool := false
  /-- picoquic's datagram scheduler is armed for it. -/
  active : Bool := false
  /-- picoquic reported its end. -/
  ended : Bool := false
  /-- History: how many `TX_EVENT_RING_DRAINED` had been fired when the mark became owed. -/
  owedAt : ℕ := 0
  deriving DecidableEq, Repr

namespace DgramSender

/-- `aiopquic_dgram_buf_used`. -/
def used (x : DgramSender) : ℕ := (x.records.map (dgramRecHdr + ·)).sum

/-- The record ring has no room for a payload of `len` bytes. -/
def Full (x : DgramSender) (len : ℕ) : Prop := x.capacity - x.used < dgramRecHdr + len

instance (x : DgramSender) (len : ℕ) : Decidable (x.Full len) := inferInstanceAs (Decidable (_ < _))

/-- Neither side has closed it. -/
def Open (x : DgramSender) : Prop := x.closed = false ∧ x.ended = false

instance (x : DgramSender) : Decidable x.Open := inferInstanceAs (Decidable (_ ∧ _))

/-- A sender with an empty ring, which its first send makes. -/
def fresh (kind : SenderKind) (cnx : ℕ) (capacity maxRecord : UInt32) : DgramSender :=
  { kind, cnx, capacity := dgramCapacity capacity maxRecord, maxRecord := maxRecord.toNat }

/-- The mark is owed from now on, unless it is already; `fired` counts the
`TX_EVENT_RING_DRAINED`. -/
def owe (x : DgramSender) (fired : ℕ) : DgramSender :=
  if x.markOwed then x else { x with markOwed := true, owedAt := fired }

end DgramSender

/-- A command of the TX event ring: the mark of a sender, with its address, or another. -/
inductive MarkCmd
  | mark (cnx sender : ℕ)
  | other
  deriving DecidableEq, Repr

/-- An event of the RX ring. `DATAGRAM_TX_DRAINED` names an address; the sender whose ring it is
about is history. -/
inductive MarkEvt
  | datagramTxDrained (cnx sender : ℕ)
  | txEventRingDrained
  deriving DecidableEq, Repr

/-- Where Python is in `send_datagram_frame`. -/
inductive SendPoint
  | idle
  | push (sender len : ℕ)
  | mark (sender : ℕ)
  deriving DecidableEq, Repr

/-- Where the worker is: after the pop of a command it looks at the drain flag of the TX event ring;
in `prepare_datagram` it has read the head record of `ring` for `sender`. -/
inductive WorkerPoint
  | idle
  | popped
  | providing (sender ring : ℕ) (more : Bool)
  deriving DecidableEq, Repr

/-- What a push to the TX event ring answers: it is posted, possibly after arming the ring's drain
flag, or the ring is full. -/
inductive PushAnswer
  | posted (armed : Bool)
  | full
  deriving DecidableEq, Repr

/-- `cnxs` is the live sender at an address, `held` the one Python has there, `table` the ring that
the worker takes the datagrams for an address from. -/
structure DgramMarks where
  txCapacity : ℕ
  /-- `tx_event_ring_low_water`. -/
  lowWater : ℕ
  cnxs : ℕ → Option ℕ := fun _ => none
  held : ℕ → Option ℕ := fun _ => none
  table : ℕ → Option ℕ := fun _ => none
  senders : ℕ → DgramSender := fun _ => {}
  created : ℕ := 0
  tx : List MarkCmd := []
  rx : List MarkEvt := []
  /-- `tx_event_ring_drain_pending`. -/
  txPending : Bool := false
  python : SendPoint := .idle
  worker : WorkerPoint := .idle
  /-- History: the `TX_EVENT_RING_DRAINED` events the worker pushed, and those Python drained. -/
  fired : ℕ := 0
  delivered : ℕ := 0

namespace DgramMarks

@[simps]
def setSender (s : DgramMarks) (i : ℕ) (x : DgramSender) : DgramMarks :=
  { s with senders := Function.update s.senders i x }

/-- The mark of a sender is queued. -/
def Marked (s : DgramMarks) (i : ℕ) : Prop := MarkCmd.mark (s.senders i).cnx i ∈ s.tx

instance (s : DgramMarks) (i : ℕ) : Decidable (s.Marked i) := inferInstanceAs (Decidable (_ ∈ _))

/-! ## Python -/

/-- `dgram_mark_ready`, `push_dgram_ready` and the other pushes: a push that finds the ring full
arms the drain flag, and gives up where the ring is above low water then. -/
def post (s : DgramMarks) (c : MarkCmd) : PushAnswer → Option DgramMarks
  | .posted armed =>
    if s.tx.length < s.txCapacity
      then some { s with tx := s.tx ++ [c], txPending := s.txPending || armed }
    else none
  | .full => if s.lowWater < s.tx.length then some { s with txPending := true } else none

/-- An owed mark is posted, if there is room. -/
def repost (s : DgramMarks) (i : ℕ) (answer : PushAnswer) : Option DgramMarks :=
  let x := s.senders i
  if x.markOwed then
    (s.post (.mark x.cnx i) answer).map fun s =>
      match answer with
      | .posted _ => s.setSender i { x with markOwed := false }
      | .full => s
  else some s

/-- `send_datagram_frame`, to where it pushes the record. -/
def sendDatagramFrame (s : DgramMarks) (i len : ℕ) (answer : PushAnswer) : Option DgramMarks :=
  if s.python = .idle ∧ i < s.created ∧ (s.senders i).closed = false ∧ 0 < len then
    (s.repost i answer).map fun s => { s with python := .push i len }
  else none

/-- `aiopquic_dgram_buf_push_record`; `armed` where the ring had room only at the second look. -/
def pushRecord (s : DgramMarks) (armed : Bool) : Option DgramMarks :=
  match s.python with
  | .push i len =>
    let x := s.senders i
    if x.maxRecord < len then some { s with python := .idle }
    else if x.Full len then
      some { s.setSender i { x with drainPending := true, parked := true } with python := .idle }
    else
      some { s.setSender i { x with
        records := x.records ++ [len]
        drainPending := x.drainPending || armed } with python := .mark i }
  | _ => none

/-- The mark of the record that was pushed. -/
def postMark (s : DgramMarks) (answer : PushAnswer) : Option DgramMarks :=
  match s.python with
  | .mark i =>
    (s.post (.mark (s.senders i).cnx i) answer).map fun s =>
      match answer with
      | .posted _ => { s with python := .idle }
      | .full => { s.setSender i ((s.senders i).owe s.fired) with python := .idle }
  | _ => none

/-- `drain_rx` on the next event: `DATAGRAM_TX_DRAINED` sets the drain event and posts an owed mark,
`TX_EVENT_RING_DRAINED` only wakes the stream writers. -/
def drain (s : DgramMarks) (answer : PushAnswer) : Option DgramMarks :=
  if s.python = .idle then
    match s.rx with
    | [] => none
    | .datagramTxDrained cnx _ :: rx =>
      match s.held cnx with
      | none => some { s with rx := rx }
      | some i => ({ s with rx := rx }.setSender i { s.senders i with parked := false }).repost i
          answer
    | .txEventRingDrained :: rx => some { s with rx := rx, delivered := s.delivered + 1 }
  else none

/-- Python closes a connection or a session; the drain event is set. -/
def close (s : DgramMarks) (i : ℕ) : Option DgramMarks :=
  if s.python = .idle ∧ s.held (s.senders i).cnx = some i then
    some { s.setSender i { s.senders i with closed := true, parked := false } with
      held := Function.update s.held (s.senders i).cnx none }
  else none

/-! ## The worker and picoquic -/

/-- The ring in the table after a mark: a raw connection keeps the one it has. -/
def put (kind : SenderKind) (old : Option ℕ) (ring : ℕ) : ℕ :=
  match kind, old with
  | .raw, some r => r
  | _, _ => ring

/-- The pop of a command: a mark whose connection lives enters the ring and arms the scheduler. -/
def pop (s : DgramMarks) : Option DgramMarks :=
  if s.worker = .idle then
    match s.tx with
    | [] => none
    | .other :: tx => some { s with tx := tx, worker := .popped }
    | .mark cnx i :: tx =>
      match s.cnxs cnx with
      | none => some { s with tx := tx, worker := .popped }
      | some j =>
        some { s.setSender j { s.senders j with active := true } with
          tx := tx
          table := Function.update s.table cnx (some (put (s.senders j).kind (s.table cnx) i))
          worker := .popped }
  else none

/-- `aiopquic_maybe_fire_tx_event_ring_drained`, after a pop or at the end of the drain loop. -/
def fire (s : DgramMarks) : Option DgramMarks :=
  match s.worker with
  | .providing _ _ _ => none
  | _ =>
    if s.txPending = true ∧ s.tx.length ≤ s.lowWater then
      some { s with
        txPending := false, rx := s.rx ++ [.txEventRingDrained], fired := s.fired + 1,
          worker := .idle }
    else some { s with worker := .idle }

/-- `prepare_datagram` and `provide_datagram`, to where the record is taken: `length` bytes are
offered. -/
def prepareDatagram (s : DgramMarks) (cnx length : ℕ) : Option DgramMarks :=
  if s.worker = .idle then
    match s.cnxs cnx with
    | none => none
    | some j =>
      match (s.table cnx).map fun r => (r, (s.senders r).records) with
      | some (r, rec :: rest) =>
        if rec ≤ length then some { s with worker := .providing j r (rest ≠ []) }
        else some (s.setSender j { s.senders j with active := true })
      | _ => some (s.setSender j { s.senders j with active := false })
  else none

/-- The record is taken, and a writer that armed the drain flag is told. -/
def provide (s : DgramMarks) : Option DgramMarks :=
  match s.worker with
  | .providing j r more =>
    let x := s.senders r
    let s' := s.setSender r { x with records := x.records.tail, drainPending := false }
    some { s'.setSender j { s'.senders j with active := more } with
      rx := if x.drainPending then s.rx ++ [.datagramTxDrained (s.senders j).cnx r] else s.rx
      worker := .idle }
  | _ => none

/-- A connection or session starts at an address, and Python has it. -/
def create (s : DgramMarks) (kind : SenderKind) (cnx : ℕ) (capacity maxRecord : UInt32) :
    Option DgramMarks :=
  if s.cnxs cnx = none then
    some { s with
      cnxs := Function.update s.cnxs cnx (some s.created)
      held := Function.update s.held cnx (some s.created)
      senders := Function.update s.senders s.created (.fresh kind cnx capacity maxRecord)
      created := s.created + 1 }
  else none

/-- picoquic reports the end of a connection or session; `clears` where the report takes the ring
out of the table. -/
def endCnx (s : DgramMarks) (cnx : ℕ) (clears : Bool) : Option DgramMarks :=
  if s.worker = .idle then
    (s.cnxs cnx).map fun j =>
      { s.setSender j { s.senders j with ended := true } with
        table := if clears then Function.update s.table cnx none else s.table }
  else none

/-- An ended connection or session is freed. -/
def free (s : DgramMarks) (cnx : ℕ) : Option DgramMarks :=
  match s.cnxs cnx with
  | none => none
  | some j =>
    if s.worker = .idle ∧ (s.senders j).ended = true then
      some { s with cnxs := Function.update s.cnxs cnx none }
    else none

/-- The release of the ring of a closed connection or session reaches the worker. -/
def releaseRing (s : DgramMarks) (i : ℕ) : Option DgramMarks :=
  if s.worker = .idle ∧ (s.senders i).closed = true ∧ s.table (s.senders i).cnx = some i then
    some { s with table := Function.update s.table (s.senders i).cnx none }
  else none

/-! ## Runs -/

inductive Act
  | create (kind : SenderKind) (cnx : ℕ) (capacity maxRecord : UInt32)
  | endCnx (cnx : ℕ) (clears : Bool)
  | free (cnx : ℕ)
  | releaseRing (sender : ℕ)
  | close (sender : ℕ)
  | send (sender len : ℕ) (answer : PushAnswer)
  | pushRecord (armed : Bool)
  | postMark (answer : PushAnswer)
  /-- Another command is pushed. -/
  | other (answer : PushAnswer)
  | drain (answer : PushAnswer)
  | pop
  | fire
  | prepare (cnx length : ℕ)
  | provide
  deriving DecidableEq, Repr

/-- One step. -/
def step (s : DgramMarks) : Act → Option DgramMarks
  | .create kind cnx capacity maxRecord => s.create kind cnx capacity maxRecord
  | .endCnx cnx clears => s.endCnx cnx clears
  | .free cnx => s.free cnx
  | .releaseRing i => s.releaseRing i
  | .close i => s.close i
  | .send i len answer => s.sendDatagramFrame i len answer
  | .pushRecord armed => s.pushRecord armed
  | .postMark answer => s.postMark answer
  | .other answer => if s.python = .idle then s.post .other answer else none
  | .drain answer => s.drain answer
  | .pop => s.pop
  | .fire => s.fire
  | .prepare cnx length => s.prepareDatagram cnx length
  | .provide => s.provide

/-- What draining the next event of `rx` finds: a `DATAGRAM_TX_DRAINED` reaches its sender unless
that is closed, and at a `TX_EVENT_RING_DRAINED` no open sender has owed its mark since before it
was fired. -/
def Timely (s : DgramMarks) : List MarkEvt → Prop
  | [] => True
  | .datagramTxDrained cnx i :: _ => (s.senders i).closed = false → s.held cnx = some i
  | .txEventRingDrained :: _ => ∀ i < s.created, (s.senders i).Open →
    (s.senders i).markOwed = true →
      s.delivered < (s.senders i).owedAt

/-- A send that is refused has no mark owed, unless an earlier mark is queued or the scheduler is
armed. -/
def Scheduled (s : DgramMarks) : SendPoint → Prop
  | .push i len => (s.senders i).Full len → (s.senders i).markOwed = true →
      s.Marked i ∨ (s.senders i).active = true
  | _ => True

/-- The next mark finds no other sender at its address. -/
def Addressed (s : DgramMarks) : List MarkCmd → Prop
  | .mark cnx i :: _ => ∀ j ∈ s.cnxs cnx, j = i
  | _ => True

instance (s : DgramMarks) : DecidablePred s.Timely
  | [] => .isTrue trivial
  | .datagramTxDrained _ _ :: _ => inferInstanceAs (Decidable (_ → _))
  | .txEventRingDrained :: _ => inferInstanceAs (Decidable (∀ i < s.created, _ → _ → _))

instance (s : DgramMarks) : DecidablePred s.Scheduled
  | .idle => .isTrue trivial
  | .push _ _ => inferInstanceAs (Decidable (_ → _ → _))
  | .mark _ => .isTrue trivial

instance (s : DgramMarks) : DecidablePred s.Addressed
  | [] => .isTrue trivial
  | .other :: _ => .isTrue trivial
  | .mark _ _ :: _ => inferInstanceAs (Decidable (∀ j ∈ s.cnxs _, _))

/-- What a step of a run has to meet. -/
def Ok (s : DgramMarks) : Act → Prop
  | .create _ cnx _ maxRecord => s.table cnx = none ∧ maxRecord.toNat + dgramRecHdr ≤ 2 ^ 30
  | .pushRecord _ => s.Scheduled s.python
  | .drain _ => s.Timely s.rx
  | .pop => s.Addressed s.tx
  | _ => True

instance (s : DgramMarks) : DecidablePred s.Ok
  | .create _ _ _ _ => inferInstanceAs (Decidable (_ ∧ _))
  | .pushRecord _ => inferInstanceAs (Decidable (s.Scheduled _))
  | .drain _ => inferInstanceAs (Decidable (s.Timely _))
  | .pop => inferInstanceAs (Decidable (s.Addressed _))
  | .endCnx _ _ | .free _ | .releaseRing _ | .close _ | .send _ _ _ | .postMark _ | .other _ | .fire
  | .prepare _ _ | .provide => .isTrue trivial

end DgramMarks

end Aiopquic
