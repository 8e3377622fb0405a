import Aiopquic.TxCommands

/-!
# Datagram rings and their connections (`datagram_buf.h`, `callback.h`)

A connection's datagrams wait in a record ring that Python makes at its first send. A
`TX_MARK_DATAGRAM_READY` tells the worker of the ring: it enters the ring in a table under the
connection's address, unless the address has a ring already, and `prepare_datagram` takes the
records from the ring in the table. The entry goes with a `close` or `application_close` callback,
or when the ring's release is processed and the entry still holds that ring. A release that finds
the TX event ring full is owed, and posted later.

Rings are numbered from 1 in the order they are made, and `owner` is the connection of the
`QuicConnection` that made a ring. A record carries the connection that accepted it.
-/

namespace Aiopquic

open QuicEngine (Tagged)

/-- A record of a datagram ring, with the connection whose `send_datagram_frame` accepted it. -/
structure Record where
  inst : ℕ
  data : List UInt8
  deriving DecidableEq, Repr

/-- The datagram side of a `QuicConnection`: `_dgram_ring` and `_dgram_mark_owed`. -/
structure DgramConn where
  ring : ℕ := 0
  markOwed : Bool := false
  deriving DecidableEq, Repr

/-- What a send meets: whether an owed mark can be posted, whether the record fits the ring, and
whether its mark can be posted. -/
structure SendAnswers where
  reposts : Bool := true
  fits : Bool := true
  posts : Bool := true

/-- `dgram` is the datagram side of the connection Python has at an address. `owed` are the releases
that found the TX event ring full. -/
structure DgramRings extends TxCommands where
  dgram : ℕ → DgramConn := fun _ => {}
  owed : List Command := []
  table : ℕ → Option ℕ := fun _ => none
  rings : ℕ → List Record := fun _ => []
  made : ℕ := 0
  /-- The connection whose `QuicConnection` made a ring. -/
  owner : ℕ → ℕ := fun _ => 0
  /-- History: the connections that had a terminal callback. -/
  ended : List ℕ := []
  /-- History: the connections for which the worker processed a `MARK_DATAGRAM_READY`. -/
  marked : List ℕ := []
  /-- History: the records accepted into each ring. -/
  accepted : ℕ → List Record := fun _ => []
  /-- History: the records handed to picoquic, with the connection they were handed for. -/
  handed : List (ℕ × Record) := []

namespace DgramRings

/-! ## The table -/

/-- `aiopquic_dgram_table_put`; `allocates` is false when the table has to grow and cannot. -/
def put (table : ℕ → Option ℕ) (cnx ring : ℕ) (allocates : Bool) : ℕ → Option ℕ :=
  if allocates ∧ table cnx = none then Function.update table cnx (some ring) else table

/-- `aiopquic_dgram_table_remove`. -/
def remove (table : ℕ → Option ℕ) (cnx : ℕ) : ℕ → Option ℕ := Function.update table cnx none

/-- `aiopquic_dgram_table_remove_ring`, for a ring. -/
def removeRing (table : ℕ → Option ℕ) (cnx ring : ℕ) : ℕ → Option ℕ :=
  if table cnx = some ring then remove table cnx else table

/-! ## Python -/

/-- A `TX_MARK_DATAGRAM_READY`. -/
def markEntry (cnx ring : ℕ) : Entry :=
  { eventType := .txMarkDatagramReady, cnx := cnx, streamCtx := ring }

/-- A `TX_DGRAM_RING_RELEASE`. -/
def releaseEntry (cnx ring : ℕ) : Entry :=
  { eventType := .txDgramRingRelease, cnx := cnx, streamCtx := ring }

/-- A mark is posted for the connection `inst`. -/
def mark (s : DgramRings) (cnx inst : ℕ) : DgramRings :=
  { s with ring := s.ring ++ [⟨markEntry cnx (s.dgram cnx).ring, inst⟩] }

/-- The datagram side of the connection at `cnx`. -/
def setDgram (s : DgramRings) (cnx : ℕ) (c : DgramConn) : DgramRings :=
  { s with dgram := Function.update s.dgram cnx c }

/-- The ring that the first send makes. -/
def openRing (s : DgramRings) (cnx inst : ℕ) : DgramRings :=
  if (s.dgram cnx).ring = 0 then
    { s.setDgram cnx { s.dgram cnx with ring := s.made + 1 } with
      made := s.made + 1
      owner := Function.update s.owner (s.made + 1) inst }
  else s

/-- An owed mark is posted, if there is room. -/
def repost (s : DgramRings) (cnx inst : ℕ) (posts : Bool) : DgramRings :=
  if (s.dgram cnx).markOwed ∧ (s.dgram cnx).ring ≠ 0 ∧ posts then
    (s.mark cnx inst).setDgram cnx { s.dgram cnx with markOwed := false }
  else s

/-- The record is committed to the ring. -/
def commit (s : DgramRings) (cnx inst : ℕ) (data : List UInt8) : DgramRings :=
  let r := (s.dgram cnx).ring
  { s with
    rings := Function.update s.rings r (s.rings r ++ [⟨inst, data⟩])
    accepted := Function.update s.accepted r (s.accepted r ++ [⟨inst, data⟩]) }

/-- `send_datagram_frame` on the connection `inst` at `cnx`. -/
def sendDatagramFrame (s : DgramRings) (cnx inst : ℕ) (data : List UInt8) (a : SendAnswers) :
    DgramRings :=
  let s := (s.openRing cnx inst).repost cnx inst a.reposts
  if a.fits then
    let s := s.commit cnx inst data
    if a.posts then s.mark cnx inst else s.setDgram cnx { s.dgram cnx with markOwed := true }
  else s

/-- `_release_dgram_ring`: the release is posted, or owed. -/
def releaseRing (s : DgramRings) (cnx inst : ℕ) (posts : Bool) : DgramRings :=
  let q : Command := ⟨releaseEntry cnx (s.dgram cnx).ring, inst⟩
  let s' := s.setDgram cnx {}
  if (s.dgram cnx).ring = 0 then s'
  else if posts then { s' with ring := s.ring ++ [q] }
  else { s' with owed := s.owed ++ [q] }

/-- What draining an event does to the datagram side of the connection at its address. -/
def drainDgram (s : DgramRings) (e : Tagged) (posts : Bool) : DgramRings :=
  match s.held e.ev.cnxPtr with
  | none => if e.ev.isClose then s else s.setDgram e.ev.cnxPtr {}
  | some inst =>
    if e.ev.isClose then s.releaseRing e.ev.cnxPtr inst posts
    else if e.ev.evtType = .datagramTxDrained then s.repost e.ev.cnxPtr inst posts
    else s

/-! ## The worker -/

/-- The worker's table after a command. -/
def popDgram (s : DgramRings) (q : Command) (allocates : Bool) : DgramRings :=
  if q.entry.streamCtx = 0 then s
  else if q.entry.eventType = .txDgramRingRelease then
    { s with table := removeRing s.table q.entry.cnx q.entry.streamCtx }
  else if q.entry.eventType = .txMarkDatagramReady ∧ s.cnxs q.entry.cnx ≠ none then
    { s with
      table := put s.table q.entry.cnx q.entry.streamCtx allocates
      marked := s.marked ++ [q.inst] }
  else s

/-- The end of a connection: two of the three terminal callbacks take its entry out of the table. -/
def endDgram (s : DgramRings) (cnx : ℕ) (inst : ℕ) (event : PicoquicCallback) : DgramRings :=
  if event = .close ∨ event = .applicationClose then
    { s with table := remove s.table cnx, ended := s.ended ++ [inst] }
  else if event = .statelessReset then { s with ended := s.ended ++ [inst] }
  else s

/-- `prepare_datagram` on the connection `inst`: the head record of the ring in the table, if it
fits the packet and picoquic provides a buffer. -/
def prepareDatagram (s : DgramRings) (cnx inst length : ℕ) (buffer : Bool) : DgramRings :=
  match s.table cnx with
  | none => s
  | some r =>
    match s.rings r with
    | [] => s
    | rec :: rest =>
      if rec.data.length ≤ length ∧ buffer then
        { s with rings := Function.update s.rings r rest, handed := s.handed ++ [(inst, rec)] }
      else s

/-! ## Runs -/

inductive Act
  /-- picoquic makes or frees a connection, or a command that is no datagram's is pushed. -/
  | other (act : TxCommands.Act)
  | callback (cnx : ℕ) (cb : Callback)
  | drain (posts : Bool)
  | send (cnx : ℕ) (data : List UInt8) (answers : SendAnswers)
  /-- An owed release is posted. -/
  | flush
  | pop (v : CnxView) (allocates : Bool)
  | prepare (cnx length : ℕ) (buffer : Bool)

/-- The steps that leave the datagrams alone. -/
def Spares : TxCommands.Act → Prop
  | .create _ | .free _ | .afterSend _ _ => True
  | .push entry => entry.eventType ≠ .txMarkDatagramReady ∧ entry.eventType ≠ .txDgramRingRelease
  | _ => False

instance : ∀ act, Decidable (Spares act)
  | .create _ => .isTrue trivial
  | .free _ => .isTrue trivial
  | .afterSend _ _ => .isTrue trivial
  | .push _ => inferInstanceAs (Decidable (_ ∧ _))
  | .callback _ _ => .isFalse id
  | .drain => .isFalse id
  | .release _ _ => .isFalse id
  | .pop _ => .isFalse id

/-- A step of the commands, with the datagram side as it is. -/
def lift (s : DgramRings) (act : TxCommands.Act) : Option DgramRings :=
  (s.toTxCommands.step act).map fun base => { s with toTxCommands := base }

/-- One step. -/
def step (s : DgramRings) : Act → Option DgramRings
  | .other act => if Spares act then s.lift act else none
  | .callback cnx cb =>
    match s.cnxs cnx with
    | none => none
    | some inst => (s.endDgram cnx inst cb.event).lift (.callback cnx cb)
  | .drain posts =>
    match s.rx with
    | [] => none
    | e :: _ => (s.drainDgram e posts).lift .drain
  | .send cnx data answers =>
    match s.held cnx with
    | none => none
    | some inst => some (s.sendDatagramFrame cnx inst data answers)
  | .flush =>
    match s.owed with
    | [] => none
    | q :: owed => { s with owed := owed }.lift (.release q.entry q.inst)
  | .pop v allocates =>
    match s.ring with
    | [] => none
    | q :: _ => (s.popDgram q allocates).lift (.pop v)
  | .prepare cnx length buffer =>
    match s.cnxs cnx with
    | none => none
    | some inst => some (s.prepareDatagram cnx inst length buffer)

/-- Every record handed over for a connection was accepted by it, and a record accepted by a
connection that has not ended, and of which the worker processed a mark, is in the ring the worker
takes from for it, or was handed over. -/
structure Own (s : DgramRings) : Prop where
  handed : ∀ inst rec, (inst, rec) ∈ s.handed → rec.inst = inst
  pulled : ∀ cnx inst, s.cnxs cnx = some inst → inst ∉ s.ended → inst ∈ s.marked →
    ∀ r rec, rec ∈ s.accepted r → rec.inst = inst →
      s.table cnx = some r ∧ (rec ∈ s.rings r ∨ (inst, rec) ∈ s.handed)

/-- A connection is made at an address only when it is forgotten and the table has no ring for it,
and the table can grow when it has to. -/
def Fresh (s : DgramRings) : Act → Prop
  | .other act => s.toTxCommands.Forgotten act ∧
      match act with
      | .create cnx => s.table cnx = none
      | _ => True
  | .pop _ allocates => allocates = true
  | _ => True

end DgramRings

end Aiopquic
