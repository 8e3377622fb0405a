import Aiopquic.Lib.AssocCount
import Aiopquic.Lib.Counted
import Aiopquic.Lib.Steps
import Aiopquic.DgramMarks
import Aiopquic.SpscRing

/-!
# How long a datagram ring lives (`datagram_buf.h`, `callback.h`, `h3wt_callback.h`, `_transport.pyx`)

A datagram ring is counted. Its maker, a raw connection or a WebTransport session, has one reference,
the worker's table one for each entry with the ring, and a session struct one for the ring it takes
datagrams from. A mark in the TX event ring names the ring, and for a session its struct, without a
reference.

The maker's reference goes with `aiopquic_dgram_ring_release`: with a worker running as a
`TX_DGRAM_RING_RELEASE` behind the marks, or owed where the TX event ring is full; without one it is
dropped on the spot. The stop drops what queued and owed releases hold.

Python's calls, and the worker's handling of one command or callback, are atomic here. Rings are
numbered from 1 in the order they are made, connections and session structs have addresses, which the
allocator may use again.
-/

namespace Aiopquic

open Counted

/-- A release that found the TX event ring full, `aiopquic_dgram_release_t`. -/
structure OwedRelease where
  cnx : ℕ
  db : ℕ
  deriving DecidableEq, Repr

namespace Entry

/-- The ring that a mark names. -/
def markRing (e : Entry) : Option ℕ :=
  match e.eventType with
  | .txMarkDatagramReady => some e.streamCtx
  | .txMarkWtDatagramReady => some e.errorCode
  | _ => none

/-- The session struct that a mark names. -/
def markStruct (e : Entry) : Option ℕ :=
  match e.eventType with
  | .txMarkWtDatagramReady => some e.cnx
  | _ => none

/-- The release in an entry; none once a stop has cleared it. -/
def release (e : Entry) : Option OwedRelease :=
  match e.eventType with
  | .txDgramRingRelease => if e.streamCtx ≠ 0 then some ⟨e.cnx, e.streamCtx⟩ else none
  | _ => none

/-- The session struct that a `TX_WT_DEREGISTER` frees. -/
def freed (e : Entry) : Option ℕ :=
  match e.eventType with
  | .txWtDeregister => some e.cnx
  | _ => none

/-- A stop clears the releases whose references it drops. -/
def clearRelease (e : Entry) : Entry :=
  match e.eventType with
  | .txDgramRingRelease => { e with streamCtx := 0 }
  | _ => e

end Entry

/-- A raw connection or a WebTransport session, as far as its datagrams go: `_cnx_ptr`, which a
session has none of, `_dgram_mark_owed`, and `_closed` or `_session_closed`. -/
structure RingMaker where
  kind : SenderKind := .raw
  cnxPtr : ℕ := 0
  markOwed : Bool := false
  closed : Bool := false
  deriving DecidableEq, Repr

/-- Everything that holds a datagram ring or names one. -/
structure DgramHolders where
  /-- The capacity of the TX event ring. -/
  txCap : ℕ
  /-- `thread_ctx` is set. -/
  running : Bool := false
  /-- `aiopquic_ctx_destroy` has run. -/
  destroyed : Bool := false
  made : ℕ := 0
  makers : ℕ → RingMaker := fun _ => {}
  /-- `_dgram_ring` of the makers that have one. -/
  rings : AList fun _ : ℕ => ℕ := ∅
  /-- The struct that a session's `WebTransportSessionState` has. -/
  states : AList fun _ : ℕ => ℕ := ∅
  tx : List Entry := []
  owed : List OwedRelease := []
  /-- The references that nobody will give back: the maker is gone, or `realloc` failed. -/
  lost : List ℕ := []
  /-- picoquic's connections. -/
  cnxs : List ℕ := []
  table : AList fun _ : ℕ => ℕ := ∅
  /-- The session structs allocated. -/
  structs : Finset ℕ := ∅
  /-- `s->dgram_ring` of the structs that have one. -/
  slots : AList fun _ : ℕ => ℕ := ∅
  /-- The structs that nobody will free: their `TX_WT_DEREGISTER` found the TX event ring full. -/
  lostStructs : List ℕ := []
  /-- History: a command was handled for a session struct that had been freed. -/
  wild : Bool := false

namespace DgramHolders

/-- The releases that are queued or owed. -/
def releases (s : DgramHolders) : List OwedRelease := s.tx.filterMap Entry.release ++ s.owed

/-- The makers' references: with the maker, in a release, or lost. -/
def callers (s : DgramHolders) (db : ℕ) : ℕ :=
  s.rings.values.count db + (s.releases.map OwedRelease.db).count db + s.lost.count db

/-- The worker's references: the table's and the session structs'. -/
def workers (s : DgramHolders) (db : ℕ) : ℕ := s.table.values.count db + s.slots.values.count db

/-- The references to a ring. -/
def holders (s : DgramHolders) (db : ℕ) : ℕ := s.callers db + s.workers db

/-- Who answers for a session struct: the session's state, a `TX_WT_DEREGISTER`, or nobody. -/
def structHolders (s : DgramHolders) (a : ℕ) : ℕ :=
  s.states.values.count a + (s.tx.filterMap Entry.freed).count a + s.lostStructs.count a

end DgramHolders

/-- The holders, and the rings with their counts. -/
structure DgramLife extends DgramHolders where
  refs : ℕ → Counted := fun _ => {}

namespace DgramLife

/-- The values of `refcnt`, a `uint32_t`. -/
def word : ℕ := 2 ^ 32

/-! ## The counts -/

/-- `aiopquic_dgram_buf_addref`. -/
def addref (s : DgramLife) (db : ℕ) : DgramLife := { s with refs := takeAt word s.refs db }

/-- `aiopquic_dgram_buf_unref`. -/
def unref (s : DgramLife) (db : ℕ) : DgramLife := { s with refs := dropAt word s.refs db }

/-- A read or a write of the ring. -/
def touch (s : DgramLife) (db : ℕ) : DgramLife := { s with refs := touchAt s.refs db }

/-! ## The table and the session structs -/

/-- `aiopquic_dgram_table_put`; `allocates` is false when the table has to grow and cannot. -/
def tablePut (s : DgramLife) (cnx db : ℕ) (allocates : Bool) : DgramLife :=
  if allocates ∧ s.table.lookup cnx = none then
    { s.addref db with table := s.table.insert cnx db }
  else s

/-- `aiopquic_dgram_table_remove`. -/
def tableRemove (s : DgramLife) (cnx : ℕ) : DgramLife :=
  match s.table.lookup cnx with
  | none => s
  | some db => { s.unref db with table := s.table.erase cnx }

/-- `aiopquic_dgram_table_remove_ring`, for a ring. -/
def tableRemoveRing (s : DgramLife) (cnx db : ℕ) : DgramLife :=
  if cnx ≠ 0 ∧ s.table.lookup cnx = some db then s.tableRemove cnx else s

/-- `aiopquic_dgram_ring_drop`. -/
def ringDrop (s : DgramLife) (cnx db : ℕ) : DgramLife := (s.tableRemoveRing cnx db).unref db

/-- The struct's ring is unreferenced. -/
def slotClear (s : DgramLife) (a : ℕ) : DgramLife :=
  match s.slots.lookup a with
  | none => s
  | some db => { s.unref db with slots := s.slots.erase a }

/-- A use of a session struct. -/
def useStruct (s : DgramLife) (a : ℕ) : DgramLife :=
  { s with wild := s.wild || decide (a ∉ s.structs) }

/-- `aiopquic_wt_session_destroy`. -/
def structDestroy (s : DgramLife) (a : ℕ) : DgramLife :=
  let s := (s.useStruct a).slotClear a
  { s with structs := s.structs.erase a }

/-! ## Python -/

/-- The TX event ring takes another entry. -/
def Room (s : DgramLife) : Prop := s.tx.length < s.txCap

instance (s : DgramLife) : Decidable s.Room := inferInstanceAs (Decidable (_ < _))

/-- `spsc_ring_push`, where there is room. -/
def push (s : DgramLife) (e : Entry) : DgramLife := { s with tx := s.tx ++ [e] }

/-- A `TX_MARK_DATAGRAM_READY`. -/
def markEntry (cnx db : ℕ) : Entry :=
  { eventType := .txMarkDatagramReady, cnx := cnx, streamCtx := db }

/-- A `TX_MARK_WT_DATAGRAM_READY`. -/
def wtMarkEntry (a db : ℕ) : Entry :=
  { eventType := .txMarkWtDatagramReady, cnx := a, streamCtx := a, errorCode := db }

/-- A `TX_DGRAM_RING_RELEASE`. -/
def releaseEntry (cnx db : ℕ) : Entry :=
  { eventType := .txDgramRingRelease, cnx := cnx, streamCtx := db }

/-- A `TX_WT_DEREGISTER`. -/
def deregisterEntry (a : ℕ) : Entry := { eventType := .txWtDeregister, cnx := a, streamCtx := a }

def setMaker (s : DgramLife) (i : ℕ) (m : RingMaker) : DgramLife :=
  { s with makers := Function.update s.makers i m }

/-- The address a maker's marks carry: of its connection, or of its session struct. -/
def address (s : DgramLife) (i : ℕ) : ℕ :=
  match (s.makers i).kind with
  | .raw => (s.makers i).cnxPtr
  | .webTransport => (s.states.lookup i).getD 0

/-- The maker's mark for a ring. -/
def markOf (s : DgramLife) (i db : ℕ) : Entry :=
  match (s.makers i).kind with
  | .raw => markEntry (s.address i) db
  | .webTransport => wtMarkEntry (s.address i) db

/-- `dgram_ring_create`, at the first send. -/
def openRing (s : DgramLife) (i : ℕ) : DgramLife :=
  match s.rings.lookup i with
  | some _ => s
  | none =>
    { s with
      rings := s.rings.insert i (s.made + 1)
      refs := Function.update s.refs (s.made + 1) Counted.make
      made := s.made + 1 }

/-- An owed mark is posted, if there is room. -/
def repost (s : DgramLife) (i db : ℕ) : DgramLife :=
  if (s.makers i).markOwed ∧ s.Room then
    (s.push (s.markOf i db)).setMaker i { s.makers i with markOwed := false }
  else s

/-- `dgram_mark_ready` or `push_dgram_ready` behind a record: without room the mark is owed. -/
def mark (s : DgramLife) (i db : ℕ) : DgramLife :=
  if s.Room then s.push (s.markOf i db) else s.setMaker i { s.makers i with markOwed := true }

/-- The record is committed to the ring, if it fits; either way the ring is read. -/
def commit (s : DgramLife) (i db : ℕ) (fits : Bool) : DgramLife :=
  if fits then (s.touch db).mark i db else s.touch db

/-- `send_datagram_frame` of a connection or a session. -/
def sendDatagramFrame (s : DgramLife) (i : ℕ) (fits : Bool) : DgramLife :=
  let s := s.openRing i
  match s.rings.lookup i with
  | none => s
  | some db => (s.repost i db).commit i db fits

/-- The handler of `DATAGRAM_TX_DRAINED`. -/
def datagramTxDrained (s : DgramLife) (i : ℕ) : DgramLife :=
  match s.rings.lookup i with
  | none => s
  | some db => s.repost i db

/-- `aiopquic_dgram_ring_release_flush`: the owed releases are posted while there is room. -/
def releaseFlush (s : DgramLife) : DgramLife :=
  let n := s.txCap - s.tx.length
  { s with
    tx := s.tx ++ (s.owed.take n).map fun r => releaseEntry r.cnx r.db
    owed := s.owed.drop n }

/-- `aiopquic_dgram_ring_release`; `grows` is false when the list of owed releases has to grow and
cannot. -/
def ringRelease (s : DgramLife) (cnx db : ℕ) (grows : Bool) : DgramLife :=
  if s.running = false then s.unref db
  else if s.Room then s.push (releaseEntry cnx db)
  else if grows then releaseFlush { s with owed := s.owed ++ [⟨cnx, db⟩] }
  else { s with lost := db :: s.lost }

/-- `_release_dgram_ring`, and the same in `_release_session_resources`. -/
def makerRelease (s : DgramLife) (i cnx : ℕ) (grows : Bool) : DgramLife :=
  match s.rings.lookup i with
  | none => s
  | some db => ringRelease { s with rings := s.rings.erase i } cnx db grows

/-- A connection's `CLOSE`, or the end of a session: the release names the connection, a session's
names none. -/
def makerClose (s : DgramLife) (i : ℕ) (grows : Bool) : DgramLife :=
  match (s.makers i).kind with
  | .raw =>
    (s.makerRelease i (s.makers i).cnxPtr grows).setMaker i
      { s.makers i with closed := true, cnxPtr := 0 }
  | .webTransport => (s.makerRelease i 0 grows).setMaker i { s.makers i with closed := true }

/-- `WebTransportSessionState.__dealloc__`, for a session that was opened: a running worker frees
the struct, and a full ring leaks it; otherwise it is freed here. -/
def stateDealloc (s : DgramLife) (i : ℕ) : DgramLife :=
  match s.states.lookup i with
  | none => s
  | some a =>
    let s := { s with states := s.states.erase i }
    if s.running = false then s.structDestroy a
    else if s.Room then s.push (deregisterEntry a)
    else { s with lostStructs := a :: s.lostStructs }

/-- Python has no reference to the maker any more. Nothing gives the ring back. -/
def makerGone (s : DgramLife) (i : ℕ) : DgramLife :=
  let s := s.setMaker i { s.makers i with closed := true, cnxPtr := 0 }
  let s := match s.rings.lookup i with
    | none => s
    | some db => { s with rings := s.rings.erase i, lost := db :: s.lost }
  s.stateDealloc i

/-! ## The worker -/

/-- What the worker reads while it handles a command: whether the table can grow, and whether the
session has its connection. -/
structure MarkView where
  allocates : Bool := true
  hasCnx : Bool := true

/-- `TX_MARK_WT_DATAGRAM_READY`: the session struct takes the ring. -/
def wtMark (s : DgramLife) (a db : ℕ) (v : MarkView) : DgramLife :=
  let s := s.useStruct a
  if v.hasCnx = false ∨ db = 0 ∨ s.slots.lookup a = some db then s
  else
    let s := (s.slotClear a).addref db
    { s with slots := s.slots.insert a db }

/-- `aiopquic_loop_cb` on an entry that is off the ring. -/
def handle (s : DgramLife) (e : Entry) (v : MarkView) : DgramLife :=
  match e.eventType with
  | .txDgramRingRelease => if e.streamCtx ≠ 0 then s.ringDrop e.cnx e.streamCtx else s
  | .txMarkWtDatagramReady => s.wtMark e.cnx e.errorCode v
  | .txWtDeregister => s.structDestroy e.cnx
  | .txMarkDatagramReady =>
    -- the stale-cnx guard, then the mark
    if e.cnx ∈ s.cnxs ∧ e.streamCtx ≠ 0 then s.tablePut e.cnx e.streamCtx v.allocates else s
  | _ => s

/-- The worker takes the head of the TX event ring. -/
def pop (s : DgramLife) (v : MarkView) : Option DgramLife :=
  match s.tx with
  | [] => none
  | e :: tx => some (handle { s with tx := tx } e v)

/-! ## The stop -/

/-- The references of a list of releases are dropped. -/
def dropReleases (s : DgramLife) (l : List OwedRelease) : DgramLife :=
  l.foldl (fun s r => s.ringDrop r.cnx r.db) s

/-- `aiopquic_dgram_ring_release_undrained`. -/
def releaseUndrained (s : DgramLife) : DgramLife :=
  dropReleases { s with tx := s.tx.map Entry.clearRelease, owed := [] } s.releases

/-- `_shutdown`: the worker is joined, releases are swept, and `picoquic_free` calls back on the
connections of `closed`. -/
def shutdown (s : DgramLife) (closed : List ℕ) : DgramLife :=
  let s := closed.foldl tableRemove (releaseUndrained { s with running := false })
  { s with cnxs := [] }

/-- `aiopquic_ctx_destroy`: the table and the owed releases. -/
def ctxDestroy (s : DgramLife) : DgramLife :=
  let refs := dropAll word (dropAll word s.refs s.table.values) (s.owed.map OwedRelease.db)
  { s with destroyed := true, refs := refs, table := ∅, owed := [] }

/-! ## Steps -/

inductive Act
  /-- A connection learns its pointer. -/
  | adopt (i cnx : ℕ)
  /-- A session is opened, with its struct at `a`. -/
  | openSession (i a : ℕ)
  | send (i : ℕ) (fits : Bool)
  | drained (i : ℕ)
  | close (i : ℕ) (grows : Bool)
  /-- `QuicEngine.close` releases the ring of a connection. -/
  | engineRelease (i : ℕ) (grows : Bool)
  | gone (i : ℕ)
  /-- A drain cycle begins. -/
  | flush
  /-- Python pushes another command. -/
  | command (e : Entry)
  | start
  | stop (closed : List ℕ)
  | destroy
  | pop (v : MarkView)
  /-- picoquic makes a connection, ends it with `close` or `application_close`, or frees it. -/
  | create (cnx : ℕ)
  | terminal (cnx : ℕ)
  | free (cnx : ℕ)
  /-- `prepare_datagram` of a connection, and `provide_datagram` of a session. -/
  | prepare (cnx : ℕ)
  | provide (a : ℕ)

/-- The commands that have to do with rings or structs. -/
def RingCommand (e : Entry) : Prop :=
  e.eventType = .txMarkDatagramReady ∨ e.eventType = .txMarkWtDatagramReady ∨
    e.eventType = .txDgramRingRelease ∨ e.eventType = .txWtDeregister

instance (e : Entry) : Decidable (RingCommand e) := inferInstanceAs (Decidable (_ ∨ _))

/-- A send is refused on a closed connection or session, and before there is one. -/
def CanSend (s : DgramLife) (i : ℕ) : Prop := (s.makers i).closed = false ∧ s.address i ≠ 0

instance (s : DgramLife) (i : ℕ) : Decidable (s.CanSend i) := inferInstanceAs (Decidable (_ ∧ _))

/-- Whether a step can be taken. -/
def Enabled (s : DgramLife) : Act → Prop
  | .adopt i cnx => (s.makers i).kind = .raw ∧ cnx ≠ 0
  | .openSession i a =>
    s.makers i = {} ∧ s.rings.lookup i = none ∧ s.states.lookup i = none ∧ a ≠ 0 ∧ a ∉ s.structs
  | .send i _ | .drained i => s.CanSend i
  | .engineRelease i _ => (s.makers i).kind = .raw
  | .close _ _ | .gone _ | .flush => True
  | .command e => ¬ RingCommand e ∧ s.Room
  | .start => s.running = false
  | .stop closed => ∀ cnx ∈ closed, cnx ∈ s.cnxs
  | .destroy => s.running = false
  | .pop _ => s.running
  | .create cnx => s.running ∧ cnx ≠ 0 ∧ cnx ∉ s.cnxs
  | .terminal cnx | .free cnx | .prepare cnx => s.running ∧ cnx ∈ s.cnxs
  | .provide a => s.running ∧ a ∈ s.structs

instance (s : DgramLife) : ∀ a, Decidable (s.Enabled a)
  | .adopt _ _ | .openSession _ _ | .create _ | .command _ => inferInstanceAs (Decidable (_ ∧ _))
  | .send _ _ | .drained _ => inferInstanceAs (Decidable (CanSend _ _))
  | .engineRelease _ _ | .start | .destroy | .pop _ => inferInstanceAs (Decidable (_ = _))
  | .close _ _ | .gone _ | .flush => inferInstanceAs (Decidable True)
  | .stop _ => inferInstanceAs (Decidable (∀ _ ∈ _, _))
  | .terminal _ | .free _ | .prepare _ | .provide _ => inferInstanceAs (Decidable (_ ∧ _))

/-- The state after a step that can be taken. -/
def act (s : DgramLife) : Act → Option DgramLife
  | .adopt i cnx => some (s.setMaker i { s.makers i with cnxPtr := cnx })
  | .openSession i a =>
    some { s.setMaker i { kind := .webTransport } with
      states := s.states.insert i a
      structs := insert a s.structs }
  | .send i fits => some (s.sendDatagramFrame i fits)
  | .drained i => some (s.datagramTxDrained i)
  | .close i grows => some (s.makerClose i grows)
  | .engineRelease i grows => some (s.makerRelease i (s.makers i).cnxPtr grows)
  | .gone i => some (s.makerGone i)
  | .flush => some (if s.running then s.releaseFlush else s)
  | .command e => some (s.push e)
  | .start => some { s with running := true }
  | .stop closed => some (s.shutdown closed)
  | .destroy => some s.ctxDestroy
  | .pop v => s.pop v
  | .create cnx => some { s with cnxs := cnx :: s.cnxs }
  | .terminal cnx => some (s.tableRemove cnx)
  | .free cnx => some { s with cnxs := s.cnxs.erase cnx }
  | .prepare cnx =>
    match s.table.lookup cnx with
    | none => some s
    | some db => some (s.touch db)
  | .provide a =>
    match s.slots.lookup a with
    | none => some s
    | some db => some (s.touch db)

/-- One step; after `aiopquic_ctx_destroy` there is none. -/
def step (s : DgramLife) (a : Act) : Option DgramLife :=
  if s.destroyed = false ∧ s.Enabled a then s.act a else none

end DgramLife

end Aiopquic
