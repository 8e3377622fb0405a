import Aiopquic.AtomicSend
import Aiopquic.DatagramFifo
import Aiopquic.Lib.Atomic

/-!
# Lengths of `2 ^ 32` and more

The stream writes and the datagram sends narrow `len(data)` to `uint32_t` before they look at the
ring. A write is whole if it commits all of its data or fails with nothing committed. The results
here say for which lengths every write of some data is whole, whatever was written before it and
whatever the worker takes.
-/

namespace Aiopquic

open Interleave Interleave.Prog Circular

theorem SendSide.length_narrowed (data : List UInt8) :
    (narrowed data).length = data.length % 2 ^ 32 :=
  List.length_take_of_le (Nat.mod_le _ _)

/-! ## Streams -/

theorem SpscRing.exec_count {r : SpscRing} (hr : r.Wf) :
    SpscRing.count.exec r = (r.tail - r.head, r) := by
  simp only [SpscRing.count, exec_bind, exec_load, exec_pure, hr.diff32_eq]

/-- A push into a ring with room. -/
theorem SpscRing.exec_push {r : SpscRing} (hr : r.Wf) (hroom : r.tail - r.head < r.geo.capacity)
    (e : Entry)
    (data : List UInt8) : ((SpscRing.push e data).exec r).1 = 0 := by
  have hput := (wp_exec (SpscRing.put_spec (e := e.withData data) (k := data.length) hr) hr
    fun _ => trivial).1
  obtain ⟨hrc, -⟩ | ⟨-, -, hfull⟩ := hput
  · exact hrc
  · omega

namespace SendSide

variable {s : SendSide}

theorem exec_ringBusy (hs : s.ring.Wf) (hroom : s.ring.tail - s.ring.head < s.ring.geo.capacity) :
    ringBusy.exec s = (false, s) := by
  have hcount : (SpscRing.count.on ringLoc).exec s = (s.ring.tail - s.ring.head, s) := by
    rw [Prog.exec_on _ (fun _ _ _ => rfl) fun _ => rfl,
      SpscRing.exec_count (show (ringLoc.get s).Wf from hs)]
    rfl
  rw [ringBusy, exec_bind, hcount, exec_bind, exec_load, if_neg (Nat.not_le.2 hroom)]
  rfl

theorem exec_pushMark (hs : s.ring.Wf) (hroom : s.ring.tail - s.ring.head < s.ring.geo.capacity)
    (mark : Entry) :
    ((pushMark mark).exec s).1 = .sent := by
  rw [pushMark, exec_bind, Prog.exec_on ringLoc (fun _ _ _ => rfl) fun _ => rfl]
  exact congrArg (fun p => (Prog.exec p _).1) (if_pos (SpscRing.exec_push hs hroom mark []))

/-- A write alone that makes its ring and fits into it succeeds, if the event ring has room. -/
theorem exec_write {mark : Entry} {data : List UInt8} {capacity : UInt32} (hs : s.ring.Wf)
    (hroom : s.ring.tail - s.ring.head < s.ring.geo.capacity) (hnone : s.sc.tx = none)
    (hlen : (narrowed data).length ≤ ceilPow2U32 capacity) :
    ((write mark true data capacity false false).exec s).1 = .sent := by
  have hsend : ((sendData true (narrowed data) capacity false false).exec s.sc).1 = 1 := by
    have hwf : s.sc.TxWf := by
      rw [StreamCtx.TxWf, StreamCtx.txBuf, hnone]
      exact StreamBuf.create_wf 0 false
    rw [sendData, exec_bind, exec_load, if_neg (by simp)]
    exact (wp_exec (StreamCtx.sendData_accepts hnone hlen) hwf fun _ => trivial).1
  rw [write, exec_bind, exec_ringBusy hs hroom, if_neg Bool.false_ne_true, exec_bind,
    Prog.exec_on scLoc (fun _ _ _ => rfl) fun _ => rfl]
  dsimp only
  rw [show scLoc.get s = s.sc from rfl, if_neg (not_not.2 hsend), announce, exec_bind]
  refine exec_pushMark ?_ ?_ mark
  · unfold Prog.when
    split <;> exact hs
  · unfold Prog.when
    split <;> exact hroom

/-- A write commits all of its data, or fails and puts nothing out. -/
structure Whole (r : WriteCall) : Prop where
  sent : r.outcome = .sent → r.after = r.before.committed r.data r.endStream r.mark
  refused : r.outcome ≠ .sent → r.after = r.before

variable {t : TxSite} {geo : Geometry} {lowWaterPct : ℕ} {env : Option ℤ} {data : List UInt8}
    {capacity : UInt32}

/-- In every run of writes into rings of `capacity`, those of `data` are whole. -/
def WritesWhole (t : TxSite) (geo : Geometry) (lowWaterPct : ℕ) (env : Option ℤ) (data : List UInt8)
    (capacity : UInt32) : Prop :=
  ∀ c, Reachable (Menu t (· = capacity)) (init geo lowWaterPct env) c →
    ∀ r ∈ c.mem.calls, r.data = data → Whole r

theorem run_inv {allowed : UInt32 → Prop} {c : Config Thread SendSide}
    (hc : Reachable (Menu t allowed) (init geo lowWaterPct env) c) : Inv allowed c.mem :=
  ((outline t allowed).reachable (outline_sound t allowed) (init_inv geo lowWaterPct env)
    (init_idle geo lowWaterPct env) hc).1

/-- Data whose length needs no narrowing, or is still too large for the ring after it. -/
theorem writesWhole (h : data.length < 2 ^ 32 ∨ ceilPow2U32 capacity < data.length % 2 ^ 32) :
    WritesWhole t geo lowWaterPct env data capacity := by
  rintro c hc r hr rfl
  have hinv := run_inv hc
  refine ⟨fun ho => ?_, (hinv.calls r hr).1.refused⟩
  rw [(hinv.calls r hr).1.sent ho]
  rcases h with hlt | hlarge
  · rw [narrowed_eq hlt]
  · obtain ⟨_, rfl, hfits⟩ := hinv.fits r hr ho
    rw [length_narrowed] at hfits
    omega

/-- Any other is committed in part by the first write of a stream, which succeeds. -/
theorem not_writesWhole (hlen : 2 ^ 32 ≤ data.length)
    (hfits : data.length % 2 ^ 32 ≤ ceilPow2U32 capacity) :
    ¬ WritesWhole t geo lowWaterPct env data capacity := by
  intro hwhole
  let write₁ := write (TxSide.markActive t t.ptr) true data capacity false false
  have hinit : Inv (· = capacity) (init geo lowWaterPct env) := init_inv geo lowWaterPct env
  generalize hs : init geo lowWaterPct env = s at hinit
  have hsent : (write₁.exec s).1 = .sent := by
    subst hs
    exact exec_write (SpscRing.create_wf geo) geo.capacity_pos rfl (length_narrowed data ▸ hfits)
  have hspec : wp ((outline t (· = capacity)).contract .asyncio) write₁ _ s :=
    write_spec hinit rfl rfl
  obtain ⟨-, ⟨-, -, hst⟩ | ⟨hne, -⟩⟩ := (wp_exec hspec hinit fun _ => trivial).1
  swap
  · exact hne hsent
  have hstart : Reachable (Menu t (· = capacity)) s (Config.start s) := .refl
  have hc := hstart.exec (i := .asyncio) rfl (.txSendAtomic s true data capacity false false rfl)
  rw [writeCall, exec_bind, exec_load, exec_bind, exec_modify] at hc
  let r : WriteCall :=
    ⟨TxSide.markActive t t.ptr, data, false, (write₁.exec s).1, s.standing,
      (write₁.exec s).2.standing⟩
  have hr : Whole r := by
    subst hs
    exact hwhole _ hc r (List.mem_append_right _ (List.mem_singleton.2 rfl)) rfl
  have hbytes : s.standing.bytes ++ narrowed data = s.standing.bytes ++ data :=
    congrArg Standing.bytes (hst.symm.trans (hr.sent hsent))
  have := congrArg List.length (List.append_cancel_left hbytes)
  rw [length_narrowed] at this
  omega

/-- Every write of `data` is whole exactly if its length needs no narrowing, or is too large for the
ring after it. -/
theorem writesWhole_iff : WritesWhole t geo lowWaterPct env data capacity ↔
    data.length < 2 ^ 32 ∨ ceilPow2U32 capacity < data.length % 2 ^ 32 := by
  refine ⟨fun h => ?_, writesWhole⟩
  by_contra hno
  rw [not_or, not_lt, not_lt] at hno
  exact not_writesWhole hno.1 hno.2 h

end SendSide

/-! ## Datagrams -/

/-- How a `send_datagram_frame` ends: it returns `len(data)`, returns `0`, or raises a `ValueError`
for an empty payload or one that is too large. -/
inductive FrameOutcome
  | sent
  | full
  | empty
  | tooLarge
  deriving DecidableEq, Repr

/-- One finished `send_datagram_frame`, with the records and the tail before and after it. -/
structure FrameCall where
  data : List UInt8
  outcome : FrameOutcome
  before : List (List UInt8) × ℕ
  after : List (List UInt8) × ℕ

/-- The record ring of a connection or a session, and the calls made on it. -/
structure FrameRun where
  db : DgramBuf
  calls : List FrameCall

namespace FrameRun

open DgramBuf SendSide

/-- The ring inside the run. -/
def dbLoc : Loc FrameRun DgramBuf where
  get := (·.db)
  set := fun db s => { s with db := db }
  get_set := fun _ _ => rfl

/-- `TransportContext.dgram_send`; `posted` says whether its mark finds room in the TX event
ring. -/
def dgramSend (data : List UInt8) (posted : Bool) : Prog DgramBuf ℤ := do
  let rc ← pushRecord (narrowed data)
  if rc = 0 then pure 0
  else if rc < 0 then pure (-1)
  else if posted then pure 1
  else pure 2

/-- The conversion `<int>n` of a `uint32_t`. -/
def asInt (n : ℕ) : ℤ := if n < 2 ^ 31 then n else n - 2 ^ 32

/-- `TransportContext.dgram_push`. -/
def dgramPush (data : List UInt8) : Prog DgramBuf ℤ := do
  let rc ← pushRecord (narrowed data)
  if rc = 0 then pure 0
  else if rc < 0 then pure (-1)
  else pure (asInt (data.length % 2 ^ 32))

/-- `QuicConnection.send_datagram_frame`. -/
def sendDatagramFrame (data : List UInt8) (posted : Bool) : Prog DgramBuf FrameOutcome := do
  if data = [] then pure .empty
  else do
    let rc ← dgramSend data posted
    pure (if rc = -1 then .tooLarge else if rc = 0 then .full else .sent)

/-- `WebTransportSession.send_datagram_frame`. -/
def wtSendDatagramFrame (data : List UInt8) : Prog DgramBuf FrameOutcome := do
  if data = [] then pure .empty
  else do
    let rc ← dgramPush data
    pure (if rc = 0 then .full else if rc < 0 then .tooLarge else .sent)

def snapshot (b : DgramBuf) : List (List UInt8) × ℕ := (b.records, b.tail)

/-- One send, recorded. -/
def frameCall (data : List UInt8) (body : Prog DgramBuf FrameOutcome) : Prog FrameRun Unit := do
  let before ← load fun s => snapshot s.db
  let outcome ← body.on dbLoc
  modify fun s => { s with calls := s.calls ++ [⟨data, outcome, before, snapshot s.db⟩] }

/-- The worker looks at the head record and takes it if it likes. -/
def takeRecord (take : Bool) : Prog DgramBuf Unit := do
  let n ← peekLen
  if n = 0 ∨ take = false then pure ()
  else do
    let _ ← popInto n
    pure ()

/-- The length of the record, header included, fits `uint32_t`. -/
def Counts (frame : List UInt8) : Prop := dgramRecHdr + frame.length % 2 ^ 32 < 2 ^ 32

/-- What each thread may call. Besides `data` it sends frames whose records can be counted. -/
inductive Menu (data : List UInt8) : Thread → FrameRun → Prog FrameRun Unit → Prop
  | raw (s : FrameRun) (frame : List UInt8) (posted : Bool) (h : frame = data ∨ Counts frame) :
      Menu data .asyncio s (frameCall frame (sendDatagramFrame frame posted))
  | wt (s : FrameRun) (frame : List UInt8) (h : frame = data ∨ Counts frame) :
      Menu data .asyncio s (frameCall frame (wtSendDatagramFrame frame))
  | take (s : FrameRun) (take : Bool) : Menu data .worker s ((takeRecord take).on dbLoc)

/-- A send adds its frame as one record that the ring holds, or fails and adds nothing. -/
structure Whole (capacity : ℕ) (r : FrameCall) : Prop where
  sent : r.outcome = .sent → dgramRecHdr + r.data.length ≤ capacity ∧
    r.after = (r.before.1 ++ [r.data], r.before.2 + dgramRecHdr + r.data.length)
  refused : r.outcome ≠ .sent → r.after = r.before

/-- In every run of sends on the ring `db`, those of `data` are whole. -/
def FramesWhole (db : DgramBuf) (data : List UInt8) : Prop :=
  ∀ c, Reachable (Menu data) ⟨db, []⟩ c → ∀ r ∈ c.mem.calls, r.data = data → Whole db.geo.capacity r

/-- The narrowed length is beyond the limit, or the record can be counted and either nothing was
lost or it is too large for the ring. -/
def Safe (capacity maxRecord : ℕ) (data : List UInt8) : Prop :=
  maxRecord < data.length % 2 ^ 32 ∨
    Counts data ∧ (data.length < 2 ^ 32 ∨ capacity < dgramRecHdr + data.length % 2 ^ 32)

instance (capacity maxRecord : ℕ) (data : List UInt8) :
    Decidable (Safe capacity maxRecord data) := by
  unfold Safe Counts
  infer_instance

variable {s u v : FrameRun} {b c : DgramBuf} {data frame : List UInt8} {capacity maxRecord : ℕ}

/-! ### The proof outline -/

/-- What holds between any two steps. -/
structure Inv (capacity maxRecord : ℕ) (data : List UInt8) (s : FrameRun) : Prop where
  db : s.db.Wf
  size : s.db.geo.capacity = capacity
  limit : s.db.maxRecord = maxRecord
  calls : ∀ r ∈ s.calls, r.data = data → Whole capacity r

/-- A step of the worker. -/
structure WorkerMoves (s t : FrameRun) : Prop where
  db : ConsumerMoves s.db t.db
  calls : t.calls = s.calls

/-- A step of the asyncio thread. -/
def AsyncioMoves (s t : FrameRun) : Prop := ProducerMoves s.db t.db

theorem WorkerMoves.refl (s : FrameRun) : WorkerMoves s s := ⟨.refl _, rfl⟩

theorem WorkerMoves.trans (h : WorkerMoves s u) (h' : WorkerMoves u v) : WorkerMoves s v :=
  ⟨h.db.trans h'.db, h'.calls.trans h.calls⟩

/-- The rely–guarantee outline. -/
def outline (capacity maxRecord : ℕ) (data : List UInt8) : Outline (Menu data) :=
  duo (Inv capacity maxRecord data) WorkerMoves AsyncioMoves (fun _ => True) (fun _ => True)
    .refl .trans
    (fun s => ProducerMoves.refl s.db) (fun h h' => ProducerMoves.trans h h') (fun _ _ _ => trivial)
    (fun _ _ _ => trivial)

theorem embeds_asyncio (calls : List FrameCall) :
    Embeds ((outline capacity maxRecord data).contract .asyncio) dbLoc producer
    (·.calls = calls) where
  inv := fun s hs => hs.db
  rely := fun s t hst hm _ => ⟨hm.db, hm.calls.trans hst⟩
  step := by
    intro s db hs hst hg hdb
    refine ⟨hg, ⟨hdb, ?_, ?_, hs.calls⟩, hst⟩
    · exact (congrArg Geometry.capacity (ProducerMoves.geo hg)).trans hs.size
    · exact (ProducerMoves.maxRecord hg).trans hs.limit

theorem embeds_worker :
    Embeds ((outline capacity maxRecord data).contract .worker) dbLoc consumer (fun _ => True) where
  inv := fun s hs => hs.db
  rely := fun s t _ hm _ => ⟨hm, trivial⟩
  step := by
    intro s db hs _ hg hdb
    refine ⟨⟨hg, rfl⟩, ⟨hdb, ?_, ?_, hs.calls⟩, trivial⟩
    · exact (congrArg Geometry.capacity (ConsumerMoves.geo hg)).trans hs.size
    · exact (ConsumerMoves.maxRecord hg).trans hs.limit

/-- What a push of a narrowed frame leaves, and its result. -/
def Pushed (b : DgramBuf) (frame : List UInt8) (rc : ℤ) (c : DgramBuf) : Prop :=
  rc = 1 ∧ c.records = b.records ++ [narrowed frame] ∧ frame.length % 2 ^ 32 ≤ b.maxRecord ∧
      dgramRecHdr + frame.length % 2 ^ 32 ≤ c.geo.capacity ∨
    (rc = 0 ∨ rc = -1) ∧ c.records = b.records

/-- Pushing what is left of a frame whose record can be counted. -/
theorem pushNarrowed_spec (hb : b.Wf) (h : b.maxRecord < frame.length % 2 ^ 32 ∨ Counts frame) :
    wp producer (pushRecord (narrowed frame)) (Pushed b frame) b := by
  have hlen : (narrowed frame).length ≤ b.maxRecord → dgramRecHdr + (narrowed frame).length <
    2 ^ 32 := by
    rw [length_narrowed]
    exact fun hle => h.resolve_left (not_lt.2 hle)
  refine wp_mono (pushRecord_spec hlen) hb fun rc c hc hpost => ?_
  rw [length_narrowed] at hpost
  obtain ⟨hrc, hrecords, hle⟩ | ⟨hm, hwhy⟩ := hpost
  · refine .inl ⟨hrc, hrecords, hle, ?_⟩
    have hsized := hc.sized (narrowed frame)
      (hrecords ▸ List.mem_append_right _ (List.mem_singleton.2 rfl))
    rwa [length_narrowed] at hsized
  · exact .inr ⟨hwhy.imp And.left And.left, hm.records⟩

/-- What a send of a safe frame leaves: the frame as a record that the ring holds, or nothing
new. -/
def Sends (b : DgramBuf) (frame : List UInt8) (o : FrameOutcome) (c : DgramBuf) : Prop :=
  o = .sent ∧ c.records = b.records ++ [frame] ∧ dgramRecHdr + frame.length ≤ c.geo.capacity ∨
    o ≠ .sent ∧ c.records = b.records

/-- A safe frame that was pushed lost nothing. -/
theorem Pushed.safe {rc : ℤ} (h : Pushed b frame rc c) (hgeo : c.geo.capacity = capacity)
    (hsafe : Safe capacity b.maxRecord frame) :
    rc = 1 ∧ c.records = b.records ++ [frame] ∧ dgramRecHdr + frame.length ≤ capacity ∨
      (rc = 0 ∨ rc = -1) ∧ c.records = b.records := by
  refine h.imp_left fun ⟨hrc, hrecords, hmax, hfits⟩ => ⟨hrc, ?_⟩
  rw [hgeo] at hfits
  have hlt : frame.length < 2 ^ 32 := by
    rcases hsafe with hlarge | ⟨-, hlt | hfull⟩
    · omega
    · exact hlt
    · omega
  rw [narrowed_eq hlt] at hrecords
  rw [Nat.mod_eq_of_lt hlt] at hfits
  exact ⟨hrecords, hfits⟩

theorem asInt_pos {n : ℕ} (hpos : 0 < n) (h : n < 2 ^ 31) : 0 < asInt n := by
  rw [asInt, if_pos h]
  exact_mod_cast hpos

theorem Pushed.code {rc : ℤ} (h : Pushed b frame rc c) : rc = 1 ∨ rc = 0 ∨ rc = -1 :=
  h.imp And.left And.left

theorem dgramSend_spec {posted : Bool} (hb : b.Wf)
    (h : b.maxRecord < frame.length % 2 ^ 32 ∨ Counts frame) :
    wp producer (dgramSend frame posted)
      (fun rc c => ∃ pushed, Pushed b frame pushed c ∧
        rc = if pushed = 1 then (if posted then 1 else 2) else pushed) b := by
  unfold dgramSend
  refine wp_seq (pushNarrowed_spec hb h) hb fun pushed c _ hpushed => ?_
  obtain rfl | rfl | rfl := hpushed.code
  · cases posted <;> exact ⟨1, hpushed, rfl⟩
  · exact ⟨0, hpushed, rfl⟩
  · exact ⟨-1, hpushed, rfl⟩

theorem dgramPush_spec (hb : b.Wf) (h : b.maxRecord < frame.length % 2 ^ 32 ∨ Counts frame) :
    wp producer (dgramPush frame)
      (fun rc c => ∃ pushed, Pushed b frame pushed c ∧
        rc = if pushed = 1 then asInt (frame.length % 2 ^ 32) else pushed) b := by
  unfold dgramPush
  refine wp_seq (pushNarrowed_spec hb h) hb fun pushed c _ hpushed => ?_
  obtain rfl | rfl | rfl := hpushed.code
  · exact ⟨1, hpushed, rfl⟩
  · exact ⟨0, hpushed, rfl⟩
  · exact ⟨-1, hpushed, rfl⟩

/-- The send of a connection. -/
theorem sendDatagramFrame_spec {posted : Bool} (hb : b.Wf)
    (h : b.maxRecord < frame.length % 2 ^ 32 ∨ Counts frame) :
    wp producer (sendDatagramFrame frame posted)
      (fun o c => Safe c.geo.capacity b.maxRecord frame → Sends b frame o c) b := by
  unfold sendDatagramFrame
  split
  · exact fun _ => .inr ⟨nofun, rfl⟩
  refine wp_seq (dgramSend_spec hb h) hb fun rc c _ hpost hsafe => ?_
  obtain ⟨pushed, hpushed, rfl⟩ := hpost
  obtain ⟨rfl, hadded⟩ | ⟨rfl | rfl, hsame⟩ := hpushed.safe rfl hsafe
  · cases posted <;> exact .inl ⟨rfl, hadded⟩
  · exact .inr ⟨nofun, hsame⟩
  · exact .inr ⟨nofun, hsame⟩

/-- The send of a session. The length that it reads back is positive. -/
theorem wtSendDatagramFrame_spec (hb : b.Wf)
    (h : b.maxRecord < frame.length % 2 ^ 32 ∨ Counts frame) :
    wp producer (wtSendDatagramFrame frame)
      (fun o c => Safe c.geo.capacity b.maxRecord frame → Sends b frame o c) b := by
  unfold wtSendDatagramFrame
  split
  · exact fun _ => .inr ⟨(by simp), rfl⟩
  rename_i hne
  refine wp_seq (dgramPush_spec hb h) hb fun rc c _ hpost hsafe => ?_
  obtain ⟨pushed, hpushed, rfl⟩ := hpost
  obtain ⟨rfl, hadded⟩ | ⟨rfl | rfl, hsame⟩ := hpushed.safe rfl hsafe
  · have hle := c.geo.capacity_le
    have hpos := List.length_pos_iff.2 hne
    have hfits := hadded.2
    simp only [dgramRecHdr] at hfits
    have hlen : 0 < asInt (frame.length % 2 ^ 32) := by
      rw [Nat.mod_eq_of_lt (by omega)]
      exact asInt_pos hpos (by omega)
    refine .inl ⟨?_, hadded⟩
    rw [if_pos rfl, if_neg hlen.ne', if_neg hlen.le.not_gt]
  · exact .inr ⟨(by simp), hsame⟩
  · exact .inr ⟨(by simp), hsame⟩

/-- The records decide the tail. -/
theorem snapshot_eq (hb : b.Wf) :
    snapshot b = (b.records, (b.records.flatMap recBytes).length) := by
  rw [snapshot, ← hb.length]
  rfl

/-- A recorded send keeps the outline, if a send of `data` is safe. -/
theorem frameCall_spec {body : Prog DgramBuf FrameOutcome}
    (hsafe : frame = data → Safe capacity maxRecord frame)
    (hbody : ∀ b : DgramBuf, b.Wf → b.maxRecord = maxRecord →
      wp producer body (fun o c => Safe c.geo.capacity b.maxRecord frame → Sends b frame o c) b) :
    wp ((outline capacity maxRecord data).contract .asyncio) (frameCall frame body)
    (fun _ _ => True) s := by
  unfold frameCall
  refine wp_load_bind fun t _ ht => ?_
  refine wp_seq (wp_on (embeds_asyncio t.calls) rfl (hbody t.db ht.db ht.limit)) ht
    fun o u hu h => ?_
  obtain ⟨hpost, hcalls⟩ := h
  refine wp_modify fun v huv hv =>
    ⟨ProducerMoves.refl v.db, ⟨hv.db, hv.size, hv.limit, fun r hr hdata => ?_⟩,
    trivial⟩
  rcases List.mem_append.1 hr with hr | hr
  · exact hv.calls r hr hdata
  obtain rfl := List.mem_singleton.1 hr
  have hrecords : v.db.records = u.db.records := huv.db.records
  have hsends : Sends t.db frame o u.db := hpost (by
    rw [show (dbLoc.get u).geo.capacity = capacity from hu.size, show t.db.maxRecord =
      maxRecord from ht.limit]
    exact hsafe hdata)
  obtain ⟨ho, hadded, hfits⟩ | ⟨ho, hsame⟩ := hsends
  · refine ⟨fun _ => ⟨hu.size ▸ hfits, ?_⟩, fun hne => absurd ho hne⟩
    rw [snapshot_eq hv.db, snapshot_eq ht.db, hrecords.trans hadded]
    simp [Nat.add_assoc]
  · refine ⟨fun hsent => absurd hsent ho, fun _ => ?_⟩
    rw [snapshot_eq hv.db, snapshot_eq ht.db, hrecords.trans hsame]

/-- So does a step of the worker. -/
theorem takeRecord_spec {take : Bool} (hb : b.Wf) :
    wp consumer (takeRecord take) (fun _ _ => True) b := by
  unfold takeRecord
  refine wp_seq (peekLen_spec hb) hb fun n c hc h => ?_
  split
  · trivial
  rename_i htake
  obtain ⟨hm, ⟨rfl, -⟩ | ⟨r, hr, rfl⟩⟩ := h
  · exact absurd (.inl rfl) htake
  · rw [← hm.taken] at hr
    exact wp_seq (popInto_spec hr) hc fun _ _ _ _ => trivial

theorem outline_sound (hsafe : Safe capacity maxRecord data) :
    (outline capacity maxRecord data).Sound := by
  -- a frame on the menu is `data`, which is safe, or can be counted
  have hframe : ∀ {frame}, frame = data ∨ Counts frame →
      (maxRecord < frame.length % 2 ^ 32 ∨ Counts frame) ∧
        (frame = data → Safe capacity maxRecord frame) := by
    rintro frame (rfl | hcounts)
    · exact ⟨hsafe.imp_right And.left, fun _ => hsafe⟩
    · exact ⟨.inr hcounts, fun h => h ▸ hsafe⟩
  rintro i s p hs - hp
  cases hp with
  | raw _ frame posted h =>
    exact frameCall_spec (hframe h).2 fun b hb hmax => sendDatagramFrame_spec hb
      (hmax ▸ (hframe h).1)
  | wt _ frame h =>
    exact frameCall_spec (hframe h).2 fun b hb hmax => wtSendDatagramFrame_spec hb
      (hmax ▸ (hframe h).1)
  | take _ take =>
    exact wp_mono (wp_on embeds_worker trivial (takeRecord_spec hs.db)) hs
      fun _ _ _ _ => trivial

/-! ### The condition -/

variable {capacity₀ maxRecord₀ : UInt32} {db : DgramBuf}

theorem framesWhole (hdb : Fresh capacity₀ maxRecord₀ db)
    (hsafe : Safe (dgramCapacity capacity₀ maxRecord₀) maxRecord₀.toNat data) :
    FramesWhole db data := by
  intro c hc r hr hdata
  have hinit : Inv (dgramCapacity capacity₀ maxRecord₀) maxRecord₀.toNat data ⟨db, []⟩ :=
    ⟨hdb.wf, hdb.capacity, hdb.maxRecord, nofun⟩
  have hidle : ∀ i, (outline (dgramCapacity capacity₀ maxRecord₀) maxRecord₀.toNat data).idle i
    ⟨db, []⟩ := by
    intro i
    cases i <;> trivial
  have hinv : Inv _ _ data c.mem :=
    ((outline _ _ data).reachable (outline_sound hsafe) hinit hidle hc).1
  rw [hdb.capacity]
  exact hinv.calls r hr hdata

/-- The first record of a fresh ring goes in if it is within the limit and either fits or cannot be
counted. -/
theorem exec_pushRecord (hdb : Fresh capacity₀ maxRecord₀ db)
    (hmax : frame.length ≤ maxRecord₀.toNat)
    (hfits : dgramRecHdr + frame.length ≤ dgramCapacity capacity₀ maxRecord₀ ∨ 2 ^ 32 ≤
    dgramRecHdr + frame.length) :
    ((pushRecord frame).exec db).1 = 1 := by
  have hlt := maxRecord₀.toNat_lt
  have htail : db.tail = 0 := by
    rw [← hdb.wf.length, bytes, hdb.records]
    rfl
  have hneed : recNeed frame.length ≤ db.geo.capacity := by
    have hle := min_le_dgramCapacity capacity₀ maxRecord₀
    have hcap := db.geo.capacity_lt
    rw [hdb.capacity] at hcap ⊢
    rw [recNeed]
    simp only [dgramRecHdr] at hle hfits ⊢
    omega
  have hfree : sub32 db.geo.capacity (diff32 db.tail db.head) = db.geo.capacity := by
    rw [hdb.wf.sub32_diff32 rfl rfl, htail, Nat.zero_sub, Nat.sub_zero]
  have hroom : (recRoom db.geo db.tail frame.length).exec db = (true, db) := by
    rw [recRoom, exec_bind, exec_load, if_pos (hfree.symm ▸ hneed)]
    rfl
  rw [pushRecord, exec_bind, exec_load, if_neg (not_lt.2 (hdb.maxRecord.symm ▸ hmax)),
    exec_bind, exec_load,
    exec_bind, hroom, if_pos rfl, exec_bind]
  rfl

/-- What is left of a frame that is not safe goes into the fresh ring, and the frame is reported as
sent. -/
theorem not_framesWhole (hdb : Fresh capacity₀ maxRecord₀ db)
    (hsafe : ¬ Safe (dgramCapacity capacity₀ maxRecord₀) maxRecord₀.toNat data) :
    ¬ FramesWhole db data := by
  intro hwhole
  have hmod := Nat.mod_le data.length (2 ^ 32)
  have hcap := db.geo.capacity_lt
  rw [hdb.capacity] at hcap
  rw [Safe, Counts] at hsafe
  simp only [dgramRecHdr] at hsafe
  have hne : data ≠ [] := by
    rintro rfl
    simp at hsafe
  have hpush : ((pushRecord (narrowed data)).exec db).1 = 1 := by
    refine exec_pushRecord hdb ?_ ?_
    · rw [length_narrowed]
      omega
    · rw [length_narrowed]
      simp only [dgramRecHdr]
      omega
  have hsent : ((sendDatagramFrame data true).exec db).1 = .sent := by
    rw [sendDatagramFrame, if_neg hne, dgramSend, exec_bind, exec_bind, hpush]
    rfl
  have hstart : Reachable (Menu data) ⟨db, []⟩ (Config.start ⟨db, []⟩) := .refl
  have hc := hstart.exec (i := .asyncio) rfl (.raw _ data true (.inl rfl))
  rw [frameCall, exec_bind, exec_load, exec_bind, exec_modify,
    exec_on dbLoc (fun _ _ _ => rfl) fun _ => rfl] at hc
  let r : FrameCall := ⟨data, ((sendDatagramFrame data true).exec db).1, snapshot db,
    snapshot ((sendDatagramFrame data true).exec db).2⟩
  have hr : Whole db.geo.capacity r :=
    hwhole _ hc r (List.mem_append_right _ (List.mem_singleton.2 rfl)) rfl
  have hfits : dgramRecHdr + data.length ≤ db.geo.capacity := (hr.sent hsent).1
  rw [hdb.capacity] at hfits
  simp only [dgramRecHdr] at hfits
  omega

/-- Every send of `data` is whole exactly if it is safe. -/
theorem framesWhole_iff (hcreate : create capacity₀ maxRecord₀ = some db) : FramesWhole db data ↔
    Safe (dgramCapacity capacity₀ maxRecord₀) maxRecord₀.toNat data := by
  have hfresh := create_fresh hcreate
  refine ⟨fun h => ?_, framesWhole hfresh⟩
  by_contra hsafe
  exact not_framesWhole hfresh hsafe h

end FrameRun

/-! ## The condition on a length -/

/-- The writes and the sends of some data are whole in every run exactly if narrowing its length
loses nothing, or what is left is refused all the same. -/
theorem writes_whole_iff (t : TxSite) (geo : Geometry) (lowWaterPct : ℕ) (env : Option ℤ)
    (data : List UInt8)
    (capacity : UInt32) {ringBytes maxRecord : UInt32} {db : DgramBuf}
    (hcreate : DgramBuf.create ringBytes maxRecord = some db) :
    (SendSide.WritesWhole t geo lowWaterPct env data capacity ↔
      data.length < 2 ^ 32 ∨ ceilPow2U32 capacity < data.length % 2 ^ 32) ∧
    (FrameRun.FramesWhole db data ↔ FrameRun.Safe (dgramCapacity ringBytes maxRecord)
    maxRecord.toNat data) :=
  ⟨SendSide.writesWhole_iff, FrameRun.framesWhole_iff hcreate⟩

theorem writes_whole_iff_smallRing : FrameRun.FramesWhole RecordRun.smallRing [1, 2, 3] :=
  (writes_whole_iff ⟨1, 4, 9⟩ (.ofExp 4 (by decide)) 50 none [1, 2, 3] 64
    (show DgramBuf.create 1 3 = some RecordRun.smallRing from rfl)).2.2 (by decide)

/-- A write of `2 ^ 32 + 1` bytes, as a stream write and as a datagram. -/
theorem long_write_not_whole :
    ¬ SendSide.WritesWhole ⟨1, 4, 9⟩ (.ofExp 4 (by decide)) 50 none (List.replicate (2 ^ 32 + 1) 0)
    64 ∧
    ¬ FrameRun.FramesWhole RecordRun.smallRing (List.replicate (2 ^ 32 + 1) 0) := by
  have hlen : (List.replicate (2 ^ 32 + 1) (0 : UInt8)).length = 2 ^ 32 + 1 := List.length_replicate
  generalize List.replicate (2 ^ 32 + 1) (0 : UInt8) = data at hlen
  have hmod : data.length % 2 ^ 32 = 1 := by omega
  refine ⟨SendSide.not_writesWhole (by omega) ?_, ?_⟩
  · rw [hmod]
    decide
  · refine FrameRun.not_framesWhole
      (DgramBuf.create_fresh (show DgramBuf.create 1 3 = some _ from rfl)) ?_
    rw [FrameRun.Safe, FrameRun.Counts, hmod, hlen]
    decide

end Aiopquic
