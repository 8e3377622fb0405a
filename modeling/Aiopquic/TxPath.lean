import Aiopquic.RxWake
import Aiopquic.StreamCtx
import Aiopquic.Threads

/-!
# The TX byte path of a stream

The asyncio thread writes with `aiopquic_stream_ctx_send_data`; the worker pulls when picoquic asks
for bytes, in the `prepare_to_send` branch of `aiopquic_stream_cb` and in the `provide_data` branch
of `aiopquic_wt_path_callback`. A `Frame` is what one such callback hands to picoquic.

Written bytes come out in order, none twice and none lost, and FIN comes out with the last of them:
the pull reads the FIN flag before the tail, so a FIN it saw was set after every byte it can still
find.
-/

namespace Aiopquic

open Interleave Interleave.Prog Circular

/-- What a pull hands to picoquic: the filled buffer and the `is_fin` argument. -/
structure Frame where
  bytes : List UInt8
  isFin : Bool
  deriving DecidableEq, Repr

/-- The bytes of a sequence of frames. -/
def handedBytes (frames : List Frame) : List UInt8 := frames.flatMap (·.bytes)

/-- A stream's TX side: its context, the RX event queue its drain signals go to, the frames handed
to picoquic, and the record of the calls: `sent` lists the writes that returned `1`, `ended` says
that one of them ended the stream, `current` is the data of a call under way. -/
structure TxStream where
  sc : StreamCtx
  rx : WakeCtx
  frames : List Frame
  sent : List (List UInt8)
  ended : Bool
  current : Option (List UInt8)

namespace TxStream

/-- A stream nothing was written to, with an RX event ring of the given geometry. -/
def init (geo : Geometry) : TxStream := ⟨{}, .create geo, [], [], false, none⟩

/-- The stream's context. -/
def scLoc : Loc TxStream StreamCtx where
  get := (·.sc)
  set := fun sc s => { s with sc := sc }
  get_set := fun _ _ => rfl

/-- The RX event queue. -/
def rxLoc : Loc TxStream WakeCtx where
  get := (·.rx)
  set := fun rx s => { s with rx := rx }
  get_set := fun _ _ => rfl

/-- The TX ring. -/
def txLoc : Loc TxStream StreamBuf := scLoc.comp StreamCtx.txLoc

/-! ## The pull -/

/-- `picoquic_provide_stream_data_buffer` and the bytes that fill its buffer. -/
def hand (s : TxStream) (frame : Frame) : TxStream := { s with frames := s.frames ++ [frame] }

/-- The drain signal of a pull that took the flag; an event that could not be queued re-arms it. -/
def signalDrained (event : Entry) : Prog TxStream Unit := do
  let rc ← (WakeCtx.rxPush event []).on rxLoc
  when (rc ≠ 0) <| modify fun s => { s with sc := { s.sc with txDrainPending := true } }

/-- The body of both pull callbacks; `event` is the drain signal. Returns `is_still_active`. -/
def pull (event : Entry) (length : ℕ) : Prog TxStream Bool := do
  let tx ← load (·.sc.tx)
  if tx.isNone then do
    modify (·.hand ⟨[], false⟩)
    pure false
  else do
    let want := length % 2 ^ 32
    let finAfter ← StreamBuf.finPendingLoad.on txLoc
    let avail ← StreamBuf.used.on txLoc
    let sendable ← (StreamCtx.txSendable avail).on scLoc
    let toSend := min sendable want
    let reset ← load (·.sc.txResetPending)
    let isFin := finAfter && !reset && toSend == avail
    let out ← (if 0 < toSend then (StreamBuf.pop toSend).on txLoc else pure [])
    modify (·.hand ⟨StreamBuf.fillBuffer toSend out, isFin⟩)
    let taken ← StreamCtx.txDrainTake.on scLoc
    when taken <| signalDrained event
    pure (decide (toSend < sendable))

/-- The `prepare_to_send` branch of `aiopquic_stream_cb`. -/
def prepareToSend (streamId cnx length : ℕ) : Prog TxStream Bool :=
  pull { eventType := .streamTxDrained, streamId := streamId, cnx := cnx } length

/-- The `provide_data` branch of `aiopquic_wt_path_callback`: the drain signal names the session. -/
def provideData (streamId cnx session length : ℕ) : Prog TxStream Bool :=
  pull { eventType := .streamTxDrained, streamId := streamId, cnx := cnx, streamCtx := session }
    length

/-! ## Calls -/

/-- Recording the return of a write. -/
def record (data : List UInt8) (setFin : Bool) (rc : ℤ) (s : TxStream) : TxStream :=
  if rc = 1 then
    { s with sent := s.sent ++ StreamCtx.chunk data, ended := s.ended || setFin, current := none }
  else { s with current := none }

/-- `aiopquic_stream_ctx_send_data`, recorded. -/
def sendData (data : List UInt8) (capacity : UInt32) (setFin hash : Bool) : Prog TxStream ℤ := do
  modify fun s => { s with current := some data }
  let rc ← (StreamCtx.sendData data capacity setFin hash).on scLoc
  modify (record data setFin rc)
  pure rc

/-- One call of it. -/
def sendCall (data : List UInt8) (capacity : UInt32) (setFin hash : Bool) : Prog TxStream Unit := do
  let _ ← sendData data capacity setFin hash
  pure ()

/-- One `prepare_to_send` callback. -/
def prepareToSendCall (streamId cnx length : ℕ) : Prog TxStream Unit := do
  let _ ← prepareToSend streamId cnx length
  pure ()

/-- One `provide_data` callback. -/
def provideDataCall (streamId cnx session length : ℕ) : Prog TxStream Unit := do
  let _ ← provideData streamId cnx session length
  pure ()

/-- Writes of fewer than `2 ^ 32` bytes, none after one that ended the stream, and pulls. -/
inductive Menu : Thread → TxStream → Prog TxStream Unit → Prop
  | send (s : TxStream) (data : List UInt8) (capacity : UInt32) (setFin hash : Bool)
      (hlen : data.length < 2 ^ 32) (hended : s.ended = false) :
      Menu .asyncio s (sendCall data capacity setFin hash)
  | prepareToSend (s : TxStream) (streamId cnx length : ℕ) :
      Menu .worker s (prepareToSendCall streamId cnx length)
  | provideData (s : TxStream) (streamId cnx session length : ℕ) :
      Menu .worker s (provideDataCall streamId cnx session length)

/-! ## The proof outline -/

/-- The bytes handed so far. -/
def handed (s : TxStream) : List UInt8 := handedBytes s.frames

/-- A frame with `is_fin` has been handed. -/
def FinHanded (s : TxStream) : Prop := ∃ f ∈ s.frames, f.isFin = true

/-- No byte follows a frame with `is_fin`. -/
def FinLast (frames : List Frame) : Prop :=
  ∀ before f after, frames = before ++ f :: after → f.isFin = true → handedBytes after = []

/-- What holds between any two steps. -/
structure Inv (s : TxStream) : Prop where
  wf : s.sc.TxWf
  noReset : s.sc.txResetPending = false
  handed : s.handed <+: s.sc.txBytes
  handed_le : s.handed.length ≤ s.sc.txBuf.head
  fin : s.FinHanded → s.sc.txBuf.finPending = true ∧ s.handed = s.sc.txBytes
  finLast : FinLast s.frames
  calls : s.sc.txWrites = s.sent ∨ ∃ d, s.current = some d ∧ s.sc.txWrites = s.sent ++ [d]
  ended : s.ended = true → s.sc.txBuf.finPending = true

/-- A step of the worker. -/
structure WorkerMoves (s t : TxStream) : Prop where
  sc : StreamCtx.TxPulls s.sc t.sc
  sent : t.sent = s.sent
  ended : t.ended = s.ended
  current : t.current = s.current
  frames : s.frames <+: t.frames

/-- A step of the asyncio thread: it may create the ring and add to it, and it adds nothing once the
FIN is set. -/
structure AsyncioMoves (s t : TxStream) : Prop where
  frames : t.frames = s.frames
  isSome : s.sc.tx.isSome = true → t.sc.tx.isSome = true
  buf : s.sc.tx.isSome = true → StreamBuf.ProducerMoves s.sc.txBuf t.sc.txBuf
  head : t.sc.txBuf.head = s.sc.txBuf.head
  writes : s.sc.txWrites <+: t.sc.txWrites
  fin_le : s.sc.txBuf.finPending = true → t.sc.txBuf.finPending = true
  fin : s.sc.txBuf.finPending = true → t.sc.txWrites = s.sc.txWrites

theorem WorkerMoves.refl (s : TxStream) : WorkerMoves s s :=
  ⟨.refl _, rfl, rfl, rfl, List.prefix_rfl⟩

theorem WorkerMoves.trans {s t u : TxStream} (h : WorkerMoves s t) (h' : WorkerMoves t u) :
    WorkerMoves s u :=
  ⟨h.sc.trans h'.sc, h'.sent.trans h.sent, h'.ended.trans h.ended, h'.current.trans h.current,
    h.frames.trans h'.frames⟩

theorem AsyncioMoves.refl (s : TxStream) : AsyncioMoves s s :=
  ⟨rfl, id, fun _ => .refl _, rfl, List.prefix_rfl, id, fun _ => rfl⟩

theorem AsyncioMoves.trans {s t u : TxStream} (h : AsyncioMoves s t) (h' : AsyncioMoves t u) :
    AsyncioMoves s u :=
  ⟨h'.frames.trans h.frames, fun hs => h'.isSome (h.isSome hs),
    fun hs => (h.buf hs).trans (h'.buf (h.isSome hs)), h'.head.trans h.head,
    h.writes.trans h'.writes, fun hf => h'.fin_le (h.fin_le hf),
    fun hf => (h'.fin (h.fin_le hf)).trans (h.fin hf)⟩

/-- The worker outside a pull: every byte it took is handed. -/
def WorkerIdle (s : TxStream) : Prop := s.handed.length = s.sc.txBuf.head

/-- The asyncio thread outside a call: its record is what the ring carries. -/
structure AsyncioIdle (s : TxStream) : Prop where
  sent : s.sc.txWrites = s.sent
  ended : s.sc.txBuf.finPending = s.ended

theorem WorkerIdle.stable {s t : TxStream} (h : WorkerIdle s) (hm : AsyncioMoves s t) :
    WorkerIdle t := by
  rw [WorkerIdle, handed, hm.frames, hm.head]
  exact h

theorem AsyncioIdle.stable {s t : TxStream} (h : AsyncioIdle s) (hm : WorkerMoves s t) :
    AsyncioIdle t :=
  ⟨by rw [hm.sent, ← h.sent]; exact hm.sc.buf.writes,
    by rw [hm.ended, ← h.ended]; exact hm.sc.buf.fin⟩

/-- The rely–guarantee outline. -/
def outline : Outline Menu :=
  duo Inv WorkerMoves AsyncioMoves WorkerIdle AsyncioIdle .refl .trans .refl .trans
    (fun h hm _ => h.stable hm) (fun h hm _ => h.stable hm)

/-! ## Writes -/

/-- A step of the writer keeps the invariant. -/
theorem Inv.of_asyncio {s t : TxStream} (hs : Inv s) (hm : AsyncioMoves s t) (hwf : t.sc.TxWf)
    (hreset : t.sc.txResetPending = s.sc.txResetPending) (hended : t.ended = s.ended)
    (hcalls : t.sc.txWrites = t.sent ∨ ∃ d, t.current = some d ∧ t.sc.txWrites = t.sent ++ [d]) :
    Inv t := by
  have hbytes : s.sc.txBytes <+: t.sc.txBytes := by
    obtain ⟨r, hr⟩ := hm.writes
    show s.sc.txWrites.flatten <+: t.sc.txWrites.flatten
    rw [← hr, List.flatten_append]
    exact List.prefix_append _ _
  have hhanded : t.handed = s.handed := by rw [TxStream.handed, TxStream.handed, hm.frames]
  refine ⟨hwf, hreset.trans hs.noReset, hhanded ▸ hs.handed.trans hbytes, ?_, fun hf => ?_, ?_,
    hcalls, ?_⟩
  · rw [hhanded, hm.head]
    exact hs.handed_le
  · obtain ⟨hfin, hall⟩ := hs.fin (by rw [FinHanded, ← hm.frames]; exact hf)
    refine ⟨hm.fin_le hfin, ?_⟩
    show t.handed = t.sc.txWrites.flatten
    rw [hhanded, hall, hm.fin hfin]
    rfl
  · rw [hm.frames]
    exact hs.finLast
  · rw [hended]
    exact fun he => hm.fin_le (hs.ended he)

/-- The context under a call that publishes `data` once, before the FIN. -/
theorem embeds_writer {F : StreamBuf → Prop} {sent : List (List UInt8)} {data : List UInt8} :
    Embeds (outline.contract .asyncio) scLoc
      (StreamCtx.sender (fun b d => b.finPending = false ∧ b.writes = sent ∧ d = data) F)
      (fun s => s.sent = sent ∧ s.ended = false ∧ s.current = some data) where
  inv := fun s hs => hs.wf
  rely := fun s t h hm _ =>
    ⟨hm.sc, hm.sent.trans h.1, hm.ended.trans h.2.1, hm.current.trans h.2.2⟩
  step := by
    rintro s sc hs ⟨hsent, hended, hcur⟩ hg hwf
    have hreset : sc.txResetPending = s.sc.txResetPending := by
      cases hg <;> rfl
    cases hg with
    | stay => exact ⟨.refl s, hs, hsent, hended, hcur⟩
    | arm =>
      have hm : AsyncioMoves s (scLoc.set { s.sc with txDrainPending := true } s) :=
        ⟨rfl, id, fun _ => .refl _, rfl, List.prefix_rfl, id, fun _ => rfl⟩
      exact ⟨hm, hs.of_asyncio hm hwf hreset rfl hs.calls, hsent, hended, hcur⟩
    | create capacity hash h =>
      have hnone : s.sc.tx = none := h
      have hbuf : s.sc.txBuf = StreamCtx.noBuf := by rw [StreamCtx.txBuf, hnone]; rfl
      have hwr : s.sc.txWrites = [] := by rw [StreamCtx.txWrites, hbuf]; rfl
      have hfin : s.sc.txBuf.finPending = false := by rw [hbuf]; rfl
      have hm : AsyncioMoves s (scLoc.set { s.sc with tx := some (.create capacity hash) } s) := by
        refine ⟨rfl, fun _ => rfl, fun hsome =>
          ?_, by rw [hbuf]; rfl, ?_, fun hf => ?_, fun hf => ?_⟩
        · rw [hnone] at hsome
          exact absurd hsome (by simp)
        · rw [hwr]
          exact List.nil_prefix
        · exact absurd (hfin.symm.trans hf) (by simp)
        · exact absurd (hfin.symm.trans hf) (by simp)
      have hcalls := hs.calls
      rw [hwr] at hcalls
      exact ⟨hm, hs.of_asyncio hm hwf hreset rfl hcalls, hsent, hended, hcur⟩
    | push b h hstep =>
      have hm := hstep.moves
      have hfin : s.sc.txBuf.finPending = true → b.writes = s.sc.txBuf.writes := by
        intro hf
        cases hstep with
        | stay => rfl
        | copy m h => rfl
        | hash x => rfl
        | publish d h => exact absurd (h.1.symm.trans hf) (by simp)
      have hmoves : AsyncioMoves s (scLoc.set { s.sc with tx := some b } s) :=
        ⟨rfl, fun _ => rfl, fun _ => hm, hm.head, hm.writes, hm.fin, hfin⟩
      refine ⟨hmoves, hs.of_asyncio hmoves hwf hreset rfl ?_, hsent, hended, hcur⟩
      cases hstep with
      | stay => exact hs.calls
      | copy m h => exact hs.calls
      | hash x => exact hs.calls
      | publish d h =>
        obtain ⟨-, hw, hd⟩ := h
        refine .inr ⟨d, by rw [hd]; exact hcur, ?_⟩
        show s.sc.txBuf.writes ++ [d] = s.sent ++ [d]
        rw [show s.sc.txBuf.writes = sent from hw, hsent]
    | fin h hF =>
      have hm : AsyncioMoves s
        (scLoc.set { s.sc with tx := some { s.sc.txBuf with finPending := true } } s) :=
        ⟨rfl, fun _ => rfl, fun _ => ⟨rfl, rfl, rfl, List.prefix_rfl, fun _ => rfl⟩, rfl,
          List.prefix_rfl, fun _ => rfl, fun _ => rfl⟩
      exact ⟨hm, hs.of_asyncio hm hwf hreset rfl hs.calls, hsent, hended, hcur⟩

/-- The outcome of a write: a refused one has added nothing. -/
structure Wrote (s : TxStream) (rc : ℤ) (t : TxStream) : Prop where
  idle : AsyncioIdle t
  refused : rc ≠ 1 → t.sc.txWrites = s.sc.txWrites ∧ t.sc.txBuf.finPending = s.sc.txBuf.finPending

/-- A write on a stream that has not ended keeps the outline. -/
theorem sendData_spec {data : List UInt8} {capacity : UInt32} {setFin hash : Bool} {s : TxStream}
    (hidle : AsyncioIdle s) (hended : s.ended = false) :
    wp (outline.contract .asyncio) (sendData data capacity setFin hash) (Wrote s) s := by
  unfold sendData
  refine wp_modify_bind fun r hsr hr => ?_
  have hidle := hidle.stable hsr
  have hended : r.ended = false := hsr.ended.trans hended
  have hfin : r.sc.txBuf.finPending = false := hidle.ended.trans hended
  have hinv : Inv { r with current := some data } :=
    ⟨hr.wf, hr.noReset, hr.handed, hr.handed_le, hr.fin, hr.finLast, .inl hidle.sent, hr.ended⟩
  refine ⟨⟨rfl, id, fun _ => .refl _, rfl, List.prefix_rfl, id, fun _ => rfl⟩, hinv, ?_⟩
  refine wp_seq (wp_on (embeds_writer (F := fun _ => True)) ⟨rfl, hended, rfl⟩
    (StreamCtx.sendData_spec (fun b hw hf => ⟨hf.trans hfin, hw.trans hidle.sent, rfl⟩)
      (fun _ _ _ _ => trivial))) hinv fun rc t ht h => ?_
  obtain ⟨hsent, htsent, htended, htcur⟩ := h
  refine wp_modify_bind fun u htu hu => ?_
  have husent : u.sent = r.sent := htu.sent.trans htsent
  have huended : u.ended = false := htu.ended.trans htended
  unfold record
  split
  · rename_i hrc
    have hh := (hsent.accepted hrc).stable htu.sc
    have hwr : u.sc.txWrites = r.sent ++ StreamCtx.chunk data := by
      rw [hh.writes]
      exact congrArg (· ++ _) hidle.sent
    have hfin' : u.sc.txBuf.finPending = setFin := by
      rw [hh.fin, show (scLoc.get { r with current := some data }).txBuf.finPending =
        false from hfin,
        Bool.false_or]
    have hsent' : u.sc.txWrites = u.sent ++ StreamCtx.chunk data := by rw [husent, hwr]
    have hended' : u.sc.txBuf.finPending = (u.ended || setFin) := by
      rw [huended, Bool.false_or, hfin']
    exact ⟨⟨rfl, id, fun _ => .refl _, rfl, List.prefix_rfl, id, fun _ => rfl⟩,
      ⟨hu.wf, hu.noReset, hu.handed, hu.handed_le, hu.fin, hu.finLast, .inl hsent', hended'.trans⟩,
      ⟨hsent', hended'⟩, fun h => absurd hrc h⟩
  · rename_i hrc
    have hh := (hsent.refused hrc).stable htu.sc
    have hsent' : u.sc.txWrites = u.sent := by
      rw [husent]
      exact hh.writes.trans hidle.sent
    exact ⟨⟨rfl, id, fun _ => .refl _, rfl, List.prefix_rfl, id, fun _ => rfl⟩,
      ⟨hu.wf, hu.noReset, hu.handed, hu.handed_le, hu.fin, hu.finLast, .inl hsent', hu.ended⟩,
      ⟨hsent', by rw [huended]; exact hh.fin.trans hfin⟩, fun _ =>
        ⟨hh.writes.trans hsr.sc.buf.writes, hh.fin.trans hsr.sc.buf.fin⟩⟩

end TxStream

end Aiopquic
