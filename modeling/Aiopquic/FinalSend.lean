import Aiopquic.Lib.Steps
import Aiopquic.TxPath

/-!
# Sends behind the end of a stream

One stream, raw QUIC or WebTransport, from its first send on: `send_stream_data` down to
`aiopquic_stream_ctx_send_data` and the push of `TX_MARK_ACTIVE`, and the worker's pulls. FIN is a
flag beside the ring of bytes, and no send looks at it.

A send decides when it looks at the rings for the last time. It then publishes its bytes, sets the
flag and posts its command, with any steps of the worker in between. The drain signals and the
resets of a stream are left out.
-/

namespace Aiopquic

/-- `sc->tx` of a context: the bytes published, of which the worker has taken `head`. -/
structure FinBuf where
  capacity : ℕ
  bytes : List UInt8 := []
  head : ℕ := 0
  finPending : Bool := false
  deriving DecidableEq, Repr

namespace FinBuf

/-- `tail`. -/
def tail (b : FinBuf) : ℕ := b.bytes.length

/-- `aiopquic_stream_buf_used`. -/
def used (b : FinBuf) : ℕ := b.tail - b.head

/-- `free_bytes`. -/
def free (b : FinBuf) : ℕ := b.capacity - b.used

end FinBuf

/-- How a `send_stream_data` ends: it raises, returns without a word, or has written to the ring. -/
inductive SendOutcome
  | raises
  | returns
  | writes
  deriving DecidableEq, Repr

/-- What is left of a send that has written its bytes. -/
inductive SendRest
  | none
  | setFin
  | markActive
  deriving DecidableEq, Repr

structure FinalSend where
  isWt : Bool
  streamId : ℕ := 0
  /-- `_closed` of the connection, `session_closed` of the session. -/
  closed : Bool := false
  /-- The session is ready and has a connection. -/
  ready : Bool := true
  /-- The stream is in `_stream_ctxs` or `_stream_tx_ctxs`; `tx` is the ring of its context, once it
  has one. -/
  held : Bool := false
  tx : Option FinBuf := none
  /-- `STREAM_DESTROY` was drained: picoquic has let go of the stream. -/
  released : Bool := false
  /-- The size of a new ring, and the TX event ring. -/
  ringCap : ℕ
  txRing : List Entry := []
  txCapacity : ℕ
  rest : SendRest := .none
  frames : List Frame := []
  /-- History: the bytes written when a send with `end_stream` was accepted; a later send did not
  raise, or it changed the context or a ring. -/
  ended : Option (List UInt8) := none
  spoiled : Bool := false
  deriving DecidableEq, Repr

namespace FinalSend

variable {s t : FinalSend} {data : List UInt8} {endStream : Bool}

/-! ## A send -/

/-- `data_len` is a `uint32_t`. -/
def cut (data : List UInt8) : List UInt8 := data.take (data.length % 2 ^ 32)

/-- `sc->tx`, made if there is none. -/
def ring (s : FinalSend) : FinBuf := s.tx.getD { capacity := s.ringCap }

/-- `_get_or_create_stream_ctx` of an open connection. -/
def getOrCreate (s : FinalSend) : FinalSend := if s.held then s else
    { s with held := true, tx := none }

/-- `tx_send_atomic` and `push_stream_data` up to the point where the bytes are in the ring. -/
def write (s : FinalSend) (data : List UInt8) (endStream : Bool) : SendOutcome × FinalSend :=
  if s.txCapacity ≤ s.txRing.length then (.raises, s)
  else if s.ring.free < (cut data).length then (.raises, { s with tx := some s.ring })
  else
    let bytes := s.ring.bytes ++ cut data
    (.writes,
      { s with
        tx := some { s.ring with bytes }
        rest := if endStream then .setFin else .markActive
        ended := if endStream ∧ s.ended = none then some bytes else s.ended })

/-- `send_stream_data`, up to the same point. -/
def sendStreamData (s : FinalSend) (data : List UInt8) (endStream : Bool) :
    SendOutcome × FinalSend :=
  if s.isWt then
    if s.closed ∨ s.ready = false ∨ s.held = false then (.raises, s) else s.write data endStream
  else if s.closed then (.returns, s)
  else s.getOrCreate.write data endStream

/-- A send, recorded. -/
def send (s : FinalSend) (data : List UInt8) (endStream : Bool) : FinalSend :=
  let r := s.sendStreamData data endStream
  { r.2 with spoiled := s.spoiled || (s.ended.isSome && decide (r ≠ (.raises, s))) }

/-! ## The worker and the rest -/

/-- `prepare_to_send` and `provide_data`; `buffer` is whether picoquic gave a buffer for the
bytes. -/
def pull (s : FinalSend) (length : ℕ) (buffer : Bool) : FinalSend :=
  match s.tx with
  | none => { s with frames := s.frames ++ [⟨[], false⟩] }
  | some b =>
    let toSend := min b.used (length % 2 ^ 32)
    let isFin := b.finPending && toSend == b.used
    if 0 < toSend then
      if buffer then
        { s with
          tx := some { b with head := b.head + toSend }
          frames := s.frames ++ [⟨(b.bytes.drop b.head).take toSend, isFin⟩] }
      else s
    else { s with frames := s.frames ++ [⟨[], isFin⟩] }

/-- A send, its next step behind the write, a pull, the worker's pop of a command, the command of
another call, `STREAM_DESTROY`, the entry of a stream in a session's dict, its removal on a reset or
`STOP_SENDING`, the close, and the session's readiness. -/
inductive Act
  | send (data : List UInt8) (endStream : Bool)
  | progress
  | pull (length : ℕ) (buffer : Bool)
  | pop
  | post (e : Entry)
  | destroy
  | hold
  | forget
  | close
  | setReady (ready : Bool)
  deriving DecidableEq

/-- Python runs nothing else while a send is under way; the worker does. -/
def step (s : FinalSend) : Act → Option FinalSend
  | .send data endStream => if s.rest = .none then some (s.send data endStream) else none
  | .progress =>
    match s.rest with
    | .none => none
    | .setFin => some { s with tx := s.tx.map fun b => { b with finPending := true }, rest := .markActive }
    | .markActive =>
      -- The room seen at the start is still there.
      some { s with txRing := s.txRing ++ [{ eventType := .txMarkActive, streamId := s.streamId }], rest := .none }
  | .pull length buffer => if s.released then none else some (s.pull length buffer)
  | .pop => some { s with txRing := s.txRing.tail }
  | .post e =>
    if s.rest = .none ∧ s.txRing.length < s.txCapacity
      then some { s with txRing := s.txRing ++ [e] } else none
  | .destroy => if s.rest = .none then some { s with held := false, released := true } else none
  | .hold => if s.rest = .none ∧ s.released = false then some { s with held := true } else none
  | .forget => if s.rest = .none ∧ s.isWt then some { s with held := false } else none
  | .close => if s.rest = .none then some { s with closed := true, held := false } else none
  | .setReady ready => if s.rest = .none then some { s with ready } else none

/-- A stream that nothing was sent on. -/
def init (isWt : Bool) (ringCap txCapacity : ℕ) : FinalSend := { isWt, ringCap, txCapacity }

/-! ## What is to hold -/

/-- FIN was handed to picoquic. -/
def FinHanded (s : FinalSend) : Prop := ∃ f ∈ s.frames, f.isFin

/-- Every send behind an accepted end of the stream has raised and left the rings alone, and FIN
goes out behind the bytes that were accepted up to the end, whatever the pulls were. -/
def Final (s : FinalSend) : Prop :=
  s.spoiled = false ∧ (s.FinHanded → s.ended = some (handedBytes s.frames))

instance : Decidable s.FinHanded := inferInstanceAs (Decidable (∃ f ∈ s.frames, _))

instance : Decidable s.Final := inferInstanceAs (Decidable (_ ∧ _))

/-- A send that the code refuses for another reason: on a session that is closed, not ready or
without the stream, and on an open connection or session with the TX event ring full or no room in
the stream's ring. -/
def Refuses (s : FinalSend) (data : List UInt8) : Prop :=
  (s.isWt = true ∧ (s.closed = true ∨ s.ready = false ∨ s.held = false)) ∨
    ((s.isWt = false → s.closed = false ∧ s.held = true) ∧
      (s.txCapacity ≤ s.txRing.length ∨ ∃ b ∈ s.tx, b.free < (cut data).length))

instance : Decidable (s.Refuses data) := inferInstanceAs (Decidable (_ ∨ _))

/-- Behind an accepted end of the stream the application sends nothing that the code would not
refuse anyway. -/
def Ok (s : FinalSend) : Act → Prop
  | .send data _ => s.ended.isSome → s.Refuses data
  | _ => True

instance : ∀ act, Decidable (s.Ok act)
  | .send _ _ => inferInstanceAs (Decidable (_ → _))
  | .progress | .pull _ _ | .pop | .post _ | .destroy | .hold | .forget | .close | .setReady _ =>
    .isTrue trivial

/-! ## One step -/

theorem write_eq_raises_iff : s.write data endStream = (.raises, s) ↔
    s.txCapacity ≤ s.txRing.length ∨ ∃ b ∈ s.tx, b.free < (cut data).length := by
  unfold write
  by_cases hfull : s.txCapacity ≤ s.txRing.length
  · simp [hfull]
  rw [if_neg hfull, or_iff_right hfull]
  cases htx : s.tx with
  | none =>
    -- Even a write that is refused makes the ring.
    refine iff_of_false (fun h => ?_) (by simp)
    split at h
    · have hmade := congrArg (FinalSend.tx ∘ Prod.snd) h
      simp [htx] at hmade
    · simp at h
  | some b =>
    have hring : s.ring = b := by simp [ring, htx]
    have hsame : { s with tx := some s.ring } = s := by rw [hring, ← htx]
    split
    · rename_i hfree
      exact iff_of_true (by rw [hsame]) ⟨b, rfl, hring ▸ hfree⟩
    · rename_i hfree
      refine iff_of_false (by simp) ?_
      rintro ⟨b', hb', hlt⟩
      cases hb'
      exact hfree (hring.symm ▸ hlt)

theorem held_write : (s.write data endStream).2.held = s.held := by
  unfold write
  split
  · rfl
  · split <;> rfl

theorem sendStreamData_eq_raises_iff :
    s.sendStreamData data endStream = (.raises, s) ↔ s.Refuses data := by
  unfold sendStreamData Refuses
  cases hwt : s.isWt with
  | true =>
    by_cases hgate : s.closed = true ∨ s.ready = false ∨ s.held = false
    · simp [hgate]
    · simp only [if_true, if_neg hgate, write_eq_raises_iff]
      simp [hgate]
  | false =>
    cases hcl : s.closed with
    | true => simp
    | false =>
      cases hheld : s.held with
      | true => simp [getOrCreate, hheld, write_eq_raises_iff]
      | false =>
        refine iff_of_false (fun h => ?_) (by simp)
        have hmade := (congrArg (FinalSend.held ∘ Prod.snd) h).symm
        simp [getOrCreate, hheld, held_write] at hmade

/-- A send is clean behind the end exactly if the code refuses it. -/
theorem spoiled_send : (s.send data endStream).spoiled = false ↔
    s.spoiled = false ∧ (s.ended.isSome → s.Refuses data) := by
  rw [send, ← @sendStreamData_eq_raises_iff s data endStream]
  cases s.ended.isSome <;> simp

theorem pull_eq (length : ℕ) (buffer : Bool) :
    ∃ tx frames, s.pull length buffer = { s with tx, frames } := by
  unfold pull
  split
  · exact ⟨_, _, rfl⟩
  · dsimp only
    split
    · split
      · exact ⟨_, _, rfl⟩
      · exact ⟨s.tx, s.frames, rfl⟩
    · exact ⟨s.tx, _, rfl⟩

/-- No other step spoils the record. -/
theorem spoiled_step {act : Act} (h : s.step act = some t) :
    t.spoiled = false ↔ s.spoiled = false ∧ s.Ok act := by
  cases act with
  | send data endStream =>
    obtain ⟨-, hsend⟩ := Option.ite_none_right_eq_some.1 h
    cases hsend
    exact spoiled_send
  | progress =>
    rw [step] at h
    split at h
    · exact (nomatch h)
    all_goals
      cases h
      exact (and_iff_left trivial).symm
  | pull length buffer =>
    obtain ⟨-, hpull⟩ := Option.ite_none_left_eq_some.1 h
    obtain ⟨tx, frames, heq⟩ := @pull_eq s length buffer
    cases hpull
    rw [heq]
    exact (and_iff_left trivial).symm
  | pop =>
    cases h
    exact (and_iff_left trivial).symm
  | post _ | destroy | hold | forget | close | setReady _ =>
    obtain ⟨-, heq⟩ := Option.ite_none_right_eq_some.1 h
    cases heq
    exact (and_iff_left trivial).symm

/-! ## The bytes before FIN -/

/-- The ring of a stream that picoquic has: what was handed is what the worker has taken, and the
end leaves the ring as it is. -/
structure Live (s : FinalSend) : Prop where
  handed : handedBytes s.frames = s.ring.bytes.take s.ring.head
  head_le : s.ring.head ≤ s.ring.tail
  pending : s.ring.finPending = true → s.ended.isSome
  bytes : ∀ e ∈ s.ended, s.ring.bytes = e
  fresh : s.isWt = false → s.held = false → s.closed = false → s.tx = none

structure Inv (s : FinalSend) : Prop where
  fin : s.FinHanded → s.ended = some (handedBytes s.frames)
  ending : s.rest = .setFin → s.ended.isSome
  live : s.released = false → Live s

theorem inv_init (isWt : Bool) (ringCap txCapacity : ℕ) : Inv (init isWt ringCap txCapacity) where
  fin := by
    rintro ⟨f, hf, -⟩
    exact absurd hf (List.not_mem_nil)
  ending h := nomatch h
  live _ :=
    { handed := rfl
      head_le := le_rfl
      pending := fun h => nomatch h
      bytes := fun _ h => nomatch h
      fresh := fun _ _ _ => rfl }

/-- What a send does to the ring of a stream whose end was not accepted before. -/
inductive Sends (s t : FinalSend) : Prop
  | keeps (ring : t.ring = s.ring) (rest : t.rest = s.rest) (ended : t.ended = none)
  | writes (bytes : List UInt8) (ring : t.ring = { s.ring with bytes := s.ring.bytes ++ bytes })
      (rest : t.rest = .markActive) (ended : t.ended = none)
  | ends (bytes : List UInt8) (ring : t.ring = { s.ring with bytes := s.ring.bytes ++ bytes })
      (rest : t.rest = .setFin) (ended : t.ended = some t.ring.bytes)

theorem write_sends (hended : s.ended = none) : Sends s (s.write data endStream).2 := by
  unfold write
  split
  · exact .keeps rfl rfl hended
  · split
    · exact .keeps rfl rfl hended
    · cases endStream with
      | false => exact .writes (cut data) rfl rfl (by simpa using hended)
      | true => exact .ends (cut data) rfl rfl (by simp [hended, ring])

/-- The fields that a send leaves alone. -/
structure SendFrame (s t : FinalSend) : Prop where
  isWt : t.isWt = s.isWt
  closed : t.closed = s.closed
  released : t.released = s.released
  frames : t.frames = s.frames
  fresh : t.held = false → t.isWt = false → t.closed = false → False

theorem write_frame (h : s.isWt = true ∨ s.held = true) :
    SendFrame s (s.write data endStream).2 := by
  unfold write
  have hheld : s.held = false → s.isWt = false → s.closed = false → False := by
    rintro hh hw -
    rcases h with h | h
    · exact absurd (hw.symm.trans h) Bool.false_ne_true
    · exact absurd (hh.symm.trans h) Bool.false_ne_true
  split
  · exact ⟨rfl, rfl, rfl, rfl, hheld⟩
  · split <;> exact ⟨rfl, rfl, rfl, rfl, hheld⟩

theorem SendFrame.finHanded (h : SendFrame s t) : t.FinHanded ↔ s.FinHanded := by
  rw [FinHanded, FinHanded, h.frames]

/-- A send on a stream whose end was not accepted. `u` is the stream with its context at hand. -/
theorem Inv.of_sends {u : FinalSend} (h : Inv s) (hended : s.ended = none) (hsends : Sends u t)
    (hframe : SendFrame s t) (hring : s.released = false → u.ring = s.ring)
    (hrest : u.rest = s.rest) : Inv t where
  fin hf := by
    have hsome := h.fin (hframe.finHanded.1 hf)
    exact absurd (hended.symm.trans hsome) (by simp)
  ending hr := by
    cases hsends with
    | keeps _ rest _ =>
      have hsome := h.ending (hrest.symm.trans (rest.symm.trans hr))
      exact absurd hsome (by simp [hended])
    | writes _ _ rest _ => exact nomatch rest.symm.trans hr
    | ends _ _ _ ended => simp [ended]
  live hr := by
    have hlive := h.live (hframe.released.symm.trans hr)
    have hu := hring (hframe.released.symm.trans hr)
    have hnopending : s.ring.finPending = false := by
      by_contra hp
      have hsome := hlive.pending (by simpa using hp)
      exact absurd hsome (by simp [hended])
    have hfresh : t.isWt = false → t.held = false → t.closed = false → t.tx = none :=
      fun hw hh hc => (hframe.fresh hh hw hc).elim
    cases hsends with
    | keeps ring _ ended =>
      have hr : t.ring = s.ring := ring.trans hu
      refine ⟨?_, ?_, fun hp => ?_, fun e he => ?_, hfresh⟩
      · rw [hframe.frames, hr, hlive.handed]
      · rw [hr]
        exact hlive.head_le
      · rw [hr, hnopending] at hp
        exact nomatch hp
      · exact nomatch ended.symm.trans he
    | writes bytes ring _ ended =>
      rw [hu] at ring
      refine ⟨?_, ?_, fun hp => ?_, fun e he => ?_, hfresh⟩
      · rw [hframe.frames, ring, hlive.handed, List.take_append_of_le_length hlive.head_le]
      · rw [ring, FinBuf.tail, List.length_append]
        exact le_add_right hlive.head_le
      · rw [ring] at hp
        exact absurd (hp.symm.trans hnopending) (by simp)
      · exact nomatch ended.symm.trans he
    | ends bytes ring _ ended =>
      rw [hu] at ring
      refine ⟨?_, ?_, fun _ => by simp [ended], fun e he => ?_, hfresh⟩
      · rw [hframe.frames, ring, hlive.handed, List.take_append_of_le_length hlive.head_le]
      · rw [ring, FinBuf.tail, List.length_append]
        exact le_add_right hlive.head_le
      · exact Option.some.inj (ended.symm.trans he)

theorem Inv.spoil (h : Inv s) (spoiled : Bool) : Inv { s with spoiled } where
  fin := h.fin
  ending := h.ending
  live hr := { h.live hr with }

theorem Inv.send (h : Inv s) (hok : s.ended.isSome → s.Refuses data) :
    Inv (s.send data endStream) := by
  apply Inv.spoil
  cases hended : s.ended with
  | some e =>
    have hraises := (@sendStreamData_eq_raises_iff s data endStream).2 (hok (by simp [hended]))
    rw [hraises]
    exact h
  | none =>
    unfold sendStreamData
    cases hwt : s.isWt with
    | true =>
      rw [if_pos rfl]
      split
      · exact h
      · exact h.of_sends hended (write_sends hended) (write_frame (Or.inl hwt)) (fun _ => rfl) rfl
    | false =>
      rw [if_neg Bool.false_ne_true]
      split
      · exact h
      · rename_i hclosed
        cases hheld : s.held with
        | true =>
          rw [getOrCreate, if_pos hheld]
          exact h.of_sends hended (write_sends hended) (write_frame (Or.inr hheld))
            (fun _ => rfl) rfl
        | false =>
          rw [getOrCreate, if_neg (by simp [hheld])]
          have hframe := @write_frame { s with held := true, tx := none } data endStream
            (Or.inr rfl)
          refine h.of_sends hended (write_sends hended)
            ⟨hframe.isWt, hframe.closed, hframe.released, hframe.frames,
            hframe.fresh⟩ (fun hr => ?_) rfl
          have hfresh := (h.live hr).fresh hwt hheld (by simpa using hclosed)
          rw [ring, ring, hfresh]

theorem handedBytes_append (l : List Frame) (f : Frame) :
    handedBytes (l ++ [f]) = handedBytes l ++ f.bytes := by
  simp [handedBytes]

theorem finHanded_append {frames : List Frame} {f : Frame} :
    (∃ g ∈ frames ++ [f], g.isFin = true) ↔ (∃ g ∈ frames, g.isFin = true) ∨ f.isFin = true := by
  simp [or_and_right, exists_or]

/-- A pull that takes the next `n` bytes, and FIN if it takes the last of a ring whose end is
pending. -/
theorem Inv.take (h : Inv s) (hr : s.released = false) {b : FinBuf} (htx : s.tx = some b) {n : ℕ}
    {isFin : Bool}
    (hn : n ≤ b.used) (hfin : isFin = true → b.finPending = true ∧ n = b.used) :
    Inv { s with
      tx := some { b with head := b.head + n }
      frames := s.frames ++ [⟨(b.bytes.drop b.head).take n, isFin⟩] } := by
  have hlive := h.live hr
  have hring : s.ring = b := by simp [ring, htx]
  have hle : b.head ≤ b.bytes.length := hring ▸ hlive.head_le
  have hhanded : handedBytes (s.frames ++ [⟨(b.bytes.drop b.head).take n, isFin⟩]) =
    b.bytes.take (b.head + n) := by
    rw [handedBytes_append, hlive.handed, hring, List.take_add]
  have hall (e : List UInt8) (he : s.ended = some e) (hnb : b.head + n = b.bytes.length) :
      s.ended = some (b.bytes.take (b.head + n)) := by
    rw [hnb, List.take_length, he, ← hlive.bytes e he, hring]
  refine ⟨fun hf => ?_, h.ending, fun _ => ⟨hhanded, ?_, ?_, ?_, ?_⟩⟩
  · show s.ended = some (handedBytes _)
    rw [hhanded]
    rcases finHanded_append.1 hf with hf | hf
    · -- FIN is out already: the ring has no more bytes.
      have hended := h.fin hf
      have hbytes := hlive.bytes _ hended
      rw [hlive.handed, hring] at hbytes
      have hlen := congrArg List.length hbytes
      rw [List.length_take] at hlen
      refine hall _ hended ?_
      rw [FinBuf.used, FinBuf.tail] at hn
      omega
    · obtain ⟨hpending, hnb⟩ := hfin hf
      obtain ⟨e, he⟩ := Option.isSome_iff_exists.1 (hlive.pending (hring.symm ▸ hpending))
      refine hall e he ?_
      rw [hnb, FinBuf.used, FinBuf.tail]
      omega
  · rw [FinBuf.used, FinBuf.tail] at hn
    show b.head + n ≤ b.bytes.length
    omega
  · exact fun hp => hlive.pending (hring.symm ▸ hp)
  · exact fun e he => (congrArg FinBuf.bytes hring).symm.trans (hlive.bytes e he)
  · intro hw hh hc
    exact absurd (htx.symm.trans (hlive.fresh hw hh hc)) (by simp)

theorem Inv.pull (h : Inv s) (hr : s.released = false) (length : ℕ) (buffer : Bool) :
    Inv (s.pull length buffer) := by
  have hlive := h.live hr
  unfold FinalSend.pull
  split
  · rename_i htx
    have hhanded : handedBytes (s.frames ++ [⟨[], false⟩]) = handedBytes s.frames := by
      rw [handedBytes_append, List.append_nil]
    refine ⟨fun hf => ?_, h.ending, fun _ => { hlive with handed := hhanded.trans hlive.handed }⟩
    rcases finHanded_append.1 hf with hf | hf
    · exact (h.fin hf).trans (congrArg some hhanded.symm)
    · cases hf
  · rename_i b htx
    dsimp only
    split
    · split
      · refine h.take hr htx (min_le_left _ _) fun hf => ?_
        simpa using hf
      · exact h
    · rename_i hzero
      have htake := @Inv.take _ h hr _ htx 0
        (b.finPending && min b.used (length % 2 ^ 32) == b.used) (Nat.zero_le _)
        fun hf => by
          simp only [Bool.and_eq_true, beq_iff_eq] at hf
          exact ⟨hf.1, by omega⟩
      simp only [Nat.add_zero, List.take_zero, ← htx] at htake
      exact htake

theorem Live.setFin (h : Live s) (hended : s.ended.isSome) :
    Live { s with tx := s.tx.map fun b => { b with finPending := true }, rest := .markActive } := by
  cases htx : s.tx with
  | none =>
    have hring : s.ring = { capacity := s.ringCap } := by simp [ring, htx]
    refine ⟨h.handed.trans ?_, ?_, fun _ => hended, fun e he => ?_, fun _ _ _ => rfl⟩
    · rw [hring]
      rfl
    · exact le_rfl
    · exact (congrArg FinBuf.bytes hring).symm.trans (h.bytes e he)
  | some b =>
    have hring : s.ring = b := by simp [ring, htx]
    refine ⟨h.handed.trans ?_, ?_, fun _ => hended, fun e he => ?_, fun hw hh hc => ?_⟩
    · rw [hring]
      rfl
    · exact hring ▸ h.head_le
    · exact (congrArg FinBuf.bytes hring).symm.trans (h.bytes e he)
    · exact absurd (htx.symm.trans (h.fresh hw hh hc)) (by simp)

theorem Inv.progress (h : Inv s) (hstep : s.step .progress = some t) : Inv t := by
  rw [FinalSend.step] at hstep
  split at hstep
  · exact (nomatch hstep)
  · rename_i hrest
    cases hstep
    have hended := h.ending hrest
    refine ⟨h.fin, fun hr => (nomatch hr), fun hr => ?_⟩
    exact (h.live hr).setFin hended
  · cases hstep
    exact ⟨h.fin, fun hr => (nomatch hr), fun hr => { h.live hr with }⟩

theorem Inv.step {act : Act} (h : Inv s) (hok : s.Ok act) (hstep : s.step act = some t) :
    Inv t := by
  cases act with
  | send data endStream =>
    obtain ⟨-, hsend⟩ := Option.ite_none_right_eq_some.1 hstep
    cases hsend
    exact h.send hok
  | progress => exact h.progress hstep
  | pull length buffer =>
    obtain ⟨hr, hpull⟩ := Option.ite_none_left_eq_some.1 hstep
    cases hpull
    exact h.pull (by simpa using hr) length buffer
  | pop =>
    cases hstep
    exact ⟨h.fin, h.ending, fun hr => { h.live hr with }⟩
  | post _ | setReady _ =>
    obtain ⟨-, heq⟩ := Option.ite_none_right_eq_some.1 hstep
    cases heq
    exact ⟨h.fin, h.ending, fun hr => { h.live hr with }⟩
  | destroy =>
    obtain ⟨-, heq⟩ := Option.ite_none_right_eq_some.1 hstep
    cases heq
    exact ⟨h.fin, h.ending, fun hr => (nomatch hr)⟩
  | hold =>
    obtain ⟨-, heq⟩ := Option.ite_none_right_eq_some.1 hstep
    cases heq
    exact ⟨h.fin, h.ending, fun hr => { h.live hr with fresh := fun _ hh _ => (nomatch hh) }⟩
  | forget =>
    obtain ⟨hwt, heq⟩ := Option.ite_none_right_eq_some.1 hstep
    cases heq
    exact ⟨h.fin, h.ending, fun hr =>
      { h.live hr with fresh := fun hw _ _ => absurd (hwt.2.symm.trans hw) (by simp) }⟩
  | close =>
    obtain ⟨-, heq⟩ := Option.ite_none_right_eq_some.1 hstep
    cases heq
    exact ⟨h.fin, h.ending, fun hr => { h.live hr with fresh := fun _ _ hc => (nomatch hc) }⟩

/-- The end of a stream is final in every run exactly if the application sends nothing behind it
that the code would not refuse anyway. -/
theorem end_is_final {isWt : Bool} {ringCap txCapacity : ℕ} {acts : List Act}
    (hrun : Steps.run step (init isWt ringCap txCapacity) acts = some t) :
    t.Final ↔ Steps.Along step Ok (init isWt ringCap txCapacity) acts := by
  have hrecord := Steps.record_iff (I := fun s => s.spoiled = false) (fun _ _ _ => spoiled_step)
    hrun
  rw [and_iff_right (show (init isWt ringCap txCapacity).spoiled = false from rfl)] at hrecord
  constructor
  · exact fun h => hrecord.1 h.1
  · intro hok
    have hinv : Inv t := Steps.invariant (fun _ _ _ h hok hstep => h.step hok hstep)
      (inv_init ..) hok hrun
    exact ⟨hrecord.2 hok, hinv.fin⟩

/-- A pull between a write and its FIN, and a send on the session once it is closed. -/
def refusedActs : List Act :=
  [.hold, .send [1, 2] false, .progress, .send [3] true, .pull 2 true, .progress, .progress,
    .pull 8 true, .close,
    .send [4] false]

theorem end_is_final_refusedActs :
    ∃ t, Steps.run step (init true 16 8) refusedActs = some t ∧ t.FinHanded ∧ t.Final :=
  ⟨_, rfl, by decide, (end_is_final (rfl : Steps.run step (init true 16 8) refusedActs = some _)).2 (by decide)⟩

/-- A send behind the end. -/
def laterActs : List Act := [.send [1] true, .progress, .progress, .send [2] false]

theorem end_is_final_laterActs :
    ∃ t, Steps.run step (init false 16 8) laterActs = some t ∧ ¬ t.Final :=
  ⟨_, rfl, by decide⟩

end FinalSend

end Aiopquic
