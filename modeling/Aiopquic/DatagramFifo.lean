import Aiopquic.DatagramBuf
import Aiopquic.Threads

/-!
# Every interleaving of the datagram record ring is an exact FIFO of records

The asyncio thread pushes records and asks how full the ring is, the worker peeks and pops, one
atomic step or one copied piece at a time in any order. The calls are recorded.
-/

namespace Aiopquic

open Interleave Interleave.Prog Circular DgramBuf

/-- A call of `aiopquic_dgram_buf_push_record`: its payload, how many bytes were queued when it
began, its result, and the buffer and the tail before and after it. -/
structure RecordPush where
  data : List UInt8
  queued : ℕ
  rc : ℤ
  before : (ℕ → UInt8) × ℕ
  after : (ℕ → UInt8) × ℕ

/-- The ring and the record of the calls made on it. `starved` has an entry for each peek that found
nothing: how many pushes had been accepted when it began, and how many records had been popped. -/
structure RecordRun where
  db : DgramBuf
  pushes : List RecordPush
  popped : List (List UInt8)
  starved : List (ℕ × ℕ)
  usedSeen : List ℕ

namespace RecordRun

/-- A fresh ring. -/
def init (db : DgramBuf) : RecordRun := ⟨db, [], [], [], []⟩

/-- The ring inside the run. -/
def dbLoc : Loc RecordRun DgramBuf where
  get := (·.db)
  set := fun db s => { s with db := db }
  get_set := fun _ _ => rfl

/-- The payloads of the pushes that returned `1`. -/
def accepted (s : RecordRun) : List (List UInt8) := (s.pushes.filter (·.rc = 1)).map (·.data)

/-- One call of `aiopquic_dgram_buf_push_record`. -/
def pushCall (data : List UInt8) : Prog RecordRun Unit := do
  let (queued, before) ← load fun s => (s.db.tail - s.db.head, s.db.buf, s.db.tail)
  let rc ← (pushRecord data).on dbLoc
  modify fun s => { s with pushes := s.pushes ++ [⟨data, queued, rc, before, (s.db.buf, s.db.tail)⟩] }

/-- One call of `aiopquic_dgram_buf_used`. -/
def usedCall : Prog RecordRun Unit := do
  let n ← used.on dbLoc
  modify fun s => { s with usedSeen := s.usedSeen ++ [n] }

/-- `aiopquic_dgram_buf_peek_len`, then `aiopquic_dgram_buf_pop_into` if `take` and it found a
record. -/
def popCall (take : Bool) : Prog RecordRun Unit := do
  let start ← load (·.accepted.length)
  let n ← peekLen.on dbLoc
  if n = 0 then modify fun s => { s with starved := s.starved ++ [(start, s.popped.length)] }
  else if take then do
    let out ← (popInto n).on dbLoc
    modify fun s => { s with popped := s.popped ++ [out] }
  else pure ()

/-- What each thread may call. -/
inductive Menu : Thread → RecordRun → Prog RecordRun Unit → Prop
  | push (s : RecordRun) (data : List UInt8) (hpos : 0 < data.length)
    (hlen : data.length < 2 ^ 32) :
      Menu .asyncio s (pushCall data)
  | used (s : RecordRun) : Menu .asyncio s usedCall
  | pop (s : RecordRun) (take : Bool) : Menu .worker s (popCall take)

/-! ## The proof outline -/

/-- A push that was refused changed nothing, and did not find the ring empty unless it was too
large. -/
def Fair (p : RecordPush) : Prop := p.rc ≠ 1 → p.after = p.before ∧ (p.rc = 0 → p.queued ≠ 0)

/-- What holds between any two steps. -/
structure Inv (s : RecordRun) : Prop where
  db : s.db.Wf
  fits : dgramRecHdr + s.db.maxRecord ≤ s.db.geo.capacity
  positive : ∀ r ∈ s.db.records, 0 < r.length
  accepted : s.accepted <+: s.db.records
  popped : s.popped <+: s.db.records
  fair : ∀ p ∈ s.pushes, Fair p
  starved : ∀ x ∈ s.starved, x.1 ≤ x.2
  usedSeen : ∀ n ∈ s.usedSeen, n ≤ s.db.geo.capacity

/-- A step of the worker. -/
structure WorkerMoves (s t : RecordRun) : Prop where
  db : ConsumerMoves s.db t.db
  pushes : t.pushes = s.pushes
  usedSeen : t.usedSeen = s.usedSeen

/-- A step of the asyncio thread. -/
structure AsyncioMoves (s t : RecordRun) : Prop where
  db : ProducerMoves s.db t.db
  popped : t.popped = s.popped
  starved : t.starved = s.starved

theorem WorkerMoves.refl (s : RecordRun) : WorkerMoves s s := ⟨.refl _, rfl, rfl⟩

theorem WorkerMoves.trans {s t u : RecordRun} (h : WorkerMoves s t) (h' : WorkerMoves t u) :
    WorkerMoves s u :=
  ⟨h.db.trans h'.db, h'.pushes.trans h.pushes, h'.usedSeen.trans h.usedSeen⟩

theorem AsyncioMoves.refl (s : RecordRun) : AsyncioMoves s s := ⟨.refl _, rfl, rfl⟩

theorem AsyncioMoves.trans {s t u : RecordRun} (h : AsyncioMoves s t) (h' : AsyncioMoves t u) :
    AsyncioMoves s u :=
  ⟨h.db.trans h'.db, h'.popped.trans h.popped, h'.starved.trans h.starved⟩

/-- The worker outside a call. -/
def WorkerIdle (s : RecordRun) : Prop := s.popped.length = s.db.taken

/-- The asyncio thread outside a call. -/
def AsyncioIdle (s : RecordRun) : Prop := s.accepted = s.db.records

theorem WorkerIdle.stable {s t : RecordRun} (h : WorkerIdle s) (hm : AsyncioMoves s t) :
    WorkerIdle t := by
  rw [WorkerIdle, hm.popped, hm.db.taken]
  exact h

theorem AsyncioIdle.stable {s t : RecordRun} (h : AsyncioIdle s) (hm : WorkerMoves s t) :
    AsyncioIdle t := by
  rw [AsyncioIdle, RecordRun.accepted, hm.pushes, hm.db.records]
  exact h

/-- The rely–guarantee outline. -/
def outline : Outline Menu :=
  duo Inv WorkerMoves AsyncioMoves WorkerIdle AsyncioIdle .refl .trans .refl .trans
    (fun h hm _ => h.stable hm) (fun h hm _ => h.stable hm)

/-- The ring during a call of the producer that publishes no empty record. -/
theorem embeds_asyncio {data : List UInt8} (hpos : 0 < data.length) (pushes : List RecordPush) :
    Embeds (outline.contract .asyncio) dbLoc (producer.also (Adds data) (.refl data))
    (·.pushes = pushes) where
  inv := fun s hs => hs.db
  rely := fun s t hst hm _ => ⟨hm.db, hm.pushes.trans hst⟩
  step := by
    intro s db hs hst hguar hdb
    obtain ⟨hg, hadds⟩ := hguar
    have hgrow : s.db.records <+: db.records := hg.records
    refine ⟨⟨hg, rfl, rfl⟩,
      ⟨hdb, ?_, fun r hr => ?_, hs.accepted.trans hgrow, hs.popped.trans hgrow, hs.fair,
      hs.starved, ?_⟩, hst⟩
    · show dgramRecHdr + db.maxRecord ≤ db.geo.capacity
      rw [show db.maxRecord = s.db.maxRecord from hg.maxRecord, show db.geo = s.db.geo from hg.geo]
      exact hs.fits
    · rcases hadds with hsame | hmore
      · exact hs.positive r (hsame ▸ hr)
      · rcases List.mem_append.1 (hmore ▸ hr) with hr | hr
        · exact hs.positive r hr
        · rw [List.mem_singleton.1 hr]
          exact hpos
    · show ∀ n ∈ s.usedSeen, n ≤ db.geo.capacity
      rw [show db.geo = s.db.geo from hg.geo]
      exact hs.usedSeen

/-- The ring during a call of the consumer. -/
theorem embeds_worker (popped : List (List UInt8)) :
    Embeds (outline.contract .worker) dbLoc consumer (·.popped = popped) where
  inv := fun s hs => hs.db
  rely := fun s t hst hm _ => ⟨hm.db, hm.popped.trans hst⟩
  step := by
    intro s db hs hst hg hdb
    have hsame : db.records = s.db.records := hg.records
    refine ⟨⟨hg, rfl, rfl⟩, ⟨hdb, ?_, fun r hr => ?_, ?_, ?_, hs.fair, hs.starved, ?_⟩, hst⟩
    · show dgramRecHdr + db.maxRecord ≤ db.geo.capacity
      rw [show db.maxRecord = s.db.maxRecord from hg.maxRecord, show db.geo = s.db.geo from hg.geo]
      exact hs.fits
    · exact hs.positive r (hsame ▸ hr)
    · show s.accepted <+: db.records
      rw [hsame]
      exact hs.accepted
    · show s.popped <+: db.records
      rw [hsame]
      exact hs.popped
    · show ∀ n ∈ s.usedSeen, n ≤ db.geo.capacity
      rw [show db.geo = s.db.geo from hg.geo]
      exact hs.usedSeen

theorem accepted_snoc (s : RecordRun) (p : RecordPush) :
    accepted { s with pushes := s.pushes ++ [p] } = s.accepted ++ if p.rc = 1 then [p.data]
    else [] := by
  rw [accepted, accepted, List.filter_append, List.map_append]
  by_cases h : p.rc = 1 <;> simp [h]

/-- Recording a push once it is done. -/
theorem record_spec {s : RecordRun} {f : RecordRun → RecordPush}
    (hfair : ∀ t, WorkerMoves s t → Fair (f t))
    (hdone : ∀ t, WorkerMoves s t →
      (s.accepted ++ if (f t).rc = 1 then [(f t).data] else []) = s.db.records) :
    wp (outline.contract .asyncio) (modify fun s => { s with pushes := s.pushes ++ [f s] })
      (fun _ => AsyncioIdle) s := by
  refine wp_modify fun t hst ht => ?_
  have hidle : AsyncioIdle { t with pushes := t.pushes ++ [f t] } := by
    rw [AsyncioIdle, accepted_snoc, accepted, hst.pushes]
    exact (hdone t hst).trans hst.db.records.symm
  refine ⟨⟨.refl _, rfl, rfl⟩,
    ⟨ht.db, ht.fits, ht.positive, ?_, ht.popped, fun p hp => ?_, ht.starved,
    ht.usedSeen⟩, hidle⟩
  · rw [hidle]
  · rcases List.mem_append.1 hp with hp | hp
    · exact ht.fair p hp
    · rw [List.mem_singleton.1 hp]
      exact hfair t hst

/-- A push keeps the outline. -/
theorem pushCall_spec {s : RecordRun} {data : List UInt8} (hidle : AsyncioIdle s)
    (hpos : 0 < data.length) :
    wp (outline.contract .asyncio) (pushCall data) (fun _ => AsyncioIdle) s := by
  unfold pushCall
  refine wp_load_bind fun t hst ht => ?_
  have hidle : AsyncioIdle t := hidle.stable hst
  dsimp only
  have hfits := ht.fits
  have hlen : data.length ≤ t.db.maxRecord → dgramRecHdr + data.length < 2 ^ 32 := by
    have := t.db.geo.capacity_lt
    omega
  refine wp_seq (wp_on (embeds_asyncio hpos t.pushes) rfl
    (wp_also only_pushRecord (pushRecord_spec hlen))) ht
    fun rc u hu h => ?_
  obtain ⟨hpost, hsame⟩ := h
  have haccepted : u.accepted = t.db.records := by
    rw [accepted, hsame]
    exact hidle
  refine record_spec (fun v huv hrc => ?_) fun v _ => ?_
  · obtain ⟨hrc', -⟩ | ⟨hmoves, hwhy⟩ := hpost
    · exact absurd hrc' hrc
    · have hbuf : u.db.buf = t.db.buf := hmoves.buf
      have htail : u.db.tail = t.db.tail := hmoves.tail
      refine ⟨?_, fun hzero => ?_⟩
      · show (v.db.buf, v.db.tail) = (t.db.buf, t.db.tail)
        rw [huv.db.buf, huv.db.tail, hbuf, htail]
      · have hfull : t.db.head ≠ t.db.tail := by
          rcases hwhy with ⟨-, hne | hsmall, hmax⟩ | ⟨hneg, -⟩
          · exact hne
          · have : data.length ≤ t.db.maxRecord := hmax
            have : t.db.geo.capacity < dgramRecHdr + data.length := hsmall
            omega
          · exact absurd (hneg.symm.trans hzero) (by decide)
        have := ht.db.head_le
        show t.db.tail - t.db.head ≠ 0
        omega
  · rw [haccepted]
    obtain ⟨rfl, hrecords, -⟩ | ⟨hmoves, hwhy⟩ := hpost
    · exact hrecords.symm
    · have hrc : rc ≠ 1 := by
        rcases hwhy with ⟨rfl, -⟩ | ⟨rfl, -⟩ <;> decide
      rw [if_neg hrc, List.append_nil]
      exact hmoves.records.symm

theorem usedCall_spec {s : RecordRun} (hs : Inv s) (hidle : AsyncioIdle s) :
    wp (outline.contract .asyncio) usedCall (fun _ => AsyncioIdle) s := by
  unfold usedCall
  refine wp_seq (wp_on (embeds_asyncio (by decide : 0 < [(0 : UInt8)].length) s.pushes) rfl
    (wp_also (used_reads.only (.refl _)) used_producer)) hs fun n t ht h => ?_
  obtain ⟨⟨hmoves, hn⟩, hsame⟩ := h
  have hidle' : AsyncioIdle t := by
    rw [AsyncioIdle, accepted, hsame, show t.db.records = s.db.records from hmoves.records]
    exact hidle
  have hcap : n ≤ t.db.geo.capacity := by
    rw [show t.db.geo = s.db.geo from hmoves.geo]
    exact hn
  refine wp_modify fun u htu hu => ?_
  have hidle'' : AsyncioIdle u := hidle'.stable htu
  refine ⟨⟨.refl _, rfl, rfl⟩,
    ⟨hu.db, hu.fits, hu.positive, hu.accepted, hu.popped, hu.fair, hu.starved,
    fun m hm => ?_⟩, hidle''⟩
  rcases List.mem_append.1 hm with hm | hm
  · exact hu.usedSeen m hm
  · rw [List.mem_singleton.1 hm, htu.db.geo]
    exact hcap

/-- So does a peek, with or without a pop. -/
theorem popCall_spec {s : RecordRun} {take : Bool} (hidle : WorkerIdle s) :
    wp (outline.contract .worker) (popCall take) (fun _ => WorkerIdle) s := by
  unfold popCall
  refine wp_load_bind fun t hst ht => ?_
  have hidle : WorkerIdle t := hidle.stable hst
  refine wp_seq (wp_on (embeds_worker t.popped) rfl (peekLen_spec ht.db)) ht fun n u hu h => ?_
  obtain ⟨⟨hmoves, hfound⟩, hsame⟩ := h
  have hidle' : WorkerIdle u := by
    rw [WorkerIdle, hsame, show u.db.taken = t.db.taken from hmoves.taken]
    exact hidle
  obtain ⟨rfl, hnone⟩ | ⟨r, hr, rfl⟩ := hfound
  · rw [if_pos rfl]
    refine wp_modify fun v huv hv => ?_
    have hidle'' : WorkerIdle v := hidle'.stable huv
    refine ⟨⟨.refl _, rfl, rfl⟩, ⟨hv.db, hv.fits, hv.positive, hv.accepted, hv.popped, hv.fair,
      fun x hx => ?_, hv.usedSeen⟩, hidle''⟩
    rcases List.mem_append.1 hx with hx | hx
    · exact hv.starved x hx
    · rw [List.mem_singleton.1 hx]
      show t.accepted.length ≤ v.popped.length
      rw [huv.popped, hsame, show t.popped.length = t.db.records.length from hidle.trans hnone]
      exact ht.accepted.length_le
  · have hpos : 0 < r.length := hu.positive r (List.mem_of_getElem? hr)
    rw [if_neg (by omega)]
    cases take with
    | false => exact hidle'
    | true =>
      have hr' : u.db.records[u.db.taken]? = some r := by
        rw [show u.db.taken = t.db.taken from hmoves.taken]
        exact hr
      refine wp_seq (wp_on (embeds_worker u.popped) rfl (popInto_spec hr')) hu fun out v hv h => ?_
      obtain ⟨⟨rfl, htaken, hgrow⟩, hsame'⟩ := h
      refine wp_modify fun w hvw hw => ?_
      have hpopped : w.popped = u.popped := hvw.popped.trans hsame'
      have hnext : w.db.records[w.popped.length]? = some out := by
        rw [hpopped, hidle']
        exact getElem?_of_isPrefix
          ((show u.db.records <+: v.db.records from hgrow).trans hvw.db.records) hr'
      refine ⟨⟨.refl _, rfl, rfl⟩,
        ⟨hw.db, hw.fits, hw.positive, hw.accepted, prefix_snoc hw.popped hnext,
        hw.fair, hw.starved, hw.usedSeen⟩, ?_⟩
      show (w.popped ++ [out]).length = w.db.taken
      rw [List.length_append, hpopped, hidle', hvw.db.taken]
      exact htaken.symm

theorem outline_sound : outline.Sound := by
  rintro i s p hs hidle hp
  cases hp with
  | push _ data hpos hlen => exact pushCall_spec hidle hpos
  | used => exact usedCall_spec hs hidle
  | pop _ take => exact popCall_spec hidle

/-! ## The theorem -/

/-- First in, first out by records, with nothing changed by a refused push. -/
structure RecordFifo (c : Config Thread RecordRun) : Prop where
  /-- The popped payloads are the first published ones, in push order. -/
  popped : c.mem.popped <+: c.mem.db.records
  /-- So are those of the pushes that returned `1`; only a push under way is not among them. -/
  accepted : c.mem.accepted <+: c.mem.db.records
  all_accepted : c.Idle .asyncio → c.mem.accepted = c.mem.db.records
  /-- A refused push leaves every byte and the tail, and is not refused as full by an empty ring. -/
  refused : ∀ p ∈ c.mem.pushes, p.rc ≠ 1 → p.after = p.before ∧ (p.rc = 0 → p.queued ≠ 0)
  /-- Only a pop moves the head, past the popped records. -/
  head : c.Idle .worker → c.mem.db.head = (c.mem.popped.flatMap recBytes).length
  tail : c.mem.db.tail = (c.mem.db.records.flatMap recBytes).length
  /-- A peek that finds nothing: every push accepted before it began has been popped. -/
  starved : ∀ x ∈ c.mem.starved, x.1 ≤ x.2
  used : c.mem.db.tail - c.mem.db.head ≤ c.mem.db.geo.capacity
  usedSeen : ∀ n ∈ c.mem.usedSeen, n ≤ c.mem.db.geo.capacity

/-- The record ring is an exact FIFO of records under every interleaving of its producer and
consumer. -/
theorem datagramBuf_fifo {capacity maxRecord : UInt32} (hmax : maxRecord.toNat < 2 ^ 30)
    {db : DgramBuf}
    (hcreate : create capacity maxRecord = some db) {c : Config Thread RecordRun}
    (hc : Reachable Menu (init db) c) : RecordFifo c := by
  have hfresh := create_fresh hcreate
  have hinit : Inv (init db) := by
    refine ⟨hfresh.wf, ?_, fun r hr => ?_, List.nil_prefix, List.nil_prefix, nofun, nofun, nofun⟩
    · show dgramRecHdr + db.maxRecord ≤ db.geo.capacity
      rw [hfresh.maxRecord, hfresh.capacity]
      exact le_geo_capacity hmax
    · rw [show (init db).db.records = [] from hfresh.records] at hr
      cases hr
  have hidle : ∀ i : Thread, outline.idle i (init db) := by
    intro i
    cases i with
    | worker => exact hfresh.taken.symm
    | asyncio => exact hfresh.records.symm
  have h := outline.reachable outline_sound hinit hidle hc
  have hinv : Inv c.mem := h.1
  refine ⟨hinv.popped, hinv.accepted, fun ha => h.idle ha, hinv.fair, fun hw => ?_,
    hinv.db.length.symm,
    hinv.starved, ?_, hinv.usedSeen⟩
  · have hidle : WorkerIdle c.mem := h.idle hw
    rw [hinv.db.head, ← hidle, ← List.prefix_iff_eq_take.1 hinv.popped]
  · have := hinv.db.tail_le
    omega

/-- A ring of 16 bytes. -/
def smallRing : DgramBuf where
  buf := fun _ => 0
  geo := ⟨16, 15, ⟨4, by decide, rfl⟩, rfl⟩
  maxRecord := 3
  head := 0
  tail := 0
  drainPending := false
  records := []
  taken := 0

/-- Two records through it, the first popped before the second is pushed. -/
def halfRun : Config Thread RecordRun :=
  (((((Config.start (init smallRing)).call .asyncio (pushCall [1, 2, 3])).drive
    (.replicate 12 .asyncio)).call
    .worker (popCall true)).drive (.replicate 12 .worker)).call .asyncio (pushCall [4, 5]) |>.drive
    (.replicate 12 .asyncio)

/-- A third one, which wraps inside its header, while the worker pops the second. -/
def wrappingRun : Config Thread RecordRun :=
  ((halfRun.call .asyncio (pushCall [6])).call .worker (popCall true)).drive
    ((List.replicate 12 [.asyncio, .worker]).flatten)

theorem halfRun_reachable : Reachable Menu (init smallRing) halfRun := by
  have h : Reachable Menu (init smallRing) (Config.start (init smallRing)) := .refl
  have h₁ := (h.call (i := .asyncio) rfl (.push _ [1, 2, 3] (by decide) (by decide))).drive
    (.replicate 12 .asyncio)
  have h₂ := (h₁.call (i := .worker) rfl (.pop _ true)).drive (.replicate 12 .worker)
  exact (h₂.call (i := .asyncio) rfl (.push _ [4, 5] (by decide) (by decide))).drive
    (.replicate 12 .asyncio)

theorem datagramBuf_fifo_wrappingRun : RecordFifo wrappingRun ∧
    wrappingRun.mem.accepted = [[1, 2, 3], [4, 5], [6]] ∧
    wrappingRun.mem.popped = [[1, 2, 3], [4, 5]] ∧ wrappingRun.mem.db.head = 13 := by
  have hmax : (3 : UInt32).toNat < 2 ^ 30 := by decide
  refine ⟨datagramBuf_fifo hmax (show create 1 3 = some smallRing from rfl) ?_, by decide +kernel,
    by decide +kernel, by decide +kernel⟩
  have h := halfRun_reachable.call (i := .asyncio) (by decide +kernel)
    (.push _ [6] (by decide) (by decide))
  exact (h.call (i := .worker) (by decide +kernel) (.pop _ true)).drive _

end RecordRun

end Aiopquic
