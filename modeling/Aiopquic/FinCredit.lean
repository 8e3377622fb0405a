import Aiopquic.Lib.Atomic
import Aiopquic.RxCredit

/-!
# No credit after the FIN

Both stacks withhold credit once the FIN is recorded on the RX ring. `post_fin` of the WebTransport
stack records every FIN. The raw callback records it only behind the bytes that come with it, so a
FIN without bytes goes by unrecorded, and the credit that the drain of the last bytes notes is still
granted.

`GrantRun` is a stream's receive side with the record of the calls of `picoquic_open_flow_control`.
The drains and the rings are those of `RxCredit`. What a peer may send plays no part here: the
callbacks get any bytes.
-/

namespace Aiopquic

open Interleave Interleave.Prog Circular

/-- A stream's receive side. `closing` is `aiopquic_cnx_closing`. The rest is history: whether the
callback with the FIN has run, and for each call of `picoquic_open_flow_control`, whether it came
after that. -/
structure GrantRun where
  credit : RxCredit
  closing : Bool
  returned : Bool
  grants : List Bool

namespace GrantRun

/-- A stream that nothing was received on. -/
def init (r : CreditSite) (txGeo : Geometry) : GrantRun := ⟨.init r txGeo, false, false, []⟩

/-- The stream and the TX event ring. -/
def creditLoc : Loc GrantRun RxCredit where
  get := (·.credit)
  set := fun credit s => { s with credit := credit }
  get_set := fun _ _ => rfl

/-- The RX ring. -/
def rxLoc : Loc GrantRun StreamBuf := creditLoc.comp RxCredit.rxLoc

/-- The TX event ring. -/
def ringLoc : Loc GrantRun SpscRing := creditLoc.comp RxCredit.ringLoc

/-- `picoquic_open_flow_control`, and what else the step notes. -/
def openFlowControl (grant : ℕ) (note : RxCredit → RxCredit) : Prog GrantRun Unit :=
  modify fun s =>
    { s with
      credit := note (s.credit.openFlowControl grant)
      grants := s.grants ++ [s.returned] }

/-- The grant of the first callback. -/
def firstGrant : Prog GrantRun Unit := do
  let free ← (RxCredit.bufFree id).on creditLoc
  openFlowControl free fun c => { c with granting := false }

/-! ## The callbacks -/

/-- The common body of the callbacks, from the creation of the ring to the first grant. `alloc` says
whether the ring can be created. -/
def receive (r : CreditSite) (alloc : Bool) (data : List UInt8) (fin : Bool) :
    Prog GrantRun Unit := do
  let rx ← load (·.credit.sc.rx)
  if rx.isNone ∧ alloc = false then pure ()
  else do
    when (rx.isNone) <| modify fun s => { s with credit := RxCredit.createRx r s.credit }
    let pushed ← (if data = [] then pure 0 else (StreamBuf.push data).on rxLoc)
    if pushed ≠ data.length then
      modify fun s => { s with credit := { s.credit with overflows := s.credit.overflows + 1 } }
    else do
      when fin <| StreamBuf.setFin.on rxLoc
      when (rx.isNone ∧ fin = false ∧ r.window < r.advertiseCap.toNat) firstGrant

/-- picoquic makes a callback with `data`, and the FIN or not. -/
def callback (data : List UInt8) (fin : Bool) (body : Prog GrantRun Unit) : Prog GrantRun Unit := do
  modify fun s => { s with credit := s.credit.deliver data fin }
  body
  when fin <| modify fun s => { s with returned := true }

/-- The payload branch of `aiopquic_stream_cb`: a closing connection and an empty callback do not
reach it. -/
def receivePayload (r : CreditSite) (alloc : Bool) (data : List UInt8) (fin : Bool) :
    Prog GrantRun Unit := do
  let closing ← load (·.closing)
  if closing = true ∨ data = [] then pure () else receive r alloc data fin

/-- `stream_data` and `stream_fin` in `aiopquic_stream_cb`. -/
def streamCb (r : CreditSite) (alloc : Bool) (data : List UInt8) (fin : Bool) :
    Prog GrantRun Unit :=
  callback data fin (receivePayload r alloc data fin)

/-- `post_data` and `post_fin` in `aiopquic_wt_path_callback`. -/
def pathCallback (r : CreditSite) (alloc : Bool) (data : List UInt8) (fin : Bool) :
    Prog GrantRun Unit :=
  callback data fin (receive r alloc data fin)

/-! ## The credit -/

/-- The handler of `TX_OPEN_FLOW_CONTROL`. -/
def openCredit (r : CreditSite) : Prog GrantRun Unit := do
  let (isNone, fin) ← load fun s => (s.credit.sc.rx.isNone, s.credit.sc.rxBuf.finPending)
  if isNone ∨ fin then pure ()
  else do
    let free ← (RxCredit.bufFree (RxCredit.sample r)).on creditLoc
    let grant ← (RxCredit.effectiveGrant r free).on creditLoc
    when (0 < grant) <| openFlowControl grant id

/-- The TX loop of `aiopquic_loop_cb`, for at most `n` entries, on a live connection. -/
def txDrain (r : CreditSite) : ℕ → Prog GrantRun Unit
  | 0 => pure ()
  | n + 1 => do
    let entry ← SpscRing.peek.on ringLoc
    match entry with
    | none => pure ()
    | some e => do
      when (RxCredit.IsCredit r e) (openCredit r)
      SpscRing.pop.on ringLoc
      txDrain r n

/-! ## Runs -/

/-- The two stacks. -/
inductive Stack
  | raw
  | wt
  deriving DecidableEq, Repr

/-- The callback of a stack. -/
def Stack.cb : Stack → CreditSite → Bool → List UInt8 → Bool → Prog GrantRun Unit
  | .raw => streamCb
  | .wt => pathCallback

/-- What each thread may do on a stream of `stack`: picoquic's callbacks, of which none comes after
the FIN and the one with the FIN is as `ok` says; drains of both rings; the end of the connection;
other commands. -/
inductive Menu (r : CreditSite) (stack : Stack) (ok : GrantRun → List UInt8 → Prop) :
    Thread → GrantRun → Prog GrantRun Unit → Prop
  | cb (s : GrantRun) (alloc : Bool) (data : List UInt8) (fin : Bool)
    (hfin : s.credit.finished = false)
      (hok : fin = true → ok s data) : Menu r stack ok .worker s (stack.cb r alloc data fin)
  | txDrain (s : GrantRun) (n : ℕ) : Menu r stack ok .worker s (txDrain r n)
  | close (s : GrantRun) : Menu r stack ok .worker s (modify fun s => { s with closing := true })
  | drain (s : GrantRun) (n : ℕ) : Menu r stack ok .asyncio s ((RxCredit.drain r n).on creditLoc)
  | command (s : GrantRun) (e : Entry) (data : List UInt8) :
      Menu r stack ok .asyncio s ((RxCredit.commandCall e data).on creditLoc)

/-- The RX ring, or the one that will be made, has room for `data`. -/
def Fits (r : CreditSite) (s : GrantRun) (data : List UInt8) : Prop :=
  s.credit.sc.rxBuf.tail + data.length ≤ s.credit.sc.rxBuf.head +
    if s.credit.sc.rx.isNone then r.cap else s.credit.sc.rxBuf.geo.capacity

instance (r : CreditSite) (s : GrantRun) (data : List UInt8) : Decidable (Fits r s data) :=
  inferInstanceAs (Decidable (_ ≤ _))

/-- The callback with the FIN and `data` records the FIN, or finds no ring and makes none. -/
def Records (r : CreditSite) (stack : Stack) (s : GrantRun) (data : List UInt8) : Prop :=
  match stack with
  | .raw => if s.closing = true ∨ data = [] then s.credit.sc.rx = none else Fits r s data
  | .wt => Fits r s data

/-! ## The proof outline -/

/-- A ring that is there knows of the FIN. -/
def Sealed (s : GrantRun) : Prop := s.credit.sc.rx.isSome = true → s.credit.sc.rxBuf.finPending =
    true

/-- What holds between any two steps. -/
structure Inv (s : GrantRun) : Prop where
  rx : s.credit.sc.rxBuf.Wf
  returned : s.returned = true → s.credit.finished = true ∧ Sealed s
  grants : ∀ g ∈ s.grants, g = false

/-- A step of the worker, as the asyncio thread sees it. -/
def WorkerMoves (s s' : GrantRun) : Prop := StreamCtx.RxFeeds s.credit.sc s'.credit.sc

/-- What concerns the worker alone. -/
structure Same (s s' : GrantRun) : Prop where
  finished : s'.credit.finished = s.credit.finished
  closing : s'.closing = s.closing
  returned : s'.returned = s.returned
  grants : s'.grants = s.grants

/-- A step of the asyncio thread, as the worker sees it. -/
structure AsyncioMoves (s s' : GrantRun) : Prop extends Same s s' where
  isSome : s'.credit.sc.rx.isSome = s.credit.sc.rx.isSome
  buf : StreamBuf.ConsumerMoves s.credit.sc.rxBuf s'.credit.sc.rxBuf

variable {r : CreditSite} {stack : Stack} {ok : GrantRun → List UInt8 → Prop} {s s' u : GrantRun}

theorem WorkerMoves.refl (s : GrantRun) : WorkerMoves s s := StreamCtx.RxFeeds.refl _

theorem WorkerMoves.trans (h : WorkerMoves s s') (h' : WorkerMoves s' u) : WorkerMoves s u :=
  StreamCtx.RxFeeds.trans h h'

theorem AsyncioMoves.refl (s : GrantRun) : AsyncioMoves s s := ⟨⟨rfl, rfl, rfl, rfl⟩, rfl, .refl _⟩

theorem AsyncioMoves.trans (h : AsyncioMoves s s') (h' : AsyncioMoves s' u) : AsyncioMoves s u :=
  ⟨⟨h'.finished.trans h.finished, h'.closing.trans h.closing, h'.returned.trans h.returned,
    h'.grants.trans h.grants⟩, h'.isSome.trans h.isSome, h.buf.trans h'.buf⟩

/-- The rely–guarantee outline. Neither thread knows anything more outside its operations. -/
def outline (r : CreditSite) (stack : Stack) (ok : GrantRun → List UInt8 → Prop) :
    Outline (Menu r stack ok) :=
  duo Inv WorkerMoves AsyncioMoves (fun _ => True) (fun _ => True) .refl .trans .refl .trans
    (fun _ _ _ => trivial) fun _ _ _ => trivial

/-- The worker's contract. -/
def worker (r : CreditSite) (stack : Stack) (ok : GrantRun → List UInt8 → Prop) :
    Contract GrantRun :=
  (outline r stack ok).contract .worker

/-- The asyncio thread's contract. -/
def asyncio (r : CreditSite) (stack : Stack) (ok : GrantRun → List UInt8 → Prop) :
    Contract GrantRun :=
  (outline r stack ok).contract .asyncio

/-! ### The worker -/

/-- The FIN's callback has not run, and picoquic has delivered the FIN or not. -/
structure Before (fin : Bool) (s : GrantRun) : Prop where
  returned : s.returned = false
  finished : s.credit.finished = fin

theorem Before.stable {fin : Bool} (h : Before fin s) (hm : AsyncioMoves s s') : Before fin s' :=
  ⟨hm.returned.trans h.returned, hm.finished.trans h.finished⟩

theorem Inv.before {fin : Bool} (h : Before fin s) (hrx : s.credit.sc.rxBuf.Wf)
    (hgrants : ∀ g ∈ s.grants, g = false) : Inv s :=
  ⟨hrx, fun hr => by simp [h.returned] at hr, hgrants⟩

/-- A computation of a grant reads the stream. -/
def Computes (c c' : RxCredit) : Prop := c'.sc = c.sc ∧ c'.finished = c.finished

/-- Before the FIN's callback has run, a grant is not late. -/
theorem openFlowControl_spec {fin : Bool} (grant : ℕ) {note : RxCredit → RxCredit}
    (hnote : ∀ c, Computes c (note c)) (h : Before fin s) :
    wp (worker r stack ok) (openFlowControl grant note) (fun _ => Before fin) s := by
  refine wp_modify fun t hst ht => ?_
  have hb := h.stable hst
  have hi : Inv t := ht
  obtain ⟨hsc, hfinished⟩ := hnote (t.credit.openFlowControl grant)
  have hsc : (note (t.credit.openFlowControl grant)).sc = t.credit.sc := hsc
  refine ⟨?_, .before ⟨hb.returned, hfinished.trans hb.finished⟩ ?_ fun g hg => ?_, hb.returned,
    hfinished.trans hb.finished⟩
  · show StreamCtx.RxFeeds t.credit.sc (note (t.credit.openFlowControl grant)).sc
    rw [hsc]
    exact .refl _
  · show (note (t.credit.openFlowControl grant)).sc.rxBuf.Wf
    rw [hsc]
    exact hi.rx
  rcases List.mem_append.1 hg with hg | hg
  · exact hi.grants g hg
  · rw [List.mem_singleton.1 hg, hb.returned]

theorem bufFree_computes {note : RxCredit → RxCredit} (h : ∀ c, Computes c (note c)) :
    Only Computes (RxCredit.bufFree note) :=
  only_bind (only_load fun _ => ⟨rfl, rfl⟩) fun _ => only_bind (only_rmw h) fun _ => trivial

theorem effectiveGrant_computes (free : ℕ) : Only Computes (RxCredit.effectiveGrant r free) := by
  unfold RxCredit.effectiveGrant
  split
  · trivial
  · exact only_bind (only_rmw fun _ => ⟨rfl, rfl⟩) fun _ => trivial

theorem computes_spec {fin : Bool} {p : Prog RxCredit ℕ} (hp : Only Computes p) (h : Before fin s) :
    wp (worker r stack ok) (p.on creditLoc) (fun _ => Before fin) s := by
  refine wp_only hp.on h (fun _ _ hb hm _ => hb.stable hm) ?_
  rintro t _ ht hb ⟨c, ⟨hsc, hfinished⟩, rfl⟩
  have hi : Inv t := ht
  have hb' : Before fin (creditLoc.set c t) := ⟨hb.returned, hfinished.trans hb.finished⟩
  have hfeeds : StreamCtx.RxFeeds t.credit.sc c.sc := by
    rw [show c.sc = t.credit.sc from hsc]
    exact .refl _
  have hrx : c.sc.rxBuf.Wf := by
    rw [show c.sc = t.credit.sc from hsc]
    exact hi.rx
  exact ⟨hfeeds, .before hb' hrx hi.grants, hb'⟩

/-- A credit is granted only if the ring knows of no FIN, so before the FIN's callback has run. -/
theorem openCredit_spec : wp (worker r stack ok) (openCredit r) (fun _ _ => True) s := by
  unfold openCredit
  refine wp_load_bind fun t _ ht => ?_
  have hi : Inv t := ht
  dsimp only
  split
  · trivial
  rename_i hno
  rw [not_or] at hno
  have hb : Before t.credit.finished t := by
    refine ⟨?_, rfl⟩
    by_contra hr
    have hsealed := (hi.returned (by simpa using hr)).2
    exact hno.2 (hsealed (Option.isSome_iff_ne_none.2 (by simpa using hno.1)))
  refine wp_seq (computes_spec (bufFree_computes fun _ => ⟨rfl, rfl⟩) hb) hi fun free u hu hb => ?_
  refine wp_seq (computes_spec (effectiveGrant_computes free) hb) hu fun grant v hv hb => ?_
  unfold Prog.when
  split
  · exact wp_mono (openFlowControl_spec grant (fun _ => ⟨rfl, rfl⟩) hb) hv fun _ _ _ _ => trivial
  · trivial

/-- An access to the TX event ring leaves the stream alone. -/
theorem ring_spec {α : Type} (p : Prog SpscRing α) :
    wp (worker r stack ok) (p.on ringLoc) (fun _ _ => True) s := by
  refine wp_only (only_on p) trivial (fun _ _ _ _ _ => trivial) ?_
  rintro t _ ht - ⟨ring, rfl⟩
  have hi : Inv t := ht
  exact ⟨WorkerMoves.refl t, ⟨hi.rx, hi.returned, hi.grants⟩, trivial⟩

theorem txDrain_spec (n : ℕ) (hs : Inv s) :
    wp (worker r stack ok) (txDrain r n) (fun _ _ => True) s := by
  induction n generalizing s with
  | zero => trivial
  | succ n ih =>
    unfold txDrain
    refine wp_seq (ring_spec _) hs fun entry t ht _ => ?_
    cases entry with
    | none => trivial
    | some e =>
      have hpop : ∀ u, Inv u → wp (worker r stack ok) (do SpscRing.pop.on ringLoc; txDrain r n)
          (fun _ _ => True) u := fun u hu => wp_seq (ring_spec _) hu fun _ v hv _ => ih hv
      refine wp_when_bind (fun _ => ?_) fun _ => hpop t ht
      exact wp_seq openCredit_spec ht fun _ u hu _ => hpop u hu

/-! ### A callback -/

/-- The room can only grow. -/
theorem Fits.stable {data : List UInt8} (h : Fits r s data) (hm : AsyncioMoves s s') :
    Fits r s' data := by
  have hhead := hm.buf.head_le
  have hnone : s.credit.sc.rx.isNone = s'.credit.sc.rx.isNone := by
    rw [← Option.not_isSome, ← Option.not_isSome, hm.isSome]
  rw [Fits, hnone] at h
  rw [Fits, hm.buf.tail, hm.buf.geo]
  omega

theorem Records.stable {data : List UInt8} (h : Records r stack s data) (hm : AsyncioMoves s s') :
    Records r stack s' data := by
  cases stack with
  | wt => exact Fits.stable h hm
  | raw =>
    rw [Records] at h ⊢
    rw [hm.closing]
    split at h
    · rename_i hskip
      rw [if_pos hskip, ← Option.not_isSome_iff_eq_none, hm.isSome, Option.not_isSome_iff_eq_none]
      exact h
    · rename_i hskip
      rw [if_neg hskip]
      exact Fits.stable h hm

/-- A callback that has made sure of the ring. -/
structure Stocked (fin : Bool) (s : GrantRun) : Prop extends Before fin s where
  isSome : s.credit.sc.rx.isSome = true

theorem Stocked.stable {fin : Bool} (h : Stocked fin s) (hm : AsyncioMoves s s') : Stocked fin s' :=
  ⟨h.toBefore.stable hm, hm.isSome.trans h.isSome⟩

/-- The worker adds to the ring. -/
theorem feed_step {fin : Bool} (hs : Inv s) (h : Stocked fin s) {b : StreamBuf}
    (hm : StreamBuf.ProducerMoves s.credit.sc.rxBuf b) (hb : b.Wf) :
    WorkerMoves s (rxLoc.set b s) ∧ Inv (rxLoc.set b s) ∧ Stocked fin (rxLoc.set b s) := by
  have hb' : Before fin (rxLoc.set b s) := ⟨h.returned, h.finished⟩
  exact ⟨⟨fun _ => rfl, fun _ => hm, hm.head, hm.writes, rfl, rfl⟩, .before hb' hb hs.grants, hb',
    rfl⟩

/-- The ring while a callback pushes to it. -/
theorem embeds_push (fin : Bool) :
    Embeds (worker r stack ok) rxLoc (StreamBuf.producer fun _ _ => True) (Stocked fin) where
  inv := fun _ hs => hs.rx
  rely := fun _ _ h hm _ => ⟨hm.buf, h.stable hm⟩
  step := fun _ _ hs h hstep hb => feed_step hs h hstep.moves hb

/-- The ring takes all of the data if it has room. -/
theorem push_spec {fin : Bool} {data : List UInt8} (h : Stocked fin s) (hs : Inv s) :
    wp (worker r stack ok) (if data = [] then pure 0 else (StreamBuf.push data).on rxLoc)
      (fun pushed t => Stocked fin t ∧ (s.credit.sc.rxBuf.tail + data.length ≤
        s.credit.sc.rxBuf.head + s.credit.sc.rxBuf.geo.capacity → pushed = data.length)) s := by
  split
  · rename_i hnil
    exact ⟨h, fun _ => by simp [hnil]⟩
  rename_i hne
  refine wp_mono (wp_on (embeds_push fin) h (StreamBuf.push_spec hne fun _ _ _ _ _ _ => trivial)) hs
    fun pushed t _ hpost => ?_
  obtain ⟨⟨hd, hle, -, hpushed, -⟩, hst⟩ := hpost
  refine ⟨hst, fun hroom => ?_⟩
  have hle' : s.credit.sc.rxBuf.head ≤ hd := hle
  have hpushed' : pushed = min data.length
      (s.credit.sc.rxBuf.geo.capacity - (s.credit.sc.rxBuf.tail - hd)) := hpushed
  have := hs.rx.head_le
  omega

/-- What follows the push: the FIN is recorded, or the first grant made. -/
theorem receive_rest_spec {fin first : Bool} (h : Stocked fin s) (hs : Inv s) :
    wp (worker r stack ok) (do
      when fin <| StreamBuf.setFin.on rxLoc
      when (first ∧ fin = false ∧ r.window < r.advertiseCap.toNat) firstGrant)
      (fun _ t => Before fin t ∧ (fin = true → Sealed t)) s := by
  cases fin with
  | true =>
    refine wp_when_bind (fun _ => ?_) fun hne => absurd rfl hne
    rw [StreamBuf.setFin, Prog.on_modify]
    refine wp_modify_bind fun t hst ht => ?_
    have hstocked := h.stable hst
    have hi : Inv t := ht
    obtain ⟨hmoves, hinv, hst'⟩ := feed_step hi hstocked
      (b := { t.credit.sc.rxBuf with finPending := true })
        ⟨rfl, rfl, rfl, List.prefix_rfl, fun _ => rfl⟩
      ⟨hi.rx.window, hi.rx.length⟩
    refine ⟨hmoves, hinv, ?_⟩
    rw [Prog.when, if_neg (by simp)]
    exact ⟨hst'.toBefore, fun _ _ => rfl⟩
  | false =>
    refine wp_when_bind (fun hne => absurd hne (by simp)) fun _ => ?_
    unfold Prog.when
    split
    · refine wp_seq (computes_spec (bufFree_computes fun _ => ⟨rfl, rfl⟩) h.toBefore) hs
        fun free t ht hb => ?_
      exact wp_mono (openFlowControl_spec free (fun _ => ⟨rfl, rfl⟩) hb) ht fun _ _ _ hb =>
        ⟨hb, fun hf => absurd hf (by simp)⟩
    · exact ⟨h.toBefore, fun hf => absurd hf (by simp)⟩

/-- The first callback creates the ring. -/
theorem createRx_step {fin : Bool} (h : Before fin s) (hs : Inv s) (hnone : s.credit.sc.rx = none) :
    let s' := { s with credit := RxCredit.createRx r s.credit }
    WorkerMoves s s' ∧ Inv s' ∧ Stocked fin s' := by
  have hbuf : s.credit.sc.rxBuf = StreamCtx.noBuf := by
    rw [StreamCtx.rxBuf, hnone]
    rfl
  have hb : Before fin { s with credit := RxCredit.createRx r s.credit } := ⟨h.returned, h.finished⟩
  have hinv := Inv.before hb (StreamBuf.create_wf _ _) hs.grants
  refine ⟨⟨fun _ => rfl, fun hsome => ?_, ?_, ?_, rfl, rfl⟩, hinv, hb, rfl⟩
  · rw [hnone] at hsome
    exact absurd hsome (by simp)
  · rw [hbuf]
    rfl
  · rw [StreamCtx.rxWrites, hbuf]
    exact List.nil_prefix

/-- A callback whose bytes fit records its FIN. -/
theorem receive_spec {alloc fin : Bool} {data : List UInt8} (h : Before fin s) :
    wp (worker r stack ok) (receive r alloc data fin)
      (fun _ t => Before fin t ∧ (fin = true → Fits r s data → Sealed t)) s := by
  unfold receive
  refine wp_load_bind fun t hst ht => ?_
  have hst' : AsyncioMoves s t := hst
  have hi : Inv t := ht
  have hb := h.stable hst'
  have hfits : Fits r s data → Fits r t data := fun hf => hf.stable hst'
  split
  · -- there is no ring and none is made
    rename_i hno
    refine ⟨hb, fun _ _ hsome => ?_⟩
    rw [← Option.not_isSome, hsome] at hno
    exact absurd hno.1 (by simp)
  -- the rest, once the ring is there
  have hrest : ∀ u, Inv u → Stocked fin u → (Fits r s data → u.credit.sc.rxBuf.tail + data.length ≤
      u.credit.sc.rxBuf.head + u.credit.sc.rxBuf.geo.capacity) →
      wp (worker r stack ok) (do
        let pushed ← (if data = [] then pure 0 else (StreamBuf.push data).on rxLoc)
        if pushed ≠ data.length then
          modify fun s => { s with credit := { s.credit with overflows := s.credit.overflows + 1 } }
        else do
          when fin <| StreamBuf.setFin.on rxLoc
          when (t.credit.sc.rx.isNone ∧ fin = false ∧ r.window < r.advertiseCap.toNat) firstGrant)
        (fun _ t => Before fin t ∧ (fin = true → Fits r s data → Sealed t)) u := by
    intro u hu hst hroom
    refine wp_seq (push_spec hst hu) hu fun pushed v hv hpushed => ?_
    split
    · rename_i hne
      refine wp_modify fun w hvw hw => ?_
      have hb := hpushed.1.toBefore.stable hvw
      have hi : Inv w := hw
      exact ⟨WorkerMoves.refl w, .before ⟨hb.returned, hb.finished⟩ hi.rx hi.grants,
        ⟨hb.returned, hb.finished⟩, fun _ hf => absurd (hpushed.2 (hroom hf)) hne⟩
    · exact wp_mono (receive_rest_spec hpushed.1 hv) hv fun _ w _ hw => ⟨hw.1, fun hf _ => hw.2 hf⟩
  refine wp_when_bind (fun hnone => ?_) fun hsome => ?_
  · refine wp_modify_bind fun u htu hu => ?_
    have htu' : AsyncioMoves t u := htu
    have hui : Inv u := hu
    have hnone' : u.credit.sc.rx = none := by
      rw [← Option.not_isSome_iff_eq_none, htu'.isSome, Option.not_isSome_iff_eq_none]
      simpa using hnone
    obtain ⟨hmoves, hinv, hst⟩ := createRx_step (r := r) (hb.stable htu') hui hnone'
    refine ⟨hmoves, hinv, hrest _ hinv hst fun hf => ?_⟩
    have hroom := hfits hf
    have hbuf : t.credit.sc.rxBuf = StreamCtx.noBuf := by
      rw [StreamCtx.rxBuf, show t.credit.sc.rx = none by simpa using hnone]
      rfl
    rw [Fits, if_pos hnone, hbuf] at hroom
    exact hroom
  · have hsome' : t.credit.sc.rx.isSome = true := Option.isSome_iff_ne_none.2 (by simpa using hsome)
    refine hrest t hi ⟨hb, hsome'⟩ fun hf => ?_
    have := hfits hf
    rw [Fits, if_neg hsome] at this
    exact this

/-- What a callback does in between. -/
def Stack.body : Stack → CreditSite → Bool → List UInt8 → Bool → Prog GrantRun Unit
  | .raw => receivePayload
  | .wt => receive

theorem cb_eq (alloc : Bool) (data : List UInt8) (fin : Bool) :
    stack.cb r alloc data fin = callback data fin (stack.body r alloc data fin) := by
  cases stack <;> rfl

/-- The body of a callback records the FIN where `Records` says so. -/
theorem body_spec {alloc fin : Bool} {data : List UInt8} (h : Before fin s) (hs : Inv s)
    (hok : fin = true → Records r stack s data) :
    wp (worker r stack ok) (stack.body r alloc data fin)
      (fun _ t => Before fin t ∧ (fin = true → Sealed t)) s := by
  cases stack with
  | wt => exact wp_mono (receive_spec h) hs fun _ t _ ht => ⟨ht.1, fun hf => ht.2 hf (hok hf)⟩
  | raw =>
    refine wp_load_bind fun t hst ht => ?_
    have hst' : AsyncioMoves s t := hst
    have hok' := fun hf => (hok hf).stable hst'
    unfold Records at hok'
    split
    · rename_i hskip
      rw [if_pos hskip] at hok'
      refine ⟨h.stable hst', fun hf hsome => ?_⟩
      rw [hok' hf] at hsome
      exact absurd hsome (by simp)
    · rename_i hskip
      rw [if_neg hskip] at hok'
      exact wp_mono (receive_spec (h.stable hst')) ht fun _ u _ hu =>
        ⟨hu.1, fun hf => hu.2 hf (hok' hf)⟩

/-- A callback with a FIN that it records leaves the ring sealed. -/
theorem cb_spec {alloc fin : Bool} {data : List UInt8} (hfinished : s.credit.finished = false)
    (hok : fin = true → Records r stack s data) :
    wp (worker r stack ok) (stack.cb r alloc data fin) (fun _ _ => True) s := by
  rw [cb_eq, callback]
  refine wp_modify_bind fun t hst ht => ?_
  have hst' : AsyncioMoves s t := hst
  have hi : Inv t := ht
  have hfinished' : t.credit.finished = false := hst'.finished.trans hfinished
  have hreturned : t.returned = false := by
    by_contra hr
    rw [(hi.returned (by simpa using hr)).1] at hfinished'
    exact absurd hfinished' (by simp)
  have hb : Before fin { t with credit := t.credit.deliver data fin } := by
    refine ⟨hreturned, ?_⟩
    show (t.credit.finished || fin) = fin
    rw [hfinished', Bool.false_or]
  have hinv : Inv { t with credit := t.credit.deliver data fin } := .before hb hi.rx hi.grants
  have hok' : fin = true → Records r stack { t with credit := t.credit.deliver data fin } data :=
    fun hf => by
    have := (hok hf).stable hst'
    cases stack <;> exact this
  refine ⟨WorkerMoves.refl t, hinv, wp_seq (body_spec hb hinv hok') hinv fun _ u hu h => ?_⟩
  unfold Prog.when
  split
  · rename_i hfin
    refine wp_modify fun v huv hv => ?_
    have huv' : AsyncioMoves u v := huv
    have hsealed : Sealed v := fun hsome => by
      rw [huv'.buf.fin]
      exact h.2 hfin (huv'.isSome.symm.trans hsome)
    have hvi : Inv v := hv
    exact ⟨WorkerMoves.refl v,
      ⟨hvi.rx, fun _ => ⟨(h.1.stable huv').finished.trans hfin, hsealed⟩, hvi.grants⟩,
      trivial⟩
  · trivial

/-! ### The asyncio thread -/

/-- What the stream looks like to a drain. -/
def drainer : Contract RxCredit where
  inv := fun c => c.sc.rxBuf.Wf
  rely := fun c c' => StreamCtx.RxFeeds c.sc c'.sc
  guar := fun c c' => c'.finished = c.finished ∧ c'.sc.rx.isSome = c.sc.rx.isSome ∧
    StreamBuf.ConsumerMoves c.sc.rxBuf c'.sc.rxBuf
  rely_refl := fun _ => .refl _
  rely_trans := .trans
  guar_refl := fun _ => ⟨rfl, rfl, .refl _⟩

/-- The context while a drain pops. -/
theorem embeds_receiver (base : ℕ) :
    Embeds drainer RxCredit.scLoc (StreamCtx.receiver base) (fun _ => True) where
  inv := fun _ h => h
  rely := fun _ _ _ hm _ => ⟨hm, trivial⟩
  step := fun _ _ _ _ hstep hwf => ⟨⟨rfl, hstep.pops.isSome, hstep.pops.buf⟩, hwf, trivial⟩

theorem drainEntries_spec (n : ℕ) {noted : Bool} {c : RxCredit} (hc : c.sc.rxBuf.Wf) :
    wp drainer (RxCredit.drainEntries n noted) (fun _ _ => True) c := by
  induction n generalizing c noted with
  | zero => trivial
  | succ n ih =>
    unfold RxCredit.drainEntries
    have hpop := wp_on (embeds_receiver (c.sc.rxConsumed + c.sc.bytesPendingRelease)) trivial
      (StreamCtx.popRx_spec hc (Nat.le_add_left _ _))
    exact wp_seq hpop hc fun _ d hd _ => ih hd

/-- Neither a push nor the mark of a credit concerns the RX ring. -/
theorem spec_of_only {α : Type} {p : Prog RxCredit α} {c : RxCredit}
    (hp : Only (fun c c' => c'.finished = c.finished ∧ c'.sc.rx = c.sc.rx) p) :
    wp drainer p (fun _ _ => True) c := by
  refine wp_only hp trivial (fun _ _ _ _ _ => trivial) ?_
  rintro c c' hc - ⟨hfinished, hrx⟩
  have hbuf : c'.sc.rxBuf = c.sc.rxBuf := by rw [StreamCtx.rxBuf, hrx, StreamCtx.rxBuf]
  refine ⟨⟨hfinished, by rw [hrx], by rw [hbuf]; exact .refl _⟩, ?_, trivial⟩
  show c'.sc.rxBuf.Wf
  rw [hbuf]
  exact hc

theorem push_only {α : Type} (p : Prog SpscRing α) :
    Only (fun c c' : RxCredit => c'.finished = c.finished ∧ c'.sc.rx = c.sc.rx)
    (p.on RxCredit.ringLoc) :=
  only_mono (only_on p) fun _ _ ⟨_, h⟩ => by rw [h]; exact ⟨rfl, rfl⟩

theorem pushFcCredit_only :
    Only (fun c c' : RxCredit => c'.finished = c.finished ∧ c'.sc.rx = c.sc.rx)
    (RxCredit.pushFcCredit r) := by
  unfold RxCredit.pushFcCredit
  refine only_bind (only_load fun _ => ⟨rfl, rfl⟩) fun consumed =>
    only_bind (only_load fun _ => ⟨rfl, rfl⟩) fun lastPush => ?_
  split
  · trivial
  · exact only_bind (only_modify fun _ => ⟨rfl, rfl⟩) fun _ =>
      only_bind (push_only _) fun _ => only_modify fun _ => ⟨rfl, rfl⟩

theorem drain_spec (n : ℕ) {c : RxCredit} (hc : c.sc.rxBuf.Wf) :
    wp drainer (RxCredit.drain r n) (fun _ _ => True) c := by
  unfold RxCredit.drain
  refine wp_seq (drainEntries_spec n hc) hc fun noted d _ _ => ?_
  exact spec_of_only (only_when pushFcCredit_only)

theorem commandCall_spec {e : Entry} {data : List UInt8} {c : RxCredit} :
    wp drainer (RxCredit.commandCall e data) (fun _ _ => True) c :=
  spec_of_only (only_bind (push_only _) fun _ => trivial)

/-- The stream under the asyncio thread. -/
theorem embeds_drainer : Embeds (asyncio r stack ok) creditLoc drainer (fun _ => True) where
  inv := fun _ hs => hs.rx
  rely := fun _ _ _ hm _ => ⟨hm, trivial⟩
  step := by
    rintro s c hs - ⟨hfinished, hsome, hbuf⟩ hwf
    have hi : Inv s := hs
    refine ⟨⟨⟨hfinished, rfl, rfl, rfl⟩, hsome, hbuf⟩,
      ⟨hwf, fun hr => ⟨?_, fun h => ?_⟩, hi.grants⟩, trivial⟩
    · exact hfinished.trans (hi.returned hr).1
    · exact hbuf.fin.trans ((hi.returned hr).2 (hsome.symm.trans h))

theorem asyncio_spec {p : Prog RxCredit Unit} (hs : Inv s)
    (h : wp drainer p (fun _ _ => True) s.credit) :
    wp (asyncio r stack ok) (p.on creditLoc) (fun _ _ => True) s :=
  wp_mono (wp_on embeds_drainer trivial h) hs fun _ _ _ _ => trivial

/-! ## Every run -/

theorem outline_sound (r : CreditSite) (stack : Stack) :
    (outline r stack (Records r stack)).Sound := by
  rintro i s p hs - hp
  cases hp with
  | cb _ alloc data fin hfin hok => exact cb_spec hfin hok
  | txDrain _ n => exact txDrain_spec n hs
  | close _ =>
    refine wp_modify fun t _ ht => ?_
    have hi : Inv t := ht
    exact ⟨WorkerMoves.refl t, ⟨hi.rx, hi.returned, hi.grants⟩, trivial⟩
  | drain _ n => exact asyncio_spec hs (drain_spec n hs.rx)
  | command _ e data => exact asyncio_spec hs commandCall_spec

theorem init_inv (r : CreditSite) (txGeo : Geometry) : Inv (init r txGeo) :=
  ⟨StreamBuf.create_wf 0 false, fun h => absurd h (by simp [init]), fun g hg =>
    absurd hg (by simp [init])⟩

/-- On either stack, in every run in which the FIN's callback records the FIN, or finds no ring and
makes none, credit is never granted after that callback. -/
theorem no_grant_after_fin (r : CreditSite) (stack : Stack) (txGeo : Geometry)
    {c : Config Thread GrantRun}
    (hc : Reachable (Menu r stack (Records r stack)) (init r txGeo) c) :
    ∀ g ∈ c.mem.grants, g = false := by
  have h := (outline r stack (Records r stack)).reachable (outline_sound r stack) (init_inv r txGeo)
    (fun i => by cases i <;> trivial) hc
  have hinv : Inv c.mem := h.1
  exact hinv.grants

/-- A stream with a ring and a window of sixteen bytes. -/
def grantSite : CreditSite := ⟨1, 4, 9, 16, 16, false, false⟩

/-- The peer fills its window. -/
def filledRun (stack : Stack) : Config Thread GrantRun :=
  (Config.start (init grantSite (.ofExp 1 Geometry.exp_one))).call .worker
    (stack.cb grantSite true (.replicate 16 0) false) |>.drive (.replicate 12 .worker)

/-- Its FIN comes without bytes. A drain pops the bytes and notes a credit, which the worker
handles. -/
def emptyFinRun (stack : Stack) : Config Thread GrantRun :=
  (filledRun stack).call .worker (stack.cb grantSite true [] true) |>.drive (.replicate 12 .worker)
    |>.call .asyncio ((RxCredit.drain grantSite 1).on creditLoc) |>.drive (.replicate 24 .asyncio)
    |>.call .worker (txDrain grantSite 2) |>.drive (.replicate 16 .worker)

theorem emptyFinRun_reachable (hok : ok (filledRun stack).mem []) :
    Reachable (Menu grantSite stack ok) (init grantSite (.ofExp 1 (by decide)))
    (emptyFinRun stack) := by
  have h₀ : Reachable (Menu grantSite stack ok) (init grantSite (.ofExp 1 (by decide)))
      (Config.start (init grantSite (.ofExp 1 (by decide)))) := .refl
  have h₁ : Reachable (Menu grantSite stack ok) _ (filledRun stack) :=
    (h₀.call (i := .worker) (by decide +kernel)
      (.cb _ true (.replicate 16 0) false rfl (by simp))).drive (.replicate 12 .worker)
  have h₂ := (h₁.call (i := .worker) (by cases stack <;> decide +kernel)
    (.cb _ true [] true (by cases stack <;> decide +kernel) fun _ => hok)).drive
      (.replicate 12 .worker)
  have h₃ := (h₂.call (i := .asyncio) (by cases stack <;> decide +kernel) (.drain _ 1)).drive
    (.replicate 24 .asyncio)
  exact (h₃.call (i := .worker) (by cases stack <;> decide +kernel) (.txDrain _ 2)).drive
    (.replicate 16 .worker)

/-- The WebTransport stack records the FIN, and the credit is withheld. -/
theorem no_grant_after_fin_emptyFinRun : (emptyFinRun .wt).mem.returned = true ∧
    (emptyFinRun .wt).mem.credit.ring.head = 1 ∧ ∀ g ∈ (emptyFinRun .wt).mem.grants, g = false :=
  ⟨by decide +kernel, by decide +kernel, no_grant_after_fin grantSite .wt _
    (emptyFinRun_reachable (show Fits grantSite (filledRun .wt).mem [] by decide +kernel))⟩

/-- The raw stack does not, and the credit is granted after the FIN. -/
theorem grant_after_empty_fin : ¬ ∀ (r : CreditSite) (stack : Stack) (txGeo : Geometry)
    (c : Config Thread GrantRun), Reachable (Menu r stack fun _ _ => True) (init r txGeo) c →
    ∀ g ∈ c.mem.grants, g = false := by
  intro h
  have hgrants : (emptyFinRun .raw).mem.grants = [true] := by decide +kernel
  have := h grantSite .raw _ _ (emptyFinRun_reachable trivial) true (by simp [hgrants])
  exact absurd this (by simp)

/-! ## The same programs without the record -/

/-- Run alone and with the record forgotten, `p` is `q`. -/
def Erases {α : Type} (p : Prog GrantRun α) (q : Prog RxCredit α) : Prop :=
  ∀ s, (p.exec s).1 = (q.exec s.credit).1 ∧ (p.exec s).2.credit = (q.exec s.credit).2

section Erases

variable {α β : Type} {p : Prog GrantRun α} {q : Prog RxCredit α}

theorem erases_pure (a : α) : Erases (pure a) (pure a) := fun _ => ⟨rfl, rfl⟩

theorem erases_modify {f : GrantRun → GrantRun} {g : RxCredit → RxCredit}
    (h : ∀ s, (f s).credit = g s.credit) : Erases (modify f) (modify g) := fun s => ⟨rfl, h s⟩

theorem erases_load (g : RxCredit → α) : Erases (load fun s => g s.credit) (load g) :=
  fun _ => ⟨rfl, rfl⟩

theorem erases_on (q : Prog RxCredit α) : Erases (q.on creditLoc) q := fun s => by
  rw [Prog.exec_on creditLoc (fun _ _ _ => rfl) (fun _ => rfl)]
  exact ⟨rfl, rfl⟩

theorem erases_bind {k : α → Prog GrantRun β} {l : α → Prog RxCredit β} (h : Erases p q)
    (hk : ∀ a, Erases (k a) (l a)) : Erases (p >>= k) (q >>= l) := fun s => by
  rw [Prog.exec_bind, Prog.exec_bind, (h s).1, ← (h s).2]
  exact hk _ _

theorem erases_when {c : Prop} [Decidable c] {p : Prog GrantRun Unit} {q : Prog RxCredit Unit}
    (h : Erases p q) : Erases (when c p) (when c q) := by
  unfold Prog.when
  split
  · exact h
  · exact erases_pure ()

end Erases

theorem receive_erases (data : List UInt8) (fin : Bool) :
    Erases (receive r true data fin) (RxCredit.receive r data fin) := by
  unfold receive RxCredit.receive
  refine erases_bind (erases_load fun c => c.sc.rx) fun rx => ?_
  rw [if_neg (by simp)]
  refine erases_bind (erases_when (erases_modify fun _ => rfl)) fun _ => erases_bind ?_
    fun pushed => ?_
  · split
    · exact erases_pure 0
    · rw [rxLoc, ← Prog.on_on]
      exact erases_on _
  · split
    · exact erases_modify fun _ => rfl
    · refine erases_bind (erases_when ?_) fun _ => erases_when ?_
      · rw [rxLoc, ← Prog.on_on]
        exact erases_on _
      · exact erases_bind (erases_on _) fun free => erases_modify fun _ => rfl

/-- The handler of a credit is that of `RxCredit`. -/
theorem openCredit_erases : Erases (openCredit r) (RxCredit.openCredit r) := by
  unfold openCredit RxCredit.openCredit
  refine erases_bind (erases_load fun c => (c.sc.rx.isNone, c.sc.rxBuf.finPending))
    fun ⟨isNone, fin⟩ => ?_
  dsimp only
  split
  · exact erases_pure ()
  · exact erases_bind (erases_on _) fun free => erases_bind (erases_on _) fun grant =>
      erases_when (erases_modify fun _ => rfl)

end GrantRun

end Aiopquic
