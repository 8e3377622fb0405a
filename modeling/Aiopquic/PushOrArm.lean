import Aiopquic.SpscRing
import Aiopquic.Threads
import Aiopquic.TxActive

/-!
# Push or arm (`callback.h`, `_transport.pyx`)

Commands that must not be lost are posted in a loop: push; if the TX event ring is full, arm its
drain signal; if the arm finds the ring at or below low water, try again.
`aiopquic_dgram_ring_release_flush` does the same for a list. Neither loop counts its rounds.

`PushSide` is the ring with the low water mark, the drain signal and what the asyncio thread keeps.
A loop is given a number of rounds, and `hung` records that it did not end within them. Memory for
the list of owed releases may run out.
-/

namespace Aiopquic

open Interleave Interleave.Prog Circular

/-- A finished post: the ring's log and `cnt_tx_event_ring_arms` before and after it. -/
structure PostCall where
  entry : Entry
  posted : Bool
  before : List Entry
  after : List Entry
  armsBefore : ℕ
  armsAfter : ℕ
  deriving DecidableEq, Repr

/-- A finished flush: what was owed and is still owed, and the same as above. -/
structure FlushCall where
  running : Bool
  owed : List (ℕ × ℕ)
  left : List (ℕ × ℕ)
  before : List Entry
  after : List Entry
  armsBefore : ℕ
  armsAfter : ℕ
  deriving DecidableEq, Repr

/-- The entry is posted once, or nothing is and the drain signal was armed. -/
def PostCall.Ends (r : PostCall) : Prop :=
  r.posted = true ∧ r.after = r.before ++ [r.entry.withData []] ∨
    r.posted = false ∧ r.after = r.before ∧ r.armsBefore < r.armsAfter

/-- The entry of a release. -/
def releaseEntry (release : ℕ × ℕ) : Entry :=
  { eventType := .txDgramRingRelease, cnx := release.1, streamCtx := release.2 }

/-- The entries of some releases, as they are in the ring. -/
def releaseEntries (owed : List (ℕ × ℕ)) : List Entry := owed.map fun release =>
    (releaseEntry release).withData []

/-- The first `n` of the owed releases are posted, in order, and the others are still owed; if there
are any, the drain signal was armed. Without a worker nothing is posted. -/
structure FlushCall.Posted (r : FlushCall) (n : ℕ) : Prop where
  left : r.left = r.owed.drop n
  after : r.after = r.before ++ releaseEntries (r.owed.take n)
  armed : r.running = true → r.left = [] ∨ r.armsBefore < r.armsAfter
  stopped : r.running = false → n = 0

def FlushCall.Ends (r : FlushCall) : Prop := ∃ n, r.Posted n

/-- What only the asyncio thread touches. `owed` is `dgram_release_owed`; the last three fields are
history. -/
structure PushOwn where
  running : Bool
  pushes : ℕ := 0
  arms : ℕ := 0
  wakes : ℕ := 0
  owed : List (ℕ × ℕ) := []
  hung : Bool := false
  posts : List PostCall := []
  flushes : List FlushCall := []

/-- The part of `aiopquic_ctx_t` that the loops use. `running` says that `thread_ctx` is not
`NULL`. -/
structure PushSide where
  ring : SpscRing
  lowWater : ℕ
  drainPending : Bool := false
  workerIdle : Bool := false
  own : PushOwn

namespace PushSide

/-- A new context. -/
def init (geo : Geometry) (lowWaterPct : ℕ) (env : Option ℤ) (running : Bool) : PushSide where
  ring := .create geo
  lowWater := TxSide.lowWaterOf geo.capacity (TxSide.wakePct lowWaterPct env)
  own := { running }

/-- The TX event ring. -/
def ringLoc : Loc PushSide SpscRing where
  get := (·.ring)
  set := fun ring s => { s with ring := ring }
  get_set := fun _ _ => rfl

/-- Change what the asyncio thread keeps. -/
def keep (f : PushOwn → PushOwn) (s : PushSide) : PushSide := { s with own := f s.own }

/-! ## The loops -/

/-- `aiopquic_arm_tx_event_ring_drain_pending`. -/
def armDrainPending : Prog PushSide Bool := do
  modify fun s => { s with drainPending := true, own := { s.own with arms := s.own.arms + 1 } }
  let count ← SpscRing.count.on ringLoc
  let lowWater ← load (·.lowWater)
  pure (decide (lowWater < count))

/-- `aiopquic_tx_wake_needed` and the wake, with the worker running. -/
def wakeUp : Prog PushSide Unit := do
  let idle ← load fun s => s.own.running && s.workerIdle
  when idle <| do
    let idle ← rmw (fun s => { s with workerIdle := false }) (·.workerIdle)
    when idle <| modify (keep fun own => { own with wakes := own.wakes + 1 })

/-- What follows a push. -/
def pushed : Prog PushSide Unit := do
  modify (keep fun own => { own with pushes := own.pushes + 1 })
  wakeUp

/-- The loop of a post, for some number of rounds. -/
def pushOrArm (entry : Entry) : ℕ → Prog PushSide Bool
  | 0 => do
    modify (keep fun own => { own with hung := true })
    pure false
  | fuel + 1 => do
    let rc ← (SpscRing.push entry []).on ringLoc
    if rc = 0 then pure true
    else do
      let armed ← armDrainPending
      if armed then pure false else pushOrArm entry fuel

/-- A post, recorded: it returns `0` if `entry` is posted and `1` if the drain signal is armed. -/
def postCall (entry : Entry) (fuel : ℕ) : Prog PushSide ℕ := do
  let (before, armsBefore) ← load fun s => (s.ring.log, s.own.arms)
  let posted ← pushOrArm entry fuel
  when posted pushed
  modify fun s => s.keep fun own =>
    { own with posts := own.posts ++ [⟨entry, posted, before, s.ring.log, armsBefore, own.arms⟩] }
  pure (if posted then 0 else 1)

/-- `TransportContext.dgram_mark_ready`. -/
def dgramMarkReady (cnx db : ℕ) : ℕ → Prog PushSide ℕ :=
  postCall { eventType := .txMarkDatagramReady, cnx, streamCtx := db }

/-- `TransportContext.set_stream_priority`. -/
def setStreamPriority (cnx streamId priority : ℕ) : ℕ → Prog PushSide ℕ :=
  postCall { eventType := .txSetStreamPriority, cnx, streamId, errorCode := priority }

/-- `TransportContext.set_max_connections`, once `n` is checked. -/
def setMaxConnections (n : ℕ) : ℕ → Prog PushSide ℕ :=
  postCall { eventType := .txSetMaxConnections, errorCode := n }

/-- `TransportContext.set_datagram_priority`. -/
def setDatagramPriority (cnx priority : ℕ) : ℕ → Prog PushSide ℕ :=
  postCall { eventType := .txSetDatagramPriority, cnx, errorCode := priority }

/-- `WebTransportSessionState.push_dgram_ready`, for a session that is open. -/
def pushDgramReady (wt db : ℕ) : ℕ → Prog PushSide ℕ :=
  postCall { eventType := .txMarkWtDatagramReady, cnx := wt, streamCtx := wt, errorCode := db }

/-- `WebTransportSessionState.push_stream_priority`, for a session that is open. -/
def pushStreamPriority (wt streamId priority : ℕ) : ℕ → Prog PushSide ℕ :=
  postCall { eventType := .txWtSetStreamPriority, cnx := wt, streamCtx := wt, streamId, errorCode := priority }

/-- `WebTransportSessionState.push_datagram_priority`, for a session that is open. -/
def pushDatagramPriority (wt priority : ℕ) : ℕ → Prog PushSide ℕ :=
  postCall { eventType := .txWtSetDatagramPriority, cnx := wt, streamCtx := wt, errorCode := priority }

/-- `aiopquic_dgram_ring_release_post`. -/
def ringReleasePost (release : ℕ × ℕ) : Prog PushSide Bool := do
  let rc ← (SpscRing.push (releaseEntry release) []).on ringLoc
  if rc ≠ 0 then pure false
  else do
    pushed
    pure true

/-- The inner loop of a flush: what it leaves. -/
def postOwed : List (ℕ × ℕ) → Prog PushSide (List (ℕ × ℕ))
  | [] => pure []
  | release :: owed => do
    let posted ← ringReleasePost release
    if posted then postOwed owed else pure (release :: owed)

/-- The outer loop of a flush, for some number of rounds. -/
def flushLoop : ℕ → Prog PushSide Unit
  | 0 => modify (keep fun own => { own with hung := true })
  | fuel + 1 => do
    let owed ← load (·.own.owed)
    let left ← postOwed owed
    modify (keep fun own => { own with owed := left })
    if left = [] then pure ()
    else do
      let armed ← armDrainPending
      if armed then pure () else flushLoop fuel

/-- `aiopquic_dgram_ring_release_flush`, recorded. -/
def dgramRingReleaseFlush (fuel : ℕ) : Prog PushSide Unit := do
  let (before, own) ← load fun s => (s.ring.log, s.own)
  when own.running (flushLoop fuel)
  modify fun s => s.keep fun after =>
    { after with flushes := after.flushes ++
        [⟨own.running, own.owed, after.owed, before, s.ring.log, own.arms, after.arms⟩] }

/-- `aiopquic_dgram_ring_release` of a ring that is not `NULL`; without a worker the ring is dropped
at once. `alloc` says whether there is memory to owe it. -/
def dgramRingRelease (alloc : Bool) (cnx db fuel : ℕ) : Prog PushSide Unit := do
  let running ← load (·.own.running)
  when running <| do
    let posted ← ringReleasePost (cnx, db)
    when (posted = false ∧ alloc = true) <| do
      modify (keep fun own => { own with owed := own.owed ++ [(cnx, db)] })
      dgramRingReleaseFlush fuel

/-! ## The rest -/

/-- Any other command of the asyncio thread. -/
def commandCall (entry : Entry) (data : List UInt8) : Prog PushSide Unit := do
  let rc ← (SpscRing.push entry data).on ringLoc
  when (rc = 0) pushed

/-- `aiopquic_maybe_fire_tx_event_ring_drained`, without the event it queues. -/
def maybeFireDrained : Prog PushSide Unit := do
  let pending ← load (·.drainPending)
  let count ← SpscRing.count.on ringLoc
  let lowWater ← load (·.lowWater)
  when (pending = true ∧ count ≤ lowWater) <| modify fun s => { s with drainPending := false }

/-- One entry of the TX loop. -/
def popCall : Prog PushSide Unit := do
  let entry ← SpscRing.peek.on ringLoc
  match entry with
  | none => maybeFireDrained
  | some _ => do
    SpscRing.pop.on ringLoc
    maybeFireDrained

/-- A call whose result the run does not use. -/
def call {α : Type} (p : Prog PushSide α) : Prog PushSide Unit := do
  let _ ← p
  pure ()

/-- What each thread may call, with enough rounds for its loops. -/
inductive Menu : Thread → PushSide → Prog PushSide Unit → Prop
  | dgramMarkReady (s : PushSide) (cnx db fuel : ℕ) (h : 2 ≤ fuel) :
      Menu .asyncio s (call (dgramMarkReady cnx db fuel))
  | setStreamPriority (s : PushSide) (cnx streamId priority fuel : ℕ) (h : 2 ≤ fuel) :
      Menu .asyncio s (call (setStreamPriority cnx streamId priority fuel))
  | setMaxConnections (s : PushSide) (n fuel : ℕ) (h : 2 ≤ fuel) :
      Menu .asyncio s (call (setMaxConnections n fuel))
  | setDatagramPriority (s : PushSide) (cnx priority fuel : ℕ) (h : 2 ≤ fuel) :
      Menu .asyncio s (call (setDatagramPriority cnx priority fuel))
  | pushDgramReady (s : PushSide) (wt db fuel : ℕ) (h : 2 ≤ fuel) :
      Menu .asyncio s (call (pushDgramReady wt db fuel))
  | pushStreamPriority (s : PushSide) (wt streamId priority fuel : ℕ) (h : 2 ≤ fuel) :
      Menu .asyncio s (call (pushStreamPriority wt streamId priority fuel))
  | pushDatagramPriority (s : PushSide) (wt priority fuel : ℕ) (h : 2 ≤ fuel) :
      Menu .asyncio s (call (pushDatagramPriority wt priority fuel))
  | release (s : PushSide) (alloc : Bool) (cnx db fuel : ℕ) (h : s.own.owed.length + 1 < fuel) :
      Menu .asyncio s (dgramRingRelease alloc cnx db fuel)
  | flush (s : PushSide) (fuel : ℕ) (h : s.own.owed.length < fuel) :
      Menu .asyncio s (dgramRingReleaseFlush fuel)
  | command (s : PushSide) (entry : Entry) (data : List UInt8) :
    Menu .asyncio s (commandCall entry data)
  | thread (s : PushSide) (running : Bool) :
      Menu .asyncio s (modify (keep fun own => { own with running }))
  | pop (s : PushSide) : Menu .worker s popCall
  | idleArm (s : PushSide) : Menu .worker s (modify fun s => { s with workerIdle := true })

/-! ## The proof outline -/

/-- What holds between any two steps. -/
structure Inv (s : PushSide) : Prop where
  ring : s.ring.Wf
  lowWater : s.lowWater < s.ring.geo.capacity
  hung : s.own.hung = false
  posts : ∀ r ∈ s.own.posts, r.Ends
  flushes : ∀ r ∈ s.own.flushes, r.Ends

/-- A step of the worker. -/
structure WorkerMoves (s t : PushSide) : Prop where
  ring : SpscRing.ConsumerMoves s.ring t.ring
  own : t.own = s.own

/-- A step of the asyncio thread. -/
def AsyncioMoves (s t : PushSide) : Prop := SpscRing.ProducerMoves s.ring t.ring

/-- The worker outside a call. -/
def WorkerIdle (s : PushSide) : Prop := s.ring.claimed = false

variable {s t u v : PushSide} {entry : Entry} {fuel : ℕ}

theorem WorkerMoves.refl (s : PushSide) : WorkerMoves s s := ⟨.refl _, rfl⟩

theorem WorkerMoves.trans (h : WorkerMoves s t) (h' : WorkerMoves t u) : WorkerMoves s u :=
  ⟨h.ring.trans h'.ring, h'.own.trans h.own⟩

theorem WorkerIdle.stable (h : WorkerIdle s) (hm : AsyncioMoves s t) : WorkerIdle t :=
  hm.claimed.trans h

/-- The rely–guarantee outline. -/
def outline : Outline Menu :=
  duo Inv WorkerMoves AsyncioMoves WorkerIdle (fun _ => True) .refl .trans (fun s => .refl s.ring)
    (fun h h' => SpscRing.ProducerMoves.trans h h') (fun h hm _ => h.stable hm)
      (fun _ _ _ => trivial)

/-! ## The asyncio thread -/

/-- What the loops leave alone, and the count of the arms. -/
structure Kept (s t : PushSide) : Prop where
  running : t.own.running = s.own.running
  owed : t.own.owed = s.own.owed
  posts : t.own.posts = s.own.posts
  flushes : t.own.flushes = s.own.flushes
  arms : s.own.arms ≤ t.own.arms

theorem Kept.of_own (h : t.own = s.own) : Kept s t := by
  constructor <;> rw [h]

theorem Kept.trans (h : Kept s t) (h' : Kept t u) : Kept s u :=
  ⟨h'.running.trans h.running, h'.owed.trans h.owed, h'.posts.trans h.posts,
    h'.flushes.trans h.flushes,
    h.arms.trans h'.arms⟩

theorem WorkerMoves.kept (h : WorkerMoves s t) : Kept s t := .of_own h.own

/-- The ring has room for one more entry. -/
def HasRoom (s : PushSide) : Prop := s.ring.tail < s.ring.head + s.ring.geo.capacity

theorem HasRoom.stable (h : HasRoom s) (hm : WorkerMoves s t) : HasRoom t := by
  have := hm.ring.head_le
  rw [HasRoom] at h ⊢
  rw [hm.ring.tail, hm.ring.geo]
  omega

/-- The ring while the asyncio thread counts its entries or pushes one. -/
theorem embeds_ring {n : ℕ} (own : PushOwn) :
    Embeds (outline.contract .asyncio) ringLoc (SpscRing.producer n entry) fun s =>
    s.own = own where
  inv := fun s hs => hs.ring
  rely := fun s t h hm _ => ⟨hm.ring, hm.own.trans h⟩
  step := by
    intro s ring hs h hg hring
    have hm : SpscRing.ProducerMoves s.ring ring := hg.moves
    refine ⟨hm, ⟨hring, ?_, hs.hung, hs.posts, hs.flushes⟩, h⟩
    show s.lowWater < ring.geo.capacity
    rw [hm.geo]
    exact hs.lowWater

/-- A push that is refused has found no room at its start. -/
theorem push_spec (hs : Inv s) (data : List UInt8) :
    wp (outline.contract .asyncio) ((SpscRing.push entry data).on ringLoc)
      (fun rc t => Kept s t ∧ (rc = 0 ∧ t.ring.log = s.ring.log ++ [entry.withData data] ∨
        rc = -1 ∧ t.ring.log = s.ring.log ∧ ¬ HasRoom s)) s := by
  have hput := SpscRing.put_spec (e := entry.withData data) (k := data.length) hs.ring
  refine wp_mono (wp_on (embeds_ring s.own) rfl hput) hs fun rc t _ h => ⟨.of_own h.2, ?_⟩
  rcases h.1 with ⟨hrc, hdone⟩ | ⟨hrc, hm, hfull⟩
  · exact .inl ⟨hrc, hdone.log⟩
  · refine .inr ⟨hrc, hm.log, ?_⟩
    rw [HasRoom]
    show ¬ s.ring.tail < s.ring.head + s.ring.geo.capacity
    have : s.ring.tail = s.ring.head + s.ring.geo.capacity := hfull
    omega

/-- An arm that says there is no need to wait has seen room: the low water mark is below the
capacity. -/
theorem armDrainPending_spec :
    wp (outline.contract .asyncio) armDrainPending
      (fun waits t => Kept s t ∧ s.own.arms < t.own.arms ∧ t.ring.log = s.ring.log ∧
      (waits = false → HasRoom t))
      s := by
  unfold armDrainPending
  refine wp_modify_bind fun t hst ht => ?_
  have harmed : Inv { t with drainPending := true, own := { t.own with arms := t.own.arms + 1 } } :=
    ⟨ht.ring, ht.lowWater, ht.hung, ht.posts, ht.flushes⟩
  refine ⟨SpscRing.ProducerMoves.refl t.ring, harmed, ?_⟩
  refine wp_seq (wp_on (@embeds_ring {} 0 _) rfl SpscRing.count_producer) harmed
    fun count u hu h => ?_
  obtain ⟨⟨hm, hle, -⟩, hown⟩ := h
  refine wp_load_bind fun v huv hv => ?_
  have harms : v.own.arms = s.own.arms + 1 := by rw [huv.own, hown, hst.own]
  refine ⟨⟨?_, ?_, ?_, ?_, by omega⟩, by
    omega, huv.ring.log.trans (hm.log.trans hst.ring.log), fun hwaits => ?_⟩
  · rw [huv.own, hown, hst.own]
  · rw [huv.own, hown, hst.own]
  · rw [huv.own, hown, hst.own]
  · rw [huv.own, hown, hst.own]
  · have := of_decide_eq_false hwaits
    have := hv.lowWater
    have := hv.ring.head_le
    have := huv.ring.head_le
    have := huv.ring.tail
    have : u.ring.tail - u.ring.head ≤ count := hle
    rw [HasRoom]
    omega

/-- A post ends within two rounds: an arm that does not let it wait is followed by a push that
succeeds. -/
theorem pushOrArm_spec (hs : Inv s) (hfuel : 2 ≤ fuel ∨ HasRoom s ∧ 1 ≤ fuel) :
    wp (outline.contract .asyncio) (pushOrArm entry fuel)
      (fun posted t => Kept s t ∧ (posted = true ∧ t.ring.log = s.ring.log ++ [entry.withData []] ∨
        posted = false ∧ t.ring.log = s.ring.log ∧ s.own.arms < t.own.arms)) s := by
  induction fuel generalizing s with
  | zero => omega
  | succ fuel ih =>
    rw [pushOrArm]
    refine wp_seq (push_spec hs []) hs fun rc t ht h => ?_
    obtain ⟨hst, ⟨rfl, hlog⟩ | ⟨rfl, hlog, hfull⟩⟩ := h
    · rw [if_pos rfl]
      exact ⟨hst, .inl ⟨rfl, hlog⟩⟩
    · rw [if_neg (by decide)]
      refine wp_seq armDrainPending_spec ht fun waits u hu h => ?_
      obtain ⟨htu, harms, hlog', hroom⟩ := h
      have hsu := hst.trans htu
      have hlt : s.own.arms < u.own.arms := hst.arms.trans_lt harms
      cases waits with
      | true => exact ⟨hsu, .inr ⟨rfl, hlog'.trans hlog, hlt⟩⟩
      | false =>
        have hleft : 1 ≤ fuel := by
          rcases hfuel with h | ⟨h, -⟩
          · omega
          · exact absurd h hfull
        refine wp_mono (ih hu (.inr ⟨hroom rfl, hleft⟩)) hu fun posted v _ h => ?_
        obtain ⟨huv, h⟩ := h
        rw [hlog'.trans hlog] at h
        refine ⟨hsu.trans huv, h.imp_right fun h => ⟨h.1, h.2.1, hlt.trans h.2.2⟩⟩

/-- What follows a push posts nothing. -/
theorem pushed_spec : wp (outline.contract .asyncio) pushed
    (fun _ t => Kept s t ∧ t.ring.log = s.ring.log) s := by
  unfold pushed wakeUp
  refine wp_modify_bind fun t hst ht => ?_
  refine ⟨SpscRing.ProducerMoves.refl t.ring, ⟨ht.ring, ht.lowWater, ht.hung, ht.posts, ht.flushes⟩,
    ?_⟩
  have hkept : Kept s (keep (fun own => { own with pushes := own.pushes + 1 }) t) :=
    hst.kept.trans ⟨rfl, rfl, rfl, rfl, le_rfl⟩
  refine wp_load_bind fun u htu hu => ?_
  have hsu := hkept.trans htu.kept
  have hlog : u.ring.log = s.ring.log := htu.ring.log.trans hst.ring.log
  unfold Prog.when
  split
  · refine wp_rmw_bind fun v huv hv => ?_
    refine ⟨SpscRing.ProducerMoves.refl v.ring,
      ⟨hv.ring, hv.lowWater, hv.hung, hv.posts, hv.flushes⟩, ?_⟩
    have hsv : Kept s { v with workerIdle := false } := (hsu.trans huv.kept).trans
      ⟨rfl, rfl, rfl, rfl, le_rfl⟩
    have hlog' : v.ring.log = s.ring.log := huv.ring.log.trans hlog
    split
    · refine wp_modify fun w hvw hw => ?_
      refine ⟨SpscRing.ProducerMoves.refl w.ring,
        ⟨hw.ring, hw.lowWater, hw.hung, hw.posts, hw.flushes⟩, ?_⟩
      exact ⟨(hsv.trans hvw.kept).trans ⟨rfl, rfl, rfl, rfl, le_rfl⟩, hvw.ring.log.trans hlog'⟩
    · exact ⟨hsv, hlog'⟩
  · exact ⟨hsu, hlog⟩

theorem postCall_spec (hfuel : 2 ≤ fuel) :
    wp (outline.contract .asyncio) (postCall entry fuel) (fun _ _ => True) s := by
  unfold postCall
  refine wp_load_bind fun t hst ht => ?_
  dsimp only
  refine wp_seq (pushOrArm_spec ht (.inl hfuel)) ht fun posted u hu h => ?_
  obtain ⟨-, h⟩ := h
  -- the record, once what follows a push is done
  have hrecord : ∀ v, Kept u v → v.ring.log = u.ring.log → Inv v → wp (outline.contract .asyncio)
      ((modify fun s => s.keep fun own =>
        { own with posts := own.posts ++ [⟨entry, posted, t.ring.log, s.ring.log, t.own.arms, own.arms⟩] }) >>=
        fun _ => pure (if posted then 0 else 1)) (fun _ _ => True) v := by
    intro v huv hlog hv
    refine wp_modify_bind fun w hvw hw => ?_
    refine ⟨SpscRing.ProducerMoves.refl w.ring,
      ⟨hw.ring, hw.lowWater, hw.hung, fun r hr => ?_, hw.flushes⟩, trivial⟩
    rcases List.mem_append.1 hr with hr | hr
    · exact hw.posts r hr
    · obtain rfl := List.mem_singleton.1 hr
      have hlog' : w.ring.log = u.ring.log := hvw.ring.log.trans hlog
      have harms : u.own.arms ≤ w.own.arms := huv.arms.trans hvw.kept.arms
      rcases h with ⟨hposted, hput⟩ | ⟨hposted, hsame, hlt⟩
      · exact .inl ⟨hposted, hlog'.trans hput⟩
      · exact .inr ⟨hposted, hlog'.trans hsame, hlt.trans_le harms⟩
  cases posted with
  | true => exact wp_seq pushed_spec hu fun _ v hv h => hrecord v h.1 h.2 hv
  | false => exact hrecord u (.of_own rfl) rfl hu

theorem call_spec {α : Type} {p : Prog PushSide α} (hs : Inv s)
    (h : wp (outline.contract .asyncio) p (fun _ _ => True) s) :
    wp (outline.contract .asyncio) (call p) (fun _ _ => True) s :=
  wp_seq h hs fun _ _ _ _ => trivial

theorem ringReleasePost_spec (hs : Inv s) (release : ℕ × ℕ) :
    wp (outline.contract .asyncio) (ringReleasePost release)
      (fun posted t => Kept s t ∧
        (posted = true ∧ t.ring.log = s.ring.log ++ [(releaseEntry release).withData []] ∨
          posted = false ∧ t.ring.log = s.ring.log ∧ ¬ HasRoom s)) s := by
  unfold ringReleasePost
  refine wp_seq (push_spec hs []) hs fun rc t ht h => ?_
  obtain ⟨hst, ⟨rfl, hlog⟩ | ⟨rfl, hlog, hfull⟩⟩ := h
  · rw [if_neg (by decide)]
    refine wp_seq pushed_spec ht fun _ u hu h => ?_
    exact ⟨hst.trans h.1, .inl ⟨rfl, h.2.trans hlog⟩⟩
  · rw [if_pos (by decide)]
    exact ⟨hst, .inr ⟨rfl, hlog, hfull⟩⟩

/-- The inner loop posts the first releases, and at least one if there is room. -/
theorem postOwed_spec (hs : Inv s) (owed : List (ℕ × ℕ)) :
    wp (outline.contract .asyncio) (postOwed owed)
      (fun left t => Kept s t ∧ ∃ n, left = owed.drop n ∧
        t.ring.log = s.ring.log ++ releaseEntries (owed.take n) ∧ (HasRoom s → owed ≠ [] → 0 < n))
        s := by
  induction owed generalizing s with
  | nil => exact ⟨.of_own rfl, 0, rfl, (List.append_nil _).symm, fun _ h => absurd rfl h⟩
  | cons release owed ih =>
    rw [postOwed]
    refine wp_seq (ringReleasePost_spec hs release) hs fun posted t ht h => ?_
    obtain ⟨hst, ⟨rfl, hlog⟩ | ⟨rfl, hlog, hfull⟩⟩ := h
    · rw [if_pos rfl]
      refine wp_mono (ih ht) ht fun left u _ h => ?_
      obtain ⟨htu, n, hleft, hlog', -⟩ := h
      refine ⟨hst.trans htu, n + 1, hleft, ?_, fun _ _ => Nat.succ_pos n⟩
      rw [hlog', hlog, List.append_assoc]
      rfl
    · rw [if_neg (by decide)]
      exact ⟨hst, 0, rfl, hlog.trans (List.append_nil _).symm, fun hroom => absurd hroom hfull⟩

/-- From `s` the first `n` owed releases were posted, and the signal was armed if there are
others. -/
structure Flushed (s : PushSide) (n : ℕ) (t : PushSide) : Prop where
  running : t.own.running = s.own.running
  owed : t.own.owed = s.own.owed.drop n
  posts : t.own.posts = s.own.posts
  flushes : t.own.flushes = s.own.flushes
  arms : s.own.arms ≤ t.own.arms
  log : t.ring.log = s.ring.log ++ releaseEntries (s.own.owed.take n)
  armed : t.own.owed = [] ∨ s.own.arms < t.own.arms

/-- Posting some releases, and then some of the others. -/
theorem Flushed.after {n k : ℕ} (h : Flushed t n u) (howed : t.own.owed = s.own.owed.drop k)
    (hkept : Kept { s with own := { s.own with owed := t.own.owed } } t)
    (hlog : t.ring.log = s.ring.log ++ releaseEntries (s.own.owed.take k)) :
      Flushed s (k + n) u where
  running := h.running.trans hkept.running
  owed := by rw [h.owed, howed, List.drop_drop]
  posts := h.posts.trans hkept.posts
  flushes := h.flushes.trans hkept.flushes
  arms := hkept.arms.trans h.arms
  log := by
    rw [h.log, hlog, howed, List.append_assoc, releaseEntries, releaseEntries, releaseEntries,
      ← List.map_append,
      ← List.take_add]
  armed := h.armed.imp_right hkept.arms.trans_lt

/-- A flush ends within one round more than there are releases: each round but the first posts
one. -/
theorem flushLoop_spec (hs : Inv s)
    (hfuel : s.own.owed.length < fuel ∨ HasRoom s ∧ s.own.owed ≠ [] ∧ s.own.owed.length ≤ fuel) :
    wp (outline.contract .asyncio) (flushLoop fuel) (fun _ t => ∃ n, Flushed s n t) s := by
  induction fuel generalizing s with
  | zero =>
    rcases hfuel with h | ⟨-, hne, h⟩
    · omega
    · exact absurd (List.length_eq_zero_iff.1 (Nat.le_zero.1 h)) hne
  | succ fuel ih =>
    rw [flushLoop]
    refine wp_load_bind fun t hst ht => ?_
    rw [hst.own]
    refine wp_seq (postOwed_spec ht s.own.owed) ht fun left u hu h => ?_
    obtain ⟨htu, n, rfl, hlog, hpos⟩ := h
    refine wp_modify_bind fun v huv hv => ?_
    refine ⟨SpscRing.ProducerMoves.refl v.ring,
      ⟨hv.ring, hv.lowWater, hv.hung, hv.posts, hv.flushes⟩, ?_⟩
    have hsv := (hst.kept.trans htu).trans huv.kept
    have hlog' : v.ring.log = s.ring.log ++ releaseEntries (s.own.owed.take n) := by
      rw [huv.ring.log, hlog, hst.ring.log]
    split
    · rename_i hdone
      exact ⟨n, hsv.running, rfl, hsv.posts, hsv.flushes, hsv.arms, hlog', .inl hdone⟩
    · rename_i hleft
      have hnext : Inv (keep (fun own => { own with owed := s.own.owed.drop n }) v) :=
        ⟨hv.ring, hv.lowWater, hv.hung, hv.posts, hv.flushes⟩
      refine wp_seq armDrainPending_spec hnext fun waits w hw h => ?_
      obtain ⟨hvw, harms, hlog'', hroom⟩ := h
      have harms' : s.own.arms < w.own.arms := hsv.arms.trans_lt harms
      have howed : w.own.owed = s.own.owed.drop n := hvw.owed
      cases waits with
      | true =>
        exact ⟨n, hvw.running.trans hsv.running, howed, hvw.posts.trans hsv.posts,
          hvw.flushes.trans hsv.flushes,
          harms'.le, hlog''.trans hlog', .inr harms'⟩
      | false =>
        have hkept : Kept { s with own := { s.own with owed := w.own.owed } } w :=
          ⟨hvw.running.trans hsv.running, rfl, hvw.posts.trans hsv.posts,
            hvw.flushes.trans hsv.flushes, harms'.le⟩
        have hfuel' : w.own.owed.length ≤ fuel := by
          rw [howed, List.length_drop]
          rcases hfuel with h | ⟨hroom, hne, h⟩
          · omega
          · have := hpos (hroom.stable hst) hne
            have := List.length_pos_iff.2 hne
            omega
        refine wp_mono (ih hw (.inr ⟨hroom rfl, ?_, hfuel'⟩)) hw fun _ x _ h => ?_
        · rw [howed]
          exact hleft
        · obtain ⟨k, h⟩ := h
          exact ⟨n + k, h.after howed hkept (hlog''.trans hlog')⟩

theorem dgramRingReleaseFlush_spec (hfuel : s.own.owed.length < fuel) :
    wp (outline.contract .asyncio) (dgramRingReleaseFlush fuel) (fun _ _ => True) s := by
  unfold dgramRingReleaseFlush
  refine wp_load_bind fun t hst ht => ?_
  dsimp only
  -- the record, from any state in which the flush is over
  have hrecord : ∀ n u, Inv u → (∀ v, WorkerMoves u v → FlushCall.Posted
        ⟨t.own.running, t.own.owed, v.own.owed, t.ring.log, v.ring.log, t.own.arms, v.own.arms⟩ n) →
      wp (outline.contract .asyncio) (modify fun s => s.keep fun after =>
        { after with flushes := after.flushes ++
            [⟨t.own.running, t.own.owed, after.owed, t.ring.log, s.ring.log, t.own.arms,
              after.arms⟩] })
        (fun _ _ => True) u := by
    intro n u hu hposted
    refine wp_modify fun v huv hv => ?_
    refine ⟨SpscRing.ProducerMoves.refl v.ring,
      ⟨hv.ring, hv.lowWater, hv.hung, hv.posts, fun r hr => ?_⟩, trivial⟩
    rcases List.mem_append.1 hr with hr | hr
    · exact hv.flushes r hr
    · obtain rfl := List.mem_singleton.1 hr
      exact ⟨n, hposted v huv⟩
  refine wp_when_bind (fun hrun => ?_) (fun hrun => ?_)
  · have hlen : t.own.owed.length < fuel := by rwa [hst.own]
    refine wp_seq (flushLoop_spec ht (.inl hlen)) ht fun _ u hu h => ?_
    obtain ⟨n, h⟩ := h
    refine hrecord n u hu fun v huv => ⟨?_, ?_, fun _ => ?_, fun hstop => ?_⟩
    · exact (congrArg PushOwn.owed huv.own).trans h.owed
    · exact huv.ring.log.trans h.log
    · show v.own.owed = [] ∨ t.own.arms < v.own.arms
      rw [huv.own]
      exact h.armed
    · exact absurd (hrun.symm.trans hstop) (by decide)
  · refine hrecord 0 t ht fun v htv => ⟨?_, ?_, fun hgo => absurd hgo hrun, fun _ => rfl⟩
    · exact congrArg PushOwn.owed htv.own
    · exact htv.ring.log.trans (List.append_nil _).symm

theorem dgramRingRelease_spec {alloc : Bool} {cnx db : ℕ} (hfuel : s.own.owed.length + 1 < fuel) :
    wp (outline.contract .asyncio) (dgramRingRelease alloc cnx db fuel) (fun _ _ => True) s := by
  unfold dgramRingRelease
  refine wp_load_bind fun t hst ht => ?_
  have howed : t.own.owed = s.own.owed := congrArg PushOwn.owed hst.own
  unfold Prog.when
  split
  · refine wp_seq (ringReleasePost_spec ht _) ht fun posted u hu h => ?_
    split
    · refine wp_modify_bind fun v huv hv => ?_
      refine ⟨SpscRing.ProducerMoves.refl v.ring,
        ⟨hv.ring, hv.lowWater, hv.hung, hv.posts, hv.flushes⟩, ?_⟩
      refine dgramRingReleaseFlush_spec ?_
      show (v.own.owed ++ [(cnx, db)]).length < fuel
      rw [huv.own, h.1.owed, howed, List.length_append, List.length_singleton]
      exact hfuel
    · trivial
  · trivial

theorem commandCall_spec {data : List UInt8} (hs : Inv s) :
    wp (outline.contract .asyncio) (commandCall entry data) (fun _ _ => True) s := by
  unfold commandCall
  refine wp_seq (push_spec hs data) hs fun rc t ht _ => ?_
  unfold Prog.when
  split
  · exact wp_mono pushed_spec ht fun _ _ _ _ => trivial
  · trivial

/-! ## The worker -/

/-- The ring while the worker looks at it or pops from it. -/
theorem embeds_pop {h : Option ℕ} :
    Embeds (outline.contract .worker) ringLoc (SpscRing.consumer h) (fun _ => True) where
  inv := fun s hs => hs.ring
  rely := fun s t _ hm _ => ⟨hm, trivial⟩
  step := by
    intro s ring hs _ hg hring
    have hm : SpscRing.ConsumerMoves s.ring ring := hg.moves
    refine ⟨⟨hm, rfl⟩, ⟨hring, ?_, hs.hung, hs.posts, hs.flushes⟩, trivial⟩
    show s.lowWater < ring.geo.capacity
    rw [hm.geo]
    exact hs.lowWater

theorem maybeFireDrained_spec (hidle : WorkerIdle s) :
    wp (outline.contract .worker) maybeFireDrained (fun _ => WorkerIdle) s := by
  unfold maybeFireDrained
  refine wp_load_bind fun t hst ht => ?_
  have hidle : WorkerIdle t := hidle.stable hst
  refine wp_seq (wp_on (embeds_pop (h := none)) trivial (SpscRing.count_spec ht.ring)) ht
    fun k u hu h => ?_
  have hidle : WorkerIdle u := h.1.1.claimed.trans hidle
  refine wp_load_bind fun v huv hv => ?_
  have hidle : WorkerIdle v := hidle.stable huv
  unfold Prog.when
  split
  · refine wp_modify fun w hvw hw => ?_
    have hidle : WorkerIdle w := hidle.stable hvw
    exact ⟨⟨.refl _, rfl⟩, ⟨hw.ring, hw.lowWater, hw.hung, hw.posts, hw.flushes⟩, hidle⟩
  · exact hidle

theorem popCall_spec (hs : Inv s) (hidle : WorkerIdle s) :
    wp (outline.contract .worker) popCall (fun _ => WorkerIdle) s := by
  unfold popCall
  refine wp_seq (wp_on (embeds_pop (h := none)) trivial (SpscRing.peek_spec hs.ring hidle)) hs
    fun found t ht h => ?_
  obtain ⟨⟨hm, hfound⟩, -⟩ := h
  have hidle : WorkerIdle t := hm.claimed.trans hidle
  cases found with
  | none => exact maybeFireDrained_spec hidle
  | some e =>
    have hlt : t.ring.head < t.ring.tail := by
      have hlog : t.ring.log[s.ring.head]? = some e := hfound
      have := (List.getElem?_eq_some_iff.1 hlog).1
      rwa [ht.ring.length, ← show t.ring.head = s.ring.head from hm.head] at this
    refine wp_seq (wp_on embeds_pop trivial (SpscRing.pop_spec ht.ring hlt)) ht fun _ u hu h => ?_
    exact maybeFireDrained_spec h.1.claimed

theorem outline_sound : outline.Sound := by
  rintro i s p hs hidle hp
  cases hp with
  | dgramMarkReady _ cnx db fuel h => exact call_spec hs (postCall_spec h)
  | setStreamPriority _ cnx streamId priority fuel h => exact call_spec hs (postCall_spec h)
  | setMaxConnections _ n fuel h => exact call_spec hs (postCall_spec h)
  | setDatagramPriority _ cnx priority fuel h => exact call_spec hs (postCall_spec h)
  | pushDgramReady _ wt db fuel h => exact call_spec hs (postCall_spec h)
  | pushStreamPriority _ wt streamId priority fuel h => exact call_spec hs (postCall_spec h)
  | pushDatagramPriority _ wt priority fuel h => exact call_spec hs (postCall_spec h)
  | release _ alloc cnx db fuel h => exact dgramRingRelease_spec h
  | flush _ fuel h => exact dgramRingReleaseFlush_spec h
  | command _ entry data => exact commandCall_spec hs
  | thread _ running =>
    exact wp_modify fun t _ ht =>
      ⟨SpscRing.ProducerMoves.refl t.ring, ⟨ht.ring, ht.lowWater, ht.hung, ht.posts, ht.flushes⟩,
        trivial⟩
  | pop => exact popCall_spec hs hidle
  | idleArm =>
    refine wp_modify fun t hst ht => ?_
    have hidle : WorkerIdle s := hidle
    have hidle : WorkerIdle t := hidle.stable hst
    exact ⟨⟨.refl _, rfl⟩, ⟨ht.ring, ht.lowWater, ht.hung, ht.posts, ht.flushes⟩, hidle⟩

/-! ## The theorem -/

theorem init_inv (geo : Geometry) (lowWaterPct : ℕ) (env : Option ℤ) (running : Bool) :
    Inv (init geo lowWaterPct env running) where
  ring := SpscRing.create_wf geo
  lowWater := TxSide.lowWaterOf_lt geo.capacity_pos (TxSide.wakePct_lt lowWaterPct env)
  hung := rfl
  posts := fun _ hr => nomatch hr
  flushes := fun _ hr => nomatch hr

theorem init_idle (geo : Geometry) (lowWaterPct : ℕ) (env : Option ℤ) (running : Bool)
    (i : Thread) :
    outline.idle i (init geo lowWaterPct env running) := by
  cases i with
  | worker => exact rfl
  | asyncio => trivial

/-- The loops end, and their results are right. -/
structure Settled (s : PushSide) : Prop where
  /-- The low water mark is below the capacity. -/
  lowWater : s.lowWater < s.ring.geo.capacity
  /-- No loop has used up its rounds. -/
  hung : s.own.hung = false
  /-- Each post has posted its entry, or armed the drain signal and posted nothing. -/
  posts : ∀ r ∈ s.own.posts, r.Ends
  /-- Each flush has posted the first of the owed releases, and owes the others. -/
  flushes : ∀ r ∈ s.own.flushes, r.Ends

/-- For every ring and low water mark, and whatever the worker pops meanwhile, two rounds are enough
for a post and one more than there are releases for a flush. -/
theorem loops_end (geo : Geometry) (lowWaterPct : ℕ) (env : Option ℤ) (running : Bool)
    {c : Config Thread PushSide} (hc : Reachable Menu (init geo lowWaterPct env running) c) :
    Settled c.mem := by
  have h := outline.reachable outline_sound (init_inv geo lowWaterPct env running)
    (init_idle geo lowWaterPct env running) hc
  have hinv : Inv c.mem := h.1
  exact ⟨hinv.lowWater, hinv.hung, hinv.posts, hinv.flushes⟩

/-- The start of a run on a ring for one entry: a mark fills it, and a release is owed. -/
def owedRun : Config Thread PushSide :=
  ((((Config.start (init (.ofExp 0 Geometry.exp_zero) 50 none true)).call .asyncio
    (call (dgramMarkReady 1 4 2))).drive (.replicate 20 .asyncio)).call .asyncio
    (dgramRingRelease true 1 4 2)).drive (.replicate 30 .asyncio)

/-- A post then finds the ring full, the worker empties it before the arm looks, and the post tries
again. The flush that follows another pop posts the release. -/
def retriedRun : Config Thread PushSide :=
  ((((((((owedRun.call .asyncio (call (setDatagramPriority 1 3 2))).drive
    (.replicate 3 .asyncio)).call .worker
    popCall).drive (.replicate 12 .worker ++ .replicate 30 .asyncio)).call .worker popCall).drive
    (.replicate 12 .worker)).call .asyncio (dgramRingReleaseFlush 2)).drive
      (.replicate 30 .asyncio))

theorem loops_end_retriedRun : Settled retriedRun.mem ∧
    retriedRun.mem.own.posts.map (·.posted) = [true, true] ∧
    retriedRun.mem.own.flushes.map (·.left) = [[(1, 4)], []] ∧
    retriedRun.mem.ring.log.map (·.eventType) =
      [.txMarkDatagramReady, .txSetDatagramPriority, .txDgramRingRelease] := by
  refine ⟨loops_end (.ofExp 0 (by decide)) 50 none true ?_, by
    decide +kernel, by decide +kernel, by decide +kernel⟩
  have hstart : Reachable Menu (init (.ofExp 0 (by decide)) 50 none true) (Config.start _) := .refl
  have hmark := (hstart.call (i := .asyncio) rfl
    (.dgramMarkReady _ 1 4 2 (by decide))).drive (.replicate 20 .asyncio)
  have howed := (hmark.call (i := .asyncio) (by decide +kernel)
    (.release _ true 1 4 2 (by decide +kernel))).drive (.replicate 30 .asyncio)
  have hpost := (howed.call (i := .asyncio) (by decide +kernel)
    (.setDatagramPriority _ 1 3 2 (by decide))).drive (.replicate 3 .asyncio)
  have hretry := (hpost.call (i := .worker) (by decide +kernel) (.pop _)).drive
    (.replicate 12 .worker ++ .replicate 30 .asyncio)
  have hpop := (hretry.call (i := .worker) (by decide +kernel) (.pop _)).drive
    (.replicate 12 .worker)
  exact (hpop.call (i := .asyncio) (by decide +kernel) (.flush _ 2 (by decide +kernel))).drive _

end PushSide

end Aiopquic
