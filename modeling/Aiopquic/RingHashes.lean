import Aiopquic.StreamBuf
import Aiopquic.Threads

/-!
# The hashes of a byte ring (`stream_buf.h`)

With `AIOPQUIC_TX_HASH` a ring hashes what is pushed and what is popped. Under every interleaving of
the two sides the hashes are those of the bytes that went in and came out, so that they are equal
once both sides have moved the same number of bytes.
-/

namespace Aiopquic

open Interleave Interleave.Prog StreamBuf

/-- What the hash of a side is after the bytes `l`. -/
def hashOf (enabled : Bool) (l : List UInt8) : UInt32 :=
  if enabled then fnv1aStep fnv1aInit l else fnv1aInit

theorem fnv1aStep_append (h : UInt32) (p q : List UInt8) :
    fnv1aStep h (p ++ q) = fnv1aStep (fnv1aStep h p) q := List.foldl_append

namespace StreamBuf

variable {b : StreamBuf}

/-! ## The hash of one call -/

/-- The pushed hash is the producer's. -/
def pushHashing : Contract StreamBuf where
  inv := fun _ => True
  rely := fun b b' => b'.pushHash = b.pushHash ∧ b'.hashEnabled = b.hashEnabled
  guar := fun b b' => b'.popHash = b.popHash ∧ b'.hashEnabled = b.hashEnabled
  rely_refl := fun _ => ⟨rfl, rfl⟩
  rely_trans := fun h h' => ⟨h'.1.trans h.1, h'.2.trans h.2⟩
  guar_refl := fun _ => ⟨rfl, rfl⟩

/-- The popped hash is the consumer's. -/
def popHashing : Contract StreamBuf where
  inv := fun _ => True
  rely := fun b b' => b'.popHash = b.popHash ∧ b'.hashEnabled = b.hashEnabled
  guar := fun b b' => b'.pushHash = b.pushHash ∧ b'.hashEnabled = b.hashEnabled
  rely_refl := fun _ => ⟨rfl, rfl⟩
  rely_trans := fun h h' => ⟨h'.1.trans h.1, h'.2.trans h.2⟩
  guar_refl := fun _ => ⟨rfl, rfl⟩

/-- The side's hash has been carried over `l`, if the ring hashes. -/
def Carried (enabled : Bool) (before after : UInt32) (l : List UInt8) : Prop :=
  after = if enabled then fnv1aStep before l else before

theorem Carried.hashOf {enabled : Bool} {before after : UInt32} {l m : List UInt8}
    (h : Carried enabled before after m) (hb : before = hashOf enabled l) :
    after = Aiopquic.hashOf enabled (l ++ m) := by
  rw [Carried, hb] at h
  rw [h, Aiopquic.hashOf, Aiopquic.hashOf]
  cases enabled with
  | false => rfl
  | true => exact (fnv1aStep_append _ _ _).symm

theorem commit_hash {geo : Circular.Geometry} {hash : Bool} {tail : ℕ} {data : List UInt8}
    (hh : hash = b.hashEnabled) :
    wp pushHashing (commit geo hash tail data)
      (fun _ b' => Carried b.hashEnabled b.pushHash b'.pushHash data) b := by
  have hpublish : ∀ c, c.pushHash = b.pushHash → c.hashEnabled = b.hashEnabled →
      wp pushHashing (when hash
          (modify fun b => { b with pushHash := fnv1aStep b.pushHash data }) >>= fun _ =>
        modify fun b => { b with tail := tail + data.length, writes := b.writes ++ [data] })
        (fun _ b' => Carried b.hashEnabled b.pushHash b'.pushHash data) c := by
    intro c hc hce
    refine wp_when_bind (fun ht => ?_) fun hf => ?_
    · refine wp_modify_bind fun d hd _ => ⟨⟨rfl, rfl⟩, trivial, ?_⟩
      refine wp_modify fun e he _ => ⟨⟨rfl, rfl⟩, trivial, ?_⟩
      rw [Carried, ← hh, ht, if_pos rfl, ← hc, ← hd.1]
      exact he.1
    · refine wp_modify fun d hd _ => ⟨⟨rfl, rfl⟩, trivial, ?_⟩
      rw [Carried, ← hh, if_neg hf, ← hc]
      exact hd.1
  unfold commit
  refine wp_modify_bind fun c hc _ => ⟨⟨rfl, rfl⟩, trivial, ?_⟩
  refine wp_when_bind (fun _ => ?_) fun _ => hpublish _ hc.1 hc.2
  refine wp_modify_bind fun d hd _ => ⟨⟨rfl, rfl⟩, trivial, ?_⟩
  exact hpublish _ (hd.1.trans hc.1) (hd.2.trans hc.2)

/-- A push carries its hash over the bytes it accepts. -/
theorem push_hash {data : List UInt8} : wp pushHashing (push data)
    (fun r b' => Carried b.hashEnabled b.pushHash b'.pushHash (data.take r)) b := by
  unfold push
  refine wp_load_bind fun c hc _ => wp_load_bind fun d hd _ => ?_
  have hbd := pushHashing.rely_trans hc hd
  dsimp only
  split
  · show Carried _ _ _ _
    rw [Carried, hbd.1, List.take_zero]
    exact (ite_self _).symm
  · refine wp_seq (commit_hash hd.2.symm) trivial fun _ e _ he => ?_
    rw [hbd.1, hbd.2] at he
    exact he

theorem fetch_hash {geo : Circular.Geometry} {hash : Bool} {head n : ℕ}
    (hh : hash = b.hashEnabled) :
    wp popHashing (fetch geo hash head n)
      (fun out b' => Carried b.hashEnabled b.popHash b'.popHash out) b := by
  unfold fetch
  refine wp_load_bind fun c hc _ => wp_load_bind fun d hd _ => ?_
  have hbd := popHashing.rely_trans hc hd
  refine wp_when_bind (fun ht => ?_) fun hf => ?_
  · refine wp_modify_bind fun e he _ => ⟨⟨rfl, rfl⟩, trivial, ?_⟩
    refine wp_modify_bind fun f hf _ => ⟨⟨rfl, rfl⟩, trivial, ?_⟩
    show Carried _ _ _ _
    rw [Carried, ← hh, ht, if_pos rfl, ← hbd.1, ← he.1]
    exact hf.1
  · refine wp_modify_bind fun e he _ => ⟨⟨rfl, rfl⟩, trivial, ?_⟩
    show Carried _ _ _ _
    rw [Carried, ← hh, if_neg hf, ← hbd.1]
    exact he.1

/-- A pop carries its hash over the bytes it hands out. -/
theorem pop_hash {n : ℕ} : wp popHashing (pop n)
    (fun out b' => Carried b.hashEnabled b.popHash b'.popHash out) b := by
  unfold pop
  refine wp_load_bind fun c hc _ => wp_load_bind fun d hd _ => ?_
  have hbd := popHashing.rely_trans hc hd
  dsimp only
  split
  · show Carried _ _ _ _
    rw [Carried, hbd.1]
    exact (ite_self _).symm
  · refine wp_mono (fetch_hash hd.2.symm) trivial fun out e _ he => ?_
    rw [hbd.1, hbd.2] at he
    exact he

end StreamBuf

/-! ## Both sides -/

/-- A ring with the bytes that its pushes have accepted and its pops have handed out. -/
structure RingHashes where
  sb : StreamBuf
  pushed : List UInt8 := []
  popped : List UInt8 := []

namespace RingHashes

/-- The ring inside the run. -/
def sbLoc : Loc RingHashes StreamBuf where
  get := (·.sb)
  set := fun sb s => { s with sb }
  get_set := fun _ _ => rfl

/-- One call of `aiopquic_stream_buf_push`. -/
def pushCall (data : List UInt8) : Prog RingHashes Unit := do
  let n ← (push data).on sbLoc
  modify fun s => { s with pushed := s.pushed ++ data.take n }

/-- One call of `aiopquic_stream_buf_pop`. -/
def popCall (maxBytes : ℕ) : Prog RingHashes Unit := do
  let out ← (pop maxBytes).on sbLoc
  modify fun s => { s with popped := s.popped ++ out }

/-- What each thread may call. -/
inductive Menu : Thread → RingHashes → Prog RingHashes Unit → Prop
  | push (s : RingHashes) (data : List UInt8) (hpos : data ≠ []) : Menu .asyncio s (pushCall data)
  | pop (s : RingHashes) (maxBytes : ℕ) : Menu .worker s (popCall maxBytes)

/-- What holds between any two steps. -/
structure Inv (enabled : Bool) (s : RingHashes) : Prop where
  sb : s.sb.Wf
  hash : s.sb.hashEnabled = enabled
  pushed : s.pushed <+: s.sb.bytes
  popped : s.popped <+: s.sb.bytes

/-- A step of the worker. -/
structure WorkerMoves (s t : RingHashes) : Prop where
  sb : ConsumerMoves s.sb t.sb
  hash : t.sb.pushHash = s.sb.pushHash
  pushed : t.pushed = s.pushed

/-- A step of the asyncio thread. -/
structure AsyncioMoves (s t : RingHashes) : Prop where
  sb : ProducerMoves s.sb t.sb
  hash : t.sb.popHash = s.sb.popHash
  popped : t.popped = s.popped

/-- The worker outside a call. -/
structure WorkerIdle (s : RingHashes) : Prop where
  head : s.popped.length = s.sb.head
  hash : s.sb.popHash = hashOf s.sb.hashEnabled s.popped

/-- The asyncio thread outside a call. -/
structure AsyncioIdle (s : RingHashes) : Prop where
  pushed : s.pushed = s.sb.bytes
  hash : s.sb.pushHash = hashOf s.sb.hashEnabled s.pushed

variable {enabled : Bool} {s t u : RingHashes}

theorem WorkerMoves.refl (s : RingHashes) : WorkerMoves s s := ⟨.refl _, rfl, rfl⟩

theorem WorkerMoves.trans (h : WorkerMoves s t) (h' : WorkerMoves t u) : WorkerMoves s u :=
  ⟨h.sb.trans h'.sb, h'.hash.trans h.hash, h'.pushed.trans h.pushed⟩

theorem AsyncioMoves.refl (s : RingHashes) : AsyncioMoves s s := ⟨.refl _, rfl, rfl⟩

theorem AsyncioMoves.trans (h : AsyncioMoves s t) (h' : AsyncioMoves t u) : AsyncioMoves s u :=
  ⟨h.sb.trans h'.sb, h'.hash.trans h.hash, h'.popped.trans h.popped⟩

theorem WorkerIdle.stable (h : WorkerIdle s) (hm : AsyncioMoves s t) : WorkerIdle t :=
  ⟨by rw [hm.popped, hm.sb.head, h.head], by rw [hm.hash, hm.popped, hm.sb.hash, h.hash]⟩

theorem AsyncioIdle.stable (h : AsyncioIdle s) (hm : WorkerMoves s t) : AsyncioIdle t :=
  ⟨by rw [hm.pushed, h.pushed, bytes, bytes, hm.sb.writes],
    by rw [hm.hash, hm.pushed, hm.sb.hash, h.hash]⟩

/-- The rely–guarantee outline. -/
def outline (enabled : Bool) : Outline Menu :=
  duo (Inv enabled) WorkerMoves AsyncioMoves WorkerIdle AsyncioIdle .refl .trans .refl .trans
    (fun h hm _ => h.stable hm) (fun h hm _ => h.stable hm)

/-- The ring during a push. -/
theorem embeds_asyncio (pushed : List UInt8) :
    Embeds ((outline enabled).contract .asyncio) sbLoc
      ((producer fun _ _ => True).both pushHashing) (·.pushed = pushed) where
  inv := fun s hs => ⟨hs.sb, trivial⟩
  rely := fun s t hst hm _ => ⟨⟨hm.sb, hm.hash, hm.sb.hash⟩, hm.pushed.trans hst⟩
  step := by
    intro s sb hs hst hguar hsb
    have hgrow : s.sb.bytes <+: sb.bytes := (ProducerStep.moves hguar.1).bytes
    exact ⟨⟨hguar.1.moves, hguar.2.1, rfl⟩,
      ⟨hsb.1, hguar.2.2.trans hs.hash, hs.pushed.trans hgrow, hs.popped.trans hgrow⟩, hst⟩

/-- The ring during a pop. -/
theorem embeds_worker (popped : List UInt8) :
    Embeds ((outline enabled).contract .worker) sbLoc (consumer.both popHashing)
      (·.popped = popped) where
  inv := fun s hs => ⟨hs.sb, trivial⟩
  rely := fun s t hst hm _ => ⟨⟨hm.sb, hm.hash, hm.sb.hash⟩, hm.popped.trans hst⟩
  step := by
    intro s sb hs hst hguar hsb
    have hmoves : ConsumerMoves s.sb sb := ConsumerStep.moves hguar.1
    have hsame : sb.bytes = s.sb.bytes := by rw [bytes, bytes, hmoves.writes]
    refine ⟨⟨hmoves, hguar.2.1, rfl⟩, ⟨hsb.1, hguar.2.2.trans hs.hash, ?_, ?_⟩, hst⟩
    · show s.pushed <+: sb.bytes
      rw [hsame]
      exact hs.pushed
    · show s.popped <+: sb.bytes
      rw [hsame]
      exact hs.popped

/-- A push keeps the outline. -/
theorem pushCall_spec {data : List UInt8} (hs : Inv enabled s) (hidle : AsyncioIdle s)
    (hpos : data ≠ []) :
    wp ((outline enabled).contract .asyncio) (pushCall data) (fun _ => AsyncioIdle) s := by
  have hpush : wp (producer fun _ _ => True) (push data) (fun r b =>
      b.bytes = s.sb.bytes ++ data.take r) s.sb := by
    refine wp_mono (push_spec hpos fun _ _ _ _ _ _ => trivial) hs.sb fun r b _ h => ?_
    obtain ⟨-, -, -, -, hpost⟩ := h
    split at hpost
    · rename_i hr
      rw [hr, List.take_zero, List.append_nil, bytes, bytes, hpost.writes]
    · rw [bytes, bytes, hpost.writes, List.flatten_append, List.flatten_singleton]
  unfold pushCall
  refine wp_seq (wp_on (embeds_asyncio s.pushed) rfl (wp_both hpush push_hash)) hs
    fun r t ht h => ?_
  obtain ⟨⟨hbytes, hhash⟩, hsame⟩ := h
  refine wp_modify fun u htu hu => ?_
  have hidle' : AsyncioIdle { u with pushed := u.pushed ++ data.take r } := by
    have hpushed : u.pushed = s.sb.bytes := by rw [htu.pushed, hsame, hidle.pushed]
    refine ⟨?_, ?_⟩
    · show u.pushed ++ data.take r = u.sb.bytes
      rw [hpushed, show u.sb.bytes = t.sb.bytes by rw [bytes, bytes, htu.sb.writes]]
      exact hbytes.symm
    · show u.sb.pushHash = hashOf u.sb.hashEnabled (u.pushed ++ data.take r)
      rw [htu.hash, hu.hash, hpushed, ← hs.hash]
      exact hhash.hashOf (hidle.pushed ▸ hidle.hash)
  exact ⟨⟨.refl _, rfl, rfl⟩,
    ⟨hu.sb, hu.hash, hidle'.pushed ▸ List.prefix_rfl, hu.popped⟩, hidle'⟩

/-- So does a pop. -/
theorem popCall_spec {maxBytes : ℕ} (hs : Inv enabled s) (hidle : WorkerIdle s) :
    wp ((outline enabled).contract .worker) (popCall maxBytes) (fun _ => WorkerIdle) s := by
  unfold popCall
  refine wp_seq (wp_on (embeds_worker s.popped) rfl (wp_both (pop_spec hs.sb) pop_hash)) hs
    fun out t ht h => ?_
  obtain ⟨⟨hpop, hhash⟩, hsame⟩ := h
  refine wp_modify fun u htu hu => ?_
  have hpopped : u.popped = s.popped := htu.popped.trans hsame
  have hidle' : WorkerIdle { u with popped := u.popped ++ out } := by
    refine ⟨?_, ?_⟩
    · show (u.popped ++ out).length = u.sb.head
      rw [List.length_append, hpopped, hidle.head, htu.sb.head]
      exact hpop.head.symm
    · show u.sb.popHash = hashOf u.sb.hashEnabled (u.popped ++ out)
      rw [htu.hash, hu.hash, hpopped, ← hs.hash]
      exact hhash.hashOf hidle.hash
  have hprefix : s.popped ++ out <+: t.sb.bytes := by
    have hold : s.popped = t.sb.bytes.take s.sb.head := by
      rw [← hidle.head, ← List.prefix_iff_eq_take]
      exact hsame ▸ ht.popped
    have hnew : out = (t.sb.bytes.drop s.sb.head).take out.length := hpop.eq
    rw [hold, hnew, ← List.take_add]
    exact List.take_prefix _ _
  refine ⟨⟨.refl _, rfl, rfl⟩, ⟨hu.sb, hu.hash, hu.pushed, ?_⟩, hidle'⟩
  show u.popped ++ out <+: u.sb.bytes
  rw [hpopped]
  exact hprefix.trans htu.sb.bytes

theorem outline_sound (enabled : Bool) : (outline enabled).Sound := by
  rintro i s p hs hidle hp
  cases hp with
  | push _ data hpos => exact pushCall_spec hs hidle hpos
  | pop _ maxBytes => exact popCall_spec hs hidle

/-! ## The theorem -/

/-- The hashes are those of the bytes moved, and equal once both sides have moved as many. -/
structure Audited (enabled : Bool) (c : Config Thread RingHashes) : Prop where
  popped : c.mem.popped <+: c.mem.sb.bytes
  pushed : c.mem.pushed <+: c.mem.sb.bytes
  pushHash : c.Idle .asyncio →
    c.mem.pushed = c.mem.sb.bytes ∧ c.mem.sb.pushHash = hashOf enabled c.mem.pushed
  popHash : c.Idle .worker → c.mem.sb.popHash = hashOf enabled c.mem.popped
  equal : c.Idle .asyncio → c.Idle .worker → c.mem.sb.head = c.mem.sb.tail →
    c.mem.popped = c.mem.pushed ∧ c.mem.sb.popHash = c.mem.sb.pushHash

/-- A ring's hashes audit it, under every interleaving of its producer and its consumer. -/
theorem ring_hashes_audit (capacity : UInt32) (enabled : Bool) {c : Config Thread RingHashes}
    (hc : Reachable Menu { sb := create capacity enabled } c) : Audited enabled c := by
  have hinit : Inv enabled { sb := create capacity enabled } :=
    ⟨create_wf capacity enabled, rfl, List.nil_prefix, List.nil_prefix⟩
  have hidle : ∀ i : Thread, (outline enabled).idle i { sb := create capacity enabled } := by
    intro i
    cases i with
    | worker => exact ⟨rfl, (ite_self _).symm⟩
    | asyncio => exact ⟨rfl, (ite_self _).symm⟩
  have h := (outline enabled).reachable (outline_sound enabled) hinit hidle hc
  have hinv : Inv enabled c.mem := h.1
  have hpush : c.Idle .asyncio → c.mem.pushed = c.mem.sb.bytes ∧
      c.mem.sb.pushHash = hashOf enabled c.mem.pushed := by
    intro ha
    have hidle : AsyncioIdle c.mem := h.idle ha
    exact ⟨hidle.pushed, hinv.hash ▸ hidle.hash⟩
  have hpop : c.Idle .worker → c.mem.sb.popHash = hashOf enabled c.mem.popped := by
    intro hw
    have hidle : WorkerIdle c.mem := h.idle hw
    exact hinv.hash ▸ hidle.hash
  refine ⟨hinv.popped, hinv.pushed, hpush, hpop, fun ha hw heq => ?_⟩
  obtain ⟨hpushed, hhash⟩ := hpush ha
  have hidle : WorkerIdle c.mem := h.idle hw
  have hsame : c.mem.popped = c.mem.pushed := by
    rw [hpushed]
    exact hinv.popped.eq_of_length (by rw [hidle.head, heq, hinv.sb.length])
  exact ⟨hsame, by rw [hpop hw, hhash, hsame]⟩

/-- A push and a pop of three bytes. -/
def hashedRun : Config Thread RingHashes :=
  ((((Config.start { sb := create 4 true }).call .asyncio (pushCall [1, 2, 3])).drive
    (.replicate 12 .asyncio)).call .worker (popCall 4)).drive (.replicate 12 .worker)

/-- A push of two more, which wraps, while the worker pops. -/
def wrappedRun : Config Thread RingHashes :=
  ((hashedRun.call .asyncio (pushCall [4, 5])).call .worker (popCall 4)).drive
    ((List.replicate 12 [.asyncio, .worker]).flatten)

theorem hashedRun_reachable : Reachable Menu { sb := create 4 true } hashedRun := by
  have h : Reachable Menu { sb := create 4 true } (Config.start { sb := create 4 true }) := .refl
  have h₁ := (h.call (i := .asyncio) rfl (.push _ [1, 2, 3] (by decide))).drive
    (.replicate 12 .asyncio)
  exact (h₁.call (i := .worker) (by decide +kernel) (.pop _ 4)).drive (.replicate 12 .worker)

theorem ring_hashes_audit_wrappedRun : Audited true wrappedRun ∧
    wrappedRun.mem.pushed = [1, 2, 3, 4, 5] ∧ wrappedRun.isIdle .worker = true := by
  refine ⟨ring_hashes_audit 4 true ?_, by decide +kernel, by decide +kernel⟩
  have h := hashedRun_reachable.call (i := .asyncio) (by decide +kernel)
    (.push _ [4, 5] (by decide))
  exact (h.call (i := .worker) (by decide +kernel) (.pop _ 4)).drive _

end RingHashes

end Aiopquic
