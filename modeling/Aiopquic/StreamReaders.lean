import Aiopquic.Lib.Steps
import Aiopquic.StreamInboxes

/-!
# Reading a stream (`WebTransportSession.receive_stream_data`)

The readers of the streams of an open session. A stream has one reader at a time: a later call finds
the reader before it finished, closed, or left at its `yield`. A reader that was left may still be
closed, by its finalizer.
-/

namespace Aiopquic

/-- A generator of `receive_stream_data`, in `q.get()` or at its `yield`. -/
inductive Reader
  | waiting (q : ℕ)
  | yielded (q : ℕ) (done : Bool)
  deriving DecidableEq, Repr

/-- What a call of `receive_stream_data` did when it was first asked for an event. -/
structure ReadCall where
  /-- The stream's FIN or reset had been yielded before. -/
  afterEnd : Bool
  returned : Bool
  madeInbox : Bool
  deriving DecidableEq, Repr

structure StreamReaders where
  boxes : StreamInboxes := {}
  reader : ℕ → Option Reader := fun _ => none
  /-- The readers left at their `yield` and not closed since, with their `done`. -/
  left : ℕ → List (ℕ × Bool) := fun _ => []
  /-- History, for each stream: the events that came, those that were yielded, and the calls;
  whether an event or a call came yet, and a `WT_STREAM_DESTROY` after that. -/
  arrived : ℕ → List Received := fun _ => []
  yielded : ℕ → List Received := fun _ => []
  calls : ℕ → List ReadCall := fun _ => []
  touched : ℕ → Bool := fun _ => false
  gone : ℕ → Bool := fun _ => false

namespace StreamReaders

variable {s t : StreamReaders} {sid : ℕ}

/-- The stream's FIN or reset has been yielded. -/
def ended (s : StreamReaders) (sid : ℕ) : Bool := (s.yielded sid).any Received.isEnd

/-- An event reaches `_on_event`. -/
def event (s : StreamReaders) (sid : ℕ) (ev : Received) (boxes : StreamInboxes) : StreamReaders :=
  { s with
    boxes
    arrived := Function.update s.arrived sid (s.arrived sid ++ [ev])
    touched := Function.update s.touched sid true }

/-- `receive_stream_data`, up to its first `q.get()` or its return. -/
def call (s : StreamReaders) (sid : ℕ) : StreamReaders :=
  let record (s : StreamReaders) (returned madeInbox : Bool) : StreamReaders :=
    { s with
      calls := Function.update s.calls sid (s.calls sid ++ [⟨s.ended sid, returned, madeInbox⟩])
      touched := Function.update s.touched sid true }
  if s.boxes.inboxDone sid then record s true false
  else
    match s.boxes.streamInbox sid with
    | some q => { record s false false with reader := Function.update s.reader sid (some (.waiting q)) }
    | none =>
      { record s false true with
        boxes := s.boxes.newInbox sid
        reader := Function.update s.reader sid (some (.waiting s.boxes.made)) }

/-- `q.get()` returns and its event is yielded; `none` while the inbox is empty. -/
def get (s : StreamReaders) (sid q : ℕ) : Option StreamReaders :=
  match (s.boxes.inboxes q).queue with
  | [] => none
  | ev :: rest => some
    { s with
      boxes := { s.boxes with
        inboxes := Function.update s.boxes.inboxes q { s.boxes.inboxes q with queue := rest } }
      reader := Function.update s.reader sid (some (.yielded q ev.isEnd))
      yielded := Function.update s.yielded sid (s.yielded sid ++ [ev]) }

/-- The reader is asked for another event after a `yield`. -/
def resume (s : StreamReaders) (sid q : ℕ) (done : Bool) : StreamReaders :=
  if done then
    { s with boxes := s.boxes.finish sid q true, reader := Function.update s.reader sid none }
  else { s with reader := Function.update s.reader sid (some (.waiting q)) }

/-- `aclose()` of the stream's reader, or a cancellation in its `q.get()`. -/
def close (s : StreamReaders) (sid : ℕ) : Option StreamReaders :=
  match s.reader sid with
  | none => none
  | some (.waiting q) => some
    { s with boxes := s.boxes.finish sid q false, reader := Function.update s.reader sid none }
  | some (.yielded q done) => some
    { s with boxes := s.boxes.finish sid q done, reader := Function.update s.reader sid none }

/-- A reader that was left is closed. -/
def finalize (s : StreamReaders) (sid k : ℕ) : Option StreamReaders :=
  ((s.left sid)[k]?).map fun r =>
    { s with
      boxes := s.boxes.finish sid r.1 r.2
      left := Function.update s.left sid ((s.left sid).eraseIdx k) }

inductive Act
  | streamData (sid : ℕ) (payload : List UInt8)
  | streamFin (sid : ℕ) (payload : List UInt8)
  | streamReset (sid errorCode : ℕ)
  | streamDestroy (sid : ℕ)
  | call (sid : ℕ)
  | get (sid : ℕ)
  | resume (sid : ℕ)
  | leave (sid : ℕ)
  | close (sid : ℕ)
  | finalize (sid k : ℕ)
  deriving DecidableEq, Repr

def step (s : StreamReaders) : Act → Option StreamReaders
  | .streamData sid payload =>
    some (s.event sid (.data payload false) (s.boxes.onStreamData false sid payload false))
  | .streamFin sid payload =>
    some (s.event sid (.data payload true) (s.boxes.onStreamData false sid payload true))
  | .streamReset sid errorCode =>
    some (s.event sid (.reset errorCode) (s.boxes.onStreamReset false sid errorCode))
  | .streamDestroy sid => some
    { s with
      boxes := s.boxes.onWtStreamDestroy sid
      gone := Function.update s.gone sid (s.gone sid || s.touched sid) }
  | .call sid => if s.reader sid = none then some (s.call sid) else none
  | .get sid =>
    match s.reader sid with
    | some (.waiting q) => s.get sid q
    | _ => none
  | .resume sid =>
    match s.reader sid with
    | some (.yielded q done) => some (s.resume sid q done)
    | _ => none
  | .leave sid =>
    match s.reader sid with
    | some (.yielded q done) => some
      { s with
        reader := Function.update s.reader sid none
        left := Function.update s.left sid ((q, done) :: s.left sid) }
    | _ => none
  | .close sid => s.close sid
  | .finalize sid k => s.finalize sid k

/-- What the readers of a stream yield. -/
structure Reads (s : StreamReaders) (sid : ℕ) : Prop where
  /-- The events in their order, each once, up to the first FIN or reset. -/
  inOrder : s.yielded sid <+: s.arrived sid
  last : ∀ ev ∈ (s.yielded sid).dropLast, ev.isEnd = false
  /-- A waiting reader is about to get all that came and was not yielded. -/
  next : ∀ q, s.reader sid = some (.waiting q) → s.yielded sid ++ (s.boxes.inboxes q).queue =
    s.arrived sid
  /-- Until the end is yielded, a call finds all that came and was not yielded. -/
  kept : s.ended sid = false → s.boxes.inboxDone sid = false ∧
    s.yielded sid ++ ((s.boxes.streamInbox sid).elim [] fun q => (s.boxes.inboxes q).queue) =
      s.arrived sid
  /-- A call after the end returns at once, and makes no inbox. -/
  after : ∀ c ∈ s.calls sid, c.afterEnd = true → c.returned = true ∧ c.madeInbox = false

/-- Where the end was yielded and `receive_stream_data` is called again, no reader of the stream
stands at the `yield` of its end, and no `WT_STREAM_DESTROY` of it came after its first event or
call. -/
def Ok (s : StreamReaders) : Act → Prop
  | .call sid => s.ended sid = true → (∀ r ∈ s.left sid, r.2 = false) ∧ s.gone sid = false
  | _ => True

instance : ∀ act, Decidable (s.Ok act)
  | .call _ => inferInstanceAs (Decidable (_ → _))
  | .streamData _ _ | .streamFin _ _ | .streamReset _ _ | .streamDestroy _ | .get _ | .resume _ |
    .leave _ | .close _
  | .finalize _ _ => .isTrue trivial

/-! ## The invariant of one stream -/

/-- The inbox in the dictionary holds what was put in it and not got since. -/
def pendingOf (s : StreamReaders) (sid : ℕ) : List Received :=
  (s.boxes.streamInbox sid).elim [] fun q => (s.boxes.inboxes q).queue

structure At (s : StreamReaders) (sid : ℕ) : Prop where
  inOrder : s.yielded sid <+: s.arrived sid
  last : ∀ ev ∈ (s.yielded sid).dropLast, ev.isEnd = false
  kept : s.ended sid = false → s.boxes.inboxDone sid = false ∧ s.yielded sid ++ s.pendingOf sid =
    s.arrived sid
  after : ∀ c ∈ s.calls sid, c.afterEnd = true → c.returned = true ∧ c.madeInbox = false
  touched : s.boxes.streamInbox sid ≠ none ∨ s.ended sid = true → s.touched sid = true
  waiting : ∀ q, s.reader sid = some (.waiting q) → s.boxes.streamInbox sid = some q ∧
    s.ended sid = false
  yielding : ∀ q done, s.reader sid = some (.yielded q done) →
    done = s.ended sid ∧ (done = false → s.boxes.streamInbox sid = some q)
  left : ∀ q, (q, true) ∈ s.left sid → s.ended sid = true
  alive : s.gone sid = false → ∀ q, s.boxes.streamInbox sid = some q →
    (s.boxes.inboxes q).destroyed = false
  /-- The reader of the end has still to release the inbox, or has marked the stream. -/
  finished : s.ended sid = true → s.gone sid = false →
    (∃ q, s.boxes.streamInbox sid = some q ∧
      (s.reader sid = some (.yielded q true) ∨ (q, true) ∈ s.left sid)) ∨
    s.boxes.inboxDone sid = true ∧ s.boxes.streamInbox sid = none

theorem At.reads (h : At s sid) : Reads s sid where
  inOrder := h.inOrder
  last := h.last
  next q hq := by
    obtain ⟨hbox, hend⟩ := h.waiting q hq
    have hkept := (h.kept hend).2
    rw [pendingOf, hbox] at hkept
    exact hkept
  kept := h.kept
  after := h.after

/-- A step of another stream. -/
theorem At.frame (h : At s sid) (hboxes : StreamInboxes.Same s.boxes t.boxes sid)
    (hreader : t.reader sid = s.reader sid)
    (hleft : t.left sid = s.left sid) (harrived : t.arrived sid = s.arrived sid)
    (hyielded : t.yielded sid = s.yielded sid) (hcalls : t.calls sid = s.calls sid)
    (htouched : t.touched sid = s.touched sid) (hgone : t.gone sid = s.gone sid) : At t sid := by
  have hended : t.ended sid = s.ended sid := congrArg (List.any · Received.isEnd) hyielded
  have hpending : t.pendingOf sid = s.pendingOf sid := by
    rw [pendingOf, pendingOf, hboxes.streamInbox]
    cases hq : s.boxes.streamInbox sid with
    | none => rfl
    | some q => exact congrArg Inbox.queue (hboxes.inbox q hq)
  constructor
  · rw [hyielded, harrived]
    exact h.inOrder
  · rw [hyielded]
    exact h.last
  · rw [hended, hboxes.inboxDone, hyielded, hpending, harrived]
    exact h.kept
  · rw [hcalls]
    exact h.after
  · rw [hboxes.streamInbox, hended, htouched]
    exact h.touched
  · rw [hreader, hboxes.streamInbox, hended]
    exact h.waiting
  · rw [hreader, hboxes.streamInbox, hended]
    exact h.yielding
  · rw [hleft, hended]
    exact h.left
  · rw [hgone, hboxes.streamInbox]
    intro hg q hq
    rw [hboxes.inbox q hq]
    exact h.alive hg q hq
  · rw [hended, hgone, hreader, hleft, hboxes.streamInbox, hboxes.inboxDone]
    exact h.finished

/-- An event of the stream. -/
theorem At.event (h : At s sid) (ev : Received) :
    At (s.event sid ev (s.boxes.deliver sid ev)) sid := by
  have harrived : (s.event sid ev (s.boxes.deliver sid ev)).arrived sid = s.arrived sid ++ [ev] :=
    Function.update_self ..
  have htouched : (s.event sid ev (s.boxes.deliver sid ev)).touched sid = true :=
    Function.update_self ..
  refine ⟨?_, h.last, ?_, h.after, fun _ => htouched, ?_, ?_, h.left, ?_, ?_⟩
  · rw [harrived]
    exact h.inOrder.trans (List.prefix_append ..)
  · intro hend
    obtain ⟨hdone, hkept⟩ := h.kept hend
    obtain ⟨q, hq, hdone', hcases⟩ := StreamInboxes.deliver_cases hdone ev
    refine ⟨hdone', ?_⟩
    rw [harrived, ← hkept, List.append_assoc]
    show s.yielded sid ++ ((s.boxes.deliver sid ev).streamInbox sid).elim [] _ = _
    rw [hq, pendingOf]
    rcases hcases with ⟨hold, hbox⟩ | ⟨hnone, hbox⟩
    · rw [hold]
      exact congrArg (s.yielded sid ++ ·) (congrArg Inbox.queue hbox)
    · rw [hnone]
      exact congrArg (s.yielded sid ++ ·) (congrArg Inbox.queue hbox)
  · intro q hq
    obtain ⟨hbox, hend⟩ := h.waiting q hq
    refine ⟨?_, hend⟩
    show (s.boxes.deliver sid ev).streamInbox sid = some q
    rw [StreamInboxes.deliver_of_some hbox]
    exact hbox
  · intro q done hq
    obtain ⟨hdone, hbox⟩ := h.yielding q done hq
    refine ⟨hdone, fun hfalse => ?_⟩
    show (s.boxes.deliver sid ev).streamInbox sid = some q
    rw [StreamInboxes.deliver_of_some (hbox hfalse)]
    exact hbox hfalse
  · intro hgone q hq
    rcases StreamInboxes.deliver_destroyed hq with hd | ⟨hs, hd⟩
    · exact hd
    · exact hd.trans (h.alive hgone q hs)
  · intro hend hgone
    rcases h.finished hend hgone with ⟨q, hq, hr⟩ | ⟨hd, hq⟩
    · refine Or.inl ⟨q, ?_, hr⟩
      show (s.boxes.deliver sid ev).streamInbox sid = some q
      rw [StreamInboxes.deliver_of_some hq]
      exact hq
    · show _ ∨ (s.boxes.deliver sid ev).inboxDone sid = true ∧
        (s.boxes.deliver sid ev).streamInbox sid = none
      rw [StreamInboxes.deliver_of_done hq hd]
      exact Or.inr ⟨hd, hq⟩

/-- A `WT_STREAM_DESTROY` of the stream. -/
theorem At.destroy (h : At s sid) : At { s with
    boxes := s.boxes.onWtStreamDestroy sid
    gone := Function.update s.gone sid (s.gone sid || s.touched sid) } sid := by
  have htouched : Function.update s.gone sid (s.gone sid || s.touched sid) sid = false →
    s.touched sid = false := by
    rw [Function.update_self, Bool.or_eq_false_iff]
    exact And.right
  have hbox : (s.boxes.onWtStreamDestroy sid).streamInbox = s.boxes.streamInbox := by
    rw [StreamInboxes.onWtStreamDestroy]
    dsimp only
    split <;> rfl
  have hdone : (s.boxes.onWtStreamDestroy sid).inboxDone sid = false := by
    rw [StreamInboxes.onWtStreamDestroy]
    dsimp only
    split <;> exact Function.update_self ..
  have hqueue : ∀ q, ((s.boxes.onWtStreamDestroy sid).inboxes q).queue =
    (s.boxes.inboxes q).queue := by
    intro q
    rw [StreamInboxes.onWtStreamDestroy]
    dsimp only
    split
    · dsimp only
      rw [Function.update_apply]
      split
      · rename_i heq
        rw [heq]
      · rfl
    · rfl
  refine ⟨h.inOrder, h.last, ?_, h.after, ?_, ?_, ?_, h.left, ?_, ?_⟩
  · intro hend
    refine ⟨hdone, ?_⟩
    rw [← (h.kept hend).2]
    simp only [pendingOf, hbox, hqueue]
  · rw [hbox]
    exact h.touched
  · rw [hbox]
    exact h.waiting
  · rw [hbox]
    exact h.yielding
  · intro hg q hq
    -- An inbox there is means that the stream was touched.
    rw [hbox] at hq
    exact absurd ((htouched hg).symm.trans (h.touched (Or.inl (by simp [hq])))) (by simp)
  · intro hend hg
    exact absurd ((htouched hg).symm.trans (h.touched (Or.inr hend))) (by simp)

/-- A reader of the stream goes, and runs its `finally`. -/
theorem At.finish {q : ℕ} {done : Bool} {reader : ℕ → Option Reader} {left : ℕ → List (ℕ × Bool)}
    (h : At s sid)
    (hreader : ∀ r, reader sid = some r → s.reader sid = some r)
    (hleft : ∀ r ∈ left sid, r ∈ s.left sid)
    (hdone : done = true → s.ended sid = true)
    (hwas : ∀ q', (s.reader sid = some (.yielded q' true) ∨ (q', true) ∈ s.left sid) →
      (reader sid = some (.yielded q' true) ∨ (q', true) ∈ left sid) ∨ q' = q ∧ done = true) :
    At { s with boxes := s.boxes.finish sid q done, reader, left } sid := by
  cases done with
  | false =>
    rw [StreamInboxes.finish_false]
    refine { h with
      waiting := fun q' hq' => h.waiting q' (hreader _ hq')
      yielding := fun q' d hq' => h.yielding q' d (hreader _ hq')
      left := fun q' hq' => h.left q' (hleft _ hq')
      finished := fun hend hg => ?_ }
    rcases h.finished hend hg with ⟨q', hq', hr⟩ | hmarked
    · rcases hwas q' hr with hr | ⟨_, hf⟩
      · exact Or.inl ⟨q', hq', hr⟩
      · cases hf
    · exact Or.inr hmarked
  | true =>
    have hend := hdone rfl
    by_cases hq : s.boxes.streamInbox sid = some q
    · -- The reader releases the inbox.
      have hnone : (s.boxes.finish sid q true).streamInbox sid = none := by
        rw [StreamInboxes.finish, if_pos ⟨rfl, hq⟩]
        dsimp only
        split <;> exact Function.update_self ..
      refine ⟨h.inOrder, h.last, fun hf => absurd (hend.symm.trans hf) (by simp), h.after, fun _ =>
        h.touched (Or.inr hend), ?_, ?_,
        fun _ _ => hend, ?_, ?_⟩
      · exact fun q' hq' => absurd (hend.symm.trans (h.waiting q' (hreader _ hq')).2) (by simp)
      · intro q' d hq'
        have hd := (h.yielding q' d (hreader _ hq')).1
        exact ⟨hd, fun hf => absurd (hend.symm.trans (hd.symm.trans hf)) (by simp)⟩
      · intro _ q' hq'
        exact absurd (hnone.symm.trans hq') (by simp)
      · intro _ hg
        refine Or.inr ⟨?_, hnone⟩
        show (s.boxes.finish sid q true).inboxDone sid = true
        rw [StreamInboxes.finish, if_pos ⟨rfl, hq⟩]
        dsimp only
        rw [if_pos (h.alive hg q hq)]
        exact Function.update_self ..
    · have hsame : s.boxes.finish sid q true = s.boxes := if_neg fun hq' => hq hq'.2
      rw [hsame]
      refine { h with
        waiting := fun q' hq' => h.waiting q' (hreader _ hq')
        yielding := fun q' d hq' => h.yielding q' d (hreader _ hq')
        left := fun q' hq' => h.left q' (hleft _ hq')
        finished := fun hend hg => ?_ }
      rcases h.finished hend hg with ⟨q', hq', hr⟩ | hmarked
      · rcases hwas q' hr with hr | ⟨heq, _⟩
        · exact Or.inl ⟨q', hq', hr⟩
        · exact absurd (heq ▸ hq') hq
      · exact Or.inr hmarked

/-- A call of the stream. -/
theorem At.call (h : At s sid) (hnone : s.reader sid = none) (hok : s.Ok (.call sid)) :
    At (s.call sid) sid := by
  have hcalls : ∀ returned madeInbox, (s.ended sid = true → returned = true ∧ madeInbox = false) →
      ∀ c ∈ Function.update s.calls sid (s.calls sid ++ [⟨s.ended sid, returned, madeInbox⟩]) sid,
        c.afterEnd = true → c.returned = true ∧ c.madeInbox = false := by
    intro returned madeInbox hend c hc
    rw [Function.update_self] at hc
    rcases List.mem_append.1 hc with hc | hc
    · exact h.after c hc
    · rw [List.mem_singleton.1 hc]
      exact hend
  have htouched : Function.update s.touched sid true sid = true := Function.update_self ..
  rw [StreamReaders.call]
  cases hd : s.boxes.inboxDone sid with
  | true =>
    rw [if_pos rfl]
    exact { h with after := hcalls _ _ fun _ => ⟨rfl, rfl⟩, touched := fun _ => htouched }
  | false =>
    -- The stream is not marked, so its end was not yielded.
    have hend : s.ended sid = false := by
      by_contra hend
      have hend : s.ended sid = true := by simpa using hend
      obtain ⟨hleft, hgone⟩ := hok hend
      rcases h.finished hend hgone with ⟨q, _, hr | hr⟩ | ⟨hd', _⟩
      · exact (nomatch hnone.symm.trans hr)
      · exact (nomatch hleft _ hr)
      · exact (nomatch hd.symm.trans hd')
    have hnot : ∀ b c : Bool, s.ended sid = true → b = true ∧ c = false := fun _ _ he =>
      (nomatch hend.symm.trans he)
    have hreader :
      ∀ q, Function.update s.reader sid (some (Reader.waiting q)) sid = some (.waiting q) :=
      fun _ => Function.update_self ..
    obtain ⟨_, hkept⟩ := h.kept hend
    rw [if_neg Bool.false_ne_true]
    cases hq : s.boxes.streamInbox sid with
    | some q =>
      refine { h with after := hcalls _ _ (hnot _ _), touched := fun _ => htouched, waiting := ?_, yielding := ?_,
                      finished := fun he => (nomatch hend.symm.trans he) }
      · intro q' hq'
        obtain rfl := Reader.waiting.inj (Option.some.inj ((hreader q).symm.trans hq'))
        exact ⟨hq, hend⟩
      · intro q' d hq'
        exact (nomatch (hreader q).symm.trans hq')
    | none =>
      have hbox : (s.boxes.newInbox sid).streamInbox sid = some s.boxes.made :=
        Function.update_self ..
      have hinbox : (s.boxes.newInbox sid).inboxes s.boxes.made = { stream := sid } :=
        Function.update_self ..
      refine { h with kept := ?_, after := hcalls _ _ (hnot _ _), touched := fun _ => htouched, waiting := ?_,
                      yielding := ?_, alive := ?_, finished := fun he =>
                        (nomatch hend.symm.trans he) }
      · intro _
        refine ⟨hd, ?_⟩
        rw [← hkept]
        simp [pendingOf, hbox, hinbox, hq]
      · intro q' hq'
        obtain rfl := Reader.waiting.inj (Option.some.inj ((hreader s.boxes.made).symm.trans hq'))
        exact ⟨hbox, hend⟩
      · intro q' d hq'
        exact (nomatch (hreader s.boxes.made).symm.trans hq')
      · intro _ q' hq'
        obtain rfl := Option.some.inj (hbox.symm.trans hq')
        exact congrArg Inbox.destroyed hinbox

/-- The waiting reader of the stream gets an event. -/
theorem At.get {q : ℕ} (h : At s sid) (hq : s.reader sid = some (.waiting q))
    (hstep : s.get sid q = some t) :
    At t sid := by
  obtain ⟨hbox, hend⟩ := h.waiting q hq
  obtain ⟨hdone, hkept⟩ := h.kept hend
  rw [StreamReaders.get] at hstep
  cases hqueue : (s.boxes.inboxes q).queue with
  | nil =>
    rw [hqueue] at hstep
    exact (nomatch hstep)
  | cons ev rest =>
    rw [hqueue] at hstep
    cases hstep
    rw [pendingOf, hbox, Option.elim_some, hqueue] at hkept
    have hyielded :
      Function.update s.yielded sid (s.yielded sid ++ [ev]) sid = s.yielded sid ++ [ev] :=
      Function.update_self ..
    have hany : (Function.update s.yielded sid (s.yielded sid ++ [ev]) sid).any Received.isEnd =
      ev.isEnd := by
      have hnone : (s.yielded sid).any Received.isEnd = false := hend
      rw [hyielded, List.any_append, hnone]
      simp
    have hreader : Function.update s.reader sid (some (Reader.yielded q ev.isEnd)) sid =
      some (.yielded q ev.isEnd) :=
      Function.update_self ..
    have hinbox : Function.update s.boxes.inboxes q { s.boxes.inboxes q with queue := rest } q =
        { s.boxes.inboxes q with queue := rest } := Function.update_self ..
    refine ⟨?_, ?_, ?_, h.after, ?_, ?_, ?_, ?_, ?_, ?_⟩
    · show Function.update s.yielded sid (s.yielded sid ++ [ev]) sid <+: s.arrived sid
      rw [hyielded]
      exact ⟨rest, by rw [List.append_assoc]; exact hkept⟩
    · show ∀ e ∈ (Function.update s.yielded sid (s.yielded sid ++ [ev]) sid).dropLast,
        e.isEnd = false
      rw [hyielded, List.dropLast_concat]
      simpa [ended] using hend
    · intro _
      refine ⟨hdone, ?_⟩
      show Function.update s.yielded sid (s.yielded sid ++ [ev]) sid ++
        (s.boxes.streamInbox sid).elim [] _ = s.arrived sid
      rw [hyielded, hbox, Option.elim_some, List.append_assoc]
      refine (congrArg (fun l => s.yielded sid ++ ([ev] ++ l)) ?_).trans hkept
      exact congrArg Inbox.queue hinbox
    · exact fun _ => h.touched (Or.inl (by simp [hbox]))
    · intro q' hq'
      exact (nomatch hreader.symm.trans hq')
    · intro q' d hq'
      obtain ⟨rfl, rfl⟩ := Reader.yielded.inj (Option.some.inj (hreader.symm.trans hq'))
      exact ⟨hany.symm, fun _ => hbox⟩
    · intro q' hq'
      exact (nomatch hend.symm.trans (h.left q' hq'))
    · intro hg q' hq'
      obtain rfl := Option.some.inj (hbox.symm.trans hq')
      exact (congrArg Inbox.destroyed hinbox).trans (h.alive hg q hbox)
    · intro he _
      refine Or.inl ⟨q, hbox, Or.inl ?_⟩
      rw [← hany.symm.trans he]
      exact hreader

/-! ## Runs -/

structure Inv (s : StreamReaders) : Prop where
  owned : s.boxes.Owned
  streams : ∀ sid, At s sid

theorem inv_empty : Inv {} where
  owned := StreamInboxes.owned_empty
  streams sid := by constructor <;> simp [ended, pendingOf]

/-- A step of one stream, which leaves the others as they are. -/
theorem Inv.of_at (sid : ℕ) (h : Inv s) (howned : t.boxes.Owned) (hat : At t sid)
    (hboxes : ∀ sid', sid' ≠ sid → StreamInboxes.Same s.boxes t.boxes sid')
    (hother : ∀ sid', sid' ≠ sid → t.reader sid' = s.reader sid' ∧ t.left sid' = s.left sid' ∧
      t.arrived sid' = s.arrived sid' ∧ t.yielded sid' = s.yielded sid' ∧ t.calls sid' =
      s.calls sid' ∧
      t.touched sid' = s.touched sid' ∧ t.gone sid' = s.gone sid') : Inv t := by
  refine ⟨howned, fun sid' => ?_⟩
  by_cases hne : sid' = sid
  · exact hne ▸ hat
  · obtain ⟨hr, hl, ha, hy, hc, ht, hg⟩ := hother sid' hne
    exact (h.streams sid').frame (hboxes sid' hne) hr hl ha hy hc ht hg

theorem Inv.event (h : Inv s) (ev : Received) : Inv (s.event sid ev (s.boxes.deliver sid ev)) := by
  refine h.of_at sid (h.owned.deliver sid ev) ((h.streams sid).event ev)
    (fun sid' hne => h.owned.same_deliver hne ev) ?_
  exact fun sid' hne =>
    ⟨rfl, rfl, Function.update_of_ne hne _ _, rfl, rfl, Function.update_of_ne hne _ _, rfl⟩

theorem Inv.finish (sid q : ℕ) (done : Bool) (reader : Option Reader) (left : List (ℕ × Bool))
    (h : Inv s)
    (hreader : ∀ r, reader = some r → s.reader sid = some r) (hleft : ∀ r ∈ left, r ∈ s.left sid)
    (hdone : done = true → s.ended sid = true)
    (hwas : ∀ q', (s.reader sid = some (.yielded q' true) ∨ (q', true) ∈ s.left sid) →
      (reader = some (.yielded q' true) ∨ (q', true) ∈ left) ∨ q' = q ∧ done = true) :
    Inv { s with
      boxes := s.boxes.finish sid q done
      reader := Function.update s.reader sid reader
      left := Function.update s.left sid left } := by
  have hr : Function.update s.reader sid reader sid = reader := Function.update_self ..
  have hl : Function.update s.left sid left sid = left := Function.update_self ..
  refine h.of_at sid (h.owned.finish sid q done) ((h.streams sid).finish ?_ ?_ hdone ?_)
    (fun sid' hne => StreamInboxes.same_finish hne done) ?_
  · rw [hr]
    exact hreader
  · rw [hl]
    exact hleft
  · rw [hr, hl]
    exact hwas
  · exact fun sid' hne => ⟨Function.update_of_ne hne _ _, Function.update_of_ne hne _ _, rfl, rfl,
      rfl, rfl, rfl⟩

/-- The stream's reader goes. -/
theorem Inv.finish_reader {q : ℕ} {done : Bool} (h : Inv s)
    (hdone : done = true → s.ended sid = true)
    (hwas : ∀ q', s.reader sid = some (.yielded q' true) → q' = q ∧ done = true) :
    Inv { s with boxes := s.boxes.finish sid q done, reader := Function.update s.reader sid none } := by
  have hf := h.finish sid q done none (s.left sid)
    (fun _ hr => (nomatch hr)) (fun _ hr => hr) hdone fun q' hr => by
      rcases hr with hr | hr
      · exact Or.inr (hwas q' hr)
      · exact Or.inl (Or.inr hr)
  rw [Function.update_eq_self] at hf
  exact hf

theorem Inv.resume {q : ℕ} {done : Bool} (h : Inv s) (hq : s.reader sid = some (.yielded q done)) :
    Inv (s.resume sid q done) := by
  obtain ⟨hdone, hbox⟩ := (h.streams sid).yielding q done hq
  rw [StreamReaders.resume]
  cases done with
  | true =>
    rw [if_pos rfl]
    apply h.finish_reader fun _ => hdone.symm
    intro q' hq'
    exact ⟨(Reader.yielded.inj (Option.some.inj (hq'.symm.trans hq))).1, rfl⟩
  | false =>
    rw [if_neg Bool.false_ne_true]
    have hr : Function.update s.reader sid (some (Reader.waiting q)) sid = some (.waiting q) :=
      Function.update_self ..
    have hat := h.streams sid
    refine h.of_at sid h.owned ?_ (fun sid' _ => .refl s.boxes sid')
      fun sid' hne => ⟨Function.update_of_ne hne _ _, rfl, rfl, rfl, rfl, rfl, rfl⟩
    refine { hat with waiting := ?_, yielding := ?_, finished := fun he => (nomatch hdone.trans he) }
    · intro q' hq'
      obtain rfl := Reader.waiting.inj (Option.some.inj (hr.symm.trans hq'))
      exact ⟨hbox rfl, hdone.symm⟩
    · exact fun q' d hq' => (nomatch hr.symm.trans hq')

theorem Inv.leave {q : ℕ} {done : Bool} (h : Inv s) (hq : s.reader sid = some (.yielded q done)) :
    Inv { s with
      reader := Function.update s.reader sid none
      left := Function.update s.left sid ((q, done) :: s.left sid) } := by
  have hat := h.streams sid
  obtain ⟨hdone, _⟩ := hat.yielding q done hq
  have hr : Function.update s.reader sid none sid = none := Function.update_self ..
  have hl : ∀ r, r ∈ Function.update s.left sid ((q, done) :: s.left sid) sid ↔ r = (q, done) ∨
    r ∈ s.left sid := by
    intro r
    rw [Function.update_self, List.mem_cons]
  refine h.of_at sid h.owned ?_ (fun sid' _ => .refl s.boxes sid')
    fun sid' hne => ⟨Function.update_of_ne hne _ _, Function.update_of_ne hne _ _, rfl, rfl,
      rfl, rfl, rfl⟩
  refine { hat with waiting := ?_, yielding := ?_, left := ?_, finished := ?_ }
  · exact fun q' hq' => (nomatch hr.symm.trans hq')
  · exact fun q' d hq' => (nomatch hr.symm.trans hq')
  · intro q' hq'
    rcases (hl _).1 hq' with heq | hq'
    · exact hdone.symm.trans (congrArg Prod.snd heq).symm
    · exact hat.left q' hq'
  · intro he hg
    rcases hat.finished he hg with ⟨q', hbox, hq' | hq'⟩ | hmarked
    · refine Or.inl ⟨q', hbox, Or.inr ?_⟩
      obtain ⟨rfl, rfl⟩ := Reader.yielded.inj (Option.some.inj (hq'.symm.trans hq))
      exact (hl _).2 (Or.inl rfl)
    · refine Or.inl ⟨q', hbox, Or.inr ?_⟩
      exact (hl _).2 (Or.inr hq')
    · exact Or.inr hmarked

theorem Inv.close (h : Inv s) (hstep : s.close sid = some t) : Inv t := by
  rw [StreamReaders.close] at hstep
  split at hstep
  · exact (nomatch hstep)
  · rename_i q hq
    cases hstep
    exact h.finish_reader (fun hf => (nomatch hf)) fun q' hq' => (nomatch hq'.symm.trans hq)
  · rename_i q done hq
    cases hstep
    have hdone := ((h.streams sid).yielding q done hq).1
    apply h.finish_reader (fun hd => hdone.symm.trans hd)
    intro q' hq'
    obtain ⟨heq, hd⟩ := Reader.yielded.inj (Option.some.inj (hq'.symm.trans hq))
    exact ⟨heq, hd.symm⟩

theorem Inv.finalize {k : ℕ} (h : Inv s) (hstep : s.finalize sid k = some t) : Inv t := by
  rw [StreamReaders.finalize] at hstep
  obtain ⟨r, hr, rfl⟩ := Option.map_eq_some_iff.1 hstep
  have hmem : r ∈ s.left sid := List.mem_of_getElem? hr
  have hf := h.finish sid r.1 r.2 (s.reader sid) ((s.left sid).eraseIdx k)
    (fun _ hq => hq) (fun _ hq => List.mem_of_mem_eraseIdx hq)
      (fun hd => (h.streams sid).left r.1 (hd ▸ hmem)) fun q' hq => by
      rcases hq with hq | hq
      · exact Or.inl (Or.inl hq)
      · obtain ⟨k', hk', hget⟩ := List.mem_iff_getElem.1 hq
        by_cases heq : k' = k
        · subst heq
          have hrq : r = (q', true) :=
            Option.some.inj (hr.symm.trans (List.getElem?_eq_some_iff.2 ⟨hk', hget⟩))
          exact Or.inr ⟨(congrArg Prod.fst hrq).symm, congrArg Prod.snd hrq⟩
        · refine Or.inl (Or.inr (List.mem_eraseIdx_iff_getElem.2 ⟨k', hk', heq, hget⟩))
  rw [Function.update_eq_self] at hf
  exact hf

theorem Inv.call (h : Inv s) (hnone : s.reader sid = none) (hok : s.Ok (.call sid)) :
    Inv (s.call sid) := by
  have hboxes : (s.call sid).boxes = s.boxes ∨ (s.call sid).boxes = s.boxes.newInbox sid := by
    rw [StreamReaders.call]
    dsimp only
    split
    · exact Or.inl rfl
    · split
      · exact Or.inl rfl
      · exact Or.inr rfl
  refine h.of_at sid ?_ ((h.streams sid).call hnone hok) ?_ ?_
  · rcases hboxes with hb | hb
    · exact hb ▸ h.owned
    · exact hb ▸ h.owned.newInbox sid
  · intro sid' hne
    rcases hboxes with hb | hb
    · exact hb ▸ .refl s.boxes sid'
    · exact hb ▸ h.owned.same_newInbox hne
  · intro sid' hne
    rw [StreamReaders.call]
    dsimp only
    split
    · exact ⟨rfl, rfl, rfl, rfl, Function.update_of_ne hne _ _, Function.update_of_ne hne _ _, rfl⟩
    · split <;> exact ⟨Function.update_of_ne hne _ _, rfl, rfl, rfl, Function.update_of_ne hne _ _,
        Function.update_of_ne hne _ _, rfl⟩

theorem Inv.get {q : ℕ} (h : Inv s) (hq : s.reader sid = some (.waiting q))
    (hstep : s.get sid q = some t) : Inv t := by
  have hat := (h.streams sid).get hq hstep
  have hbox := ((h.streams sid).waiting q hq).1
  rw [StreamReaders.get] at hstep
  split at hstep
  · exact (nomatch hstep)
  · cases hstep
    refine h.of_at sid (h.owned.setInbox rfl) hat
      (fun sid' hne => StreamInboxes.same_setInbox (h.owned.ne hne hbox)) ?_
    exact fun sid' hne => ⟨Function.update_of_ne hne _ _, rfl, rfl, Function.update_of_ne hne _ _,
      rfl, rfl, rfl⟩

theorem Inv.step {act : Act} (h : Inv s) (hok : s.Ok act) (hstep : step s act = some t) :
    Inv t := by
  cases act with
  | streamData sid payload | streamFin sid payload =>
    cases hstep
    exact h.event _
  | streamReset sid errorCode =>
    cases hstep
    rw [StreamInboxes.onStreamReset_of_open]
    exact h.event _
  | streamDestroy sid =>
    cases hstep
    refine h.of_at sid (h.owned.onWtStreamDestroy sid) (h.streams sid).destroy
      (fun sid' hne => h.owned.same_onWtStreamDestroy hne) ?_
    exact fun sid' hne => ⟨rfl, rfl, rfl, rfl, rfl, rfl, Function.update_of_ne hne _ _⟩
  | call sid =>
    rw [StreamReaders.step] at hstep
    split at hstep
    · rename_i hnone
      cases hstep
      exact h.call hnone hok
    · exact (nomatch hstep)
  | get sid =>
    rw [StreamReaders.step] at hstep
    split at hstep
    · exact h.get ‹_› hstep
    · exact (nomatch hstep)
  | resume sid =>
    rw [StreamReaders.step] at hstep
    split at hstep
    · cases hstep
      exact h.resume ‹_›
    · exact (nomatch hstep)
  | leave sid =>
    rw [StreamReaders.step] at hstep
    split at hstep
    · cases hstep
      exact h.leave ‹_›
    · exact (nomatch hstep)
  | close sid => exact h.close hstep
  | finalize sid k => exact h.finalize hstep

/-- Reading a stream, in every run whose calls come where `Ok` allows them. -/
theorem streams_read {acts : List Act} (hrun : Steps.run step {} acts = some s)
    (hok : Steps.Along step Ok {} acts)
    (sid : ℕ) : Reads s sid :=
  ((Steps.invariant (fun _ _ _ h hok hstep => h.step hok hstep) inv_empty hok hrun).streams
    sid).reads

/-- A reader closed early, a second one that yields the rest, and a call after the end. -/
def closedEarly : List Act :=
  [.streamData 4 [1], .call 4, .get 4, .close 4, .streamFin 4 [2], .call 4, .get 4,
    .resume 4, .call 4]

theorem streams_read_closedEarly : ∃ s, Steps.run step {} closedEarly = some s ∧
    s.yielded 4 = [.data [1] false, .data [2] true] ∧
    s.calls 4 = [⟨false, false, false⟩, ⟨false, false, false⟩, ⟨true, true, false⟩] ∧ Reads s 4 :=
  ⟨_, rfl, by decide +kernel, by decide +kernel,
    streams_read (rfl : Steps.run step {} closedEarly = some _) (by decide +kernel) 4⟩

/-- The native stream is destroyed after its FIN was read, and `receive_stream_data` is called
again. -/
def destroyedEarly : List Act :=
  [.streamFin 4 [1], .call 4, .get 4, .resume 4, .streamDestroy 4, .call 4]

theorem streams_read_destroyedEarly : ∃ s, Steps.run step {} destroyedEarly = some s ∧
    s.calls 4 = [⟨false, false, false⟩, ⟨true, false, true⟩] ∧ s.reader 4 = some (.waiting 1) ∧
    ¬ Reads s 4 := by
  refine ⟨_, rfl, by decide +kernel, by decide +kernel, fun h => ?_⟩
  exact absurd (h.after ⟨true, false, true⟩ (by decide +kernel) rfl).1 Bool.false_ne_true

end StreamReaders

end Aiopquic
