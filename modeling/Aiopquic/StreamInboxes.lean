import Aiopquic.WebTransportSession

/-!
# The inboxes of a session's streams (`asyncio/webtransport.py`)

`_stream_inbox` and `_inbox_done` of a `WebTransportSession`, with the branches of `_on_event` and
the parts of `receive_stream_data` and `_release_session_resources` that touch them. An inbox is an
object: the dictionary and the readers name it. `closed` is `_session_closed`.
-/

namespace Aiopquic

/-- `WebTransportStreamDataReceived` or `WebTransportStreamReset`. -/
inductive Received
  | data (payload : List UInt8) (endStream : Bool)
  | reset (errorCode : ℕ)
  deriving DecidableEq, Repr

/-- A FIN or a reset: `done` in `receive_stream_data`. -/
def Received.isEnd : Received → Bool
  | .data _ endStream => endStream
  | .reset _ => true

/-- `_Inbox`, with the stream it was made for. -/
structure Inbox where
  stream : ℕ := 0
  queue : List Received := []
  destroyed : Bool := false
  deriving DecidableEq, Repr

structure StreamInboxes where
  inboxes : ℕ → Inbox := fun _ => {}
  /-- The number of inboxes made so far. -/
  made : ℕ := 0
  streamInbox : ℕ → Option ℕ := fun _ => none
  inboxDone : ℕ → Bool := fun _ => false

namespace StreamInboxes

variable {s : StreamInboxes} {sid sid' q : ℕ} {ev : Received}

/-- `self._stream_inbox[sid] = q = _Inbox()`. -/
def newInbox (s : StreamInboxes) (sid : ℕ) : StreamInboxes :=
  { s with
    inboxes := Function.update s.inboxes s.made { stream := sid }
    made := s.made + 1
    streamInbox := Function.update s.streamInbox sid (some s.made) }

/-- `q.put_nowait(ev)`. -/
def putNowait (s : StreamInboxes) (q : ℕ) (ev : Received) : StreamInboxes :=
  { s with inboxes := Function.update s.inboxes q { s.inboxes q with queue := (s.inboxes q).queue ++ [ev] } }

/-- `_on_event` at a `WT_STREAM_DATA` or `WT_STREAM_FIN`. -/
def onStreamData (s : StreamInboxes) (closed : Bool) (sid : ℕ) (payload : List UInt8) (fin : Bool) :
    StreamInboxes :=
  if closed then s
  else
    let ev : Received := .data payload fin
    match s.streamInbox sid with
    | some q => s.putNowait q ev
    | none => if s.inboxDone sid then s else (s.newInbox sid).putNowait s.made ev

/-- `_on_event` at a `WT_STREAM_RESET`, its `_drop_stream_tx` left out. -/
def onStreamReset (s : StreamInboxes) (closed : Bool) (sid errorCode : ℕ) : StreamInboxes :=
  if closed then s
  else
    let s := if s.streamInbox sid = none ∧ s.inboxDone sid = false then s.newInbox sid else s
    match s.streamInbox sid with
    | some q => s.putNowait q (.reset errorCode)
    | none => s

/-- `_on_event` at a `WT_STREAM_DESTROY`. -/
def onWtStreamDestroy (s : StreamInboxes) (sid : ℕ) : StreamInboxes :=
  let s := { s with inboxDone := Function.update s.inboxDone sid false }
  match s.streamInbox sid with
  | some q => { s with inboxes := Function.update s.inboxes q { s.inboxes q with destroyed := true } }
  | none => s

/-- `_on_event` at the `STREAM_DESTROY` of a raw stream. -/
def onStreamDestroy (s : StreamInboxes) (sid : ℕ) : StreamInboxes :=
  { s with
    streamInbox := Function.update s.streamInbox sid none
    inboxDone := Function.update s.inboxDone sid false }

/-- The end of `_release_session_resources`: every inbox ends with a `WT_SESSION_GONE`. -/
def release (s : StreamInboxes) : StreamInboxes :=
  { s with
    inboxes := fun q =>
      if s.streamInbox (s.inboxes q).stream = some q then
        { s.inboxes q with queue := [.reset wtSessionGone] }
      else s.inboxes q
    streamInbox := fun _ => none
    inboxDone := fun _ => false }

/-- The `finally` of a reader of the inbox `q`. -/
def finish (s : StreamInboxes) (sid q : ℕ) (done : Bool) : StreamInboxes :=
  if done ∧ s.streamInbox sid = some q then
    let s := { s with streamInbox := Function.update s.streamInbox sid none }
    if (s.inboxes q).destroyed = false
      then { s with inboxDone := Function.update s.inboxDone sid true } else s
  else s

/-! ## Events -/

/-- What an open session does with a stream's data, FIN or reset. -/
def deliver (s : StreamInboxes) (sid : ℕ) (ev : Received) : StreamInboxes :=
  match s.streamInbox sid with
  | some q => s.putNowait q ev
  | none => if s.inboxDone sid then s else (s.newInbox sid).putNowait s.made ev

theorem onStreamData_of_open (payload : List UInt8) (fin : Bool) :
    s.onStreamData false sid payload fin = s.deliver sid (.data payload fin) := rfl

theorem onStreamReset_of_open (errorCode : ℕ) :
    s.onStreamReset false sid errorCode = s.deliver sid (.reset errorCode) := by
  rw [onStreamReset, deliver, if_neg Bool.false_ne_true]
  cases hq : s.streamInbox sid with
  | some q =>
    rw [if_neg (by simp)]
    dsimp only
    rw [hq]
  | none =>
    cases hd : s.inboxDone sid with
    | true => simp [hq]
    | false =>
      rw [if_pos ⟨rfl, rfl⟩]
      simp [newInbox]

/-! ## Frames -/

/-- The dictionary names inboxes that were made, each for its own stream. -/
def Owned (s : StreamInboxes) : Prop :=
  ∀ sid q, s.streamInbox sid = some q → q < s.made ∧ (s.inboxes q).stream = sid

/-- Nothing changes for the stream. -/
structure Same (s t : StreamInboxes) (sid : ℕ) : Prop where
  streamInbox : t.streamInbox sid = s.streamInbox sid
  inboxDone : t.inboxDone sid = s.inboxDone sid
  inbox : ∀ q, s.streamInbox sid = some q → t.inboxes q = s.inboxes q

variable {t u : StreamInboxes} {b : Inbox}

theorem owned_empty : Owned {} := fun _ _ h => (nomatch h)

theorem Same.refl (s : StreamInboxes) (sid : ℕ) : Same s s sid := ⟨rfl, rfl, fun _ _ => rfl⟩

theorem Same.trans (h : Same s t sid) (h' : Same t u sid) : Same s u sid :=
  ⟨h'.streamInbox.trans h.streamInbox, h'.inboxDone.trans h.inboxDone,
    fun q hq => (h'.inbox q (h.streamInbox.trans hq)).trans (h.inbox q hq)⟩

/-- Two streams do not share an inbox. -/
theorem Owned.ne (h : Owned s) (hne : sid' ≠ sid) (hq : s.streamInbox sid = some q) :
    s.streamInbox sid' ≠ some q :=
  fun hq' => hne ((h sid' q hq').2.symm.trans (h sid q hq).2)

/-- A change of the inbox `q` that keeps its stream. -/
theorem Owned.setInbox (h : Owned s) (hb : b.stream = (s.inboxes q).stream) :
    Owned { s with inboxes := Function.update s.inboxes q b } := by
  intro sid q' hq'
  obtain ⟨hlt, hs⟩ := h sid q' hq'
  refine ⟨hlt, ?_⟩
  show (Function.update s.inboxes q b q').stream = sid
  rw [Function.update_apply]
  split
  · rename_i heq
    rw [hb, ← heq, hs]
  · exact hs

theorem same_setInbox (h : s.streamInbox sid ≠ some q) :
    Same s { s with inboxes := Function.update s.inboxes q b } sid := by
  refine ⟨rfl, rfl, fun q' hq' => Function.update_of_ne ?_ _ _⟩
  rintro rfl
  exact h hq'

theorem Owned.newInbox (h : Owned s) (sid : ℕ) : Owned (s.newInbox sid) := by
  intro sid' q hq
  simp only [StreamInboxes.newInbox, Function.update_apply] at hq ⊢
  split at hq
  · rename_i heq
    rw [← Option.some.inj hq, if_pos rfl, heq]
    exact ⟨Nat.lt_succ_self _, rfl⟩
  · obtain ⟨hlt, hs⟩ := h sid' q hq
    rw [if_neg hlt.ne]
    exact ⟨hlt.trans (Nat.lt_succ_self _), hs⟩

theorem Owned.same_newInbox (h : Owned s) (hne : sid' ≠ sid) : Same s (s.newInbox sid) sid' := by
  refine ⟨Function.update_of_ne hne _ _, rfl, fun q hq => Function.update_of_ne ?_ _ _⟩
  exact (h sid' q hq).1.ne

theorem Owned.deliver (h : Owned s) (sid : ℕ) (ev : Received) : Owned (s.deliver sid ev) := by
  rw [StreamInboxes.deliver]
  split
  · exact h.setInbox rfl
  · split
    · exact h
    · exact (h.newInbox sid).setInbox rfl

theorem Owned.same_deliver (h : Owned s) (hne : sid' ≠ sid) (ev : Received) :
    Same s (s.deliver sid ev) sid' := by
  rw [StreamInboxes.deliver]
  split
  · rename_i q hq
    exact same_setInbox (h.ne hne hq)
  · split
    · exact .refl s sid'
    · refine (h.same_newInbox hne).trans (same_setInbox ?_)
      exact (h.newInbox sid).ne hne (Function.update_self ..)

theorem Owned.onWtStreamDestroy (h : Owned s) (sid : ℕ) : Owned (s.onWtStreamDestroy sid) := by
  rw [StreamInboxes.onWtStreamDestroy]
  dsimp only
  split
  · exact h.setInbox rfl
  · exact h

theorem Owned.same_onWtStreamDestroy (h : Owned s) (hne : sid' ≠ sid) :
    Same s (s.onWtStreamDestroy sid) sid' := by
  rw [StreamInboxes.onWtStreamDestroy]
  dsimp only
  split
  · rename_i q hq
    exact ⟨rfl, Function.update_of_ne hne _ _, (same_setInbox (h.ne hne hq)).inbox⟩
  · exact ⟨rfl, Function.update_of_ne hne _ _, fun _ _ => rfl⟩

theorem Owned.finish (h : Owned s) (sid q : ℕ) (done : Bool) : Owned (s.finish sid q done) := by
  rw [StreamInboxes.finish]
  split
  · have hdel : Owned { s with streamInbox := Function.update s.streamInbox sid none } := by
      intro sid' q' hq'
      simp only [Function.update_apply] at hq'
      split at hq'
      · exact (nomatch hq')
      · exact h sid' q' hq'
    dsimp only
    split
    · exact hdel
    · exact hdel
  · exact h

theorem same_finish (hne : sid' ≠ sid) (done : Bool) : Same s (s.finish sid q done) sid' := by
  rw [StreamInboxes.finish]
  split
  · dsimp only
    split
    · exact ⟨Function.update_of_ne hne _ _, Function.update_of_ne hne _ _, fun _ _ => rfl⟩
    · exact ⟨Function.update_of_ne hne _ _, rfl, fun _ _ => rfl⟩
  · exact .refl s sid'

theorem finish_false : s.finish sid q false = s := if_neg (by simp)

theorem deliver_of_some (hq : s.streamInbox sid = some q) :
    s.deliver sid ev = s.putNowait q ev := by
  rw [deliver, hq]

theorem deliver_of_none (hq : s.streamInbox sid = none) (hd : s.inboxDone sid = false) :
    s.deliver sid ev = (s.newInbox sid).putNowait s.made ev := by
  rw [deliver, hq]
  exact if_neg (by simp [hd])

theorem deliver_of_done (hq : s.streamInbox sid = none) (hd : s.inboxDone sid = true) :
    s.deliver sid ev = s := by
  rw [deliver, hq]
  exact if_pos hd

/-- An inbox that a delivered event leaves in the dictionary was there, or is new. -/
theorem deliver_destroyed (hq : (s.deliver sid ev).streamInbox sid = some q) :
    ((s.deliver sid ev).inboxes q).destroyed = false ∨
      s.streamInbox sid = some q ∧ ((s.deliver sid ev).inboxes q).destroyed =
      (s.inboxes q).destroyed := by
  cases hs : s.streamInbox sid with
  | some q' =>
    rw [deliver_of_some hs] at hq ⊢
    have heq : q' = q := Option.some.inj (hs.symm.trans hq)
    subst heq
    exact Or.inr ⟨rfl, by simp [putNowait]⟩
  | none =>
    cases hd : s.inboxDone sid with
    | true =>
      rw [deliver_of_done hs hd] at hq
      exact (nomatch hs.symm.trans hq)
    | false =>
      rw [deliver_of_none hs hd] at hq ⊢
      have heq : s.made = q := by simpa [putNowait, newInbox] using hq
      subst heq
      exact Or.inl (by simp [putNowait, newInbox])

/-- A delivered event goes to the end of the stream's inbox, which is made if there is none. -/
theorem deliver_cases (hdone : s.inboxDone sid = false) (ev : Received) :
    ∃ q, (s.deliver sid ev).streamInbox sid = some q ∧ (s.deliver sid ev).inboxDone sid = false ∧
      ((s.streamInbox sid = some q ∧
          (s.deliver sid ev).inboxes q = { s.inboxes q with queue := (s.inboxes q).queue ++ [ev] })
          ∨
        s.streamInbox sid = none ∧ (s.deliver sid ev).inboxes q =
          { stream := sid, queue := [ev] }) := by
  rw [deliver]
  split
  · rename_i q hq
    exact ⟨q, hq, hdone, Or.inl ⟨hq, Function.update_self ..⟩⟩
  · rename_i hq
    rw [hdone, if_neg Bool.false_ne_true]
    refine ⟨s.made, Function.update_self .., hdone, Or.inr ⟨hq, ?_⟩⟩
    simp [putNowait, newInbox]

end StreamInboxes

end Aiopquic
