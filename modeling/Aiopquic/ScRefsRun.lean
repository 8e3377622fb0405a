import Aiopquic.Lib.Steps
import Aiopquic.ScRefsApp
import Aiopquic.ScRefsWorker
import Aiopquic.ScRefsDrain

/-!
# The references are conserved

Every step that is `Ok` keeps the invariant, so in every run of such steps every context counts its
holders. A client also keeps no drained event between steps, since it handles each one as it drains
it.
-/

namespace Aiopquic

namespace ScRefs

variable {s s' : ScRefs} {i streamId : ℕ}

/-! ## A client keeps no drained event -/

/-- The role and the drained events are as before. -/
def Frames (s s' : ScRefs) : Prop := s'.role = s.role ∧ s'.events = s.events

theorem frames_callbackCtx (s : ScRefs) (cnx : ℕ) (cb : Callback) :
    s.Frames (s.callbackCtx cnx cb).1 := by
  simp only [callbackCtx]
  split
  · split <;> exact ⟨rfl, rfl⟩
  · exact ⟨rfl, rfl⟩

theorem frames_notify (s : ScRefs) (cnx : ℕ) (cb : Callback) : s.Frames (s.notify cnx cb) := by
  unfold notify
  split
  · exact ⟨rfl, rfl⟩
  · simp [Frames, rxPush_holders]

theorem frames_txPush (s : ScRefs) (e : Entry) : s.Frames (s.txPush e) := by
  rw [Frames, txPush_holders]
  split <;> exact ⟨rfl, rfl⟩

theorem frames_handle (s : ScRefs) (v : CnxView) (accepts : Bool) (e : Entry) :
    s.Frames (s.handle v accepts e) := by
  simp only [handle]
  split
  · split <;> simp [Frames, calls]
  · exact ⟨rfl, rfl⟩

theorem frames_callback {cnx : ℕ} {cb : Callback} (hs : s.callback cnx cb = some s') :
    s.Frames s' := by
  simp only [callback, Option.ite_none_right_eq_some, Option.some.injEq] at hs
  obtain ⟨-, rfl⟩ := hs
  have hctx := frames_callbackCtx s cnx cb
  generalize s.callbackCtx cnx cb = p at hctx ⊢
  have hnotify := frames_notify (p.1.touch (if p.2 = 0 then none else some p.2)) cnx
    { cb with closing := (s.cnxs cnx).closing, streamCtx := p.2 }
  rw [Frames, touch_holders] at hnotify
  generalize ScRefs.notify _ cnx _ = t at hnotify ⊢
  have hframes : s.Frames t := ⟨hnotify.1.trans hctx.1, hnotify.2.trans hctx.2⟩
  split <;> split <;> exact hframes

theorem frames_pop {v : CnxView} {accepts : Bool} (hs : s.pop v accepts = some s') :
    s.Frames s' := by
  unfold pop at hs
  split at hs
  · exact nomatch hs
  · simp only [Option.ite_none_right_eq_some, Option.some.injEq] at hs
    obtain ⟨-, rfl⟩ := hs
    rw [Frames, drop_holders]
    exact frames_handle { s with tx := _ } v accepts _

theorem frames_afterSend {k : ℕ} {v : CnxView} {accepts : Bool}
    (hs : s.afterSend k v accepts = some s') :
    s.Frames s' := by
  unfold afterSend at hs
  split at hs
  · exact nomatch hs
  · simp only [Option.ite_none_right_eq_some, Option.some.injEq] at hs
    obtain ⟨-, rfl⟩ := hs
    rw [Frames, drop_holders]
    split <;> exact ⟨rfl, rfl⟩

theorem frames_flush {pushes : Bool} (hs : s.flush pushes = some s') : s.Frames s' := by
  unfold flush at hs
  split at hs
  · exact nomatch hs
  · rename_i e notes _
    simp only [Option.ite_none_right_eq_some, Option.some.injEq] at hs
    obtain ⟨-, rfl⟩ := hs
    rw [Frames, drop_holders]
    split
    · exact frames_txPush (s.touch (some e.streamCtx)) e
    · exact ⟨rfl, rfl⟩

theorem frames_send {answer : SendAnswer} (hs : s.send i streamId answer = some s') :
    s.Frames s' := by
  simp only [send, Option.ite_none_right_eq_some] at hs
  have hcreate : s.Frames (s.getOrCreate i streamId) := by
    simp only [getOrCreate]
    split <;> exact ⟨rfl, rfl⟩
  generalize s.getOrCreate i streamId = t at hs hcreate
  obtain ⟨-, hs⟩ := hs
  cases answer <;> obtain rfl := Option.some.inj hs
  · exact hcreate
  · rwa [Frames, touch_holders]
  · have hpush := frames_txPush (t.touch (t.command i .txMarkActive streamId).ref)
      (t.command i .txMarkActive streamId)
    rw [Frames, touch_holders] at hpush
    exact ⟨hpush.1.trans hcreate.1, hpush.2.trans hcreate.2⟩

theorem frames_stop (hs : s.stop = some s') : s.Frames s' := by
  simp only [stop, Option.ite_none_right_eq_some] at hs
  obtain ⟨-, hs⟩ := hs
  split at hs <;> obtain rfl := Option.some.inj hs <;> exact ⟨rfl, rfl⟩

/-- One entry is drained: the event, if it is delivered, comes after the others. -/
theorem drainEntry_events {popped : Bool} (hs : s.drainEntry popped = some s') :
    s'.role = s.role ∧ s.phase = .running ∧ s'.phase = s.phase ∧
      (s'.events = s.events ∨ ∃ ev, s'.events = s.events ++ [ev]) := by
  obtain ⟨ev, rx, hrx, hphase, ⟨-, rfl⟩ | ⟨reads, _, -, t, ht, hs⟩⟩ := drainEntry_cases hs
  · exact ⟨rfl, hphase, rfl, .inr ⟨ev, rfl⟩⟩
  · obtain ⟨chunks, notes, hsame, -⟩ := read_holders { s with rx := rx } ev reads (popped = true)
    rw [← ht] at hsame
    rcases hs with rfl | rfl
    · rw [drop_holders, hsame]
      exact ⟨rfl, hphase, rfl, .inl rfl⟩
    · rw [hsame]
      exact ⟨rfl, hphase, rfl, .inr ⟨ev, rfl⟩⟩

/-- The first drained event is routed, if there is one. -/
theorem route_events {raises : Bool} {answers : Answers} (hs : s.route raises answers = some s') :
    s'.role = s.role ∧ ∃ ev, s.events = ev :: s'.events := by
  unfold route at hs
  split at hs
  · exact nomatch hs
  rename_i ev events hev
  simp only [ne_eq, ite_not, Option.ite_none_right_eq_some] at hs
  obtain ⟨-, hs⟩ := hs
  split at hs <;> obtain rfl := Option.some.inj hs <;> exact ⟨rfl, ev, hev⟩

theorem route_eq_none {raises : Bool} {answers : Answers} (hphase : s.phase = .running)
    (hs : s.route raises answers = none) : s.events = [] := by
  unfold route at hs
  split at hs
  · assumption
  · simp only [ne_eq, hphase, not_true_eq_false, if_false] at hs
    split at hs <;> exact nomatch hs

/-- A client keeps no drained event from step to step. -/
def Quiet (s : ScRefs) : Prop := s.role = .client → s.events = []

theorem Quiet.of_frames (h : s.Quiet) (hf : s.Frames s') : s'.Quiet := fun hrole =>
  hf.2.trans (h (hf.1 ▸ hrole))

/-- `drain_rx_callback` for one entry. -/
theorem Inv.drainCallback {popped : Bool} {answers : Answers} (h : s.Inv) (hroom : s.Room)
    (hev : s.events = [])
    (hs : s.drainCallback popped answers = some s') : s'.Inv ∧ s'.events = [] := by
  unfold ScRefs.drainCallback at hs
  split at hs
  · exact nomatch hs
  rename_i t ht
  obtain ⟨-, hphase, hkeep, hevents⟩ := drainEntry_events ht
  have hinv := h.drainEntry hroom ht
  split at hs
  · rename_i hnone
    obtain rfl := Option.some.inj hs
    exact ⟨hinv, route_eq_none (hkeep.trans hphase) hnone⟩
  · rename_i u hu
    obtain rfl := Option.some.inj hs
    obtain ⟨-, ev, hcons⟩ := route_events hu
    have hempty : u.events = [] := by
      rcases hevents with hsame | ⟨e, hsame⟩
      · simp [hsame, hev] at hcons
      · rw [hsame, hev, List.nil_append, List.cons.injEq] at hcons
        exact hcons.2.symm
    exact ⟨(hinv.route hu).releaseBatch hempty, hempty⟩

/-! ## The run -/

/-- One step keeps the invariant. -/
theorem Inv.step (h : s.Inv) (hquiet : s.Quiet) {act : Act} (hok : s.Ok act)
    (hs : s.step act = some s') :
    s'.Inv := by
  obtain ⟨hroom, hok⟩ := hok
  cases act with
  | connect cnx =>
    simp only [ScRefs.step, Option.ite_none_right_eq_some, Option.some.injEq] at hs
    obtain ⟨⟨hphase, hpos, -, hsingle⟩, rfl⟩ := hs
    exact h.connect hphase hpos hsingle hok
  | disconnect cnx =>
    simp only [ScRefs.step, Option.ite_none_right_eq_some, Option.some.injEq] at hs
    obtain ⟨-, rfl⟩ := hs
    exact h.disconnect cnx
  | free cnx =>
    simp only [ScRefs.step, Option.ite_none_right_eq_some, Option.some.injEq] at hs
    obtain ⟨-, rfl⟩ := hs
    exact h.free cnx
  | callback cnx cb => exact h.callback hroom hs
  | pop v accepts => exact h.pop hroom hs
  | afterSend k v accepts => exact h.afterSend hs
  | drainEntry popped =>
    simp only [ScRefs.step, Option.ite_none_right_eq_some] at hs
    exact h.drainEntry hroom hs.2
  | route raises answers =>
    simp only [ScRefs.step, Option.ite_none_right_eq_some] at hs
    exact h.route hs.2
  | releaseBatch =>
    simp only [ScRefs.step, Option.ite_none_right_eq_some, Option.some.injEq] at hs
    obtain ⟨-, rfl⟩ := hs
    exact h.releaseBatch hok
  | drainCallback popped answers =>
    simp only [ScRefs.step, Option.ite_none_right_eq_some] at hs
    exact (h.drainCallback hroom (hquiet hs.1) hs.2).1
  | flush pushes => exact h.flush hroom hs
  | dropChunk k => exact h.dropChunk hs
  | send i streamId answer => exact h.send hroom hs
  | reset i streamId => exact h.request hroom hs
  | stopStream i streamId => exact h.request hroom hs
  | close i => exact h.close hs
  | other e =>
    simp only [ScRefs.step, ScRefs.other, Option.ite_none_right_eq_some, Option.some.injEq] at hs
    obtain ⟨⟨href, -⟩, rfl⟩ := hs
    exact h.pushPlain href
  | stop => exact h.stop hok hs
  | dealloc => exact h.dealloc hs

theorem Quiet.step (h : s.Quiet) (hinv : s.Inv) {act : Act} (hok : s.Ok act)
    (hs : s.step act = some s') :
    s'.Quiet := by
  cases act with
  | callback cnx cb => exact h.of_frames (frames_callback hs)
  | pop v accepts => exact h.of_frames (frames_pop hs)
  | afterSend k v accepts => exact h.of_frames (frames_afterSend hs)
  | drainEntry popped =>
    simp only [ScRefs.step, Option.ite_none_right_eq_some] at hs
    intro hrole
    have := (drainEntry_events hs.2).1
    exact absurd (hs.1.symm.trans (this.symm.trans hrole)) (by simp)
  | route raises answers =>
    simp only [ScRefs.step, Option.ite_none_right_eq_some] at hs
    intro hrole
    have := (route_events hs.2).1
    exact absurd (hs.1.symm.trans (this.symm.trans hrole)) (by simp)
  | drainCallback popped answers =>
    simp only [ScRefs.step, Option.ite_none_right_eq_some] at hs
    exact fun _ => (hinv.drainCallback hok.1 (h hs.1) hs.2).2
  | flush pushes => exact h.of_frames (frames_flush hs)
  | dropChunk k =>
    simp only [ScRefs.step, dropChunk] at hs
    split at hs
    · cases hs
    · obtain rfl := Option.some.inj hs
      exact h
  | send i streamId answer => exact h.of_frames (frames_send hs)
  | reset i streamId | stopStream i streamId =>
    simp only [ScRefs.step, request, Option.ite_none_right_eq_some, Option.some.injEq] at hs
    obtain ⟨-, rfl⟩ := hs
    exact h.of_frames (frames_txPush s _)
  | stop => exact h.of_frames (frames_stop hs)
  | dealloc =>
    simp only [ScRefs.step, dealloc, Option.ite_none_left_eq_some, Option.some.injEq] at hs
    obtain ⟨-, rfl⟩ := hs
    exact h
  | close i | other e =>
    simp only [ScRefs.step, ScRefs.close, ScRefs.other, Option.ite_none_right_eq_some,
      Option.some.injEq] at hs
    obtain ⟨-, rfl⟩ := hs
    exact h
  | connect cnx | disconnect cnx | free cnx | releaseBatch =>
    simp only [ScRefs.step, Option.ite_none_right_eq_some, Option.some.injEq] at hs
    obtain ⟨-, rfl⟩ := hs
    exact h

/-- At first there is no context. -/
theorem Inv.init (role : Role) (txCap : ℕ) : (ScRefs.init role txCap).Inv := by
  constructor
  case balanced =>
    intro x
    cases role <;>
    · rw [if_neg (by simp [ScRefs.init]; omega)]
      exact ⟨by simp [ScRefs.init, ScHolders.holders], rfl⟩
  case python =>
    intro _
    cases role <;> constructor <;>
      simp [ScRefs.init, ScHolders.conn, QuicConnection.scs, QuicConnection.ofEngine,
        QuicConnection.client]
  case running =>
    intro _
    cases role <;> constructor <;>
      simp [ScRefs.init, ScHolders.conn, QuicConnection.scs, QuicConnection.ofEngine,
        QuicConnection.client,
        ScHolders.UsableAt]

theorem init_quiet (role : Role) (txCap : ℕ) : (ScRefs.init role txCap).Quiet := by
  intro _
  cases role <;> rfl

/-- In every run whose steps are `Ok`, every context counts its holders. -/
theorem references_conserved {role : Role} {txCap : ℕ} {acts : List Act}
    (hok : Steps.Along step Ok (ScRefs.init role txCap) acts)
    (hrun : Steps.run step (ScRefs.init role txCap) acts = some s) : s.Conserved := by
  have hstep : ∀ s a s', s.Inv ∧ s.Quiet → s.Ok a → step s a = some s' → s'.Inv ∧ s'.Quiet :=
    fun s a s' h hok hs => ⟨h.1.step h.2 hok hs, h.2.step h.1 hok hs⟩
  have hinv := Steps.invariant (I := fun s => s.Inv ∧ s.Quiet) hstep
    ⟨Inv.init role txCap, init_quiet role txCap⟩ hok hrun
  exact hinv.1.conserved

/-- A stream of the server sends, gets bytes, and is released; its context goes with its last
chunk. -/
def servedActs : List Act :=
  [.connect 16, .callback 16 { event := .ready }, .drainEntry false, .route false {}, .releaseBatch,
    .send 0 4 .committed, .pop {} true,
    .callback 16 { event := .streamData, streamId := 4, bytes := some [1] }, .drainEntry true,
      .route false {},
    .releaseBatch, .flush true, .pop {} true,
    .callback 16 { event := .streamReleased, streamId := 4 }, .drainEntry false, .route false {},
      .releaseBatch,
    .dropChunk 0]

theorem references_conserved_servedActs : ∃ s, Steps.run step (init .server 8) servedActs = some s ∧
    s.Conserved ∧ (s.refs 1).frees = 1 := by
  refine ⟨_, rfl, references_conserved (?_ : Steps.Along step Ok (init .server 8) servedActs) rfl,
    ?_⟩ <;>
    decide +kernel

/-- picoquic makes a connection at the address of a freed one, whose `TX_MARK_ACTIVE` is still
queued. -/
def reusedActs : List Act :=
  [.connect 16, .callback 16 { event := .ready }, .drainEntry false, .route false {}, .releaseBatch,
    .send 0 4 .committed, .disconnect 16, .callback 16 { event := .close }, .free 16, .connect 16,
    .drainEntry false, .route false {}, .releaseBatch, .pop {} true,
    .callback 16 { event := .streamData, streamId := 4, bytes := some [1] }]

/-- The new connection's stream gets the old one's context, which is freed with the command and then
used. -/
theorem references_conserved_reusedActs : ∃ s, Steps.run step (init .server 8) reusedActs = some s ∧
    ¬ s.Conserved ∧ (s.refs 1).frees = 1 ∧ (s.refs 1).stale = true := by
  refine ⟨_, rfl, ?_⟩
  decide +kernel

end ScRefs

end Aiopquic
