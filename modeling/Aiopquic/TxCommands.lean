import Aiopquic.Engine
import Aiopquic.Lib.Steps
import Aiopquic.StreamCb

/-!
# TX commands and the connections they act on (`callback.h`)

A command in the TX event ring names its connection by address. The worker looks the address up in
picoquic's list when it comes to the command (`aiopquic_cnx_is_alive`), drops the command if it is
not there, and otherwise makes picoquic calls on the connection it finds (`loopCalls`). A reset that
keeps bytes may be held back, and is looked up again after a send pass.

picoquic may use the address of a freed connection again. The connections made are numbered. `held`
is the connection that Python has at an address: from its first event on, until its close is
drained.
-/

namespace Aiopquic

open QuicEngine (Tagged)

/-- The picoquic functions that the worker calls on a connection for a command. -/
inductive Call
  | markActiveStream (streamId streamCtx : ℕ)
  | markActiveStreamV2 (streamId : ℕ)
  | markDatagramReady
  | setStreamPriority (streamId priority : ℕ)
  | setDatagramPriority (priority : ℕ)
  | cnxSnapshot
  | close (errorCode : ℕ)
  | resetStream (streamId errorCode : ℕ)
  | stopSending (streamId errorCode : ℕ)
  | setAppStreamCtx (streamId streamCtx : ℕ)
  | openFlowControl (streamId grant : ℕ)
  | setAppFlowControl (streamId enabled : ℕ)
  deriving DecidableEq, Repr

/-- What the worker reads of the connection and the stream while it handles a command.
`resetPending` is `sc->tx_reset_pending`, `defers` whether a reset is held back, `invalidStream`
whether picoquic answers `PICOQUIC_ERROR_INVALID_STREAM_ID`, and `grant` the credit, `0` for
none. -/
structure CnxView where
  closing : Bool := false
  canSend : Bool := true
  canReceive : Bool := true
  resetPending : Bool := false
  defers : Bool := false
  invalidStream : Bool := false
  grant : ℕ := 0

/-- `aiopquic_stream_reattach`. -/
def reattach (v : CnxView) (e : Entry) : List Call :=
  if e.streamCtx = 0 ∨ v.invalidStream ∨ v.closing then []
    else [.setAppStreamCtx e.streamId e.streamCtx]

/-- A reset that is not held back. -/
def resetCalls (v : CnxView) (e : Entry) : List Call := .resetStream e.streamId e.errorCode ::
    reattach v e

/-- Whether `TX_STREAM_RESET` is held back. -/
def Defers (v : CnxView) (e : Entry) : Prop :=
  e.eventType = .txStreamReset ∧ e.streamCtx ≠ 0 ∧ v.resetPending = false ∧ v.canSend ∧ v.defers

instance (v : CnxView) (e : Entry) : Decidable (Defers v e) := inferInstanceAs (Decidable (_ ∧ _))

/-- The cases of `aiopquic_loop_cb` behind the stale-cnx guard. -/
def loopCalls (v : CnxView) (e : Entry) : List Call :=
  match e.eventType with
  | .txMarkActive =>
    if e.streamCtx ≠ 0 then if v.closing then [] else [.markActiveStream e.streamId e.streamCtx]
    else [.markActiveStreamV2 e.streamId]
  | .txMarkDatagramReady => if e.streamCtx ≠ 0 then [.markDatagramReady] else []
  | .txSetStreamPriority => [.setStreamPriority e.streamId (e.errorCode % 2 ^ 8)]
  | .txSetDatagramPriority => [.setDatagramPriority (e.errorCode % 2 ^ 8)]
  | .txCnxRefresh => [.cnxSnapshot]
  | .txClose => [.close e.errorCode]
  | .txStreamReset =>
    if e.streamCtx ≠ 0 ∧ v.resetPending then []
    else if v.canSend then
      if Defers v e then [.markActiveStream e.streamId e.streamCtx] else resetCalls v e
    else []
  | .txStopSending => if v.canReceive then .stopSending e.streamId e.errorCode :: reattach v e
      else []
  | .txOpenFlowControl =>
    if e.streamCtx ≠ 0 ∧ 0 < v.grant then [.openFlowControl e.streamId v.grant] else []
  | .txSetAppFlowControl => [.setAppFlowControl e.streamId e.isFin]
  | _ => []

/-- A queued command, with the connection that its sender held. -/
structure Command where
  entry : Entry
  inst : ℕ

/-- A call made for a command: the connection the command was for, and the one it acted on. -/
structure Applied where
  call : Call
  sender : ℕ
  cnx : ℕ
  deriving DecidableEq, Repr

/-- Whose events a transport's connection handles itself. -/
inductive Role
  | server
  | client
  deriving DecidableEq, Repr

/-- The two threads, as far as commands and connections go. `rx` are the events queued and not
drained, each with its connection, and `deferred` the resets held back. -/
structure TxCommands where
  role : Role := .server
  cnxs : ℕ → Option ℕ := fun _ => none
  created : ℕ := 0
  rx : List Tagged := []
  held : ℕ → Option ℕ := fun _ => none
  ring : List Command := []
  deferred : List Command := []
  /-- History: the calls made. -/
  applied : List Applied := []

namespace TxCommands

inductive Act
  /-- picoquic makes a connection. -/
  | create (cnx : ℕ)
  /-- picoquic calls back on a connection in its list. -/
  | callback (cnx : ℕ) (cb : Callback)
  /-- picoquic frees a connection. -/
  | free (cnx : ℕ)
  /-- Python drains one event. -/
  | drain
  /-- Python pushes a command for the connection it has at the entry's address. -/
  | push (entry : Entry)
  /-- Python posts the release of a datagram ring, for a connection that it may have no more. -/
  | release (entry : Entry) (inst : ℕ)
  /-- The worker pops one command. -/
  | pop (v : CnxView)
  /-- After a send pass the worker comes to the `k`-th held reset, and sends or forgets it. -/
  | afterSend (k : ℕ) (v : CnxView)

/-- The table after an event: `route_event`'s for a server, the connection's own pointer for a
client. -/
def drained (role : Role) (held : ℕ → Option ℕ) (e : Tagged) : ℕ → Option ℕ :=
  match role with
  | .server =>
    if e.ev.isClose then Function.update held e.ev.cnxPtr none
    else if held e.ev.cnxPtr = none then Function.update held e.ev.cnxPtr (some e.inst)
    else held
  | .client =>
    if e.ev.isClose then fun _ => none
    else if e.ev.evtType = .ready ∨ e.ev.evtType = .almostReady then
      Function.update (fun _ => none) e.ev.cnxPtr (some e.inst)
    else held

/-- A server's table is the engine's: it has a connection at the same addresses. -/
theorem drained_server {s : QuicEngine} {d : Drained} {inst : ℕ} {held : ℕ → Option ℕ}
    (hs : s.TablesAgree) (hh : ∀ a, s.connections a = none ↔ held a = none) (h0 : d.ev.cnxPtr ≠ 0)
    (hr : d.ev.isClose = false → s.connections d.ev.cnxPtr = none → d.raises = false) (a : ℕ) :
    (s.routeEvent d).1.connections a = none ↔
      drained .server held { inst := inst, ev := d.ev } a = none := by
  rw [(QuicEngine.routeEvent_tables hs h0 hr).2]
  simp only [drained]
  cases d.ev.isClose with
  | true =>
    by_cases ha : a = d.ev.cnxPtr
    · subst ha
      simp
    · simp [Function.update_of_ne ha, hh a]
  | false =>
    by_cases hc : s.connections d.ev.cnxPtr = none
    · by_cases ha : a = d.ev.cnxPtr
      · subst ha
        simp [hc, (hh _).1 hc]
      · simp [hc, (hh _).1 hc, Function.update_of_ne ha, hh a]
    · simp [hc, mt (hh _).2 hc, hh a]

/-- The calls of a command on the connection found at its address. -/
def apply (s : TxCommands) (q : Command) (calls : List Call) : TxCommands :=
  match s.cnxs q.entry.cnx with
  | none => s
  | some inst => { s with applied := s.applied ++ calls.map fun c => ⟨c, q.inst, inst⟩ }

/-- The worker handles a command: the release of a ring, which is no connection's, then the
stale-cnx guard, then the command's case. -/
def handle (s : TxCommands) (v : CnxView) (q : Command) : TxCommands :=
  if q.entry.eventType = .txDgramRingRelease then s
  else if s.cnxs q.entry.cnx ≠ none ∧ Defers v q.entry then
    { s.apply q (loopCalls v q.entry) with deferred := s.deferred ++ [q] }
  else s.apply q (loopCalls v q.entry)

/-- One step. -/
def step (s : TxCommands) : Act → Option TxCommands
  | .create cnx =>
    if cnx ≠ 0 ∧ s.cnxs cnx = none then
      some { s with cnxs := Function.update s.cnxs cnx (some s.created), created := s.created + 1 }
    else none
  | .callback cnx cb =>
    match s.cnxs cnx with
    | none => none
    | some inst =>
      some
        { s with
          deferred :=
            if cb.event = .close ∨ cb.event = .applicationClose ∨ cb.event = .statelessReset then
              s.deferred.filter (·.entry.cnx ≠ cnx)
            else s.deferred
          rx := s.rx ++ ((streamCb cnx cb).map fun ev => { inst := inst, ev := ev }).toList }
  | .free cnx =>
    if s.cnxs cnx = none then none else some { s with cnxs := Function.update s.cnxs cnx none }
  | .drain =>
    match s.rx with
    | [] => none
    | e :: rx => some { s with rx := rx, held := drained s.role s.held e }
  | .push entry =>
    match s.held entry.cnx with
    | none => none
    | some inst => some { s with ring := s.ring ++ [⟨entry, inst⟩] }
  | .release entry inst =>
    if entry.eventType = .txDgramRingRelease then some { s with ring := s.ring ++ [⟨entry, inst⟩] }
      else none
  | .pop v =>
    match s.ring with
    | [] => none
    | q :: ring => some ({ s with ring := ring }.handle v q)
  | .afterSend k v =>
    match s.deferred[k]? with
    | none => none
    | some q =>
      let s := { s with deferred := s.deferred.eraseIdx k }
      some (if v.closing then s else s.apply q (resetCalls v q.entry))

/-- Every call acted on the connection that the command's sender held. -/
def ActsOnOwn (s : TxCommands) : Prop := ∀ a ∈ s.applied, a.cnx = a.sender

instance (s : TxCommands) : Decidable s.ActsOnOwn := inferInstanceAs (Decidable (∀ _ ∈ _, _))

/-- A connection is made at an address only when Python has nothing at it, no event of it is queued,
and no command for it is queued or held back. -/
def Forgotten (s : TxCommands) : Act → Prop
  | .create cnx => s.held cnx = none ∧ (∀ e ∈ s.rx, e.ev.cnxPtr ≠ cnx) ∧
      (∀ q ∈ s.ring, q.entry.eventType ≠ .txDgramRingRelease → q.entry.cnx ≠ cnx) ∧
      ∀ q ∈ s.deferred, q.entry.cnx ≠ cnx
  | _ => True

instance (s : TxCommands) : ∀ act, Decidable (s.Forgotten act)
  | .create _ => inferInstanceAs (Decidable (_ ∧ _))
  | .callback _ _ => .isTrue trivial
  | .free _ => .isTrue trivial
  | .drain => .isTrue trivial
  | .push _ => .isTrue trivial
  | .release _ _ => .isTrue trivial
  | .pop _ => .isTrue trivial
  | .afterSend _ _ => .isTrue trivial

/-! ## The invariant -/

/-- Nothing names another connection than the one at its address, if there is one. -/
structure Inv (s : TxCommands) : Prop where
  held : ∀ a i, s.held a = some i → ∀ j, s.cnxs a = some j → j = i
  rx : ∀ e ∈ s.rx, ∀ j, s.cnxs e.ev.cnxPtr = some j → j = e.inst
  ring : ∀ q ∈ s.ring, q.entry.eventType ≠ .txDgramRingRelease →
    ∀ j, s.cnxs q.entry.cnx = some j → j = q.inst
  deferred : ∀ q ∈ s.deferred, ∀ j, s.cnxs q.entry.cnx = some j → j = q.inst
  applied : s.ActsOnOwn

variable {s s' : TxCommands} {q : Command} {v : CnxView}

theorem Inv.create (h : s.Inv) {cnx : ℕ} (hf : s.Forgotten (.create cnx)) :
    Inv { s with cnxs := Function.update s.cnxs cnx (some s.created), created := s.created + 1 } := by
  obtain ⟨hheld, hrx, hring, hdef⟩ := hf
  -- whatever names an address names one that the step leaves alone
  have hkeep : ∀ a j, a ≠ cnx → Function.update s.cnxs cnx (some s.created) a = some j →
      s.cnxs a = some j := by
    intro a j hne hj
    rwa [Function.update_of_ne hne] at hj
  refine ⟨fun a i hi j hj => ?_, fun e he j hj => ?_, fun q hq hr j hj => ?_, fun q hq j hj =>
    ?_, h.applied⟩
  · have hne : a ≠ cnx := by
      rintro rfl
      exact absurd (hheld.symm.trans hi) (by simp)
    exact h.held a i hi j (hkeep a j hne hj)
  · exact h.rx e he j (hkeep _ j (hrx e he) hj)
  · exact h.ring q hq hr j (hkeep _ j (hring q hq hr) hj)
  · exact h.deferred q hq j (hkeep _ j (hdef q hq) hj)

theorem Inv.free (h : s.Inv) (cnx : ℕ) :
    Inv { s with cnxs := Function.update s.cnxs cnx none } := by
  have hkeep : ∀ a j, Function.update s.cnxs cnx none a = some j → s.cnxs a = some j := by
    intro a j hj
    by_cases ha : a = cnx
    · subst ha
      rw [Function.update_self] at hj
      exact absurd hj (by simp)
    · rwa [Function.update_of_ne ha] at hj
  exact ⟨fun a i hi j hj => h.held a i hi j (hkeep a j hj), fun e he j hj =>
    h.rx e he j (hkeep _ j hj),
    fun q hq hr j hj => h.ring q hq hr j (hkeep _ j hj), fun q hq j hj => h.deferred q hq j
      (hkeep _ j hj),
    h.applied⟩

theorem Inv.callback (h : s.Inv) {cnx inst : ℕ} (hc : s.cnxs cnx = some inst) (cb : Callback)
    {deferred : List Command} (hd : deferred ⊆ s.deferred) :
    Inv { s with
      deferred := deferred
      rx := s.rx ++ ((streamCb cnx cb).map fun ev => { inst := inst, ev := ev }).toList } := by
  refine ⟨h.held, fun e he j hj => ?_, h.ring, fun q hq => h.deferred q (hd hq), h.applied⟩
  rcases List.mem_append.1 he with he | he
  · exact h.rx e he j hj
  · obtain ⟨ev, hev, rfl⟩ := Option.map_eq_some_iff.1 (Option.mem_toList.1 he)
    have hcnx : ev.cnxPtr = cnx := streamCb_cnx hev
    exact Option.some.inj (hj.symm.trans (hcnx ▸ hc))

/-- Draining an event leaves Python with what it had, or with the event's connection. -/
theorem drained_cases {role : Role} {held : ℕ → Option ℕ} {e : Tagged} {a i : ℕ}
    (h : drained role held e a = some i) : held a = some i ∨ a = e.ev.cnxPtr ∧ i = e.inst := by
  have hupd : ∀ f : ℕ → Option ℕ, Function.update f e.ev.cnxPtr (some e.inst) a = some i →
      f a = some i ∨ a = e.ev.cnxPtr ∧ i = e.inst := by
    intro f hf
    by_cases ha : a = e.ev.cnxPtr
    · subst ha
      rw [Function.update_self] at hf
      exact .inr ⟨rfl, (Option.some.inj hf).symm⟩
    · rw [Function.update_of_ne ha] at hf
      exact .inl hf
  cases role with
  | server =>
    simp only [drained] at h
    split at h
    · by_cases ha : a = e.ev.cnxPtr
      · subst ha
        rw [Function.update_self] at h
        exact absurd h (by simp)
      · rw [Function.update_of_ne ha] at h
        exact .inl h
    · split at h
      · exact hupd held h
      · exact .inl h
  | client =>
    simp only [drained] at h
    split at h
    · exact absurd h (by simp)
    · split at h
      · rcases hupd _ h with hf | hf
        · exact absurd hf (by simp)
        · exact .inr hf
      · exact .inl h

theorem Inv.drain (h : s.Inv) {e : Tagged} {rx : List Tagged} (hrx : s.rx = e :: rx) :
    Inv { s with rx := rx, held := drained s.role s.held e } := by
  refine ⟨fun a i hi j hj => ?_, fun e' he' => h.rx e' ?_, h.ring, h.deferred, h.applied⟩
  · rcases drained_cases hi with hi | ⟨rfl, rfl⟩
    · exact h.held a i hi j hj
    · exact h.rx e (hrx ▸ List.mem_cons_self) j hj
  · rw [hrx]
    exact List.mem_cons_of_mem _ he'

theorem Inv.push (h : s.Inv) {entry : Entry} {inst : ℕ} (hh : s.held entry.cnx = some inst) :
    Inv { s with ring := s.ring ++ [⟨entry, inst⟩] } := by
  refine ⟨h.held, h.rx, fun q hq => ?_, h.deferred, h.applied⟩
  rcases List.mem_append.1 hq with hq | hq
  · exact h.ring q hq
  · cases List.mem_singleton.1 hq
    exact fun _ => h.held _ _ hh

theorem Inv.release (h : s.Inv) {entry : Entry} {inst : ℕ}
    (he : entry.eventType = .txDgramRingRelease) :
    Inv { s with ring := s.ring ++ [⟨entry, inst⟩] } := by
  refine ⟨h.held, h.rx, fun q hq hr => ?_, h.deferred, h.applied⟩
  rcases List.mem_append.1 hq with hq | hq
  · exact h.ring q hq hr
  · cases List.mem_singleton.1 hq
    exact absurd he hr

/-- The calls of a command that names the connection at its address. -/
theorem Inv.apply (h : s.Inv) (hq : ∀ j, s.cnxs q.entry.cnx = some j → j = q.inst)
    (calls : List Call) :
    (s.apply q calls).Inv := by
  unfold TxCommands.apply
  cases hc : s.cnxs q.entry.cnx with
  | none => exact h
  | some inst =>
    refine ⟨h.held, h.rx, h.ring, h.deferred, fun a ha => ?_⟩
    rcases List.mem_append.1 ha with ha | ha
    · exact h.applied a ha
    · obtain ⟨c, -, rfl⟩ := List.mem_map.1 ha
      exact hq inst hc

/-- What the calls of a command leave as it is. -/
structure SameQueues (s s' : TxCommands) : Prop where
  role : s'.role = s.role
  cnxs : s'.cnxs = s.cnxs
  created : s'.created = s.created
  held : s'.held = s.held
  rx : s'.rx = s.rx
  ring : s'.ring = s.ring

theorem apply_same (s : TxCommands) (q : Command) (calls : List Call) :
    s.SameQueues (s.apply q calls) := by
  unfold TxCommands.apply
  split <;> exact ⟨rfl, rfl, rfl, rfl, rfl, rfl⟩

theorem handle_same (s : TxCommands) (v : CnxView) (q : Command) : s.SameQueues (s.handle v q) := by
  have ha := s.apply_same q (loopCalls v q.entry)
  unfold TxCommands.handle
  split
  · exact ⟨rfl, rfl, rfl, rfl, rfl, rfl⟩
  · split
    · exact ⟨ha.role, ha.cnxs, ha.created, ha.held, ha.rx, ha.ring⟩
    · exact ha

theorem Inv.handle (h : s.Inv) (v : CnxView) (hown : q.entry.eventType ≠ .txDgramRingRelease →
    ∀ j, s.cnxs q.entry.cnx = some j → j = q.inst) : (s.handle v q).Inv := by
  unfold TxCommands.handle
  split
  · exact h
  rename_i hr
  have hq := hown hr
  have ha := h.apply hq (loopCalls v q.entry)
  split
  · refine ⟨ha.held, ha.rx, ha.ring, fun p hp j hj => ?_, ha.applied⟩
    rw [(s.apply_same q _).cnxs] at hj
    rcases List.mem_append.1 hp with hp | hp
    · exact h.deferred p hp j hj
    · cases List.mem_singleton.1 hp
      exact hq j hj
  · exact ha

theorem Inv.step {act : Act} (h : s.Inv) (hf : s.Forgotten act) (hs : s.step act = some s') :
    s'.Inv := by
  cases act with
  | create cnx =>
    simp only [TxCommands.step] at hs
    split at hs
    · cases hs
      exact h.create hf
    · cases hs
  | callback cnx cb =>
    simp only [TxCommands.step] at hs
    split at hs
    · cases hs
    · rename_i inst hc
      cases hs
      refine h.callback hc cb ?_
      split
      · exact List.filter_subset_self _
      · exact List.Subset.refl _
  | free cnx =>
    simp only [TxCommands.step] at hs
    split at hs
    · cases hs
    · cases hs
      exact h.free cnx
  | drain =>
    simp only [TxCommands.step] at hs
    split at hs
    · cases hs
    · rename_i e rx hrx
      cases hs
      exact h.drain hrx
  | push entry =>
    simp only [TxCommands.step] at hs
    split at hs
    · cases hs
    · rename_i inst hh
      cases hs
      exact h.push hh
  | release entry inst =>
    simp only [TxCommands.step] at hs
    split at hs
    · rename_i he
      cases hs
      exact h.release he
    · cases hs
  | pop v =>
    simp only [TxCommands.step] at hs
    split at hs
    · cases hs
    · rename_i q ring hring
      cases hs
      have hrest : Inv { s with ring := ring } :=
        ⟨h.held, h.rx, fun p hp => h.ring p (hring ▸ List.mem_cons_of_mem _ hp),
          h.deferred, h.applied⟩
      exact hrest.handle v (h.ring q (hring ▸ List.mem_cons_self))
  | afterSend k v =>
    simp only [TxCommands.step] at hs
    split at hs
    · cases hs
    · rename_i q hq
      cases hs
      have hmem := List.mem_of_getElem? hq
      have hrest : Inv { s with deferred := s.deferred.eraseIdx k } :=
        ⟨h.held, h.rx, h.ring, fun p hp => h.deferred p (List.mem_of_mem_eraseIdx hp), h.applied⟩
      split
      · exact hrest
      · exact hrest.apply (h.deferred q hmem) _

/-- A mark of stream 4 of the connection at `cnx`. -/
def markEntry (cnx : ℕ) : Entry :=
  { eventType := .txMarkActive, streamId := 4, cnx := cnx, streamCtx := 9 }

/-- A connection is served, marked and closed, and its address is used again when all is drained. -/
def forgottenActs : List Act :=
  [.create 16, .callback 16 { event := .ready }, .drain, .push (markEntry 16), .pop {},
    .callback 16 { event := .close }, .drain, .free 16, .create 16,
      .callback 16 { event := .ready },
    .drain, .push (markEntry 16), .pop {}]

/-- The address is used again while a mark for the first connection is queued. -/
def reusedActs : List Act :=
  [.create 16, .callback 16 { event := .ready }, .drain, .push (markEntry 16),
    .callback 16 { event := .close }, .free 16, .create 16, .pop {}]

end TxCommands

end Aiopquic
