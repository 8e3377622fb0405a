import Aiopquic.WtContextsInv

/-!
# Borrowed contexts over whole runs

What the session and asyncio do keeps the invariant too. From this follows `borrowed_alive`: no
context that Python can name is freed, and every link goes one way, once.
-/

namespace Aiopquic

open Steps (run)

namespace WebTransportSession

/-- What an event of the stream `sid` with the context `sc` does to a session: it takes in no other
context, none at all once the session is closed, and a cleanup is only queued for a closed session
that has forgotten its streams. -/
structure Takes (sid sc : ℕ) (s t : WebTransportSession) : Prop where
  closed : s.sessionClosed = true → t.sessionClosed = true
  attached : t.attached = false → s.attached = false ∨ t.sessionClosed = true
  ctxs : ∀ x, t.streamTxCtxs x = s.streamTxCtxs x ∨ t.streamTxCtxs x = 0 ∨
    s.sessionClosed = false ∧ x = sid ∧ t.streamTxCtxs x = sc
  cleared : s.sessionClosed = false → t.sessionClosed = true → ∀ x, t.streamTxCtxs x = 0
  commands : ∀ c ∈ t.tx ++ t.retries, c ∈ s.tx ++ s.retries ∨
    c ≠ .deregister ∧ (c = .sessionCleanup → t.sessionClosed = true)

variable {s t u : WebTransportSession} {room : SessionCommand → Bool} {c : SessionCommand}
  {e : SessionTuple} {sid sc : ℕ}

/-- Nothing of it changes. -/
theorem Takes.of_eq (hclosed : t.sessionClosed = s.sessionClosed)
    (hattached : t.attached = s.attached) (hctxs : t.streamTxCtxs = s.streamTxCtxs)
    (htx : t.tx = s.tx) (hretries : t.retries = s.retries) :
    Takes sid sc s t where
  closed h := hclosed.trans h
  attached h := .inl (hattached.symm.trans h)
  ctxs x := .inl (congrFun hctxs x)
  cleared hs ht := by
    rw [hclosed, hs] at ht
    cases ht
  commands c hc := by
    rw [htx, hretries] at hc
    exact .inl hc

theorem Takes.trans (h : Takes sid sc s t) (h' : Takes sid sc t u) : Takes sid sc s u where
  closed hs := h'.closed (h.closed hs)
  attached hu := by
    rcases h'.attached hu with ht | hu
    · rcases h.attached ht with hs | ht
      · exact .inl hs
      · exact .inr (h'.closed ht)
    · exact .inr hu
  ctxs x := by
    rcases h'.ctxs x with hx | hx | ⟨ht, hx⟩
    · rw [hx]
      exact h.ctxs x
    · exact .inr (.inl hx)
    · refine .inr (.inr ⟨?_, hx⟩)
      cases hs : s.sessionClosed with
      | false => rfl
      | true => exact absurd (h.closed hs) (by simp [ht])
  cleared hs hu x := by
    cases ht : t.sessionClosed with
    | false => exact h'.cleared ht hu x
    | true =>
      rcases h'.ctxs x with hx | hx | ⟨ht', -⟩
      · exact hx.trans (h.cleared hs ht x)
      · exact hx
      · exact absurd ht (by simp [ht'])
  commands c hc := by
    rcases h'.commands c hc with hc | hc
    · rcases h.commands c hc with hc | ⟨hne, hclosed⟩
      · exact .inl hc
      · exact .inr ⟨hne, fun hcleanup => h'.closed (hclosed hcleanup)⟩
    · exact .inr hc

theorem takes_pushOrRetry (hne : c ≠ .deregister)
    (hcleanup : c = .sessionCleanup → s.sessionClosed = true) :
    Takes sid sc s (s.pushOrRetry room c) := by
  have hmem : ∀ d ∈ (s.pushOrRetry room c).tx ++ (s.pushOrRetry room c).retries,
      d ∈ s.tx ++ s.retries ∨ d = c := by
    intro d hd
    simp only [pushOrRetry] at hd
    split at hd <;> simp only [List.mem_append, List.mem_singleton] at hd ⊢ <;> tauto
  have hsame : (s.pushOrRetry room c).attached = s.attached ∧
      (s.pushOrRetry room c).streamTxCtxs = s.streamTxCtxs := by
    simp only [pushOrRetry]
    split <;> exact ⟨rfl, rfl⟩
  refine ⟨fun h => ?_, fun h => .inl (hsame.1.symm.trans h), fun x => .inl (congrFun hsame.2 x),
    fun hs ht => ?_, fun d hd => ?_⟩
  · rw [sessionClosed_pushOrRetry]
    exact h
  · rw [sessionClosed_pushOrRetry, hs] at ht
    cases ht
  · rcases hmem d hd with hd | rfl
    · exact .inl hd
    · refine .inr ⟨hne, fun h => ?_⟩
      rw [sessionClosed_pushOrRetry]
      exact hcleanup h

theorem takes_dropStreamTx (x : ℕ) : Takes sid sc s (s.dropStreamTx x) := by
  refine ⟨fun h => h, fun h => .inl h, fun y => ?_, fun hs ht => ?_, fun c hc => .inl hc⟩
  · show Function.update s.streamTxCtxs x 0 y = _ ∨ Function.update s.streamTxCtxs x 0 y = 0 ∨ _
    rw [Function.update_apply]
    split
    · exact .inr (.inl rfl)
    · exact .inl rfl
  · exact absurd (hs.symm.trans ht) (by simp)

/-- A context is taken in. -/
theorem takes_update (hopen : s.sessionClosed = false) :
    Takes sid sc s { s with streamTxCtxs := Function.update s.streamTxCtxs sid sc } := by
  refine ⟨fun h => h, fun h => .inl h, fun y => ?_, fun hs ht => ?_, fun c hc => .inl hc⟩
  · show Function.update s.streamTxCtxs sid sc y = _ ∨ _ ∨ _ ∧ _ ∧
      Function.update s.streamTxCtxs sid sc y = sc
    rw [Function.update_apply]
    split
    · rename_i hy
      exact .inr (.inr ⟨hopen, hy, rfl⟩)
    · exact .inl rfl
  · exact absurd (hs.symm.trans ht) (by simp)

/-- A closed session forgets its streams, and its cleanup is queued. -/
theorem takes_release (h : t.sessionClosed = true)
    (hcommands : ∀ c ∈ t.tx ++ t.retries, c ∈ s.tx ++ s.retries ∨
      c ≠ .deregister ∧ (c = .sessionCleanup → t.sessionClosed = true)) :
    Takes sid sc s (t.releaseSessionResources room) := by
  have hpush : Takes sid sc t (t.pushOrRetry room .sessionCleanup) :=
    takes_pushOrRetry (by simp) fun _ => h
  have hclosed : (t.releaseSessionResources room).sessionClosed = true := hpush.closed h
  refine ⟨fun _ => hclosed, fun _ => .inr hclosed, fun _ => .inr (.inl rfl), fun _ _ _ => rfl,
    fun c hc => ?_⟩
  rcases hpush.commands c hc with hc | ⟨hne, hcleanup⟩
  · rcases hcommands c hc with hc | ⟨hne, -⟩
    · exact .inl hc
    · exact .inr ⟨hne, fun _ => hclosed⟩
  · exact .inr ⟨hne, fun _ => hclosed⟩

theorem takes_failReady : Takes sid sc s s.failReady := by
  unfold failReady
  split <;> exact .of_eq rfl rfl rfl rfl rfl

theorem takes_answerFin : Takes sid sc s (s.answerFin room) := by
  unfold answerFin
  split
  · exact .of_eq rfl rfl rfl rfl rfl
  · have hsent : Takes sid sc s { s with finSent := true } := .of_eq rfl rfl rfl rfl rfl
    exact hsent.trans (takes_pushOrRetry (by simp) (by simp))

theorem takes_onSessionClosed (errorCode : ℕ) (data : Option (List UInt8)) (source : ℕ) :
    Takes sid sc s (s.onSessionClosed room errorCode data source) := by
  have hrelease : Takes sid sc s ({ s with sessionClosed := true }.releaseSessionResources room) :=
    takes_release rfl fun c hc => .inl hc
  have hclosed := @sessionClosed_onSessionClosed s room errorCode data source
  set v := ({ s with sessionClosed := true }.releaseSessionResources room).failReady with hv
  have hput : Takes sid sc v (v.put (closedEvent errorCode data source)) :=
    .of_eq rfl rfl rfl rfl rfl
  have hall : Takes sid sc s ((v.put (closedEvent errorCode data source)).answerFin room) :=
    ((hrelease.trans takes_failReady).trans hput).trans takes_answerFin
  exact ⟨fun _ => hclosed, fun _ => .inr hclosed, hall.ctxs, hall.cleared, hall.commands⟩

theorem takes_close (errorCode : ℕ) (reason : List UInt8) :
    Takes sid sc s (s.close room errorCode reason) := by
  unfold close
  split
  · exact .of_eq rfl rfl rfl rfl rfl
  · set v : WebTransportSession := { s with sessionClosed := true, finSent := true }
    have hclose : Takes sid sc v (v.pushOrRetry room (.close errorCode reason)) :=
      takes_pushOrRetry (by simp) (by simp)
    have hrelease : Takes sid sc s
        ((v.pushOrRetry room (.close errorCode reason)).releaseSessionResources room) :=
      takes_release (hclose.closed rfl) hclose.commands
    exact hrelease.trans (.of_eq rfl rfl rfl rfl rfl)

theorem takes_retireReply (x : ℕ) : Takes sid sc s (s.retireReply x) := by
  unfold retireReply
  split
  · unfold retireOrphanStream
    have hdrop : Takes sid sc s (s.dropStreamTx x) := takes_dropStreamTx x
    dsimp only
    split
    · exact hdrop
    · exact hdrop.trans (.of_eq rfl rfl rfl rfl rfl)
  · exact .of_eq rfl rfl rfl rfl rfl

theorem takes_onStreamCreated : Takes e.sid e.scPtr s (s.onStreamCreated room e) := by
  unfold onStreamCreated
  split
  · dsimp only
    split
    · refine ⟨fun h => h, fun h => .inl h, fun _ => .inl rfl, fun hs ht => ?_, fun c hc => ?_⟩
      · exact absurd (hs.symm.trans ht) (by simp)
      · simp only [List.mem_append, List.mem_singleton] at hc ⊢
        rcases hc with (hc | rfl) | hc
        · exact .inl (.inl hc)
        · exact .inr (by simp)
        · exact .inl (.inr hc)
    · exact .of_eq rfl rfl rfl rfl rfl
  · rename_i hopen
    have hopen : s.sessionClosed = false := by simpa using hopen
    have htail : Takes e.sid e.scPtr s { s with pendingCreates := s.pendingCreates.tail } :=
      .of_eq rfl rfl rfl rfl rfl
    have hretire := htail.trans (takes_retireReply e.sid)
    cases s.pendingCreates.head? with
    | none => exact hretire
    | some call =>
      dsimp only
      split
      · split
        · exact hretire.trans (.of_eq rfl rfl rfl rfl rfl)
        · exact hretire
      · have htaken : Takes e.sid e.scPtr s { s with
            pendingCreates := s.pendingCreates.tail
            streamTxCtxs := Function.update s.streamTxCtxs e.sid e.scPtr } :=
          htail.trans (takes_update hopen)
        split
        · exact htaken.trans (.of_eq rfl rfl rfl rfl rfl)
        · exact htail.trans (.of_eq rfl rfl rfl rfl rfl)

theorem takes_onNewStream : Takes e.sid e.scPtr s (s.onNewStream room e) := by
  unfold onNewStream
  split
  · rename_i hclosed
    split
    · exact takes_pushOrRetry (by simp) fun _ => hclosed
    · exact .of_eq rfl rfl rfl rfl rfl
  · rename_i hopen
    have hput : ∀ {v : WebTransportSession} {d : WebTransportEvent},
        Takes e.sid e.scPtr v (v.put d) :=
      .of_eq rfl rfl rfl rfl rfl
    dsimp only
    split
    · exact (takes_update (by simpa using hopen)).trans hput
    · exact hput

theorem takes_onEvent : Takes e.sid e.scPtr s (s.onEvent room e) := by
  have hsame : ∀ {v : WebTransportSession}, v.sessionClosed = s.sessionClosed →
      v.attached = s.attached → v.streamTxCtxs = s.streamTxCtxs → v.tx = s.tx →
      v.retries = s.retries → Takes e.sid e.scPtr s v := Takes.of_eq
  unfold onEvent
  cases hty : e.evtType with
  | wtSessionClosed => exact takes_onSessionClosed ..
  | wtCnxClosed =>
    dsimp only
    split
    · exact hsame rfl rfl rfl rfl rfl
    · exact (takes_onSessionClosed e.errorCode none e.isFin).trans (.of_eq rfl rfl rfl rfl rfl)
  | wtStreamCreated => exact takes_onStreamCreated
  | wtNewStream => exact takes_onNewStream
  | wtSessionReady =>
    dsimp only
    split <;> exact hsame rfl rfl rfl rfl rfl
  | wtStreamReset =>
    dsimp only
    split
    · exact hsame rfl rfl rfl rfl rfl
    · exact takes_dropStreamTx e.sid
  | wtSessionRefused => exact takes_failReady.trans (.of_eq rfl rfl rfl rfl rfl)
  | wtStopSending =>
    exact (hsame (v := s.put (.stopSending e.sid e.errorCode)) rfl rfl rfl rfl rfl).trans
      (takes_dropStreamTx e.sid)
  | streamDestroy | wtStreamDestroy => exact takes_dropStreamTx e.sid
  | wtSessionDraining | wtDatagram => exact hsame rfl rfl rfl rfl rfl
  | _ => exact hsame rfl rfl rfl rfl rfl

/-- The end of a stream makes the session forget it. -/
theorem onEvent_destroy (h : e.evtType = .wtStreamDestroy) :
    (s.onEvent room e).streamTxCtxs e.sid = 0 := by
  rw [onEvent, h]
  exact Function.update_self ..

end WebTransportSession

namespace WtContexts

open WebTransportSession (Takes takes_onEvent takes_close onEvent_destroy)

variable {s t : WtContexts} {u : WebTransportSession} {e : SessionTuple} {l : WtLink} {sid sc k : ℕ}

/-! ## The session -/

/-- What an event does to the session keeps what the invariant says of the session alone. -/
theorem Inv.session_takes (h : s.Inv) (htakes : Takes sid sc s.session u)
    (hnamed : sc ≠ 0 → ∃ l ∈ s.links, l.sid = sid ∧ l.sc = sc) :
    (s.gone = false → ∀ x, u.streamTxCtxs x ≠ 0 →
      ∃ l ∈ s.links, l.sid = x ∧ l.sc = u.streamTxCtxs x) ∧
    (u.sessionClosed = true → ∀ x, u.streamTxCtxs x = 0) ∧
    (.sessionCleanup ∈ u.tx ++ u.retries → u.sessionClosed = true) ∧
    (.deregister ∈ u.tx ++ u.retries → s.gone = true) ∧
    (u.attached = false → u.sessionClosed = true) := by
  refine ⟨fun hgone x hx => ?_, fun hclosed x => ?_, fun hc => ?_, fun hc => ?_, fun hd => ?_⟩
  · rcases htakes.ctxs x with heq | heq | ⟨-, rfl, heq⟩
    · rw [heq] at hx ⊢
      exact h.known hgone x hx
    · exact absurd heq hx
    · rw [heq] at hx ⊢
      exact hnamed hx
  · cases hs : s.session.sessionClosed with
    | false => exact htakes.cleared hs hclosed x
    | true =>
      rcases htakes.ctxs x with heq | heq | ⟨hopen, -⟩
      · exact heq.trans (h.forgotten hs x)
      · exact heq
      · exact absurd hs (by simp [hopen])
  · rcases htakes.commands _ hc with hc | ⟨-, hclosed⟩
    · exact htakes.closed (h.cleanup hc)
    · exact hclosed rfl
  · rcases htakes.commands _ hc with hc | ⟨hne, -⟩
    · exact h.deregister hc
    · exact absurd rfl hne
  · rcases htakes.attached hd with hs | hclosed
    · exact htakes.closed (h.detached hs)
    · exact hclosed

theorem open_of_takes (htakes : Takes sid sc s.session u) (hgone : s.gone = false)
    (hopen : u.sessionClosed = false) : s.Open := by
  refine ⟨hgone, ?_⟩
  cases hs : s.session.sessionClosed with
  | false => rfl
  | true => exact absurd (htakes.closed hs) (by simp [hopen])

/-- The session changes, and takes in no context. -/
theorem Inv.session (h : s.Inv) (sid : ℕ) (htakes : Takes sid 0 s.session u) :
    Inv { s with session := u } := by
  obtain ⟨hknown, hforgotten, hcleanup, hderegister, hdetached⟩ :=
    h.session_takes htakes fun hne => absurd rfl hne
  refine { h with
    leaving := ?_, known := hknown, forgotten := hforgotten, cleanup := hcleanup
    deregister := hderegister, detached := hdetached }
  rintro ⟨hgone, hopen⟩ l hl hrel
  rcases h.leaving (open_of_takes htakes hgone hopen) l hl hrel with hend | ⟨hdict, hnone⟩
  · exact .inl hend
  · refine .inr ⟨?_, hnone⟩
    show u.streamTxCtxs l.sid = 0
    rcases htakes.ctxs l.sid with heq | heq | ⟨-, -, heq⟩
    · exact heq.trans hdict
    · exact heq
    · exact heq

/-- The head of the batch is routed. An open session has it, and forgets a stream at its end. -/
theorem Inv.routed {rest : List SessionTuple} (h : s.Inv) (hbatch : s.batch = e :: rest)
    (htakes : Takes e.sid e.scPtr s.session u)
    (hforgets : s.Open → e.evtType = .wtStreamDestroy → u.streamTxCtxs e.sid = 0) :
    Inv { s with session := u, batch := rest } := by
  have hline : s.line = .event e :: (rest.map .event ++ (s.held.map .release ++ s.rx)) := by
    rw [line, hbatch, List.map_cons, List.cons_append]
  have hevents : s.events = e :: (rest ++ s.rx.filterMap RxItem.event?) := by
    rw [events, hbatch, List.cons_append]
  have hmem : ∀ d ∈ rest ++ s.rx.filterMap RxItem.event?, d ∈ s.events := fun d hd =>
    hevents ▸ List.mem_cons_of_mem _ hd
  have horder := h.order
  rw [hline, List.pairwise_cons] at horder
  obtain ⟨hhead, htail⟩ := horder
  obtain ⟨hknown, hforgotten, hcleanup, hderegister, hdetached⟩ :=
    h.session_takes htakes (h.named e (hevents ▸ List.mem_cons_self))
  refine { h with
    named := fun d hd => h.named d (hmem d hd), order := htail
    ended := fun d hd => h.ended d (hmem d hd), leaving := ?_, known := hknown
    forgotten := hforgotten, cleanup := hcleanup, deregister := hderegister
    detached := hdetached }
  rintro ⟨hgone, hopen⟩ l hl hrel
  have hsopen := open_of_takes htakes hgone hopen
  rcases h.leaving hsopen l hl hrel with ⟨d, hd, hend, hsid⟩ | ⟨hdict, hnone⟩
  · rw [hevents] at hd
    rcases List.mem_cons.1 hd with rfl | hd
    · -- the stream's end was the head: nothing behind it names the stream's context
      refine .inr ⟨hsid ▸ hforgets hsopen hend, fun d' hd' heq => ?_⟩
      exact hhead _ (mem_line_event (s := { s with batch := rest }).2 hd') hend
        (heq.trans hsid.symm)
    · exact .inl ⟨d, hd, hend, hsid⟩
  · refine .inr ⟨?_, fun d hd => hnone d (hmem d hd)⟩
    show u.streamTxCtxs l.sid = 0
    rcases htakes.ctxs l.sid with heq | heq | ⟨-, hsid, heq⟩
    · exact heq.trans hdict
    · exact heq
    · exact heq.trans (hnone e (hevents ▸ List.mem_cons_self) hsid.symm)

theorem Inv.route (h : s.Inv) (room : SessionCommand → Bool) (hstep : s.route room = some t) :
    t.Inv := by
  unfold WtContexts.route at hstep
  cases hbatch : s.batch with
  | nil => simp [hbatch] at hstep
  | cons e rest =>
    rw [hbatch] at hstep
    cases hstep
    split
    · exact h.routed hbatch takes_onEvent fun _ => onEvent_destroy
    · rename_i hnot
      refine h.routed hbatch (.of_eq rfl rfl rfl rfl rfl) fun hopen => absurd ⟨hopen.1, ?_⟩ hnot
      cases hattached : s.session.attached with
      | true => rfl
      | false => exact absurd (h.detached hattached) (by simp [hopen.2])

/-! ## The batch -/

/-- Each link of the batch is there, once. -/
theorem destroyLinks_eq {held : List ℕ} {links : List WtLink} (hnodup : held.Nodup)
    (hmem : ∀ k ∈ held, k ∈ links.map (·.addr)) :
    destroyLinks held links = some (links.filter (·.addr ∉ held)) := by
  induction held generalizing links with
  | nil => simp [destroyLinks]
  | cons k held ih =>
    obtain ⟨hk, hrest⟩ := List.nodup_cons.1 hnodup
    have hstill : ∀ k' ∈ held, k' ∈ (links.filter (·.addr ≠ k)).map (·.addr) := by
      intro k' hk'
      obtain ⟨l, hl, rfl⟩ := List.mem_map.1 (hmem k' (List.mem_cons_of_mem _ hk'))
      refine List.mem_map_of_mem (List.mem_filter.2 ⟨hl, ?_⟩)
      simpa using fun heq : l.addr = k => hk (heq ▸ hk')
    rw [destroyLinks, if_pos (hmem k List.mem_cons_self), ih hrest hstill, List.filter_filter]
    congr 1
    refine List.filter_congr fun l _ => ?_
    simp [Bool.and_comm]

/-- The links of a batch go when its events are routed, and no name of theirs is left. -/
theorem Inv.releaseBatchRefs (h : s.Inv) (hbatch : s.batch = []) :
    ∃ links, s.releaseBatchRefs = some { s with links := links, held := [] } ∧
      Inv { s with links := links, held := [] } := by
  have hnodup : (s.tree.filterMap s.link ++ s.releases).Nodup := h.holders.nodup_iff.1 h.addrs
  obtain ⟨hattached, hreleases, hdisjoint⟩ := List.nodup_append.1 hnodup
  obtain ⟨hheld, hqueued, hapart⟩ := List.nodup_append.1 hreleases
  have hin : ∀ k ∈ s.held, k ∈ s.links.map (·.addr) := fun k hk =>
    h.holders.mem_iff.2 (List.mem_append_right _ (List.mem_append_left _ hk))
  have hevents : s.events = s.rx.filterMap RxItem.event? := by rw [events, hbatch, List.nil_append]
  have hline : s.line = s.held.map .release ++ s.rx := by
    rw [line, hbatch, List.map_nil, List.nil_append]
  have hbehind : ∀ k ∈ s.held, ∀ e ∈ s.events, Before s.links (.release k) (.event e) := by
    have horder := h.order
    rw [hline, List.pairwise_append] at horder
    intro k hk e he
    refine horder.2.2 _ (List.mem_map_of_mem hk) _ ?_
    have hmem := mem_line_event.2 he
    rw [hline] at hmem
    simpa using hmem
  refine ⟨s.links.filter (·.addr ∉ s.held), ?_, ?_⟩
  · unfold WtContexts.releaseBatchRefs
    rw [destroyLinks_eq hheld hin]
    rfl
  have hsub : ∀ l ∈ s.links.filter (·.addr ∉ s.held), l ∈ s.links := fun l hl =>
    (List.mem_filter.1 hl).1
  have hkeep : ∀ l ∈ s.links, l.addr ∉ s.held → l ∈ s.links.filter (·.addr ∉ s.held) :=
    fun l hl hnot => List.mem_filter.2 ⟨hl, by simpa using hnot⟩
  have hrel : ∀ k, k ∈ s.rx.filterMap RxItem.release? → k ∈ s.releases := fun k hk =>
    List.mem_append_right _ hk
  refine { h with
    linked := ?_, addrs := ?_, sids := fun l hl => h.sids l (hsub l hl), holders := ?_, named := ?_
    order := ?_, released := ?_, leaving := ?_, known := ?_ }
  · intro sid k hk
    obtain ⟨hmem, l, hl, haddr, hsid⟩ := h.linked sid k hk
    refine ⟨hmem, l, hkeep l hl ?_, haddr, hsid⟩
    intro hin
    refine hdisjoint l.addr (List.mem_filterMap.2 ⟨sid, hmem, haddr ▸ hk⟩) l.addr ?_ rfl
    exact List.mem_append_left _ hin
  · exact h.addrs.sublist (List.filter_sublist.map _)
  · show ((s.links.filter (·.addr ∉ s.held)).map (·.addr)).Perm
      (s.tree.filterMap s.link ++ s.rx.filterMap RxItem.release?)
    refine (List.perm_ext_iff_of_nodup (h.addrs.sublist (List.filter_sublist.map _)) ?_).2 ?_
    · exact List.nodup_append.2 ⟨hattached, hqueued, fun a ha b hb => hdisjoint a ha b (hrel b hb)⟩
    · intro k
      constructor
      · intro hk
        obtain ⟨l, hl, rfl⟩ := List.mem_map.1 hk
        have hnot : l.addr ∉ s.held := by simpa using (List.mem_filter.1 hl).2
        have hmem := h.holders.mem_iff.1 (List.mem_map_of_mem (hsub l hl))
        simp only [releases, List.mem_append] at hmem ⊢
        tauto
      · intro hk
        have hmem : k ∈ s.tree.filterMap s.link ++ s.releases := by
          simp only [releases, List.mem_append] at hk ⊢
          tauto
        obtain ⟨l, hl, rfl⟩ := List.mem_map.1 (h.holders.mem_iff.2 hmem)
        refine List.mem_map_of_mem (hkeep l hl fun hin => ?_)
        rcases List.mem_append.1 hk with hk | hk
        · exact hdisjoint _ hk _ (List.mem_append_left _ hin) rfl
        · exact hapart _ hin _ hk rfl
  · intro e he hptr
    have he : e ∈ s.events := he
    obtain ⟨l, hl, hsid, hsc⟩ := h.named e he hptr
    refine ⟨l, hkeep l hl fun hin => ?_, hsid, hsc⟩
    exact hptr (hbehind _ hin e he l hl rfl hsid).1
  · have horder := h.order
    rw [hline, List.pairwise_append] at horder
    show (s.batch.map RxItem.event ++ ([] ++ s.rx)).Pairwise _
    rw [hbatch]
    refine horder.2.1.imp fun {a b} hab => ?_
    cases b with
    | release k => cases a <;> trivial
    | event e =>
      cases a with
      | event d => exact hab
      | release k => exact fun l hl => hab l (hsub l hl)
  · exact fun l hl hk => h.released l (hsub l hl) (hrel _ hk)
  · exact fun hopen l hl hk => h.leaving hopen l (hsub l hl) (hrel _ hk)
  · intro hgone x hx
    obtain ⟨l, hl, rfl, hsc⟩ := h.known hgone x hx
    refine ⟨l, hkeep l hl fun hin => ?_, rfl, hsc⟩
    have hopen : s.session.sessionClosed = false := by
      by_contra hclosed
      exact hx (h.forgotten (by simpa using hclosed) _)
    -- an end of the stream would be ahead of the release, and so be routed by now
    rcases h.leaving ⟨hgone, hopen⟩ l hl (List.mem_append_left _ hin) with
      ⟨d, hd, hend, hsid⟩ | ⟨hdict, -⟩
    · exact (hbehind _ hin d hd l hl rfl hsid.symm).2 hend
    · exact hx hdict

theorem map_filterMap_event (rx : List RxItem) :
    ((rx.filterMap RxItem.event?).map .event).Sublist rx := by
  induction rx with
  | nil => exact List.Sublist.refl _
  | cons a rx ih =>
    cases a with
    | event e => exact ih.cons_cons _
    | release k => exact ih.cons _

/-- Draining puts the releases of a batch behind its events. -/
theorem Inv.drained (h : s.Inv) (hline : s.line = s.rx) (n : ℕ) :
    Inv { s with
      rx := s.rx.drop n
      batch := (s.rx.take n).filterMap RxItem.event?
      held := (s.rx.take n).filterMap RxItem.release? } := by
  set t : WtContexts := { s with
    rx := s.rx.drop n
    batch := (s.rx.take n).filterMap RxItem.event?
    held := (s.rx.take n).filterMap RxItem.release? } with ht
  have hempty : s.batch = [] ∧ s.held = [] := by
    have hlen := congrArg List.length hline
    simp only [line, List.length_append, List.length_map] at hlen
    exact ⟨List.eq_nil_of_length_eq_zero (by omega), List.eq_nil_of_length_eq_zero (by omega)⟩
  have hevents : t.events = s.events := by
    show (s.rx.take n).filterMap RxItem.event? ++ (s.rx.drop n).filterMap RxItem.event? = _
    rw [← List.filterMap_append, List.take_append_drop, events, hempty.1, List.nil_append]
  have hreleases : t.releases = s.releases := by
    show (s.rx.take n).filterMap RxItem.release? ++ (s.rx.drop n).filterMap RxItem.release? = _
    rw [← List.filterMap_append, List.take_append_drop, releases, hempty.2, List.nil_append]
  have horder := h.order
  rw [hline, ← List.take_append_drop n s.rx, List.pairwise_append] at horder
  obtain ⟨htaken, hleft, hcross⟩ := horder
  refine { h with
    holders := hreleases ▸ h.holders, named := hevents ▸ h.named, order := ?_
    ended := hevents ▸ h.ended, released := hreleases ▸ h.released, leaving := ?_ }
  · have hsub := map_filterMap_event (s.rx.take n)
    show (((s.rx.take n).filterMap RxItem.event?).map RxItem.event ++
      (((s.rx.take n).filterMap RxItem.release?).map RxItem.release ++ s.rx.drop n)).Pairwise _
    rw [List.pairwise_append, List.pairwise_append]
    refine ⟨htaken.sublist hsub, ⟨?_, hleft, fun a ha b hb => ?_⟩, fun a ha b hb => ?_⟩
    · rw [List.pairwise_map]
      exact List.pairwise_of_forall_mem_list fun _ _ _ _ => trivial
    · obtain ⟨k, hk, rfl⟩ := List.mem_map.1 ha
      obtain ⟨c, hc, hrel⟩ := List.mem_filterMap.1 hk
      cases c with
      | event e => cases hrel
      | release k' =>
        cases hrel
        exact hcross _ hc b hb
    · rcases List.mem_append.1 hb with hb | hb
      · obtain ⟨k, -, rfl⟩ := List.mem_map.1 hb
        cases a <;> trivial
      · exact hcross a (hsub.subset ha) b hb
  · rw [hreleases]
    unfold Leaving
    rw [hevents]
    exact h.leaving

theorem Inv.drainRx {n : ℕ} (h : s.Inv) (hbatch : s.batch = []) (hstep : s.drainRx n = some t) :
    t.Inv := by
  obtain ⟨links, hlinks, hinv⟩ := h.releaseBatchRefs hbatch
  unfold WtContexts.drainRx at hstep
  rw [hlinks] at hstep
  cases hstep
  refine hinv.drained ?_ n
  rw [line, hbatch]
  rfl

/-! ## The run -/

theorem Inv.dealloc (h : s.Inv) (pushed : Bool) : (s.dealloc pushed).Inv := by
  refine { h with
    leaving := fun hopen => absurd hopen.1 (by simp [WtContexts.dealloc])
    known := fun hgone => absurd hgone (by simp [WtContexts.dealloc]), cleanup := fun hc => ?_
    deregister := fun _ => rfl }
  refine h.cleanup ?_
  simp only [WtContexts.dealloc] at hc
  split at hc <;> simp only [List.mem_append, List.mem_singleton] at hc ⊢ <;> simpa using hc

theorem Inv.retryPush {pushed : Bool} (h : s.Inv) (hstep : s.retryPush k pushed = some t) :
    t.Inv := by
  unfold WtContexts.retryPush at hstep
  obtain ⟨c, hc, rfl⟩ := Option.map_eq_some_iff.1 hstep
  have hmem : c ∈ s.session.retries := List.mem_of_getElem? hc
  refine h.session 0 ⟨fun h => h, fun h => .inl h, fun _ => .inl rfl, fun hs ht => ?_,
    fun d hd => .inl ?_⟩
  · exact absurd (hs.symm.trans ht) (by simp)
  · rcases List.mem_append.1 hd with hd | hd
    · cases pushed with
      | false => exact List.mem_append_left _ hd
      | true =>
        rcases List.mem_append.1 hd with hd | hd
        · exact List.mem_append_left _ hd
        · rw [List.mem_singleton.1 hd]
          exact List.mem_append_right _ hmem
    · exact List.mem_append_right _ (List.mem_of_mem_eraseIdx hd)

theorem Inv.handleTx {outcome : CreateOutcome} (h : s.Inv) (hfreed : s.freed = false)
    (hstep : s.handleTx outcome = some t) : t.Inv := by
  unfold WtContexts.handleTx at hstep
  cases htx : s.session.tx with
  | nil => simp [htx] at hstep
  | cons c rest =>
    have hrest : Inv { s with session := { s.session with tx := rest } } := by
      refine h.session 0 ⟨fun h => h, fun h => .inl h, fun _ => .inl rfl,
        fun hs ht => absurd (hs.symm.trans ht) (by simp), fun d hd => .inl ?_⟩
      rw [htx]
      rcases List.mem_append.1 hd with hd | hd
      · exact List.mem_append_left _ (List.mem_cons_of_mem _ hd)
      · exact List.mem_append_right _ hd
    have hqueued : c ∈ s.session.tx ++ s.session.retries := by
      rw [htx]
      exact List.mem_append_left _ List.mem_cons_self
    rw [htx] at hstep
    cases c with
    | createStream bidir =>
      obtain ⟨hmakes, hstep⟩ := Option.ite_none_right_eq_some.1 hstep
      cases hstep
      exact hrest.createStream hmakes hfreed
    | sessionCleanup =>
      cases hstep
      split
      · refine (hrest.walk (fun hopen => ?_) _).1
        exact absurd (h.cleanup hqueued) (by simpa using hopen.2)
      · exact hrest
    | deregister =>
      cases hstep
      refine hrest.destroy fun hopen => ?_
      exact absurd (h.deregister hqueued) (by simpa using hopen.1)
    | close errorCode reason | fin | resetStream x errorCode | stopSending x errorCode =>
      cases hstep
      exact hrest

theorem Inv.step {act : Act} (h : s.Inv) (hstep : s.step act = some t) : t.Inv := by
  unfold WtContexts.step at hstep
  cases act with
  | opened sid =>
    obtain ⟨⟨hnew, hcnx, hfreed⟩, hstep⟩ := Option.ite_none_right_eq_some.1 hstep
    cases hstep
    exact h.opened hnew hcnx hfreed
  | pathCallback l ok event =>
    obtain ⟨⟨hmem, hfresh⟩, hstep⟩ := Option.ite_none_right_eq_some.1 hstep
    cases hstep
    exact h.pathCallback hmem hfresh ok event
  | sessionEvent e =>
    obtain ⟨⟨⟨hof, hptr⟩, -⟩, hstep⟩ := Option.ite_none_right_eq_some.1 hstep
    cases hstep
    refine h.push_plain hptr fun hend => ?_
    simp [SessionTuple.ofStream, hend] at hof
  | retire closed =>
    obtain ⟨⟨-, -, hplain⟩, hstep⟩ := Option.ite_none_right_eq_some.1 hstep
    cases hstep
    exact h.retire hplain
  | handleTx outcome =>
    obtain ⟨hfreed, hstep⟩ := Option.ite_none_right_eq_some.1 hstep
    exact h.handleTx hfreed hstep
  | drainRx n =>
    obtain ⟨hbatch, hstep⟩ := Option.ite_none_right_eq_some.1 hstep
    exact h.drainRx hbatch hstep
  | route room => exact h.route room hstep
  | releaseBatch =>
    obtain ⟨hbatch, hstep⟩ := Option.ite_none_right_eq_some.1 hstep
    obtain ⟨links, hlinks, hinv⟩ := h.releaseBatchRefs hbatch
    rw [hlinks] at hstep
    cases hstep
    exact hinv
  | submit call bidir =>
    obtain ⟨-, hstep⟩ := Option.ite_none_right_eq_some.1 hstep
    cases hstep
    refine h.session 0 ⟨fun h => h, fun h => .inl h, fun _ => .inl rfl,
      fun hs ht => absurd (hs.symm.trans ht) (by simp), fun d hd => ?_⟩
    simp only [submit, List.mem_append, List.mem_singleton] at hd ⊢
    rcases hd with (hd | rfl) | hd
    · exact .inl (.inl hd)
    · exact .inr (by simp)
    · exact .inl (.inr hd)
  | cancel call =>
    cases hstep
    exact h.session 0 (.of_eq rfl rfl rfl rfl rfl)
  | command c =>
    obtain ⟨⟨-, hcleanup, hderegister, -⟩, hstep⟩ := Option.ite_none_right_eq_some.1 hstep
    cases hstep
    refine h.session 0 ⟨fun h => h, fun h => .inl h, fun _ => .inl rfl,
      fun hs ht => absurd (hs.symm.trans ht) (by simp), fun d hd => ?_⟩
    simp only [List.mem_append, List.mem_singleton] at hd ⊢
    rcases hd with (hd | rfl) | hd
    · exact .inl (.inl hd)
    · exact .inr ⟨hderegister, fun heq => absurd heq hcleanup⟩
    · exact .inl (.inr hd)
  | retryPush k pushed => exact h.retryPush hstep
  | close errorCode reason room =>
    obtain ⟨-, hstep⟩ := Option.ite_none_right_eq_some.1 hstep
    cases hstep
    exact h.session 0 (takes_close errorCode reason)
  | dealloc pushed =>
    obtain ⟨-, hstep⟩ := Option.ite_none_right_eq_some.1 hstep
    cases hstep
    exact h.dealloc pushed

/-- A session without streams. -/
def init (server : Bool) (sessionReady : Option Future) : WtContexts :=
  { session := { server, sessionReady } }

theorem inv_init (server : Bool) (sessionReady : Option Future) :
    (init server sessionReady).Inv where
  nodup := List.nodup_nil
  used _ h := absurd h List.not_mem_nil
  linked _ _ h := by cases h
  addrs := List.nodup_nil
  sids _ h := absurd h List.not_mem_nil
  holders := List.Perm.refl _
  named _ h := absurd h List.not_mem_nil
  order := List.Pairwise.nil
  ended _ h := absurd h List.not_mem_nil
  released _ h := absurd h List.not_mem_nil
  leaving _ _ h := absurd h List.not_mem_nil
  known _ _ h := absurd rfl h
  forgotten _ _ := rfl
  cleanup h := absurd h List.not_mem_nil
  deregister h := absurd h List.not_mem_nil
  detached h := by cases h
  retired h := by cases h
  freed h := by cases h

end WtContexts

end Aiopquic
