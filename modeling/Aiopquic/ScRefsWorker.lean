import Aiopquic.ScRefsFlight

/-!
# The worker keeps the references

A callback works on a context that its stream has attached, or on one made for it, and queues an
event that references it. A command's reference is in flight while the worker handles it.
-/

namespace Aiopquic

open Counted

namespace ScRefs

variable {s s' : ScRefs} {l l' : List ℕ} {sc : ℕ}

/-! ## picoquic's connections -/

variable {cnx : ℕ} {cb : Callback}

/-- What `aiopquic_stream_cb` has once it knows the context. -/
structure Ready (s t : ScRefs) (cnx : ℕ) (cb : Callback) (sc : ℕ) : Prop where
  inv : t.Inv
  phase : t.phase = .running
  live : t.live = s.live
  closing : (t.cnxs cnx).closing = (s.cnxs cnx).closing
  usable : sc ≠ 0 → t.UsableAt cnx cb.streamId
  attached : sc ≠ 0 → (t.cnxs cnx).attached cb.streamId = sc
  takes : sc ≠ 0 → t.Takes [] sc

theorem Inv.callbackCtx (h : s.Inv) (hroom : s.Room) (hphase : s.phase = .running)
    (hlive : cnx ∈ s.live)
    (hcalls : (s.cnxs cnx).Calls cb) :
    Ready s (s.callbackCtx cnx cb).1 cnx cb (s.callbackCtx cnx cb).2 := by
  obtain ⟨hp, hr⟩ := h.facts hphase
  simp only [ScRefs.callbackCtx]
  split
  · rename_i hopen
    have hu : s.UsableAt cnx cb.streamId := ⟨hlive, hopen.2, hcalls.1 hopen.1⟩
    split
    · have hinv := h.create (s.role.key cnx, cb.streamId)
      set t := s.create (s.role.key cnx, cb.streamId) with ht
      obtain ⟨hp', hr'⟩ := hinv.facts hphase
      have hone : t.holders t.made = 1 := create_holders_made h _
      constructor
      case inv =>
        refine .of_running hinv.balanced { hp' with }
          (hr'.setCnx cnx _ rfl rfl fun streamId _ hne hnew => ?_)
        have hst : streamId = cb.streamId := by
          by_contra hst
          exact hnew (Function.update_of_ne hst ..)
        subst hst
        rw [show ((s.cnxs cnx).attach cb.streamId t.made).attached cb.streamId = t.made from
          Function.update_self ..]
        exact ⟨Function.update_self .., Finset.mem_insert_self ..⟩
      case phase => exact hphase
      case live => rfl
      case closing => simp [ScCnx.attach]
      case usable =>
        intro _
        refine ⟨hlive, ?_, ?_⟩
        · simpa [ScCnx.attach] using hu.2.1
        · simpa [ScCnx.attach] using hu.2.2
      case attached => simp [ScCnx.attach]
      case takes =>
        intro _
        show 0 < t.holders t.made + 0 ∧ t.holders t.made + 0 + 1 < word
        rw [hone]
        decide
    · have hlife : (s.cnxs cnx).attached cb.streamId ≠ 0 →
          (s.cnxs cnx).attached cb.streamId ∈ s.lifetime := fun hne => (hr.attached cnx _ hu hne).2
      refine ⟨h, hphase, rfl, rfl, fun _ => hu, fun _ => rfl, fun hne => ?_⟩
      have hpos := ScHolders.holders_pos_of_lifetime (hlife hne)
      exact takes_of_room hroom (h.balanced.exists_of_held hpos).2 hpos
  · exact ⟨h, hphase, rfl, rfl, fun hne => absurd rfl hne, fun hne => absurd rfl hne,
      fun hne => absurd rfl hne⟩

/-- Nothing of a connection that closes is usable. -/
theorem not_usable_of_closing (hr : s.toScHolders.Running) (hlive : cnx ∈ s.live)
    (hclosing : (s.cnxs cnx).closing = true) (streamId : ℕ) :
    ¬ s.Usable (s.role.key cnx) streamId := by
  rintro ⟨a, ⟨ha, hopen, -⟩, hkey⟩
  obtain rfl := hr.inj a ha cnx hlive hkey
  simp [hclosing] at hopen

theorem not_usable_of_released (hr : s.toScHolders.Running) (hlive : cnx ∈ s.live) {streamId : ℕ}
    (hreleased : (s.cnxs cnx).released streamId = true) : ¬ s.Usable (s.role.key cnx) streamId := by
  rintro ⟨a, ⟨ha, -, hopen⟩, hkey⟩
  obtain rfl := hr.inj a ha cnx hlive hkey
  simp [hreleased] at hopen

theorem Inv.retire (h : s.Inv) (hphase : s.phase = .running) (cnx streamId : ℕ) :
    (s.retire cnx streamId).Inv := by
  obtain ⟨hp, hr⟩ := h.facts hphase
  -- of the stream's connection the stream alone is no longer usable
  have hother : ∀ a i, (s.retire cnx streamId).UsableAt a i → s.UsableAt a i ∧
    (a = cnx → i ≠ streamId) := by
    rintro a i ⟨ha, hc, hrel⟩
    simp only [ScRefs.retire, ScCnx.attach] at ha hc hrel
    by_cases hac : a = cnx
    · subst hac
      rw [Function.update_self] at hc hrel
      by_cases hi : i = streamId
      · subst hi
        simp at hrel
      · exact ⟨⟨ha, hc, by simpa [Function.update_of_ne hi] using hrel⟩, fun _ => hi⟩
    · rw [Function.update_of_ne hac] at hc hrel
      exact ⟨⟨ha, hc, hrel⟩, fun heq => absurd heq hac⟩
  refine .of_running h.balanced { hp with } (hr.narrow s.live _ (List.Subset.refl _)
    (fun a i hu => (hother a i hu).1) fun a i hu => ?_)
  obtain ⟨-, hne⟩ := hother a i hu
  by_cases hac : a = cnx
  · subst hac
    simp [ScCnx.attach, Function.update_of_ne (hne rfl)]
  · simp [Function.update_of_ne hac]

/-- An event is queued, with a reference to its context. -/
theorem Inv.rxPush (h : s.Inv) (hphase : s.phase = .running) {ev : RawEvent}
    (htakes : ∀ sc ∈ ev.ref, s.Takes [] sc)
    (hqueue : ev.Carries → ev.cnxPtr ≠ 0 ∧ s.home ev.streamCtxPtr =
    (s.role.key ev.cnxPtr, ev.streamId) ∧
      ev.streamCtxPtr ∈ s.lifetime)
    (hclosed : ev.isClose → ∀ streamId, ¬ s.Usable (s.role.key ev.cnxPtr) streamId)
    (hdestroyed : ev.Carries → ev.evtType = .streamDestroy →
      ¬ s.Usable (s.role.key ev.cnxPtr) ev.streamId)
    (hbefore : ∀ e ∈ s.events ++ s.rx, ScHolders.Precedes s.role e ev) : (s.rxPush ev).Inv := by
  obtain ⟨hp, hr⟩ := h.facts hphase
  refine ⟨(h.flight.rxPush htakes).balanced, ?_, ?_⟩
  · rw [rxPush_holders]
    exact fun _ => { hp with }
  · rw [rxPush_holders]
    exact fun _ => hr.setRx ev hqueue hclosed hdestroyed hbefore

/-- The held resets of a connection are forgotten. -/
theorem Inv.dropDeferred (h : s.Inv) (hphase : s.phase = .running) (cnx : ℕ) :
    (s.dropDeferred cnx).Inv := by
  obtain ⟨hp, hr⟩ := h.facts hphase
  refine .of_running ?_ { hp with } (hr.setDeferred _ fun e he => .inl (List.mem_of_mem_filter he))
  apply h.balanced.dropAll
  intro y
  have hsplit := count_filter_map s.deferred (fun e => decide (e.cnx = cnx)) y
  simp only [← decide_not] at hsplit
  show s.holders y =
    ScHolders.holders { s.toScHolders with deferred := s.deferred.filter (·.cnx ≠ cnx) } y + _
  simp only [ScHolders.holders, ne_eq]
  omega

/-- The context of an event is the one that the callback works on. -/
theorem Ready.takes_ref {t : ScRefs} (h : Ready s t cnx cb sc) {ev : RawEvent}
    (hnames : ev.streamCtxPtr = 0 ∨ ev.streamCtxPtr = sc ∧ ev.streamId = cb.streamId) :
    ∀ x ∈ ev.ref, t.Takes [] x := by
  intro x hx
  simp only [RawEvent.ref, Option.mem_def, Option.ite_none_right_eq_some, Option.some.injEq] at hx
  obtain ⟨⟨hne, -⟩, rfl⟩ := hx
  obtain ⟨hsc, -⟩ := hnames.resolve_left hne
  rw [hsc] at hne ⊢
  exact h.takes hne

/-- A callback queues its event; picoquic lets go of a released stream's context then. -/
theorem Inv.notify {t u : ScRefs} (h : Ready s t cnx cb sc) (hlive : cnx ∈ s.live)
    (hcl : cb.closes → (s.cnxs cnx).closing = true)
    (hu : u = if cb.event = .streamReleased then t.retire cnx cb.streamId else t) :
    (u.notify cnx { cb with closing := (s.cnxs cnx).closing, streamCtx := sc }).Inv := by
  obtain ⟨hp, hr⟩ := h.inv.facts h.phase
  have hlive' : cnx ∈ t.live := h.live.symm ▸ hlive
  have hinv : u.Inv := by
    rw [hu]
    split
    · exact h.inv.retire h.phase cnx cb.streamId
    · exact h.inv
  -- a release changes nothing that the facts about the event speak of
  have hsame : ∃ cnxs, u.toScHolders = { t.toScHolders with cnxs := cnxs } ∧
      (cnxs cnx).closing = (t.cnxs cnx).closing ∧
      (cb.event = .streamReleased → (cnxs cnx).released cb.streamId = true) := by
    rw [hu]
    split
    · exact ⟨_, rfl, by simp [ScCnx.attach]⟩
    · rename_i hne
      exact ⟨t.cnxs, rfl, rfl, fun h => absurd h hne⟩
  obtain ⟨cnxs, hsame, hclosing, hreleased⟩ := hsame
  have hrunning := (hinv.facts (by rw [hsame]; exact h.phase)).2
  unfold ScRefs.notify
  split
  · exact hinv
  rename_i ev hev
  have hcnx := streamCb_cnx hev
  have hnames := streamCb_names hev
  -- what the event carries was attached to a usable stream
  have hcarried : ev.Carries → ev.streamId = cb.streamId ∧ t.UsableAt cnx cb.streamId ∧
      t.home ev.streamCtxPtr = (t.role.key cnx, ev.streamId) ∧ ev.streamCtxPtr ∈ t.lifetime := by
    rintro ⟨hne, -⟩
    obtain ⟨hsc, hst⟩ := hnames.resolve_left hne
    simp only at hsc hst
    rw [hsc] at hne ⊢
    have hat := hr.attached cnx cb.streamId (h.usable hne)
    rw [h.attached hne] at hat
    rw [hst]
    exact ⟨rfl, h.usable hne, hat hne⟩
  apply hinv.rxPush
  case hphase =>
    rw [hsame]
    exact h.phase
  case htakes =>
    intro x hx
    rw [Takes, hsame]
    exact h.takes_ref hnames x hx
  case hqueue =>
    intro hc
    obtain ⟨-, -, hhome, hlife⟩ := hcarried hc
    rw [hsame, hcnx]
    exact ⟨hr.pos cnx hlive', hhome, hlife⟩
  case hclosed =>
    intro hclose streamId
    rw [streamCb_isClose hev] at hclose
    rw [hcnx]
    apply not_usable_of_closing hrunning
    · rw [hsame]
      exact hlive'
    · rw [hsame]
      exact hclosing.trans (h.closing.trans (hcl hclose))
  case hdestroyed =>
    intro hc hd
    rw [hcnx, (hcarried hc).1]
    apply not_usable_of_released hrunning
    · rw [hsame]
      exact hlive'
    · rw [hsame]
      have hrel := streamCb_destroy hev hd
      exact hreleased hrel
  case hbefore =>
    rw [hsame]
    intro e he
    by_cases hc : ev.Carries
    · obtain ⟨hst, hu, hhome, -⟩ := hcarried hc
      refine hr.precedes ?_ ?_ e he
      · rw [hcnx, hst]
        exact hu
      · rw [hcnx]
        exact hhome
    · exact ⟨fun _ _ => hc, fun _ hc' => absurd hc' hc⟩

theorem retire_notify (t : ScRefs) (cb' : Callback) (streamId : ℕ) :
    (t.notify cnx cb').retire cnx streamId = (t.retire cnx streamId).notify cnx cb' := by
  unfold ScRefs.notify
  split
  · rfl
  · rename_i ev _
    simp only [ScRefs.rxPush]
    cases ev.ref <;> rfl

theorem notify_phase (t : ScRefs) (cb' : Callback) : (t.notify cnx cb').phase = t.phase := by
  unfold ScRefs.notify
  split
  · rfl
  · rw [rxPush_holders]

theorem Ready.touch {t : ScRefs} (h : Ready s t cnx cb sc) :
    Ready s (t.touch (if sc = 0 then none else some sc)) cnx cb sc := by
  have hinv : (t.touch (if sc = 0 then none else some sc)).Inv := by
    apply h.inv.touch
    intro x hx
    split at hx
    · exact nomatch hx
    · rename_i hne
      obtain rfl := Option.some.inj hx
      simpa using (h.takes hne).1
  exact
    { h with
      inv := hinv
      phase := by
        rw [touch_holders]
        exact h.phase
      live := by
        rw [touch_holders]
        exact h.live
      closing := by
        rw [touch_holders]
        exact h.closing
      usable := by
        rw [touch_holders]
        exact h.usable
      attached := by
        rw [touch_holders]
        exact h.attached
      takes := by
        unfold Takes
        rw [touch_holders]
        exact h.takes }

/-- `aiopquic_stream_cb`. -/
theorem Inv.callback (h : s.Inv) (hroom : s.Room) (hs : s.callback cnx cb = some s') : s'.Inv := by
  simp only [ScRefs.callback, Option.ite_none_right_eq_some, Option.some.injEq] at hs
  obtain ⟨⟨hphase, hlive, hcalls⟩, hs⟩ := hs
  have hready := (h.callbackCtx hroom hphase hlive hcalls).touch
  have hnotified := Inv.notify hready hlive hcalls.2.2 rfl
  generalize (s.callbackCtx cnx cb).1.touch _ = t at hs hready hnotified
  generalize ({ cb with closing := _, streamCtx := _ } : Callback) = cb' at hs hnotified
  have hdone : ∃ u : ScRefs, u.Inv ∧ u.phase = .running ∧
      (if cb.closes ∨ cb.event = .statelessReset then u.dropDeferred cnx else u) = s' := by
    refine ⟨_, ?_, ?_, hs⟩
    · by_cases hrel : cb.event = .streamReleased
      · rw [if_pos hrel] at hnotified ⊢
        rw [retire_notify]
        exact hnotified
      · rwa [if_neg hrel] at hnotified ⊢
    · split
      · exact (notify_phase t cb').trans hready.phase
      · exact (notify_phase t cb').trans hready.phase
  obtain ⟨u, hu, hphase', rfl⟩ := hdone
  split
  · exact hu.dropDeferred hphase' cnx
  · exact hu

/-! ## Commands -/

variable {v : CnxView} {accepts : Bool} {e : Entry}

/-- Calls hand over a context that is fit for its stream. -/
theorem Midway.calls (h : s.Midway l) {cs : List Call}
    (hgives : ∀ streamId sc, Gives cs streamId sc → streamId = e.streamId ∧ sc = e.streamCtx ∧
    s.Fits e) :
    (s.calls accepts e.cnx cs).Midway l := by
  obtain ⟨hclosing, hreleased⟩ := (s.cnxs e.cnx).foldl_call_keeps accepts cs
  refine ⟨h.flight, h.phase, { h.python with }, h.running.setCnx e.cnx _ hclosing hreleased ?_⟩
  intro streamId hu hne hnew
  rcases (s.cnxs e.cnx).foldl_call_attached accepts cs streamId with hold | hnone | hgive
  · exact absurd hold hnew
  · exact absurd hnone hne
  · obtain ⟨rfl, hsc, hfits⟩ := hgives streamId _ hgive
    rw [hsc]
    exact ⟨hfits.1, hfits.2 hu⟩

theorem calls_usableAt (s : ScRefs) (cs : List Call) (cnx a streamId : ℕ) :
    (s.calls accepts cnx cs).UsableAt a streamId ↔ s.UsableAt a streamId := by
  obtain ⟨hclosing, hreleased⟩ := (s.cnxs cnx).foldl_call_keeps accepts cs
  by_cases ha : a = cnx
  · subst ha
    simp [ScHolders.UsableAt, ScRefs.calls, hclosing, hreleased]
  · simp [ScHolders.UsableAt, ScRefs.calls, Function.update_of_ne ha]

/-- A reset is held back, with a reference of its own. -/
theorem Midway.hold (h : s.Midway l) (hfits : s.Fits e) (htakes : s.Takes l e.streamCtx) :
    Midway { s.take (some e.streamCtx) with deferred := s.deferred ++ [e] } l := by
  refine ⟨?_, h.phase, { h.python with }, h.running.setDeferred _ ?_⟩
  · refine (h.flight.take htakes).move rfl rfl fun y => ?_
    show ScHolders.holders { s.toScHolders with deferred := s.deferred ++ [e] } y + _ =
      s.holders y + _
    simp only [ScHolders.holders, List.map_append, List.count_append, List.map_cons, List.map_nil,
      List.count_cons, List.count_nil]
    omega
  · intro f hf
    rcases List.mem_append.1 hf with hf | hf
    · exact .inl hf
    · rw [List.mem_singleton.1 hf]
      exact .inr hfits

/-- The worker handles a command, whose reference is in flight. -/
theorem Midway.handle (h : s.Midway l) (hfits : e.Attaches → s.Fits e)
    (htakes : ∀ sc ∈ e.ref, s.Takes l sc) : (s.handle v accepts e).Midway l := by
  simp only [ScRefs.handle]
  split
  · generalize hv : ({ v with closing := _ } : CnxView) = v'
    have htouch := h.touch
      (r := if e.eventType = .txStreamReset ∨ e.eventType = .txOpenFlowControl then e.ref
        else none) <| by
        intro sc hsc
        split at hsc
        · exact (htakes sc hsc).1
        · exact nomatch hsc
    generalize hr : (if e.eventType = .txStreamReset ∨ e.eventType = .txOpenFlowControl then e.ref
      else none) = r
      at htouch ⊢
    have hcalls : ((s.touch r).calls accepts e.cnx (loopCalls v' e)).Midway l := by
      apply htouch.calls
      intro streamId sc hgives
      obtain ⟨hst, hsc, ha⟩ := loopCalls_gives hgives
      rw [touch_holders]
      exact ⟨hst, hsc, hfits ha⟩
    split
    · rename_i hdef
      have ha : e.Attaches := ⟨hdef.2.1, .inl hdef.1⟩
      apply hcalls.hold
      · refine ⟨?_, fun hu => ?_⟩
        · show (s.touch r).home e.streamCtx = ((s.touch r).role.key e.cnx, e.streamId)
          rw [touch_holders]
          exact (hfits ha).1
        · show e.streamCtx ∈ (s.touch r).lifetime
          rw [calls_usableAt, touch_holders] at hu
          rw [touch_holders]
          exact (hfits ha).2 hu
      · show 0 < (s.touch r).holders e.streamCtx + _ ∧ (s.touch r).holders e.streamCtx +
          _ + 1 < word
        rw [touch_holders]
        exact htakes _ (ScHolders.ref_of_attaches ha)
    · exact hcalls
  · exact h

/-- A reference that is in flight leaves room for another. -/
theorem Flight.takes (hroom : s.Room) (h : s'.Flight (sc :: l)) (hmade : s'.made = s.made)
    (hheld : ∀ y, s'.holders y + (sc :: l).count y = s.holders y) : s'.Takes (sc :: l) sc := by
  have hpos : 0 < (sc :: l).count sc := List.count_pos_iff.2 List.mem_cons_self
  have hle : sc ≤ s'.made := h.le_made (by omega)
  have := hroom sc (hmade ▸ hle)
  have := hheld sc
  exact ⟨by omega, by omega⟩

/-- The worker pops one command. -/
theorem Inv.pop (h : s.Inv) (hroom : s.Room) (hs : s.pop v accepts = some s') : s'.Inv := by
  unfold ScRefs.pop at hs
  split at hs
  · exact nomatch hs
  rename_i e tx htx
  simp only [Option.ite_none_right_eq_some, Option.some.injEq] at hs
  obtain ⟨hphase, rfl⟩ := hs
  have hm := h.midway hphase
  have hheld : ∀ y, ScHolders.holders { s.toScHolders with tx := tx } y + e.ref.toList.count y =
    s.holders y := by
    intro y
    simp only [ScHolders.holders, htx, List.filterMap_cons]
    cases e.ref with
    | none => simp
    | some sc =>
      simp only [Option.toList_some, List.count_cons, List.count_nil]
      omega
  have hpopped : Midway { s with tx := tx } e.ref.toList := by
    refine ⟨hm.flight.move rfl rfl fun y => ?_, hphase, { hm.python with }, hm.running.setTx tx ?_⟩
    · simpa using hheld y
    · intro f hf _
      rw [htx]
      exact .inl (List.mem_cons_of_mem _ hf)
  have hhandled : (ScRefs.handle { s with tx := tx } v accepts e).Midway e.ref.toList := by
    apply hpopped.handle
    · intro ha
      apply hm.running.tx e _ ha
      rw [htx]
      exact List.mem_cons_self
    · intro sc hsc
      rw [Option.mem_def] at hsc
      rw [hsc] at hpopped hheld ⊢
      exact hpopped.flight.takes hroom rfl hheld
  apply Midway.inv
  apply Midway.dropRef
  rw [List.append_nil]
  exact hhandled

/-- The worker sends a held reset, or forgets it. -/
theorem Inv.afterSend {k : ℕ} (h : s.Inv) (hs : s.afterSend k v accepts = some s') : s'.Inv := by
  unfold ScRefs.afterSend at hs
  split at hs
  · exact nomatch hs
  rename_i e he
  simp only [Option.ite_none_right_eq_some, Option.some.injEq] at hs
  obtain ⟨hphase, rfl⟩ := hs
  have hm := h.midway hphase
  have hmem : e ∈ s.deferred := List.mem_of_getElem? he
  have htouch : (s.touch (some e.streamCtx)).Midway [] := by
    apply hm.touch
    rintro sc hsc
    obtain rfl := Option.some.inj hsc
    have := ScHolders.holders_pos_of_deferred hmem
    omega
  have herased : Midway { s.touch (some e.streamCtx) with deferred := s.deferred.eraseIdx k }
    [e.streamCtx] := by
    refine ⟨htouch.flight.move rfl rfl fun y => ?_, hphase, { hm.python with }, ?_⟩
    · show ScHolders.holders { s.toScHolders with deferred := s.deferred.eraseIdx k } y + _ =
        s.holders y + _
      simp only [ScHolders.holders, count_eraseIdx (·.streamCtx) he y, List.count_nil]
      omega
    · exact hm.running.setDeferred _ fun f hf => .inl (List.mem_of_mem_eraseIdx hf)
  apply Midway.inv
  apply Midway.drop
  split
  · apply herased.calls
    intro streamId sc hgives
    obtain ⟨hst, hsc, -⟩ := resetCalls_gives hgives
    exact ⟨hst, hsc, hm.running.deferred e hmem⟩
  · exact herased

/-! ## picoquic's own list -/

theorem Inv.connect (h : s.Inv) (hphase : s.phase = .running) (hpos : cnx ≠ 0)
    (hsingle : s.role = .client → s.live = []) (hforgot : s.Forgotten cnx) :
    Inv { s with live := cnx :: s.live, cnxs := Function.update s.cnxs cnx {} } := by
  obtain ⟨hp, hr⟩ := h.facts hphase
  exact .of_running h.balanced { hp with }
    (hr.connect hpos hsingle hforgot.1 hforgot.2.1 hforgot.2.2)

theorem Inv.disconnect (h : s.Inv) (cnx : ℕ) :
    Inv { s with cnxs := Function.update s.cnxs cnx { s.cnxs cnx with closing := true } } := by
  refine ⟨h.balanced, fun hphase => { h.python hphase with }, fun hphase => ?_⟩
  have hother : ∀ a streamId, ScHolders.UsableAt { s.toScHolders with
      cnxs := Function.update s.cnxs cnx { s.cnxs cnx with closing := true } } a streamId →
        a ≠ cnx ∧ s.UsableAt a streamId := by
    rintro a streamId ⟨ha, hopen, hrel⟩
    have hac : a ≠ cnx := by
      rintro rfl
      simp at hopen
    simp only [Function.update_of_ne hac] at hopen hrel
    exact ⟨hac, ha, hopen, hrel⟩
  refine (h.running hphase).narrow s.live _ (List.Subset.refl _) (fun a i hu => (hother a i hu).2)
    ?_
  intro a i hu
  rw [Function.update_of_ne (hother a i hu).1]

theorem Inv.free (h : s.Inv) (cnx : ℕ) : Inv { s with live := s.live.filter (· ≠ cnx) } := by
  refine ⟨h.balanced, fun hphase => { h.python hphase with }, fun hphase => ?_⟩
  refine (h.running hphase).narrow _ s.cnxs (List.filter_subset_self s.live) ?_ fun _ _ _ => rfl
  rintro a i ⟨ha, hu⟩
  exact ⟨List.mem_of_mem_filter ha, hu⟩

end ScRefs

end Aiopquic
