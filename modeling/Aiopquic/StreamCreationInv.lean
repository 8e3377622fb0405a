import Aiopquic.StreamCreation

/-!
# What the calls of `create_stream` keep

`Inv` relates the requests, the replies and the retirements of a session, and each step of the model
keeps it.
-/

namespace Aiopquic

open WebTransportSession (Calm Shuts retirement)

/-- The call is past its submission. -/
def CreateCall.past : CreateCall → Bool
  | .waiting _ | .returned _ | .raised => true
  | _ => false

namespace StreamCreation

variable {s t : StreamCreation} {c sid : ℕ} {r : CreatedReply}

/-- The ids that replies tell, those of no stream left out. -/
def told (s : StreamCreation) : List ℕ :=
  ((s.resolved.map Prod.snd ++ s.replies).map CreatedReply.sid).filter (· ≠ 0)

/-- What becomes of a stream once its reply is handled. -/
def Resolved (s : StreamCreation) (p : Option ℕ × CreatedReply) : Prop :=
  (∃ c, p.1 = some c ∧ s.Holds c p.2.sid ∧ s.Untouched p.2.sid) ∨
  ((∀ c, ¬ s.Holds c p.2.sid) ∧
    ∀ stop, s.commands.count (p.2.sid, stop) = (retirement p.2.sid).count (p.2.sid, stop)) ∨
  s.session.sessionClosed = true ∧
    ∀ stop, s.commands.count (p.2.sid, stop) ≤ (retirement p.2.sid).count (p.2.sid, stop)

structure Inv (s : StreamCreation) : Prop where
  requests : (s.submitted.map Prod.fst).Nodup
  past : ∀ q ∈ s.submitted, (s.calls q.1).past = true
  waits : ∀ q ∈ s.submitted, s.session.futures q.1 = .pending → ∃ i, s.calls q.1 = .waiting i
  returned : ∀ c sid, s.calls c = .returned sid → s.session.futures c = .result sid ∧ sid ≠ 0
  result : ∀ c v, s.session.futures c = .result v → ∃ r, (some c, r) ∈ s.resolved ∧ v = r.value
  done : ∀ c r, (some c, r) ∈ s.resolved → s.session.futures c ≠ .pending
  resolved : ∀ (i : ℕ) (p : Option ℕ × CreatedReply), s.resolved[i]? = some p →
    ∃ q : ℕ × Bool, s.submitted[i]? = some q ∧ p.1 = some q.1 ∧
      (p.2.sid ≠ 0 → (p.2.sid, q.2) ∈ s.made)
  /-- While the session is open the futures, the replies and the commands line up with the
  requests. -/
  pending : s.session.sessionClosed = false →
    s.session.pendingCreates = (s.submitted.drop s.resolved.length).map Prod.fst
  creates : s.session.sessionClosed = false → s.session.tx.filter SessionCommand.isCreate =
    (s.submitted.drop (s.resolved.length + s.replies.length)).map fun q => .createStream q.2
  le : s.session.sessionClosed = false → s.resolved.length + s.replies.length ≤ s.submitted.length
  replies : s.session.sessionClosed = false → ∀ (i : ℕ) (r : CreatedReply), s.replies[i]? = some r →
    ∃ q : ℕ × Bool, s.submitted[s.resolved.length + i]? = some q ∧
      (r.sid ≠ 0 → (r.sid, q.2) ∈ s.made)
  made : (s.made.map Prod.fst).Nodup
  bits : ∀ q ∈ s.made, q.1 ≠ 0 ∧ q.2 = decide (q.1 &&& 2 = 0)
  told : s.told.Nodup
  source : ∀ sid ∈ s.told, sid ∈ s.made.map Prod.fst
  fresh : ∀ sid, sid ∉ s.resolved.map (fun p => p.2.sid) → s.Untouched sid
  fate : ∀ p ∈ s.resolved, p.2.sid ≠ 0 → s.Resolved p
  all : s.session.sessionClosed = false → ∀ q ∈ s.made, q.1 ∈ s.told
  queued : s.session.orphanCleanupTask = false → s.session.orphanStreamCommands = []
  closed : s.session.sessionClosed = true → s.session.pendingCreates = [] ∧
    (∀ sid, s.session.streamTxCtxs sid = 0) ∧ s.session.orphanStreamCommands = [] ∧
    .sessionCleanup ∈ s.session.asked
  retries : ∀ d ∈ s.session.retries, d.isCreate = false

theorem holds_setCall {c' : ℕ} {x : CreateCall} :
    (s.setCall c x).Holds c' sid ↔ s.session.futures c' = .result sid ∧
      (if c' = c then x = .returned sid ∨ ∃ i, x = .waiting i else s.calls c' = .returned sid ∨
        ∃ i, s.calls c' = .waiting i) := by
  rw [Holds]
  apply and_congr_right
  intro _
  simp only [setCall, Function.update_apply]
  split <;> rfl

section setCall

variable {x : CreateCall}

theorem calls_setCall (c' : ℕ) : (s.setCall c x).calls c' = if c' = c then x else s.calls c' :=
  Function.update_apply ..

/-- Only a call that was not submitted, or whose future is done, moves on. -/
theorem Inv.past_setCall (h : Inv s) (hpast : (∀ q ∈ s.submitted, q.1 ≠ c) ∨ x.past = true) :
    ∀ q ∈ s.submitted, ((s.setCall c x).calls q.1).past = true := by
  intro q hq
  rw [calls_setCall]
  split
  · rename_i hqc
    rcases hpast with hne | hx
    · exact absurd hqc (hne q hq)
    · exact hx
  · exact h.past q hq

theorem Inv.waits_setCall (h : Inv s)
    (hpast : (∀ q ∈ s.submitted, q.1 ≠ c) ∨ s.session.futures c ≠ .pending) :
    ∀ q ∈ s.submitted, s.session.futures q.1 = .pending →
      ∃ i, (s.setCall c x).calls q.1 = .waiting i := by
  intro q hq hf
  rw [calls_setCall]
  split
  · rename_i hqc
    rcases hpast with hne | hx
    · exact absurd hqc (hne q hq)
    · exact absurd (hqc ▸ hf) hx
  · exact h.waits q hq hf

theorem Inv.returned_setCall (h : Inv s)
    (hret : ∀ sid, x = .returned sid → s.session.futures c = .result sid ∧ sid ≠ 0) :
    ∀ c' sid, (s.setCall c x).calls c' = .returned sid →
      s.session.futures c' = .result sid ∧ sid ≠ 0 := by
  intro c' sid hc'
  rw [calls_setCall] at hc'
  split at hc'
  · rename_i hcc
    rw [hcc]
    exact hret sid hc'
  · exact h.returned c' sid hc'

/-- A call moves on, and keeps or gets a stream only if it was waiting. Of an open session it gives
up none. -/
theorem Inv.setCall (h : Inv s)
    (hpast : (∀ q ∈ s.submitted, q.1 ≠ c) ∨ x.past = true ∧ s.session.futures c ≠ .pending)
    (hret : ∀ sid, x = .returned sid → s.session.futures c = .result sid ∧ sid ≠ 0)
    (hgets : ∀ sid, (x = .returned sid ∨ ∃ i, x = .waiting i) → ∃ i, s.calls c = .waiting i)
    (hholds : ∀ sid, sid ≠ 0 → s.Holds c sid →
      (x = .returned sid ∨ ∃ i, x = .waiting i) ∨ s.session.sessionClosed = true) :
      Inv (s.setCall c x) := by
  refine { h with
    past := h.past_setCall (hpast.imp_right And.left)
    waits := h.waits_setCall (hpast.imp_right And.right)
    returned := h.returned_setCall hret
    fate := ?_ }
  intro p hp hsid
  rcases h.fate p hp hsid with ⟨c', hpc, hhold, hun⟩ | ⟨hnone, hexact⟩ | hleft
  · by_cases hcc : c' = c
    · subst hcc
      rcases hholds _ hsid hhold with hx | hcl
      · refine Or.inl ⟨c', hpc, holds_setCall.2 ⟨hhold.1, ?_⟩, hun⟩
        rw [if_pos rfl]
        exact hx
      · exact Or.inr (Or.inr ⟨hcl, fun stop => (hun stop).trans_le (Nat.zero_le _)⟩)
    · refine Or.inl ⟨c', hpc, holds_setCall.2 ⟨hhold.1, ?_⟩, hun⟩
      rw [if_neg hcc]
      exact hhold.2
  · refine Or.inr (Or.inl ⟨fun c' hhold => ?_, hexact⟩)
    obtain ⟨hf, hc'⟩ := holds_setCall.1 hhold
    split at hc'
    · rename_i hcc
      subst hcc
      exact hnone c' ⟨hf, Or.inr (hgets _ hc')⟩
    · exact hnone c' ⟨hf, hc'⟩
  · exact Or.inr (Or.inr hleft)

end setCall

/-- Futures that were pending are done without a result. -/
theorem Inv.failFutures {f : ℕ → Future} (h : Inv s)
    (hf : ∀ c, f c = s.session.futures c ∨ s.session.futures c = .pending ∧
    (f c = .exception ∨ f c = .cancelled)) :
    Inv { s with session := { s.session with futures := f } } := by
  have hresult : ∀ c v, f c = .result v ↔ s.session.futures c = .result v := by
    intro c v
    rcases hf c with hc | ⟨hc, hc' | hc'⟩
    · rw [hc]
    · simp [hc, hc']
    · simp [hc, hc']
  have hpending : ∀ c, f c = .pending → s.session.futures c = .pending := by
    intro c hc
    rcases hf c with hc' | ⟨hc', _⟩
    · rw [← hc', hc]
    · exact hc'
  refine { h with waits := ?_, returned := ?_, result := ?_, done := ?_, fate := ?_ }
  · exact fun q hq hp => h.waits q hq (hpending q.1 hp)
  · exact fun c sid hc => ⟨(hresult c sid).2 (h.returned c sid hc).1, (h.returned c sid hc).2⟩
  · exact fun c v hv => h.result c v ((hresult c v).1 hv)
  · exact fun c r hr hp => h.done c r hr (hpending c hp)
  · intro p hp hsid
    rcases h.fate p hp hsid with ⟨c, hpc, hhold, hun⟩ | ⟨hnone, hexact⟩ | hleft
    · exact Or.inl ⟨c, hpc, ⟨(hresult c _).2 hhold.1, hhold.2⟩, hun⟩
    · exact Or.inr (Or.inl ⟨fun c hhold => hnone c ⟨(hresult c _).1 hhold.1, hhold.2⟩, hexact⟩)
    · exact Or.inr (Or.inr hleft)

/-- The push and the append of a new call. -/
theorem Inv.submit {bidir : Bool} (h : Inv s) (hopen : s.session.sessionClosed = false)
    (hc : (s.calls c).past = false) : Inv (s.submit c bidir) := by
  have hnew : ∀ q ∈ s.submitted, q.1 ≠ c := by
    intro q hq hqc
    have hpast := h.past q hq
    rw [hqc, hc] at hpast
    exact (nomatch hpast)
  have hcalls : ∀ c', (s.submit c bidir).calls c' = if c' = c then .waiting false else s.calls c' :=
    fun c' => Function.update_apply ..
  have hfutures : ∀ c', (s.submit c bidir).session.futures c' = if c' = c then .pending
    else s.session.futures c' :=
    fun c' => Function.update_apply ..
  -- Whoever has a reply submitted its command before.
  have hresolved : ∀ c' r, (some c', r) ∈ s.resolved → c' ≠ c := by
    intro c' r hr
    obtain ⟨i, hi⟩ := List.mem_iff_getElem?.1 hr
    obtain ⟨q, hq, hqc, _⟩ := h.resolved i _ hi
    rw [Option.some.inj hqc]
    exact hnew q (List.mem_of_getElem? hq)
  have hget : ∀ (i : ℕ) (q : ℕ × Bool), s.submitted[i]? = some q →
    (s.submitted ++ [(c, bidir)])[i]? = some q := by
    intro i q hq
    rw [List.getElem?_append_left (List.getElem?_eq_some_iff.1 hq).1]
    exact hq
  have hle := h.le hopen
  constructor
  · show ((s.submitted ++ [(c, bidir)]).map Prod.fst).Nodup
    rw [List.map_append, List.nodup_append]
    refine ⟨h.requests, List.nodup_singleton _, ?_⟩
    intro x hx y hy hxy
    obtain ⟨q, hq, rfl⟩ := List.mem_map.1 hx
    exact hnew q hq (hxy.trans (by simpa using hy))
  · intro q hq
    rw [hcalls]
    rcases List.mem_append.1 hq with hq | hq
    · rw [if_neg (hnew q hq)]
      exact h.past q hq
    · rw [List.mem_singleton.1 hq, if_pos rfl]
      rfl
  · intro q hq hf
    rw [hcalls]
    rcases List.mem_append.1 hq with hq | hq
    · rw [hfutures, if_neg (hnew q hq)] at hf
      rw [if_neg (hnew q hq)]
      exact h.waits q hq hf
    · rw [List.mem_singleton.1 hq, if_pos rfl]
      exact ⟨false, rfl⟩
  · intro c' sid hc'
    rw [hcalls] at hc'
    split at hc'
    · exact (nomatch hc')
    · rename_i hne
      rw [hfutures, if_neg hne]
      exact h.returned c' sid hc'
  · intro c' v hv
    rw [hfutures] at hv
    split at hv
    · exact (nomatch hv)
    · exact h.result c' v hv
  · intro c' r hr
    rw [hfutures, if_neg (hresolved c' r hr)]
    exact h.done c' r hr
  · intro i p hp
    obtain ⟨q, hq, hrest⟩ := h.resolved i p hp
    exact ⟨q, hget i q hq, hrest⟩
  · intro _
    show s.session.pendingCreates ++ [c] =
      ((s.submitted ++ [(c, bidir)]).drop s.resolved.length).map Prod.fst
    rw [List.drop_append_of_le_length (by omega), h.pending hopen]
    simp
  · intro _
    show (s.session.tx ++ [SessionCommand.createStream bidir]).filter _ =
      ((s.submitted ++ [(c, bidir)]).drop (s.resolved.length + s.replies.length)).map _
    rw [List.drop_append_of_le_length hle, List.filter_append, h.creates hopen]
    simp [SessionCommand.isCreate]
  · intro _
    show _ ≤ (s.submitted ++ [(c, bidir)]).length
    rw [List.length_append]
    exact Nat.le_add_right_of_le hle
  · intro _ i r hr
    obtain ⟨q, hq, hrest⟩ := h.replies hopen i r hr
    exact ⟨q, hget _ q hq, hrest⟩
  · exact h.made
  · exact h.bits
  · exact h.told
  · exact h.source
  · exact h.fresh
  · intro p hp hsid
    rcases h.fate p hp hsid with ⟨c', hpc, hhold, hun⟩ | ⟨hnone, hexact⟩ | hleft
    · have hne : c' ≠ c := hresolved c' p.2 (by rw [← hpc]; exact hp)
      refine Or.inl ⟨c', hpc, ⟨?_, ?_⟩, hun⟩
      · rw [hfutures, if_neg hne]
        exact hhold.1
      · rw [hcalls, if_neg hne]
        exact hhold.2
    · refine Or.inr (Or.inl ⟨fun c' hhold => ?_, hexact⟩)
      obtain ⟨hf, hc'⟩ := hhold
      rw [hfutures] at hf
      split at hf
      · exact (nomatch hf)
      · rename_i hne
        rw [hcalls, if_neg hne] at hc'
        exact hnone c' ⟨hf, hc'⟩
    · exact Or.inr (Or.inr hleft)
  · exact h.all
  · exact h.queued
  · intro hcl
    exact (nomatch hopen.symm.trans hcl)
  · exact h.retries

/-! ## The end of the session and other events -/

variable {u : WebTransportSession}

theorem commands_eq_of_orphans (hu : u.orphanStreamCommands = s.session.orphanStreamCommands) :
    commands { s with session := u } = s.commands := by
  rw [commands, commands, hu]

theorem Inv.calm (h : Inv s) (hu : Calm s.session u) : Inv { s with session := u } := by
  have hcommands := commands_eq_of_orphans hu.orphanStreamCommands
  have hfutures := hu.futures
  have hclosed := hu.sessionClosed
  constructor
  · exact h.requests
  · exact h.past
  · show ∀ q ∈ s.submitted, u.futures q.1 = .pending → _
    rw [hfutures]
    exact h.waits
  · show ∀ c sid, s.calls c = .returned sid → u.futures c = .result sid ∧ sid ≠ 0
    rw [hfutures]
    exact h.returned
  · show ∀ c v, u.futures c = .result v → _
    rw [hfutures]
    exact h.result
  · show ∀ c r, (some c, r) ∈ s.resolved → u.futures c ≠ .pending
    rw [hfutures]
    exact h.done
  · exact h.resolved
  · show u.sessionClosed = false → u.pendingCreates = _
    rw [hclosed, hu.pendingCreates]
    exact h.pending
  · show u.sessionClosed = false → u.tx.filter _ = _
    rw [hclosed, hu.creates]
    exact h.creates
  · show u.sessionClosed = false → _
    rw [hclosed]
    exact h.le
  · show u.sessionClosed = false → _
    rw [hclosed]
    exact h.replies
  · exact h.made
  · exact h.bits
  · exact h.told
  · exact h.source
  · intro sid hsid stop
    rw [hcommands]
    exact h.fresh sid hsid stop
  · intro p hp hsid
    simp only [Resolved, Holds, Untouched, hcommands, hfutures, hclosed]
    exact h.fate p hp hsid
  · show u.sessionClosed = false → _
    rw [hclosed]
    exact h.all
  · show u.orphanCleanupTask = false → u.orphanStreamCommands = []
    rw [hu.orphanCleanupTask, hu.orphanStreamCommands]
    exact h.queued
  · intro hcl
    have hs : s.session.sessionClosed = true := hclosed.symm.trans hcl
    obtain ⟨hp, hctx, ho, ha⟩ := h.closed hs
    exact ⟨hu.pendingCreates.trans hp, fun sid => hu.streamTxCtxs hs sid (hctx sid),
      hu.orphanStreamCommands.trans ho, hu.asked _ ha⟩
  · intro d hd
    rcases hu.retries d hd with hd | hd
    · exact h.retries d hd
    · exact hd

/-- Commands may only go once the session is closed. -/
theorem count_commands_le (hu : u.orphanStreamCommands = []) (q : ℕ × Bool) :
    (commands { s with session := u }).count q ≤ s.commands.count q := by
  rw [commands, commands, hu, List.append_nil, List.count_append]
  exact Nat.le_add_right ..

theorem Inv.shuts (h : Inv s) (hu : Shuts s.session u) : Inv { s with session := u } := by
  have hopen : u.sessionClosed ≠ false := by
    rw [hu.sessionClosed]
    exact Bool.noConfusion
  have hcount := count_commands_le (s := s) hu.orphanStreamCommands
  have hf := h.failFutures (f := u.futures) fun c => by
    rcases hu.futures c with hc | ⟨hc, hc'⟩
    · exact Or.inl hc
    · exact Or.inr ⟨hc, Or.inl hc'⟩
  refine ⟨h.requests, h.past, hf.waits, hf.returned, hf.result, hf.done, h.resolved, fun ho =>
    absurd ho hopen,
    fun ho => absurd ho hopen, fun ho => absurd ho hopen, fun ho => absurd ho hopen, h.made, h.bits,
      h.told, h.source,
    ?_, ?_, fun ho => absurd ho hopen, fun _ => hu.orphanStreamCommands, ?_, ?_⟩
  · intro sid hsid stop
    exact Nat.le_zero.1 ((hcount _).trans_eq (h.fresh sid hsid stop))
  · intro p hp hsid
    rcases hf.fate p hp hsid with ⟨c, hpc, hhold, hun⟩ | ⟨_, hexact⟩ | ⟨_, hle⟩
    · exact Or.inl ⟨c, hpc, hhold, fun stop => Nat.le_zero.1 ((hcount _).trans_eq (hun stop))⟩
    · exact Or.inr (Or.inr ⟨hu.sessionClosed, fun stop => (hcount _).trans_eq (hexact stop)⟩)
    · exact Or.inr (Or.inr ⟨hu.sessionClosed, fun stop => (hcount _).trans (hle stop)⟩)
  · exact fun _ => ⟨hu.pendingCreates, hu.streamTxCtxs, hu.orphanStreamCommands, hu.asked⟩
  · intro d hd
    rcases hu.retries d hd with hd | hd
    · exact h.retries d hd
    · exact hd

/-! ## Retirement -/

theorem count_retirement_of_ne {sid' : ℕ} (h : sid' ≠ sid) (stop : Bool) :
    (retirement sid).count (sid', stop) = 0 := by
  apply List.count_eq_zero_of_not_mem
  intro hmem
  rcases List.mem_cons.1 hmem with heq | hmem
  · exact h (congrArg Prod.fst heq)
  · split at hmem
    · exact h (congrArg Prod.fst (List.mem_singleton.1 hmem))
    · exact absurd hmem List.not_mem_nil

theorem retireOrphanStream_of_open {v : WebTransportSession} (h : v.sessionClosed = false)
    (sid : ℕ) :
    v.retireOrphanStream sid = { v.dropStreamTx sid with
      orphanStreamCommands := v.orphanStreamCommands ++ retirement sid
      orphanCleanupTask := true } := by
  rw [WebTransportSession.retireOrphanStream]
  exact if_neg (by simp [WebTransportSession.dropStreamTx, h])

theorem count_commands_append {l : List (ℕ × Bool)}
    (hu : u.orphanStreamCommands = s.session.orphanStreamCommands ++ l) (q : ℕ × Bool) :
    (commands { s with session := u }).count q = s.commands.count q + l.count q := by
  rw [commands, commands, hu, ← List.append_assoc, List.count_append]

/-- Of two handled replies that tell of one stream, each is the other. -/
theorem Inv.resolved_inj (h : Inv s) {p p' : Option ℕ × CreatedReply} (hp : p ∈ s.resolved)
    (hp' : p' ∈ s.resolved)
    (hsid : p.2.sid ≠ 0) (heq : p.2.sid = p'.2.sid) : p = p' := by
  have hnodup : ((s.resolved.map fun p => p.2.sid).filter (· ≠ 0)).Nodup := by
    have htold := h.told
    rw [StreamCreation.told, List.map_append, List.filter_append, List.map_map] at htold
    exact (List.nodup_append.1 htold).1
  rw [List.filter_map] at hnodup
  exact List.inj_on_of_nodup_map hnodup (List.mem_filter.2 ⟨hp, by simpa using hsid⟩)
    (List.mem_filter.2 ⟨hp', by simpa using heq ▸ hsid⟩) heq

/-- A call's stream is one of a handled reply. -/
theorem Inv.resolved_of_result (h : Inv s) (hf : s.session.futures c = .result sid)
    (hsid : sid ≠ 0) :
    ∃ r, (some c, r) ∈ s.resolved ∧ r.sid = sid := by
  obtain ⟨r, hr, hv⟩ := h.result c sid hf
  refine ⟨r, hr, ?_⟩
  rw [CreatedReply.value] at hv
  split at hv
  · exact hv.symm
  · exact absurd hv hsid

/-- No two calls get one stream. -/
theorem Inv.result_inj {c' : ℕ} (h : Inv s) (hsid : sid ≠ 0)
    (hf : s.session.futures c = .result sid)
    (hf' : s.session.futures c' = .result sid) : c = c' := by
  obtain ⟨r, hr, hrs⟩ := h.resolved_of_result hf hsid
  obtain ⟨r', hr', hrs'⟩ := h.resolved_of_result hf' hsid
  have heq := h.resolved_inj hr hr' (by rw [hrs]; exact hsid) (hrs.trans hrs'.symm)
  exact Option.some.inj (congrArg Prod.fst heq)

/-- A cancelled call of an open session gives up its stream, which is retired. -/
theorem Inv.giveUp {i : Bool} (h : Inv s) (hopen : s.session.sessionClosed = false)
    (hc : s.calls c = .waiting i)
    (hf : s.session.futures c = .result sid) (hsid : sid ≠ 0) :
    Inv { s.setCall c .raised with session := s.session.retireOrphanStream sid } := by
  obtain ⟨r, hr, hrs⟩ := h.resolved_of_result hf hsid
  have hun : s.Untouched sid := by
    have hhold : s.Holds c sid := ⟨hf, Or.inr ⟨i, hc⟩⟩
    rcases h.fate _ hr (by rw [hrs]; exact hsid) with ⟨_, _, _, hun⟩ | ⟨hnone, _⟩ | ⟨hcl, _⟩
    · exact hrs ▸ hun
    · exact absurd (hrs ▸ hhold) (hnone c)
    · exact (nomatch hopen.symm.trans hcl)
  have hraised : CreateCall.raised.past = true ∧ s.session.futures c ≠ .pending :=
    ⟨rfl, by simp [hf]⟩
  have hpast := h.past_setCall (c := c) (Or.inr hraised.1)
  have hwaits := h.waits_setCall (c := c) (x := .raised) (Or.inr hraised.2)
  have hreturned := h.returned_setCall (c := c) (x := .raised) fun _ hx => (nomatch hx)
  rw [retireOrphanStream_of_open hopen]
  have hcount : ∀ q : ℕ × Bool,
    (commands { s.setCall c .raised with session := { s.session.dropStreamTx sid with
      orphanStreamCommands := s.session.orphanStreamCommands ++ retirement sid
      orphanCleanupTask := true } }).count q = s.commands.count q + (retirement sid).count q := by
    intro q
    exact count_commands_append (s := s.setCall c .raised) rfl q
  refine { h with past := hpast, waits := hwaits, returned := hreturned, fresh := ?_, fate := ?_, queued := ?_, closed := ?_ }
  · intro sid' hsid' stop
    have hne : sid' ≠ sid := by
      rintro rfl
      exact hsid' (List.mem_map.2 ⟨_, hr, hrs⟩)
    rw [hcount, count_retirement_of_ne hne, h.fresh sid' hsid' stop]
  · intro p hp hps
    by_cases heq : p.2.sid = sid
    · refine Or.inr (Or.inl ⟨fun c' hhold => ?_, fun stop => ?_⟩)
      · -- Its only call has raised.
        obtain ⟨hf', hc'⟩ := (holds_setCall (s := s) (x := .raised) (c := c)).1 hhold
        rw [heq] at hf'
        rw [if_pos (h.result_inj hsid hf' hf)] at hc'
        rcases hc' with hx | ⟨_, hx⟩
        · exact (nomatch hx)
        · exact (nomatch hx)
      · rw [hcount, heq, hun stop, Nat.zero_add]
    · have hsame : ∀ stop,
        (commands { s.setCall c .raised with session := { s.session.dropStreamTx sid with
          orphanStreamCommands := s.session.orphanStreamCommands ++ retirement sid
          orphanCleanupTask := true } }).count (p.2.sid, stop) = s.commands.count
            (p.2.sid, stop) := by
        intro stop
        rw [hcount, count_retirement_of_ne heq, Nat.add_zero]
      have hother : ∀ c', s.Holds c' p.2.sid → c' ≠ c := by
        rintro c' hhold rfl
        exact heq (Future.result.inj (hhold.1.symm.trans hf))
      have hiff : ∀ c', (s.setCall c .raised).Holds c' p.2.sid ↔ s.Holds c' p.2.sid := by
        intro c'
        rw [holds_setCall]
        constructor
        · rintro ⟨hf', hc'⟩
          split at hc'
          · rcases hc' with hx | ⟨_, hx⟩
            · exact (nomatch hx)
            · exact (nomatch hx)
          · exact ⟨hf', hc'⟩
        · intro hhold
          exact ⟨hhold.1, by rw [if_neg (hother c' hhold)]; exact hhold.2⟩
      have hfate := h.fate p hp hps
      simp only [Resolved, ← hiff] at hfate
      simp only [Resolved, Untouched, hsame]
      exact hfate
  · intro ht
    exact (nomatch ht)
  · intro hcl
    exact (nomatch hopen.symm.trans hcl)

/-- The task that retires streams queues some of its commands, or ends. -/
theorem Inv.retireOrphanStreams (h : Inv s) (n : ℕ) : Inv (s.retireOrphanStreams n) := by
  rw [StreamCreation.retireOrphanStreams]
  split
  · exact h
  · split
    · rename_i hcl
      have ho := (h.closed hcl).2.2.1
      have hcommands : commands { s with session := { s.session with
          orphanStreamCommands := [], orphanCleanupTask := false } } = s.commands := by
        rw [commands, commands, ho]
      refine { h with fresh := ?_, fate := ?_, queued := fun _ => rfl, closed := ?_ }
      · intro sid hsid stop
        rw [hcommands]
        exact h.fresh sid hsid stop
      · intro p hp hsid
        simp only [Resolved, Untouched, hcommands]
        exact h.fate p hp hsid
      · intro _
        obtain ⟨hp, hctx, _, ha⟩ := h.closed hcl
        exact ⟨hp, hctx, rfl, ha⟩
    · rename_i hcl
      have hopen : s.session.sessionClosed = false := Bool.eq_false_of_not_eq_true hcl
      have hcommands : (s.retired ++ s.session.orphanStreamCommands.take n) ++
        s.session.orphanStreamCommands.drop n =
          s.commands := by
        rw [List.append_assoc, List.take_append_drop, commands]
      have hcreates : ∀ l : List (ℕ × Bool), (l.map retireCommand).filter SessionCommand.isCreate =
        [] := by
        intro l
        apply List.filter_eq_nil_iff.2
        intro c hc
        obtain ⟨q, _, rfl⟩ := List.mem_map.1 hc
        rw [retireCommand]
        split <;> exact Bool.noConfusion
      refine { h with creates := ?_, fresh := ?_, fate := ?_, queued := ?_, closed := ?_ }
      · intro _
        show (s.session.tx ++ _).filter _ = _
        rw [List.filter_append, hcreates, List.append_nil]
        exact h.creates hopen
      · intro sid hsid stop
        simp only [commands, hcommands]
        exact h.fresh sid hsid stop
      · intro p hp hsid
        simp only [Resolved, Untouched, Holds, commands, hcommands]
        exact h.fate p hp hsid
      · intro ht
        simpa using ht
      · intro hcl'
        exact (nomatch hopen.symm.trans hcl')

/-! ## The steps -/

theorem Inv.resume {i keeps : Bool} (h : Inv s) (hc : s.calls c = .waiting i)
    (hstep : s.resume c i keeps = some t) : Inv t := by
  rw [StreamCreation.resume] at hstep
  cases hf : s.session.futures c with
  | pending =>
    rw [hf] at hstep
    exact (nomatch hstep)
  | exception | cancelled =>
    rw [hf] at hstep
    cases hstep
    refine h.setCall (Or.inr ⟨rfl, by simp [hf]⟩) (fun _ hx => (nomatch hx)) (fun _ _ => ⟨i, hc⟩) ?_
    intro sid _ hhold
    exact (nomatch hf.symm.trans hhold.1)
  | result sid =>
    rw [hf] at hstep
    have hraised : CreateCall.raised.past = true ∧ s.session.futures c ≠ .pending :=
      ⟨rfl, by simp [hf]⟩
    have hzero : sid = 0 → Inv (s.setCall c .raised) := by
      intro h0
      refine h.setCall (Or.inr hraised) (fun _ hx => (nomatch hx)) (fun _ _ => ⟨i, hc⟩) ?_
      intro sid' hsid' hhold
      have heq : sid = sid' := Future.result.inj (hf.symm.trans hhold.1)
      exact absurd (heq ▸ h0) hsid'
    dsimp only at hstep
    split at hstep
    · cases hstep
      rw [WebTransportSession.retireReply]
      split
      · rename_i hsid
        cases hopen : s.session.sessionClosed with
        | true =>
          have hcalm : Calm s.session (s.session.retireOrphanStream sid) := by
            have hdrop : s.session.retireOrphanStream sid = s.session.dropStreamTx sid := by
              rw [WebTransportSession.retireOrphanStream]
              exact if_pos hopen
            rw [hdrop]
            exact (Calm.refl s.session).dropStreamTx sid
          refine (h.calm hcalm).setCall (c := c) (x := .raised) (Or.inr ⟨rfl, ?_⟩)
            (fun _ hx => (nomatch hx))
            (fun _ _ => ⟨i, hc⟩) ?_
          · rw [hcalm.futures]
            exact hraised.2
          · exact fun _ _ _ => Or.inr (hcalm.sessionClosed.trans hopen)
        | false => exact h.giveUp hopen hc hf hsid
      · rename_i hsid
        exact hzero (not_not.1 hsid)
    · split at hstep
      · cases hstep
        exact hzero ‹_›
      · rename_i hsid
        cases hstep
        refine h.setCall (Or.inr ⟨rfl, hraised.2⟩) ?_ (fun _ _ => ⟨i, hc⟩) ?_
        · intro sid' hx
          rw [← CreateCall.returned.inj hx]
          exact ⟨hf, hsid⟩
        · intro sid' _ hhold
          have heq : sid = sid' := Future.result.inj (hf.symm.trans hhold.1)
          rw [heq]
          exact Or.inl (Or.inl rfl)

end StreamCreation

end Aiopquic
