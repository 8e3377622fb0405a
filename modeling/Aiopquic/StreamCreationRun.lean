import Aiopquic.StreamCreationInv

/-!
# Runs of `create_stream`

The worker's and the replies' steps, and what holds after every run.
-/

namespace Aiopquic

open WebTransportSession (Calm Shuts retirement)

namespace StreamCreation

variable {s t : StreamCreation} {c sid : ℕ} {r : CreatedReply} {u : WebTransportSession}

/-! ## The worker -/

theorem told_append_reply {s' : StreamCreation} (hres : s'.resolved = s.resolved)
    (hrep : s'.replies = s.replies ++ [r]) :
    s'.told = s.told ++ if r.sid = 0 then [] else [r.sid] := by
  rw [told, told, hres, hrep, ← List.append_assoc, List.map_append, List.filter_append]
  congr 1
  by_cases h0 : r.sid = 0 <;> simp [h0]

theorem Inv.work {a : Creation} (h : Inv s) (hmakes : s.Makes a) : Inv (s.work a) := by
  rw [StreamCreation.work]
  split
  · exact h
  · rename_i bidir rest htx
    have hnew : a.reply.sid ≠ 0 →
      a.reply.sid ∉ s.made.map Prod.fst ∧ bidir = decide (a.reply.sid &&& 2 = 0) := by
      intro hsid
      rcases hmakes with rfl | ⟨_, hmade, hhead⟩
      · exact absurd rfl hsid
      · rw [htx] at hhead
        exact ⟨hmade, SessionCommand.createStream.inj (Option.some.inj hhead)⟩
    have htold : StreamCreation.told { s with
        session := { s.session with tx := rest }
        replies := s.replies ++ [a.reply]
        made := if a.reply.sid = 0 then s.made else s.made ++ [(a.reply.sid, bidir)] } =
        s.told ++ if a.reply.sid = 0 then [] else [a.reply.sid] := told_append_reply rfl rfl
    -- The command is the next request's.
    have hnext : s.session.sessionClosed = false → ∃ q : ℕ × Bool,
        s.submitted[s.resolved.length + s.replies.length]? = some q ∧ q.2 = bidir ∧
        rest.filter SessionCommand.isCreate =
          (s.submitted.drop (s.resolved.length + s.replies.length + 1)).map fun q =>
            .createStream q.2 := by
      intro hopen
      have hcreates := h.creates hopen
      rw [htx] at hcreates
      cases hdrop : s.submitted.drop (s.resolved.length + s.replies.length) with
      | nil =>
        rw [hdrop] at hcreates
        exact absurd hcreates (by simp [SessionCommand.isCreate])
      | cons q l =>
        rw [hdrop] at hcreates
        have hl : s.submitted.drop (s.resolved.length + s.replies.length + 1) = l := by
          rw [← List.drop_drop, hdrop]
          rfl
        have hq : s.submitted[s.resolved.length + s.replies.length]? = some q := by
          rw [← List.head?_drop, hdrop]
          rfl
        rw [List.filter_cons_of_pos rfl, List.map_cons] at hcreates
        obtain ⟨hb, hrest⟩ := List.cons.inj hcreates
        exact ⟨q, hq, (SessionCommand.createStream.inj hb).symm, by rw [hl]; exact hrest⟩
    have hmade :
      ∀ q ∈ s.made, q ∈ if a.reply.sid = 0 then s.made else s.made ++ [(a.reply.sid, bidir)] := by
      intro q hq
      split
      · exact hq
      · exact List.mem_append_left _ hq
    refine { h with
      resolved := ?_, creates := ?_, le := ?_, replies := ?_, made := ?_, bits := ?_, told := ?_,
        source := ?_, all := ?_ }
    · intro i p hp
      obtain ⟨q, hq, hpq, hm⟩ := h.resolved i p hp
      exact ⟨q, hq, hpq, fun hsid => hmade _ (hm hsid)⟩
    · intro hopen
      obtain ⟨q, _, _, hrest⟩ := hnext hopen
      rw [List.length_append]
      exact hrest
    · intro hopen
      obtain ⟨q, hq, _⟩ := hnext hopen
      rw [List.length_append]
      exact (List.getElem?_eq_some_iff.1 hq).1
    · intro hopen i x hx
      rcases Nat.lt_or_ge i s.replies.length with hi | hi
      · obtain ⟨q, hq, hm⟩ := h.replies hopen i x (by rwa [List.getElem?_append_left hi] at hx)
        exact ⟨q, hq, fun hsid => hmade _ (hm hsid)⟩
      · obtain ⟨q, hq, hqb, _⟩ := hnext hopen
        have hxi := List.getElem?_eq_some_iff.1 hx
        have hi' : i = s.replies.length := by
          have := hxi.1
          rw [List.length_append, List.length_singleton] at this
          omega
        subst hi'
        have hxr : x = a.reply := by simpa using hx.symm
        refine ⟨q, hq, fun hsid => ?_⟩
        rw [hxr] at hsid ⊢
        rw [if_neg hsid, hqb]
        exact List.mem_append_right _ (List.mem_singleton_self _)
    · show ((if a.reply.sid = 0 then s.made else s.made ++ [(a.reply.sid, bidir)]).map
        Prod.fst).Nodup
      split
      · exact h.made
      · rename_i hsid
        rw [List.map_append, List.map_singleton]
        exact List.nodup_append.2 ⟨h.made, List.nodup_singleton _, fun x hx y hy hxy =>
          (hnew hsid).1 (by rwa [hxy, List.mem_singleton.1 hy] at hx)⟩
    · intro q hq
      split at hq
      · exact h.bits q hq
      · rename_i hsid
        rcases List.mem_append.1 hq with hq | hq
        · exact h.bits q hq
        · rw [List.mem_singleton.1 hq]
          exact ⟨hsid, (hnew hsid).2⟩
    · rw [htold]
      split
      · rw [List.append_nil]
        exact h.told
      · rename_i hsid
        exact List.nodup_append.2 ⟨h.told, List.nodup_singleton _, fun x hx y hy hxy =>
          (hnew hsid).1 (h.source _ (by rwa [hxy, List.mem_singleton.1 hy] at hx))⟩
    · intro sid hsid
      rw [htold] at hsid
      show sid ∈ (if a.reply.sid = 0 then s.made else s.made ++ [(a.reply.sid, bidir)]).map Prod.fst
      rcases List.mem_append.1 hsid with hs | hs
      · obtain ⟨q, hq, rfl⟩ := List.mem_map.1 (h.source sid hs)
        exact List.mem_map.2 ⟨q, hmade q hq, rfl⟩
      · split at hs
        · exact absurd hs List.not_mem_nil
        · rename_i hsid
          rw [List.mem_singleton.1 hs, if_neg hsid]
          simp
    · intro hopen q hq
      rw [htold]
      split at hq
      · exact List.mem_append_left _ (h.all hopen q hq)
      · rename_i hsid
        rw [if_neg hsid]
        rcases List.mem_append.1 hq with hq | hq
        · exact List.mem_append_left _ (h.all hopen q hq)
        · rw [List.mem_singleton.1 hq]
          exact List.mem_append_right _ (List.mem_singleton_self _)
  · rename_i d rest hd htx
    apply h.calm
    have hcreate : d.isCreate = false := by
      cases d with
      | createStream bidir => exact absurd rfl (hd bidir)
      | _ => rfl
    exact { Calm.refl s.session with creates := by simp [htx, hcreate] }

/-! ## Replies -/

/-- The reply is no one's: its stream is retired. -/
def Abandoned (v : WebTransportSession) (call : ℕ) (r : CreatedReply) : Prop :=
  r.sid ≠ 0 ∧ (r.errorCode ≠ 0 ∨ v.futures call ≠ .pending)

instance (v : WebTransportSession) (call : ℕ) (r : CreatedReply) : Decidable (Abandoned v call r) :=
  inferInstanceAs (Decidable (_ ∧ _))

/-- What the reply to the first pending create does to an open session. -/
structure Answers (v u : WebTransportSession) (call : ℕ) (r : CreatedReply) : Prop where
  pendingCreates : u.pendingCreates = v.pendingCreates.tail
  futures : u.futures =
    if v.futures call = .pending then Function.update v.futures call (.result r.value)
      else v.futures
  orphanStreamCommands : u.orphanStreamCommands =
    v.orphanStreamCommands ++ if Abandoned v call r then retirement r.sid else []
  orphanCleanupTask : u.orphanCleanupTask = false → v.orphanCleanupTask = false ∧
    ¬ Abandoned v call r
  sessionClosed : u.sessionClosed = false
  tx : u.tx = v.tx
  retries : u.retries = v.retries

variable {v : WebTransportSession} {call : ℕ} {room : SessionCommand → Bool}

theorem retireReply_of_open (hopen : v.sessionClosed = false) (sid : ℕ) :
    v.retireReply sid = if sid ≠ 0 then { v.dropStreamTx sid with
      orphanStreamCommands := v.orphanStreamCommands ++ retirement sid
      orphanCleanupTask := true } else v := by
  rw [WebTransportSession.retireReply]
  split
  · exact retireOrphanStream_of_open hopen sid
  · rfl

theorem onStreamCreated_of_abandoned {e : SessionTuple} (hopen : v.sessionClosed = false)
    (hhead : v.pendingCreates.head? = some call) (hab : e.errorCode ≠ 0 ∨ v.futures call ≠ .pending)
    (hu : { v with pendingCreates := v.pendingCreates.tail }.retireReply e.sid = u) :
    v.onStreamCreated room e = if u.futures call = .pending then u.setResult call 0 else u := by
  subst hu
  rw [WebTransportSession.onStreamCreated, if_neg (by simp [hopen]), hhead]
  exact if_pos hab

theorem onStreamCreated_of_kept {e : SessionTuple} (hopen : v.sessionClosed = false)
    (hhead : v.pendingCreates.head? = some call) (herr : e.errorCode = 0)
    (hp : v.futures call = .pending) :
    v.onStreamCreated room e =
      let u := { v with pendingCreates := v.pendingCreates.tail }
      (if e.scPtr ≠ 0 then { u with streamTxCtxs := Function.update u.streamTxCtxs e.sid e.scPtr }
        else u).setResult
        call e.sid := by
  rw [WebTransportSession.onStreamCreated, if_neg (by simp [hopen]), hhead]
  exact if_neg (by simp [herr, hp])

theorem onEvent_answers (hopen : v.sessionClosed = false)
    (hhead : v.pendingCreates.head? = some call) :
    Answers v (v.onEvent room r.event) call r := by
  have hcreated : v.onEvent room r.event = v.onStreamCreated room r.event := rfl
  rw [hcreated]
  by_cases hab : r.errorCode ≠ 0 ∨ v.futures call ≠ .pending
  · have hretire := retireReply_of_open (v := { v with pendingCreates := v.pendingCreates.tail })
      hopen r.sid
    have hval : v.futures call = .pending → r.value = 0 := fun hp =>
      if_neg (hab.resolve_right (not_not.2 hp))
    by_cases hsid : r.sid = 0
    · have hno : ¬ Abandoned v call r := fun h => h.1 hsid
      rw [if_neg (not_not.2 hsid)] at hretire
      rw [onStreamCreated_of_abandoned hopen hhead hab hretire]
      split
      · rename_i hp
        change v.futures call = .pending at hp
        exact ⟨rfl, by rw [if_pos hp, hval hp]; rfl, by rw [if_neg hno, List.append_nil]; rfl,
          fun ht => ⟨ht, hno⟩, hopen, rfl, rfl⟩
      · rename_i hp
        change ¬ v.futures call = .pending at hp
        exact ⟨rfl, (if_neg hp).symm, by
          rw [if_neg hno, List.append_nil], fun ht => ⟨ht, hno⟩, hopen, rfl, rfl⟩
    · have hyes : Abandoned v call r := ⟨hsid, hab⟩
      rw [if_pos hsid] at hretire
      rw [onStreamCreated_of_abandoned hopen hhead hab hretire]
      split
      · rename_i hp
        change v.futures call = .pending at hp
        exact ⟨rfl, by rw [if_pos hp, hval hp]; rfl, by rw [if_pos hyes]; rfl, fun ht => (nomatch ht), hopen, rfl, rfl⟩
      · rename_i hp
        change ¬ v.futures call = .pending at hp
        exact ⟨rfl, (if_neg hp).symm, by rw [if_pos hyes], fun ht => (nomatch ht), hopen, rfl, rfl⟩
  · have hno : ¬ Abandoned v call r := fun h => hab h.2
    rw [not_or, not_not, not_not] at hab
    rw [onStreamCreated_of_kept hopen hhead hab.1 hab.2]
    have hvalue : r.value = r.sid := if_pos hab.1
    dsimp only
    split <;>
      exact ⟨rfl, by rw [if_pos hab.2, hvalue]; rfl, by rw [if_neg hno, List.append_nil]; rfl,
        fun ht => ⟨ht, hno⟩, hopen, rfl, rfl⟩

/-- A closed session takes a reply without a trace. -/
theorem Inv.dropReply {rest : List CreatedReply} (h : Inv s) (hcl : s.session.sessionClosed = true)
    (hreplies : s.replies = r :: rest) : Inv { s with replies := rest } := by
  have hsub : (StreamCreation.told { s with replies := rest }).Sublist s.told := by
    rw [StreamCreation.told, StreamCreation.told, hreplies]
    exact ((List.Sublist.append_left (List.sublist_cons_self r rest) _).map _).filter _
  have hopen : s.session.sessionClosed ≠ false := by simp [hcl]
  exact { h with
    creates := fun ho => absurd ho hopen
    le := fun ho => absurd ho hopen
    replies := fun ho => absurd ho hopen
    told := h.told.sublist hsub
    source := fun sid hs => h.source sid (hsub.subset hs)
    all := fun ho => absurd ho hopen }

theorem onEvent_calm_of_closed (hcl : v.sessionClosed = true) :
    Calm v (v.onEvent room r.event) := by
  have hcreated : v.onEvent room r.event = v.onStreamCreated room r.event := rfl
  have hcalm := Calm.refl v
  rw [hcreated, WebTransportSession.onStreamCreated, if_pos hcl]
  dsimp only
  split
  · refine { hcalm with creates := ?_ }
    simp [SessionCommand.isCreate]
  · exact hcalm

/-- The stream of a reply that is still in the ring is no call's and no handled reply's. -/
theorem Inv.sid_fresh {rest : List CreatedReply} (h : Inv s) (hreplies : s.replies = r :: rest)
    (hsid : r.sid ≠ 0) :
    r.sid ∉ s.resolved.map fun p => p.2.sid := by
  intro hmem
  have htold := h.told
  rw [StreamCreation.told, List.map_append, List.filter_append, hreplies,
    List.nodup_append] at htold
  refine htold.2.2 r.sid ?_ r.sid ?_ rfl
  · rw [List.map_map]
    exact List.mem_filter.2 ⟨hmem, by simpa using hsid⟩
  · exact List.mem_filter.2 ⟨List.mem_cons_self, by simpa using hsid⟩

/-- The reply to the next request is handled by the open session. -/
theorem Inv.answer {rest : List CreatedReply} {q : ℕ × Bool} (h : Inv s)
    (hopen : s.session.sessionClosed = false)
    (hreplies : s.replies = r :: rest) (hq : s.submitted[s.resolved.length]? = some q)
    (hmade : r.sid ≠ 0 → (r.sid, q.2) ∈ s.made) (ha : Answers s.session u q.1 r) :
    Inv { s with session := u, replies := rest, resolved := s.resolved ++ [(some q.1, r)] } := by
  have hfutures : ∀ c, u.futures c =
      if c = q.1 ∧ s.session.futures q.1 = .pending then .result r.value
        else s.session.futures c := by
    intro c
    rw [ha.futures]
    by_cases hp : s.session.futures q.1 = .pending <;> simp [hp, Function.update_apply]
  have hkept : ∀ c, s.session.futures c ≠ .pending → u.futures c = s.session.futures c := by
    intro c hc
    rw [hfutures, if_neg]
    rintro ⟨rfl, hp⟩
    exact hc hp
  have hpending : ∀ c, u.futures c = .pending → c ≠ q.1 ∧ s.session.futures c = .pending := by
    intro c hc
    rw [hfutures] at hc
    split at hc
    · cases hc
    · rename_i hne
      refine ⟨?_, hc⟩
      rintro rfl
      exact hne ⟨rfl, hc⟩
  have hresult : ∀ c v, u.futures c = .result v →
      s.session.futures c = .result v ∨ c = q.1 ∧ s.session.futures q.1 = .pending ∧
        v = r.value := by
    intro c v hc
    rw [hfutures] at hc
    split at hc
    · rename_i hcq
      exact Or.inr ⟨hcq.1, hcq.2, (Future.result.inj hc).symm⟩
    · exact Or.inl hc
  have hcount : ∀ x, (commands { s with session := u }).count x = s.commands.count x +
      (if Abandoned s.session q.1 r then retirement r.sid else []).count x :=
    count_commands_append ha.orphanStreamCommands
  have hsame : ∀ sid, sid ≠ r.sid → ∀ stop,
      (commands { s with session := u }).count (sid, stop) = s.commands.count (sid, stop) := by
    intro sid hne stop
    rw [hcount]
    split
    · rw [count_retirement_of_ne hne, Nat.add_zero]
    · rw [List.count_nil, Nat.add_zero]
  have hdrop : s.submitted.drop s.resolved.length = q :: s.submitted.drop
    (s.resolved.length + 1) := by
    obtain ⟨hlt, hget⟩ := List.getElem?_eq_some_iff.1 hq
    rw [List.drop_eq_getElem_cons hlt, hget]
  have htold : StreamCreation.told
      { s with session := u, replies := rest, resolved := s.resolved ++ [(some q.1, r)] } =
        s.told := by
    simp [StreamCreation.told, hreplies]
  have hlen : s.replies.length = rest.length + 1 := congrArg List.length hreplies
  refine ⟨h.requests, h.past, ?_, ?_, ?_, ?_, ?_, ?_, ?_, ?_, ?_, h.made, h.bits, ?_, ?_, ?_, ?_,
    ?_, ?_, ?_, ?_⟩
  · exact fun q' hq' hf => h.waits q' hq' (hpending _ hf).2
  · intro c sid hc
    obtain ⟨hf, hsid⟩ := h.returned c sid hc
    exact ⟨(hkept c (by simp [hf])).trans hf, hsid⟩
  · intro c v hc
    rcases hresult c v hc with hf | ⟨rfl, _, rfl⟩
    · obtain ⟨r', hr', hv⟩ := h.result c v hf
      exact ⟨r', List.mem_append_left _ hr', hv⟩
    · exact ⟨r, List.mem_append_right _ (List.mem_singleton_self _), rfl⟩
  · intro c r' hr' hc
    obtain ⟨hne, hp⟩ := hpending c hc
    rcases List.mem_append.1 hr' with hr' | hr'
    · exact h.done c r' hr' hp
    · exact hne (Option.some.inj (congrArg Prod.fst (List.mem_singleton.1 hr')))
  · intro i p hp
    rcases Nat.lt_or_ge i s.resolved.length with hi | hi
    · exact h.resolved i p (by rwa [List.getElem?_append_left hi] at hp)
    · rw [List.getElem?_append_right hi, List.getElem?_singleton] at hp
      split at hp
      · rename_i hi'
        have hi'' : i = s.resolved.length := by omega
        rw [← Option.some.inj hp, hi'']
        exact ⟨q, hq, rfl, hmade⟩
      · cases hp
  · intro _
    show u.pendingCreates = (s.submitted.drop (s.resolved ++ [_]).length).map Prod.fst
    rw [ha.pendingCreates, h.pending hopen, hdrop, List.length_append, List.length_singleton]
    rfl
  · intro _
    show u.tx.filter _ = (s.submitted.drop ((s.resolved ++ [_]).length + rest.length)).map _
    rw [ha.tx, h.creates hopen, hlen, List.length_append, List.length_singleton, Nat.add_right_comm,
      Nat.add_assoc]
  · intro _
    show (s.resolved ++ [_]).length + rest.length ≤ s.submitted.length
    have hle := h.le hopen
    rw [List.length_append, List.length_singleton]
    omega
  · intro _ i r' hr'
    obtain ⟨q', hq', hm⟩ := h.replies hopen (i + 1) r' (by rw [hreplies]; exact hr')
    refine ⟨q', ?_, hm⟩
    rw [List.length_append, List.length_singleton, Nat.add_assoc, Nat.add_comm 1]
    exact hq'
  · rw [htold]
    exact h.told
  · rw [htold]
    exact h.source
  · intro sid hsid stop
    have hnot : sid ∉ s.resolved.map (fun p => p.2.sid) ∧
      sid ≠ r.sid := by simpa [not_or] using hsid
    exact (hsame sid hnot.2 stop).trans (h.fresh sid hnot.1 stop)
  · intro p hp hps
    rcases List.mem_append.1 hp with hp | hp
    · -- What an earlier reply told of stays as it was.
      have hne : p.2.sid ≠ r.sid := by
        intro heq
        exact h.sid_fresh hreplies (heq ▸ hps) (heq ▸ List.mem_map_of_mem hp)
      have hiff : ∀ c, u.futures c = .result p.2.sid ↔ s.session.futures c = .result p.2.sid := by
        intro c
        constructor
        · intro hc
          rcases hresult c _ hc with hf | ⟨_, _, hv⟩
          · exact hf
          · rw [CreatedReply.value] at hv
            split at hv
            · exact absurd hv hne
            · exact absurd hv hps
        · intro hc
          exact (hkept c (by simp [hc])).trans hc
      have hfate := h.fate p hp hps
      have hclosed : u.sessionClosed = s.session.sessionClosed := ha.sessionClosed.trans hopen.symm
      simp only [Resolved, Holds, Untouched] at hfate ⊢
      simp only [hiff, hclosed]
      have hc := hsame p.2.sid hne
      simp only [commands] at hc hfate ⊢
      simp only [hc]
      exact hfate
    · rw [List.mem_singleton.1 hp] at hps ⊢
      have hnew := h.sid_fresh hreplies hps
      by_cases hab : Abandoned s.session q.1 r
      · refine Or.inr (Or.inl ⟨fun c hhold => ?_, fun stop => ?_⟩)
        · rcases hresult c _ hhold.1 with hf | ⟨_, hpend, hv⟩
          · obtain ⟨r', hr', hrs⟩ := h.resolved_of_result hf hps
            exact hnew (List.mem_map.2 ⟨_, hr', hrs⟩)
          · have herr : r.errorCode ≠ 0 := hab.2.resolve_right (not_not.2 hpend)
            rw [CreatedReply.value, if_neg herr] at hv
            exact hps hv
        · have hc := hcount (r.sid, stop)
          rw [if_pos hab, h.fresh _ hnew stop, Nat.zero_add] at hc
          exact hc
      · have hgood : r.errorCode = 0 ∧ s.session.futures q.1 = .pending := by
          by_contra hbad
          exact hab ⟨hps, by tauto⟩
        refine Or.inl ⟨q.1, rfl, ⟨?_, Or.inr (h.waits q (List.mem_of_getElem? hq) hgood.2)⟩,
          fun stop => ?_⟩
        · show u.futures q.1 = .result r.sid
          rw [hfutures, if_pos ⟨rfl, hgood.2⟩, CreatedReply.value, if_pos hgood.1]
        · have hc := hcount (r.sid, stop)
          rw [if_neg hab, h.fresh _ hnew stop] at hc
          exact hc
  · intro _
    rw [htold]
    exact h.all hopen
  · intro ht
    obtain ⟨ht', hab⟩ := ha.orphanCleanupTask ht
    show u.orphanStreamCommands = []
    rw [ha.orphanStreamCommands, if_neg hab, h.queued ht', List.append_nil]
  · intro hcl
    exact absurd (ha.sessionClosed.symm.trans hcl) (by simp)
  · show ∀ d ∈ u.retries, d.isCreate = false
    rw [ha.retries]
    exact h.retries

theorem Inv.handleReply (h : Inv s) (room : SessionCommand → Bool) : Inv (s.handleReply room) := by
  rw [StreamCreation.handleReply]
  cases hreplies : s.replies with
  | nil => exact h
  | cons r rest =>
    cases hcl : s.session.sessionClosed with
    | true =>
      have hcalm := @onEvent_calm_of_closed r _ room hcl
      exact (h.calm hcalm).dropReply (hcalm.sessionClosed.trans hcl) hreplies
    | false =>
      obtain ⟨q, hq, hmade⟩ := h.replies hcl 0 r (by rw [hreplies]; rfl)
      have hhead : s.session.pendingCreates.head? = some q.1 := by
        rw [h.pending hcl, List.head?_map, List.head?_drop]
        exact congrArg (Option.map Prod.fst) hq
      dsimp only
      rw [hhead]
      exact h.answer hcl hreplies hq hmade (onEvent_answers hcl hhead)

/-! ## Runs -/

/-- A call that has queued nothing yet moves on. -/
theorem Inv.setCall_of_not_past {x : CreateCall} (h : Inv s) (hc : (s.calls c).past = false)
    (hx : ∀ sid i, x ≠ .returned sid ∧ x ≠ .waiting i) : Inv (s.setCall c x) := by
  apply h.setCall
  · left
    rintro q hq rfl
    exact (nomatch hc.symm.trans (h.past q hq))
  · exact fun sid hr => absurd hr (hx sid true).1
  · rintro sid (hr | ⟨i, hw⟩)
    · exact absurd hr (hx sid true).1
    · exact absurd hw (hx 0 i).2
  · rintro sid _ ⟨_, hr | ⟨i, hw⟩⟩
    · exact (nomatch hc.symm.trans (congrArg CreateCall.past hr))
    · exact (nomatch hc.symm.trans (congrArg CreateCall.past hw))

theorem Inv.tryPush {bidir : Bool} (h : Inv s) (hc : (s.calls c).past = false) (room : Bool) :
    Inv (s.tryPush c bidir room) := by
  rw [StreamCreation.tryPush]
  split
  · exact h.setCall_of_not_past hc fun _ _ => ⟨nofun, nofun⟩
  · rename_i hcl
    split
    · exact h.submit (Bool.eq_false_of_not_eq_true hcl) hc
    · exact h.setCall_of_not_past hc fun _ _ => ⟨nofun, nofun⟩

theorem Inv.interrupt (h : Inv s) (hstep : s.interrupt c = some t) : Inv t := by
  rw [StreamCreation.interrupt] at hstep
  cases hc : s.calls c with
  | gated bidir | parked bidir =>
    rw [hc] at hstep
    cases hstep
    exact h.setCall_of_not_past (by rw [hc]; rfl) fun _ _ => ⟨nofun, nofun⟩
  | waiting i =>
    rw [hc] at hstep
    cases hstep
    have hf := h.failFutures (f := if s.session.futures c = .pending then
        Function.update s.session.futures c .cancelled else s.session.futures) fun c' => by
      split
      · rename_i hp
        rw [Function.update_apply]
        split
        · rename_i hcc
          exact Or.inr ⟨hcc ▸ hp, Or.inr rfl⟩
        · exact Or.inl rfl
      · exact Or.inl rfl
    refine hf.setCall (c := c) (x := .waiting true) (Or.inr ⟨rfl, ?_⟩) (fun _ hx => (nomatch hx))
      (fun _ _ => ⟨i, hc⟩)
      fun _ _ _ => Or.inl (Or.inr ⟨true, rfl⟩)
    dsimp only
    split
    · rw [Function.update_self]
      exact Future.noConfusion
    · assumption
  | idle | returned _ | raised =>
    rw [hc] at hstep
    exact (nomatch hstep)

theorem Inv.retryPush {k : ℕ} {pushed : Bool} (h : Inv s) (hstep : s.retryPush k pushed = some t) :
    Inv t := by
  rw [StreamCreation.retryPush] at hstep
  obtain ⟨d, hd, rfl⟩ := Option.map_eq_some_iff.1 hstep
  have hcreate := h.retries d (List.mem_of_getElem? hd)
  apply h.calm
  refine { Calm.refl s.session with
    creates := ?_
    retries := fun d hd => Or.inl (List.mem_of_mem_eraseIdx hd) }
  dsimp only
  split
  · simp [hcreate]
  · rfl

theorem Inv.step {a : Act} (h : Inv s) (hstep : step s a = some t) : Inv t := by
  cases a with
  | call c bidir =>
    rw [StreamCreation.step] at hstep
    split at hstep
    · rename_i hc
      cases hstep
      apply h.setCall_of_not_past (by rw [hc]; rfl)
      intro _ _
      split <;> exact ⟨nofun, nofun⟩
    · exact (nomatch hstep)
  | advance c room =>
    rw [StreamCreation.step] at hstep
    split at hstep
    · rename_i hc
      split at hstep
      · exact (nomatch hstep)
      · cases hstep
        exact h.tryPush (by rw [hc]; rfl) room
    · rename_i hc
      cases hstep
      exact h.tryPush (by rw [hc]; rfl) room
    · exact (nomatch hstep)
  | interrupt c => exact h.interrupt hstep
  | resume c keeps =>
    rw [StreamCreation.step] at hstep
    split at hstep
    · exact h.resume ‹_› hstep
    · exact (nomatch hstep)
  | work a =>
    rw [StreamCreation.step] at hstep
    split at hstep
    · cases hstep
      exact h.work ‹_›
    · exact (nomatch hstep)
  | handleReply room =>
    cases hstep
    exact h.handleReply room
  | onEvent e room =>
    rw [StreamCreation.step] at hstep
    split at hstep
    · exact (nomatch hstep)
    · rename_i he
      cases hstep
      rcases @WebTransportSession.onEvent_calm_or_shuts s.session room _ he with hu | hu
      · exact h.calm hu
      · exact h.shuts hu
  | close errorCode reason room =>
    cases hstep
    cases hcl : s.session.sessionClosed with
    | true =>
      rw [WebTransportSession.close, if_pos hcl]
      exact h
    | false => exact h.shuts (WebTransportSession.close_shuts errorCode reason hcl)
  | retireOrphanStreams n =>
    cases hstep
    exact h.retireOrphanStreams n
  | retryPush k pushed => exact h.retryPush hstep

theorem Inv.order (h : Inv s) :
    s.resolved.map Prod.fst = (s.submitted.take s.resolved.length).map fun q => some q.1 := by
  apply List.ext_getElem?
  intro i
  rw [List.getElem?_map, List.getElem?_map, List.getElem?_take]
  cases hp : s.resolved[i]? with
  | none => rw [if_neg (Nat.not_lt.2 (List.getElem?_eq_none_iff.1 hp))]; rfl
  | some p =>
    obtain ⟨q, hq, hpq, _⟩ := h.resolved i p hp
    rw [if_pos (List.getElem?_eq_some_iff.1 hp).1, hq]
    exact congrArg some hpq

end StreamCreation

end Aiopquic
