import Aiopquic.DgramMarksInv

/-!
# Every run of the datagram marks

The worker's steps and the senders that come and go keep the invariant.
-/

namespace Aiopquic

namespace DgramMarks

variable {s s' : DgramMarks}

/-! ### The worker -/

/-- A step of the worker on one sender. -/
theorem Inv.atWorker (h : s.Inv) {j : ℕ} (x : DgramSender) {t : ℕ → Option ℕ} {q : List MarkCmd}
    {e : List MarkEvt} {w : WorkerPoint}
    (hhome : SameHome x (s.senders j))
    (htable : ∀ a r k, t a = some r → s.cnxs a = some k → r = k)
    (hworker : ∀ k r more, w ≠ .providing k r more)
    (hfired : e.count .txEventRingDrained = s.rx.count .txEventRingDrained) (hrx : s.rx ⊆ e)
    (hothers : ∀ k < s.created, k ≠ j → (s.senders k).Open →
      t (s.senders k).cnx = s.table (s.senders k).cnx ∧
      (s.Marked k → .mark (s.senders k).cnx k ∈ q))
    (hsound : j < s.created → x.Open →
      Sound { s.setSender j x with table := t, tx := q, rx := e, worker := w } j) :
    Inv { s.setSender j x with table := t, tx := q, rx := e, worker := w } := by
  constructor
  case routes =>
    exact (h.routes.withTable htable).congr (SameHome.setSender (s := s) hhome)
      rfl rfl rfl
  case pushing => exact h.pushing
  case fired =>
    show s.fired = s.delivered + e.count .txEventRingDrained
    rw [hfired]
    exact h.fired
  case taking => exact fun k r more hk => absurd hk (hworker k r more)
  case sound =>
    intro k hk hopen
    by_cases hkj : k = j
    · subst hkj
      exact hsound hk (by simpa using hopen)
    · have hx : (s.setSender j x).senders k = s.senders k := setSender_senders_of_ne s hkj x
      obtain ⟨htable, hmarked⟩ := hothers k hk hkj (hx ▸ hopen)
      refine (h.sound k hk (hx ▸ hopen)).spared
        ⟨hx, htable, fun hm => ?_, fun hp => .inr (.inr hp), fun ht => ?_, rfl⟩
      · show MarkCmd.mark ((s.setSender j x).senders k).cnx k ∈ q
        rw [hx]
        exact hmarked hm
      · show MarkEvt.datagramTxDrained ((s.setSender j x).senders k).cnx k ∈ e
        rw [hx]
        exact hrx ht

/-- The address of an open sender is no other's. -/
theorem Routes.cnx_ne (h : s.Routes) {cnx j k : ℕ} (hj : s.cnxs cnx = some j) (hk : k < s.created)
    (hopen : (s.senders k).Open) (hne : k ≠ j) : (s.senders k).cnx ≠ cnx := by
  intro heq
  have hlive := h.live k hk hopen.2
  rw [heq, hj] at hlive
  exact hne (Option.some.inj hlive).symm

/-- A mark puts the sender's own ring in the table. -/
theorem Routes.put_eq (h : s.Routes) {cnx i : ℕ} (hi : s.cnxs cnx = some i) (kind : SenderKind) :
    put kind (s.table cnx) i = i := by
  cases ht : s.table cnx with
  | none => cases kind <;> rfl
  | some r =>
    obtain rfl := h.table cnx r i ht hi
    cases kind <;> rfl

theorem Inv.dropMark (h : s.Inv) {c : MarkCmd} {tx : List MarkCmd} (htx : s.tx = c :: tx)
    (hc : ∀ k < s.created, (s.senders k).Open → c ≠ .mark (s.senders k).cnx k) :
    Inv { s with tx := tx, worker := .popped } := by
  constructor
  case routes => exact h.routes.congr (fun _ => .refl _) rfl rfl rfl
  case pushing => exact h.pushing
  case fired => exact h.fired
  case taking => exact fun k r more hk => nomatch hk
  case sound =>
    intro k hk hopen
    refine (h.sound k hk hopen).spared ⟨rfl, rfl, fun hm => ?_, fun hp => .inr (.inr hp), id, rfl⟩
    have hm : MarkCmd.mark (s.senders k).cnx k ∈ c :: tx := htx ▸ hm
    exact (List.mem_cons.1 hm).resolve_left fun heq => hc k hk hopen heq.symm

theorem Inv.pop (h : s.Inv) (hok : s.Addressed s.tx) (hs : s.pop = some s') : s'.Inv := by
  simp only [DgramMarks.pop, Option.ite_none_right_eq_some] at hs
  obtain ⟨hidle, hs⟩ := hs
  split at hs
  · cases hs
  · rename_i tx htx
    obtain rfl := Option.some.inj hs
    exact h.dropMark htx fun _ _ _ hc => nomatch hc
  · rename_i cnx i tx htx
    split at hs
    · rename_i hcnx
      obtain rfl := Option.some.inj hs
      apply h.dropMark htx
      rintro k hk hopen hc
      cases hc
      rw [h.routes.live _ hk hopen.2] at hcnx
      cases hcnx
    · rename_i j hcnx
      rw [htx] at hok
      obtain rfl : j = i := hok j hcnx
      obtain rfl := Option.some.inj hs
      rw [h.routes.put_eq hcnx]
      obtain ⟨-, haddr⟩ := h.routes.cnxs cnx j hcnx
      apply h.atWorker
      case hhome => exact ⟨rfl, id, rfl, rfl⟩
      case htable =>
        intro a r k hr hk
        by_cases ha : a = cnx
        · subst ha
          rw [Function.update_self] at hr
          rw [hcnx] at hk
          exact (Option.some.inj hr).symm.trans (Option.some.inj hk)
        · rw [Function.update_of_ne ha] at hr
          exact h.routes.table a r k hr hk
      case hworker => exact fun _ _ _ hk => nomatch hk
      case hfired => rfl
      case hrx => exact List.Subset.refl _
      case hothers =>
        intro k hk hkj hopen
        refine ⟨Function.update_of_ne (h.routes.cnx_ne hcnx hk hopen hkj) .., fun hm => ?_⟩
        have hm : MarkCmd.mark (s.senders k).cnx k ∈ .mark cnx j :: tx := htx ▸ hm
        refine (List.mem_cons.1 hm).resolve_left fun heq => ?_
        cases heq
        exact hkj rfl
      case hsound =>
        intro hj hopen
        have hsound := h.sound j hj hopen
        exact
          { served := fun _ => by simp [haddr]
            covered := fun _ => .inl (by simp)
            waiting := fun hp ht => by
              obtain ⟨hd, hr, -⟩ := hsound.waiting (by simpa using hp) (by simpa [Told] using ht)
              simpa using ⟨hd, hr⟩
            owed := by simpa using hsound.owed }

theorem Inv.fire (h : s.Inv) (hs : s.fire = some s') : s'.Inv := by
  unfold DgramMarks.fire at hs
  split at hs
  · cases hs
  · split at hs
    · obtain rfl := Option.some.inj hs
      constructor
      case routes => exact h.routes.congr (fun _ => .refl _) rfl rfl rfl
      case pushing => exact h.pushing
      case fired =>
        show s.fired + 1 = s.delivered + (s.rx ++ [MarkEvt.txEventRingDrained]).count
          MarkEvt.txEventRingDrained
        rw [List.count_append, List.count_singleton_self, h.fired, Nat.add_assoc]
      case taking => exact fun k r more hk => nomatch hk
      case sound =>
        exact fun k hk hopen => (h.sound k hk hopen).spared
          ⟨rfl, rfl, id, fun hp => .inr (.inr hp), fun ht => List.mem_append_left _ ht, rfl⟩
    · obtain rfl := Option.some.inj hs
      exact ⟨h.routes.congr (fun _ => .refl _) rfl rfl rfl, h.pushing, h.fired,
        fun k r more hk => (nomatch hk), fun k hk hopen => (h.sound k hk hopen).spared
          ⟨rfl, rfl, id, fun hp => .inr (.inr hp), id, rfl⟩⟩

/-- The scheduler of a sender is armed or disarmed. -/
theorem Inv.setActive (h : s.Inv) {j : ℕ} (active : Bool) (hidle : s.worker = .idle)
    (hsound : j < s.created → (s.senders j).Open →
      Sound (s.setSender j { s.senders j with active := active }) j) :
    Inv (s.setSender j { s.senders j with active := active }) := by
  apply h.atWorker (j := j) (t := s.table) (q := s.tx) (e := s.rx) (w := s.worker)
  case hhome => exact ⟨rfl, id, rfl, rfl⟩
  case htable => exact h.routes.table
  case hworker => simp [hidle]
  case hfired => rfl
  case hrx => exact List.Subset.refl _
  case hothers => exact fun _ _ _ _ => ⟨rfl, id⟩
  case hsound => exact hsound

theorem Inv.prepareDatagram (h : s.Inv) {cnx length : ℕ}
    (hs : s.prepareDatagram cnx length = some s') :
    s'.Inv := by
  simp only [DgramMarks.prepareDatagram, Option.ite_none_right_eq_some] at hs
  obtain ⟨hidle, hs⟩ := hs
  split at hs
  · cases hs
  · rename_i j hcnx
    obtain ⟨hj, haddr⟩ := h.routes.cnxs cnx j hcnx
    split at hs
    · rename_i r rec rest hr
      obtain ⟨r', htable, heq⟩ := Option.map_eq_some_iff.1 hr
      obtain rfl := h.routes.table cnx r' j htable hcnx
      simp only [Prod.mk.injEq] at heq
      obtain ⟨rfl, hrecords⟩ := heq
      have hne : (s.senders r').records ≠ [] := by simp [hrecords]
      split at hs
      · obtain rfl := Option.some.inj hs
        constructor
        case routes => exact h.routes.congr (fun _ => .refl _) rfl rfl rfl
        case pushing => exact h.pushing
        case fired => exact h.fired
        case taking =>
          intro k r more hk
          cases hk
          refine ⟨hj, rfl, haddr.symm ▸ htable, hne, fun hmore hrest => absurd hrest ?_⟩
          simpa [hrecords] using hmore
        case sound =>
          exact fun k hk hopen => (h.sound k hk hopen).spared
            ⟨rfl, rfl, id, fun hp => .inr (.inr hp), id, rfl⟩
      · -- the record does not fit this packet
        obtain rfl := Option.some.inj hs
        apply h.setActive true hidle
        intro hj hopen
        have hsound := h.sound r' hj hopen
        exact
          { served := fun _ => by simpa [haddr] using htable
            covered := fun _ => .inl (by simp)
            waiting := fun hp ht => by
              obtain ⟨hd, hr, -⟩ := hsound.waiting (by simpa using hp) (by simpa [Told] using ht)
              simpa using ⟨hd, hr⟩
            owed := by simpa using hsound.owed }
    · rename_i hnone
      obtain rfl := Option.some.inj hs
      apply h.setActive false hidle
      intro hj hopen
      have hsound := h.sound j hj hopen
      -- an armed sender has its ring in the table, so the worker found that ring empty
      have hidle : (s.senders j).records ≠ [] → (s.senders j).active ≠ true := by
        intro hr ha
        obtain ⟨rec, rest, hrec⟩ := List.exists_cons_of_ne_nil hr
        have htable := hsound.served ha
        rw [haddr] at htable
        exact hnone j rec rest (by simp [htable, hrec])
      exact
        { served := fun ha => by simp at ha
          covered := fun hr => by
            have hr : (s.senders j).records ≠ [] := by simpa using hr
            simpa [Due, Marked] using (hsound.covered hr).resolve_left (hidle hr)
          waiting := fun hp ht => by
            obtain ⟨hd, hr, hm⟩ := hsound.waiting (by simpa using hp) (by simpa [Told] using ht)
            simpa [Marked, hd, hr] using hm.resolve_right (hidle hr)
          owed := by simpa using hsound.owed }

/-- The record is taken from the ring, and the scheduler is set. -/
theorem provide_eq {j : ℕ} {more : Bool} (hw : s.worker = .providing j j more) :
    s.provide = some
      { s.setSender j { s.senders j with
          records := (s.senders j).records.tail, drainPending := false, active := more } with
        rx := if (s.senders j).drainPending then s.rx ++ [.datagramTxDrained (s.senders j).cnx j]
          else s.rx
        worker := .idle } := by
  simp [provide, hw, setSender]

theorem Inv.provide (h : s.Inv) (hs : s.provide = some s') : s'.Inv := by
  cases hw : s.worker with
  | idle => simp [DgramMarks.provide, hw] at hs
  | popped => simp [DgramMarks.provide, hw] at hs
  | providing j r more =>
    obtain ⟨-, rfl, htable, -, hrest⟩ := h.taking j r more hw
    rw [provide_eq hw] at hs
    obtain rfl := Option.some.inj hs
    apply h.atWorker (t := s.table) (q := s.tx)
    case hhome => exact ⟨rfl, id, rfl, rfl⟩
    case htable => exact h.routes.table
    case hworker => exact fun _ _ _ hk => nomatch hk
    case hfired =>
      split
      · rw [List.count_append, List.count_singleton, if_neg (by simp), Nat.add_zero]
      · rfl
    case hrx =>
      split
      · exact List.subset_append_left ..
      · exact List.Subset.refl _
    case hothers => exact fun _ _ _ _ => ⟨rfl, id⟩
    case hsound =>
      intro hj hopen
      have hsound := h.sound r hj hopen
      exact
        { served := fun _ => by simpa using htable
          covered := fun hr => by
            cases more with
            | true => exact .inl (by simp)
            | false => exact .inr (by simpa [Due, Marked] using hrest rfl (by simpa using hr))
          waiting := fun hp ht => by
            -- the drain flag of a waiting writer is armed, so this pop tells it
            have hp : (s.senders r).parked = true := by simpa using hp
            by_cases hd : (s.senders r).drainPending = true
            · exact absurd (by simp [Told, hd]) ht
            · exact absurd (hsound.waiting hp fun htold => ht (by simpa [Told, hd] using htold)).1
                hd
          owed := by simpa using hsound.owed }

/-! ### Senders come and go -/

theorem Inv.endCnx (h : s.Inv) {cnx : ℕ} {clears : Bool} (hs : s.endCnx cnx clears = some s') :
    s'.Inv := by
  simp only [DgramMarks.endCnx, Option.ite_none_right_eq_some, Option.map_eq_some_iff] at hs
  obtain ⟨hidle, j, hj, rfl⟩ := hs
  have htable : ∀ a, a ≠ cnx →
      (if clears then Function.update s.table cnx none else s.table) a = s.table a := by
    intro a ha
    split
    · exact Function.update_of_ne ha ..
    · rfl
  apply h.atWorker (q := s.tx) (e := s.rx) (w := s.worker)
  case hhome => exact ⟨rfl, nofun, rfl, rfl⟩
  case htable =>
    intro a r k hr hk
    by_cases ha : a = cnx
    · subst ha
      cases clears with
      | true => simp at hr
      | false => exact h.routes.table a r k hr hk
    · rw [htable a ha] at hr
      exact h.routes.table a r k hr hk
  case hworker => simp [hidle]
  case hfired => rfl
  case hrx => exact List.Subset.refl _
  case hothers => exact fun k hk hkj hopen => ⟨htable _ (h.routes.cnx_ne hj hk hopen hkj), id⟩
  case hsound =>
    intro _ hopen
    cases hopen.2

theorem Inv.free (h : s.Inv) {cnx : ℕ} (hs : s.free cnx = some s') : s'.Inv := by
  unfold DgramMarks.free at hs
  split at hs
  · cases hs
  · rename_i j hj
    simp only [Option.ite_none_right_eq_some, Option.some.injEq] at hs
    obtain ⟨⟨-, hended⟩, rfl⟩ := hs
    have hcnxs : ∀ a k, Function.update s.cnxs cnx none a = some k →
      a ≠ cnx ∧ s.cnxs a = some k := by
      intro a k hk
      by_cases ha : a = cnx
      · subst ha
        rw [Function.update_self] at hk
        cases hk
      · rw [Function.update_of_ne ha] at hk
        exact ⟨ha, hk⟩
    constructor
    case routes =>
      refine ⟨fun a k hk => h.routes.cnxs a k (hcnxs a k hk).2, fun i hi hlive => ?_,
        fun a r k hr hk => h.routes.table a r k hr (hcnxs a k hk).2, h.routes.room⟩
      have hi := h.routes.live i hi hlive
      have hne : (s.senders i).cnx ≠ cnx := by
        intro heq
        rw [heq, hj] at hi
        cases hi
        rw [hended] at hlive
        cases hlive
      exact (Function.update_of_ne hne ..).trans hi
    case pushing => exact h.pushing
    case fired => exact h.fired
    case taking =>
      exact fun k r more hk => (h.taking k r more hk).spared
        ⟨rfl, rfl, id, fun hp => .inr (.inr hp), id, rfl⟩ le_rfl
    case sound =>
      exact fun k hk hopen => (h.sound k hk hopen).spared
        ⟨rfl, rfl, id, fun hp => .inr (.inr hp), id, rfl⟩

theorem Inv.releaseRing (h : s.Inv) {i : ℕ} (hs : s.releaseRing i = some s') : s'.Inv := by
  simp only [DgramMarks.releaseRing, Option.ite_none_right_eq_some, Option.some.injEq] at hs
  obtain ⟨⟨hidle, hclosed, hring⟩, rfl⟩ := hs
  constructor
  case routes =>
    apply h.routes.withTable
    intro a r k hr hk
    by_cases ha : a = (s.senders i).cnx
    · subst ha
      rw [Function.update_self] at hr
      cases hr
    · rw [Function.update_of_ne ha] at hr
      exact h.routes.table a r k hr hk
  case pushing => exact h.pushing
  case fired => exact h.fired
  case taking => exact fun k r more hk => absurd (hidle.symm.trans hk) (by simp)
  case sound =>
    intro k hk hopen
    refine (h.sound k hk hopen).spared ⟨rfl, ?_, id, fun hp => .inr (.inr hp), id, rfl⟩
    -- the ring in the table at the address of an open sender is its own
    apply Function.update_of_ne
    intro heq
    have hk := h.routes.table _ i k (heq ▸ hring) (h.routes.live k hk hopen.2)
    subst hk
    rw [hopen.1] at hclosed
    cases hclosed

theorem Inv.create (h : s.Inv) {kind : SenderKind} {cnx : ℕ} {capacity maxRecord : UInt32}
    (hok : s.Ok (.create kind cnx capacity maxRecord))
    (hs : s.create kind cnx capacity maxRecord = some s') : s'.Inv := by
  simp only [DgramMarks.create, Option.ite_none_right_eq_some, Option.some.injEq] at hs
  obtain ⟨hfree, rfl⟩ := hs
  obtain ⟨htable, hsize⟩ := hok
  generalize hx : DgramSender.fresh kind cnx capacity maxRecord = x
  have hold : ∀ k < s.created, Function.update s.senders s.created x k = s.senders k :=
    fun k hk => Function.update_of_ne (Nat.ne_of_lt hk) ..
  -- whoever has not ended is at another address
  have hne : ∀ k < s.created, (s.senders k).ended = false → (s.senders k).cnx ≠ cnx := by
    intro k hk hended heq
    have hlive := h.routes.live k hk hended
    rw [heq, hfree] at hlive
    cases hlive
  have hspares : ∀ k < s.created, Spares s
      { s with
        cnxs := Function.update s.cnxs cnx (some s.created), held := Function.update s.held cnx
          (some s.created)
        senders := Function.update s.senders s.created x, created := s.created + 1 } k := by
    intro k hk
    refine ⟨hold k hk, rfl, fun hm => ?_, fun hp => .inr (.inr hp), fun ht => ?_, rfl⟩
    · show MarkCmd.mark (Function.update s.senders s.created x k).cnx k ∈ s.tx
      rw [hold k hk]
      exact hm
    · show MarkEvt.datagramTxDrained (Function.update s.senders s.created x k).cnx k ∈ s.rx
      rw [hold k hk]
      exact ht
  constructor
  case routes =>
    refine ⟨fun a j hj => ?_, fun i hi hended => ?_, fun a r j hr hj => ?_, fun i hi => ?_⟩
    · by_cases ha : a = cnx
      · subst ha
        obtain rfl : s.created = j := by simpa using hj
        exact ⟨Nat.lt_succ_self _, by simp [← hx, DgramSender.fresh]⟩
      · obtain ⟨hlt, haddr⟩ := h.routes.cnxs a j ((Function.update_of_ne ha ..).symm.trans hj)
        exact ⟨Nat.lt_succ_of_lt hlt, (congrArg DgramSender.cnx (hold j hlt)).trans haddr⟩
    · rcases Nat.lt_succ_iff_lt_or_eq.1 hi with hi | rfl
      · have hended : (s.senders i).ended = false := hold i hi ▸ hended
        show Function.update s.cnxs cnx _ (Function.update s.senders s.created x i).cnx = some i
        rw [hold i hi, Function.update_of_ne (hne i hi hended)]
        exact h.routes.live i hi hended
      · simp [← hx, DgramSender.fresh]
    · by_cases ha : a = cnx
      · subst ha
        rw [htable] at hr
        cases hr
      · exact h.routes.table a r j hr ((Function.update_of_ne ha ..).symm.trans hj)
    · rcases Nat.lt_succ_iff_lt_or_eq.1 hi with hi | rfl
      · show 2 * (dgramRecHdr + (Function.update s.senders s.created x i).maxRecord) ≤
          (Function.update s.senders s.created x i).capacity
        rw [hold i hi]
        exact h.routes.room i hi
      · simpa [← hx, DgramSender.fresh] using le_dgramCapacity capacity maxRecord hsize
  case pushing => exact fun i len hi => Nat.lt_succ_of_lt (h.pushing i len hi)
  case fired => exact h.fired
  case taking =>
    exact fun k r more hk => (h.taking k r more hk).spared (hspares k (h.taking k r more hk).lt)
      (Nat.le_succ _)
  case sound =>
    intro k hk hopen
    rcases Nat.lt_succ_iff_lt_or_eq.1 hk with hk | rfl
    · exact (h.sound k hk (hold k hk ▸ hopen)).spared (hspares k hk)
    · subst hx
      constructor <;> simp [DgramSender.fresh]

theorem Inv.step (h : s.Inv) {a : Act} (hok : s.Ok a) (hs : s.step a = some s') : s'.Inv := by
  cases a with
  | create kind cnx capacity maxRecord => exact h.create hok hs
  | endCnx cnx clears => exact h.endCnx hs
  | free cnx => exact h.free hs
  | releaseRing i => exact h.releaseRing hs
  | close i => exact h.close hs
  | send i len answer => exact h.sendDatagramFrame hs
  | pushRecord armed => exact h.pushRecord hok hs
  | postMark answer => exact h.postMark hs
  | other answer =>
    simp only [DgramMarks.step, Option.ite_none_right_eq_some] at hs
    obtain ⟨tx, pending, rfl, hsub, -⟩ := post_eq_some hs.2
    exact h.tx hsub pending
  | drain answer => exact h.drain hok hs
  | pop => exact h.pop hok hs
  | fire => exact h.fire hs
  | prepare cnx length => exact h.prepareDatagram hs
  | provide => exact h.provide hs

/-- No sender yet. -/
def init (txCapacity lowWater : ℕ) : DgramMarks := { txCapacity, lowWater }

theorem inv_init (txCapacity lowWater : ℕ) : (init txCapacity lowWater).Inv :=
  ⟨⟨nofun, nofun, nofun, nofun⟩, nofun, rfl, nofun, nofun⟩

end DgramMarks

end Aiopquic
