import Aiopquic.DgramMarks

/-!
# What becomes of owed datagram marks

The records of an open sender always have a mark owed, queued or about to be posted, or an armed
scheduler. A parked writer has armed the drain flag of its ring, so as long as nobody told it to go
on, no record was taken since, and the scheduler that was armed then is still armed.

The handover fails where a mark is owed and no send follows: `TX_EVENT_RING_DRAINED` does not post
it.
-/

namespace Aiopquic

namespace DgramMarks

/-! ## The invariant -/

/-- The mark of `i` is owed, queued, or about to be posted. -/
def Due (s : DgramMarks) (i : ℕ) : Prop :=
  (s.senders i).markOwed = true ∨ s.Marked i ∨ s.python = .mark i

/-- Python will drain a `DATAGRAM_TX_DRAINED` of `i`. -/
def Told (s : DgramMarks) (i : ℕ) : Prop := .datagramTxDrained (s.senders i).cnx i ∈ s.rx

/-- `cnxs` has every sender that has not ended, at its address, and the table has no other ring for
it. -/
structure Routes (s : DgramMarks) : Prop where
  cnxs : ∀ a j, s.cnxs a = some j → j < s.created ∧ (s.senders j).cnx = a
  live : ∀ i < s.created, (s.senders i).ended = false → s.cnxs (s.senders i).cnx = some i
  table : ∀ a r j, s.table a = some r → s.cnxs a = some j → r = j
  room : ∀ i < s.created, 2 * (dgramRecHdr + (s.senders i).maxRecord) ≤ (s.senders i).capacity

/-- What holds of an open sender: records have a mark due or the scheduler armed, and a parked
writer that has not been told still has the drain flag armed, so that no record has been taken
since. -/
structure Sound (s : DgramMarks) (i : ℕ) : Prop where
  served : (s.senders i).active = true → s.table (s.senders i).cnx = some i
  covered : (s.senders i).records ≠ [] → (s.senders i).active = true ∨ s.Due i
  waiting : (s.senders i).parked = true → ¬ s.Told i → (s.senders i).drainPending = true ∧
    (s.senders i).records ≠ [] ∧ (s.Marked i ∨ (s.senders i).active = true)
  owed : (s.senders i).markOwed = true → s.delivered ≤ (s.senders i).owedAt

/-- The worker takes from the sender's own ring, and where it is about to disarm the scheduler the
records behind the one it takes have a mark due. -/
structure Taking (s : DgramMarks) (j r : ℕ) (more : Bool) : Prop where
  lt : j < s.created
  own : r = j
  table : s.table (s.senders j).cnx = some j
  some : (s.senders j).records ≠ []
  rest : more = false → (s.senders j).records.tail ≠ [] → s.Due j

structure Inv (s : DgramMarks) : Prop where
  routes : s.Routes
  pushing : ∀ i len, s.python = .push i len → i < s.created
  fired : s.fired = s.delivered + s.rx.count .txEventRingDrained
  taking : ∀ j r more, s.worker = .providing j r more → s.Taking j r more
  sound : ∀ i < s.created, (s.senders i).Open → s.Sound i

variable {s s' : DgramMarks}

theorem setSender_senders_self (s : DgramMarks) (i : ℕ) (x : DgramSender) :
    (s.setSender i x).senders i = x := Function.update_self ..

theorem setSender_senders_of_ne (s : DgramMarks) {i k : ℕ} (h : k ≠ i) (x : DgramSender) :
    (s.setSender i x).senders k = s.senders k := Function.update_of_ne h ..

/-- `x` is a later version of the sender `y`: at its address, with its ring, and ended if `y`
has. -/
structure SameHome (x y : DgramSender) : Prop where
  cnx : x.cnx = y.cnx
  ended : x.ended = false → y.ended = false
  maxRecord : x.maxRecord = y.maxRecord
  capacity : x.capacity = y.capacity

theorem SameHome.refl (x : DgramSender) : SameHome x x := ⟨rfl, id, rfl, rfl⟩

theorem SameHome.setSender {i : ℕ} {x : DgramSender} (h : SameHome x (s.senders i)) (k : ℕ) :
    SameHome ((s.setSender i x).senders k) (s.senders k) := by
  by_cases hk : k = i
  · subst hk
    rw [setSender_senders_self]
    exact h
  · rw [setSender_senders_of_ne s hk]
    exact .refl _

theorem Routes.congr (h : s.Routes) (hhome : ∀ i, SameHome (s'.senders i) (s.senders i))
    (hcnxs : s'.cnxs = s.cnxs) (htable : s'.table = s.table) (hcreated : s'.created = s.created) :
    s'.Routes where
  cnxs := fun a j hj => by
    rw [hcreated, (hhome j).cnx]
    exact h.cnxs a j (hcnxs ▸ hj)
  live := fun i hi hended => by
    rw [hcnxs, (hhome i).cnx]
    exact h.live i (hcreated ▸ hi) ((hhome i).ended hended)
  table := fun a r j hr hj => h.table a r j (htable ▸ hr) (hcnxs ▸ hj)
  room := fun i hi => by
    rw [(hhome i).maxRecord, (hhome i).capacity]
    exact h.room i (hcreated ▸ hi)

theorem Routes.withTable (h : s.Routes) {table : ℕ → Option ℕ}
    (htable : ∀ a r j, table a = some r → s.cnxs a = some j → r = j) :
    Routes { s with table := table } :=
  ⟨h.cnxs, h.live, htable, h.room⟩

/-- What a step that leaves the sender `i` alone keeps. -/
structure Spares (s s' : DgramMarks) (i : ℕ) : Prop where
  sender : s'.senders i = s.senders i
  table : s'.table (s.senders i).cnx = s.table (s.senders i).cnx
  marked : s.Marked i → s'.Marked i
  sending : s.python = .mark i → s'.Due i
  told : s.Told i → s'.Told i
  delivered : s'.delivered = s.delivered

theorem Spares.due {i : ℕ} (k : Spares s s' i) : s.Due i → s'.Due i := by
  rintro (h | h | h)
  · exact .inl (k.sender ▸ h)
  · exact .inr (.inl (k.marked h))
  · exact k.sending h

theorem Sound.spared {i : ℕ} (h : s.Sound i) (k : Spares s s' i) : s'.Sound i where
  served := fun ha => by
    rw [k.sender] at ha ⊢
    rw [k.table]
    exact h.served ha
  covered := fun hr => by
    rw [k.sender] at hr ⊢
    exact (h.covered hr).imp_right k.due
  waiting := fun hp ht => by
    rw [k.sender] at hp ⊢
    obtain ⟨hd, hr, hm⟩ := h.waiting hp (mt k.told ht)
    exact ⟨hd, hr, hm.imp_left k.marked⟩
  owed := fun ho => by
    rw [k.sender] at ho ⊢
    rw [k.delivered]
    exact h.owed ho

/-! ### Python -/

/-- A push leaves everything but the TX event ring and its drain flag alone. -/
theorem post_eq_some {c : MarkCmd} {answer : PushAnswer} (h : s.post c answer = some s') :
    ∃ tx pending, s' = { s with tx := tx, txPending := pending } ∧ s.tx ⊆ tx ∧
      ∀ armed, answer = .posted armed → c ∈ tx := by
  cases answer with
  | posted armed =>
    simp only [post, Option.ite_none_right_eq_some, Option.some.injEq] at h
    obtain ⟨-, rfl⟩ := h
    exact ⟨_, _, rfl, List.subset_append_left .., fun _ _ => List.mem_append_right _
      List.mem_cons_self⟩
  | full =>
    simp only [post, Option.ite_none_right_eq_some, Option.some.injEq] at h
    obtain ⟨-, rfl⟩ := h
    exact ⟨_, _, rfl, List.Subset.refl _, fun _ h => nomatch h⟩

theorem spares_tx {tx : List MarkCmd} (htx : s.tx ⊆ tx) (pending : Bool) (i : ℕ) :
    Spares s { s with tx := tx, txPending := pending } i :=
  ⟨rfl, rfl, fun h => htx h, fun h => .inr (.inr h), id, rfl⟩

theorem Taking.spared {j r : ℕ} {more : Bool} (h : s.Taking j r more) (k : Spares s s' j)
    (hcreated : s.created ≤ s'.created) : s'.Taking j r more where
  lt := h.lt.trans_le hcreated
  own := h.own
  table := by
    rw [k.sender, k.table]
    exact h.table
  some := by
    rw [k.sender]
    exact h.some
  rest := fun hm hr => by
    rw [k.sender] at hr
    exact k.due (h.rest hm hr)

theorem Inv.tx (h : s.Inv) {tx : List MarkCmd} (htx : s.tx ⊆ tx) (pending : Bool) :
    Inv { s with tx := tx, txPending := pending } where
  routes := h.routes.congr (fun _ => .refl _) rfl rfl rfl
  pushing := h.pushing
  fired := h.fired
  taking := fun j r more hw => (h.taking j r more hw).spared (spares_tx htx pending j) le_rfl
  sound := fun i hi hopen => (h.sound i hi hopen).spared (spares_tx htx pending i)

/-- A step of Python on one sender, with the worker where it is. -/
theorem Inv.atSender (h : s.Inv) {i : ℕ} (x : DgramSender) {p : SendPoint}
    (hhome : SameHome x (s.senders i))
    (hpushing : ∀ k len, p = .push k len → k < s.created)
    (hsending : ∀ k, k ≠ i → s.python = .mark k → p = .mark k)
    (htaking : ∀ r more, s.Taking i r more → Taking { s.setSender i x with python := p } i r more)
    (hsound : i < s.created → x.Open → Sound { s.setSender i x with python := p } i) :
    Inv { s.setSender i x with python := p } := by
  have hspares : ∀ k, k ≠ i → Spares s { s.setSender i x with python := p } k := by
    intro k hk
    have hx : (s.setSender i x).senders k = s.senders k := setSender_senders_of_ne s hk x
    refine ⟨hx, rfl, fun hm => ?_, fun hp => .inr (.inr (hsending k hk hp)), fun ht => ?_, rfl⟩
    · show MarkCmd.mark ((s.setSender i x).senders k).cnx k ∈ s.tx
      rw [hx]
      exact hm
    · show MarkEvt.datagramTxDrained ((s.setSender i x).senders k).cnx k ∈ s.rx
      rw [hx]
      exact ht
  constructor
  case routes => exact h.routes.congr (SameHome.setSender hhome) rfl rfl rfl
  case pushing => exact hpushing
  case fired => exact h.fired
  case taking =>
    intro j r more hw
    by_cases hj : j = i
    · subst hj
      exact htaking r more (h.taking j r more hw)
    · exact (h.taking j r more hw).spared (hspares j hj) le_rfl
  case sound =>
    intro k hk hopen
    by_cases hki : k = i
    · subst hki
      exact hsound hk (by simpa using hopen)
    · have hx : (s.setSender i x).senders k = s.senders k := setSender_senders_of_ne s hki x
      exact (h.sound k hk (hx ▸ hopen)).spared (hspares k hki)

theorem Inv.repost (h : s.Inv) (hidle : s.python = .idle) {i : ℕ} {answer : PushAnswer}
    (hs : s.repost i answer = some s') : s'.Inv ∧ s'.python = .idle ∧ s'.created = s.created := by
  unfold DgramMarks.repost at hs
  by_cases howed : (s.senders i).markOwed = true
  · simp only [howed, if_true, Option.map_eq_some_iff] at hs
    obtain ⟨t, ht, rfl⟩ := hs
    obtain ⟨tx, pending, rfl, hsub, hposted⟩ := post_eq_some ht
    have hinv : Inv { s with tx := tx, txPending := pending } := h.tx hsub pending
    cases answer with
    | full => exact ⟨hinv, hidle, rfl⟩
    | posted armed =>
      have hmark : MarkCmd.mark (s.senders i).cnx i ∈ tx := hposted armed rfl
      refine ⟨?_, hidle, rfl⟩
      -- the mark that was owed is queued now
      apply hinv.atSender (i := i) { s.senders i with markOwed := false } (p := s.python)
      case hhome => exact ⟨rfl, id, rfl, rfl⟩
      case hpushing => exact h.pushing
      case hsending => exact fun k _ hk => hk
      case htaking =>
        intro r more ht
        exact
          { lt := ht.lt, own := ht.own, table := by simpa using ht.table, some := by simpa using ht.some,
            rest := fun _ _ => .inr (.inl (by simpa [Marked] using hmark)) }
      case hsound =>
        intro hi hopen
        have hsound := hinv.sound i hi hopen
        exact
          { served := by simpa using hsound.served
            covered := fun _ => .inr (.inr (.inl (by simpa [Marked] using hmark)))
            waiting := fun hp ht => by
              obtain ⟨hd, hr, -⟩ := hsound.waiting (by simpa using hp) (by simpa [Told] using ht)
              exact ⟨by simpa using hd, by simpa using hr, .inl (by simpa [Marked] using hmark)⟩
            owed := fun ho => by simp at ho }
  · simp only [howed, Bool.false_eq_true, if_false, Option.some.injEq] at hs
    subst hs
    exact ⟨h, hidle, rfl⟩

/-- Python moves on without a change to a sender. -/
theorem Inv.python (h : s.Inv) (python : SendPoint)
    (hpushing : ∀ i len, python = .push i len → i < s.created)
    (hsending : ∀ i, s.python = .mark i → s.Marked i) : Inv { s with python := python } := by
  have hspares : ∀ i, Spares s { s with python := python } i := fun i =>
    ⟨rfl, rfl, id, fun hi => .inr (.inl (hsending i hi)), id, rfl⟩
  exact
    { routes := h.routes.congr (fun _ => .refl _) rfl rfl rfl, pushing := hpushing, fired := h.fired,
      taking := fun j r more hw => (h.taking j r more hw).spared (hspares j) le_rfl,
      sound := fun i hi hopen => (h.sound i hi hopen).spared (hspares i) }

theorem Inv.sendDatagramFrame (h : s.Inv) {i len : ℕ} {answer : PushAnswer}
    (hs : s.sendDatagramFrame i len answer = some s') : s'.Inv := by
  simp only [DgramMarks.sendDatagramFrame, Option.ite_none_right_eq_some,
    Option.map_eq_some_iff] at hs
  obtain ⟨⟨hidle, hi, -, -⟩, t, ht, rfl⟩ := hs
  obtain ⟨hinv, hpy, hcreated⟩ := h.repost hidle ht
  apply hinv.python
  · rintro k len' hk
    cases hk
    rw [hcreated]
    exact hi
  · intro k hk
    rw [hpy] at hk
    cases hk

/-- A refused record finds another one in the ring. -/
theorem DgramSender.records_ne_nil_of_full {x : DgramSender} {len : ℕ}
    (hroom : 2 * (dgramRecHdr + x.maxRecord) ≤ x.capacity) (hlen : len ≤ x.maxRecord)
    (hfull : x.Full len) :
    x.records ≠ [] := by
  intro hnil
  have hused : x.used = 0 := by
    simp [DgramSender.used, hnil]
  unfold DgramSender.Full at hfull
  omega

theorem Inv.pushRecord (h : s.Inv) (hok : s.Scheduled s.python) {armed : Bool}
    (hs : s.pushRecord armed = some s') : s'.Inv := by
  unfold DgramMarks.pushRecord at hs
  split at hs
  · rename_i i len hpy
    have hi : i < s.created := h.pushing i len hpy
    have hnot : ∀ k, s.python ≠ .mark k := by simp [hpy]
    rw [hpy] at hok
    dsimp only at hs
    split at hs
    · -- too long: the call raises
      obtain rfl := Option.some.inj hs
      exact h.python .idle (fun _ _ hk => nomatch hk) fun k hk => absurd hk (hnot k)
    · rename_i hlen
      split at hs
      · -- refused: the writer parks
        rename_i hfull
        obtain rfl := Option.some.inj hs
        have hrecords := DgramSender.records_ne_nil_of_full (h.routes.room i hi)
          (not_lt.1 hlen) hfull
        apply h.atSender (i := i)
        case hhome => exact ⟨rfl, id, rfl, rfl⟩
        case hpushing => exact fun _ _ hk => nomatch hk
        case hsending => exact fun k _ hk => absurd hk (hnot k)
        case htaking =>
          intro r more ht
          exact ⟨ht.lt, ht.own, by simpa using ht.table, by simpa using ht.some, fun hm hr => by
            simpa [Due, Marked, hpy] using ht.rest hm (by simpa using hr)⟩
        case hsound =>
          intro _ hopen
          have hsound := h.sound i hi hopen
          have hdue : (s.senders i).active = true ∨ s.Marked i := by
            rcases hsound.covered hrecords with ha | ho | hm | hp
            · exact .inl ha
            · exact (hok hfull ho).symm
            · exact .inr hm
            · exact absurd hp (hnot i)
          exact
            { served := by simpa using hsound.served
              covered := fun _ => by simpa [Due, Marked] using hdue.imp_right (fun hm => Or.inr hm)
              waiting := fun _ _ => by simpa [Marked] using ⟨hrecords, hdue.symm⟩
              owed := by simpa using hsound.owed }
      · -- accepted: the mark is next
        obtain rfl := Option.some.inj hs
        apply h.atSender (i := i)
        case hhome => exact ⟨rfl, id, rfl, rfl⟩
        case hpushing => exact fun _ _ hk => nomatch hk
        case hsending => exact fun k _ hk => absurd hk (hnot k)
        case htaking =>
          intro r more ht
          exact ⟨ht.lt, ht.own, by simpa using ht.table, by simp, fun _ _ => .inr (.inr rfl)⟩
        case hsound =>
          intro _ hopen
          have hsound := h.sound i hi hopen
          exact
            { served := by simpa using hsound.served
              covered := fun _ => .inr (.inr (.inr rfl))
              waiting := fun hp ht => by
                obtain ⟨hd, -, hm⟩ := hsound.waiting (by simpa using hp) (by simpa [Told] using ht)
                simpa [hd, Marked] using hm
              owed := by simpa using hsound.owed }
  · cases hs

/-- An owed mark keeps the time from which it is owed. -/
theorem DgramSender.owe_eq (x : DgramSender) {delivered fired : ℕ} (hle : delivered ≤ fired) :
    ∃ since, x.owe fired = { x with markOwed := true, owedAt := since } ∧
      ((x.markOwed = true → delivered ≤ x.owedAt) → delivered ≤ since) := by
  unfold DgramSender.owe
  by_cases ho : x.markOwed = true
  · refine ⟨x.owedAt, ?_, fun h => h ho⟩
    rw [if_pos ho, ← ho]
  · exact ⟨fired, if_neg ho, fun _ => hle⟩

theorem Inv.postMark (h : s.Inv) {answer : PushAnswer} (hs : s.postMark answer = some s') :
    s'.Inv := by
  unfold DgramMarks.postMark at hs
  split at hs
  · rename_i i hpy
    obtain ⟨t, ht, rfl⟩ := Option.map_eq_some_iff.1 hs
    obtain ⟨tx, pending, rfl, hsub, hposted⟩ := post_eq_some ht
    have hinv : Inv { s with tx := tx, txPending := pending } := h.tx hsub pending
    have hnot : ∀ k, k ≠ i → s.python ≠ .mark k := fun k hk hp => by
      rw [hpy] at hp
      cases hp
      exact hk rfl
    cases answer with
    | posted armed =>
      apply hinv.python .idle (fun _ _ hk => nomatch hk)
      intro k hk
      obtain rfl : k = i := not_not.1 fun hne => hnot k hne hk
      exact hposted armed rfl
    | full =>
      have hle : s.delivered ≤ s.fired := by
        rw [h.fired]
        exact Nat.le_add_right ..
      obtain ⟨since, howe, hsince⟩ := DgramSender.owe_eq (s.senders i) hle
      dsimp only
      rw [howe]
      apply hinv.atSender (i := i)
      case hhome => exact ⟨rfl, id, rfl, rfl⟩
      case hpushing => exact fun _ _ hk => nomatch hk
      case hsending => exact fun k hk hp => absurd hp (hnot k hk)
      case htaking =>
        intro r more ht
        exact ⟨ht.lt, ht.own, by
          simpa using ht.table, by simpa using ht.some, fun _ _ => .inl (by simp)⟩
      case hsound =>
        intro hi hopen
        have hsound := hinv.sound i hi hopen
        exact
          { served := by simpa using hsound.served
            covered := fun _ => .inr (.inl (by simp))
            waiting := fun hp ht => by
              simpa [Marked] using hsound.waiting (by simpa using hp) (by simpa [Told] using ht)
            owed := fun _ => by simpa using hsince hsound.owed }
  · cases hs

/-- Only the sender that a `DATAGRAM_TX_DRAINED` reaches is told by it. -/
theorem told_of_cons {cnx i k : ℕ} {rx : List MarkEvt} (hrx : s.rx = .datagramTxDrained cnx i :: rx)
    (hok : s.Timely s.rx) (hopen : (s.senders k).closed = false) (hk : s.held cnx ≠ some k)
    (h : s.Told k) :
    .datagramTxDrained (s.senders k).cnx k ∈ rx := by
  rw [hrx] at hok
  have hmem : MarkEvt.datagramTxDrained (s.senders k).cnx k ∈ .datagramTxDrained cnx i :: rx :=
    hrx ▸ h
  rcases List.mem_cons.1 hmem with heq | hmem
  · cases heq
    exact absurd (hok hopen) hk
  · exact hmem

theorem Inv.dropEvent (h : s.Inv) {cnx i : ℕ} {rx : List MarkEvt}
    (hrx : s.rx = .datagramTxDrained cnx i :: rx) (hok : s.Timely s.rx)
    (hpark : ∀ k, s.held cnx = some k → (s.senders k).parked = false) :
    Inv { s with rx := rx } := by
  constructor
  case routes => exact h.routes.congr (fun _ => .refl _) rfl rfl rfl
  case pushing => exact h.pushing
  case fired =>
    have hfired := h.fired
    rw [hrx, List.count_cons_of_ne (by simp)] at hfired
    exact hfired
  case taking =>
    intro j r more hw
    obtain ⟨hlt, hown, htable, hsome, hrest⟩ := h.taking j r more hw
    exact ⟨hlt, hown, htable, hsome, hrest⟩
  case sound =>
    intro k hk hopen
    have hsound := h.sound k hk hopen
    refine ⟨hsound.served, hsound.covered, fun hp ht => ?_, hsound.owed⟩
    refine hsound.waiting hp fun htold => ?_
    by_cases hheld : s.held cnx = some k
    · exact absurd hp (by simp [hpark k hheld])
    · exact ht (told_of_cons (s := s) hrx hok hopen.1 hheld htold)

/-- The drain event of a sender is set. -/
theorem Inv.unpark (h : s.Inv) (i : ℕ) :
    Inv (s.setSender i { s.senders i with parked := false }) := by
  apply h.atSender (i := i) (p := s.python)
  case hhome => exact ⟨rfl, id, rfl, rfl⟩
  case hpushing => exact h.pushing
  case hsending => exact fun k _ hk => hk
  case htaking =>
    intro r more ht
    exact ⟨ht.lt, ht.own, by simpa using ht.table, by simpa using ht.some, fun hm hr => by
      simpa [Due, Marked] using ht.rest hm (by simpa using hr)⟩
  case hsound =>
    intro hi hopen
    have hsound := h.sound i hi hopen
    exact
      { served := by simpa using hsound.served
        covered := by simpa [Due, Marked] using hsound.covered
        waiting := fun hp => by simp at hp
        owed := by simpa using hsound.owed }

theorem Inv.drain (h : s.Inv) (hok : s.Timely s.rx) {answer : PushAnswer}
    (hs : s.drain answer = some s') : s'.Inv := by
  simp only [DgramMarks.drain, Option.ite_none_right_eq_some] at hs
  obtain ⟨hidle, hs⟩ := hs
  have hnot : ∀ k, s.python ≠ .mark k := by simp [hidle]
  split at hs
  · cases hs
  · rename_i cnx i rx hrx
    split at hs
    · rename_i hheld
      obtain rfl := Option.some.inj hs
      exact h.dropEvent hrx hok (by simp [hheld])
    · rename_i k hheld
      have hclosed : ((s.setSender k { s.senders k with parked := false }).senders i).closed =
          (s.senders i).closed := by
        by_cases hi : i = k
        · subst hi
          rw [setSender_senders_self]
        · rw [setSender_senders_of_ne s hi]
      have hinv := (h.unpark k).dropEvent hrx
        (by
          show (s.setSender k _).Timely s.rx
          rw [hrx] at hok ⊢
          intro hi
          exact hok (hclosed ▸ hi))
        (fun k' hk' => by
          obtain rfl : k = k' := Option.some.inj (hheld.symm.trans hk')
          rw [setSender_senders_self])
      exact (hinv.repost hidle hs).1
  · rename_i rx hrx
    rw [hrx] at hok
    obtain rfl := Option.some.inj hs
    have hfired := h.fired
    rw [hrx, List.count_cons_self] at hfired
    constructor
    case routes => exact h.routes.congr (fun _ => .refl _) rfl rfl rfl
    case pushing => exact h.pushing
    case fired =>
      show s.fired = s.delivered + 1 + rx.count _
      omega
    case taking =>
      intro j r more hw
      obtain ⟨hlt, hown, htable, hsome, hrest⟩ := h.taking j r more hw
      exact ⟨hlt, hown, htable, hsome, hrest⟩
    case sound =>
      intro i hi hopen
      have hsound := h.sound i hi hopen
      exact
        { served := hsound.served
          covered := hsound.covered
          waiting := fun hp ht => hsound.waiting hp fun htold =>
            ht (by simpa [Told, hrx] using htold)
          owed := fun ho => hok i hi hopen ho }

theorem Inv.close (h : s.Inv) {i : ℕ} (hs : s.close i = some s') : s'.Inv := by
  simp only [DgramMarks.close, Option.ite_none_right_eq_some, Option.some.injEq] at hs
  obtain ⟨⟨hidle, -⟩, rfl⟩ := hs
  have hinv : Inv (s.setSender i { s.senders i with closed := true, parked := false }) := by
    apply h.atSender (i := i) (p := s.python)
    case hhome => exact ⟨rfl, id, rfl, rfl⟩
    case hpushing => exact h.pushing
    case hsending => exact fun k _ hk => hk
    case htaking =>
      intro r more ht
      exact ⟨ht.lt, ht.own, by simpa using ht.table, by simpa using ht.some, fun hm hr => by
        simpa [Due, Marked] using ht.rest hm (by simpa using hr)⟩
    case hsound =>
      intro _ hopen
      cases hopen.1
  exact ⟨hinv.routes.congr (fun _ => .refl _) rfl rfl rfl, hinv.pushing, hinv.fired,
    fun j r more hw => (hinv.taking j r more hw).spared
      ⟨rfl, rfl, id, fun hp => .inr (.inr hp), id, rfl⟩ le_rfl,
    fun k hk hopen => (hinv.sound k hk hopen).spared
      ⟨rfl, rfl, id, fun hp => .inr (.inr hp), id, rfl⟩⟩

end DgramMarks

end Aiopquic
