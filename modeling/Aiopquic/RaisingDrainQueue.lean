import Aiopquic.RaisingDrainLoop

/-!
# What the entries of an RX queue hold

An event of a raw stream owns a reference to its context. An event of a WebTransport stream borrows
the context: the stream's link holds the reference, until the `LINK_RELEASE` behind all the stream's
events. `Backed` is that order, and with it a drain can handle the queue to its end (`Backed.run`).
-/

namespace Aiopquic

open Steps (run run_cons_eq_some run_append)

namespace Entry

/-- The context that a queued event holds a reference to. -/
def owner (e : Entry) : Option ℕ :=
  if e.streamCtx ≠ 0 ∧ (rxEventOwnsSc e.eventType ∨ e.eventType = .streamDestroy)
    then some e.streamCtx else none

/-- The context that an event borrows. -/
def borrows (e : Entry) : Option ℕ :=
  match e.dataBuf with
  | .borrowed sc => if e.eventType = .wtStreamLinkRelease then none else some sc
  | _ => none

/-- The link that an event gives up. -/
def releases (e : Entry) : Option ℕ :=
  match e.dataBuf with
  | .borrowed link => if e.eventType = .wtStreamLinkRelease then some link else none
  | _ => none

/-- The pointers of an event are of the kind its type says. -/
def Shaped (e : Entry) : Prop :=
  match e.dataBuf with
  | .null => True
  | .owned _ => 0 < e.dataLength ∧ e.eventType ≠ .wtStreamLinkRelease
  | .borrowed _ => e.dataLength = 0 ∧ e.owner = none

variable {e : Entry} {r r' : RefTable} {p : ℕ}

theorem borrows_of_not_borrowed (h : ∀ p, e.dataBuf ≠ .borrowed p) : e.borrows = none := by
  unfold borrows
  cases hbuf : e.dataBuf with
  | borrowed p => exact absurd hbuf (h p)
  | null => rfl
  | owned bytes => rfl

theorem releases_of_not_borrowed (h : ∀ p, e.dataBuf ≠ .borrowed p) : e.releases = none := by
  unfold releases
  cases hbuf : e.dataBuf with
  | borrowed p => exact absurd hbuf (h p)
  | null => rfl
  | owned bytes => rfl

/-- What a call leaves of an entry holds and names what the entry did. -/
theorem left_same (h : e.Shaped) :
    e.left.Shaped ∧ e.left.owner = e.owner ∧ e.left.borrows = e.borrows ∧
      e.left.releases = e.releases := by
  unfold left
  split
  · exact ⟨h, rfl, rfl, rfl⟩
  split
  · rename_i hload
    have hnot : ∀ p, e.dataBuf ≠ .borrowed p := by
      intro p hbuf
      rw [Shaped, hbuf] at h
      exact absurd h.1 hload.1.ne'
    refine ⟨trivial, rfl, ?_, ?_⟩
    · rw [borrows_of_not_borrowed hnot]
      rfl
    · rw [releases_of_not_borrowed hnot]
      rfl
  · exact ⟨h, rfl, rfl, rfl⟩

/-- `r'` is `r` without what the entry holds. -/
structure GaveUp (e : Entry) (r r' : RefTable) : Prop where
  links : ∀ k, r'.links k = if e.releases = some k then none else r.links k
  refs : ∀ p, r'.refs p + e.owner.toList.count p +
    e.releases.toList.countP (fun k => r.links k = some p) = r.refs p

theorem GaveUp.nothing (howner : e.owner = none) (hreleases : e.releases = none) :
    GaveUp e r r :=
  ⟨fun k => by simp [hreleases], fun p => by simp [howner, hreleases]⟩

theorem GaveUp.lower (howner : e.owner = some p) (hreleases : e.releases = none)
    (hpos : 0 < r.refs p) : GaveUp e r (r.lower p) := by
  refine ⟨fun k => by simp [hreleases, RefTable.lower], fun q => ?_⟩
  rw [howner, hreleases]
  simp only [RefTable.lower, Function.update_apply, Option.toList_some, List.count_singleton,
    Option.toList_none, List.countP_nil]
  grind

/-- A reference is dropped by an event that owns one. -/
theorem owned_run (hreleases : e.releases = none) (howner : e.owner = some p)
    (hpos : 0 < r.refs p) :
    ∃ r', run RefTable.act r [.destroy p] = some r' ∧ GaveUp e r r' := by
  have hp : p ≠ 0 := by
    rintro rfl
    unfold owner at howner
    split at howner
    · rename_i h
      exact h.1 (Option.some.inj howner)
    · cases howner
  refine ⟨r.lower p, ?_, .lower howner hreleases hpos⟩
  exact run_cons_eq_some.2 ⟨r.lower p, RefTable.destroy_eq_some.2 (.inr ⟨hp, hpos, rfl⟩), rfl⟩

/-- The tail of what an entry asks for: it gives up the context it owns. -/
theorem released_run (hdestroy : e.eventType ≠ .streamDestroy) (hreleases : e.releases = none)
    (hpos : ∀ p, e.owner = some p → 0 < r.refs p) :
    ∃ r', run RefTable.act r (if e.streamCtx ≠ 0 ∧ rxEventOwnsSc e.eventType
      then [.destroy e.streamCtx] else []) = some r' ∧ GaveUp e r r' := by
  by_cases howns : e.streamCtx ≠ 0 ∧ rxEventOwnsSc e.eventType
  · rw [if_pos howns]
    have howner : e.owner = some e.streamCtx := if_pos ⟨howns.1, .inl howns.2⟩
    exact owned_run hreleases howner (hpos _ howner)
  · rw [if_neg howns]
    have howner : e.owner = none :=
      if_neg fun h => howns ⟨h.1, h.2.resolve_right hdestroy⟩
    exact ⟨r, rfl, .nothing howner hreleases⟩

/-- What an entry asks for can be met where its context is there. -/
theorem refOps_run (hshape : e.Shaped) (howner : ∀ p, e.owner = some p → 0 < r.refs p)
    (hborrows : ∀ p, e.borrows = some p → 0 < r.refs p)
    (hlink : ∀ k, e.releases = some k → ∃ p, r.links k = some p ∧ p ≠ 0 ∧ 0 < r.refs p) :
    ∃ r', run RefTable.act r e.refOps = some r' ∧ GaveUp e r r' := by
  unfold refOps
  by_cases hrelease : e.eventType = .wtStreamLinkRelease
  · rw [if_pos hrelease]
    have hnone : e.owner = none := if_neg (by simp [hrelease, rxEventOwnsSc])
    cases hbuf : e.dataBuf with
    | null => exact ⟨r, rfl, .nothing hnone (releases_of_not_borrowed (by simp [hbuf]))⟩
    | owned bytes =>
      rw [Shaped, hbuf] at hshape
      exact absurd hrelease hshape.2
    | borrowed link =>
      have hreleases : e.releases = some link := by
        rw [releases, hbuf]
        exact if_pos hrelease
      obtain ⟨p, hp, hp0, hpos⟩ := hlink link hreleases
      refine ⟨(r.unlink link).lower p, run_cons_eq_some.2 ⟨_, ?_, rfl⟩, fun k => ?_, fun q => ?_⟩
      · refine RefTable.destroyLink_eq_some.2 ⟨p, hp, ?_⟩
        exact RefTable.destroy_eq_some.2 (.inr ⟨hp0, hpos, rfl⟩)
      · rw [hreleases]
        simp only [RefTable.lower, RefTable.unlink, Function.update_apply]
        grind
      · rw [hreleases, hnone]
        simp only [RefTable.lower, RefTable.unlink, Function.update_apply, Option.toList_some,
          Option.toList_none, List.count_nil, List.countP_singleton, hp, decide_eq_true_eq]
        grind
  · have hreleases : e.releases = none := by
      unfold releases
      cases e.dataBuf with
      | borrowed p => exact if_neg hrelease
      | null => rfl
      | owned bytes => rfl
    rw [if_neg hrelease]
    by_cases hwt : e.eventType = .wtStreamDestroy
    · rw [if_pos hwt]
      exact ⟨r, rfl, .nothing (if_neg (by simp [hwt, rxEventOwnsSc])) hreleases⟩
    rw [if_neg hwt]
    by_cases hdestroy : e.eventType = .streamDestroy
    · rw [if_pos hdestroy]
      by_cases hctx : e.streamCtx ≠ 0
      · rw [if_pos hctx]
        have hsome : e.owner = some e.streamCtx := if_pos ⟨hctx, .inr hdestroy⟩
        exact owned_run hreleases hsome (howner _ hsome)
      · rw [if_neg hctx]
        exact ⟨r, rfl, .nothing (if_neg fun h => hctx h.1) hreleases⟩
    rw [if_neg hdestroy]
    by_cases htx : e.eventType = .txEventRingDrained
    · rw [if_pos htx]
      exact ⟨r, rfl, .nothing (if_neg (by simp [htx, rxEventOwnsSc])) hreleases⟩
    rw [if_neg htx]
    -- a payload that is taken is the entry's own
    have htake : run RefTable.act r e.takeOps = some r := by
      unfold takeOps
      by_cases hload : 0 < e.dataLength ∧ e.dataBuf ≠ .null
      · rw [if_pos hload]
        cases hbuf : e.dataBuf with
        | borrowed p =>
          rw [Shaped, hbuf] at hshape
          exact absurd hshape.1 hload.1.ne'
        | null => rfl
        | owned bytes => rfl
      · rw [if_neg hload]
        rfl
    by_cases hsnap : e.eventType = .cnxSnapshot
    · rw [if_pos hsnap]
      exact ⟨r, htake, .nothing (if_neg (by simp [hsnap, rxEventOwnsSc])) hreleases⟩
    rw [if_neg hsnap]
    obtain ⟨r', hrun, hgave⟩ := released_run hdestroy hreleases howner
    refine ⟨r', ?_, hgave⟩
    have huse : ∀ p, 0 < r.refs p → run RefTable.act r [.use p] = some r := fun p hp =>
      run_cons_eq_some.2 ⟨r, RefTable.act_use.2 ⟨hp, rfl⟩, rfl⟩
    have hread : run RefTable.act r e.readOps = some r := by
      unfold readOps
      by_cases hload : 0 < e.dataLength ∧ e.dataBuf ≠ .null
      · rw [if_pos hload]
        exact htake
      rw [if_neg hload]
      by_cases hstream : (e.eventType = .streamData ∨ e.eventType = .streamFin) ∧ e.streamCtx ≠ 0
      · rw [if_pos hstream]
        refine huse _ (howner _ (if_pos ⟨hstream.2, .inl ?_⟩))
        rcases hstream.1 with h | h <;> rw [h] <;> rfl
      rw [if_neg hstream]
      cases hbuf : e.dataBuf with
      | null => rfl
      | owned bytes =>
        rw [Shaped, hbuf] at hshape
        exact absurd ⟨hshape.1, by simp [hbuf]⟩ hload
      | borrowed sc =>
        have hsome : e.borrows = some sc := by
          rw [borrows, hbuf]
          exact if_neg hrelease
        dsimp only
        split
        · rfl
        split
        · exact huse _ (hborrows _ hsome)
        · rfl
    rw [run_append, hread]
    exact hrun

end Entry

/-! ## The queue -/

variable {own own' : List ℕ} {links links' : ℕ → Option ℕ} {l done rest : List Entry} {e : Entry}
  {r r' : RefTable} {p k : ℕ}

/-- The links that a queue gives up. -/
def releasedBy (l : List Entry) : List ℕ := l.filterMap Entry.releases

/-- Each event of a WebTransport stream stands before the release of the stream's link, which is in
the queue once, or still to come from the worker, who has the links `own`. -/
def Backed (own : List ℕ) (links : ℕ → Option ℕ) : List Entry → Prop
  | [] => True
  | e :: l => e.Shaped ∧
      (∀ sc, e.borrows = some sc → ∃ k ∈ own ++ releasedBy l, links k = some sc) ∧
      (∀ k, e.releases = some k → links k ≠ none ∧ k ∉ own ++ releasedBy l) ∧ Backed own links l

theorem releasedBy_cons (e : Entry) (l : List Entry) :
    releasedBy (e :: l) = e.releases.toList ++ releasedBy l := by
  unfold releasedBy
  rw [List.filterMap_cons]
  cases e.releases with
  | none => rfl
  | some k => rfl

theorem releasedBy_append (l l' : List Entry) :
    releasedBy (l ++ l') = releasedBy l ++ releasedBy l' := List.filterMap_append

/-- Only the links that someone still has count. -/
theorem Backed.congr (h : Backed own links l)
    (hlinks : ∀ k ∈ own ++ releasedBy l, links' k = links k) : Backed own links' l := by
  induction l with
  | nil => trivial
  | cons e l ih =>
    obtain ⟨hshape, hborrows, hreleases, hrest⟩ := h
    rw [releasedBy_cons] at hlinks
    have hmem : ∀ k ∈ own ++ releasedBy l, links' k = links k := by
      intro k hk
      refine hlinks k ?_
      rw [List.mem_append] at hk ⊢
      exact hk.imp_right fun h => List.mem_append_right _ h
    refine ⟨hshape, fun sc hsc => ?_, fun k hk => ?_, ih hrest hmem⟩
    · obtain ⟨k, hk, hlink⟩ := hborrows sc hsc
      exact ⟨k, hk, (hmem k hk).trans hlink⟩
    · obtain ⟨hlink, hnot⟩ := hreleases k hk
      refine ⟨?_, hnot⟩
      rw [hlinks k (List.mem_append_right _ (List.mem_append_left _ (by simp [hk])))]
      exact hlink

/-- A release in the queue is of a link that is there. -/
theorem Backed.linked (h : Backed own links l) (hk : k ∈ releasedBy l) : links k ≠ none := by
  induction l with
  | nil => cases hk
  | cons e l ih =>
    obtain ⟨-, -, hreleases, hrest⟩ := h
    rw [releasedBy_cons, List.mem_append] at hk
    rcases hk with hk | hk
    · exact (hreleases k (Option.mem_toList.1 hk)).1
    · exact ih hrest hk

/-- The context that a queued event borrows has a link that comes after the event. -/
theorem Backed.borrowed {sc : ℕ} (h : Backed own links l) (hsplit : l = done ++ e :: rest)
    (hsc : e.borrows = some sc) :
    ∃ k ∈ own ++ releasedBy rest, links k = some sc := by
  induction done generalizing l with
  | nil =>
    subst hsplit
    exact h.2.1 sc hsc
  | cons _ done ih =>
    subst hsplit
    exact ih h.2.2.2 rfl

/-- An event is pushed. Its links are those that the worker has, or gives up with it. -/
theorem Backed.snoc (h : Backed own links l) (hshape : e.Shaped)
    (hown : ∀ k, k ∈ own ↔ k ∈ own' ∨ e.releases = some k)
    (hborrows : ∀ sc, e.borrows = some sc → ∃ k ∈ own', links k = some sc)
    (hreleases : ∀ k, e.releases = some k → links k ≠ none ∧ k ∉ own') :
    Backed own' links (l ++ [e]) := by
  induction l with
  | nil =>
    refine ⟨hshape, fun sc hsc => ?_, fun k hk => ?_, trivial⟩
    · obtain ⟨k, hk, hlink⟩ := hborrows sc hsc
      exact ⟨k, List.mem_append_left _ hk, hlink⟩
    · obtain ⟨hlink, hnot⟩ := hreleases k hk
      exact ⟨hlink, by simpa [releasedBy] using hnot⟩
  | cons e' l ih =>
    obtain ⟨hshape', hborrows', hreleases', hrest⟩ := h
    -- who has a link before the push has it afterwards, the worker or the queue
    have hmem : ∀ k, k ∈ own' ++ releasedBy (l ++ [e]) ↔ k ∈ own ++ releasedBy l := by
      intro k
      rw [releasedBy_append, releasedBy_cons]
      simp only [List.mem_append, hown, Option.mem_toList]
      have : k ∉ releasedBy [] := List.not_mem_nil
      tauto
    refine ⟨hshape', fun sc hsc => ?_, fun k hk => ?_, ih hrest⟩
    · obtain ⟨k, hk, hlink⟩ := hborrows' sc hsc
      exact ⟨k, (hmem k).2 hk, hlink⟩
    · obtain ⟨hlink, hnot⟩ := hreleases' k hk
      exact ⟨hlink, fun hk' => hnot ((hmem k).1 hk')⟩

/-- The references of `r` are those listed in `n`, those that the queue's events own and those of
the links. -/
def Counts (own : List ℕ) (l : List Entry) (r : RefTable) (n : List ℕ) : Prop :=
  ∀ p, r.refs p = n.count p + (l.filterMap Entry.owner).count p +
    (own ++ releasedBy l).countP (fun k => r.links k = some p)

theorem Counts.head {n : List ℕ} (h : Counts own (e :: l) r n) (p : ℕ) :
    r.refs p = n.count p + (e.owner.toList.count p + (l.filterMap Entry.owner).count p) +
      (e.releases.toList.countP (fun k => r.links k = some p) +
        (own ++ releasedBy l).countP (fun k => r.links k = some p)) := by
  rw [h p, releasedBy_cons, List.filterMap_cons]
  cases e.owner with
  | none =>
    simp only [List.countP_append, Option.toList_none, List.count_nil]
    omega
  | some q =>
    simp only [List.countP_append, Option.toList_some, List.count_cons, List.count_nil]
    omega

/-- What the first entry of a backed queue names is there. -/
theorem Backed.needs {n : List ℕ} (h : Backed own r.links (e :: l))
    (hrefs : Counts own (e :: l) r n) (hnull : r.refs 0 = 0) :
    (∀ p, e.owner = some p → 0 < r.refs p) ∧ (∀ p, e.borrows = some p → 0 < r.refs p) ∧
      ∀ k, e.releases = some k → ∃ p, r.links k = some p ∧ p ≠ 0 ∧ 0 < r.refs p := by
  obtain ⟨-, hborrows, hreleases, -⟩ := h
  refine ⟨fun p howner => ?_, fun p hsc => ?_, fun k hrel => ?_⟩
  · have := hrefs.head p
    rw [howner] at this
    simp only [Option.toList_some, List.count_singleton_self] at this
    omega
  · obtain ⟨k, hk, hlink⟩ := hborrows p hsc
    have := hrefs.head p
    have : 0 < (own ++ releasedBy l).countP (fun k => r.links k = some p) :=
      List.countP_pos_iff.2 ⟨k, hk, by simp [hlink]⟩
    omega
  · obtain ⟨p, hp⟩ := Option.ne_none_iff_exists'.1 (hreleases k hrel).1
    have hpos : 0 < r.refs p := by
      have := hrefs.head p
      rw [hrel] at this
      simp only [Option.toList_some, List.countP_singleton, hp, decide_true, if_true] at this
      omega
    refine ⟨p, hp, ?_, hpos⟩
    rintro rfl
    omega

/-- The first entry has given up what it held. -/
theorem Backed.gave {n : List ℕ} (h : Backed own r.links (e :: l))
    (hrefs : Counts own (e :: l) r n) (hnull : r.refs 0 = 0) (hgave : Entry.GaveUp e r r') :
    Backed own r'.links l ∧ Counts own l r' n ∧ r'.refs 0 = 0 ∧
      ∀ k ∈ own, r'.links k = r.links k := by
  obtain ⟨-, -, hreleases, hrest⟩ := h
  -- what is left of the queue names none of the links that are gone
  have hlinks : ∀ k ∈ own ++ releasedBy l, r'.links k = r.links k := by
    intro k hk
    rw [hgave.links]
    exact if_neg fun hrel => (hreleases k hrel).2 hk
  refine ⟨hrest.congr hlinks, fun p => ?_, ?_, fun k hk => hlinks k (List.mem_append_left _ hk)⟩
  · have hsame : (own ++ releasedBy l).countP (fun k => r'.links k = some p) =
        (own ++ releasedBy l).countP (fun k => r.links k = some p) :=
      List.countP_congr fun k hk => by simp [hlinks k hk]
    have := hgave.refs p
    have := hrefs.head p
    omega
  · have := hgave.refs 0
    omega

/-- What the entries of a backed queue ask for can be met, one after the other, and the rest is
still backed. -/
theorem Backed.run {n : List ℕ} (h : Backed own r.links (done ++ rest))
    (hrefs : Counts own (done ++ rest) r n) (hnull : r.refs 0 = 0) :
    ∃ r', Steps.run RefTable.act r (done.flatMap Entry.refOps) = some r' ∧
      Backed own r'.links rest ∧ Counts own rest r' n ∧ ∀ k ∈ own, r'.links k = r.links k := by
  induction done generalizing r with
  | nil => exact ⟨r, rfl, h, hrefs, fun _ _ => rfl⟩
  | cons e done ih =>
    obtain ⟨howner, hborrowed, hlinked⟩ := h.needs hrefs hnull
    obtain ⟨r₁, hrun, hgave⟩ := Entry.refOps_run h.1 howner hborrowed hlinked
    obtain ⟨hrest, hrefs₁, hnull₁, hown₁⟩ := h.gave hrefs hnull hgave
    obtain ⟨r', hr', hbacked, hcounts, hown⟩ := ih hrest hrefs₁ hnull₁
    refine ⟨r', ?_, hbacked, hcounts, fun k hk => (hown k hk).trans (hown₁ k hk)⟩
    rw [List.flatMap_cons, run_append, hrun]
    exact hr'

/-! ### Steps of the worker -/

/-- What a call has left of the first event is backed like the event. -/
theorem Backed.left (h : Backed own links (e :: l)) : Backed own links (e.left :: l) := by
  obtain ⟨hshape, hborrows, hreleases, hrest⟩ := h
  obtain ⟨hshape', -, hborrows', hreleases'⟩ := Entry.left_same hshape
  exact ⟨hshape', by rw [hborrows']; exact hborrows, by rw [hreleases']; exact hreleases, hrest⟩

theorem Counts.left {n : List ℕ} (hshape : e.Shaped) (h : Counts own (e :: l) r n) :
    Counts own (e.left :: l) r n := by
  obtain ⟨-, howner, -, hreleases⟩ := Entry.left_same hshape
  intro p
  rw [releasedBy_cons, List.filterMap_cons, howner, hreleases, ← releasedBy_cons,
    ← List.filterMap_cons]
  exact h p

/-- An event is pushed. What it owns and releases was the worker's. -/
theorem Counts.snoc {n n' : List ℕ} (h : Counts own l r n)
    (hmoved : ∀ p, n.count p + own.countP (fun k => r.links k = some p) =
      n'.count p + e.owner.toList.count p + (own'.countP (fun k => r.links k = some p) +
        e.releases.toList.countP (fun k => r.links k = some p))) :
    Counts own' (l ++ [e]) r n' := by
  intro p
  have hp := h p
  have hm := hmoved p
  have howner : ([e].filterMap Entry.owner) = e.owner.toList := by
    rw [List.filterMap_cons]
    cases e.owner with
    | none => rfl
    | some sc => rfl
  have hreleases : releasedBy [e] = e.releases.toList := by
    rw [releasedBy_cons]
    exact List.append_nil _
  rw [List.filterMap_append, howner, releasedBy_append, hreleases]
  simp only [List.count_append, List.countP_append] at hp ⊢
  omega

theorem Counts.raise {n : List ℕ} (h : Counts own l r n) (sc : ℕ) :
    Counts own l (r.raise sc) (sc :: n) := by
  intro p
  have hp := h p
  simp only [RefTable.raise, Function.update_apply, List.count_cons] at hp ⊢
  grind

/-- The worker has one link more. -/
theorem Backed.grow (h : Backed own links l) (hk : k ∉ releasedBy l) :
    Backed (k :: own) links l := by
  induction l with
  | nil => trivial
  | cons e l ih =>
    obtain ⟨hshape, hborrows, hreleases, hrest⟩ := h
    rw [releasedBy_cons, List.mem_append, not_or] at hk
    refine ⟨hshape, fun sc hsc => ?_, fun j hj => ?_, ih hrest hk.2⟩
    · obtain ⟨j, hj, hlink⟩ := hborrows sc hsc
      exact ⟨j, List.mem_cons_of_mem _ hj, hlink⟩
    · obtain ⟨hlink, hnot⟩ := hreleases j hj
      refine ⟨hlink, ?_⟩
      rw [List.cons_append, List.mem_cons, not_or]
      refine ⟨?_, hnot⟩
      rintro rfl
      exact hk.1 (Option.mem_toList.2 hj)

/-- A new link `k`, with its context. -/
theorem Backed.link (h : Backed own links l) (hown : ∀ j ∈ own, links j ≠ none)
    (hk : links k = none) (sc : ℕ) : Backed (k :: own) (Function.update links k (some sc)) l := by
  have hreleased : k ∉ releasedBy l := fun hmem => h.linked hmem hk
  refine (h.congr fun j hj => Function.update_of_ne ?_ _ _).grow hreleased
  rintro rfl
  rcases List.mem_append.1 hj with hj | hj
  · exact hown j hj hk
  · exact hreleased hj

end Aiopquic
