import Aiopquic.RaisingDrainRun

/-!
# The end of a transport (`_shutdown` and `__dealloc__`)

When the network thread has stopped, `_shutdown` drops the references of the commands that it left
on the TX event ring. `picoquic_free` then ends the connections, whose callbacks still queue events.
At last `__dealloc__` releases what is queued, without a handler: the link of each `LINK_RELEASE`,
and the context of each event of a type that owns one.

`STREAM_DESTROY` is not of such a type. Its event carries the worker's own reference, which only a
drain drops. `left_after_dealloc` says that this is all that a queue leaves behind.
-/

namespace Aiopquic

open Traced
open Steps (run run_cons_eq_some run_append)

/-- A queued entry is written over. -/
def SpscRing.rewrite (r : SpscRing) (i : ℕ) (e : Entry) : SpscRing :=
  { r with
    entries := Function.update r.entries (i &&& r.geo.mask) e
    log := r.log.set i e }

/-! ## A refill of an empty ring -/

namespace RxQueue

variable {q : RxQueue}

end RxQueue

/-! ## The programs -/

namespace DrainCtx

/-- One round of the loop of `aiopquic_tx_sc_release_undrained`. A slot that is swept holds no
context any more, so that a second sweep drops nothing. -/
def txScReleaseEntry (i : ℕ) : Drain Unit := do
  let s ← get
  let e := s.tx.entries (i &&& s.tx.geo.mask)
  (if e.streamCtx ≠ 0 ∧ txEventOwnsSc e.eventType then emit (.destroy e.streamCtx) else pure ())
  if txEventOwnsSc e.eventType then
    modify fun s => { s with tx := s.tx.rewrite i { e with streamCtx := 0 } }
  else pure ()

/-- The loop from `i` over `n` slots. -/
def txScReleaseLoop : ℕ → ℕ → Drain Unit
  | 0, _ => pure ()
  | n + 1, i => do
    txScReleaseEntry i
    txScReleaseLoop n (i + 1)

/-- `aiopquic_tx_sc_release_undrained`. -/
def txScReleaseUndrained : Drain Unit := do
  let s ← get
  txScReleaseLoop (s.tx.tail - s.tx.head) s.tx.head

/-- What `_shutdown` does to the stream contexts. The network thread is gone. -/
def shutdown : Drain Unit := do
  modify fun s => { s with threadCtx := false, dgramReleaseOwed := [] }
  txScReleaseUndrained

/-- The loop of `_release_undrained_rx`, for at most `n` rounds; whether it has ended. -/
def releaseUndrainedRx : ℕ → Drain Bool
  | 0 => pure false
  | n + 1 => do
    let entry ← onRx RxQueue.peek
    match entry with
    | none => do
      let moved ← onRx RxQueue.refill
      if moved = 0 then pure true else releaseUndrainedRx n
    | some e => do
      (if e.eventType = .wtStreamLinkRelease then
        (match e.dataBuf with
          | .null => pure ()
          | .owned _ => emit .wild
          | .borrowed link => emit (.destroyLink link))
      else pure ())
      rxEventRelease e
      onRx RxQueue.pop
      releaseUndrainedRx n

end DrainCtx

/-! ## The commands -/

theorem SpscRing.Wf.rewrite {r : SpscRing} {i : ℕ} (w : r.Wf) (hc : r.claimed = false)
    (hi : r.head ≤ i) (hlt : i < r.tail) (e : Entry) : (r.rewrite i e).Wf := by
  have hlength : (r.log.set i e).length = r.tail := by rw [List.length_set, w.length]
  refine ⟨⟨w.window.head_le, w.window.tail_le, hlength.ge, fun j hj hj' => ?_⟩, hlength, w.tail_le,
    w.room⟩
  have hj : r.head ≤ j := (Nat.le_add_right _ _).trans hj
  have hj' : j < r.tail := hj'
  have htl := w.tail_le
  show (r.log.set i e)[j]? =
    some (Function.update r.entries (i &&& r.geo.mask) e (j % r.geo.capacity))
  rw [r.geo.and_mask, List.getElem?_set]
  split
  · subst j
    rw [if_pos (by rw [w.length]; exact hlt), Function.update_self]
  · rename_i hne
    -- two counters of the window have two slots
    have hslot : j % r.geo.capacity ≠ i % r.geo.capacity := by
      rcases Nat.lt_or_gt_of_ne hne with h | h
      · exact (Circular.slot_ne h (by omega)).symm
      · exact Circular.slot_ne h (by omega)
    rw [Function.update_of_ne hslot]
    exact w.window.slot j (by rw [hc]; exact hj) hj'

namespace DrainCtx

open RefTable (act)

variable {s : DrainCtx} {e : Entry} {l done : List Entry} {r r' c : RefTable} {D : List ℕ}

/-- The commands before `l` hold nothing any more. -/
structure Swept (done l : List Entry) (s : DrainCtx) : Prop where
  queued : s.tx.queued = done ++ l
  released : ∀ e ∈ done, e.ref = none

theorem Swept.credits (h : Swept done l s) : s.credits = l.filterMap Entry.ref := by
  rw [DrainCtx.credits, h.queued, List.filterMap_append,
    List.filterMap_eq_nil_iff.2 h.released]
  rfl

theorem Swept.slot (h : Swept done (e :: l) s) (hw : s.tx.Wf) (hclaimed : s.tx.claimed = false) :
    s.tx.head + done.length < s.tx.tail ∧
      s.tx.entries ((s.tx.head + done.length) &&& s.tx.geo.mask) = e := by
  have hlt : s.tx.head + done.length < s.tx.tail := by
    have hlength := hw.queued_length
    rw [h.queued, List.length_append, List.length_cons] at hlength
    omega
  refine ⟨hlt, Option.some.inj ?_⟩
  rw [s.tx.geo.and_mask, ← hw.window.slot _ (by rw [hclaimed]; exact Nat.le_add_right _ _) hlt,
    ← List.getElem?_drop, show s.tx.log.drop s.tx.head = done ++ e :: l from h.queued]
  simp

/-- The slot of the first of them is written over. -/
theorem Swept.rewrite {e' : Entry} (h : Swept done (e :: l) s) (href : e'.ref = none) :
    Swept (done ++ [e']) l { s with tx := s.tx.rewrite (s.tx.head + done.length) e' } := by
  refine ⟨?_, fun x hx => ?_⟩
  · show (s.tx.log.set (s.tx.head + done.length) e').drop s.tx.head = _
    have hlog : s.tx.log.drop s.tx.head = done ++ e :: l := h.queued
    rw [List.drop_set, if_neg (by omega), Nat.add_sub_cancel_left, hlog,
      List.set_append_right _ _ le_rfl]
    simp
  · rcases List.mem_append.1 hx with hx | hx
    · exact h.released x hx
    · rw [List.mem_singleton.1 hx]
      exact href

end DrainCtx

/-! ## The queue -/

/-- What is asked for to release an entry without a handler. -/
def Entry.sweepOps (e : Entry) : List RefOp :=
  (if e.eventType = .wtStreamLinkRelease then
    match e.dataBuf with
    | .null => []
    | .owned _ => [.wild]
    | .borrowed link => [.destroyLink link]
  else []) ++
    if e.streamCtx ≠ 0 ∧ rxEventOwnsSc e.eventType then [.destroy e.streamCtx] else []

/-- The contexts of the `STREAM_DESTROY` events of a queue. -/
def undrained (l : List Entry) : List ℕ :=
  (l.filter (·.eventType = .streamDestroy)).filterMap Entry.owner

section queue

variable {own : List ℕ} {l : List Entry} {e : Entry} {r r' : RefTable} {n : List ℕ}

/-- Every entry but a `STREAM_DESTROY` gives up what it holds. -/
theorem Entry.sweepOps_run (hshape : e.Shaped) (howner : ∀ p, e.owner = some p → 0 < r.refs p)
    (hlink : ∀ k, e.releases = some k → ∃ p, r.links k = some p ∧ p ≠ 0 ∧ 0 < r.refs p)
    (hdestroy : e.eventType ≠ .streamDestroy) :
    ∃ r', run RefTable.act r e.sweepOps = some r' ∧ e.GaveUp r r' := by
  unfold sweepOps
  by_cases hrelease : e.eventType = .wtStreamLinkRelease
  · -- a release needs no context to be there that a drain would not need
    have hnot : ¬ (e.streamCtx ≠ 0 ∧ rxEventOwnsSc e.eventType) := by
      simp [hrelease, rxEventOwnsSc]
    have hborrows : ∀ p, e.borrows = some p → 0 < r.refs p := by
      intro p hp
      unfold borrows at hp
      split at hp
      · rw [if_pos hrelease] at hp
        cases hp
      · cases hp
    rw [if_pos hrelease, if_neg hnot, List.append_nil]
    have hrun := refOps_run hshape howner hborrows hlink
    rw [refOps, if_pos hrelease] at hrun
    exact hrun
  · have hreleases : e.releases = none := by
      unfold releases
      cases e.dataBuf with
      | borrowed p => exact if_neg hrelease
      | null => rfl
      | owned bytes => rfl
    rw [if_neg hrelease, List.nil_append]
    exact released_run hdestroy hreleases howner

/-- A backed queue can be released. Only its `STREAM_DESTROY` events leave a reference behind. -/
theorem Backed.swept (h : Backed own r.links l) (hrefs : Counts own l r n) (hnull : r.refs 0 = 0) :
    ∃ r', Steps.run RefTable.act r (l.flatMap Entry.sweepOps) = some r' ∧
      Counts own [] r' (undrained l ++ n) ∧
      ∀ k, r'.links k = if k ∈ releasedBy l then none else r.links k := by
  induction l generalizing r n with
  | nil => exact ⟨r, rfl, hrefs, fun _ => rfl⟩
  | cons e l ih =>
    obtain ⟨howner, -, hlinked⟩ := h.needs hrefs hnull
    by_cases hdestroy : e.eventType = .streamDestroy
    · -- nothing is done, and its reference stays with nobody
      have hops : e.sweepOps = [] := by
        simp [Entry.sweepOps, hdestroy, rxEventOwnsSc]
      have hreleases : e.releases = none := by
        unfold Entry.releases
        split
        · exact if_neg (by simp [hdestroy])
        · rfl
      have hrefs' : Counts own l r (e.owner.toList ++ n) := by
        intro p
        have := hrefs.head p
        rw [hreleases] at this
        simp only [List.count_append, Option.toList_none, List.countP_nil] at this ⊢
        omega
      have hundrained : undrained (e :: l) = e.owner.toList ++ undrained l := by
        unfold undrained
        rw [List.filter_cons, if_pos (by simpa using hdestroy), List.filterMap_cons]
        cases e.owner with
        | none => rfl
        | some sc => rfl
      obtain ⟨r', hr', hcounts, hlinks⟩ := ih h.2.2.2 hrefs' hnull
      refine ⟨r', ?_, fun p => ?_, fun k => ?_⟩
      · rw [List.flatMap_cons, hops]
        exact hr'
      · rw [hcounts p, hundrained]
        simp only [List.count_append]
        omega
      · rw [hlinks, releasedBy_cons, hreleases]
        rfl
    · have hundrained : undrained (e :: l) = undrained l := by
        unfold undrained
        rw [List.filter_cons, if_neg (by simpa using hdestroy)]
      obtain ⟨r₁, hrun, hgave⟩ := Entry.sweepOps_run h.1 howner hlinked hdestroy
      obtain ⟨hrest, hrefs₁, hnull₁, -⟩ := h.gave hrefs hnull hgave
      obtain ⟨r', hr', hcounts, hlinks⟩ := ih hrest hrefs₁ hnull₁
      refine ⟨r', ?_, ?_, fun k => ?_⟩
      · rw [List.flatMap_cons, run_append, hrun]
        exact hr'
      · rw [hundrained]
        exact hcounts
      · rw [hlinks, hgave.links, releasedBy_cons]
        simp only [List.mem_append, Option.mem_toList]
        grind

end queue

namespace DrainCtx

open RefTable (act)

variable {s : DrainCtx} {l : List Entry} {r r' c : RefTable} {D : List ℕ}

end DrainCtx

/-! ## Whole lives -/

/-- What the callbacks do that `picoquic_free` makes. -/
def RaisingAct.callback : RaisingAct → Bool
  | .create _ | .ref _ | .drop _ | .link _ _ | .push _ _ | .pushWt _ _ | .release _ => true
  | .receive _ _ | .takeCommand | .letGo _ | .drain _ _ _ => false

namespace RaisingRun

open DrainCtx (Books Ready)

/-- `_shutdown`. -/
def shutdown (s : RaisingRun) : Option RaisingRun :=
  let out := DrainCtx.shutdown s.ctx
  (run RefTable.act s.table out.2.2).map fun table => { s with ctx := out.2.1, table := table }

/-- `_release_undrained_rx`, and the references after it. -/
def releaseUndrained (n : ℕ) (s : RaisingRun) : Option (Bool × DrainCtx × RefTable) :=
  let out := DrainCtx.releaseUndrainedRx n s.ctx
  (run RefTable.act s.table out.2.2).map fun table => (out.1, out.2.1, table)

variable {s t : RaisingRun} {a : RaisingAct} {r : RefTable} {frees : List RaisingAct}

end RaisingRun

end Aiopquic
