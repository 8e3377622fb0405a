import Aiopquic.DrainsBacked
import Aiopquic.RaisingDrain

/-!
# The books of a drain

`Surplus S r c` says that the reference counts `c` are those of `r` and one more for each occurrence
in `S`. What `r` can do, `c` can, with the same surplus afterwards (`Surplus.run`). `Books` is the
surplus of a drain: what it has listed for itself, and what the commands on the TX event ring hold.
-/

namespace Aiopquic

open Traced
open Steps (run run_cons_eq_some run_append)

/-! ## Exact surplus -/

namespace RefTable

variable {S S' : List ℕ} {r r' c : RefTable} {p : ℕ}

/-- `c` has the links of `r`, and beside its references exactly those listed in `S`. No context is
at `0`. -/
structure Surplus (S : List ℕ) (r c : RefTable) : Prop where
  links : c.links = r.links
  refs : ∀ p, c.refs p = r.refs p + S.count p
  null : c.refs 0 = 0

theorem Surplus.perm (h : Surplus S r c) (hcount : ∀ p, S'.count p = S.count p) : Surplus S' r c :=
  ⟨h.links, fun p => by rw [hcount, h.refs], h.null⟩

theorem Surplus.pos (h : Surplus S r c) (hp : 0 < r.refs p) : 0 < c.refs p := by
  have := h.refs p
  omega

theorem Surplus.pos_of_mem (h : Surplus S r c) (hp : p ∈ S) : 0 < c.refs p := by
  have := h.refs p
  have := List.count_pos_iff.2 hp
  omega

theorem Surplus.destroy (h : Surplus S r c) (hd : r.destroy p = some r') :
    ∃ c', c.destroy p = some c' ∧ Surplus S r' c' := by
  rcases destroy_eq_some.1 hd with ⟨hp0, rfl⟩ | ⟨hp0, hpos, rfl⟩
  · exact ⟨c, destroy_eq_some.2 (.inl ⟨hp0, rfl⟩), h⟩
  refine ⟨c.lower p, destroy_eq_some.2 (.inr ⟨hp0, h.pos hpos, rfl⟩), h.links, fun q => ?_, ?_⟩
  · have hq := h.refs q
    simp only [lower, Function.update_apply]
    split
    · subst q
      omega
    · exact hq
  · simp only [lower, Function.update_apply]
    rw [if_neg (Ne.symm hp0)]
    exact h.null

theorem Surplus.unlink (h : Surplus S r c) (link : ℕ) : Surplus S (r.unlink link) (c.unlink link) :=
  ⟨by simp only [RefTable.unlink, h.links], h.refs, h.null⟩

/-- A reference is given. -/
theorem Surplus.give (h : Surplus S r c) (hp : 0 < c.refs p) :
    ∃ c', c.act (.ref p) = some c' ∧ Surplus (p :: S) r c' := by
  have hp0 : p ≠ 0 := by
    rintro rfl
    exact absurd h.null hp.ne'
  refine ⟨c.raise p, act_ref.2 ⟨hp, rfl⟩, h.links, fun q => ?_, ?_⟩
  · have hq := h.refs q
    simp only [raise, Function.update_apply, List.count_cons]
    grind
  · simp only [raise, Function.update_apply]
    rw [if_neg (Ne.symm hp0)]
    exact h.null

/-- A surplus reference is dropped. -/
theorem Surplus.drop (h : Surplus (p :: S) r c) :
    ∃ c', c.act (.destroy p) = some c' ∧ Surplus S r c' := by
  have hpos := h.pos_of_mem List.mem_cons_self
  have hp0 : p ≠ 0 := by
    rintro rfl
    exact absurd h.null hpos.ne'
  refine ⟨c.lower p, destroy_eq_some.2 (.inr ⟨hp0, hpos, rfl⟩), h.links, fun q => ?_, ?_⟩
  · have hq := h.refs q
    rw [List.count_cons] at hq
    simp only [lower, Function.update_apply]
    grind
  · simp only [lower, Function.update_apply]
    rw [if_neg (Ne.symm hp0)]
    exact h.null

/-- What `r` can do, `c` can, with the same surplus afterwards. -/
theorem Surplus.act {a : RefOp} (h : Surplus S r c) (ha : r.act a = some r') :
    ∃ c', c.act a = some c' ∧ Surplus S r' c' := by
  cases a with
  | use q =>
    obtain ⟨hpos, rfl⟩ := act_use.1 ha
    exact ⟨c, act_use.2 ⟨h.pos hpos, rfl⟩, h⟩
  | ref q =>
    obtain ⟨hpos, rfl⟩ := act_ref.1 ha
    obtain ⟨c', hact, hc'⟩ := h.give (h.pos hpos)
    refine ⟨c', hact, hc'.links, fun p => ?_, hc'.null⟩
    have := hc'.refs p
    rw [List.count_cons] at this
    simp only [raise, Function.update_apply]
    grind
  | destroy q => exact h.destroy ha
  | destroyLink link =>
    obtain ⟨sc, hsc, hd⟩ := destroyLink_eq_some.1 ha
    obtain ⟨c', hc', hcov⟩ := (h.unlink link).destroy hd
    exact ⟨c', destroyLink_eq_some.2 ⟨sc, by rw [h.links, hsc], hc'⟩, hcov⟩
  | hold b =>
    cases ha
    exact ⟨c, rfl, h⟩
  | wild => cases ha

theorem Surplus.run {l : List RefOp} (h : Surplus S r c)
    (hr : Steps.run RefTable.act r l = some r') :
    ∃ c', Steps.run RefTable.act c l = some c' ∧ Surplus S r' c' := by
  induction l generalizing r c with
  | nil =>
    cases hr
    exact ⟨c, rfl, h⟩
  | cons a l ih =>
    obtain ⟨r₁, ha, hrest⟩ := run_cons_eq_some.1 hr
    obtain ⟨c₁, hc₁, h₁⟩ := h.act ha
    obtain ⟨c', hc', hs⟩ := ih h₁ hrest
    exact ⟨c', run_cons_eq_some.2 ⟨c₁, hc₁, hc'⟩, hs⟩

end RefTable

namespace DrainCtx

open RefTable (Surplus act)

variable {s : DrainCtx} {e : Entry} {l : List Entry} {v : CallbackLoop}
  {keeps raises : List DrainedEvent → Bool} {r r₁ c : RefTable} {D D' : List ℕ} {p : ℕ}

/-! ## The TX event ring -/

/-- The contexts that the commands on the TX event ring hold a reference to. -/
def credits (s : DrainCtx) : List ℕ := s.tx.queued.filterMap Entry.ref

/-- `spsc_ring_push` of a command adds it to the ring, or fails. -/
theorem txPush_spec (hw : s.tx.Wf) :
    (s.txPush e).2.tx.Wf ∧ SpscRing.ProducerMoves s.tx (s.txPush e).2.tx ∧
      ((s.txPush e).1 = 0 ∧ (s.txPush e).2.tx.log = s.tx.log ++ [e.withData []] ∨
        (s.txPush e).1 ≠ 0 ∧ (s.txPush e).2.tx.log = s.tx.log) := by
  have hspec := SpscRing.put_spec (e := e.withData []) (k := 0) hw
  obtain ⟨hQ, hinv⟩ := Interleave.wp_exec hspec hw fun _ => trivial
  have hmoves := Interleave.wp_exec_rel (G := SpscRing.ProducerMoves) hspec hw (fun _ => trivial)
    .refl .trans fun hstep => hstep.moves
  refine ⟨hinv, hmoves, hQ.imp (fun h => ⟨h.1, h.2.log⟩) fun h => ⟨?_, h.2.1.log⟩⟩
  rw [show (s.txPush e).1 = -1 from h.1]
  decide

/-! ## The surplus of a drain -/

/-- The references are those of `r`, those that the commands on the TX event ring hold, and those of
`D`. -/
structure Books (D : List ℕ) (s : DrainCtx) (r c : RefTable) : Prop where
  tx : s.tx.Wf
  claimed : s.tx.claimed = false
  surplus : Surplus (D ++ s.credits) r c

theorem Books.of_tx {s' : DrainCtx} (h : Books D s r c) (htx : s'.tx = s.tx) : Books D s' r c := by
  refine ⟨by rw [htx]; exact h.tx, by rw [htx]; exact h.claimed, ?_⟩
  rw [credits, htx]
  exact h.surplus

theorem Books.perm (h : Books D s r c) (hcount : ∀ p, D'.count p = D.count p) : Books D' s r c :=
  ⟨h.tx, h.claimed, h.surplus.perm fun p => by rw [List.count_append, List.count_append, hcount]⟩

theorem Books.give (h : Books D s r c) (hp : 0 < c.refs p) :
    ∃ c', c.act (.ref p) = some c' ∧ Books (p :: D) s r c' := by
  obtain ⟨c', hact, hs⟩ := h.surplus.give hp
  exact ⟨c', hact, h.tx, h.claimed, hs⟩

theorem Books.drop (h : Books (p :: D) s r c) :
    ∃ c', c.act (.destroy p) = some c' ∧ Books D s r c' := by
  obtain ⟨c', hact, hs⟩ := h.surplus.drop
  exact ⟨c', hact, h.tx, h.claimed, hs⟩

theorem Books.one {a : RefOp} (h : Books D s r c) (ha : r.act a = some r₁) :
    ∃ c', c.act a = some c' ∧ Books D s r₁ c' := by
  obtain ⟨c', hact, hs⟩ := h.surplus.act ha
  exact ⟨c', hact, h.tx, h.claimed, hs⟩

theorem Books.run {ops : List RefOp} (h : Books D s r c) (hr : run act r ops = some r₁) :
    ∃ c', run act c ops = some c' ∧ Books D s r₁ c' := by
  obtain ⟨c', hact, hs⟩ := h.surplus.run hr
  exact ⟨c', hact, h.tx, h.claimed, hs⟩

/-- A context of the list is there. -/
theorem Books.pos (h : Books (p :: D) s r c) : 0 < c.refs p := h.surplus.pos_of_mem (by simp)

/-- A command goes to the ring, with the reference that it holds. -/
theorem Books.txPush (h : Books (e.ref.toList ++ D) s r c) (hrc : (s.txPush e).1 = 0) :
    Books D (s.txPush e).2 r c := by
  obtain ⟨hw, hmoves, ⟨-, hlog⟩ | ⟨hne, -⟩⟩ := txPush_spec (e := e) h.tx
  · refine ⟨hw, hmoves.claimed.trans h.claimed, h.surplus.perm fun q => ?_⟩
    have hhead : s.tx.head ≤ s.tx.log.length := by
      rw [h.tx.length]
      exact h.tx.head_le
    have hcredit : [e.withData []].filterMap Entry.ref = e.ref.toList := by
      rw [List.filterMap_cons, show (e.withData []).ref = e.ref from rfl]
      cases e.ref with
      | none => rfl
      | some p => rfl
    rw [credits, SpscRing.queued, hlog, hmoves.head, List.drop_append_of_le_length hhead,
      List.filterMap_append, hcredit]
    simp only [credits, SpscRing.queued, List.count_append]
    omega
  · exact absurd hrc hne

/-- A command that does not go to the ring leaves the books as they are. -/
theorem Books.txPush_full (h : Books D s r c) (hrc : (s.txPush e).1 ≠ 0) :
    Books D (s.txPush e).2 r c := by
  obtain ⟨hw, hmoves, ⟨hzero, -⟩ | ⟨-, hlog⟩⟩ := txPush_spec (e := e) h.tx
  · exact absurd hzero hrc
  · refine ⟨hw, hmoves.claimed.trans h.claimed, ?_⟩
    rw [credits, SpscRing.queued, hlog, hmoves.head]
    exact h.surplus

end DrainCtx

end Aiopquic
