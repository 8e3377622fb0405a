import Aiopquic.ScRefsRoute
import Mathlib.Data.List.Perm.Basic

/-!
# References in flight

Inside a step some references are held by nobody yet, or by nobody any more: `Flight` counts those
in. Every operation on a count has one lemma that says which reference it puts in flight or takes
from there, and a push leaves none in flight. What picoquic's calls hand to a stream is a command's
own context.
-/

namespace Aiopquic

open Counted

/-! ## Calls on a connection -/

/-- A list of calls hands a context to a stream. -/
def Gives (l : List Call) (streamId sc : ℕ) : Prop :=
  .markActiveStream streamId sc ∈ l ∨ .setAppStreamCtx streamId sc ∈ l

theorem Gives.cons {l : List Call} {streamId sc : ℕ} (h : Gives l streamId sc) (call : Call) :
    Gives (call :: l) streamId sc := h.imp (List.mem_cons_of_mem _) (List.mem_cons_of_mem _)

namespace ScCnx

variable (c : ScCnx) (accepts : Bool)

@[simp] theorem call_closing (call : Call) : (c.call accepts call).closing = c.closing := by
  cases call <;> simp only [ScCnx.call, attach] <;> split <;> rfl

@[simp] theorem call_released (call : Call) : (c.call accepts call).released = c.released := by
  cases call <;> simp only [ScCnx.call, attach] <;> split <;> rfl

theorem call_attached (call : Call) (streamId : ℕ) :
    (c.call accepts call).attached streamId = c.attached streamId ∨
      (c.call accepts call).attached streamId = 0 ∨
        Gives [call] streamId ((c.call accepts call).attached streamId) := by
  have hattach : ∀ i sc, (c.attach i sc).attached streamId = c.attached streamId ∨
      i = streamId ∧ (c.attach i sc).attached streamId = sc := by
    intro i sc
    by_cases hi : streamId = i
    · subst hi
      exact .inr ⟨rfl, Function.update_self ..⟩
    · exact .inl (Function.update_of_ne hi ..)
  cases call with
  | markActiveStream i sc =>
    simp only [ScCnx.call]
    split
    · rcases hattach i sc with h | ⟨rfl, h⟩
      · exact .inl h
      · exact .inr (.inr (.inl (by simp [h])))
    · exact .inl rfl
  | setAppStreamCtx i sc =>
    simp only [ScCnx.call]
    split
    · rcases hattach i sc with h | ⟨rfl, h⟩
      · exact .inl h
      · exact .inr (.inr (.inr (by simp [h])))
    · exact .inl rfl
  | resetStream i _ => exact (hattach i 0).imp_right fun h => .inl h.2
  | stopSending i _ => exact (hattach i 0).imp_right fun h => .inl h.2
  | _ => exact .inl rfl

theorem foldl_call_keeps (l : List Call) : (l.foldl (ScCnx.call accepts) c).closing = c.closing ∧
    (l.foldl (ScCnx.call accepts) c).released = c.released := by
  induction l generalizing c with
  | nil => exact ⟨rfl, rfl⟩
  | cons call l ih =>
    obtain ⟨hc, hr⟩ := ih (c.call accepts call)
    exact ⟨hc.trans (c.call_closing accepts call), hr.trans (c.call_released accepts call)⟩

/-- What is attached after some calls was attached, or is nothing, or was handed over by one of
them. -/
theorem foldl_call_attached (l : List Call) (streamId : ℕ) :
    (l.foldl (ScCnx.call accepts) c).attached streamId = c.attached streamId ∨
      (l.foldl (ScCnx.call accepts) c).attached streamId = 0 ∨
        Gives l streamId ((l.foldl (ScCnx.call accepts) c).attached streamId) := by
  induction l generalizing c with
  | nil => exact .inl rfl
  | cons call l ih =>
    rw [List.foldl_cons]
    rcases ih (c.call accepts call) with h | h | h
    · rw [h]
      rcases c.call_attached accepts call streamId with h | h | h
      · exact .inl h
      · exact .inr (.inl h)
      · refine .inr (.inr (h.imp ?_ ?_)) <;> intro hm <;>
          exact List.mem_cons.2 (.inl (List.mem_singleton.1 hm))
    · exact .inr (.inl h)
    · exact .inr (.inr (h.cons call))

end ScCnx

/-- A reset hands over no context but its own. -/
theorem resetCalls_gives {v : CnxView} {e : Entry} {streamId sc : ℕ}
    (h : Gives (resetCalls v e) streamId sc) :
    streamId = e.streamId ∧ sc = e.streamCtx ∧ e.streamCtx ≠ 0 := by
  unfold Gives resetCalls reattach at h
  split at h <;> simp at h
  rename_i hne
  simp only [not_or] at hne
  exact ⟨h.1, h.2, hne.1⟩

/-- A command hands over no context but its own. -/
theorem loopCalls_gives {v : CnxView} {e : Entry} {streamId sc : ℕ}
    (h : Gives (loopCalls v e) streamId sc) :
    streamId = e.streamId ∧ sc = e.streamCtx ∧ e.Attaches := by
  unfold Gives loopCalls at h
  split at h
  case h_1 hev =>
    split at h
    · rename_i hne
      split at h <;> simp at h
      exact ⟨h.1, h.2, hne, by simp [hev]⟩
    · simp at h
  case h_7 hev =>
    split at h
    · simp at h
    · split at h
      · split at h
        · rename_i hdef
          simp at h
          exact ⟨h.1, h.2, hdef.2.1, by simp [hev]⟩
        · obtain ⟨hst, hsc, hne⟩ := resetCalls_gives h
          exact ⟨hst, hsc, hne, by simp [hev]⟩
      · simp at h
  case h_8 hev =>
    split at h
    · unfold reattach at h
      split at h <;> simp at h
      rename_i hne
      simp only [not_or] at hne
      exact ⟨h.1, h.2, hne.1, by simp [hev]⟩
    · simp at h
  all_goals
    first
    | (split at h <;> simp at h)
    | simp at h

/-! ## References in flight -/

theorem Entry.eq_of_ref {e : Entry} {sc : ℕ} (h : e.ref = some sc) :
    sc = e.streamCtx ∧ e.streamCtx ≠ 0 := by
  simp only [Entry.ref, Option.ite_none_right_eq_some, Option.some.injEq] at h
  exact ⟨h.2.symm, h.1.1⟩

namespace ScRefs

variable {s s' : ScRefs} {l l' : List ℕ} {sc : ℕ}

/-- Every context counts its holders and the references in `l`. -/
def Flight (s : ScRefs) (l : List ℕ) : Prop :=
  Balanced word s.refs s.made fun y => s.holders y + l.count y

theorem Inv.flight (h : s.Inv) : s.Flight [] := h.balanced.congr fun _ => rfl

theorem Flight.balanced (h : s.Flight []) : Balanced word s.refs s.made s.holders :=
  h.congr fun _ => rfl

/-- A context that is held, and that can take another reference. -/
def Takes (s : ScRefs) (l : List ℕ) (sc : ℕ) : Prop :=
  0 < s.holders sc + l.count sc ∧ s.holders sc + l.count sc + 1 < word

/-- References change hands: what is held and what is in flight stay the same together. -/
theorem Flight.move (h : s.Flight l) (hrefs : s'.refs = s.refs) (hmade : s'.made = s.made)
    (hheld : ∀ y, s'.holders y + l'.count y = s.holders y + l.count y) : s'.Flight l' := by
  rw [Flight, hrefs, hmade]
  exact h.congr hheld

theorem Flight.take (h : s.Flight l) (hsc : s.Takes l sc) :
    (s.take (some sc)).Flight (sc :: l) := by
  apply Balanced.take h hsc.1 hsc.2
  intro y
  show s.holders y + (sc :: l).count y = s.holders y + l.count y + _
  rw [List.count_cons, Nat.add_assoc]
  by_cases hy : y = sc
  · simp [hy]
  · simp [hy, Ne.symm hy]

theorem Flight.takeRef (h : s.Flight l) {r : Option ℕ} (hr : ∀ sc ∈ r, s.Takes l sc) :
    (s.take r).Flight (r.toList ++ l) := by
  cases r with
  | none => exact h
  | some sc => exact h.take (hr sc rfl)

theorem Flight.drop (h : s.Flight (sc :: l)) : (s.drop (some sc)).Flight l := by
  apply Balanced.drop h
  intro y
  show s.holders y + (sc :: l).count y = s.holders y + l.count y + _
  rw [List.count_cons, Nat.add_assoc]
  by_cases hy : y = sc
  · simp [hy]
  · simp [hy, Ne.symm hy]

theorem Flight.dropRef {r : Option ℕ} (h : s.Flight (r.toList ++ l)) : (s.drop r).Flight l := by
  cases r with
  | none => exact h
  | some sc => exact Flight.drop h

theorem Flight.touch (h : s.Flight l) {r : Option ℕ}
    (hr : ∀ sc ∈ r, 0 < s.holders sc + l.count sc) :
    (s.touch r).Flight l := by
  cases r with
  | none => exact h
  | some sc => exact Balanced.touch h (hr sc rfl)

/-- Only the counts change. -/
@[simp] theorem take_holders (s : ScRefs) (r : Option ℕ) : (s.take r).toScHolders =
    s.toScHolders := by
  cases r <;> rfl

@[simp] theorem drop_holders (s : ScRefs) (r : Option ℕ) : (s.drop r).toScHolders =
    s.toScHolders := by
  cases r <;> rfl

@[simp] theorem touch_holders (s : ScRefs) (r : Option ℕ) : (s.touch r).toScHolders =
    s.toScHolders := by
  cases r <;> rfl

theorem rxPush_holders (s : ScRefs) (ev : RawEvent) :
    (s.rxPush ev).toScHolders = { s.toScHolders with rx := s.rx ++ [ev] } := by
  simp [rxPush]

theorem txPush_holders (s : ScRefs) (e : Entry) : (s.txPush e).toScHolders =
    if s.tx.length < s.txCap then { s.toScHolders with tx := s.tx ++ [e] } else s.toScHolders := by
  unfold txPush
  simp only [take_holders]
  split <;> simp

/-- Two references more fit in the count of a context that exists, and one in a new one's. -/
theorem takes_of_room (hroom : s.Room) (hle : sc ≤ s.made) (hpos : 0 < s.holders sc) :
    s.Takes [] sc := by
  have := hroom sc hle
  exact ⟨by simpa using hpos, by simpa using (by omega : s.holders sc + 1 < word)⟩

theorem Takes.ref {e : Entry} (h : s.Takes l e.streamCtx) : ∀ sc ∈ e.ref, s.Takes l sc := by
  intro sc hsc
  exact (Entry.eq_of_ref hsc).1 ▸ h

theorem Flight.le_made (h : s.Flight l) (hpos : 0 < s.holders sc + l.count sc) : sc ≤ s.made :=
  (h.exists_of_held hpos).2

/-- A queued event holds its reference. -/
theorem Flight.rxPush (h : s.Flight l) {ev : RawEvent} (hr : ∀ sc ∈ ev.ref, s.Takes l sc) :
    (s.rxPush ev).Flight l := by
  refine (h.takeRef hr).move rfl (by simp [ScRefs.rxPush]) fun y => ?_
  rw [rxPush_holders, take_holders]
  simp only [ScHolders.holders, List.filterMap_append, List.count_append]
  cases href : ev.ref <;> simp [href]
  omega

/-- A queued command holds its reference; a refused one gave it back. -/
theorem Flight.txPush (h : s.Flight l) {e : Entry} (hr : ∀ sc ∈ e.ref, s.Takes l sc) :
    (s.txPush e).Flight l := by
  have ht := h.takeRef hr
  by_cases hfits : s.tx.length < s.txCap
  · have heq : s.txPush e = { s.take e.ref with tx := (s.take e.ref).tx ++ [e] } := by
      simp only [ScRefs.txPush, take_holders, if_pos hfits]
    rw [heq]
    refine ht.move rfl rfl fun y => ?_
    simp only [take_holders, ScHolders.holders, List.filterMap_append, List.count_append]
    cases href : e.ref <;> simp [href]
    omega
  · have heq : s.txPush e = (s.take e.ref).drop e.ref := by
      simp only [ScRefs.txPush, take_holders, if_neg hfits]
    rw [heq]
    exact ht.dropRef

theorem count_filter_map (l : List Entry) (p : Entry → Bool) (y : ℕ) :
    (l.map (·.streamCtx)).count y =
      ((l.filter p).map (·.streamCtx)).count y + ((l.filter (!p ·)).map (·.streamCtx)).count y := by
  rw [← List.count_append, ← List.map_append]
  exact (((List.filter_append_perm p l).map _).count_eq y).symm

/-- An element taken out of a list is counted beside what is left. -/
theorem count_eraseIdx {k : ℕ} {α : Type} {a : α} {xs : List α} (f : α → ℕ) (ha : xs[k]? = some a)
    (y : ℕ) :
    (xs.map f).count y = ((xs.eraseIdx k).map f).count y + [f a].count y := by
  obtain ⟨hk, rfl⟩ := List.getElem?_eq_some_iff.1 ha
  rw [← ((List.getElem_cons_eraseIdx_perm hk).map f).count_eq y, List.map_cons, List.count_cons,
    List.count_cons,
    List.count_nil, Nat.zero_add]

/-- References of a list are given back. -/
theorem Flight.dropAll {k : List ℕ} (h : s.Flight (k ++ l)) :
    Flight { s with refs := Counted.dropAll word s.refs k } l := by
  apply Balanced.dropAll h
  intro y
  show s.holders y + (k ++ l).count y = s.holders y + l.count y + k.count y
  rw [List.count_append]
  omega

/-! ## Inside a step -/

/-- The invariant inside a step of a running transport, with the references of `l` in flight. -/
structure Midway (s : ScRefs) (l : List ℕ) : Prop where
  flight : s.Flight l
  phase : s.phase = .running
  python : s.toScHolders.Python
  running : s.toScHolders.Running

theorem Inv.midway (h : s.Inv) (hphase : s.phase = .running) : s.Midway [] :=
  ⟨h.flight, hphase, h.python (by simp [hphase]), h.running hphase⟩

namespace Midway

theorem inv (h : s.Midway []) : s.Inv := .of_running h.flight.balanced h.python h.running

/-- The counts changed, and nothing else. -/
theorem of_holders (h : s.Midway l) (hb : s'.Flight l') (hsame : s'.toScHolders = s.toScHolders) :
    s'.Midway l' := by
  constructor
  · exact hb
  all_goals rw [hsame]
  · exact h.phase
  · exact h.python
  · exact h.running

theorem take (h : s.Midway l) (hsc : s.Takes l sc) : (s.take (some sc)).Midway (sc :: l) :=
  h.of_holders (h.flight.take hsc) (take_holders s _)

theorem drop (h : s.Midway (sc :: l)) : (s.drop (some sc)).Midway l :=
  h.of_holders h.flight.drop (drop_holders s _)

theorem dropRef {r : Option ℕ} (h : s.Midway (r.toList ++ l)) : (s.drop r).Midway l :=
  h.of_holders h.flight.dropRef (drop_holders s r)

theorem touch (h : s.Midway l) {r : Option ℕ} (hr : ∀ sc ∈ r, 0 < s.holders sc + l.count sc) :
    (s.touch r).Midway l :=
  h.of_holders (h.flight.touch hr) (touch_holders s r)

end Midway

/-! ## Steps that only use, make or queue -/

/-- The counts changed, and nothing else. -/
theorem Inv.of_flight (h : s.Inv) (hb : s'.Flight []) (hsame : s'.toScHolders = s.toScHolders) :
    s'.Inv := by
  refine ⟨hb.balanced, ?_, ?_⟩
  · rw [hsame]
    exact h.python
  · rw [hsame]
    exact h.running

theorem Inv.touch (h : s.Inv) {r : Option ℕ} (hr : ∀ sc ∈ r, 0 < s.holders sc) : (s.touch r).Inv :=
  h.of_flight (h.flight.touch fun sc hsc => by simpa using hr sc hsc) (touch_holders s r)

/-- A new context has one holder, its stream. -/
theorem Inv.create (h : s.Inv) (home : ℕ × ℕ) : (s.create home).Inv := by
  refine ⟨?_, fun hphase => (h.python hphase).withCreated home, fun hphase => ?_⟩
  swap
  · obtain ⟨hp, hr⟩ := h.facts hphase
    exact hr.withCreated hp h.fresh home
  apply h.balanced.make (by norm_num [word])
  intro y
  have hfresh : s.made + 1 ∉ s.lifetime := by
    intro hmem
    have := ScHolders.holders_pos_of_lifetime hmem
    have := h.fresh
    omega
  show (s.toScHolders.withCreated home).holders y = _
  by_cases hy : y = s.made + 1
  · subst hy
    simp only [ScHolders.holders, ScHolders.withCreated, Finset.mem_insert, true_or, if_true,
      hfresh, if_false]
    omega
  · simp only [ScHolders.holders, ScHolders.withCreated, Finset.mem_insert, hy, false_or, if_false,
      Nat.add_zero]

theorem create_holders_made (h : s.Inv) (home : ℕ × ℕ) :
    (s.create home).holders (s.made + 1) = 1 := by
  have hfresh := h.fresh
  rw [ScHolders.holders] at hfresh
  show (s.toScHolders.withCreated home).holders (s.made + 1) = 1
  simp only [ScHolders.holders, ScHolders.withCreated, Finset.mem_insert, true_or, if_true]
  omega

/-- A command is queued, with a reference to its context, or refused. -/
theorem Inv.txPush (h : s.Inv) {e : Entry} (htakes : ∀ sc ∈ e.ref, s.Takes [] sc)
    (hfits : s.phase = .running → e.Attaches → s.Fits e) : (s.txPush e).Inv := by
  refine ⟨(h.flight.txPush htakes).balanced, ?_, ?_⟩
  · rw [txPush_holders]
    split
    · exact fun hphase => { h.python hphase with }
    · exact h.python
  · rw [txPush_holders]
    split
    · intro hphase
      refine (h.running hphase).setTx _ fun f hf ha => ?_
      rcases List.mem_append.1 hf with hf | hf
      · exact .inl hf
      · rw [List.mem_singleton.1 hf] at ha ⊢
        exact .inr (hfits hphase ha)
    · exact h.running

end ScRefs

end Aiopquic
