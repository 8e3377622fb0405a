import Aiopquic.DualStack

/-!
# Every connection on its stack

A router that has taken some of the queued events has, for each address, what the last announcement
there said, or nothing once a close came after it. `View` is that, said of the events alone, since
what the router forgets depends on which handlers raise. The events of a connection are routed by
what the view has at its address, and addresses of live connections are distinct.
-/

namespace Aiopquic

namespace DualStack

/-- The stack of a connection, once it has one. -/
def stack (s : DualStack) (i : ℕ) : Stack := if (s.cnx i).callback = .wt then .h3 else .raw

/-- All that was queued. -/
def queued (s : DualStack) : List (ℕ × RawEvent) := s.routed.map Prod.fst ++ s.rx

/-- No connection before `i` was announced at its address. -/
def Fresh (s : DualStack) (i : ℕ) : Prop :=
  ∀ j < i, (s.cnx j).ptr = (s.cnx i).ptr → (s.cnx j).told = false

instance (s : DualStack) : DecidablePred s.Fresh := fun i =>
  inferInstanceAs (Decidable (∀ j < i, _ → _))

/-- The router can know where an event of connection `i` goes. -/
def Known (s : DualStack) (i : ℕ) (ev : RawEvent) : Prop :=
  ev.cnxPtr = 0 ∨ (s.cnx i).told = true ∨
    s.Fresh i ∧ (EventType.wtSessionReady.code ≤ ev.evtType.code ↔ s.stack i = .h3)

/-- Each connection is given to one stack, by its ALPN. If it was announced, the announcement comes
once, ahead of all its events. Every event that is not an announcement goes to the stack of its
connection, if that was announced, or if no other one was at its address and the type tells the
stack. -/
structure Dispatched (s : DualStack) : Prop where
  chosen : ∀ i < s.made, (s.cnx i).callback ≠ .dispatch → ∃ alpn, (s.cnx i).alpn = some alpn ∧
    (s.stack i = .h3 ↔ s.dualWtParams ∧ alpn = "h3")
  unchosen : ∀ i, (s.cnx i).callback = .dispatch → ∀ e ∈ s.queued, e.1 ≠ i
  ahead : ∀ i, (s.cnx i).told = true → ∃ e rest,
    s.queued.filter (fun e => e.1 = i) = e :: rest ∧ e.2.evtType = .cnxStack ∧
      ∀ e ∈ rest, e.2.evtType ≠ .cnxStack
  untold : ∀ i, (s.cnx i).told = false → ∀ e ∈ s.queued, e.1 = i → e.2.evtType ≠ .cnxStack
  own : ∀ d ∈ s.routed, d.1.2.evtType ≠ .cnxStack → s.Known d.1.1 d.1.2 →
    d.2 = some (s.stack d.1.1)

/-! ## What the events say of an address -/

/-- The last announcement at an address, and whether a close came after it. -/
abbrev View := ℕ → Option (Bool × Bool)

/-- The view after an event. -/
def see (v : View) (ev : RawEvent) : View :=
  if ev.cnxPtr = 0 then v
  else if ev.evtType = .cnxStack then Function.update v ev.cnxPtr (some (ev.isFin ≠ 0, false))
  else if ev.isClose then Function.update v ev.cnxPtr ((v ev.cnxPtr).map fun p => (p.1, true))
  else v

def seeAll (v : View) (l : List (ℕ × RawEvent)) : View := l.foldl (fun v e => see v e.2) v

/-- The router has the view's announcements, less some that a close came after. -/
def Agrees (r : DualRouter) (v : View) : Prop :=
  ∀ p, r.isH3 p = (v p).map Prod.fst ∨ r.isH3 p = none ∧ ∃ b, v p = some (b, true)

section

variable {r : DualRouter} {v : View} {ev : RawEvent} {s : DualStack} {i : ℕ} {p : ℕ}
  {l l' : List (ℕ × RawEvent)}

@[simp] theorem seeAll_nil : seeAll v [] = v := rfl

@[simp] theorem seeAll_cons {e : ℕ × RawEvent} : seeAll v (e :: l) = seeAll (see v e.2) l := rfl

theorem seeAll_append : seeAll v (l ++ l') = seeAll (seeAll v l) l' := List.foldl_append

theorem see_ne (hp : p ≠ ev.cnxPtr) : see v ev p = v p := by
  unfold see
  split
  · rfl
  split
  · rw [Function.update_of_ne hp]
  split
  · rw [Function.update_of_ne hp]
  · rfl

theorem see_zero (h : ev.cnxPtr = 0) : see v ev = v := if_pos h

theorem see_cnxStack (h0 : ev.cnxPtr ≠ 0) (h : ev.evtType = .cnxStack) :
    see v ev = Function.update v ev.cnxPtr (some (ev.isFin ≠ 0, false)) := by
  rw [see, if_neg h0, if_pos h]

theorem see_close (h0 : ev.cnxPtr ≠ 0) (h : ev.evtType ≠ .cnxStack) (hc : ev.isClose = true) :
    see v ev = Function.update v ev.cnxPtr ((v ev.cnxPtr).map fun p => (p.1, true)) := by
  rw [see, if_neg h0, if_neg h, if_pos hc]

theorem see_other (h : ev.evtType ≠ .cnxStack) (hc : ev.isClose = false) : see v ev = v := by
  unfold see
  rw [if_neg h]
  split
  · rfl
  · rw [if_neg (by simp [hc])]

/-- A router that agrees with a view still does after an event. -/
theorem Agrees.routeEvent (h : Agrees r v) (ev : RawEvent) (raises : Bool) :
    Agrees (r.routeEvent ev raises).1 (see v ev) := by
  intro p
  unfold DualRouter.routeEvent
  by_cases h0 : ev.cnxPtr = 0
  · rw [if_pos h0, see_zero h0]
    exact h p
  rw [if_neg h0]
  by_cases hs : ev.evtType = .cnxStack
  · rw [if_pos hs, see_cnxStack h0 hs]
    by_cases hp : p = ev.cnxPtr
    · subst hp
      simp
    · rw [Function.update_of_ne hp]
      simp only [Function.update_of_ne hp]
      exact h p
  rw [if_neg hs]
  cases hc : ev.isClose with
  | false =>
    rw [see_other hs hc]
    simpa [hc] using h p
  | true =>
    rw [see_close h0 hs hc]
    by_cases hp : p = ev.cnxPtr
    · subst hp
      rw [Function.update_self]
      cases raises with
      | false =>
        simp only [Bool.false_eq_true, not_false_eq_true, and_self, if_true, Function.update_self]
        cases v ev.cnxPtr with
        | none => exact .inl rfl
        | some q => exact .inr (by simp)
      | true =>
        simp only [not_true_eq_false, and_false, if_false]
        rcases h ev.cnxPtr with he | ⟨he, b, hb⟩
        · left
          rw [he, Option.map_map]
          rfl
        · exact .inr ⟨he, b, by rw [hb]; rfl⟩
    · rw [Function.update_of_ne hp]
      cases raises with
      | false =>
        simp only [Bool.false_eq_true, not_false_eq_true, and_self, if_true,
          Function.update_of_ne hp]
        exact h p
      | true => simpa using h p

/-! ## Where the events of a connection stand -/

/-- What the view has at the address of connection `i`. -/
def Seen (s : DualStack) (v : View) (i : ℕ) : Prop :=
  if (s.cnx i).told then
    v (s.cnx i).ptr = some (decide (s.stack i = .h3), false) ∨
      s.stack i = .raw ∧ v (s.cnx i).ptr = some (false, true)
  else s.Fresh i → v (s.cnx i).ptr = none

/-- An event that connection `i` may queue on its stack. -/
def Proper (s : DualStack) (i : ℕ) (ev : RawEvent) : Prop :=
  ev.evtType ≠ .cnxStack ∧ (ev.cnxPtr = 0 ∧ s.stack i = .h3 ∨
    ev.cnxPtr ≠ 0 ∧ ev.cnxPtr = (s.cnx i).ptr ∧
      if s.stack i = .h3 then ev.isClose = false
      else ev.evtType.code < EventType.wtSessionReady.code)

/-- Every event in the list is one of a connection with a stack, and what the events ahead of it say
of its address is right. -/
def Placed (s : DualStack) : View → List (ℕ × RawEvent) → Prop
  | _, [] => True
  | v, e :: l =>
    (e.2.evtType ≠ .cnxStack →
      (s.cnx e.1).callback ≠ .dispatch ∧ s.Proper e.1 e.2 ∧
        (e.2.cnxPtr ≠ 0 → s.Seen v e.1)) ∧ s.Placed (see v e.2) l

theorem placed_append : s.Placed v (l ++ l') ↔ s.Placed v l ∧ s.Placed (seeAll v l) l' := by
  induction l generalizing v with
  | nil => exact ⟨fun h => ⟨trivial, h⟩, fun h => h.2⟩
  | cons e l ih =>
    rw [List.cons_append, Placed, Placed, ih, and_assoc]
    rfl

/-- An event that the view is right about goes to its connection's stack, if it can be known. -/
theorem Seen.routeEvent (h : ev.cnxPtr ≠ 0 → s.Seen v i) (hr : Agrees r v) (hev : s.Proper i ev)
    (hk : s.Known i ev) (raises : Bool) : (r.routeEvent ev raises).2 = some (s.stack i) := by
  obtain ⟨hs, ⟨h0, hh3⟩ | ⟨h0, hptr, htype⟩⟩ := hev
  · rw [DualRouter.routeEvent, if_pos h0, hh3]
  have hseen := h h0
  have hat := hr ev.cnxPtr
  rw [Seen, ← hptr] at hseen
  rw [DualRouter.routeEvent, if_neg h0, if_neg hs]
  -- the view settles it, or the type does
  suffices hb : (r.isH3 ev.cnxPtr).getD
      (decide (EventType.wtSessionReady.code ≤ ev.evtType.code)) = decide (s.stack i = .h3) by
    rw [hb]
    cases s.stack i <;> rfl
  have hraw : s.stack i = .raw →
      decide (EventType.wtSessionReady.code ≤ ev.evtType.code) = false := by
    intro hraw
    rw [hraw, if_neg (by decide)] at htype
    exact decide_eq_false (by omega)
  cases ht : (s.cnx i).told with
  | true =>
    rw [ht, if_pos rfl] at hseen
    rcases hseen with hv | ⟨hst, hv⟩
    · rw [hv] at hat
      rcases hat with hat | ⟨-, b, hb⟩
      · rw [hat]
        rfl
      · cases hb
    · rw [hv] at hat
      rw [hraw hst, hst]
      rcases hat with hat | ⟨hat, -⟩
      · rw [hat]
        rfl
      · rw [hat]
        rfl
  | false =>
    rw [ht, if_neg (by decide)] at hseen
    rcases hk with hz | htold | ⟨hfresh, htype⟩
    · exact absurd hz h0
    · rw [ht] at htold
      cases htold
    · rw [hseen hfresh] at hat
      rcases hat with hat | ⟨hat, -⟩
      · rw [hat]
        exact decide_eq_decide.2 htype
      · rw [hat]
        exact decide_eq_decide.2 htype

/-- The connections that have a stack are as they were, and no address of theirs was announced
by a connection ahead of them since. -/
structure Kept (s t : DualStack) (i : ℕ) : Prop where
  callback : (t.cnx i).callback = (s.cnx i).callback
  ptr : (t.cnx i).ptr = (s.cnx i).ptr
  told : (t.cnx i).told = (s.cnx i).told
  fresh : t.Fresh i ↔ s.Fresh i

variable {t : DualStack}

theorem Kept.stack (h : Kept s t i) : t.stack i = s.stack i := by
  rw [DualStack.stack, DualStack.stack, h.callback]

theorem Kept.seen (h : Kept s t i) : t.Seen v i ↔ s.Seen v i := by
  rw [Seen, Seen, h.told, h.ptr, h.stack, h.fresh]

theorem Kept.proper (h : Kept s t i) : t.Proper i ev ↔ s.Proper i ev := by
  rw [Proper, Proper, h.ptr, h.stack]

theorem Kept.known (h : Kept s t i) : t.Known i ev ↔ s.Known i ev := by
  rw [Known, Known, h.told, h.stack, h.fresh]

theorem Placed.kept (h : s.Placed v l) (hk : ∀ i, (s.cnx i).callback ≠ .dispatch → Kept s t i) :
    t.Placed v l := by
  induction l generalizing v with
  | nil => trivial
  | cons e l ih =>
    refine ⟨fun hev => ?_, ih h.2⟩
    obtain ⟨hcb, hproper, hseen⟩ := h.1 hev
    have hke := hk e.1 hcb
    exact ⟨hke.callback.trans_ne hcb, hke.proper.2 hproper, fun h0 => hke.seen.2 (hseen h0)⟩

/-! ## The invariant -/

structure Inv (s : DualStack) : Prop where
  later : ∀ i, s.made ≤ i → (s.cnx i).callback = .dispatch ∧ (s.cnx i).told = false
  told : ∀ i, (s.cnx i).told = true → (s.cnx i).callback ≠ .dispatch
  ptr : ∀ i < s.made, (s.cnx i).ptr ≠ 0
  ordered : ∀ i j, i < j → j < s.made → (s.cnx i).ptr = (s.cnx j).ptr → (s.cnx i).freed = true
  agrees : Agrees s.router (seeAll (fun _ => none) (s.routed.map Prod.fst))
  placed : s.Placed (seeAll (fun _ => none) (s.routed.map Prod.fst)) s.rx
  seen : ∀ i < s.made, (s.cnx i).freed = false → (s.cnx i).callback ≠ .dispatch →
    s.Seen (seeAll (fun _ => none) s.queued) i
  sourced : ∀ p, seeAll (fun _ => none) s.queued p ≠ none →
    ∃ i, (s.cnx i).told = true ∧ (s.cnx i).ptr = p
  dispatched : s.Dispatched

/-- Two live connections have different addresses. -/
theorem Inv.ptr_ne (h : s.Inv) {j : ℕ} (hi : i < s.made) (hj : j < s.made) (hne : i ≠ j)
    (hif : (s.cnx i).freed = false) (hjf : (s.cnx j).freed = false) :
    (s.cnx i).ptr ≠ (s.cnx j).ptr := by
  intro heq
  rcases Nat.lt_or_gt_of_ne hne with hlt | hlt
  · have := h.ordered i j hlt hj heq
    simp [hif] at this
  · have := h.ordered j i hlt hi heq.symm
    simp [hjf] at this

theorem Inv.lt (h : s.Inv) (hcb : (s.cnx i).callback ≠ .dispatch) : i < s.made := by
  by_contra hle
  exact hcb (h.later i (Nat.le_of_not_lt hle)).1

theorem Inv.init (dualWtParams : Bool) : Inv { dualWtParams } where
  later _ _ := ⟨rfl, rfl⟩
  told i h := by cases h
  ptr i h := absurd h (Nat.not_lt_zero i)
  ordered i j _ h := absurd h (Nat.not_lt_zero j)
  agrees _ := .inl rfl
  placed := trivial
  seen i h := absurd h (Nat.not_lt_zero i)
  sourced p h := absurd rfl h
  dispatched :=
    { chosen := fun i h => absurd h (Nat.not_lt_zero i)
      unchosen := fun i _ e he => absurd he (List.not_mem_nil)
      ahead := fun i h => by cases h
      untold := fun i _ e he => absurd he (List.not_mem_nil)
      own := fun d hd => absurd hd (List.not_mem_nil) }

/-- The router takes an event. -/
theorem Inv.route (h : s.Inv) (raises : Bool) : (s.route raises).Inv := by
  unfold DualStack.route
  cases hrx : s.rx with
  | nil => exact h
  | cons e rest =>
    have hplaced := h.placed
    rw [hrx] at hplaced
    set t : DualStack :=
      { s with
        rx := rest
        router := (s.router.routeEvent e.2 raises).1
        routed := s.routed ++ [(e, (s.router.routeEvent e.2 raises).2)] } with ht
    have hkept : ∀ i, Kept s t i := fun i => ⟨rfl, rfl, rfl, Iff.rfl⟩
    have hqueued : t.queued = s.queued := by
      rw [queued, queued, hrx]
      simp [ht]
    have hview : seeAll (fun _ => none) (t.routed.map Prod.fst) =
        see (seeAll (fun _ => none) (s.routed.map Prod.fst)) e.2 := by
      simp [ht, seeAll_append]
    refine ⟨h.later, h.told, h.ptr, h.ordered, ?_, ?_, ?_, ?_, ?_⟩
    · rw [hview]
      exact h.agrees.routeEvent e.2 raises
    · rw [hview]
      exact hplaced.2.kept fun i _ => hkept i
    · rw [hqueued]
      exact fun i hi hf hcb => (hkept i).seen.2 (h.seen i hi hf hcb)
    · rw [hqueued]
      exact h.sourced
    · refine ⟨h.dispatched.chosen, ?_, ?_, ?_, fun d hd hev hk => ?_⟩
      · rw [hqueued]
        exact h.dispatched.unchosen
      · rw [hqueued]
        exact h.dispatched.ahead
      · rw [hqueued]
        exact h.dispatched.untold
      · rcases List.mem_append.1 hd with hd | hd
        · exact h.dispatched.own d hd hev hk
        · rw [List.mem_singleton] at hd
          subst hd
          obtain ⟨-, hproper, hseen⟩ := hplaced.1 hev
          exact Seen.routeEvent hseen h.agrees hproper hk raises

/-- A view has nothing at an address where it had nothing before an event of a stack. -/
theorem see_ne_none (h : ev.evtType ≠ .cnxStack) (hp : see v ev p ≠ none) : v p ≠ none := by
  cases hc : ev.isClose with
  | false =>
    rw [see_other h hc] at hp
    exact hp
  | true =>
    by_cases h0 : ev.cnxPtr = 0
    · rw [see_zero h0] at hp
      exact hp
    rw [see_close h0 h hc] at hp
    by_cases hpe : p = ev.cnxPtr
    · subst hpe
      rw [Function.update_self] at hp
      exact fun hn => hp (by rw [hn]; rfl)
    · rw [Function.update_of_ne hpe] at hp
      exact hp

/-- What is said of a connection stays right when one of its own events is queued. -/
theorem Seen.see_self (h : s.Seen v i) (hev : s.Proper i ev) : s.Seen (see v ev) i := by
  obtain ⟨hs, ⟨h0, -⟩ | ⟨h0, hptr, htype⟩⟩ := hev
  · rw [see_zero h0]
    exact h
  cases hc : ev.isClose with
  | false =>
    rw [see_other hs hc]
    exact h
  | true =>
    have hraw : s.stack i = .raw := by
      cases hst : s.stack i with
      | raw => rfl
      | h3 =>
        rw [hst, if_pos rfl, hc] at htype
        cases htype
    rw [see_close h0 hs hc, hptr]
    unfold Seen at h ⊢
    rw [Function.update_self]
    split at h
    · rename_i ht
      rw [if_pos ht]
      refine .inr ⟨hraw, ?_⟩
      rcases h with h | ⟨-, h⟩
      · rw [h, hraw]
        rfl
      · rw [h]
        rfl
    · rename_i ht
      rw [if_neg ht]
      intro hf
      rw [h hf]
      rfl

theorem Seen.see_ne (h : s.Seen v i) (hp : (s.cnx i).ptr ≠ ev.cnxPtr) : s.Seen (see v ev) i := by
  rw [Seen, DualStack.see_ne hp]
  exact h

theorem queued_push {evs : List RawEvent} :
    (s.push i evs).queued = s.queued ++ evs.map fun ev => (i, ev) :=
  (List.append_assoc _ _ _).symm

/-- A connection queues an event on its stack. -/
theorem Inv.push_one (h : s.Inv) (hcb : (s.cnx i).callback ≠ .dispatch) (hev : s.Proper i ev)
    (hlive : ev.cnxPtr ≠ 0 → (s.cnx i).freed = false) : (s.push i [ev]).Inv := by
  have hi := h.lt hcb
  have hkept : ∀ j, Kept s (s.push i [ev]) j := fun j => ⟨rfl, rfl, rfl, Iff.rfl⟩
  have hq : (s.push i [ev]).queued = s.queued ++ [(i, ev)] := queued_push
  have hview : seeAll (fun _ => none) (s.push i [ev]).queued =
      see (seeAll (fun _ => none) s.queued) ev := by
    rw [hq, seeAll_append, seeAll_cons, seeAll_nil]
  refine ⟨h.later, h.told, h.ptr, h.ordered, h.agrees, ?_, fun j hj hf hjcb => ?_, fun p hp => ?_,
    ?_⟩
  · have hlast : s.Placed (seeAll (seeAll (fun _ => none) (s.routed.map Prod.fst)) s.rx)
        [(i, ev)] := by
      refine ⟨fun _ => ⟨hcb, hev, fun h0 => ?_⟩, trivial⟩
      rw [← seeAll_append]
      exact h.seen i hi (hlive h0) hcb
    exact (placed_append.2 ⟨h.placed, hlast⟩).kept fun j _ => hkept j
  · rw [hview, (hkept j).seen]
    have hseen := h.seen j hj hf hjcb
    by_cases hji : j = i
    · subst hji
      exact hseen.see_self hev
    · obtain ⟨-, ⟨h0, -⟩ | ⟨h0, hptr, -⟩⟩ := hev
      · rw [see_zero h0]
        exact hseen
      · refine hseen.see_ne ?_
        rw [hptr]
        exact h.ptr_ne hj hi hji hf (hlive h0)
  · rw [hview] at hp
    exact h.sourced p (see_ne_none hev.1 hp)
  · refine ⟨h.dispatched.chosen, fun j hj e he => ?_, fun j hj => ?_, fun j hj e he => ?_,
      h.dispatched.own⟩
    · rw [hq, List.mem_append, List.mem_singleton] at he
      rcases he with he | rfl
      · exact h.dispatched.unchosen j hj e he
      · rintro rfl
        exact hcb hj
    · obtain ⟨e, rest, hfilter, he, hrest⟩ := h.dispatched.ahead j hj
      refine ⟨e, rest ++ [(i, ev)].filter fun e => e.1 = j, ?_, he, fun x hx => ?_⟩
      · rw [hq, List.filter_append, hfilter, List.cons_append]
      · rcases List.mem_append.1 hx with hx | hx
        · exact hrest x hx
        · rw [List.mem_singleton.1 (List.mem_of_mem_filter hx)]
          exact hev.1
    · rw [hq, List.mem_append, List.mem_singleton] at he
      rcases he with he | rfl
      · exact h.dispatched.untold j hj e he
      · exact fun _ => hev.1

/-- A connection queues events on its stack. -/
theorem Inv.push (h : s.Inv) (hcb : (s.cnx i).callback ≠ .dispatch) {evs : List RawEvent}
    (hevs : ∀ ev ∈ evs, s.Proper i ev ∧ (ev.cnxPtr ≠ 0 → (s.cnx i).freed = false)) :
    (s.push i evs).Inv := by
  induction evs generalizing s with
  | nil =>
    rw [DualStack.push, List.map_nil, List.append_nil]
    exact h
  | cons ev evs ih =>
    obtain ⟨hev, hlive⟩ := hevs ev List.mem_cons_self
    have hpush : s.push i (ev :: evs) = (s.push i [ev]).push i evs := by
      simp [DualStack.push]
    rw [hpush]
    exact ih (h.push_one hcb hev hlive) hcb fun x hx => hevs x (List.mem_cons_of_mem ev hx)

theorem setCnx_self {c : DualCnx} : (s.setCnx i c).cnx i = c := by
  simp [setCnx]

theorem setCnx_ne {c : DualCnx} {j : ℕ} (hj : j ≠ i) : (s.setCnx i c).cnx j = s.cnx j := by
  simp [setCnx, hj]

/-- A step on connection `i` alone leaves the others as they were, those at the address of a freed
one included. -/
theorem Inv.kept_setCnx (h : s.Inv) {c : DualCnx} (hi : i < s.made)
    (hlive : (s.cnx i).freed = false) (hptr : c.ptr = (s.cnx i).ptr) {j : ℕ} (hj : j < s.made)
    (hji : j ≠ i) : Kept s (s.setCnx i c) j := by
  have hcj : (s.setCnx i c).cnx j = s.cnx j := setCnx_ne hji
  refine ⟨by rw [hcj], by rw [hcj], by rw [hcj], ?_⟩
  rw [Fresh, Fresh, hcj]
  refine forall₂_congr fun k hk => ?_
  by_cases hki : k = i
  · subst hki
    refine iff_of_true (fun heq => ?_) fun heq => ?_
    · rw [setCnx_self, hptr] at heq
      have := h.ordered k j hk hj heq
      simp [hlive] at this
    · have := h.ordered k j hk hj heq
      simp [hlive] at this
  · rw [setCnx_ne hki]

/-- The connection that an announcement is about. -/
def chose (s : DualStack) (i : ℕ) (st : Stack) (announces : Bool) : DualCnx :=
  { s.cnx i with
    callback := match st with
      | .raw => .raw
      | .h3 => .wt
    told := announces }

theorem chose_callback (st : Stack) (announces : Bool) :
    (s.chose i st announces).callback ≠ .dispatch := by
  cases st <;> exact CnxCallback.noConfusion

/-- The event that an announcement queues. -/
def announcement (s : DualStack) (i : ℕ) (st : Stack) : RawEvent :=
  { evtType := .cnxStack, cnxPtr := (s.cnx i).ptr, isFin := if st = .h3 then 1 else 0 }

theorem announce_eq (st : Stack) (announces : Bool) :
    s.announce i st announces = (s.setCnx i (s.chose i st announces)).push i
      (if announces then [s.announcement i st] else []) := rfl

theorem announce_self (st : Stack) (announces : Bool) :
    (s.announce i st announces).cnx i = s.chose i st announces := setCnx_self

theorem announce_ne (st : Stack) (announces : Bool) {j : ℕ} (hj : j ≠ i) :
    (s.announce i st announces).cnx j = s.cnx j := setCnx_ne hj

theorem stack_announce (st : Stack) (announces : Bool) :
    (s.announce i st announces).stack i = st := by
  rw [stack, announce_self]
  cases st <;> rfl

theorem queued_announce (st : Stack) (announces : Bool) : (s.announce i st announces).queued =
    s.queued ++ if announces then [(i, s.announcement i st)] else [] := by
  rw [announce_eq, queued_push]
  cases announces <;> rfl

theorem see_announcement (h0 : (s.cnx i).ptr ≠ 0) (st : Stack) :
    see v (s.announcement i st) = Function.update v (s.cnx i).ptr (some (st = .h3, false)) := by
  have hsee : see v (s.announcement i st) = Function.update v (s.cnx i).ptr
      (some ((s.announcement i st).isFin ≠ 0, false)) := see_cnxStack h0 rfl
  rw [hsee]
  cases st <;> rfl

/-- A connection gets its stack. -/
theorem Inv.announce (h : s.Inv) (hi : i < s.made) (hlive : (s.cnx i).freed = false)
    (hcb : (s.cnx i).callback = .dispatch) {st : Stack} {alpn : String}
    (halpn : (s.cnx i).alpn = some alpn) (hst : st = .h3 ↔ s.dualWtParams ∧ alpn = "h3")
    (announces : Bool) : (s.announce i st announces).Inv := by
  set t := s.announce i st announces with ht
  have htold : (s.cnx i).told = false := by
    cases hto : (s.cnx i).told with
    | false => rfl
    | true => exact absurd hcb (h.told i hto)
  have hself : t.cnx i = s.chose i st announces := announce_self st announces
  have hne : ∀ {j}, j ≠ i → t.cnx j = s.cnx j := fun hj => announce_ne st announces hj
  have hsame : ∀ j, (t.cnx j).ptr = (s.cnx j).ptr ∧ (t.cnx j).freed = (s.cnx j).freed := by
    intro j
    by_cases hj : j = i
    · subst hj
      rw [hself]
      exact ⟨rfl, rfl⟩
    · rw [hne hj]
      exact ⟨rfl, rfl⟩
  have hkept : ∀ j < s.made, j ≠ i → Kept s t j := by
    intro j hj hji
    have hk : Kept s (s.setCnx i (s.chose i st announces)) j :=
      h.kept_setCnx (c := s.chose i st announces) hi hlive rfl hj hji
    exact ⟨hk.callback, hk.ptr, hk.told, hk.fresh⟩
  have hother : ∀ {j}, (s.cnx j).callback ≠ .dispatch → j ≠ i := by
    rintro j hj rfl
    exact hj hcb
  have hq := queued_announce (s := s) (i := i) st announces
  have hnew : ∀ e ∈ s.queued, e.1 ≠ i := h.dispatched.unchosen i hcb
  refine ⟨fun j hj => ?_, fun j hj => ?_, fun j hj => ?_, fun j k hjk hk heq => ?_, h.agrees, ?_,
    fun j hj hf hjcb => ?_, fun p hp => ?_, ?_⟩
  · rw [hne (Nat.ne_of_gt (Nat.lt_of_lt_of_le hi hj))]
    exact h.later j hj
  · by_cases hji : j = i
    · rw [hji, hself]
      exact chose_callback st announces
    · rw [hne hji] at hj ⊢
      exact h.told j hj
  · rw [(hsame j).1]
    exact h.ptr j hj
  · rw [(hsame j).1, (hsame k).1] at heq
    rw [(hsame j).2]
    exact h.ordered j k hjk hk heq
  · refine placed_append.2 ⟨h.placed.kept fun j hj => hkept j (h.lt hj) (hother hj), ?_⟩
    cases announces with
    | false => trivial
    | true => exact ⟨fun hev => absurd rfl hev, trivial⟩
  · rw [hq, seeAll_append]
    by_cases hji : j = i
    · subst hji
      rw [Seen, hself, stack_announce]
      cases announces with
      | true =>
        rw [if_pos (show (s.chose j st true).told = true from rfl), if_pos rfl, seeAll_cons,
          seeAll_nil, see_announcement (h.ptr j hi)]
        exact .inl (Function.update_self ..)
      | false =>
        rw [if_neg (by simp [chose]), if_neg (by simp), seeAll_nil]
        intro hfresh
        by_contra hv
        obtain ⟨k, hk, hkp⟩ := h.sourced _ hv
        have hkp : (s.cnx k).ptr = (s.cnx j).ptr := hkp
        rcases Nat.lt_trichotomy k j with hlt | heq | hlt
        · have := hfresh k hlt (by rw [(hsame k).1, (hsame j).1, hkp])
          rw [hne hlt.ne, hk] at this
          cases this
        · rw [heq, htold] at hk
          cases hk
        · have := h.ordered j k hlt (h.lt (h.told k hk)) hkp.symm
          simp [hlive] at this
    · rw [hne hji] at hf hjcb
      rw [(hkept j hj hji).seen]
      have hseen := h.seen j hj hf hjcb
      cases announces with
      | false => exact hseen
      | true => exact hseen.see_ne (h.ptr_ne hj hi hji hf hlive)
  · rw [hq, seeAll_append] at hp
    have hold : seeAll (fun _ => none) s.queued p ≠ none →
        ∃ j, (t.cnx j).told = true ∧ (t.cnx j).ptr = p := by
      intro hv
      obtain ⟨j, hj, hjp⟩ := h.sourced p hv
      refine ⟨j, ?_⟩
      rw [hne (hother (h.told j hj))]
      exact ⟨hj, hjp⟩
    cases announces with
    | false => exact hold hp
    | true =>
      rw [if_pos rfl, seeAll_cons, seeAll_nil, see_announcement (h.ptr i hi)] at hp
      by_cases hpi : p = (s.cnx i).ptr
      · exact ⟨i, by rw [hself]; rfl, by rw [(hsame i).1, hpi]⟩
      · rw [Function.update_of_ne hpi] at hp
        exact hold hp
  · refine ⟨fun j hj hjcb => ?_, fun j hjcb e he => ?_, fun j hj => ?_, fun j hj e he hej => ?_,
      fun d hd hev hk => ?_⟩
    · by_cases hji : j = i
      · subst hji
        rw [hself, stack_announce]
        exact ⟨alpn, halpn, hst⟩
      · rw [hne hji] at hjcb ⊢
        rw [(hkept j hj hji).stack]
        exact h.dispatched.chosen j hj hjcb
    · have hji : j ≠ i := by
        rintro rfl
        rw [hself] at hjcb
        exact chose_callback st announces hjcb
      rw [hne hji] at hjcb
      rw [hq, List.mem_append] at he
      rcases he with he | he
      · exact h.dispatched.unchosen j hjcb e he
      · cases announces with
        | false => cases he
        | true =>
          rw [List.mem_singleton.1 he]
          exact hji.symm
    · rw [hq, List.filter_append]
      by_cases hji : j = i
      · subst hji
        rw [hself] at hj
        obtain rfl : announces = true := hj
        refine ⟨(j, s.announcement j st), [], ?_, rfl, fun e he => by cases he⟩
        rw [List.filter_eq_nil_iff.2 fun e he => by simpa using hnew e he]
        simp
      · rw [hne hji] at hj
        obtain ⟨e, rest, hfilter, he, hrest⟩ := h.dispatched.ahead j hj
        refine ⟨e, rest, ?_, he, hrest⟩
        rw [hfilter]
        cases announces with
        | false => simp
        | true => simp [Ne.symm hji]
    · rw [hq, List.mem_append] at he
      by_cases hji : j = i
      · subst hji
        rw [hself] at hj
        obtain rfl : announces = false := hj
        rcases he with he | he
        · exact absurd hej (hnew e he)
        · cases he
      · rw [hne hji] at hj
        rcases he with he | he
        · exact h.dispatched.untold j hj e he hej
        · cases announces with
          | false => cases he
          | true =>
            rw [List.mem_singleton.1 he] at hej
            exact absurd hej.symm hji
    · have hmem : d.1 ∈ s.queued := List.mem_append_left _ (List.mem_map_of_mem hd)
      have hji : d.1.1 ≠ i := hnew d.1 hmem
      have hdcb : (s.cnx d.1.1).callback ≠ .dispatch := fun hn =>
        h.dispatched.unchosen d.1.1 hn d.1 hmem rfl
      have hkd := hkept d.1.1 (h.lt hdcb) hji
      rw [hkd.stack]
      exact h.dispatched.own d hd hev (hkd.known.1 hk)

/-- A step that leaves a connection's callback, address and announcement as they are. -/
theorem Inv.setCnx (h : s.Inv) {c : DualCnx} (hi : i < s.made)
    (hcb : c.callback = (s.cnx i).callback) (hptr : c.ptr = (s.cnx i).ptr)
    (htold : c.told = (s.cnx i).told) (hfreed : (s.cnx i).freed = true → c.freed = true)
    (halpn : (s.cnx i).callback ≠ .dispatch → c.alpn = (s.cnx i).alpn) : (s.setCnx i c).Inv := by
  have hsame : ∀ j, ((s.setCnx i c).cnx j).callback = (s.cnx j).callback ∧
      ((s.setCnx i c).cnx j).ptr = (s.cnx j).ptr ∧
      ((s.setCnx i c).cnx j).told = (s.cnx j).told ∧
      ((s.cnx j).freed = true → ((s.setCnx i c).cnx j).freed = true) ∧
      ((s.cnx j).callback ≠ .dispatch → ((s.setCnx i c).cnx j).alpn = (s.cnx j).alpn) := by
    intro j
    by_cases hj : j = i
    · subst hj
      rw [setCnx_self]
      exact ⟨hcb, hptr, htold, hfreed, halpn⟩
    · rw [setCnx_ne hj]
      exact ⟨rfl, rfl, rfl, id, fun _ => rfl⟩
  have hkept : ∀ j, Kept s (s.setCnx i c) j := by
    intro j
    refine ⟨(hsame j).1, (hsame j).2.1, (hsame j).2.2.1, ?_⟩
    rw [Fresh, Fresh, (hsame j).2.1]
    exact forall₂_congr fun k _ => by rw [(hsame k).2.1, (hsame k).2.2.1]
  refine ⟨fun j hj => ?_, fun j hj => ?_, fun j hj => ?_, fun j k hjk hk heq => ?_, h.agrees,
    h.placed.kept fun j _ => hkept j, fun j hj hf hjcb => ?_, fun p hp => ?_, ?_⟩
  · rw [(hsame j).1, (hsame j).2.2.1]
    exact h.later j hj
  · rw [(hsame j).1]
    rw [(hsame j).2.2.1] at hj
    exact h.told j hj
  · rw [(hsame j).2.1]
    exact h.ptr j hj
  · rw [(hsame j).2.1, (hsame k).2.1] at heq
    exact (hsame j).2.2.2.1 (h.ordered j k hjk hk heq)
  · rw [(hsame j).1] at hjcb
    refine (hkept j).seen.2 (h.seen j hj ?_ hjcb)
    cases hjf : (s.cnx j).freed with
    | false => rfl
    | true =>
      rw [(hsame j).2.2.2.1 hjf] at hf
      cases hf
  · obtain ⟨j, hj, hjp⟩ := h.sourced p hp
    exact ⟨j, by rw [(hsame j).2.2.1, hj], by rw [(hsame j).2.1, hjp]⟩
  · refine ⟨fun j hj hjcb => ?_, fun j hjcb => ?_, fun j hj => ?_, fun j hj => ?_,
      fun d hd hev hk => ?_⟩
    · rw [(hsame j).1] at hjcb
      rw [(hkept j).stack, (hsame j).2.2.2.2 hjcb]
      exact h.dispatched.chosen j hj hjcb
    · rw [(hsame j).1] at hjcb
      exact h.dispatched.unchosen j hjcb
    · rw [(hsame j).2.2.1] at hj
      exact h.dispatched.ahead j hj
    · rw [(hsame j).2.2.1] at hj
      exact h.dispatched.untold j hj
    · rw [(hkept _).stack]
      exact h.dispatched.own d hd hev ((hkept _).known.1 hk)

/-- picoquic makes a connection, at an address that no live one has. -/
theorem Inv.opened (h : s.Inv) {ptr : ℕ} (h0 : ptr ≠ 0)
    (hptr : ∀ i < s.made, (s.cnx i).freed = false → (s.cnx i).ptr ≠ ptr) :
    Inv { s.setCnx s.made { ptr } with made := s.made + 1 } := by
  set t : DualStack := { s.setCnx s.made { ptr } with made := s.made + 1 } with ht
  have hself : t.cnx s.made = { ptr } := setCnx_self
  have hne : ∀ {j}, j ≠ s.made → t.cnx j = s.cnx j := fun hj => setCnx_ne hj
  have hkept : ∀ j < s.made, Kept s t j := by
    intro j hj
    have hcj := hne hj.ne
    refine ⟨by rw [hcj], by rw [hcj], by rw [hcj], ?_⟩
    rw [Fresh, Fresh, hcj]
    exact forall₂_congr fun k hk => by rw [hne (hk.trans hj).ne]
  have hlt : ∀ {j}, (t.cnx j).callback ≠ .dispatch → j < s.made := by
    intro j hj
    by_cases hjm : j = s.made
    · subst hjm
      exact absurd (by rw [hself]) hj
    · rw [hne hjm] at hj
      exact h.lt hj
  have htold : ∀ {j}, (t.cnx j).told = true → j < s.made := by
    intro j hj
    by_cases hjm : j = s.made
    · subst hjm
      rw [hself] at hj
      cases hj
    · rw [hne hjm] at hj
      exact h.lt (h.told j hj)
  refine ⟨fun j hj => ?_, fun j hj => ?_, fun j hj => ?_, fun j k hjk hk heq => ?_, h.agrees,
    h.placed.kept fun j hj => hkept j (h.lt hj), fun j hj hf hjcb => ?_, fun p hp => ?_, ?_⟩
  · have hj : s.made < j := hj
    rw [hne hj.ne']
    exact h.later j hj.le
  · have hlt := htold hj
    rw [hne hlt.ne] at hj ⊢
    exact h.told j hj
  · by_cases hjm : j = s.made
    · rw [hjm, hself]
      exact h0
    · rw [hne hjm]
      exact h.ptr j (Nat.lt_of_le_of_ne (Nat.le_of_lt_succ hj) hjm)
  · have hkm : k ≤ s.made := Nat.le_of_lt_succ hk
    have hj : j < s.made := Nat.lt_of_lt_of_le hjk hkm
    rw [hne hj.ne] at heq ⊢
    by_cases hk : k = s.made
    · rw [hk, hself] at heq
      cases hf : (s.cnx j).freed with
      | true => rfl
      | false => exact absurd heq (hptr j hj hf)
    · rw [hne hk] at heq
      exact h.ordered j k hjk (Nat.lt_of_le_of_ne hkm hk) heq
  · have hj := hlt hjcb
    rw [hne hj.ne] at hf hjcb
    exact (hkept j hj).seen.2 (h.seen j hj hf hjcb)
  · obtain ⟨j, hj, hjp⟩ := h.sourced p hp
    refine ⟨j, ?_⟩
    rw [hne (h.lt (h.told j hj)).ne]
    exact ⟨hj, hjp⟩
  · refine ⟨fun j _ hjcb => ?_, fun j hjcb e he => ?_, fun j hj => ?_, fun j hj => ?_,
      fun d hd hev hk => ?_⟩
    · have hj := hlt hjcb
      rw [hne hj.ne] at hjcb ⊢
      rw [(hkept j hj).stack]
      exact h.dispatched.chosen j hj hjcb
    · by_cases hjm : j = s.made
      · exact h.dispatched.unchosen j (h.later j hjm.ge).1 e he
      · rw [hne hjm] at hjcb
        exact h.dispatched.unchosen j hjcb e he
    · have hlt := htold hj
      rw [hne hlt.ne] at hj
      exact h.dispatched.ahead j hj
    · by_cases hjm : j = s.made
      · exact h.dispatched.untold j (h.later j hjm.ge).2
      · rw [hne hjm] at hj
        exact h.dispatched.untold j hj
    · have hdcb : (s.cnx d.1.1).callback ≠ .dispatch := fun hn =>
        h.dispatched.unchosen d.1.1 hn d.1 (List.mem_append_left _ (List.mem_map_of_mem hd)) rfl
      have hkd := hkept d.1.1 (h.lt hdcb)
      rw [hkd.stack]
      exact h.dispatched.own d hd hev (hkd.known.1 hk)

end

end DualStack

end Aiopquic
