import Aiopquic.DispatchersCalls

/-!
# Every session is routed to, in every run

`sessions_routed_iff` says when the events of all sessions that were attached reach them: exactly when
each `detach_acceptor` finds under the pointers of its spawned sessions these sessions, and not
another that got the struct's address later. `dispatcher_retired` says when an unused dispatcher
stays.
-/

namespace Aiopquic

namespace Dispatchers

variable {s t : Dispatchers} {d e k p x y ptr : ℕ}

/-- What is asked of a step: the pointers that an acceptor spawned sessions under are theirs. -/
def Ok (s : Dispatchers) : Act → Prop
  | .detachAcceptor p => p ∈ s.alive → ∀ d ∈ s.registry (s.ids p), s.Spawned d
  | _ => True

instance (s : Dispatchers) : ∀ a, Decidable (s.Ok a)
  | .detachAcceptor p =>
    inferInstanceAs (Decidable (p ∈ s.alive → ∀ d ∈ s.registry (s.ids p), s.Spawned d))
  | .create _ | .die _ | .newSession _ _ | .drop _ | .attach _ | .attachAcceptor _
  | .newSessionEvent _ _ _ | .detach _ _ | .resume _ | .cancel _ | .release _ | .taskDone _ =>
    .isTrue trivial

/-- A pair comes to be under ids that no other has. -/
theorem Core.newPair (h : s.Core) (htidy : s.Tidy) {id : ℕ} (hid : ∀ p ∈ s.alive, s.ids p ≠ id) :
    Keeps s { s with
      ids := Function.update s.ids s.pairs id
      alive := s.pairs :: s.alive
      pairs := s.pairs + 1 } := by
  have hids : ∀ p ∈ s.alive, Function.update s.ids s.pairs id p = s.ids p := fun p hp =>
    Function.update_of_ne (Nat.ne_of_lt (h.bound p hp)) _ _
  refine ⟨⟨?_, ?_, ?_, h.retired, h.entries, h.ptrs, ?_, h.told, ?_⟩, htidy, ?_⟩
  · intro k d hk
    obtain ⟨hlt, hkey, halive, hr⟩ := h.key k d hk
    exact ⟨hlt, (hids _ halive).trans hkey, List.mem_cons_of_mem _ halive, hr⟩
  · intro p hp q hq heq
    have heq' : Function.update s.ids s.pairs id p = Function.update s.ids s.pairs id q := heq
    rcases List.mem_cons.1 hp with rfl | hp <;> rcases List.mem_cons.1 hq with rfl | hq
    · rfl
    · rw [Function.update_self, hids q hq] at heq'
      exact absurd heq'.symm (hid q hq)
    · rw [Function.update_self, hids p hp] at heq'
      exact absurd heq' (hid p hp)
    · rw [hids p hp, hids q hq] at heq'
      exact h.ids p hp q hq heq'
  · intro p hp
    rcases List.mem_cons.1 hp with rfl | hp
    · exact Nat.lt_succ_self _
    · exact Nat.lt_succ_of_lt (h.bound p hp)
  · intro x hx
    exact ⟨(h.held x hx).1, List.mem_cons_of_mem _ (h.held x hx).2⟩
  · intro w hw
    obtain ⟨hlt, hkey, halive⟩ := h.detaching w hw
    exact ⟨hlt, hkey.trans (hids _ halive).symm, List.mem_cons_of_mem _ halive⟩
  · intro hr x hx
    obtain ⟨d, hk, hrest⟩ := hr x hx
    exact ⟨d, (congrArg s.registry (hids _ (h.held x (h.told x hx)).2)).trans hk, hrest⟩

/-- A pair that nobody refers to goes. -/
theorem Core.die (h : s.Core) (htidy : s.Tidy) (hun : s.Unreferenced p) :
    Keeps s { s with alive := s.alive.filter (· ≠ p) } := by
  have hmem : ∀ q ∈ s.alive.filter (· ≠ p), q ∈ s.alive := fun q hq => (List.mem_filter.1 hq).1
  have hkeep : ∀ q ∈ s.alive, q ≠ p → q ∈ s.alive.filter (· ≠ p) := fun q hq hne =>
    List.mem_filter.2 ⟨hq, by simpa using hne⟩
  refine ⟨⟨?_, ?_, ?_, h.retired, h.entries, h.ptrs, ?_, h.told, ?_⟩, htidy, fun hr => hr⟩
  · intro k d hk
    obtain ⟨hlt, hkey, halive, hr⟩ := h.key k d hk
    refine ⟨hlt, hkey, hkeep _ halive ?_, hr⟩
    intro hpair
    apply hun.1 d hlt hpair
    rw [← hpair, hkey]
    exact hk
  · exact fun q hq r hr => h.ids q (hmem q hq) r (hmem r hr)
  · exact fun q hq => h.bound q (hmem q hq)
  · exact fun x hx => ⟨(h.held x hx).1, hkeep _ (h.held x hx).2 (hun.2.1 x hx)⟩
  · intro w hw
    obtain ⟨hlt, hkey, halive⟩ := h.detaching w hw
    exact ⟨hlt, hkey, hkeep _ halive (hun.2.2 w hw)⟩

/-- A session object goes. -/
theorem Core.drop (h : s.Core) (htidy : s.Tidy) (hun : s.Unrouted x) :
    Keeps s { s with held := s.held.filter (· ≠ x), told := Function.update s.told x false } := by
  have hnone : ∀ d ptr, (s.dispatchers d).sessions.lookup ptr ≠ some x := by
    intro d ptr hlook
    have hlt := (h.key _ d (h.registered hlook)).1
    apply hun d hlt
    rw [(h.entries d ptr x hlook).1]
    exact hlook
  have hu := h.untell htidy hnone
  have hmem : ∀ y ∈ s.held.filter (· ≠ x), y ∈ s.held := fun y hy => (List.mem_filter.1 hy).1
  have hkeep : ∀ y ∈ s.held, y ≠ x → y ∈ s.held.filter (· ≠ x) := fun y hy hne =>
    List.mem_filter.2 ⟨hy, by simpa using hne⟩
  refine ⟨⟨h.key, h.ids, h.bound, h.retired, ?_, ?_, ?_, ?_, h.detaching⟩, htidy, hu.routed⟩
  · intro d ptr y hy
    obtain ⟨h1, h2, h3, h4⟩ := hu.core.entries d ptr y hy
    exact ⟨h1, h2, hkeep y h3 (of_update_false h4).1, h4⟩
  · exact fun y hy z hz => h.ptrs y (hmem y hy) z (hmem z hz)
  · exact fun y hy => h.held y (hmem y hy)
  · intro y hy
    obtain ⟨hne, htold⟩ := of_update_false hy
    exact hkeep y (h.told y htold) hne

theorem of_guard {c : Prop} [Decidable c] (h : (if c then some s else none) = some t) :
    c ∧ s = t := by
  split at h
  · exact ⟨‹_›, Option.some.inj h⟩
  · cases h

/-- Each step keeps the tables, and all sessions routed if it is `Ok`. -/
theorem Core.step {a : Act} (h : s.Core) (htidy : s.Tidy) (hs : s.step a = some t) :
    t.Core ∧ t.Tidy ∧ (s.Routed → (t.Routed ↔ s.Ok a)) := by
  have hkeeps : ∀ {u : Dispatchers}, s.Ok a → Keeps s u → u = t →
      t.Core ∧ t.Tidy ∧ (s.Routed → (t.Routed ↔ s.Ok a)) := by
    rintro u hok hk rfl
    exact ⟨hk.core, hk.tidy, fun hr => ⟨fun _ => hok, fun _ => hk.routed hr⟩⟩
  cases a with
  | create id =>
    obtain ⟨hid, heq⟩ := of_guard hs
    exact hkeeps trivial (h.newPair htidy hid) heq
  | die p =>
    obtain ⟨hp, heq⟩ := of_guard hs
    exact hkeeps trivial (h.die htidy hp.2) heq
  | newSession p ptr =>
    obtain ⟨hp, heq⟩ := of_guard hs
    exact hkeeps trivial (h.newSession htidy hp.1 hp.2) heq
  | drop x =>
    obtain ⟨hx, heq⟩ := of_guard hs
    exact hkeeps trivial (h.drop htidy hx.2) heq
  | attach x =>
    obtain ⟨hx, heq⟩ := of_guard hs
    exact hkeeps trivial (h.attach htidy hx.1) heq
  | attachAcceptor p =>
    obtain ⟨hp, heq⟩ := of_guard hs
    exact hkeeps trivial (h.attachAcceptor htidy hp) heq
  | newSessionEvent d ptr answer =>
    obtain ⟨hd, heq⟩ := of_guard hs
    exact hkeeps trivial (h.newSessionEvent htidy hd.2 answer) heq
  | detach x current =>
    obtain ⟨hx, heq⟩ := of_guard hs
    exact hkeeps trivial (h.detach htidy hx current) heq
  | resume n =>
    simp only [Dispatchers.step] at hs
    split at hs
    · cases hs
    · rename_i w hw
      obtain ⟨_, heq⟩ := of_guard hs
      exact hkeeps trivial (h.resume htidy hw) heq
  | cancel n =>
    simp only [Dispatchers.step] at hs
    split at hs
    · cases hs
    · rename_i w hw
      exact hkeeps trivial (h.cancel htidy hw) (Option.some.inj hs)
  | release x =>
    obtain ⟨hx, heq⟩ := of_guard hs
    exact hkeeps trivial (h.release htidy hx) heq
  | detachAcceptor p =>
    obtain ⟨hp, rfl⟩ := of_guard hs
    obtain ⟨hc, ht, hr⟩ := h.detachAcceptor htidy hp
    refine ⟨hc, ht, fun hs => (hr hs).trans ?_⟩
    exact ⟨fun hok _ => hok, fun hok => hok hp⟩
  | taskDone i =>
    simp only [Dispatchers.step, Option.some.injEq] at hs
    exact hkeeps trivial ⟨h.aside s.attached s.accepted s.idle (s.running.filter (· ≠ i)) s.taskCount,
      htidy, fun hr => hr⟩ hs

theorem core_init : Core {} := by
  constructor
  · intro k d hk
    cases hk
  · intro p hp
    cases hp
  · intro p hp
    cases hp
  · exact fun d _ => ⟨⟨rfl, rfl⟩, rfl⟩
  · intro d ptr x hx
    cases hx
  · intro x hx
    cases hx
  · intro x hx
    cases hx
  · intro x hx
    cases hx
  · intro w hw
    cases hw

theorem tidy_init : Tidy {} := by
  intro k d hk
  cases hk

/-- In every run of attaches, spawned sessions, detaches that wait for tasks or are cancelled,
closes and acceptors that come and go, each session that is attached is in the dispatcher that the
registry has for it, exactly if no `detach_acceptor` finds another session under the pointer of one
it spawned. -/
theorem sessions_routed_iff (l : List Act) :
    Steps.Always step Routed {} l ↔ Steps.Along step Ok {} l := by
  refine Steps.always_iff (J := fun s => s.Core ∧ s.Tidy) ?_ ?_ ⟨core_init, tidy_init⟩ ?_
  · intro s a s' hs hstep
    obtain ⟨hc, ht, _⟩ := hs.1.step hs.2 hstep
    exact ⟨hc, ht⟩
  · intro s a hs hr
    cases hstep : s.step a with
    | none =>
      have hok : s.Ok a := by
        cases a with
        | detachAcceptor p =>
          intro hp
          simp [Dispatchers.step, hp] at hstep
        | _ => trivial
      exact ⟨fun _ => hok, fun _ s' hs' => by cases hs'⟩
    | some s' =>
      have hiff := (hs.1.step hs.2 hstep).2.2 hr
      rw [← hiff]
      exact ⟨fun hall => hall s' rfl, fun hr' u hu => Option.some.inj hu ▸ hr'⟩
  · intro x hx
    cases hx

-- a session that got the address of a spawned one goes with the acceptor
example : ¬ Steps.Along step Ok {}
    [.create 5, .attachAcceptor 0, .newSessionEvent 0 8 (.accepts false), .release 0, .drop 0,
      .newSession 0 8, .attach 1, .detachAcceptor 0] := by
  decide +kernel

end Dispatchers

end Aiopquic
