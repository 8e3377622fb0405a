import Aiopquic.Dispatchers

/-!
# What keeps a session with its dispatcher

An entry of the registry keeps its pair alive, so that no other pair has its key: what `_lookup` and
`_get_or_create` check of an entry always holds, and a session finds the dispatcher it is attached to. A
retired dispatcher has no session and no acceptor.
-/

namespace Aiopquic

namespace Dispatchers

/-- What every call keeps. -/
structure Core (s : Dispatchers) : Prop where
  key : ∀ k d, s.registry k = some d → d < s.count ∧ s.ids (s.dispatchers d).pair = k ∧
    (s.dispatchers d).pair ∈ s.alive ∧ (s.dispatchers d).reads = true
  ids : ∀ p ∈ s.alive, ∀ q ∈ s.alive, s.ids p = s.ids q → p = q
  bound : ∀ p ∈ s.alive, p < s.pairs
  retired : ∀ d, (∀ k, s.registry k ≠ some d) → s.Unused d ∧ (s.dispatchers d).reads = false
  entries : ∀ d ptr x, (s.dispatchers d).sessions.lookup ptr = some x →
    s.ptrOf x = ptr ∧ s.pairOf x = (s.dispatchers d).pair ∧ x ∈ s.held ∧ s.told x = true
  ptrs : ∀ x ∈ s.held, ∀ y ∈ s.held, s.ptrOf x = s.ptrOf y → x = y
  held : ∀ x ∈ s.held, x < s.sessionCount ∧ s.pairOf x ∈ s.alive
  told : ∀ x, s.told x = true → x ∈ s.held
  detaching : ∀ t ∈ s.detaching, t.dispatcher < s.count ∧
    t.key = s.ids (s.dispatchers t.dispatcher).pair ∧ (s.dispatchers t.dispatcher).pair ∈ s.alive

/-- The events of every session that was attached reach it. -/
def Routed (s : Dispatchers) : Prop :=
  ∀ x, s.told x = true → ∃ d, s.registry (s.ids (s.pairOf x)) = some d ∧
    (s.dispatchers d).reads = true ∧ s.routeEvent d (s.ptrOf x) = some x

/-- An unused dispatcher is in the registry only while a detach awaits its tasks, or because it was
left. -/
def Tidy (s : Dispatchers) : Prop :=
  ∀ k d, s.registry k = some d → s.Unused d →
    (∃ t ∈ s.detaching, t.key = k ∧ t.dispatcher = d) ∨ d ∈ s.idle

variable {s t : Dispatchers} {d k p x y ptr : ℕ}

namespace Core

/-- A dispatcher has one key. -/
theorem key_unique (h : s.Core) {k' : ℕ} (hk : s.registry k = some d) (hk' : s.registry k' = some d) :
    k = k' :=
  (h.key k d hk).2.1.symm.trans (h.key k' d hk').2.1

/-- Another pair is never found under the key of one that is alive. -/
theorem pair_eq (h : s.Core) (hp : p ∈ s.alive) (hk : s.registry (s.ids p) = some d) :
    (s.dispatchers d).pair = p := by
  obtain ⟨_, hid, halive, _⟩ := h.key _ d hk
  exact h.ids _ halive p hp hid

theorem lookup_eq (h : s.Core) (hp : p ∈ s.alive) : s.lookup p = s.registry (s.ids p) := by
  unfold Dispatchers.lookup
  split
  · rename_i hnone
    exact hnone.symm
  · rename_i d hd
    rw [if_pos (h.pair_eq hp hd), hd]

/-- `_get_or_create` finds the pair's dispatcher, or makes it where there is none. -/
theorem getOrCreate_cases (h : s.Core) (hp : p ∈ s.alive) :
    (∃ d, s.registry (s.ids p) = some d ∧ (s.dispatchers d).pair = p ∧ s.getOrCreate p = (d, s)) ∨
      s.registry (s.ids p) = none ∧ s.getOrCreate p = (s.count, s.create p) := by
  unfold Dispatchers.getOrCreate
  split
  · rename_i hnone
    exact .inr ⟨hnone, rfl⟩
  · rename_i d hd
    have hpair := h.pair_eq hp hd
    exact .inl ⟨d, hd, hpair, if_pos hpair⟩

/-- A dispatcher with a session is registered for it. -/
theorem registered (h : s.Core) (hx : (s.dispatchers d).sessions.lookup ptr = some x) :
    s.registry (s.ids (s.pairOf x)) = some d := by
  by_contra hne
  have hnone : ∀ k, s.registry k ≠ some d := by
    intro k hk
    obtain ⟨_, hid, _, _⟩ := h.key k d hk
    rw [(h.entries d ptr x hx).2.1, hid] at hne
    exact hne hk
  have hempty : (s.dispatchers d).sessions = ∅ := (h.retired d hnone).1.1
  rw [hempty] at hx
  cases hx

/-- The session that is under a pointer is the one alive that has it. -/
theorem eq_of_lookup (h : s.Core) (hx : x ∈ s.held)
    (hy : (s.dispatchers d).sessions.lookup (s.ptrOf x) = some y) : y = x := by
  obtain ⟨hptr, _, hheld, _⟩ := h.entries d _ y hy
  exact h.ptrs y hheld x hx hptr

/-- One dispatcher at most has a session. -/
theorem dispatcher_unique (h : s.Core) {d' ptr' : ℕ}
    (hx : (s.dispatchers d).sessions.lookup ptr = some x)
    (hx' : (s.dispatchers d').sessions.lookup ptr' = some x) : d = d' :=
  Option.some.inj ((h.registered hx).symm.trans (h.registered hx'))

/-! ## Dispatchers come and go -/

theorem create (h : s.Core) (hp : p ∈ s.alive) (hnone : s.registry (s.ids p) = none) :
    (s.create p).Core := by
  have hold : ∀ d, d ≠ s.count → (s.create p).dispatchers d = s.dispatchers d := fun d hd =>
    Function.update_of_ne hd _ _
  have hnew : (s.create p).dispatchers s.count = { pair := p, reads := true } :=
    Function.update_self _ _ _
  have hkey : ∀ k, k ≠ s.ids p → (s.create p).registry k = s.registry k := fun k hk =>
    Function.update_of_ne hk _ _
  have hkeyNew : (s.create p).registry (s.ids p) = some s.count := Function.update_self _ _ _
  constructor
  · intro k d hk
    by_cases hkp : k = s.ids p
    · subst hkp
      rw [hkeyNew] at hk
      cases hk
      rw [hnew]
      exact ⟨Nat.lt_succ_self _, rfl, hp, rfl⟩
    · rw [hkey k hkp] at hk
      obtain ⟨hlt, hrest⟩ := h.key k d hk
      rw [hold d (by omega)]
      exact ⟨Nat.lt_succ_of_lt hlt, hrest⟩
  · exact h.ids
  · exact h.bound
  · intro d hd
    have hdc : d ≠ s.count := by
      rintro rfl
      exact hd _ hkeyNew
    have hret := h.retired d fun k hk => by
      by_cases hkp : k = s.ids p
      · rw [hkp, hnone] at hk
        cases hk
      · exact hd k ((hkey k hkp).trans hk)
    unfold Unused
    rw [hold d hdc]
    exact hret
  · intro d ptr x hx
    by_cases hdc : d = s.count
    · subst hdc
      rw [hnew] at hx
      cases hx
    · rw [hold d hdc] at hx ⊢
      exact h.entries d ptr x hx
  · exact h.ptrs
  · exact h.held
  · exact h.told
  · intro t ht
    obtain ⟨hlt, hrest⟩ := h.detaching t ht
    rw [hold t.dispatcher (by omega)]
    exact ⟨Nat.lt_succ_of_lt hlt, hrest⟩

theorem retire (h : s.Core) (hk : s.registry k = some d) (hun : s.Unused d) :
    (s.retire k d).Core := by
  have hold : ∀ e, e ≠ d → (s.retire k d).dispatchers e = s.dispatchers e := fun e he =>
    Function.update_of_ne he _ _
  have hself : (s.retire k d).dispatchers d = { s.dispatchers d with reads := false } :=
    Function.update_self _ _ _
  have hpair : ∀ e, ((s.retire k d).dispatchers e).pair = (s.dispatchers e).pair := by
    intro e
    by_cases he : e = d
    · rw [he, hself]
    · rw [hold e he]
  have hsessions : ∀ e, ((s.retire k d).dispatchers e).sessions = (s.dispatchers e).sessions := by
    intro e
    by_cases he : e = d
    · rw [he, hself]
    · rw [hold e he]
  have hkey : ∀ k' e, (s.retire k d).registry k' = some e → s.registry k' = some e ∧ e ≠ d := by
    intro k' e hk'
    by_cases hkk : k' = k
    · subst hkk
      rw [show (s.retire k' d).registry k' = none from Function.update_self _ _ _] at hk'
      cases hk'
    · rw [show (s.retire k d).registry k' = s.registry k' from Function.update_of_ne hkk _ _] at hk'
      refine ⟨hk', ?_⟩
      rintro rfl
      exact hkk (h.key_unique hk' hk)
  constructor
  · intro k' e hk'
    obtain ⟨hs, hne⟩ := hkey k' e hk'
    rw [hold e hne]
    exact h.key k' e hs
  · exact h.ids
  · exact h.bound
  · intro e he
    by_cases hed : e = d
    · subst hed
      unfold Unused
      rw [hself]
      exact ⟨hun, rfl⟩
    · have hret := h.retired e fun k' hk' => by
        have hkk : k' ≠ k := by
          rintro rfl
          exact hed (Option.some.inj (hk'.symm.trans hk))
        exact he k' ((Function.update_of_ne hkk _ _).trans hk')
      unfold Unused
      rw [hold e hed]
      exact hret
  · intro e ptr x hx
    rw [hsessions e] at hx
    rw [hpair e]
    exact h.entries e ptr x hx
  · exact h.ptrs
  · exact h.held
  · exact h.told
  · intro t ht
    rw [hpair]
    exact h.detaching t ht

/-! ## Changes of one dispatcher -/

/-- A dispatcher's sessions change, and what is told of sessions with them. -/
theorem update (h : s.Core) {v : Dispatcher} {f : ℕ → Bool}
    (hpair : v.pair = (s.dispatchers d).pair) (hreads : v.reads = (s.dispatchers d).reads)
    (hret : (∀ k, s.registry k ≠ some d) → v.sessions = ∅ ∧ v.acceptor = false)
    (hentries : ∀ ptr x, v.sessions.lookup ptr = some x → s.ptrOf x = ptr ∧
      s.pairOf x = (s.dispatchers d).pair ∧ x ∈ s.held ∧ f x = true)
    (hother : ∀ e ≠ d, ∀ ptr x, (s.dispatchers e).sessions.lookup ptr = some x → f x = true)
    (htold : ∀ x, f x = true → x ∈ s.held) :
    Core { s.setDispatcher d v with told := f } := by
  have hpairs : ∀ e, (Function.update s.dispatchers d v e).pair = (s.dispatchers e).pair := by
    intro e
    by_cases he : e = d
    · rw [he, Function.update_self, hpair]
    · rw [Function.update_of_ne he]
  have hreadss : ∀ e, (Function.update s.dispatchers d v e).reads = (s.dispatchers e).reads := by
    intro e
    by_cases he : e = d
    · rw [he, Function.update_self, hreads]
    · rw [Function.update_of_ne he]
  constructor
  · intro k e hk
    show e < s.count ∧ s.ids (Function.update s.dispatchers d v e).pair = k ∧
      (Function.update s.dispatchers d v e).pair ∈ s.alive ∧
      (Function.update s.dispatchers d v e).reads = true
    rw [hpairs, hreadss]
    exact h.key k e hk
  · exact h.ids
  · exact h.bound
  · intro e he
    have hr := h.retired e he
    refine ⟨?_, (hreadss e).trans hr.2⟩
    show (Function.update s.dispatchers d v e).sessions = ∅ ∧
      (Function.update s.dispatchers d v e).acceptor = false
    by_cases hed : e = d
    · subst hed
      rw [Function.update_self]
      exact hret he
    · rw [Function.update_of_ne hed]
      exact hr.1
  · intro e ptr x hx
    show s.ptrOf x = ptr ∧ s.pairOf x = (Function.update s.dispatchers d v e).pair ∧ x ∈ s.held ∧
      f x = true
    rw [hpairs]
    have hx' : (Function.update s.dispatchers d v e).sessions.lookup ptr = some x := hx
    by_cases hed : e = d
    · subst hed
      rw [Function.update_self] at hx'
      exact hentries ptr x hx'
    · rw [Function.update_of_ne hed] at hx'
      obtain ⟨h1, h2, h3, _⟩ := h.entries e ptr x hx'
      exact ⟨h1, h2, h3, hother e hed ptr x hx'⟩
  · exact h.ptrs
  · exact h.held
  · exact htold
  · intro t ht
    show t.dispatcher < s.count ∧ t.key = s.ids (Function.update s.dispatchers d v t.dispatcher).pair ∧
      (Function.update s.dispatchers d v t.dispatcher).pair ∈ s.alive
    rw [hpairs]
    exact h.detaching t ht

theorem addSession (h : s.Core) (hx : x ∈ s.held) (hk : s.registry (s.ids (s.pairOf x)) = some d) :
    (s.addSession d x).Core := by
  have hpair := h.pair_eq (h.held x hx).2 hk
  have htold : ∀ y, s.told y = true → Function.update s.told x true y = true := by
    intro y hy
    by_cases hyx : y = x
    · rw [hyx, Function.update_self]
    · rw [Function.update_of_ne hyx, hy]
  apply h.update
  · rfl
  · rfl
  · intro hnone
    exact absurd hk (hnone _)
  · intro ptr y hy
    by_cases hp : ptr = s.ptrOf x
    · subst hp
      rw [AList.lookup_insert] at hy
      cases hy
      exact ⟨rfl, hpair.symm, hx, Function.update_self ..⟩
    · rw [AList.lookup_insert_ne hp] at hy
      obtain ⟨h1, h2, h3, h4⟩ := h.entries d ptr y hy
      exact ⟨h1, h2, h3, htold y h4⟩
  · intro e _ ptr y hy
    exact htold y (h.entries e ptr y hy).2.2.2
  · intro y hy
    by_cases hyx : y = x
    · exact hyx ▸ hx
    · rw [Function.update_of_ne hyx] at hy
      exact h.told y hy

theorem removeSession (h : s.Core) (hx : x ∈ s.held)
    (hk : s.registry (s.ids (s.pairOf x)) = some d) : (s.removeSession d x).Core := by
  -- the session is nowhere else
  have hne : ∀ e ptr y, (s.dispatchers e).sessions.lookup ptr = some y →
      (e = d → ptr ≠ s.ptrOf x) → y ≠ x := by
    rintro e ptr y hy hptr rfl
    have hed : e = d := Option.some.inj ((h.registered hy).symm.trans hk)
    exact hptr hed (h.entries e ptr y hy).1.symm
  apply h.update
  · rfl
  · rfl
  · intro hnone
    exact absurd hk (hnone _)
  · intro ptr y hy
    by_cases hp : ptr = s.ptrOf x
    · subst hp
      rw [AList.lookup_erase] at hy
      cases hy
    · rw [AList.lookup_erase_ne hp] at hy
      obtain ⟨h1, h2, h3, h4⟩ := h.entries d ptr y hy
      exact ⟨h1, h2, h3, (Function.update_of_ne (hne d ptr y hy fun _ => hp) _ _).trans h4⟩
  · intro e he ptr y hy
    exact (Function.update_of_ne (hne e ptr y hy fun hed => absurd hed he) _ _).trans
      (h.entries e ptr y hy).2.2.2
  · intro y hy
    by_cases hyx : y = x
    · exact hyx ▸ hx
    · rw [Function.update_of_ne hyx] at hy
      exact h.told y hy

/-- What is left under a pointer after some were taken out. -/
theorem lookup_foldl_erase (l : List ℕ) (m : AList fun _ : ℕ => ℕ) (ptr : ℕ) :
    (l.foldl (fun t ptr => t.erase ptr) m).lookup ptr = if ptr ∈ l then none else m.lookup ptr := by
  induction l generalizing m with
  | nil => rfl
  | cons a l ih =>
    rw [List.foldl_cons, ih]
    by_cases hp : ptr = a
    · subst hp
      rw [AList.lookup_erase, if_pos (List.mem_cons_self ..), ite_self]
    · simp only [List.mem_cons, hp, false_or, AList.lookup_erase_ne hp]

theorem dropSpawned (h : s.Core) (hk : s.registry k = some d) : (s.dropSpawned d).Core := by
  apply h.update
  · rfl
  · rfl
  · intro hnone
    exact absurd hk (hnone k)
  · intro ptr x hx
    rw [lookup_foldl_erase] at hx
    split at hx
    · cases hx
    · rename_i hptr
      obtain ⟨h1, h2, h3, h4⟩ := h.entries d ptr x hx
      refine ⟨h1, h2, h3, ?_⟩
      simp [h4, h1, hptr]
  · intro e he ptr x hx
    obtain ⟨h1, _, _, h4⟩ := h.entries e ptr x hx
    have hd : (s.dispatchers d).sessions.lookup (s.ptrOf x) ≠ some x := fun hd =>
      he (h.dispatcher_unique hx hd)
    simp [h4, hd]
  · intro x hx
    simp only [Bool.and_eq_true] at hx
    exact h.told x hx.1

theorem setAcceptor (h : s.Core) (hk : s.registry k = some d) :
    (s.setDispatcher d { s.dispatchers d with acceptor := true }).Core := by
  have hc := h.update (d := d) (v := { s.dispatchers d with acceptor := true }) rfl rfl
    (fun hnone => absurd hk (hnone k)) (h.entries d)
    (fun e _ ptr x hx => (h.entries e ptr x hx).2.2.2) h.told
  exact hc

end Core

end Dispatchers

end Aiopquic
