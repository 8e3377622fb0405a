import Aiopquic.DispatchersInv

/-!
# The calls keep a session with its dispatcher

What each call does to the tables (`Core`), to unused dispatchers (`Tidy`) and to where events go
(`Routed`). Only `detach_acceptor` can take a session out that nobody asked it to.
-/

namespace Aiopquic

namespace Dispatchers

variable {s t : Dispatchers} {d e k p x y ptr : ℕ}

/-! ## Routing -/

/-- A dispatcher is not unused if it has a session. -/
theorem not_unused_of_lookup (h : (s.dispatchers d).sessions.lookup ptr = some x) : ¬ s.Unused d := by
  intro hun
  have hempty : (s.dispatchers d).sessions = ∅ := hun.1
  rw [hempty] at h
  cases h

/-- One dispatcher's sessions change. -/
theorem Routed.update (h : s.Routed) {v : Dispatcher} {f : ℕ → Bool}
    (hreads : v.reads = (s.dispatchers d).reads)
    (hv : ∀ x, f x = true →
      s.told x = true ∧ ((s.dispatchers d).sessions.lookup (s.ptrOf x) = some x →
        v.sessions.lookup (s.ptrOf x) = some x) ∨
      s.registry (s.ids (s.pairOf x)) = some d ∧ (s.dispatchers d).reads = true ∧
        v.sessions.lookup (s.ptrOf x) = some x) :
    Routed { s.setDispatcher d v with told := f } := by
  intro x hx
  have hself : Function.update s.dispatchers d v d = v := Function.update_self ..
  rcases hv x hx with ⟨htold, hkeep⟩ | ⟨hk, hr, hlook⟩
  · obtain ⟨e, hk, hr, hlook⟩ := h x htold
    refine ⟨e, hk, ?_⟩
    show (Function.update s.dispatchers d v e).reads = true ∧
      (Function.update s.dispatchers d v e).sessions.lookup (s.ptrOf x) = some x
    by_cases hed : e = d
    · subst hed
      rw [hself, hreads]
      exact ⟨hr, hkeep hlook⟩
    · rw [Function.update_of_ne hed]
      exact ⟨hr, hlook⟩
  · refine ⟨d, hk, ?_⟩
    show (Function.update s.dispatchers d v d).reads = true ∧
      (Function.update s.dispatchers d v d).sessions.lookup (s.ptrOf x) = some x
    rw [hself, hreads]
    exact ⟨hr, hlook⟩

theorem Routed.create (h : s.Routed) (hc : s.Core) (hnone : s.registry (s.ids p) = none) :
    (s.create p).Routed := by
  intro x hx
  obtain ⟨e, hk, hr, hlook⟩ := h x hx
  have hlt := (hc.key _ e hk).1
  have hkey : s.ids (s.pairOf x) ≠ s.ids p := by
    intro heq
    rw [heq, hnone] at hk
    cases hk
  have hdisp : (s.create p).dispatchers e = s.dispatchers e :=
    Function.update_of_ne (by omega) _ _
  refine ⟨e, (Function.update_of_ne hkey _ _).trans hk, ?_⟩
  rw [routeEvent, hdisp]
  exact ⟨hr, hlook⟩

theorem Routed.retire (h : s.Routed) (hk : s.registry k = some d) (hun : s.Unused d) :
    (s.retire k d).Routed := by
  intro x hx
  obtain ⟨e, hke, hr, hlook⟩ := h x hx
  have hed : e ≠ d := by
    rintro rfl
    exact not_unused_of_lookup hlook hun
  have hkey : s.ids (s.pairOf x) ≠ k := by
    rintro rfl
    exact hed (Option.some.inj (hke.symm.trans hk))
  have hdisp : (s.retire k d).dispatchers e = s.dispatchers e := Function.update_of_ne hed _ _
  refine ⟨e, (Function.update_of_ne hkey _ _).trans hke, ?_⟩
  rw [routeEvent, hdisp]
  exact ⟨hr, hlook⟩

theorem Routed.addSession (h : s.Routed) (hc : s.Core) (hx : x ∈ s.held)
    (hk : s.registry (s.ids (s.pairOf x)) = some d) : (s.addSession d x).Routed := by
  apply h.update
  · rfl
  · intro y hy
    by_cases hyx : y = x
    · subst hyx
      exact .inr ⟨hk, (hc.key _ d hk).2.2.2, AList.lookup_insert _⟩
    · rw [Function.update_of_ne hyx] at hy
      refine .inl ⟨hy, fun hlook => ?_⟩
      have hptr : s.ptrOf y ≠ s.ptrOf x := fun heq => hyx (hc.ptrs y (hc.told y hy) x hx heq)
      rw [AList.lookup_insert_ne hptr]
      exact hlook

theorem Routed.removeSession (h : s.Routed) (hc : s.Core) (hx : x ∈ s.held) :
    (s.removeSession d x).Routed := by
  apply h.update
  · rfl
  · intro y hy
    by_cases hyx : y = x
    · rw [hyx, Function.update_self] at hy
      cases hy
    · rw [Function.update_of_ne hyx] at hy
      refine .inl ⟨hy, fun hlook => ?_⟩
      have hptr : s.ptrOf y ≠ s.ptrOf x := fun heq => hyx (hc.ptrs y (hc.told y hy) x hx heq)
      rw [AList.lookup_erase_ne hptr]
      exact hlook

/-- Every session that is under the pointer of a spawned one was spawned. -/
def Spawned (s : Dispatchers) (d : ℕ) : Prop :=
  ∀ ptr ∈ (s.dispatchers d).spawned, ∀ x ∈ (s.dispatchers d).sessions.lookup ptr,
    s.accepted x = true

instance (s : Dispatchers) (d : ℕ) : Decidable (s.Spawned d) :=
  inferInstanceAs (Decidable (∀ _ ∈ _, ∀ _ ∈ _, _))

/-- An acceptor takes no other's session with it exactly if it finds none under its pointers. -/
theorem Routed.dropSpawned_iff (h : s.Routed) (hc : s.Core) : (s.dropSpawned d).Routed ↔
    s.Spawned d := by
  constructor
  · intro hr ptr hptr x hx
    by_contra hacc
    obtain ⟨hx1, _, _, htold⟩ := hc.entries d ptr x hx
    have hkeep : (s.dropSpawned d).told x = true := by
      show (s.told x && !(s.accepted x && _ && _)) = true
      rw [htold, eq_false_of_ne_true hacc]
      rfl
    obtain ⟨e, hk, _, hlook⟩ := hr x hkeep
    have hed : e = d := Option.some.inj ((show s.registry _ = _ from hk).symm.trans (hc.registered hx))
    subst hed
    have hnone : ((s.dropSpawned e).dispatchers e).sessions.lookup (s.ptrOf x) = none := by
      have hself : (s.dropSpawned e).dispatchers e = _ := Function.update_self ..
      rw [hself]
      exact (Core.lookup_foldl_erase ..).trans (if_pos (hx1 ▸ hptr))
    rw [show ((s.dropSpawned e).dispatchers e).sessions.lookup (s.ptrOf x) = some x from hlook]
      at hnone
    cases hnone
  · intro hok
    apply h.update
    · rfl
    · intro x hx
      simp only [Bool.and_eq_true, Bool.not_eq_true', Bool.and_eq_false_iff] at hx
      refine .inl ⟨hx.1, fun hlook => ?_⟩
      have hmem : s.ptrOf x ∉ (s.dispatchers d).spawned := by
        intro hmem
        have hacc := hok _ hmem x hlook
        simp [hacc, hmem, hlook] at hx
      exact (Core.lookup_foldl_erase ..).trans ((if_neg hmem).trans hlook)

/-! ## Finding a dispatcher -/

/-- What `_get_or_create` gives: the dispatcher of the pair, registered. -/
structure Found (s : Dispatchers) (p d : ℕ) (t : Dispatchers) : Prop where
  core : t.Core
  registered : t.registry (s.ids p) = some d
  routed : s.Routed → t.Routed
  others : ∀ k e, t.registry k = some e → e ≠ d →
    s.registry k = some e ∧ t.dispatchers e = s.dispatchers e
  same : t.ids = s.ids ∧ t.alive = s.alive ∧ t.held = s.held ∧ t.ptrOf = s.ptrOf ∧
    t.pairOf = s.pairOf ∧ t.detaching = s.detaching ∧ t.idle = s.idle

theorem Core.found (h : s.Core) (hp : p ∈ s.alive) :
    Found s p (s.getOrCreate p).1 (s.getOrCreate p).2 := by
  rcases h.getOrCreate_cases hp with ⟨d, hk, _, heq⟩ | ⟨hnone, heq⟩
  · rw [heq]
    exact ⟨h, hk, id, fun k e hke _ => ⟨hke, rfl⟩, rfl, rfl, rfl, rfl, rfl, rfl, rfl⟩
  · rw [heq]
    refine ⟨h.create hp hnone, Function.update_self .., fun hr => hr.create h hnone, ?_,
      rfl, rfl, rfl, rfl, rfl, rfl, rfl⟩
    intro k e hke hne
    refine ⟨?_, Function.update_of_ne hne _ _⟩
    by_cases hkp : k = s.ids p
    · rw [hkp, show (s.create p).registry (s.ids p) = some s.count from
        Function.update_self ..] at hke
      exact absurd (Option.some.inj hke).symm hne
    · exact (Function.update_of_ne hkp _ _).symm.trans hke

/-- What a step keeps. -/
structure Keeps (s t : Dispatchers) : Prop where
  core : t.Core
  tidy : t.Tidy
  routed : s.Routed → t.Routed

/-- Tidiness after a step that is about the dispatcher `d`. -/
theorem Tidy.of_others (h : s.Tidy) (d : ℕ)
    (hother : ∀ k e, t.registry k = some e → e ≠ d →
      s.registry k = some e ∧ (t.Unused e → s.Unused e))
    (hwait : ∀ w ∈ s.detaching, w ∈ t.detaching) (hidle : ∀ e ∈ s.idle, e ∈ t.idle)
    (hself : ∀ k, t.registry k = some d → t.Unused d →
      (∃ w ∈ t.detaching, w.key = k ∧ w.dispatcher = d) ∨ d ∈ t.idle) : t.Tidy := by
  intro k e hk hun
  by_cases hed : e = d
  · subst hed
    exact hself k hk hun
  · obtain ⟨hsk, hsun⟩ := hother k e hk hed
    rcases h k e hsk (hsun hun) with ⟨w, hw, hkey, hdisp⟩ | hi
    · exact .inl ⟨w, hwait w hw, hkey, hdisp⟩
    · exact .inr (hidle e hi)

/-- What a call records beside the tables. -/
theorem Core.aside (h : s.Core) (attached accepted : ℕ → Bool) (idle running : List ℕ) (n : ℕ) :
    Core { s with
      attached := attached, accepted := accepted, idle := idle, running := running, taskCount := n } :=
  ⟨h.key, h.ids, h.bound, h.retired, h.entries, h.ptrs, h.held, h.told, h.detaching⟩

/-- A dispatcher is given a session, and is in use. -/
theorem Found.addSession (hf : Found s (s.pairOf x) d t) (htidy : s.Tidy) (hx : x ∈ s.held) :
    Keeps s (t.addSession d x) := by
  obtain ⟨hids, halive, hheld, hptr, hpair, hdet, hidle⟩ := hf.same
  have hxt : x ∈ t.held := hheld ▸ hx
  have hk : t.registry (t.ids (t.pairOf x)) = some d := by
    rw [hids, hpair]
    exact hf.registered
  have hself : ((t.addSession d x).dispatchers d).sessions.lookup (t.ptrOf x) = some x := by
    have heq : (t.addSession d x).dispatchers d = _ := Function.update_self ..
    rw [heq]
    exact AList.lookup_insert _
  refine ⟨hf.core.addSession hxt hk, ?_, fun hr => (hf.routed hr).addSession hf.core hxt hk⟩
  apply htidy.of_others d
  · intro k e hke hne
    obtain ⟨hske, heq⟩ := hf.others k e hke hne
    refine ⟨hske, fun hun => ?_⟩
    have hadd : (t.addSession d x).dispatchers e = t.dispatchers e := Function.update_of_ne hne _ _
    rw [Unused, hadd, heq] at hun
    exact hun
  · intro w hw
    exact hdet.symm ▸ hw
  · intro e he
    exact hidle.symm ▸ he
  · intro k _ hun
    exact absurd hun (not_unused_of_lookup hself)

theorem Core.attach (h : s.Core) (htidy : s.Tidy) (hx : x ∈ s.held) : Keeps s (s.attach x) := by
  have hk := (h.found (h.held x hx).2).addSession htidy hx
  exact ⟨hk.core.aside .., hk.tidy, hk.routed⟩

/-- Where the pair has a dispatcher, the session goes there. -/
theorem Core.attach_lookup (h : s.Core) (hx : x ∈ s.held)
    (hk : s.registry (s.ids (s.pairOf x)) = some d) :
    s.attach x = { s.addSession d x with attached := Function.update s.attached x true } := by
  rcases h.getOrCreate_cases (h.held x hx).2 with ⟨e, hke, _, heq⟩ | ⟨hnone, _⟩
  · cases hk.symm.trans hke
    rw [Dispatchers.attach, heq]
  · rw [hnone] at hk
    cases hk

theorem Core.attachAcceptor (h : s.Core) (htidy : s.Tidy) (hp : p ∈ s.alive) :
    Keeps s (s.attachAcceptor p) := by
  have hf := h.found hp
  unfold Dispatchers.attachAcceptor
  dsimp only
  generalize (s.getOrCreate p).1 = d at hf
  generalize (s.getOrCreate p).2 = t at hf
  obtain ⟨_, _, _, _, _, hdet, hidle⟩ := hf.same
  refine ⟨hf.core.setAcceptor hf.registered, ?_, fun hr => ?_⟩
  · apply htidy.of_others d
    · intro k e hke hne
      obtain ⟨hske, heq⟩ := hf.others k e hke hne
      refine ⟨hske, fun hun => ?_⟩
      have hset : (t.setDispatcher d { t.dispatchers d with acceptor := true }).dispatchers e =
          t.dispatchers e := Function.update_of_ne hne _ _
      rw [Unused, hset, heq] at hun
      exact hun
    · intro w hw
      exact hdet.symm ▸ hw
    · intro e he
      exact hidle.symm ▸ he
    · intro k _ hun
      have hset : (t.setDispatcher d { t.dispatchers d with acceptor := true }).dispatchers d =
          { t.dispatchers d with acceptor := true } := Function.update_self ..
      rw [Unused, hset] at hun
      cases hun.2
  · have hu := (hf.routed hr).update (d := d) (v := { t.dispatchers d with acceptor := true })
      (f := t.told) rfl fun x hx => .inl ⟨hx, id⟩
    exact hu

/-! ## A new session -/

theorem Keeps.trans {u : Dispatchers} (h : Keeps s t) (h' : Keeps t u) : Keeps s u :=
  ⟨h'.core, h'.tidy, fun hr => h'.routed (h.routed hr)⟩

/-- A session object is made. -/
theorem Core.newSession (h : s.Core) (htidy : s.Tidy) (hp : p ∈ s.alive) (hfree : s.FreePtr ptr) :
    Keeps s (s.newSession p ptr) := by
  have hne : ∀ x ∈ s.held, x ≠ s.sessionCount := fun x hx => Nat.ne_of_lt (h.held x hx).1
  have hptr : ∀ x ∈ s.held, (s.newSession p ptr).ptrOf x = s.ptrOf x := fun x hx =>
    Function.update_of_ne (hne x hx) _ _
  have hpair : ∀ x ∈ s.held, (s.newSession p ptr).pairOf x = s.pairOf x := fun x hx =>
    Function.update_of_ne (hne x hx) _ _
  have hnew : (s.newSession p ptr).ptrOf s.sessionCount = ptr ∧
      (s.newSession p ptr).pairOf s.sessionCount = p := ⟨Function.update_self .., Function.update_self ..⟩
  refine ⟨⟨h.key, h.ids, h.bound, h.retired, ?_, ?_, ?_, ?_, h.detaching⟩, htidy, ?_⟩
  · intro d q x hx
    obtain ⟨h1, h2, h3, h4⟩ := h.entries d q x hx
    rw [hptr x h3, hpair x h3]
    exact ⟨h1, h2, List.mem_cons_of_mem _ h3, h4⟩
  · intro x hx y hy heq
    rcases List.mem_cons.1 hx with rfl | hx <;> rcases List.mem_cons.1 hy with rfl | hy
    · rfl
    · rw [hnew.1, hptr y hy] at heq
      exact absurd heq.symm (hfree y hy)
    · rw [hnew.1, hptr x hx] at heq
      exact absurd heq (hfree x hx)
    · rw [hptr x hx, hptr y hy] at heq
      exact h.ptrs x hx y hy heq
  · intro x hx
    rcases List.mem_cons.1 hx with rfl | hx
    · rw [hnew.2]
      exact ⟨Nat.lt_succ_self _, hp⟩
    · rw [hpair x hx]
      exact ⟨Nat.lt_succ_of_lt (h.held x hx).1, (h.held x hx).2⟩
  · intro x hx
    exact List.mem_cons_of_mem _ (h.told x hx)
  · intro hr x hx
    have hx' : x ∈ s.held := h.told x hx
    obtain ⟨d, hk, hreads, hroute⟩ := hr x hx
    refine ⟨d, ?_, hreads, ?_⟩
    · rw [hpair x hx']
      exact hk
    · rw [hptr x hx']
      exact hroute

/-- A dispatcher that has a session goes on to have it as a spawned one. -/
theorem Core.spawn (h : s.Core) (htidy : s.Tidy) (hx : x ∈ s.held)
    (hk : s.registry (s.ids (s.pairOf x)) = some d) : Keeps s (s.spawn d x) := by
  have hf : Found s (s.pairOf x) d s :=
    ⟨h, hk, id, fun k e hke _ => ⟨hke, rfl⟩, rfl, rfl, rfl, rfl, rfl, rfl, rfl⟩
  have ha := hf.addSession htidy hx
  have hc := (ha.core.update (d := d) (v := { (s.addSession d x).dispatchers d with
      spawned := s.ptrOf x :: ((s.addSession d x).dispatchers d).spawned })
    (f := (s.addSession d x).told) rfl rfl (fun hnone => absurd hk (hnone _))
    (ha.core.entries d) (fun e _ q y hy => (ha.core.entries e q y hy).2.2.2) ha.core.told)
  refine ⟨⟨hc.key, hc.ids, hc.bound, hc.retired, hc.entries, hc.ptrs, hc.held, hc.told, hc.detaching⟩,
    ?_, fun hr => ?_⟩
  · apply ha.tidy.of_others d
    · intro k e hke hne
      refine ⟨hke, fun hun => ?_⟩
      have hset : (s.spawn d x).dispatchers e = (s.addSession d x).dispatchers e :=
        Function.update_of_ne hne _ _
      rw [Unused, hset] at hun
      exact hun
    · exact fun w hw => hw
    · exact fun e he => he
    · intro k hkd hun
      have hset : (s.spawn d x).dispatchers d = { (s.addSession d x).dispatchers d with
          spawned := s.ptrOf x :: ((s.addSession d x).dispatchers d).spawned } :=
        Function.update_self ..
      rw [Unused, hset] at hun
      exact ha.tidy k d hkd hun
  · have hu := (ha.routed hr).update (d := d) (v := { (s.addSession d x).dispatchers d with
        spawned := s.ptrOf x :: ((s.addSession d x).dispatchers d).spawned })
      (f := (s.addSession d x).told) rfl fun x hx => .inl ⟨hx, id⟩
    exact hu

theorem Core.createTask (h : s.Core) (htidy : s.Tidy) (hk : s.registry k = some d) :
    Keeps s (s.createTask d) := by
  have hc := h.update (d := d) (v := { s.dispatchers d with
      tasks := s.taskCount :: (s.dispatchers d).tasks }) rfl rfl (fun hnone => absurd hk (hnone k))
    (h.entries d) (fun e _ q y hy => (h.entries e q y hy).2.2.2) h.told
  refine ⟨⟨hc.key, hc.ids, hc.bound, hc.retired, hc.entries, hc.ptrs, hc.held, hc.told, hc.detaching⟩,
    ?_, fun hr => ?_⟩
  · apply htidy.of_others d
    · intro k e hke hne
      refine ⟨hke, fun hun => ?_⟩
      have hset : (s.createTask d).dispatchers e = s.dispatchers e := Function.update_of_ne hne _ _
      rw [Unused, hset] at hun
      exact hun
    · exact fun w hw => hw
    · exact fun e he => he
    · intro k hkd hun
      have hset : (s.createTask d).dispatchers d = { s.dispatchers d with
          tasks := s.taskCount :: (s.dispatchers d).tasks } := Function.update_self ..
      rw [Unused, hset] at hun
      exact htidy k d hkd hun
  · have hu := hr.update (d := d) (v := { s.dispatchers d with
        tasks := s.taskCount :: (s.dispatchers d).tasks }) (f := s.told) rfl
      fun x hx => .inl ⟨hx, id⟩
    exact hu

/-- A dispatcher with an acceptor is registered. -/
theorem Core.registered_of_acceptor (h : s.Core) (ha : (s.dispatchers d).acceptor = true) :
    s.registry (s.ids (s.dispatchers d).pair) = some d := by
  by_contra hne
  have hnone : ∀ k, s.registry k ≠ some d := by
    intro k hk
    rw [(h.key k d hk).2.1] at hne
    exact hne hk
  rw [(h.retired d hnone).1.2] at ha
  cases ha

theorem Core.newSessionEvent (h : s.Core) (htidy : s.Tidy) (hfree : s.FreePtr ptr)
    (answer : SpawnAnswer) : Keeps s (s.newSessionEvent d ptr answer) := by
  have hself : Keeps s s := ⟨h, htidy, id⟩
  unfold Dispatchers.newSessionEvent
  split
  swap
  · exact hself
  rename_i hacc
  have hk := h.registered_of_acceptor hacc
  have hp := (h.key _ d hk).2.2.1
  have hn := h.newSession htidy hp hfree
  have hnewPair : (s.newSession (s.dispatchers d).pair ptr).pairOf s.sessionCount =
      (s.dispatchers d).pair := Function.update_self ..
  generalize hm : s.newSession (s.dispatchers d).pair ptr = made at hn
  have hx : s.sessionCount ∈ made.held := by
    rw [← hm]
    exact List.mem_cons_self ..
  have hreg : made.registry (made.ids (made.pairOf s.sessionCount)) = some d := by
    rw [← hm, hnewPair]
    exact hk
  have ha := hn.core.attach hn.tidy hx
  have haeq := hn.core.attach_lookup hx hreg
  have hreg' : (made.attach s.sessionCount).registry ((made.attach s.sessionCount).ids
      ((made.attach s.sessionCount).pairOf s.sessionCount)) = some d := by
    rw [haeq]
    exact hreg
  have hx' : s.sessionCount ∈ (made.attach s.sessionCount).held := by
    rw [haeq]
    exact hx
  have hsp := ha.core.spawn ha.tidy hx' hreg'
  have hall := (hn.trans ha).trans hsp
  have htask : Keeps s (((made.attach s.sessionCount).spawn d s.sessionCount).createTask d) := by
    generalize made.attach s.sessionCount = u at hreg' hsp hall
    exact hall.trans (hsp.core.createTask hsp.tidy hreg')
  unfold Dispatchers.spawnServerSession
  split
  · exact hself
  · dsimp only
    rw [hm]
    cases answer with
    | factoryRaises attached =>
      cases attached with
      | false => exact hself
      | true => exact hn.trans ha
    | acceptorRaises => exact hall
    | accepts coroutine =>
      cases coroutine with
      | false => exact hall
      | true => exact htask

/-! ## Sessions leave -/

theorem of_update_false {f : ℕ → Bool} (h : Function.update f x false y = true) :
    y ≠ x ∧ f y = true := by
  by_cases hyx : y = x
  · rw [hyx, Function.update_self] at h
    cases h
  · rw [Function.update_of_ne hyx] at h
    exact ⟨hyx, h⟩

/-- A session that is not with a dispatcher is told to be gone. -/
theorem Core.untell (h : s.Core) (htidy : s.Tidy)
    (hnone : ∀ d ptr, (s.dispatchers d).sessions.lookup ptr ≠ some x) :
    Keeps s { s with told := Function.update s.told x false } := by
  refine ⟨⟨h.key, h.ids, h.bound, h.retired, ?_, h.ptrs, h.held, ?_, h.detaching⟩, htidy, ?_⟩
  · intro d ptr y hy
    obtain ⟨h1, h2, h3, h4⟩ := h.entries d ptr y hy
    have hne : y ≠ x := by
      rintro rfl
      exact hnone d ptr hy
    exact ⟨h1, h2, h3, (Function.update_of_ne hne _ _).trans h4⟩
  · intro y hy
    exact h.told y (of_update_false hy).2
  · intro hr y hy
    exact hr y (of_update_false hy).2

/-- Where the pair has no dispatcher, no dispatcher has the session. -/
theorem Core.unrouted_of_none (h : s.Core) (hk : s.registry (s.ids (s.pairOf x)) = none) (d ptr : ℕ) :
    (s.dispatchers d).sessions.lookup ptr ≠ some x := by
  intro hlook
  rw [h.registered hlook] at hk
  cases hk

/-- After a session left, all dispatchers but its own are as they were. -/
theorem removeSession_unused (hne : e ≠ d) (hun : (s.removeSession d x).Unused e) : s.Unused e := by
  have hset : (s.removeSession d x).dispatchers e = s.dispatchers e := Function.update_of_ne hne _ _
  rw [Unused, hset] at hun
  exact hun

theorem Core.release (h : s.Core) (htidy : s.Tidy) (hx : x ∈ s.held) : Keeps s (s.release x) := by
  unfold Dispatchers.release
  rw [h.lookup_eq (h.held x hx).2]
  split
  · rename_i hnone
    exact h.untell htidy (h.unrouted_of_none hnone)
  · rename_i d hk
    have hc := h.removeSession hx hk
    have hr : s.Routed → (s.removeSession d x).Routed := fun hr => hr.removeSession h hx
    unfold leave
    split
    · refine ⟨⟨hc.key, hc.ids, hc.bound, hc.retired, hc.entries, hc.ptrs, hc.held, hc.told,
        hc.detaching⟩, ?_, hr⟩
      apply htidy.of_others d
      · exact fun k e hke hne => ⟨hke, removeSession_unused hne⟩
      · exact fun w hw => hw
      · exact fun e he => List.mem_cons_of_mem _ he
      · exact fun k _ _ => .inr (List.mem_cons_self ..)
    · rename_i hused
      refine ⟨hc, ?_, hr⟩
      apply htidy.of_others d
      · exact fun k e hke hne => ⟨hke, removeSession_unused hne⟩
      · exact fun w hw => hw
      · exact fun e he => he
      · exact fun k _ hun => absurd hun hused

/-- An unused dispatcher goes. -/
theorem Core.retired_keeps (h : s.Core) (hk : s.registry k = some d) (hun : s.Unused d)
    (hother : ∀ k' e, s.registry k' = some e → e ≠ d → s.Unused e →
      (∃ w ∈ s.detaching, w.key = k' ∧ w.dispatcher = e) ∨ e ∈ s.idle) :
    Keeps s (s.retire k d) := by
  refine ⟨h.retire hk hun, ?_, fun hr => hr.retire hk hun⟩
  intro k' e hk' hune
  have hkk : k' ≠ k := by
    rintro rfl
    rw [show (s.retire k' d).registry k' = none from Function.update_self ..] at hk'
    cases hk'
  have hk'' : s.registry k' = some e := (Function.update_of_ne hkk _ _).symm.trans hk'
  have hne : e ≠ d := by
    rintro rfl
    exact hkk (h.key_unique hk'' hk)
  have hset : (s.retire k d).dispatchers e = s.dispatchers e := Function.update_of_ne hne _ _
  rw [Unused, hset] at hune
  exact hother k' e hk'' hne hune

theorem Core.detach (h : s.Core) (htidy : s.Tidy) (hx : x ∈ s.held) (current : Option ℕ) :
    Keeps s (s.detach x current) := by
  unfold Dispatchers.detach
  split
  · exact ⟨h, htidy, id⟩
  · dsimp only
    rw [show Dispatchers.lookup { s with attached := Function.update s.attached x false }
      (s.pairOf x) = s.lookup (s.pairOf x) from rfl, h.lookup_eq (h.held x hx).2]
    have ha := h.aside (Function.update s.attached x false) s.accepted s.idle s.running s.taskCount
    split
    · rename_i hnone
      have hu := ha.untell htidy (x := x) (ha.unrouted_of_none hnone)
      exact ⟨hu.core, hu.tidy, hu.routed⟩
    · rename_i d hk
      have hc := ha.removeSession hx hk
      have hr : s.Routed → (Dispatchers.removeSession
          { s with attached := Function.update s.attached x false } d x).Routed := fun hr =>
        Routed.removeSession (show Routed { s with attached := _ } from hr) ha hx
      generalize ht : Dispatchers.removeSession
        { s with attached := Function.update s.attached x false } d x = t at hc hr
      have hother : ∀ k' e, t.registry k' = some e → e ≠ d → t.Unused e →
          (∃ w ∈ t.detaching, w.key = k' ∧ w.dispatcher = e) ∨ e ∈ t.idle := by
        intro k' e hke hne hun
        rw [← ht] at hke hun ⊢
        exact htidy k' e hke (removeSession_unused hne hun)
      have hkt : t.registry (t.ids (t.pairOf x)) = some d := by
        rw [← ht]
        exact hk
      split
      · rename_i hused
        refine ⟨hc, fun k' e hke hun => ?_, hr⟩
        by_cases hne : e = d
        · exact absurd (hne ▸ hun) hused
        · exact hother k' e hke hne hun
      · rename_i hun
        have hun' : t.Unused d := not_not.1 hun
        split
        · have hret := hc.retired_keeps hkt hun' hother
          exact ⟨hret.core, hret.tidy, fun hs => hret.routed (hr hs)⟩
        · refine ⟨⟨hc.key, hc.ids, hc.bound, hc.retired, hc.entries, hc.ptrs, hc.held, hc.told, ?_⟩,
            ?_, hr⟩
          · intro w hw
            rcases List.mem_append.1 hw with hw | hw
            · exact hc.detaching w hw
            · cases List.mem_singleton.1 hw
              obtain ⟨hlt, hid, halive, _⟩ := hc.key _ d hkt
              exact ⟨hlt, hid.symm, halive⟩
          · intro k' e hke hune
            by_cases hne : e = d
            · subst hne
              refine .inl ⟨_, List.mem_append_right _ (List.mem_singleton_self _), ?_, rfl⟩
              exact hc.key_unique hkt hke
            · rcases hother k' e hke hne hune with ⟨w, hw, hwk, hwd⟩ | hi
              · exact .inl ⟨w, List.mem_append_left _ hw, hwk, hwd⟩
              · exact .inr hi

/-- One of the waiting detaches waits no more. -/
theorem Core.eraseDetaching (h : s.Core) (n : ℕ) :
    Core { s with detaching := s.detaching.eraseIdx n } :=
  ⟨h.key, h.ids, h.bound, h.retired, h.entries, h.ptrs, h.held, h.told,
    fun w hw => h.detaching w (List.mem_of_mem_eraseIdx hw)⟩

/-- The other detaches still account for their dispatchers. -/
theorem Tidy.eraseDetaching (h : s.Tidy) {n : ℕ} {w : Detaching} (hw : s.detaching[n]? = some w)
    (hk : s.registry k = some e) (hun : s.Unused e) :
    (k = w.key ∧ e = w.dispatcher) ∨
      (∃ v ∈ s.detaching.eraseIdx n, v.key = k ∧ v.dispatcher = e) ∨ e ∈ s.idle := by
  rcases h k e hk hun with ⟨v, hv, hvk, hvd⟩ | hi
  · obtain ⟨m, hm⟩ := List.mem_iff_getElem?.1 hv
    by_cases hmn : m = n
    · subst hmn
      cases hm.symm.trans hw
      exact .inl ⟨hvk.symm, hvd.symm⟩
    · exact .inr (.inl ⟨v, List.mem_eraseIdx_iff_getElem?.2 ⟨m, hmn, hm⟩, hvk, hvd⟩)
  · exact .inr (.inr hi)

theorem Core.resume (h : s.Core) (htidy : s.Tidy) {n : ℕ} {w : Detaching}
    (hw : s.detaching[n]? = some w) :
    Keeps s (Dispatchers.resume { s with detaching := s.detaching.eraseIdx n } w) := by
  have hc := h.eraseDetaching n
  unfold Dispatchers.resume
  split
  · rename_i hcond
    have hret := hc.retired_keeps hcond.1 hcond.2 fun k' e hke hne hun => by
      rcases htidy.eraseDetaching hw hke hun with ⟨_, hd⟩ | hrest
      · exact absurd hd hne
      · exact hrest
    exact ⟨hret.core, hret.tidy, fun hr => hret.routed hr⟩
  · rename_i hcond
    refine ⟨hc, fun k' e hke hun => ?_, fun hr => hr⟩
    rcases htidy.eraseDetaching hw hke hun with ⟨rfl, rfl⟩ | hrest
    · exact absurd ⟨hke, hun⟩ hcond
    · exact hrest

theorem Core.cancel (h : s.Core) (htidy : s.Tidy) {n : ℕ} {w : Detaching}
    (hw : s.detaching[n]? = some w) :
    Keeps s (leave { s with detaching := s.detaching.eraseIdx n } w.dispatcher) := by
  have hc := h.eraseDetaching n
  unfold leave
  split
  · refine ⟨hc.aside _ _ (w.dispatcher :: s.idle) _ _, fun k' e hke hun => ?_, fun hr => hr⟩
    rcases htidy.eraseDetaching hw hke hun with ⟨_, rfl⟩ | hv | hi
    · exact .inr (List.mem_cons_self ..)
    · exact .inl hv
    · exact .inr (List.mem_cons_of_mem _ hi)
  · rename_i hused
    refine ⟨hc, fun k' e hke hun => ?_, fun hr => hr⟩
    rcases htidy.eraseDetaching hw hke hun with ⟨_, rfl⟩ | hrest
    · exact absurd hun hused
    · exact hrest

/-! ## An acceptor leaves -/

/-- What is routed once an unused dispatcher is gone was routed before. -/
theorem Routed.of_retire (h : (s.retire k d).Routed) : s.Routed ∨ ¬ (s.dispatchers d).Empty := by
  by_cases hempty : (s.dispatchers d).Empty
  · left
    intro x hx
    obtain ⟨e, hke, hr, hlook⟩ := h x hx
    have hed : e ≠ d := by
      rintro rfl
      have hself : (s.retire k e).dispatchers e = { s.dispatchers e with reads := false } :=
        Function.update_self ..
      rw [hself] at hr
      cases hr
    have hset : (s.retire k d).dispatchers e = s.dispatchers e := Function.update_of_ne hed _ _
    rw [routeEvent, hset] at hlook
    rw [hset] at hr
    refine ⟨e, ?_, hr, hlook⟩
    by_cases hkk : s.ids (s.pairOf x) = k
    · have hnone : (s.retire k d).registry k = none := Function.update_self ..
      rw [show (s.retire k d).ids = s.ids from rfl, show (s.retire k d).pairOf = s.pairOf from rfl,
        hkk, hnone] at hke
      cases hke
    · exact (Function.update_of_ne hkk _ _).symm.trans hke
  · exact .inr hempty

theorem Core.detachAcceptor (h : s.Core) (htidy : s.Tidy) (hp : p ∈ s.alive) :
    (s.detachAcceptor p).Core ∧ (s.detachAcceptor p).Tidy ∧ (s.Routed →
      ((s.detachAcceptor p).Routed ↔ ∀ d, s.registry (s.ids p) = some d → s.Spawned d)) := by
  unfold Dispatchers.detachAcceptor
  rw [h.lookup_eq hp]
  split
  · rename_i hnone
    refine ⟨h, htidy, fun hr => ⟨fun _ d hd => ?_, fun _ => hr⟩⟩
    rw [hnone] at hd
    cases hd
  · rename_i d hk
    have hc := h.dropSpawned hk
    have hset : (s.dropSpawned d).dispatchers d = _ := Function.update_self ..
    have hacc : ((s.dropSpawned d).dispatchers d).acceptor = false := by
      rw [hset]
    have hother : ∀ e, e ≠ d → (s.dropSpawned d).dispatchers e = s.dispatchers e := fun e hne =>
      Function.update_of_ne hne _ _
    have hiff : s.Routed → ((s.dropSpawned d).Routed ↔
        ∀ e, some d = some e → s.Spawned e) := by
      intro hr
      rw [hr.dropSpawned_iff h]
      exact ⟨fun hs e he => Option.some.inj he ▸ hs, fun hs => hs d rfl⟩
    dsimp only
    split
    · rename_i hempty
      have hun : (s.dropSpawned d).Unused d := ⟨hempty, hacc⟩
      have hret := hc.retired_keeps (k := s.ids p) hk hun fun k' e hke hne hune => by
        rw [Unused, hother e hne] at hune
        exact htidy k' e hke hune
      refine ⟨hret.core, hret.tidy, fun hr => ?_⟩
      rw [hk, ← hiff hr]
      refine ⟨fun hs => ?_, hret.routed⟩
      rcases Routed.of_retire hs with hs | hs
      · exact hs
      · exact absurd hempty hs
    · rename_i hnonempty
      refine ⟨hc, fun k' e hke hune => ?_, fun hr => ?_⟩
      · by_cases hne : e = d
        · subst hne
          exact absurd hune.1 hnonempty
        · rw [Unused, hother e hne] at hune
          exact htidy k' e hke hune
      · rw [hk]
        exact hiff hr

end Dispatchers

end Aiopquic
