import Mathlib.Logic.Relation
import Mathlib.Logic.Function.Basic

/-!
# Interleaved programs over a shared state

A thread's operation is a resumption (`Prog`): either it has returned, or it has one atomic action
to do on the shared state and continues with what it saw there. A configuration runs one such
program for every thread, and a step lets one thread do one action, so a run of `Step` is one
sequentially consistent interleaving.

The proof rules are rely–guarantee. A `Contract` says what a thread may assume of the others
(`rely`), what each of its own actions has to respect (`guar`), and the invariant that every action
of everybody keeps. `wp C p Q s` says that from `s` the program `p` meets the contract at every
action, whatever the others do in between, and ends in `Q`. `Outline.reachable` turns one `wp` proof
for each operation of each thread into facts about every reachable configuration.

A contract may also be proved for some runs only, those in which the thread acts in states that
satisfy `may`; `Outline.reachableWhile` is the result for these.
-/

namespace Interleave

/-! ## Programs -/

/-- A program over the shared state `σ` that returns an `α`: `act f k` does the one atomic step `f`
and goes on with `k` of the state it found. -/
inductive Prog (σ α : Type) : Type where
  | ret (a : α) : Prog σ α
  | act (f : σ → σ) (k : σ → Prog σ α) : Prog σ α

variable {σ τ α β ι : Type}

namespace Prog

/-- Sequential composition. -/
def bind : Prog σ α → (α → Prog σ β) → Prog σ β
  | ret a, g => g a
  | act f k, g => act f fun s => (k s).bind g

instance : Monad (Prog σ) where
  pure := ret
  bind := bind

@[simp] theorem pure_eq (a : α) : (pure a : Prog σ α) = ret a := rfl

@[simp] theorem ret_bind (a : α) (g : α → Prog σ β) : (ret a >>= g) = g a := rfl

@[simp] theorem act_bind (f : σ → σ) (k : σ → Prog σ α) (g : α → Prog σ β) :
    (act f k >>= g) = act f fun s => k s >>= g := rfl

theorem bind_assoc {γ : Type} (p : Prog σ α) (g : α → Prog σ β) (h : β → Prog σ γ) :
    (p >>= g >>= h) = p >>= fun a => g a >>= h := by
  induction p with
  | ret a => rfl
  | act f k ih =>
    simp only [act_bind]
    congr 1
    funext s
    exact ih s

/-- One atomic step that changes the state by `f` and returns `g` of the state before. -/
def rmw (f : σ → σ) (g : σ → α) : Prog σ α := act f fun s => ret (g s)

/-- One atomic read. -/
def load (g : σ → α) : Prog σ α := rmw id g

/-- One atomic write. -/
def modify (f : σ → σ) : Prog σ Unit := rmw f fun _ => ()

/-- Run `p` only if `c` holds. -/
def when (c : Prop) [Decidable c] (p : Prog σ Unit) : Prog σ Unit := if c then p else ret ()

end Prog

open Prog

/-! ## Locations -/

/-- A part of the shared state that programs over `β` alone can run on. -/
structure Loc (σ β : Type) where
  get : σ → β
  set : β → σ → σ
  get_set : ∀ b s, get (set b s) = b

attribute [simp] Loc.get_set

/-- A part of a part. -/
def Loc.comp {γ : Type} (L : Loc σ β) (M : Loc β γ) : Loc σ γ where
  get := fun s => M.get (L.get s)
  set := fun c s => L.set (M.set c (L.get s)) s
  get_set := fun c s => by simp

/-- Run a program over `β` on the part of the state at `L`. -/
def Prog.on (L : Loc σ β) : Prog β α → Prog σ α
  | .ret a => .ret a
  | .act f k => .act (fun s => L.set (f (L.get s)) s) fun s => (k (L.get s)).on L

@[simp] theorem Prog.on_ret (L : Loc σ β) (a : α) : (Prog.ret a : Prog β α).on L = .ret a := rfl

@[simp] theorem Prog.on_pure (L : Loc σ β) (a : α) : (pure a : Prog β α).on L = pure a := rfl

theorem Prog.on_rmw (L : Loc σ β) (f : β → β) (g : β → α) :
    (rmw f g).on L = rmw (fun s => L.set (f (L.get s)) s) fun s => g (L.get s) := rfl

theorem Prog.on_modify (L : Loc σ β) (f : β → β) :
    (modify f).on L = modify fun s => L.set (f (L.get s)) s := rfl

theorem Prog.on_load (L : Loc σ β) (hL : ∀ s, L.set (L.get s) s = s) (g : β → α) :
    (load g).on L = load fun s => g (L.get s) := by
  rw [load, Prog.on_rmw, load]
  congr 1
  funext s
  exact hL s

theorem Prog.on_bind {γ : Type} (L : Loc σ β) (p : Prog β α) (g : α → Prog β γ) :
    (p >>= g).on L = p.on L >>= fun a => (g a).on L := by
  induction p with
  | ret a => rfl
  | act f k ih =>
    simp only [act_bind, Prog.on]
    congr 1
    funext s
    exact ih (L.get s)

theorem Prog.on_on {γ : Type} (L : Loc σ β) (M : Loc β γ) (p : Prog γ α) :
    (p.on M).on L = p.on (L.comp M) := by
  induction p with
  | ret a => rfl
  | act f k ih =>
    simp only [Prog.on]
    congr 1
    funext s
    exact ih (M.get (L.get s))

/-! ## Contracts and weakest preconditions -/

/-- What a thread assumes and promises at each atomic step. `may` is what the run grants of the
states in which the thread acts. -/
structure Contract (σ : Type) where
  inv : σ → Prop
  rely : σ → σ → Prop
  guar : σ → σ → Prop
  may : σ → Prop := fun _ => True
  rely_refl : ∀ s, rely s s
  rely_trans : ∀ {s t u}, rely s t → rely t u → rely s u
  guar_refl : ∀ s, guar s s

/-- From `s`, every action of `p` meets the contract and `p` can only return into `Q`. -/
def wp (C : Contract σ) : Prog σ α → (α → σ → Prop) → σ → Prop
  | .ret a, Q, s => Q a s
  | .act f k, Q, s => ∀ t, C.rely s t → C.inv t → C.may t →
      C.guar t (f t) ∧ C.inv (f t) ∧ wp C (k t) Q (f t)

section Rules

variable {C : Contract σ} {Q Q' : α → σ → Prop} {s t : σ}

@[simp] theorem wp_ret (a : α) : wp C (.ret a) Q s ↔ Q a s := Iff.rfl

@[simp] theorem wp_pure (a : α) : wp C (pure a) Q s ↔ Q a s := Iff.rfl

theorem wp_mono {p : Prog σ α} (h : wp C p Q s) (hs : C.inv s)
    (hQ : ∀ a t, C.inv t → Q a t → Q' a t) : wp C p Q' s := by
  induction p generalizing s with
  | ret a => exact hQ a s hs h
  | act f k ih =>
    intro t hr hi hm
    obtain ⟨hg, hi', hk⟩ := h t hr hi hm
    exact ⟨hg, hi', ih t hk hi'⟩

theorem wp_bind {p : Prog σ β} {g : β → Prog σ α}
    (h : wp C p (fun b t => wp C (g b) Q t) s) : wp C (p >>= g) Q s := by
  induction p generalizing s with
  | ret a => exact h
  | act f k ih =>
    intro t hr hi hm
    obtain ⟨hg, hi', hk⟩ := h t hr hi hm
    exact ⟨hg, hi', ih t hk⟩

/-- Sequence with a known specification of the first part. -/
theorem wp_seq {p : Prog σ β} {g : β → Prog σ α} {R : β → σ → Prop}
    (h : wp C p R s) (hs : C.inv s) (hR : ∀ b t, C.inv t → R b t → wp C (g b) Q t) :
    wp C (p >>= g) Q s :=
  wp_bind (wp_mono h hs hR)

/-- A program that still has to act does not care what the others did meanwhile, and a program that
has returned only needs its postcondition to be stable. -/
theorem wp_stable {p : Prog σ α} (hQ : ∀ a s t, Q a s → C.rely s t → C.inv t → Q a t)
    (h : wp C p Q s) (hr : C.rely s t) (hi : C.inv t) : wp C p Q t := by
  cases p with
  | ret a => exact hQ a s t h hr hi
  | act f k =>
    intro u hu hui hm
    exact h u (C.rely_trans hr hu) hui hm

/-- The state in which a program acts first is one the run grants. -/
theorem wp_act_may {f : σ → σ} {k : σ → Prog σ α}
    (h : ∀ t, C.rely s t → C.inv t → C.may t → wp C (.act f k) Q t) : wp C (.act f k) Q s :=
  fun t hr hi hm => h t hr hi hm t (C.rely_refl t) hi hm

theorem wp_rmw_bind {f : σ → σ} {g : σ → β} {k : β → Prog σ α}
    (h : ∀ t, C.rely s t → C.inv t → C.guar t (f t) ∧ C.inv (f t) ∧ wp C (k (g t)) Q (f t)) :
    wp C (rmw f g >>= k) Q s :=
  fun t hr hi _ => h t hr hi

theorem wp_load_bind {g : σ → β} {k : β → Prog σ α}
    (h : ∀ t, C.rely s t → C.inv t → wp C (k (g t)) Q t) :
    wp C (load g >>= k) Q s :=
  fun t hr hi _ => ⟨C.guar_refl t, hi, h t hr hi⟩

theorem wp_modify_bind {f : σ → σ} {k : Unit → Prog σ α}
    (h : ∀ t, C.rely s t → C.inv t → C.guar t (f t) ∧ C.inv (f t) ∧ wp C (k ()) Q (f t)) :
    wp C (modify f >>= k) Q s :=
  fun t hr hi _ => h t hr hi

/-- What is known of a program is known of what is left of it after its first action. -/
theorem wp_load_rest {g : σ → β} {k : β → Prog σ α} (h : wp C (load g >>= k) Q s) (hr : C.rely s t)
    (hi : C.inv t) (hm : C.may t) : wp C (k (g t)) Q t :=
  (h t hr hi hm).2.2

theorem wp_modify_rest {f : σ → σ} {k : Unit → Prog σ α} (h : wp C (modify f >>= k) Q s)
    (hr : C.rely s t)
    (hi : C.inv t) (hm : C.may t) : C.guar t (f t) ∧ C.inv (f t) ∧ wp C (k ()) Q (f t) :=
  h t hr hi hm

theorem wp_when_bind {c : Prop} [Decidable c] {p : Prog σ Unit} {k : Unit → Prog σ α}
    (ht : c → wp C (p >>= k) Q s) (hf : ¬ c → wp C (k ()) Q s) : wp C (when c p >>= k) Q s := by
  unfold when
  split
  · exact ht ‹_›
  · exact hf ‹_›

theorem wp_load {g : σ → α} (h : ∀ t, C.rely s t → C.inv t → Q (g t) t) :
    wp C (load g) Q s :=
  fun t hr hi _ => ⟨C.guar_refl t, hi, h t hr hi⟩

theorem wp_modify {f : σ → σ} {Q : Unit → σ → Prop}
    (h : ∀ t, C.rely s t → C.inv t → C.guar t (f t) ∧ C.inv (f t) ∧ Q () (f t)) :
    wp C (modify f) Q s :=
  fun t hr hi _ => h t hr hi

end Rules

/-! ## Running a component inside a larger state -/

/-- `D` is a contract for the component at `L` of a system under contract `C`, while the fact `F`
about the whole system holds: the system's interference looks like `D.rely` at `L`, and each step
that `D` allows is one that `C` allows. -/
structure Embeds (C : Contract σ) (L : Loc σ β) (D : Contract β) (F : σ → Prop) : Prop where
  inv : ∀ s, C.inv s → D.inv (L.get s)
  rely : ∀ s t, F s → C.rely s t → C.inv t → D.rely (L.get s) (L.get t) ∧ F t
  step : ∀ s b, C.inv s → F s → D.guar (L.get s) b → D.inv b →
    C.guar s (L.set b s) ∧ C.inv (L.set b s) ∧ F (L.set b s)
  may : ∀ s, C.may s → D.may (L.get s) := by intros; trivial

/-- A specification of a component program holds of it inside the system. -/
theorem wp_on {C : Contract σ} {L : Loc σ β} {D : Contract β} {F : σ → Prop} {p : Prog β α}
    {Q : α → β → Prop} {s : σ} (E : Embeds C L D F) (hF : F s) (h : wp D p Q (L.get s)) :
    wp C (p.on L) (fun a t => Q a (L.get t) ∧ F t) s := by
  induction p generalizing s with
  | ret a => exact ⟨h, hF⟩
  | act f k ih =>
    intro t hr hi hm
    obtain ⟨hrel, hFt⟩ := E.rely s t hF hr hi
    obtain ⟨hg, hi', hk⟩ := h (L.get t) hrel (E.inv t hi) (E.may t hm)
    obtain ⟨hG, hI, hFt'⟩ := E.step t _ hi hFt hg hi'
    refine ⟨hG, hI, ih (L.get t) hFt' ?_⟩
    rw [L.get_set]
    exact hk

/-! ## Programs all of whose actions respect a relation -/

/-- Every action of `p`, wherever it is done, relates the state before to the state after by `G`. -/
def Only (G : σ → σ → Prop) : Prog σ α → Prop
  | .ret _ => True
  | .act f k => ∀ s, G s (f s) ∧ Only G (k s)

@[simp] theorem only_ret (G : σ → σ → Prop) (a : α) : Only G (.ret a : Prog σ α) := trivial

theorem only_mono {G G' : σ → σ → Prop} {p : Prog σ α} (hp : Only G p) (h : ∀ s t, G s t → G' s t) :
    Only G' p := by
  induction p with
  | ret a => trivial
  | act f k ih => exact fun s => ⟨h s _ (hp s).1, ih s (hp s).2⟩

theorem only_bind {G : σ → σ → Prop} {p : Prog σ β} {g : β → Prog σ α} (hp : Only G p)
    (hg : ∀ b, Only G (g b)) : Only G (p >>= g) := by
  induction p with
  | ret a => exact hg a
  | act f k ih => exact fun s => ⟨(hp s).1, ih s (hp s).2⟩

theorem only_rmw {G : σ → σ → Prop} {f : σ → σ} {g : σ → α} (h : ∀ s, G s (f s)) :
    Only G (rmw f g) :=
  fun s => ⟨h s, trivial⟩

theorem only_load {G : σ → σ → Prop} {g : σ → α} (h : ∀ s, G s s) : Only G (load g) :=
  fun s => ⟨h s, trivial⟩

theorem only_modify {G : σ → σ → Prop} {f : σ → σ} (h : ∀ s, G s (f s)) : Only G (modify f) :=
  fun s => ⟨h s, trivial⟩

/-- A component program changes nothing outside its location. -/
theorem only_on {L : Loc σ β} (p : Prog β α) : Only (fun s t => ∃ b, t = L.set b s) (p.on L) := by
  induction p with
  | ret a => trivial
  | act f k ih => exact fun s => ⟨⟨_, rfl⟩, ih (L.get s)⟩

/-- What its actions do to the location is what they do there. -/
theorem Only.on {L : Loc σ β} {G : β → β → Prop} {p : Prog β α} (hp : Only G p) :
    Only (fun s t => ∃ b, G (L.get s) b ∧ t = L.set b s) (p.on L) := by
  induction p with
  | ret a => trivial
  | act f k ih => exact fun s => ⟨⟨_, (hp (L.get s)).1, rfl⟩, ih (L.get s) (hp (L.get s)).2⟩

theorem only_when {G : σ → σ → Prop} {c : Prop} [Decidable c] {p : Prog σ Unit} (h : Only G p) :
    Only G (when c p) := by
  unfold when
  split
  · exact h
  · trivial

/-- A program whose actions all respect `G` keeps every assertion that `G` and the others keep. -/
theorem wp_only {C : Contract σ} {G : σ → σ → Prop} {F : σ → Prop} {p : Prog σ α} {s : σ}
    (hp : Only G p) (hF : F s)
    (hr : ∀ s t, F s → C.rely s t → C.inv t → F t)
    (hG : ∀ s t, C.inv s → F s → G s t → C.guar s t ∧ C.inv t ∧ F t) :
    wp C p (fun _ => F) s := by
  induction p generalizing s with
  | ret a => exact hF
  | act f k ih =>
    intro t hst hi _
    obtain ⟨hg, hi', hF'⟩ := hG t (f t) hi (hr s t hF hst hi) (hp t).1
    exact ⟨hg, hi', ih t (hp t).2 hF'⟩

/-- The same contract with a further promise. -/
def Contract.also (C : Contract σ) (G : σ → σ → Prop) (hG : ∀ s, G s s) : Contract σ :=
  { C with
    guar := fun s t => C.guar s t ∧ G s t
    guar_refl := fun s => ⟨C.guar_refl s, hG s⟩ }

/-- A program whose actions all keep the further promise needs no new proof. -/
theorem wp_also {C : Contract σ} {G : σ → σ → Prop} {hG : ∀ s, G s s} {Q : α → σ → Prop}
    {p : Prog σ α} {s : σ}
    (hp : Only G p) (h : wp C p Q s) : wp (C.also G hG) p Q s := by
  induction p generalizing s with
  | ret a => exact h
  | act f k ih =>
    intro t hr hi hm
    obtain ⟨hg, hi', hk⟩ := h t hr hi hm
    exact ⟨⟨hg, (hp t).1⟩, hi', ih t (hp t).2 hk⟩

/-- Nor does a program whose promise gives the further one, while a fact `F` that the program never
breaks holds. -/
theorem wp_also_while {C : Contract σ} {G : σ → σ → Prop} {hG : ∀ s, G s s} {Q : α → σ → Prop}
    {F : σ → Prop}
    {p : Prog σ α} {s : σ} (hF : F s) (hr : ∀ s t, F s → C.rely s t → F t)
    (hguar : ∀ s t, F s → C.guar s t → G s t ∧ F t) (h : wp C p Q s) : wp (C.also G hG) p Q s := by
  induction p generalizing s with
  | ret a => exact h
  | act f k ih =>
    intro t hst hi hm
    obtain ⟨hg, hi', hk⟩ := h t hst hi hm
    obtain ⟨hG', hF'⟩ := hguar t (f t) (hr s t hF hst) hg
    exact ⟨⟨hg, hG'⟩, hi', ih t hF' hk⟩

/-- Two contracts at once. -/
def Contract.both (C D : Contract σ) : Contract σ where
  inv := fun s => C.inv s ∧ D.inv s
  rely := fun s t => C.rely s t ∧ D.rely s t
  guar := fun s t => C.guar s t ∧ D.guar s t
  may := fun s => C.may s ∧ D.may s
  rely_refl := fun s => ⟨C.rely_refl s, D.rely_refl s⟩
  rely_trans := fun h h' => ⟨C.rely_trans h.1 h'.1, D.rely_trans h.2 h'.2⟩
  guar_refl := fun s => ⟨C.guar_refl s, D.guar_refl s⟩

/-- What is proved of a program under each of two contracts holds under both. -/
theorem wp_both {C D : Contract σ} {Q R : α → σ → Prop} {p : Prog σ α} {s : σ} (h : wp C p Q s)
    (h' : wp D p R s) : wp (C.both D) p (fun a t => Q a t ∧ R a t) s := by
  induction p generalizing s with
  | ret a => exact ⟨h, h'⟩
  | act f k ih =>
    intro t hr hi hm
    obtain ⟨hg, hinv, hk⟩ := h t hr.1 hi.1 hm.1
    obtain ⟨hg', hinv', hk'⟩ := h' t hr.2 hi.2 hm.2
    exact ⟨⟨hg, hg'⟩, ⟨hinv, hinv'⟩, ih t hk hk'⟩

/-! ## Programs that change nothing -/

/-- No action of `p` changes the state. -/
def Reads (p : Prog σ α) : Prop := Only (fun s t => t = s) p

theorem reads_load_bind {g : σ → β} {k : β → Prog σ α} (hk : ∀ b, Reads (k b)) :
    Reads (load g >>= k) :=
  only_bind (only_load fun _ => rfl) hk

theorem Reads.on {L : Loc σ β} {p : Prog β α} (hp : Reads p) (hL : ∀ s, L.set (L.get s) s = s) :
    Reads (p.on L) := by
  induction p with
  | ret a => trivial
  | act f k ih =>
    refine fun s => ⟨?_, ih (L.get s) (hp (L.get s)).2⟩
    show L.set (f (L.get s)) s = s
    rw [(hp (L.get s)).1]
    exact hL s

theorem Reads.only {G : σ → σ → Prop} {p : Prog σ α} (hp : Reads p) (hG : ∀ s, G s s) : Only G p :=
  only_mono hp fun s t h => by rw [h]; exact hG s

/-- A program that changes nothing keeps every assertion that the others keep. -/
theorem wp_reads {C : Contract σ} {F : σ → Prop} {Q : α → σ → Prop} {p : Prog σ α} {s : σ}
    (hp : Reads p)
    (hF : F s) (hr : ∀ s t, F s → C.rely s t → C.inv t → F t) (h : wp C p Q s) :
    wp C p (fun a t => Q a t ∧ F t) s := by
  induction p generalizing s with
  | ret a => exact ⟨h, hF⟩
  | act f k ih =>
    intro t hst hi hm
    obtain ⟨hg, hi', hk⟩ := h t hst hi hm
    refine ⟨hg, hi', ih t (hp t).2 ?_ hk⟩
    rw [(hp t).1]
    exact hr s t hF hst hi

/-! ## Configurations and runs -/

/-- The shared state and what is left of each thread's current operation. -/
structure Config (ι σ : Type) where
  mem : σ
  prog : ι → Prog σ Unit

namespace Config

/-- Thread `i` is outside an operation. -/
def Idle (c : Config ι σ) (i : ι) : Prop := c.prog i = .ret ()

/-- Whether thread `i` is outside an operation. -/
def isIdle (c : Config ι σ) (i : ι) : Bool :=
  match c.prog i with
  | .ret _ => true
  | .act _ _ => false

theorem idle_of_isIdle {c : Config ι σ} {i : ι} (h : c.isIdle i = true) : c.Idle i := by
  unfold isIdle at h
  split at h
  · assumption
  · exact absurd h Bool.false_ne_true

/-- All threads outside an operation. -/
def start (s : σ) : Config ι σ := ⟨s, fun _ => .ret ()⟩

end Config

/-- A rely–guarantee proof of a system: an invariant, a contract for each thread, what each thread
knows between its operations, and a proof of every operation. -/
structure Outline (menu : ι → σ → Prog σ Unit → Prop) where
  inv : σ → Prop
  rely : ι → σ → σ → Prop
  guar : ι → σ → σ → Prop
  idle : ι → σ → Prop
  may : ι → σ → Prop := fun _ _ => True
  rely_refl : ∀ i s, rely i s s
  rely_trans : ∀ i {s t u}, rely i s t → rely i t u → rely i s u
  guar_refl : ∀ i s, guar i s s
  guar_rely : ∀ {i j s t}, i ≠ j → inv s → guar j s t → rely i s t
  idle_stable : ∀ {i s t}, idle i s → rely i s t → inv t → idle i t

namespace Outline

variable {menu : ι → σ → Prog σ Unit → Prop}

/-- The contract of thread `i`. -/
def contract (O : Outline menu) (i : ι) : Contract σ where
  inv := O.inv
  rely := O.rely i
  guar := O.guar i
  may := O.may i
  rely_refl := O.rely_refl i
  rely_trans := O.rely_trans i
  guar_refl := O.guar_refl i

/-- Every operation on every menu is proved. -/
def Sound (O : Outline menu) : Prop :=
  ∀ i s p, O.inv s → O.idle i s → menu i s p → wp (O.contract i) p (fun _ => O.idle i) s

/-- What holds of every reachable configuration. -/
def Holds (O : Outline menu) (c : Config ι σ) : Prop :=
  O.inv c.mem ∧ ∀ i, wp (O.contract i) (c.prog i) (fun _ => O.idle i) c.mem

theorem holds_start (O : Outline menu) {s : σ} (hi : O.inv s) (hidle : ∀ i, O.idle i s) :
    O.Holds (Config.start s) :=
  ⟨hi, hidle⟩

theorem Holds.idle {O : Outline menu} {c : Config ι σ} (h : O.Holds c) {i : ι} (hc : c.Idle i) :
    O.idle i c.mem := by
  have := h.2 i
  rwa [show c.prog i = .ret () from hc] at this

end Outline

/-! ## Runs -/

variable [DecidableEq ι]

/-- An idle thread may begin any operation its menu offers in the current state; a thread inside an
operation does its next action. -/
inductive Step (menu : ι → σ → Prog σ Unit → Prop) : Config ι σ → Config ι σ → Prop
  | begin {c : Config ι σ} (i : ι) (p : Prog σ Unit) (hc : c.Idle i) (hp : menu i c.mem p) :
      Step menu c ⟨c.mem, Function.update c.prog i p⟩
  | act {c : Config ι σ} (i : ι) (f : σ → σ) (k : σ → Prog σ Unit) (hc : c.prog i = .act f k) :
      Step menu c ⟨f c.mem, Function.update c.prog i (k c.mem)⟩

/-- A step in which a thread acts only where `may` says it may. -/
inductive StepWhile (menu : ι → σ → Prog σ Unit → Prop) (may : ι → σ → Prop) :
    Config ι σ → Config ι σ → Prop
  | begin {c : Config ι σ} (i : ι) (p : Prog σ Unit) (hc : c.Idle i) (hp : menu i c.mem p) :
      StepWhile menu may c ⟨c.mem, Function.update c.prog i p⟩
  | act {c : Config ι σ} (i : ι) (f : σ → σ) (k : σ → Prog σ Unit) (hc : c.prog i = .act f k)
      (hm : may i c.mem) : StepWhile menu may c ⟨f c.mem, Function.update c.prog i (k c.mem)⟩

/-- The configurations some run reaches from `s` with every thread idle. -/
def Reachable (menu : ι → σ → Prog σ Unit → Prop) (s : σ) (c : Config ι σ) : Prop :=
  Relation.ReflTransGen (Step menu) (Config.start s) c

/-- The configurations reached by runs all of whose actions are done where `may` holds. -/
def ReachableWhile (menu : ι → σ → Prog σ Unit → Prop) (may : ι → σ → Prop) (s : σ)
    (c : Config ι σ) :
    Prop :=
  Relation.ReflTransGen (StepWhile menu may) (Config.start s) c

namespace Outline

variable {menu : ι → σ → Prog σ Unit → Prop}

theorem holds_step (O : Outline menu) (hO : O.Sound) {c c' : Config ι σ} (h : O.Holds c)
    (hs : StepWhile menu O.may c c') : O.Holds c' := by
  obtain ⟨hi, hw⟩ := h
  cases hs with
  | begin i p hc hp =>
    refine ⟨hi, fun j => ?_⟩
    by_cases hj : j = i
    · subst hj
      have hidle := hw j
      rw [show c.prog j = .ret () from hc] at hidle
      simpa using hO j c.mem p hi hidle hp
    · simpa [Function.update_of_ne hj] using hw j
  | act i f k hc hm =>
    have hact := hw i
    rw [hc] at hact
    obtain ⟨hg, hi', hk⟩ := hact c.mem (O.rely_refl i c.mem) hi hm
    refine ⟨hi', fun j => ?_⟩
    by_cases hj : j = i
    · subst hj
      simpa using hk
    · have hwj : wp (O.contract j) (c.prog j) (fun _ => O.idle j) (f c.mem) :=
        wp_stable (fun _ _ _ => O.idle_stable) (hw j) (O.guar_rely hj hi hg) hi'
      simpa [Function.update_of_ne hj] using hwj

/-- A proved outline holds of every configuration that its runs reach. -/
theorem reachableWhile (O : Outline menu) (hO : O.Sound) {s : σ} (hi : O.inv s)
    (hidle : ∀ i, O.idle i s) {c : Config ι σ} (hc : ReachableWhile menu O.may s c) :
    O.Holds c := by
  induction hc with
  | refl => exact O.holds_start hi hidle
  | tail _ hs ih => exact O.holds_step hO ih hs

/-- Without a condition these are all runs. -/
theorem reachable (O : Outline menu) (hO : O.Sound) {s : σ} (hi : O.inv s)
    (hidle : ∀ i, O.idle i s) {c : Config ι σ} (hc : Reachable menu s c)
    (hmay : ∀ i s, O.may i s := by intros; trivial) : O.Holds c := by
  have hsub : Step menu ≤ StepWhile menu O.may := by
    intro c c' hs
    cases hs with
    | begin i p hc hp => exact .begin i p hc hp
    | act i f k hc => exact .act i f k hc (hmay i c.mem)
  exact O.reachableWhile hO hi hidle (Relation.ReflTransGen.mono hsub _ _ hc)

end Outline

/-! ## Driving a run by hand -/

namespace Config

/-- Let thread `i` do its next action, if it is inside an operation. -/
def advance (c : Config ι σ) (i : ι) : Config ι σ :=
  match c.prog i with
  | .ret _ => c
  | .act f k => ⟨f c.mem, Function.update c.prog i (k c.mem)⟩

/-- Let the threads of a schedule act one after the other. -/
def drive (c : Config ι σ) (schedule : List ι) : Config ι σ := schedule.foldl advance c

/-- Every action of the schedule is done where `may` holds. -/
def Along (may : ι → σ → Prop) : Config ι σ → List ι → Prop
  | _, [] => True
  | c, i :: rest => may i c.mem ∧ Along may (c.advance i) rest

instance decidableAlong (may : ι → σ → Prop) [∀ i s, Decidable (may i s)] :
    (c : Config ι σ) → (schedule : List ι) → Decidable (Along may c schedule)
  | _, [] => isTrue trivial
  | c, i :: rest => @instDecidableAnd _ _ _ (decidableAlong may (c.advance i) rest)

/-- Let thread `i` begin the operation `p`. -/
def call (c : Config ι σ) (i : ι) (p : Prog σ Unit) : Config ι σ :=
  ⟨c.mem, Function.update c.prog i p⟩

end Config

variable {menu : ι → σ → Prog σ Unit → Prop} {s : σ} {c : Config ι σ}

theorem Reachable.advance (hc : Reachable menu s c) (i : ι) : Reachable menu s (c.advance i) := by
  unfold Config.advance
  split
  · exact hc
  · rename_i f k hp
    exact hc.tail (.act i f k hp)

theorem Reachable.drive (hc : Reachable menu s c) (schedule : List ι) :
    Reachable menu s (c.drive schedule) := by
  induction schedule generalizing c with
  | nil => exact hc
  | cons i rest ih => exact ih (hc.advance i)

theorem Reachable.call (hc : Reachable menu s c) {i : ι} {p : Prog σ Unit} (hi : c.isIdle i = true)
    (hp : menu i c.mem p) : Reachable menu s (c.call i p) :=
  hc.tail (.begin i p (Config.idle_of_isIdle hi) hp)

variable {may : ι → σ → Prop}

theorem ReachableWhile.advance (hc : ReachableWhile menu may s c) (i : ι) (hm : may i c.mem) :
    ReachableWhile menu may s (c.advance i) := by
  unfold Config.advance
  split
  · exact hc
  · rename_i f k hp
    exact hc.tail (.act i f k hp hm)

theorem ReachableWhile.drive (hc : ReachableWhile menu may s c) (schedule : List ι)
    (hm : c.Along may schedule) : ReachableWhile menu may s (c.drive schedule) := by
  induction schedule generalizing c with
  | nil => exact hc
  | cons i rest ih => exact ih (hc.advance i hm.1) hm.2

theorem ReachableWhile.call (hc : ReachableWhile menu may s c) {i : ι} {p : Prog σ Unit}
    (hi : c.isIdle i = true) (hp : menu i c.mem p) : ReachableWhile menu may s (c.call i p) :=
  hc.tail (.begin i p (Config.idle_of_isIdle hi) hp)

end Interleave
