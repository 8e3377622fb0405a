import Aiopquic.Lib.Steps

/-!
# Programs that record their operations

A `Traced` program computes on a state `σ` and records the operations `ω` it does on something else,
in order. The operations are given a meaning afterwards, by a partial step function.

`PutOff held l l' v` compares two recorded lists: `l'` is `l` with some operations put off. In the
place of an operation that is put off, `l'` has one that stands for it (`held`), or nothing and then
the operation is in `v`. When what is put off can be done later as well (`CanWait`), the list `l'`
followed by all that was put off has the effect of `l` (`run_putOff`).
-/

variable {σ ω α β γ δ ρ : Type}

/-- A program on the state `σ` that records operations `ω`. -/
def Traced (σ ω α : Type) := σ → α × σ × List ω

namespace Traced

instance : Monad (Traced σ ω) where
  pure a := fun s => (a, s, [])
  bind x g := fun s =>
    ((g (x s).1 (x s).2.1).1, (g (x s).1 (x s).2.1).2.1, (x s).2.2 ++ (g (x s).1 (x s).2.1).2.2)

/-- Do the operation `w`. -/
def emit (w : ω) : Traced σ ω Unit := fun s => ((), s, [w])

def get : Traced σ ω σ := fun s => (s, s, [])

def modify (f : σ → σ) : Traced σ ω Unit := fun s => ((), f s, [])

/-- Compute with the state. -/
def compute (f : σ → α × σ) : Traced σ ω α := fun s => ((f s).1, (f s).2, [])

theorem bind_apply (x : Traced σ ω α) (g : α → Traced σ ω β) (s : σ) :
    (x >>= g) s =
      ((g (x s).1 (x s).2.1).1, (g (x s).1 (x s).2.1).2.1, (x s).2.2 ++
      (g (x s).1 (x s).2.1).2.2) := rfl

end Traced

/-! ## Operations put off -/

namespace Steps

variable {act : ρ → ω → Option ρ} {r r' r₁ r₂ : ρ} {w : ω} {l l' v : List ω}

/-- `w` can be done after any other operation, to the same effect. -/
def CanWait (act : ρ → ω → Option ρ) (w : ω) : Prop :=
  ∀ a r r₁ r₂, act r w = some r₁ → act r₁ a = some r₂ → ∃ r₃, act r a = some r₃ ∧ act r₃ w = some r₂

/-- What can be done after one operation can be done after many. -/
theorem CanWait.run (hw : CanWait act w) (h : act r w = some r₁) (hl : run act r₁ l = some r₂) :
    ∃ r₃, run act r l = some r₃ ∧ act r₃ w = some r₂ := by
  induction l generalizing r r₁ with
  | nil =>
    cases hl
    exact ⟨r, rfl, h⟩
  | cons a l ih =>
    obtain ⟨s, hs, hrest⟩ := run_cons_eq_some.1 hl
    obtain ⟨t, ht, htw⟩ := hw a r r₁ s h hs
    obtain ⟨r₃, hr₃, hw₃⟩ := ih htw hrest
    exact ⟨r₃, run_cons_eq_some.2 ⟨t, ht, hr₃⟩, hw₃⟩

/-- `l'` is `l` with some operations put off: `held` ones have a stand-in, the others are listed in
`v`. -/
inductive PutOff (held : ω → Option ω) : List ω → List ω → List ω → Prop
  | nil : PutOff held [] [] []
  | same {a : ω} {l l' v : List ω} : held a = none → PutOff held l l' v →
    PutOff held (a :: l) (a :: l') v
  | hold {a w : ω} {l l' v : List ω} : held a = some w → PutOff held l l' v →
      PutOff held (w :: l) (a :: l') v
  | later {w : ω} {l l' v : List ω} : PutOff held l l' v → PutOff held (w :: l) l' (w :: v)

variable {held : ω → Option ω}

theorem PutOff.append {m m' u : List ω} (h : PutOff held l l' v) (h' : PutOff held m m' u) :
    PutOff held (l ++ m) (l' ++ m') (v ++ u) := by
  induction h with
  | nil => exact h'
  | same ha _ ih => exact .same ha ih
  | hold ha _ ih => exact .hold ha ih
  | later _ ih => exact .later ih

theorem PutOff.refl (h : ∀ a ∈ l, held a = none) : PutOff held l l [] := by
  induction l with
  | nil => exact .nil
  | cons a l ih =>
    rw [List.forall_mem_cons] at h
    exact .same h.1 (ih h.2)

/-- A list of which nothing but operations without a stand-in was put off has none itself. -/
theorem PutOff.plain (hheld : ∀ a w, held a = some w → held w = none) (hv : ∀ w ∈ v, held w = none)
    (h : PutOff held l l' v) : ∀ a ∈ l, held a = none := by
  induction h with
  | nil => exact fun _ h => nomatch h
  | same ha _ ih => exact List.forall_mem_cons.2 ⟨ha, ih hv⟩
  | hold ha _ ih => exact List.forall_mem_cons.2 ⟨hheld _ _ ha, ih hv⟩
  | later _ ih =>
    rw [List.forall_mem_cons] at hv
    exact List.forall_mem_cons.2 ⟨hv.1, ih hv.2⟩

/-- Where `l` can be run, so can `l'`, and what was put off then leads to the same state. -/
theorem run_putOff (hheld : ∀ a w, held a = some w → (∀ r, act r a = some r) ∧ CanWait act w)
    (hv : ∀ w ∈ v, CanWait act w) (h : PutOff held l l' v) (hrun : run act r l = some r') :
    ∃ s, run act r l' = some s ∧ run act s (v ++ l'.filterMap held) = some r' := by
  induction h generalizing r with
  | nil => exact ⟨r, rfl, hrun⟩
  | same ha _ ih =>
    obtain ⟨r₁, hr₁, hrest⟩ := run_cons_eq_some.1 hrun
    obtain ⟨s, hs, hlate⟩ := ih hv hrest
    rw [List.filterMap_cons_none ha]
    exact ⟨s, run_cons_eq_some.2 ⟨r₁, hr₁, hs⟩, hlate⟩
  | hold ha _ ih =>
    obtain ⟨hstand, hwait⟩ := hheld _ _ ha
    obtain ⟨r₁, hr₁, hrest⟩ := run_cons_eq_some.1 hrun
    obtain ⟨s, hs, hlate⟩ := ih hv hrest
    -- the operation moves behind the rest of the list, and then behind the ones put off before it
    obtain ⟨t, ht, htw⟩ := hwait.run hr₁ hs
    rw [run_append] at hlate
    obtain ⟨u, hu, hheldRun⟩ := Option.bind_eq_some_iff.1 hlate
    obtain ⟨x, hx, hxw⟩ := hwait.run htw hu
    rw [List.filterMap_cons_some ha]
    refine ⟨t, run_cons_eq_some.2 ⟨r, hstand r, ht⟩, ?_⟩
    rw [run_append]
    exact Option.bind_eq_some_iff.2 ⟨x, hx, run_cons_eq_some.2 ⟨u, hxw, hheldRun⟩⟩
  | later _ ih =>
    rw [List.forall_mem_cons] at hv
    obtain ⟨r₁, hr₁, hrest⟩ := run_cons_eq_some.1 hrun
    obtain ⟨s, hs, hlate⟩ := ih hv.2 hrest
    obtain ⟨t, ht, htw⟩ := hv.1.run hr₁ hs
    exact ⟨t, ht, run_cons_eq_some.2 ⟨s, htw, hlate⟩⟩

end Steps

/-! ## Programs that put operations off -/

namespace Traced

open Steps

variable {held : ω → Option ω}

/-- The program records no stand-in. -/
def Plain (held : ω → Option ω) (x : Traced σ ω α) : Prop := ∀ s, ∀ a ∈ (x s).2.2, held a = none

/-- `x` does what `y` does, with some operations put off. The results are related by `P`, which also
sees the operations that have no stand-in. -/
def PutsOff (held : ω → Option ω) (P : α → β → List ω → Prop) (x : Traced σ ω α)
    (y : Traced σ ω β) : Prop :=
  ∀ s, ∃ v, P (x s).1 (y s).1 v ∧ (x s).2.1 = (y s).2.1 ∧ PutOff held (y s).2.2 (x s).2.2 v

namespace Plain

variable {x y : Traced σ ω α}

theorem pure (a : α) : Plain held (pure a : Traced σ ω α) := fun _ _ h => nomatch h

theorem emit {w : ω} (h : held w = none) : Plain held (emit w : Traced σ ω Unit) := by
  intro s a ha
  rw [List.mem_singleton.1 ha]
  exact h

theorem modify (f : σ → σ) : Plain held (modify f : Traced σ ω Unit) := fun _ _ h => nomatch h

theorem compute (f : σ → α × σ) : Plain held (compute f : Traced σ ω α) := fun _ _ h => nomatch h

theorem get : Plain held (get : Traced σ ω σ) := fun _ _ h => nomatch h

theorem bind {g : α → Traced σ ω β} (hx : Plain held x) (hg : ∀ a, Plain held (g a)) :
    Plain held (x >>= g) := by
  intro s a ha
  rw [bind_apply] at ha
  rcases List.mem_append.1 ha with ha | ha
  · exact hx s a ha
  · exact hg _ _ a ha

theorem ite {p : Prop} [Decidable p] (hx : Plain held x) (hy : Plain held y) :
    Plain held (if p then x else y) := by
  split
  · exact hx
  · exact hy

end Plain

namespace PutsOff

variable {P : α → β → List ω → Prop} {x : Traced σ ω α} {y : Traced σ ω β}

/-- A program that is the same on both sides. -/
theorem same {P : α → α → List ω → Prop} {x : Traced σ ω α} (hx : Plain held x)
    (hP : ∀ a, P a a []) :
    PutsOff held P x x :=
  fun s => ⟨[], hP _, rfl, .refl (hx s)⟩

theorem pure {a : α} {b : β} (h : P a b []) : PutsOff held P (pure a : Traced σ ω α) (pure b) :=
  fun _ => ⟨[], h, rfl, .nil⟩

/-- A stand-in recorded in the place of the operation it stands for. -/
theorem hold {P : Unit → Unit → List ω → Prop} {a w : ω} (ha : held a = some w) (h : P () () []) :
    PutsOff held P (emit a : Traced σ ω Unit) (emit w) :=
  fun _ => ⟨[], h, rfl, .hold ha .nil⟩

/-- An operation that is left for later. -/
theorem later {P : α → Unit → List ω → Prop} {a : α} {w : ω} (h : P a () [w]) :
    PutsOff held P (Pure.pure a : Traced σ ω α) (emit w) :=
  fun _ => ⟨[w], h, rfl, .later .nil⟩

theorem mono {Q : α → β → List ω → Prop} (h : PutsOff held P x y)
    (hPQ : ∀ a b v, P a b v → Q a b v) :
    PutsOff held Q x y := by
  intro s
  obtain ⟨v, hv, hs, hd⟩ := h s
  exact ⟨v, hPQ _ _ _ hv, hs, hd⟩

theorem bind {Q : γ → δ → List ω → Prop} {g : α → Traced σ ω γ} {k : β → Traced σ ω δ}
    (h : PutsOff held P x y)
    (hg : ∀ a b v, P a b v → PutsOff held (fun c d u => Q c d (v ++ u)) (g a) (k b)) :
    PutsOff held Q (x >>= g) (y >>= k) := by
  intro s
  obtain ⟨v, hv, hs, hd⟩ := h s
  obtain ⟨u, hu, hs', hd'⟩ := hg _ _ v hv (x s).2.1
  rw [hs] at hu hs' hd'
  refine ⟨v ++ u, ?_, ?_, ?_⟩
  · rw [bind_apply, bind_apply, hs]
    exact hu
  · rw [bind_apply, bind_apply, hs]
    exact hs'
  · rw [bind_apply, bind_apply, hs]
    exact hd.append hd'

/-- Both sides run the same program first. -/
theorem both {Q : γ → δ → List ω → Prop} {x : Traced σ ω α} {g : α → Traced σ ω γ}
    {k : α → Traced σ ω δ}
    (hx : Plain held x) (hg : ∀ a, PutsOff held Q (g a) (k a)) :
    PutsOff held Q (x >>= g) (x >>= k) := by
  refine bind (same (P := fun a b v => a = b ∧ v = []) hx fun _ => ⟨rfl, rfl⟩) ?_
  rintro a _ _ ⟨rfl, rfl⟩
  exact hg a

/-- Only the second side does something first. -/
theorem ahead {Q : γ → δ → List ω → Prop} {a : α} {x : Traced σ ω γ} {k : β → Traced σ ω δ}
    (h : PutsOff held P (Pure.pure a : Traced σ ω α) y)
    (hk : ∀ b v, P a b v → PutsOff held (fun c d u => Q c d (v ++ u)) x (k b)) :
    PutsOff held Q x (y >>= k) := by
  intro s
  obtain ⟨v, hv, hs, hd⟩ := h s
  obtain ⟨u, hu, hs', hd'⟩ := hk _ v hv s
  have hs : s = (y s).2.1 := hs
  rw [bind_apply, ← hs]
  exact ⟨v ++ u, hu, hs', hd.append hd'⟩

theorem ite {p : Prop} [Decidable p] {x' : Traced σ ω α} {y' : Traced σ ω β}
    (h : p → PutsOff held P x y)
    (h' : ¬ p → PutsOff held P x' y') :
    PutsOff held P (if p then x else x') (if p then y else y') := by
  split
  · exact h ‹_›
  · exact h' ‹_›

end PutsOff

/-! ## Programs whose operations are possible -/

/-- From `s` and `r` all operations of `x` are possible, and it ends in `Q`. -/
def Completes (act : ρ → ω → Option ρ) (x : Traced σ ω α) (s : σ) (r : ρ) (Q : α → σ → ρ → Prop) :
    Prop :=
  ∃ r', run act r (x s).2.2 = some r' ∧ Q (x s).1 (x s).2.1 r'

namespace Completes

variable {act : ρ → ω → Option ρ} {x : Traced σ ω α} {s : σ} {r r' : ρ} {Q : α → σ → ρ → Prop}

theorem pure {a : α} (h : Q a s r) : Completes act (pure a : Traced σ ω α) s r Q := ⟨r, rfl, h⟩

theorem emit {w : ω} {Q : Unit → σ → ρ → Prop} (h : act r w = some r') (hQ : Q () s r') :
    Completes act (emit w : Traced σ ω Unit) s r Q :=
  ⟨r', run_cons_eq_some.2 ⟨r', h, rfl⟩, hQ⟩

theorem modify {f : σ → σ} {Q : Unit → σ → ρ → Prop} (h : Q () (f s) r) :
    Completes act (modify f : Traced σ ω Unit) s r Q := ⟨r, rfl, h⟩

theorem compute {f : σ → α × σ} (h : Q (f s).1 (f s).2 r) :
    Completes act (compute f : Traced σ ω α) s r Q := ⟨r, rfl, h⟩

theorem get {Q : σ → σ → ρ → Prop} (h : Q s s r) : Completes act (get : Traced σ ω σ) s r Q :=
  ⟨r, rfl, h⟩

theorem mono {R : α → σ → ρ → Prop} (h : Completes act x s r R)
    (hRQ : ∀ a s' r', R a s' r' → Q a s' r') :
    Completes act x s r Q := by
  obtain ⟨r₁, hr₁, h₁⟩ := h
  exact ⟨r₁, hr₁, hRQ _ _ _ h₁⟩

theorem bind {g : α → Traced σ ω β} {R : α → σ → ρ → Prop} {Q : β → σ → ρ → Prop}
    (h : Completes act x s r R)
    (hg : ∀ a s' r', R a s' r' → Completes act (g a) s' r' Q) : Completes act (x >>= g) s r Q := by
  obtain ⟨r₁, hr₁, h₁⟩ := h
  obtain ⟨r₂, hr₂, h₂⟩ := hg _ _ _ h₁
  refine ⟨r₂, ?_, h₂⟩
  rw [bind_apply, run_append, hr₁]
  exact hr₂

theorem ite {p : Prop} [Decidable p] {y : Traced σ ω α} (h : p → Completes act x s r Q)
    (h' : ¬ p → Completes act y s r Q) : Completes act (if p then x else y) s r Q := by
  split
  · exact h ‹_›
  · exact h' ‹_›

end Completes

/-! ## What a program does to a part of the state -/

/-- Whatever else `x` does, it changes the part of the state at `part` by `f`. -/
def Acts {τ : Type} (part : σ → τ) (f : τ → τ) (x : Traced σ ω α) : Prop := ∀ s, part
    (x s).2.1 = f (part s)

namespace Acts

variable {τ : Type} {part : σ → τ} {f g : τ → τ} {x y : Traced σ ω α}

theorem pure (a : α) : Acts part id (pure a : Traced σ ω α) := fun _ => rfl

theorem emit (w : ω) : Acts part id (emit w : Traced σ ω Unit) := fun _ => rfl

theorem get : Acts part id (get : Traced σ ω σ) := fun _ => rfl

theorem modify {h : σ → σ} (hf : ∀ s, part (h s) = f (part s)) : Acts part f
    (modify h : Traced σ ω Unit) := hf

theorem compute {h : σ → α × σ} (hf : ∀ s, part (h s).2 = f (part s)) : Acts part f
    (compute h : Traced σ ω α) := hf

theorem bind {k : α → Traced σ ω β} (hx : Acts part f x) (hk : ∀ a, Acts part g (k a)) :
    Acts part (g ∘ f) (x >>= k) := by
  intro s
  rw [bind_apply, hk, hx]
  rfl

/-- First something that leaves the part alone. -/
theorem after {k : α → Traced σ ω β} (hx : Acts part id x) (hk : ∀ a, Acts part g (k a)) :
    Acts part g (x >>= k) := by
  intro s
  rw [bind_apply, hk, hx]
  rfl

/-- First something that leaves the part alone and always has the same result. -/
theorem afterValue {a : α} {k : α → Traced σ ω β} (hx : Acts part id x) (ha : ∀ s, (x s).1 = a)
    (hk : Acts part g (k a)) : Acts part g (x >>= k) := by
  intro s
  rw [bind_apply, ha, hk, hx]
  rfl

/-- Last something that leaves the part alone. -/
theorem before {k : α → Traced σ ω β} (hx : Acts part f x) (hk : ∀ a, Acts part id (k a)) :
    Acts part f (x >>= k) := by
  intro s
  rw [bind_apply, hk, hx]
  rfl

theorem ite {p : Prop} [Decidable p] (hx : p → Acts part f x) (hy : ¬ p → Acts part f y) :
    Acts part f (if p then x else y) := by
  split
  · exact hx ‹_›
  · exact hy ‹_›

end Acts

/-! ## What a program yields -/

/-- From `s` the result, the state and the record of `x` are in `Q`. -/
def Yields (x : Traced σ ω α) (s : σ) (Q : α → σ → List ω → Prop) : Prop := Q (x s).1
    (x s).2.1 (x s).2.2

namespace Yields

variable {x : Traced σ ω α} {s : σ} {Q : α → σ → List ω → Prop}

theorem pure {a : α} (h : Q a s []) : Yields (pure a : Traced σ ω α) s Q := h

theorem emit {w : ω} {Q : Unit → σ → List ω → Prop} (h : Q () s [w]) : Yields
    (emit w : Traced σ ω Unit) s Q := h

theorem modify {f : σ → σ} {Q : Unit → σ → List ω → Prop} (h : Q () (f s) []) :
    Yields (modify f : Traced σ ω Unit) s Q := h

theorem compute {f : σ → α × σ} (h : Q (f s).1 (f s).2 []) : Yields
    (compute f : Traced σ ω α) s Q := h

theorem get {Q : σ → σ → List ω → Prop} (h : Q s s []) : Yields (get : Traced σ ω σ) s Q := h

theorem mono {R : α → σ → List ω → Prop} (h : Yields x s R) (hRQ : ∀ a s' l, R a s' l → Q a s' l) :
    Yields x s Q :=
  hRQ _ _ _ h

theorem bind {g : α → Traced σ ω β} {Q : β → σ → List ω → Prop}
    (h : Yields x s fun a s' l => Yields (g a) s' fun b s'' l' => Q b s'' (l ++ l')) :
    Yields (x >>= g) s Q := h

theorem ite {p : Prop} [Decidable p] {y : Traced σ ω α} (h : p → Yields x s Q)
    (h' : ¬ p → Yields y s Q) :
    Yields (if p then x else y) s Q := by
  split
  · exact h ‹_›
  · exact h' ‹_›

/-- Where the operations of the record can be done, the program completes. -/
theorem completes {act : ρ → ω → Option ρ} {r : ρ} {P : α → σ → ρ → Prop} (h : Yields x s Q)
    (hrun : ∀ a s' l, Q a s' l → ∃ r', Steps.run act r l = some r' ∧ P a s' r') :
    Completes act x s r P :=
  hrun _ _ _ h

end Yields

end Traced
