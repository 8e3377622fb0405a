import Mathlib.Logic.Basic

/-!
# Computations on a state that may raise

A raise leaves the state as it is at that point. `Simulates` compares two computations on different
states. `Settled` is about a state that grows: what a computation has found out, other than that it
has to wait, it finds out again when there is more.
-/

/-- A computation on a state `σ` that returns an `α` or raises an `ε`. -/
def Fallible (σ ε α : Type) := σ → Except ε α × σ

namespace Fallible

variable {σ τ ε α β δ : Type}

instance : Monad (Fallible σ ε) where
  pure a := fun s => (.ok a, s)
  bind x g := fun s =>
    match x s with
    | (.ok a, s') => g a s'
    | (.error e, s') => (.error e, s')

def raise (e : ε) : Fallible σ ε α := fun s => (.error e, s)

def get : Fallible σ ε σ := fun s => (.ok s, s)

/-- How a computation ends, which does not raise itself. -/
def attempt (x : Fallible σ ε α) : Fallible σ ε (Except ε α) := fun s => (.ok (x s).1, (x s).2)

def modify (f : σ → σ) : Fallible σ ε Unit := fun s => (.ok (), f s)

variable {x : Fallible σ ε α} {g : α → Fallible σ ε β} {s s' : σ} {a : α} {e : ε}

@[simp] theorem pure_apply : (pure a : Fallible σ ε α) s = (.ok a, s) := rfl

@[simp] theorem raise_apply : (raise e : Fallible σ ε α) s = (.error e, s) := rfl

@[simp] theorem get_apply : (get : Fallible σ ε σ) s = (.ok s, s) := rfl

@[simp] theorem modify_apply (f : σ → σ) : (modify f : Fallible σ ε Unit) s = (.ok (), f s) := rfl

theorem bind_ok (h : x s = (.ok a, s')) : (x >>= g) s = g a s' := by
  show (match x s with
    | (.ok a, s') => g a s'
    | (.error e, s') => (.error e, s')) = _
  rw [h]

theorem bind_error (h : x s = (.error e, s')) : (x >>= g) s = (.error e, s') := by
  show (match x s with
    | (.ok a, s') => g a s'
    | (.error e, s') => (.error e, s')) = _
  rw [h]

theorem bind_assoc {γ : Type} (x : Fallible σ ε α) (g : α → Fallible σ ε β)
    (k : β → Fallible σ ε γ) :
    (x >>= g >>= k) = x >>= fun a => g a >>= k := by
  funext s
  obtain ⟨⟨r, s'⟩, hx⟩ : ∃ p, x s = p := ⟨_, rfl⟩
  cases r with
  | ok a =>
    rw [bind_ok hx]
    show (match (x >>= g) s with
      | (.ok b, s') => k b s'
      | (.error e, s') => (.error e, s')) = _
    rw [bind_ok hx]
    rfl
  | error e => rw [bind_error hx, bind_error (bind_error hx)]

/-- A computation in two parts returns where both do. -/
theorem bind_eq_ok {b : β} {t : σ} :
    (x >>= g) s = (.ok b, t) ↔ ∃ a s', x s = (.ok a, s') ∧ g a s' = (.ok b, t) := by
  obtain ⟨⟨r, s'⟩, hx⟩ : ∃ p, x s = p := ⟨_, rfl⟩
  cases r with
  | ok a =>
    rw [bind_ok hx, hx]
    constructor
    · exact fun h => ⟨a, s', rfl, h⟩
    · rintro ⟨a', t', heq, h⟩
      cases heq
      exact h
  | error e =>
    rw [bind_error hx, hx]
    constructor
    · exact fun h => by cases h
    · rintro ⟨a', t', heq, -⟩
      cases heq

/-- An exception that neither part raises. -/
theorem bind_ne (h : (x s).1 ≠ .error e) (hg : ∀ a s', x s = (.ok a, s') → (g a s').1 ≠ .error e) :
    ((x >>= g) s).1 ≠ .error e := by
  obtain ⟨⟨r, s'⟩, hx⟩ : ∃ p, x s = p := ⟨_, rfl⟩
  cases r with
  | ok a =>
    rw [bind_ok hx]
    exact hg a s' hx
  | error e' =>
    rw [bind_error hx]
    rw [hx] at h
    exact fun heq => h (by cases heq; rfl)

@[simp] theorem get_bind {g : σ → Fallible σ ε β} : (get >>= g) s = g s s := rfl

@[simp] theorem modify_bind (f : σ → σ) {g : Unit → Fallible σ ε β} : (modify f >>= g) s = g ()
    (f s) := rfl

/-- A run goes on after a raise. -/
def runAll {ι : Type} (call : ι → Fallible σ ε α) : List ι → σ → List (Except ε α) × σ
  | [], s => ([], s)
  | i :: rest, s => ((call i s).1 :: (runAll call rest (call i s).2).1,
    (runAll call rest (call i s).2).2)

theorem ite_apply {p : Prop} [Decidable p] {x y : Fallible σ ε α} :
    (if p then x else y) s = if p then x s else y s := by
  split <;> rfl

/-! ## Relations between computations -/

/-- A relation that two computations are in when their parts are. -/
structure Congruence (P : ∀ α : Type, Fallible σ ε α → Fallible τ ε α → Prop) : Prop where
  pure : ∀ {α : Type} (a : α), P α (pure a) (pure a)
  raise : ∀ {α : Type} (e : ε), P α (raise e) (raise e)
  bind : ∀ {α β : Type} {x : Fallible σ ε α} {y : Fallible τ ε α} {g : α → Fallible σ ε β} {k : α → Fallible τ ε β},
    P α x y → (∀ a, P β (g a) (k a)) → P β (x >>= g) (y >>= k)

theorem Congruence.ite {P : ∀ α : Type, Fallible σ ε α → Fallible τ ε α → Prop}
    (_ : Congruence P) {p : Prop}
    [Decidable p] {x x' : Fallible σ ε α} {y y' : Fallible τ ε α} (h : P α x y) (h' : P α x' y') :
    P α (if p then x else x') (if p then y else y') := by
  split
  · exact h
  · exact h'

/-! ## Simulation -/

/-- From related states the two end the same way, in related states. -/
def Simulates (R : σ → τ → Prop) (x : Fallible σ ε α) (y : Fallible τ ε α) : Prop :=
  ∀ s t, R s t → (x s).1 = (y t).1 ∧ R (x s).2 (y t).2

namespace Simulates

variable {R : σ → τ → Prop} {x : Fallible σ ε α} {y : Fallible τ ε α}

theorem bind {g : α → Fallible σ ε β} {k : α → Fallible τ ε β} (h : Simulates R x y)
    (hg : ∀ a, Simulates R (g a) (k a)) : Simulates R (x >>= g) (y >>= k) := by
  intro s t hst
  obtain ⟨hres, hrel⟩ := h s t hst
  obtain ⟨⟨r, s'⟩, hx⟩ : ∃ p, x s = p := ⟨_, rfl⟩
  obtain ⟨⟨r', t'⟩, hy⟩ : ∃ p, y t = p := ⟨_, rfl⟩
  simp only [hx, hy] at hres hrel
  subst hres
  cases r with
  | ok a =>
    rw [bind_ok hx, bind_ok hy]
    exact hg a s' t' hrel
  | error e =>
    rw [bind_error hx, bind_error hy]
    exact ⟨rfl, hrel⟩

theorem congruence (R : σ → τ → Prop) :
    Congruence fun α (x : Fallible σ ε α) (y : Fallible τ ε α) => Simulates R x y where
  pure _ _ _ h := ⟨rfl, h⟩
  raise _ _ _ h := ⟨rfl, h⟩
  bind := bind

theorem runAll {ι : Type} {call : ι → Fallible σ ε α} {call' : ι → Fallible τ ε α}
    (h : ∀ i, Simulates R (call i) (call' i)) (calls : List ι) (s : σ) (t : τ) (hst : R s t) :
    (runAll call calls s).1 = (runAll call' calls t).1 ∧ R (runAll call calls s).2
    (runAll call' calls t).2 := by
  induction calls generalizing s t with
  | nil => exact ⟨rfl, hst⟩
  | cons i rest ih =>
    obtain ⟨hres, hrel⟩ := h i s t hst
    obtain ⟨hrest, hrel'⟩ := ih _ _ hrel
    exact ⟨by rw [Fallible.runAll, Fallible.runAll, hres, hrest], hrel'⟩

end Simulates

/-! ## What a computation does to the state -/

/-- However a computation ends, the state is then related to what it was. -/
def Moves (R : σ → σ → Prop) (x : Fallible σ ε α) : Prop := ∀ s, R s (x s).2

namespace Moves

variable {R : σ → σ → Prop} {x : Fallible σ ε α}

theorem bind (htrans : ∀ s t u, R s t → R t u → R s u) {g : α → Fallible σ ε β} (h : Moves R x)
    (hg : ∀ a, Moves R (g a)) : Moves R (x >>= g) := by
  intro s
  have hs := h s
  obtain ⟨⟨r, s'⟩, hx⟩ : ∃ p, x s = p := ⟨_, rfl⟩
  rw [hx] at hs
  cases r with
  | ok a =>
    rw [bind_ok hx]
    exact htrans _ _ _ hs (hg a s')
  | error e =>
    rw [bind_error hx]
    exact hs

theorem congruence (hrefl : ∀ s, R s s) (htrans : ∀ s t u, R s t → R t u → R s u) :
    Congruence fun α (x _ : Fallible σ ε α) => Moves R x where
  pure _ := hrefl
  raise _ := hrefl
  bind h hg := h.bind htrans hg

end Moves

/-! ## States that grow -/

/-- Unless it waits, a computation ends the same way when the state has `more`, which it leaves
alone. -/
def Settled (waits : ε → Prop) (more : σ → δ → σ) (x : Fallible σ ε α) : Prop :=
  ∀ s d, (∀ e, (x s).1 = .error e → ¬ waits e) → x (more s d) = ((x s).1, more (x s).2 d)

namespace Settled

variable {waits : ε → Prop} {more : σ → δ → σ} {x : Fallible σ ε α}

theorem pure (a : α) : Settled waits more (pure a : Fallible σ ε α) := fun _ _ _ => rfl

theorem raise (e : ε) : Settled waits more (raise e : Fallible σ ε α) := fun _ _ _ => rfl

theorem bind {g : α → Fallible σ ε β} (h : Settled waits more x)
    (hg : ∀ a, Settled waits more (g a)) :
    Settled waits more (x >>= g) := by
  intro s d hwait
  obtain ⟨⟨r, s'⟩, hx⟩ : ∃ p, x s = p := ⟨_, rfl⟩
  have hmore := h s d
  rw [hx] at hmore
  cases r with
  | ok a =>
    rw [bind_ok hx] at hwait ⊢
    rw [bind_ok (hmore fun e he => nomatch he)]
    exact hg a s' d hwait
  | error e =>
    rw [bind_error hx] at hwait ⊢
    rw [bind_error (hmore fun e' he => ?_)]
    cases he
    exact hwait e rfl

theorem congruence (waits : ε → Prop) (more : σ → δ → σ) :
    Congruence fun α (x _ : Fallible σ ε α) => Settled waits more x where
  pure := pure
  raise := raise
  bind := bind

end Settled

end Fallible
