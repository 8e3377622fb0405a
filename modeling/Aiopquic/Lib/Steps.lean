import Mathlib.Logic.Basic

/-!
# Runs of a partial step function

`step s a` is the state after the step `a` from `s`, and `none` where `a` cannot be taken. `run`
takes a list of steps. `Along ok` says that each step of a list is taken in a state where `ok`
allows it, and `invariant` is the induction rule for such runs.
-/

namespace Steps

variable {σ α : Type*}

/-- The state after a list of steps. -/
def run (step : σ → α → Option σ) : σ → List α → Option σ
  | s, [] => some s
  | s, a :: l => (step s a).bind fun s' => run step s' l

/-- Every step of the list is taken where `ok` allows it. -/
def Along (step : σ → α → Option σ) (ok : σ → α → Prop) : σ → List α → Prop
  | _, [] => True
  | s, a :: l => ok s a ∧ ∀ s' ∈ step s a, Along step ok s' l

instance decidableAlong (step : σ → α → Option σ) (ok : σ → α → Prop) [∀ s a, Decidable (ok s a)] :
    ∀ s l, Decidable (Along step ok s l)
  | _, [] => .isTrue trivial
  | s, a :: l =>
    have : DecidablePred fun s' => Along step ok s' l := fun s' => decidableAlong step ok s' l
    inferInstanceAs (Decidable (ok s a ∧ ∀ s' ∈ step s a, Along step ok s' l))

variable {step : σ → α → Option σ} {ok : σ → α → Prop} {s s' : σ} {a : α} {l : List α}

theorem run_cons_eq_some :
    run step s (a :: l) = some s' ↔ ∃ t, step s a = some t ∧ run step t l = some s' := by
  rw [run]
  exact Option.bind_eq_some_iff

theorem run_append (l l' : List α) (s : σ) :
    run step s (l ++ l') = (run step s l).bind fun t => run step t l' := by
  induction l generalizing s with
  | nil => rfl
  | cons a l ih =>
    rw [List.cons_append, run, run]
    cases step s a with
    | none => rfl
    | some t => exact ih t

/-- What every allowed step keeps holds after every run of allowed steps. -/
theorem invariant {I : σ → Prop} (hstep : ∀ s a s', I s → ok s a → step s a = some s' → I s') :
    I s → Along step ok s l → run step s l = some s' → I s' := by
  induction l generalizing s with
  | nil =>
    intro hs _ hrun
    cases hrun
    exact hs
  | cons a l ih =>
    intro hs hok hrun
    obtain ⟨t, ht, hrest⟩ := run_cons_eq_some.1 hrun
    exact ih (hstep s a t hs hok.1 ht) (hok.2 t ht) hrest

theorem along_true : Along step (fun _ _ => True) s l := by
  induction l generalizing s with
  | nil => trivial
  | cons a l ih => exact ⟨trivial, fun _ _ => ih⟩

/-- The rule for runs of any steps. -/
theorem preserved {I : σ → Prop} (hstep : ∀ s a s', I s → step s a = some s' → I s') (hs : I s)
    (hrun : run step s l = some s') : I s' :=
  invariant (fun s a s' hs _ => hstep s a s' hs) hs along_true hrun

/-- A record that each step either keeps clean or spoils for good is clean after a run exactly if
every step was taken where `ok` allows it. `J` is what all steps keep. -/
theorem record_iff_of_inv {J I : σ → Prop} (hJ : ∀ s a s', J s → step s a = some s' → J s')
    (hstep : ∀ s a s', J s → step s a = some s' → (I s' ↔ I s ∧ ok s a)) :
    J s → run step s l = some s' → (I s' ↔ I s ∧ Along step ok s l) := by
  induction l generalizing s with
  | nil =>
    intro _ hrun
    cases hrun
    simp [Along]
  | cons a l ih =>
    intro hs hrun
    obtain ⟨t, ht, hrest⟩ := run_cons_eq_some.1 hrun
    rw [ih (hJ s a t hs ht) hrest, hstep s a t hs ht, and_assoc]
    simp [Along, ht]

theorem record_iff {I : σ → Prop} (hstep : ∀ s a s', step s a = some s' → (I s' ↔ I s ∧ ok s a)) :
    run step s l = some s' → (I s' ↔ I s ∧ Along step ok s l) :=
  record_iff_of_inv (J := fun _ => True) (fun _ _ _ _ _ => trivial) (fun s a s' _ => hstep s a s')
    trivial

/-- `P` holds after each step of the list. -/
def Always (step : σ → α → Option σ) (P : σ → Prop) : σ → List α → Prop :=
  Along step fun s a => ∀ s' ∈ step s a, P s'

/-- `P` holds after each step exactly if each step is taken where `ok` allows it, if from `P`
exactly the steps that `ok` allows lead to `P` again. `J` is what all steps keep. -/
theorem always_iff {J P : σ → Prop} (hJ : ∀ s a s', J s → step s a = some s' → J s')
    (hstep : ∀ s a, J s → P s → ((∀ s' ∈ step s a, P s') ↔ ok s a)) :
    J s → P s → (Always step P s l ↔ Along step ok s l) := by
  induction l generalizing s with
  | nil =>
    intro _ _
    rfl
  | cons a l ih =>
    intro hs hP
    have hfirst := hstep s a hs hP
    constructor
    · rintro ⟨ha, hrest⟩
      exact ⟨hfirst.1 ha, fun s' hs' => (ih (hJ s a s' hs hs') (ha s' hs')).1 (hrest s' hs')⟩
    · rintro ⟨ha, hrest⟩
      have hall := hfirst.2 ha
      exact ⟨hall, fun s' hs' => (ih (hJ s a s' hs hs') (hall s' hs')).2 (hrest s' hs')⟩

/-- What is asked of each step may be exchanged for what is the same in all states that `J` holds
in, if the steps that meet it keep `J`. -/
theorem along_congr {J : σ → Prop} {ok' : σ → α → Prop}
    (hJ : ∀ s a s', J s → ok' s a → step s a = some s' → J s')
    (h : ∀ s a, J s → (ok s a ↔ ok' s a)) :
    J s → (Along step ok s l ↔ Along step ok' s l) := by
  induction l generalizing s with
  | nil =>
    intro _
    rfl
  | cons a l ih =>
    intro hs
    constructor
    · rintro ⟨ha, hrest⟩
      have ha' := (h s a hs).1 ha
      exact ⟨ha', fun s' hs' => (ih (hJ s a s' hs ha' hs')).1 (hrest s' hs')⟩
    · rintro ⟨ha, hrest⟩
      exact ⟨(h s a hs).2 ha, fun s' hs' => (ih (hJ s a s' hs ha hs')).2 (hrest s' hs')⟩

end Steps
