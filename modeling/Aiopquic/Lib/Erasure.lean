import Aiopquic.Lib.Interleave

/-!
# Programs that carry a history

A program over a state with a history does the same actions as a program over the state without it.
`Erases π p q` says so of two programs, where `π` forgets the history. A run of the second kind of
programs is then a run of the first kind with the history forgotten (`Reachable.carry`).
-/

namespace Interleave

open Prog

variable {σ τ α β ι : Type} {π : σ → τ}

/-- `p` acts as `q` does, on a state of which `π` is the part that `q` knows. -/
def Erases (π : σ → τ) : Prog σ α → Prog τ α → Prop
  | .ret a, .ret b => a = b
  | .act f k, .act g l => (∀ s, π (f s) = g (π s)) ∧ ∀ s, Erases π (k s) (l (π s))
  | .ret _, .act _ _ => False
  | .act _ _, .ret _ => False

theorem erases_ret (a : α) : Erases π (.ret a) (.ret a) := rfl

theorem Erases.eq_ret {p : Prog σ α} {a : α} (h : Erases π p (.ret a)) : p = .ret a := by
  cases p with
  | ret b => exact congrArg Prog.ret h
  | act f k => exact h.elim

theorem Erases.eq_act {p : Prog σ α} {g : τ → τ} {l : τ → Prog τ α} (h : Erases π p (.act g l)) :
    ∃ f k, p = .act f k ∧ (∀ s, π (f s) = g (π s)) ∧ ∀ s, Erases π (k s) (l (π s)) := by
  cases p with
  | ret a => exact h.elim
  | act f k => exact ⟨f, k, rfl, h⟩

theorem erases_bind {p : Prog σ β} {q : Prog τ β} {g : β → Prog σ α} {g' : β → Prog τ α}
    (h : Erases π p q)
    (hg : ∀ b, Erases π (g b) (g' b)) : Erases π (p >>= g) (q >>= g') := by
  induction p generalizing q with
  | ret b =>
    cases q with
    | ret c =>
      obtain rfl : b = c := h
      exact hg b
    | act f k => exact h.elim
  | act f k ih =>
    cases q with
    | ret c => exact h.elim
    | act f' k' => exact ⟨h.1, fun s => ih s (h.2 s)⟩

theorem erases_rmw {f : σ → σ} {f' : τ → τ} {g : τ → α} (h : ∀ s, π (f s) = f' (π s)) :
    Erases π (rmw f fun s => g (π s)) (rmw f' g) :=
  ⟨h, fun _ => rfl⟩

theorem erases_load (g : τ → α) : Erases π (load fun s => g (π s)) (load g) := erases_rmw
    fun _ => rfl

/-- A program on a part of the state acts as itself. -/
theorem erases_on (L : Loc σ τ) (p : Prog τ α) : Erases L.get (p.on L) p := by
  induction p with
  | ret a => exact erases_ret a
  | act f k ih => exact ⟨fun s => L.get_set _ s, fun s => ih (L.get s)⟩

variable [DecidableEq ι] {menu : ι → σ → Prog σ Unit → Prop} {menu' : ι → τ → Prog τ Unit → Prop}

/-- Where each operation has one that carries the history, so does each run. -/
theorem Reachable.carry (hmenu : ∀ i s q, menu' i (π s) q → ∃ p, menu i s p ∧ Erases π p q) {s : σ}
    {c' : Config ι τ} (h : Reachable menu' (π s) c') :
    ∃ c, Reachable menu s c ∧ π c.mem = c'.mem ∧ ∀ i, Erases π (c.prog i) (c'.prog i) := by
  induction h with
  | refl => exact ⟨.start s, .refl, rfl, fun i => erases_ret ()⟩
  | tail _ hstep ih =>
    obtain ⟨c, hc, hmem, hprog⟩ := ih
    cases hstep with
    | begin i q hidle hq =>
      have hcidle : c.Idle i := (hidle ▸ hprog i : Erases π (c.prog i) (.ret ())).eq_ret
      rw [← hmem] at hq
      obtain ⟨p, hp, hpq⟩ := hmenu i c.mem q hq
      refine ⟨_, hc.tail (.begin i p hcidle hp), hmem, fun j => ?_⟩
      by_cases hj : j = i
      · subst hj
        simpa using hpq
      · simpa [Function.update_of_ne hj] using hprog j
    | act i g l hact =>
      obtain ⟨f, k, hcact, hf, hk⟩ := (hact ▸ hprog i : Erases π (c.prog i) (.act g l)).eq_act
      refine ⟨_, hc.tail (.act i f k hcact), ?_, fun j => ?_⟩
      · rw [hf, hmem]
      · by_cases hj : j = i
        · subst hj
          have := hk c.mem
          rw [hmem] at this
          simpa using this
        · simpa [Function.update_of_ne hj] using hprog j

end Interleave
