import Aiopquic.Lib.Interleave

/-!
# Programs run in one piece

A model whose steps are whole operations runs the same programs as one whose steps are single
actions, with nobody in between. `exec` is that run. What `wp` proves of a program under
interference holds of it (`wp_exec`), and so does what each of its actions keeps (`wp_exec_rel`). A
configuration is reached by running whole operations one after the other (`Reachable.exec`).
-/

namespace Interleave

variable {σ α β : Type}

/-- The result of a program that runs alone, and the state it leaves. -/
def Prog.exec : Prog σ α → σ → α × σ
  | .ret a, s => (a, s)
  | .act f k, s => (k s).exec (f s)

theorem Prog.exec_bind (p : Prog σ β) (g : β → Prog σ α) (s : σ) :
    (p >>= g).exec s = (g (p.exec s).1).exec (p.exec s).2 := by
  induction p generalizing s with
  | ret a => rfl
  | act f k ih => exact ih s (f s)

@[simp] theorem Prog.exec_ret (a : α) (s : σ) : (Prog.ret a : Prog σ α).exec s = (a, s) := rfl

@[simp] theorem Prog.exec_pure (a : α) (s : σ) : (pure a : Prog σ α).exec s = (a, s) := rfl

@[simp] theorem Prog.exec_rmw (f : σ → σ) (g : σ → α) (s : σ) : (rmw f g).exec s = (g s, f s) := rfl

@[simp] theorem Prog.exec_load (g : σ → α) (s : σ) : (load g).exec s = (g s, s) := rfl

@[simp] theorem Prog.exec_modify (f : σ → σ) (s : σ) : (modify f).exec s = ((), f s) := rfl

/-- A program on a part of the state, when the part can be put back and put twice. -/
theorem Prog.exec_on (L : Loc σ β) (hset : ∀ b c s, L.set b (L.set c s) = L.set b s)
    (hsame : ∀ s, L.set (L.get s) s = s) (p : Prog β α) (s : σ) :
    (p.on L).exec s = ((p.exec (L.get s)).1, L.set (p.exec (L.get s)).2 s) := by
  induction p generalizing s with
  | ret a => rw [Prog.on_ret, exec_ret, exec_ret, hsame]
  | act f k ih =>
    have h := ih (L.get s) (L.set (f (L.get s)) s)
    rw [L.get_set, hset] at h
    exact h

variable {C : Contract σ} {p : Prog σ α} {Q : α → σ → Prop} {s : σ}

theorem wp_exec (h : wp C p Q s) (hs : C.inv s) (hmay : ∀ t, C.may t) :
    Q (p.exec s).1 (p.exec s).2 ∧ C.inv (p.exec s).2 := by
  induction p generalizing s with
  | ret a => exact ⟨h, hs⟩
  | act f k ih =>
    obtain ⟨-, hi, hk⟩ := h s (C.rely_refl s) hs (hmay s)
    exact ih s hk hi

/-- Whatever every action keeps, the whole run keeps. -/
theorem wp_exec_rel {G : σ → σ → Prop} (h : wp C p Q s) (hs : C.inv s) (hmay : ∀ t, C.may t)
    (hrefl : ∀ s, G s s) (htrans : ∀ {s t u}, G s t → G t u → G s u)
    (hG : ∀ {s t}, C.guar s t → G s t) :
    G s (p.exec s).2 := by
  induction p generalizing s with
  | ret a => exact hrefl s
  | act f k ih =>
    obtain ⟨hg, hi, hk⟩ := h s (C.rely_refl s) hs (hmay s)
    exact htrans (hG hg) (ih s hk hi)

/-- What every action of a program does, the whole run does. -/
theorem Only.exec {G : σ → σ → Prop} (hp : Only G p) (hrefl : ∀ s, G s s)
    (htrans : ∀ {s t u}, G s t → G t u → G s u) (s : σ) : G s (p.exec s).2 := by
  induction p generalizing s with
  | ret a => exact hrefl s
  | act f k ih => exact htrans (hp s).1 (ih s (hp s).2 (f s))

variable {ι : Type} [DecidableEq ι] {menu : ι → σ → Prog σ Unit → Prop} {init : σ} {c : Config ι σ}

theorem Reachable.finish {i : ι} {p : Prog σ Unit} {prog : ι → Prog σ Unit}
    (hc : Reachable menu init ⟨s, Function.update prog i p⟩) :
    Reachable menu init ⟨(p.exec s).2, Function.update prog i (.ret ())⟩ := by
  induction p generalizing s with
  | ret a => exact hc
  | act f k ih =>
    refine ih s ?_
    have hstep := hc.tail (.act i f k (Function.update_self i _ prog))
    rwa [Function.update_idem] at hstep

/-- An operation that runs alone, from its call to its end. -/
theorem Reachable.exec (hc : Reachable menu init c) {i : ι} {p : Prog σ Unit} (hi : c.Idle i)
    (hp : menu i c.mem p) : Reachable menu init ⟨(p.exec c.mem).2, c.prog⟩ := by
  have hrest : Function.update c.prog i (.ret ()) = c.prog := by
    rw [← hi, Function.update_eq_self]
  have hend := Reachable.finish (hc.tail (.begin i p hi hp))
  rwa [hrest] at hend

end Interleave
