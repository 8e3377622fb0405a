import Aiopquic.Lib.Steps
import Aiopquic.ScRefs

/-!
# Contexts handed to a closing connection

A context that picoquic has comes back with callbacks, and Python may have given up the contexts of
a closing connection. Each handler therefore tests `aiopquic_cnx_closing` before it passes a context
on: `TX_MARK_ACTIVE`, `aiopquic_stream_reattach_sc` for a reset or a stop-sending,
`aiopquic_run_deferred_resets`, and the stream callbacks before they make one. A `TX_STREAM_RESET`
that is held back marks the stream active without the test. The WebTransport commands pass h3zero's
own stream context.
-/

namespace Aiopquic

/-- The context that a call passes to picoquic. -/
def Call.ctx : Call → Option ℕ
  | .markActiveStream _ sc => some sc
  | .setAppStreamCtx _ sc => some sc
  | _ => none

/-- For a closing connection, the only context passed is that of a reset that is held back. -/
theorem loopCalls_ctx_of_closing {v : CnxView} (hclosing : v.closing = true) (e : Entry) :
    (loopCalls v e).filterMap Call.ctx = if Defers v e then [e.streamCtx] else [] := by
  have hreset : (resetCalls v e).filterMap Call.ctx = [] := by
    simp [resetCalls, reattach, hclosing, Call.ctx]
  by_cases hdef : Defers v e
  · have hgo : ¬ (e.streamCtx ≠ 0 ∧ v.resetPending) := by
      simp [hdef.2.2.1]
    simp [loopCalls, hdef.1, hdef, hdef.2.2.2.1, hgo, Call.ctx]
  · rw [if_neg hdef]
    cases hev : e.eventType
    case txStreamReset =>
      simp only [loopCalls, hev, if_neg hdef]
      split
      · rfl
      · split
        · exact hreset
        · rfl
    case txMarkActive =>
      simp only [loopCalls, hev, hclosing, if_true]
      split <;> rfl
    case txStopSending =>
      simp only [loopCalls, hev, reattach, hclosing, or_true, if_true]
      split <;> rfl
    all_goals
      simp only [loopCalls, hev]
      first
      | rfl
      | (split <;> rfl)

/-- A context passed to picoquic; `closing` is the state of the connection then. -/
structure Handed where
  cnx : ℕ
  sc : ℕ
  closing : Bool
  deriving DecidableEq, Repr

/-- The references with a history of the contexts passed to picoquic. -/
structure Handover extends ScRefs where
  handed : List Handed := []

namespace Handover

variable {s s' : Handover}

def init (role : Role) (txCap : ℕ) : Handover := { ScRefs.init role txCap with }

/-- What the worker reads of the connection that a command is for. -/
def view (s : ScRefs) (v : CnxView) (e : Entry) : CnxView :=
  { v with closing := (s.cnxs e.cnx).closing }

/-- The contexts that some calls pass on for a connection. -/
def handedBy (s : ScRefs) (cnx : ℕ) (calls : List Call) : List Handed :=
  (calls.filterMap Call.ctx).map fun sc => ⟨cnx, sc, (s.cnxs cnx).closing⟩

/-- The contexts that a step passes to picoquic. -/
def passes (s : ScRefs) : ScRefs.Act → List Handed
  | .pop v _ =>
    match s.tx with
    | e :: _ => if e.cnx ∈ s.live then handedBy s e.cnx (loopCalls (view s v e) e) else []
    | [] => []
  | .afterSend k v _ =>
    match s.deferred[k]? with
    | some e =>
      if e.cnx ∈ s.live ∧ (s.cnxs e.cnx).closing = false then handedBy s e.cnx
        (resetCalls (view s v e) e) else []
    | none => []
  | .callback cnx cb =>
    if (s.callbackCtx cnx cb).1.made ≠ s.made then
      [⟨cnx, (s.callbackCtx cnx cb).2, (s.cnxs cnx).closing⟩]
    else []
  | _ => []

def step (s : Handover) (act : ScRefs.Act) : Option Handover :=
  (s.toScRefs.step act).map fun t => { toScRefs := t, handed := s.handed ++ passes s.toScRefs act }

/-- No context was passed for a closing connection. -/
def Open (s : Handover) : Prop := ∀ h ∈ s.handed, h.closing = false

/-- A reset that the worker handles for a closing connection is not held back. -/
def Ok (s : Handover) : ScRefs.Act → Prop
  | .pop v _ => ∀ e ∈ s.tx.head?, e.cnx ∈ s.live → (s.cnxs e.cnx).closing = true →
      ¬ Defers (view s.toScRefs v e) e
  | _ => True

instance (s : Handover) : ∀ act, Decidable (s.Ok act)
  | .pop _ _ => inferInstanceAs (Decidable (∀ e ∈ s.tx.head?, _))
  | .connect _ | .disconnect _ | .free _ | .callback _ _ | .afterSend _ _ _ | .drainEntry
    _ | .route _ _
  | .releaseBatch | .drainCallback _ _ | .flush _ | .dropChunk _ | .send _ _ _ | .reset _ _ |
    .stopStream _ _
  | .close _ | .other _ | .stop | .dealloc => inferInstanceAs (Decidable True)

theorem handedBy_open {s : ScRefs} {cnx : ℕ} {calls : List Call}
    (h : (s.cnxs cnx).closing = true → calls.filterMap Call.ctx = []) :
    ∀ x ∈ handedBy s cnx calls, x.closing = false := by
  intro x hx
  obtain ⟨sc, hsc, rfl⟩ := List.mem_map.1 hx
  cases hc : (s.cnxs cnx).closing with
  | false => rfl
  | true =>
    rw [h hc] at hsc
    exact absurd hsc List.not_mem_nil

/-- A step passes contexts for open connections exactly if it is `Ok`. -/
theorem passes_open_iff (s : Handover) (act : ScRefs.Act) :
    (∀ x ∈ passes s.toScRefs act, x.closing = false) ↔ s.Ok act := by
  cases act with
  | pop v accepts =>
    cases htx : s.tx with
    | nil => simp [passes, Ok, htx]
    | cons e tx =>
      simp only [passes, Ok, htx, List.head?_cons, Option.mem_def, Option.some.injEq, forall_eq']
      by_cases hlive : e.cnx ∈ s.live
      · rw [if_pos hlive]
        constructor
        · intro h _ hclosing hdef
          have hctx := loopCalls_ctx_of_closing (v := view s.toScRefs v e) hclosing e
          rw [if_pos hdef] at hctx
          have := h ⟨e.cnx, e.streamCtx, (s.cnxs e.cnx).closing⟩ (by simp [handedBy, hctx])
          exact absurd (this.symm.trans hclosing) (by simp)
        · intro h
          apply handedBy_open
          intro hclosing
          rw [loopCalls_ctx_of_closing (v := view s.toScRefs v e) hclosing e,
            if_neg (h hlive hclosing)]
      · simp [hlive]
  | afterSend k v accepts =>
    cases hdef : s.deferred[k]? with
    | none => simp [passes, Ok, hdef]
    | some e =>
      simp only [passes, Ok, hdef, iff_true]
      split
      · rename_i hopen
        apply handedBy_open
        intro hclosing
        simp [hopen.2] at hclosing
      · simp
  | callback cnx cb =>
    simp only [passes, Ok, iff_true]
    split
    · rename_i hmade
      have hopen : (s.cnxs cnx).closing = false := by
        by_contra hclosing
        apply hmade
        simp only [ScRefs.callbackCtx]
        rw [if_neg (by simp [hclosing])]
      simp [hopen]
    · simp
  | _ => simp [passes, Ok]

theorem step_open {act : ScRefs.Act} (hs : s.step act = some s') : s'.Open ↔ s.Open ∧ s.Ok act := by
  simp only [step, Option.map_eq_some_iff] at hs
  obtain ⟨t, -, rfl⟩ := hs
  rw [← passes_open_iff]
  simp only [Open, List.mem_append, or_imp, forall_and]

/-- In every run, no context was passed for a closing connection exactly if no reset was held back
for one. -/
theorem no_handover_while_closing {role : Role} {txCap : ℕ} {acts : List ScRefs.Act}
    (hrun : Steps.run step (init role txCap) acts = some s) :
    s.Open ↔ Steps.Along step Ok (init role txCap) acts := by
  rw [Steps.record_iff (I := Open) (fun _ _ _ => step_open) hrun]
  simp [Open, init]

/-- A stream is marked active, its connection closes, and then a reset of it comes up. -/
def resetActs (defers : Bool) : List ScRefs.Act :=
  [.connect 16, .callback 16 { event := .ready }, .drainEntry false, .route false {}, .releaseBatch,
    .send 0 4 .committed, .pop {} true, .reset 0 4, .disconnect 16, .pop { defers := defers } true]

theorem no_handover_while_closing_resetActs : ∃ s,
    Steps.run step (init .server 8) (resetActs false) = some s ∧ s.handed ≠ [] ∧ s.Open := by
  refine ⟨_, rfl, ?_,
    (no_handover_while_closing (rfl : Steps.run step (init .server 8) (resetActs false) =
    some _)).2 ?_⟩ <;> decide +kernel

/-- A reset that is held back hands the context to the closing connection. -/
theorem no_handover_while_closing_heldActs : ∃ s,
    Steps.run step (init .server 8) (resetActs true) = some s ∧ ⟨16, 1, true⟩ ∈ s.handed ∧
    ¬ s.Open := by
  refine ⟨_, rfl, by decide +kernel, fun h => ?_⟩
  have := h ⟨16, 1, true⟩ (by decide +kernel)
  exact nomatch this

end Handover

end Aiopquic
