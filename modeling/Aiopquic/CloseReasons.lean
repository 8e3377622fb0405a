import Aiopquic.Lib.Steps
import Aiopquic.StreamCb

/-!
# Close reasons (`callback.h`)

`picoquic_close_ex` keeps the pointer to its reason, so the worker holds the text of a `TX_CLOSE` in
a list keyed by the connection's address, until the final callback of the connection: `close` or
`stateless_reset`.

picoquic may use the address of a freed connection again. The connections made are numbered, and
`issued` and `closes` say, for the connections by number, which texts were asked for and which were
passed on.
-/

namespace Aiopquic

/-- A connection in picoquic's list; `final` once its final callback has run. -/
structure Cnx where
  inst : ℕ
  final : Bool := false
  deriving DecidableEq, Repr

/-- `aiopquic_close_reason_t`. The text ends in a NUL. -/
structure CloseReason where
  cnx : ℕ
  text : List UInt8
  deriving DecidableEq, Repr

/-- The worker's close reasons, with picoquic's list of connections. -/
structure CloseReasons where
  cnxs : ℕ → Option Cnx := fun _ => none
  created : ℕ := 0
  closeReasons : List CloseReason := []
  /-- History: the `TX_CLOSE` commands processed, with the connection each was issued for. -/
  issued : List (ℕ × List UInt8) := []
  /-- History: the calls of `picoquic_close_ex`, and of `picoquic_close` without a text. -/
  closes : List (ℕ × Option (List UInt8)) := []

namespace CloseReasons

/-- `aiopquic_close_reason_hold`: the text to pass on, and the list. `allocates` is whether `malloc`
returns memory. -/
def hold (reasons : List CloseReason) (cnx : ℕ) (data : List UInt8) (allocates : Bool) :
    Option (List UInt8) × List CloseReason :=
  if data = [] then (none, reasons)
  else
    match reasons.find? (·.cnx = cnx) with
    | some r => (some r.text, reasons)
    | none =>
      if allocates then
        let r : CloseReason := { cnx := cnx, text := data ++ [0] }
        (some r.text, r :: reasons)
      else (none, reasons)

/-- `aiopquic_close_reason_drop`. -/
def drop (reasons : List CloseReason) (cnx : ℕ) : List CloseReason := reasons.eraseP (·.cnx = cnx)

/-- What the worker and picoquic do: picoquic makes a connection, the worker processes a `TX_CLOSE`
that was issued for connection `inst`, picoquic calls back, picoquic frees a connection. -/
inductive Act
  | create (cnx : ℕ)
  | txClose (entry : Entry) (inst : ℕ) (allocates : Bool)
  | callback (cnx : ℕ) (event : PicoquicCallback)
  | free (cnx : ℕ)

/-- The case `SPSC_EVT_TX_CLOSE` of `aiopquic_loop_cb`, behind the stale-cnx guard. -/
def txClose (s : CloseReasons) (entry : Entry) (inst : ℕ) (allocates : Bool) : CloseReasons :=
  let s := { s with issued := s.issued ++ [(inst, entry.payload)] }
  match s.cnxs entry.cnx with
  | none => s
  | some c =>
    let held := hold s.closeReasons entry.cnx entry.payload allocates
    { s with closeReasons := held.2, closes := s.closes ++ [(c.inst, held.1)] }

/-- One step. A connection is made at an address that is free, called back while it is in the list,
and freed after its final callback. -/
def step (s : CloseReasons) : Act → Option CloseReasons
  | .create cnx =>
    if cnx ≠ 0 ∧ s.cnxs cnx = none then
      some
        { s with
          cnxs := Function.update s.cnxs cnx (some { inst := s.created })
          created := s.created + 1 }
    else none
  | .txClose entry inst allocates => some (s.txClose entry inst allocates)
  | .callback cnx event =>
    match s.cnxs cnx with
    | none => none
    | some c =>
      if event = .close ∨ event = .statelessReset then
        some
          { s with
            cnxs := Function.update s.cnxs cnx (some { c with final := true })
            closeReasons := drop s.closeReasons cnx }
      else some s
  | .free cnx =>
    match s.cnxs cnx with
    | none => none
    | some c => if c.final then some { s with cnxs := Function.update s.cnxs cnx none } else none

/-- A text passed on for a connection is the payload of a `TX_CLOSE` issued for it, and an address
has an entry only while there is a connection at it for which one was issued. -/
structure Belongs (s : CloseReasons) : Prop where
  text : ∀ inst text, (inst, some text) ∈ s.closes → ∃ data, (inst, data) ∈ s.issued ∧ text =
    data ++ [0]
  entry : ∀ r ∈ s.closeReasons, ∃ c, s.cnxs r.cnx = some c ∧ ∃ data, (c.inst, data) ∈ s.issued

/-- A `TX_CLOSE` that finds a connection at its address finds the one it was issued for, and, if it
has a reason, before that connection's final callback. -/
def InTime (s : CloseReasons) : Act → Prop
  | .txClose entry inst _ => ∀ c ∈ s.cnxs entry.cnx, inst = c.inst ∧
    (entry.payload ≠ [] → c.final = false)
  | _ => True

instance (s : CloseReasons) : ∀ act, Decidable (s.InTime act)
  | .txClose entry inst _ => inferInstanceAs (Decidable (∀ c ∈ s.cnxs entry.cnx,
      inst = c.inst ∧ (entry.payload ≠ [] → c.final = false)))
  | .create _ => .isTrue trivial
  | .callback _ _ => .isTrue trivial
  | .free _ => .isTrue trivial

/-! ## The invariant -/

/-- An entry is the text of a `TX_CLOSE` of the connection at its address. -/
structure Inv (s : CloseReasons) : Prop where
  text : ∀ inst text, (inst, some text) ∈ s.closes → ∃ data, (inst, data) ∈ s.issued ∧ text =
    data ++ [0]
  entry : ∀ r ∈ s.closeReasons, ∃ c, s.cnxs r.cnx = some c ∧ c.final = false ∧
    ∃ data, (c.inst, data) ∈ s.issued ∧ r.text = data ++ [0]
  unique : (s.closeReasons.map (·.cnx)).Nodup

theorem Inv.belongs {s : CloseReasons} (h : s.Inv) : s.Belongs := by
  refine ⟨h.text, fun r hr => ?_⟩
  obtain ⟨c, hc, -, data, hd, -⟩ := h.entry r hr
  exact ⟨c, hc, data, hd⟩

variable {s s' : CloseReasons}

/-- A new connection's address has no entry. -/
theorem Inv.create (h : s.Inv) {cnx : ℕ} (hfree : s.cnxs cnx = none) :
    Inv { s with
      cnxs := Function.update s.cnxs cnx (some { inst := s.created })
      created := s.created + 1 } := by
  refine ⟨h.text, fun r hr => ?_, h.unique⟩
  obtain ⟨c, hc, hrest⟩ := h.entry r hr
  have hne : r.cnx ≠ cnx := by
    intro heq
    rw [heq, hfree] at hc
    exact absurd hc (by simp)
  exact ⟨c, (Function.update_of_ne hne _ _).trans hc, hrest⟩

theorem Inv.free (h : s.Inv) {cnx : ℕ} {c : Cnx} (hc : s.cnxs cnx = some c) (hf : c.final = true) :
    Inv { s with cnxs := Function.update s.cnxs cnx none } := by
  refine ⟨h.text, fun r hr => ?_, h.unique⟩
  obtain ⟨c', hc', hopen, hrest⟩ := h.entry r hr
  have hne : r.cnx ≠ cnx := by
    intro heq
    rw [heq, hc] at hc'
    cases hc'
    exact absurd (hf.symm.trans hopen) (by simp)
  exact ⟨c', (Function.update_of_ne hne _ _).trans hc', hopen, hrest⟩

theorem mem_drop {reasons : List CloseReason} {cnx : ℕ} (hu : (reasons.map (·.cnx)).Nodup)
    {r : CloseReason}
    (hr : r ∈ drop reasons cnx) : r ∈ reasons ∧ r.cnx ≠ cnx := by
  refine ⟨List.mem_of_mem_eraseP hr, ?_⟩
  induction reasons with
  | nil => exact absurd hr (by simp [drop])
  | cons r' reasons ih =>
    rw [List.map_cons, List.nodup_cons] at hu
    by_cases h : r'.cnx = cnx
    · rw [drop, List.eraseP_cons_of_pos (by simpa using h)] at hr
      intro heq
      exact hu.1 (List.mem_map.2 ⟨r, hr, heq.trans h.symm⟩)
    · rw [drop, List.eraseP_cons_of_neg (by simpa using h)] at hr
      rcases List.mem_cons.1 hr with rfl | hr
      · exact h
      · exact ih hu.2 hr

/-- The final callback of a connection. -/
theorem Inv.final (h : s.Inv) {cnx : ℕ} (c : Cnx) :
    Inv { s with cnxs := Function.update s.cnxs cnx (some c), closeReasons := drop s.closeReasons cnx } := by
  refine ⟨h.text, fun r hr => ?_, ?_⟩
  · obtain ⟨hmem, hne⟩ := mem_drop h.unique hr
    obtain ⟨c', hc', hrest⟩ := h.entry r hmem
    exact ⟨c', (Function.update_of_ne hne _ _).trans hc', hrest⟩
  · exact h.unique.sublist (List.Sublist.map _ List.eraseP_sublist)

/-- What `hold` returns for a text: an entry of the list, or the text, now in the list. -/
theorem hold_cases (reasons : List CloseReason) (cnx : ℕ) (data : List UInt8) (allocates : Bool) :
    hold reasons cnx data allocates = (none, reasons) ∨
      (∃ r ∈ reasons, r.cnx = cnx ∧ hold reasons cnx data allocates = (some r.text, reasons)) ∨
      data ≠ [] ∧ (∀ r ∈ reasons, r.cnx ≠ cnx) ∧ hold reasons cnx data allocates =
        (some (data ++ [0]), { cnx := cnx, text := data ++ [0] } :: reasons) := by
  unfold hold
  by_cases hd : data = []
  · exact .inl (if_pos hd)
  · rw [if_neg hd]
    cases hf : reasons.find? (·.cnx = cnx) with
    | some r =>
      have hr : r.cnx = cnx := by simpa using List.find?_some hf
      exact .inr (.inl ⟨r, List.mem_of_find?_eq_some hf, hr, rfl⟩)
    | none =>
      cases allocates with
      | false => exact .inl rfl
      | true =>
        refine .inr (.inr ⟨hd, fun r hr heq => ?_, rfl⟩)
        exact absurd heq (by simpa using List.find?_eq_none.1 hf r hr)

/-- Commands already issued stay issued. -/
theorem Inv.issue (h : s.Inv) (p : ℕ × List UInt8) : Inv { s with issued := s.issued ++ [p] } := by
  refine ⟨fun inst text hmem => ?_, fun r hr => ?_, h.unique⟩
  · obtain ⟨data, hd, ht⟩ := h.text inst text hmem
    exact ⟨data, List.mem_append_left _ hd, ht⟩
  · obtain ⟨c, hc, hopen, data, hd, ht⟩ := h.entry r hr
    exact ⟨c, hc, hopen, data, List.mem_append_left _ hd, ht⟩

/-- A text passed on for a connection. -/
theorem Inv.pass (h : s.Inv) {inst : ℕ} {o : Option (List UInt8)}
    (ho : ∀ text, o = some text → ∃ data, (inst, data) ∈ s.issued ∧ text = data ++ [0]) :
    Inv { s with closes := s.closes ++ [(inst, o)] } := by
  refine ⟨fun i text hmem => ?_, h.entry, h.unique⟩
  rcases List.mem_append.1 hmem with hmem | hmem
  · exact h.text i text hmem
  · obtain ⟨rfl, rfl⟩ := Prod.mk.inj (List.mem_singleton.1 hmem)
    exact ho text rfl

/-- A new entry, for an address that has none. -/
theorem Inv.insert (h : s.Inv) {cnx : ℕ} {c : Cnx} {data : List UInt8} (hc : s.cnxs cnx = some c)
    (hopen : c.final = false) (hi : (c.inst, data) ∈ s.issued)
    (hnew : ∀ r ∈ s.closeReasons, r.cnx ≠ cnx) :
    Inv { s with closeReasons := { cnx := cnx, text := data ++ [0] } :: s.closeReasons } := by
  refine ⟨h.text, fun r hr => ?_, ?_⟩
  · rcases List.mem_cons.1 hr with rfl | hr
    · exact ⟨c, hc, hopen, data, hi, rfl⟩
    · exact h.entry r hr
  · refine List.nodup_cons.2 ⟨fun hmem => ?_, h.unique⟩
    obtain ⟨r, hr, heq⟩ := List.mem_map.1 hmem
    exact hnew r hr heq

theorem Inv.txClose (h : s.Inv) {entry : Entry} {inst : ℕ} {allocates : Bool}
    (hok : s.InTime (.txClose entry inst allocates)) : (s.txClose entry inst allocates).Inv := by
  have hi := h.issue (inst, entry.payload)
  have hmem : (inst, entry.payload) ∈ s.issued ++ [(inst, entry.payload)] := by simp
  unfold CloseReasons.txClose
  dsimp only
  cases hc : s.cnxs entry.cnx with
  | none => exact hi
  | some c =>
    obtain ⟨rfl, hopen⟩ := hok c hc
    dsimp only
    rcases hold_cases s.closeReasons entry.cnx entry.payload allocates with heq |
      ⟨r, hr, hrc, heq⟩ |
      ⟨hd, hnew, heq⟩
    · rw [heq]
      exact hi.pass fun text ht => absurd ht (by simp)
    · rw [heq]
      refine hi.pass fun text ht => ?_
      obtain ⟨c', hc', -, hrest⟩ := hi.entry r hr
      have hcc : c' = c := Option.some.inj (hc'.symm.trans (hrc ▸ hc))
      subst hcc
      cases ht
      exact hrest
    · rw [heq]
      refine (hi.insert hc (hopen hd) hmem hnew).pass fun text ht => ?_
      cases ht
      exact ⟨entry.payload, hmem, rfl⟩

theorem Inv.step {act : Act} (h : s.Inv) (hok : s.InTime act) (hs : s.step act = some s') :
    s'.Inv := by
  cases act with
  | create cnx =>
    rw [CloseReasons.step] at hs
    split at hs
    · rename_i hfree
      cases hs
      exact h.create hfree.2
    · cases hs
  | txClose entry inst allocates =>
    cases hs
    exact h.txClose hok
  | callback cnx event =>
    rw [CloseReasons.step] at hs
    split at hs
    · cases hs
    · split at hs
      · cases hs
        exact h.final _
      · cases hs
        exact h
  | free cnx =>
    rw [CloseReasons.step] at hs
    split at hs
    · cases hs
    · rename_i c hc
      split at hs
      · rename_i hf
        cases hs
        exact h.free hc hf
      · cases hs

/-- In every run whose `TX_CLOSE` commands come in time, a close reason belongs to its
connection. -/
theorem close_reason_belongs {acts : List Act} (hok : Steps.Along step InTime {} acts)
    (hrun : Steps.run step {} acts = some s) : s.Belongs := by
  have hinit : Inv {} :=
    ⟨fun _ _ h => absurd h (by simp), fun _ h => absurd h (by simp), List.nodup_nil⟩
  exact (Steps.invariant (fun _ _ _ hs ho hst => hs.step ho hst) hinit hok hrun).belongs

/-- A `TX_CLOSE` with the reason `data`. -/
def closeEntry (cnx : ℕ) (data : List UInt8) : Entry :=
  { eventType := .txClose, cnx := cnx, dataBuf := .owned data, dataLength := data.length }

/-- Two connections at one address, each closed before its final callback. -/
def timelyActs : List Act :=
  [.create 16, .txClose (closeEntry 16 [1]) 0 true, .callback 16 .close, .free 16, .create 16,
    .txClose (closeEntry 16 [2]) 1 true]

theorem close_reason_belongs_timelyActs :
    ∃ s, Steps.run step {} timelyActs = some s ∧ s.Belongs ∧
      s.closes = [(0, some [1, 0]), (1, some [2, 0])] := by
  refine ⟨_, rfl, close_reason_belongs (s := _) ?_ (rfl : Steps.run step {} timelyActs = some _),
    rfl⟩
  decide

/-- The first connection's `TX_CLOSE` is processed after its final callback. -/
def lateCloseActs : List Act :=
  [.create 16, .callback 16 .close, .txClose (closeEntry 16 [1]) 0 true, .free 16, .create 16,
    .txClose (closeEntry 16 [2]) 1 true]

/-- The entry of the first connection outlives it, and the second is closed with its text. -/
theorem close_reason_belongs_lateCloseActs :
    (∃ s, Steps.run step {} (lateCloseActs.take 4) = some s ∧ s.cnxs 16 = none ∧
        s.closeReasons = [{ cnx := 16, text := [1, 0] }] ∧ ¬ s.Belongs) ∧
      ∃ s, Steps.run step {} lateCloseActs = some s ∧ s.issued = [(0, [1]), (1, [2])] ∧
        s.closes = [(0, some [1, 0]), (1, some [1, 0])] ∧ ¬ s.Belongs := by
  constructor
  · obtain ⟨s, hrun, hcnx, hreasons⟩ : ∃ s, Steps.run step {} (lateCloseActs.take 4) = some s ∧
        s.cnxs 16 = none ∧ s.closeReasons = [{ cnx := 16, text := [1, 0] }] := ⟨_, rfl, rfl, rfl⟩
    refine ⟨s, hrun, hcnx, hreasons, fun h => ?_⟩
    obtain ⟨c, hc, -⟩ := h.entry { cnx := 16, text := [1, 0] } (by simp [hreasons])
    exact absurd (hcnx.symm.trans hc) (by simp)
  · obtain ⟨s, hrun, hissued, hcloses⟩ : ∃ s, Steps.run step {} lateCloseActs = some s ∧
        s.issued = [(0, [1]), (1, [2])] ∧ s.closes = [(0, some [1, 0]), (1, some [1, 0])] :=
      ⟨_, rfl, rfl, rfl⟩
    refine ⟨s, hrun, hissued, hcloses, fun h => ?_⟩
    obtain ⟨data, hd, ht⟩ := h.text 1 [1, 0] (by simp [hcloses])
    have hdata : data = [2] := by simpa [hissued] using hd
    rw [hdata] at ht
    exact absurd ht (by decide)

end CloseReasons

end Aiopquic
