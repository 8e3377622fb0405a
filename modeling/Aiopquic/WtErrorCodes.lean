import Aiopquic.Lib.Skipping
import Aiopquic.SpscRing

/-!
# Error codes of WebTransport streams (`h3wt_callback.h`)

A 32-bit application code travels as an HTTP/3 code, numbered through a range that leaves out the
reserved codepoints. Within the range that is a bijection (`wt_code_roundtrip`).

What tells an application code from an HTTP/3 code is its size alone. `push_reset_stream` and
`push_stop_sending` take a code below `2 ^ 32` for an application code, and a received code outside
the range is delivered as it is, so every code below `2 ^ 32` can come from two wire codes.
-/

namespace Aiopquic

open Skipping

/-- `AIOPQUIC_WT_APP_ERROR_FIRST`. -/
def wtAppErrorFirst : ℕ := 0x52e4a40fa8db

/-- `AIOPQUIC_WT_APP_ERROR_LAST`. -/
def wtAppErrorLast : ℕ := 0x52e5ac983162

/-- `AIOPQUIC_WT_SESSION_GONE`. -/
def aiopquicWtSessionGone : ℕ := 0x170d7b68

/-- `aiopquic_wt_code_to_h3`. The sum stays below `2 ^ 47`. -/
def wtCodeToH3 (code : ℕ) : ℕ :=
  if 0xffffffff < code then code else wtAppErrorFirst + code + code / 0x1e

/-- `aiopquic_wt_code_from_h3`. The subtractions are done only for codes that are large enough. -/
def wtCodeFromH3 (h : ℕ) : ℕ :=
  if h < wtAppErrorFirst ∨ wtAppErrorLast < h ∨ (h - 0x21) % 0x1f = 0 then h
  else (h - wtAppErrorFirst) - (h - wtAppErrorFirst) / 0x1f

/-- A reserved codepoint of HTTP/3. -/
def IsReservedH3 (h : ℕ) : Prop := ∃ n, h = 0x1f * n + 0x21

/-- The wire codes that carry an application code. -/
def CarriesAppCode (h : ℕ) : Prop := wtAppErrorFirst ≤ h ∧ h ≤ wtAppErrorLast ∧ ¬ IsReservedH3 h

/-! ## The numbering -/

variable {c h h' : ℕ}

theorem isReservedH3_iff (hle : wtAppErrorFirst ≤ h) : IsReservedH3 h ↔ (h - 0x21) % 0x1f = 0 := by
  unfold wtAppErrorFirst at hle
  constructor
  · rintro ⟨n, rfl⟩
    omega
  · intro hmod
    exact ⟨(h - 0x21) / 0x1f, by omega⟩

/-- The reserved codepoints are the last places of the blocks that the range starts with. -/
theorem isReservedH3_add (m : ℕ) : IsReservedH3 (wtAppErrorFirst + m) ↔ m % (30 + 1) = 30 := by
  rw [isReservedH3_iff (Nat.le_add_right _ _)]
  unfold wtAppErrorFirst
  omega

theorem wtAppErrorLast_eq : wtAppErrorLast = wtAppErrorFirst + skip 30 0xffffffff := by
  decide

theorem wtCodeToH3_app (hc : c ≤ 0xffffffff) : wtCodeToH3 c = wtAppErrorFirst + skip 30 c := by
  rw [wtCodeToH3, if_neg (by omega), skip, Nat.add_assoc]

theorem carriesAppCode_iff : CarriesAppCode h ↔
    wtAppErrorFirst ≤ h ∧ h ≤ wtAppErrorLast ∧ (h - 0x21) % 0x1f ≠ 0 := by
  constructor
  · rintro ⟨hlo, hhi, hres⟩
    exact ⟨hlo, hhi, fun hmod => hres ((isReservedH3_iff hlo).2 hmod)⟩
  · rintro ⟨hlo, hhi, hmod⟩
    exact ⟨hlo, hhi, fun hres => hmod ((isReservedH3_iff hlo).1 hres)⟩

theorem wtCodeFromH3_app (hh : CarriesAppCode h) :
    wtCodeFromH3 h = unskip 30 (h - wtAppErrorFirst) := by
  obtain ⟨hlo, hhi, hmod⟩ := carriesAppCode_iff.1 hh
  rw [wtCodeFromH3, if_neg (by omega), unskip]

/-- Any other wire code is delivered as it was received. -/
theorem wtCodeFromH3_other (hh : ¬ CarriesAppCode h) : wtCodeFromH3 h = h := by
  rw [carriesAppCode_iff] at hh
  rw [wtCodeFromH3, if_pos (by omega)]

/-- The wire code of an application code carries one. -/
theorem carriesAppCode_toH3 (hc : c ≤ 0xffffffff) : CarriesAppCode (wtCodeToH3 c) := by
  rw [wtCodeToH3_app hc]
  obtain ⟨hle, hmod⟩ := (skip_bijOn (k := 30) (by decide) 0xffffffff).mapsTo hc
  refine ⟨Nat.le_add_right _ _, ?_, fun hres => hmod ((isReservedH3_add _).1 hres)⟩
  rw [wtAppErrorLast_eq]
  exact Nat.add_le_add_left hle _

theorem wtCodeFromH3_toH3 (hc : c ≤ 0xffffffff) : wtCodeFromH3 (wtCodeToH3 c) = c := by
  rw [wtCodeFromH3_app (carriesAppCode_toH3 hc), wtCodeToH3_app hc, Nat.add_sub_cancel_left,
    unskip_skip (by decide)]

/-- What a wire code carries is the code that is sent as it. -/
theorem exists_appCode (hh : CarriesAppCode h) : ∃ c, c ≤ 0xffffffff ∧ wtCodeToH3 c = h := by
  obtain ⟨hlo, hhi, hres⟩ := hh
  obtain ⟨m, rfl⟩ := Nat.exists_eq_add_of_le hlo
  have hle : m ≤ skip 30 0xffffffff := by
    rw [wtAppErrorLast_eq] at hhi
    omega
  obtain ⟨c, hc, rfl⟩ := (skip_bijOn (k := 30) (by decide) 0xffffffff).surjOn
    ⟨hle, fun hmod => hres ((isReservedH3_add m).2 hmod)⟩
  exact ⟨c, hc, wtCodeToH3_app hc⟩

theorem wtCodeToH3_fromH3 (hh : CarriesAppCode h) : wtCodeToH3 (wtCodeFromH3 h) = h := by
  obtain ⟨c, hc, rfl⟩ := exists_appCode hh
  rw [wtCodeFromH3_toH3 hc]

/-- The application codes and the wire codes that carry one are in order-preserving bijection, and
the two functions are its two directions. -/
theorem wt_code_roundtrip :
    (∀ c < 2 ^ 32, wtAppErrorFirst ≤ wtCodeToH3 c ∧ wtCodeToH3 c ≤ wtAppErrorLast ∧
    ¬ IsReservedH3 (wtCodeToH3 c) ∧
      wtCodeFromH3 (wtCodeToH3 c) = c) ∧
    (∀ c c', c < c' → c' < 2 ^ 32 → wtCodeToH3 c < wtCodeToH3 c') ∧
    (∀ h, wtAppErrorFirst ≤ h → h ≤ wtAppErrorLast → ¬ IsReservedH3 h →
      wtCodeFromH3 h < 2 ^ 32 ∧ wtCodeToH3 (wtCodeFromH3 h) = h) ∧
    Set.BijOn wtCodeToH3 {c | c < 2 ^ 32}
    {h | wtAppErrorFirst ≤ h ∧ h ≤ wtAppErrorLast ∧ ¬ IsReservedH3 h} ∧
    Set.InvOn wtCodeFromH3 wtCodeToH3 {c | c < 2 ^ 32}
      {h | wtAppErrorFirst ≤ h ∧ h ≤ wtAppErrorLast ∧ ¬ IsReservedH3 h} := by
  have hleft : ∀ c < 2 ^ 32, wtCodeFromH3 (wtCodeToH3 c) = c := fun c hc =>
    wtCodeFromH3_toH3 (by omega)
  have hright : ∀ h, CarriesAppCode h → wtCodeFromH3 h < 2 ^ 32 ∧ wtCodeToH3 (wtCodeFromH3 h) =
    h := by
    intro h hh
    obtain ⟨c, hc, rfl⟩ := exists_appCode hh
    rw [wtCodeFromH3_toH3 hc]
    exact ⟨by omega, rfl⟩
  have hmaps : ∀ c < 2 ^ 32, CarriesAppCode (wtCodeToH3 c) := fun c hc =>
    carriesAppCode_toH3 (by omega)
  refine ⟨fun c hc => ⟨(hmaps c hc).1, (hmaps c hc).2.1, (hmaps c hc).2.2, hleft c hc⟩,
    fun c c' hlt hc' => ?_,
    fun h hlo hhi hres => hright h ⟨hlo, hhi, hres⟩, ⟨hmaps, ?_, ?_⟩, hleft, fun h hh =>
      (hright h hh).2⟩
  · rw [wtCodeToH3_app (by omega), wtCodeToH3_app (by omega)]
    exact Nat.add_lt_add_left (skip_strictMono 30 hlt) _
  · exact Set.LeftInvOn.injOn hleft
  · exact fun h hh => ⟨wtCodeFromH3 h, hright h hh⟩

/-! ## What picoquic is told -/

/-- `push_reset_stream` of a session: the command that it posts. -/
def pushResetStream (wt streamId errorCode reliableSize : ℕ) : Entry :=
  { eventType := .txWtResetStream
    cnx := wt
    streamCtx := wt
    streamId := streamId
    errorCode := errorCode
    aux := reliableSize }

/-- `push_stop_sending` of a session. -/
def pushStopSending (wt streamId errorCode : ℕ) : Entry :=
  { eventType := .txWtStopSending
    cnx := wt
    streamCtx := wt
    streamId := streamId
    errorCode := errorCode }

/-- What `aiopquic_wt_handle_tx` finds out about the stream of a command: whether the session has a
connection, the connection an HTTP/3 context and that context the stream, in which directions the
stream runs, whether a reset is held for it, the reliable size of a reset, the head of its send
ring, the length of its header, and whether a reset can be held. -/
structure WtStreamView where
  cnx : Bool
  h3Ctx : Bool
  tracked : Bool
  canSend : Bool
  canReceive : Bool
  txResetPending : Bool
  reliable : ℕ
  txHead : ℕ
  preamble : ℕ
  held : Bool

/-- What becomes of a command: picoquic is told, or a reset is held until its bytes are sent and
told then. -/
inductive WtTold
  | resetStream (streamId code : ℕ)
  | resetStreamReliable (streamId code reliable : ℕ)
  | deferReset (streamId code reliable preamble : ℕ)
  | stopSending (streamId code : ℕ)
  deriving DecidableEq, Repr

/-- The code in it. -/
def WtTold.code : WtTold → ℕ
  | .resetStream _ code => code
  | .resetStreamReliable _ code _ => code
  | .deferReset _ code _ _ => code
  | .stopSending _ code => code

/-- `aiopquic_wt_handle_tx`, for the commands that end a stream. -/
def wtHandleTx (v : WtStreamView) (entry : Entry) : Option WtTold :=
  match entry.eventType with
  | .txWtResetStream =>
    if v.cnx = false then none
    else if v.h3Ctx = false then none
    else if v.tracked = false then none
    else if v.canSend = false then none
    else
      let code := wtCodeToH3 entry.errorCode
      if v.txResetPending then none
      else if v.reliable = 0 then some (.resetStream entry.streamId code)
      else if v.txHead < v.reliable ∧ v.held = true then
        some (.deferReset entry.streamId code v.reliable v.preamble)
      else some (.resetStreamReliable entry.streamId code (v.preamble + v.reliable))
  | .txWtStopSending =>
    if v.cnx = false then none
    else if v.canReceive then some (.stopSending entry.streamId (wtCodeToH3 entry.errorCode))
    else none
  | _ => none

/-- Whatever the state of the stream, the code that picoquic is told is the mapped one. -/
theorem wtHandleTx_code {v : WtStreamView} {entry : Entry} {told : WtTold}
    (h : wtHandleTx v entry = some told) :
    told.code = wtCodeToH3 entry.errorCode := by
  unfold wtHandleTx at h
  split at h
  · split_ifs at h
    · cases h
      rfl
    · cases h
      rfl
    · cases h
      rfl
  · split_ifs at h
    cases h
    rfl
  · cases h

theorem wtCodeToH3_eq_self : wtCodeToH3 c = c ↔ 2 ^ 32 ≤ c := by
  unfold wtCodeToH3 wtAppErrorFirst
  split_ifs with hlarge
  · exact ⟨fun _ => by omega, fun _ => rfl⟩
  · constructor <;> intro h <;> omega

/-- The delivered value tells the wire code exactly when it does not fit 32 bits. -/
theorem wtCodeFromH3_unique : (∀ h', wtCodeFromH3 h' = wtCodeFromH3 h → h' = h) ↔
    2 ^ 32 ≤ h ∧ ¬ CarriesAppCode h := by
  constructor
  · intro hunique
    by_cases hh : CarriesAppCode h
    · -- the wire code that equals the application code is delivered as it, too
      obtain ⟨c, hc, rfl⟩ := exists_appCode hh
      have hother : ¬ CarriesAppCode c := fun happ => by
        have := happ.1
        unfold wtAppErrorFirst at this
        omega
      have hcode : c = wtCodeToH3 c :=
        hunique c (by rw [wtCodeFromH3_other hother, wtCodeFromH3_toH3 hc])
      exact absurd (wtCodeToH3_eq_self.1 hcode.symm) (by omega)
    · refine ⟨?_, hh⟩
      by_contra hlt
      have hle : h ≤ 0xffffffff := by omega
      have hcode : wtCodeToH3 h = h :=
        hunique _ (by rw [wtCodeFromH3_toH3 hle, wtCodeFromH3_other hh])
      exact hlt (wtCodeToH3_eq_self.1 hcode)
  · rintro ⟨hlarge, hh⟩ h' heq
    rw [wtCodeFromH3_other hh] at heq
    by_cases hh' : CarriesAppCode h'
    · obtain ⟨c, hc, rfl⟩ := exists_appCode hh'
      rw [wtCodeFromH3_toH3 hc] at heq
      omega
    · rwa [wtCodeFromH3_other hh'] at heq

/-- A wire code is told from all others by what is delivered for it exactly when it is no code below
`2 ^ 32` and does not carry one, and a code given to `push_reset_stream` or `push_stop_sending`
reaches picoquic unchanged exactly when it is no code below `2 ^ 32`. -/
theorem wt_code_means_one_thing_iff (h : ℕ) (v : WtStreamView)
    (wt streamId errorCode reliableSize : ℕ) :
    ((∀ h', wtCodeFromH3 h' = wtCodeFromH3 h → h' = h) ↔ 2 ^ 32 ≤ h ∧ ¬ CarriesAppCode h) ∧
    (∀ told ∈ wtHandleTx v (pushResetStream wt streamId errorCode reliableSize),
      told.code = errorCode ↔ 2 ^ 32 ≤ errorCode) ∧
    (∀ told ∈ wtHandleTx v (pushStopSending wt streamId errorCode),
      told.code = errorCode ↔ 2 ^ 32 ≤ errorCode) := by
  refine ⟨wtCodeFromH3_unique, ?_, ?_⟩
  · intro told htold
    rw [wtHandleTx_code htold]
    exact wtCodeToH3_eq_self
  · intro told htold
    rw [wtHandleTx_code htold]
    exact wtCodeToH3_eq_self

/-- An open stream that runs both ways, with nothing held for it. -/
def openStreamView : WtStreamView where
  cnx := true
  h3Ctx := true
  tracked := true
  canSend := true
  canReceive := true
  txResetPending := false
  reliable := 0
  txHead := 0
  preamble := 0
  held := true

/-- The wire codes `0x10c` and `0x52e4a40fa9ef` are both delivered as `0x10c`, and `WT_SESSION_GONE`
goes out as another code, in a reset as in a STOP_SENDING. -/
theorem session_gone_remapped :
    (wtCodeFromH3 0x10c = 0x10c ∧ wtCodeFromH3 0x52e4a40fa9ef = 0x10c) ∧
    (wtHandleTx openStreamView (pushResetStream 1 4 aiopquicWtSessionGone 0)).map WtTold.code =
    some 0x52e4bbe1db93 ∧
    (wtHandleTx openStreamView (pushStopSending 1 4 aiopquicWtSessionGone)).map WtTold.code =
    some 0x52e4bbe1db93 ∧
    aiopquicWtSessionGone ≠ 0x52e4bbe1db93 := by
  decide

end Aiopquic
