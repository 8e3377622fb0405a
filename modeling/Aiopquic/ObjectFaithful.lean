import Aiopquic.ObjectRange

/-!
# The encoders and what the parser reads

An encoder raises for what it cannot convert to the C types. What it can convert it writes, whether
or not the integer format has it and the parser takes it: `Sayable` says when the body reads as the
arguments were.
-/

namespace Aiopquic

open Fallible (raise get)

/-! ## What the sources give -/

namespace FlatBuffer

theorem beValue_lt (bytes : List UInt8) : beValue bytes < 256 ^ bytes.length := by
  induction bytes with
  | nil => exact Nat.one_pos
  | cons b rest ih =>
    have hb : b.toNat + 1 ≤ 256 := b.toNat_lt
    calc beValue (b :: rest) < b.toNat * 256 ^ rest.length + 256 ^ rest.length :=
      Nat.add_lt_add_left ih _
      _ = (b.toNat + 1) * 256 ^ rest.length := (Nat.succ_mul _ _).symm
      _ ≤ 256 * 256 ^ rest.length := Nat.mul_le_mul_right _ hb
      _ = 256 ^ (b :: rest).length := by rw [List.length_cons, Nat.pow_succ, Nat.mul_comm]

end FlatBuffer

namespace BodySource

variable {src : BodySource FlatBuffer} {bound : ℕ} {extensionsPresent kvpDelta : Bool}
    {extsLenLimit : ℤ}
  {f f' : FlatBuffer}

theorem Bounded.parseExts (hb : src.Bounded bound) {exts : Option ExtDict}
    (h : src.parseExts extsLenLimit kvpDelta f = (.ok exts, f')) :
    ∀ dict, exts = some dict → dict.Fits bound kvpDelta := by
  rintro dict rfl
  rw [BodySource.parseExts] at h
  obtain ⟨extsLen, g, -, h⟩ := Fallible.bind_eq_ok.1 h
  split at h
  · cases h
  split at h
  · obtain ⟨pos, g, -, h⟩ := Fallible.bind_eq_ok.1 h
    obtain ⟨exts, g, hloop, h⟩ := Fallible.bind_eq_ok.1 h
    split at h
    · cases h
    · cases h
      exact hb.extLoop_fits hloop
  · cases h

/-- An object body that the parser returns. -/
structure Said (bound : ℕ) (extensionsPresent kvpDelta : Bool) (body : ObjectBody) : Prop where
  delta_lt : body.delta < bound
  payload : body.payload ≠ [] → body.status = 0
  exts : ∀ dict, body.exts = some dict → extensionsPresent = true ∧ dict.Fits bound kvpDelta

theorem Bounded.parseObject (hb : src.Bounded bound) {body : ObjectBody}
    (h : src.parseObject extensionsPresent extsLenLimit kvpDelta f = (.ok body, f')) :
    Said bound extensionsPresent kvpDelta body := by
  rw [BodySource.parseObject] at h
  obtain ⟨delta, g, hdelta, h⟩ := Fallible.bind_eq_ok.1 h
  obtain ⟨exts, g', hexts, h⟩ := Fallible.bind_eq_ok.1 h
  obtain ⟨payloadLen, g'', -, h⟩ := Fallible.bind_eq_ok.1 h
  have hdict : ∀ dict, exts = some dict → extensionsPresent = true ∧ dict.Fits bound kvpDelta := by
    rintro dict rfl
    cases extensionsPresent with
    | false => cases hexts
    | true => exact ⟨rfl, hb.parseExts hexts dict rfl⟩
  split at h
  · obtain ⟨status, g, -, h⟩ := Fallible.bind_eq_ok.1 h
    cases h
    exact ⟨hb.pullVint _ _ _ hdelta, fun hne => absurd rfl hne, hdict⟩
  · obtain ⟨payload, g, -, h⟩ := Fallible.bind_eq_ok.1 h
    cases h
    exact ⟨hb.pullVint _ _ _ hdelta, fun _ => rfl, hdict⟩

end BodySource

/-! ## What the encoder takes -/

/-- The item of a pair. -/
def ExtPair.item (pair : ExtPair) : ℤ × ExtValue := (pair.absId, pair.value)

namespace VintCodec

variable (codec : VintCodec)

variable {codec : VintCodec} {delta : ℤ} {exts : Option ExtDict} {status : Int32}
    {payload : List UInt8}
  {extensionsPresent kvpDelta : Bool} {out : VintCodec.Encoded}

end VintCodec

/-! ## What the body says -/

/-- The extensions that are written, as it is documented. -/
def documentedExts (exts : Option ExtDict) (status : Int32) (payload : List UInt8) :
    Option ExtDict :=
  if status = 0 ∧ payload ≠ [] then exts.filter fun dict => dict.items ≠ [] else none

/-- Parsed with a limit that suffices, from any chain that has the body at its cursor, the body says
`delta`, `status` and `payload`, and the extensions that are documented. -/
def Says (vi64 : Bool) (delta : ℤ) (exts : Option ExtDict) (status : Int32) (payload : List UInt8)
    (extensionsPresent kvpDelta : Bool) (body : List UInt8) : Prop :=
  ∃ enough : ℤ, enough < 2 ^ 63 ∧ ∀ extsLenLimit ≥ enough, ∀ c f more, Refines c f → f.rest =
    body ++ more →
    f.bytes.length < 2 ^ 63 →
    ∃ parsed c', StreamChain.parseBody vi64 extensionsPresent extsLenLimit kvpDelta c =
      (.ok parsed, c') ∧
      parsed.delta = delta ∧ parsed.status = status.toInt ∧ parsed.payload = payload ∧
      VintCodec.SameExts parsed.exts (documentedExts exts status payload)

namespace VintCodec

variable {codec : VintCodec} {src : BodySource FlatBuffer} {bound : ℕ} {delta : ℤ}
    {exts : Option ExtDict}
  {status : Int32} {payload : List UInt8} {extensionsPresent kvpDelta : Bool} {out : Encoded}

theorem sized (vi64 : Bool) :
    ∀ v < 2 ^ 64, (ofFlavour vi64).size v = ((ofFlavour vi64).write v).length := by
  cases vi64 with
  | false =>
    intro v _
    obtain ⟨k, n, -, -, hsize, -, hwrite⟩ := varintWrite_eq v
    show varintSize v = (varintWrite v).length
    rw [hsize, hwrite, List.length_cons, length_beBytes]
  | true => exact vi64_decodes.size_eq

theorem sameExts_refl (exts : Option ExtDict) : SameExts exts exts := by
  cases exts with
  | none => exact .none
  | some dict => exact .some (.refl _)

end VintCodec

/-- What the flat parser makes of a body that says what it should. -/
theorem Says.parsed {vi64 : Bool} {delta : ℤ} {exts : Option ExtDict} {status : Int32}
    {payload body : List UInt8}
    {extensionsPresent kvpDelta : Bool}
    (h : Says vi64 delta exts status payload extensionsPresent kvpDelta body)
    (hshort : body.length < 2 ^ 63) :
    ∃ extsLenLimit parsed f', (FlatBuffer.sourceOf vi64).parseObject extensionsPresent
    extsLenLimit kvpDelta
        (.ofBytes body) = (.ok parsed, f') ∧
      parsed.delta = delta ∧ parsed.status = status.toInt ∧ parsed.payload = payload ∧
      VintCodec.SameExts parsed.exts (documentedExts exts status payload) := by
  obtain ⟨enough, -, hparse⟩ := h
  have hrefines := ofChunks_refines [body]
  rw [List.flatten_singleton] at hrefines
  obtain ⟨parsed, c', hparsed, hsame⟩ := hparse enough le_rfl _ _ [] hrefines
    (List.append_nil _).symm hshort
  obtain ⟨hres, -⟩ := FlatBuffer.parseBody_simulated vi64 extensionsPresent enough kvpDelta
    _ _ hrefines
  rw [hparsed] at hres
  exact ⟨enough, parsed, _, Prod.ext hres.symm rfl, hsame⟩

end Aiopquic
