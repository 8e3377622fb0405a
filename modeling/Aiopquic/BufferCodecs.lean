import Aiopquic.BufferCalls
import Mathlib.Data.Nat.Size

/-!
# The integer formats of `Buffer` and `StreamChain`

Each format is written by a push of a `Buffer` and by the encoder of object bodies, and read by a
pull of a `Buffer` and by one of a `StreamChain`. All of them agree, on what was written and on what
was not.
-/

namespace Aiopquic

open Circular (copyIn copyOut copyOut_succ copyOut_take copyOut_drop copyOut_length)
open Fallible (raise get)

/-! ## The formats -/

/-- The least number of bytes for a number: RFC 9000 has one, two, four or eight, with two bits for
the length. vi64 has seven bits in each of up to eight, or all bits in nine. -/
def vintLength (vi64 : Bool) (v : ℕ) : ℕ :=
  if vi64 then max 1 (min 9 ((v.size + 6) / 7))
  else if v < 2 ^ 6 then 1
  else if v < 2 ^ 14 then 2
  else if v < 2 ^ 30 then 4
  else 8

/-- The push of a flavour. -/
def Buffer.pushFlavour (heap : Heap) (vi64 : Bool) (v : ℤ) : Buffer.Op Unit :=
  if vi64 then Buffer.pushUintVi64 heap v else Buffer.pushUintVar heap v

/-- The pull of a flavour. -/
def Buffer.pullInt (vi64 : Bool) : Buffer.Op ℕ := if vi64 then Buffer.pullUintVi64
    else Buffer.pullUintVar

/-- The pull of a flavour from a chain. -/
def StreamChain.pullInt (vi64 : Bool) : StreamChain.Op ℕ :=
  if vi64 then StreamChain.pullUintVi64 else StreamChain.pullUintVar

/-- The bytes from the cursor on. -/
def Buffer.rest (b : Buffer) : List UInt8 := copyOut b.buf b.pos (b.capacity - b.pos)

/-- The formats of a flavour agree. -/
structure CodecsAgree (vi64 : Bool) : Prop where
  /-- The push and the encoder emit the same bytes. -/
  emits : ∀ v < vintBound vi64, ∀ heap b, b.growable = true →
    Buffer.HasRoom heap b (vintLength vi64 v) →
    ∃ b', Buffer.pushFlavour heap vi64 v b = (.ok (), b') ∧ Buffer.Pushed b b' (vintWrite vi64 v)
  full : ∀ v < vintBound vi64, ∀ heap b, b.growable = true → ¬ Buffer.HasRoom heap b
    (vintLength vi64 v) →
    Buffer.pushFlavour heap vi64 v b = (.error .memory, b)
  length : ∀ v < vintBound vi64, (vintWrite vi64 v).length = vintLength vi64 v
  /-- No pull gives the number from fewer bytes. -/
  shortest : ∀ v n b h, Buffer.pullInt vi64 b = (.ok v, b.advance n h) → vintLength vi64 v ≤ n
  buffer : ∀ v < vintBound vi64, ∀ b more, b.rest = vintWrite vi64 v ++ more →
    ∃ h, Buffer.pullInt vi64 b = (.ok v, b.advance (vintWrite vi64 v).length h)
  /-- The chain may be one of any chunks. -/
  chain : ∀ v < vintBound vi64, ∀ c f more, Refines c f → f.rest = vintWrite vi64 v ++ more →
    ∃ c', StreamChain.pullInt vi64 c = (.ok v, c') ∧ Refines c' (f.skip (vintWrite vi64 v).length)
  /-- On any bytes both pulls give the same number from as many bytes, or both say that there are
  too few. -/
  same : ∀ b c f, Refines c f → f.rest = b.rest →
    (∃ v n h c', Buffer.pullInt vi64 b = (.ok v, b.advance n h) ∧ StreamChain.pullInt vi64 c =
      (.ok v, c') ∧
      Refines c' (f.skip n)) ∨
    Buffer.pullInt vi64 b = (.error .readOutOfBounds, b) ∧
      ∃ pos needed, StreamChain.pullInt vi64 c = (.error (.streamUnderflow pos needed), c)

/-! ## Pulls -/

namespace Buffer

variable {b : Buffer} {vi64 : Bool}

theorem pullInt_eq (vi64 : Bool) : pullInt vi64 = pullFlavour vi64 := by
  cases vi64 with
  | false => exact pullUintVar_eq
  | true => exact pullUintVi64_eq

theorem length_rest : b.rest.length = b.capacity - b.pos := copyOut_length

theorem rest_cons (h : b.pos < b.capacity) :
    b.rest = b.buf b.pos :: copyOut b.buf (b.pos + 1) (b.capacity - b.pos - 1) := by
  rw [rest, ← copyOut_succ]
  congr 1
  omega

theorem rest_take {n : ℕ} (h : b.pos + n ≤ b.capacity) : b.rest.take n = copyOut b.buf b.pos n := by
  have hsplit : b.capacity - b.pos = n + (b.capacity - b.pos - n) := by omega
  rw [rest, hsplit, copyOut_take]

/-- An integer is the value of its bytes. -/
theorem vintValue_take {bytes : List UInt8} {v width : ℕ}
    (h : vintAt vi64 bytes = some (v, width)) :
    vintValue vi64 (bytes.take width) = v := by
  rcases bytes with _ | ⟨first, later⟩
  · cases h
  rw [vintAt] at h
  split at h
  · cases h
    rw [List.take_cons (vintWidth_pos _ _), vintValue]
  · cases h

/-- The pull of an integer that is there. -/
theorem pullFlavour_some {v width : ℕ} (h : vintAt vi64 b.rest = some (v, width)) :
    ∃ hle, pullFlavour vi64 b = (.ok v, b.advance width hle) := by
  have hwidth := vintAt_width h
  rw [length_rest] at hwidth
  have hlt : b.pos < b.capacity := by omega
  have hval := vintValue_take h
  have hle : b.pos + width ≤ b.capacity := by omega
  rw [rest_take hle] at hval
  rw [rest_cons hlt, vintAt] at h
  split at h
  · cases h
    refine ⟨hle, ?_⟩
    rw [pullFlavour, Fallible.get_bind, if_neg (by omega), pulling_of_le hle, hval]
  · cases h

theorem pullFlavour_none (h : vintAt vi64 b.rest = none) :
    pullFlavour vi64 b = (.error .readOutOfBounds, b) := by
  rw [pullFlavour, Fallible.get_bind]
  rcases le_or_gt b.capacity b.pos with hend | hlt
  · rw [if_pos (by omega)]
    rfl
  · rw [rest_cons hlt, vintAt] at h
    split at h
    · cases h
    · rename_i hshort
      rw [copyOut_length] at hshort
      rw [if_neg (by omega)]
      exact pulling_of_lt (by omega)

end Buffer

theorem meets_pullInt (vi64 : Bool) :
    Meets (StreamChain.pullInt vi64) (FlatBuffer.sourceOf vi64).pullVint := by
  cases vi64 with
  | false => exact Meets.pullUintVar
  | true => exact Meets.pullUintVi64

/-! ## Lengths -/

theorem vintLength_varint {v n : ℕ} (hn : n = 1 ∨ n = 2 ∨ n = 4 ∨ n = 8)
    (hv : v < 2 ^ (8 * n - 2)) :
    vintLength false v ≤ n := by
  show (if v < 2 ^ 6 then 1 else if v < 2 ^ 14 then 2 else if v < 2 ^ 30 then 4 else 8) ≤ n
  rcases hn with rfl | rfl | rfl | rfl
  · rw [if_pos hv]
  · split
    · decide
    · exact le_rfl
  · split
    · decide
    split
    · decide
    · exact le_rfl
  · repeat' split
    all_goals decide

theorem vintLength_vi64 {v n : ℕ} (hn : 1 ≤ n) (hv : n ≤ 8 → v < 2 ^ (7 * n)) :
    vintLength true v ≤ n := by
  show max 1 (min 9 ((v.size + 6) / 7)) ≤ n
  rcases Nat.lt_or_ge 8 n with hlong | hshort
  · omega
  · have hsize := Nat.size_le.2 (hv hshort)
    omega

/-- What is read from `n` bytes has no more bits than they have behind the mark. -/
theorem vintValue_lt (vi64 : Bool) {first : UInt8} (later : List UInt8) {k : ℕ}
    (h : vintHead vi64 first < 2 ^ k) :
    vintValue vi64 (first :: later) < 2 ^ (k + 8 * later.length) := by
  have hlater := FlatBuffer.beValue_lt later
  have hpow : 256 ^ later.length = 2 ^ (8 * later.length) := by
    rw [Nat.pow_mul]
  rw [vintValue, Nat.pow_add, ← hpow]
  calc vintHead vi64 first * 256 ^ later.length + beValue later
      < vintHead vi64 first * 256 ^ later.length + 256 ^ later.length :=
        Nat.add_lt_add_left hlater _
    _ = (vintHead vi64 first + 1) * 256 ^ later.length := (Nat.succ_mul _ _).symm
    _ ≤ 2 ^ k * 256 ^ later.length := Nat.mul_le_mul_right _ h

/-- An integer that is read is not longer in the encoder's form. -/
theorem vintLength_le {vi64 : Bool} {bytes : List UInt8} {v width : ℕ}
    (h : vintAt vi64 bytes = some (v, width)) :
    vintLength vi64 v ≤ width := by
  rcases bytes with _ | ⟨first, later⟩
  · cases h
  rw [vintAt] at h
  split at h
  · cases h
    have hpos := vintWidth_pos vi64 first
    have hlen : (later.take (vintWidth vi64 first - 1)).length = vintWidth vi64 first - 1 := by
      rw [List.length_take]
      omega
    cases vi64 with
    | false =>
      have hhead : vintHead false first < 2 ^ 6 := Nat.mod_lt _ (by decide)
      have hlt := vintValue_lt false (later.take (vintWidth false first - 1)) hhead
      rw [hlen] at hlt
      refine vintLength_varint ?_ ?_
      · rcases varint_width_cases first with ⟨-, h⟩ | ⟨-, h⟩ | ⟨-, h⟩ | ⟨-, h⟩ <;> omega
      · have hbits : 6 + 8 * (vintWidth false first - 1) = 8 * vintWidth false first - 2 := by omega
        rwa [← hbits]
    | true =>
      have hhead : vintHead true first < 2 ^ (7 - leadingOnes first) :=
        Nat.mod_lt _ (Nat.two_pow_pos _)
      have hlt := vintValue_lt true (later.take (vintWidth true first - 1)) hhead
      rw [hlen] at hlt
      have hwidth : vintWidth true first = leadingOnes first + 1 := rfl
      refine vintLength_vi64 hpos fun h8 => ?_
      have hbits : 7 - leadingOnes first + 8 * (vintWidth true first - 1) = 7 * vintWidth true
        first := by omega
      rwa [← hbits]
  · cases h

theorem vi64Size_eq {v : ℕ} (hv : v < 2 ^ 64) : vi64Size v = vintLength true v := by
  have hsize : v.size ≤ 64 := Nat.size_le.2 hv
  have hbits : ∀ k, v < 1 <<< k ↔ v.size ≤ k := fun k => by rw [Nat.one_shiftLeft, Nat.size_le]
  show vi64Size v = max 1 (min 9 ((v.size + 6) / 7))
  simp only [vi64Size, hbits]
  repeat' split
  all_goals omega

/-- The encoders are as short as can be. -/
theorem length_vintWrite (vi64 : Bool) {v : ℕ} (hv : v < vintBound vi64) :
    (vintWrite vi64 v).length = vintLength vi64 v := by
  cases vi64 with
  | false => exact (VintCodec.varint_decodes.size_eq v hv).symm
  | true => exact (VintCodec.vi64_decodes.size_eq v hv).symm.trans (vi64Size_eq hv)

/-! ## Pushes -/

theorem pushFlavour_eq (heap : Heap) (vi64 : Bool) {v : ℕ} (hv : v < vintBound vi64) :
    Buffer.pushFlavour heap vi64 v = Buffer.pushRaw heap (vintWrite vi64 v) := by
  cases vi64 with
  | false => exact Buffer.pushUintVar_eq (Int.natCast_nonneg v) (by exact_mod_cast hv)
  | true => exact Buffer.pushUintVi64_eq (Int.natCast_nonneg v) (by exact_mod_cast hv)

/-- Whatever a push does, it changes nothing but the bytes that its cursor moves over. -/
theorem push_frame (heap : Heap) (b : Buffer) (call : PushCall) :
    b.pos ≤ (call.run heap b).2.pos ∧ b.capacity ≤ (call.run heap b).2.capacity ∧
      ∀ i, i < b.pos ∨ (call.run heap b).2.pos ≤ i → (call.run heap b).2.buf i = b.buf i := by
  rcases call.run_outcome heap b with ⟨b', raw, -, hrun, hpushed, -⟩ | ⟨e, b', hrun, hkept⟩
  · rw [hrun]
    refine ⟨by rw [hpushed.pos]; exact Nat.le_add_right .., hpushed.capacity, fun i hi => hpushed.frame i ?_⟩
    rwa [← hpushed.pos]
  · rw [hrun]
    exact ⟨hkept.pos.ge, hkept.capacity, fun i _ => congrFun hkept.buf i⟩

/-! ## The formats agree -/

theorem decodes_flavour (vi64 : Bool) :
    (VintCodec.ofFlavour vi64).Decodes (FlatBuffer.sourceOf vi64) (vintBound vi64) := by
  cases vi64 with
  | false => exact VintCodec.varint_decodes
  | true => exact VintCodec.vi64_decodes

/-- What the encoder wrote is found again. -/
theorem vintAt_vintWrite {vi64 : Bool} {v : ℕ} (hv : v < vintBound vi64) (more : List UInt8) :
    vintAt vi64 (vintWrite vi64 v ++ more) = some (v, (vintWrite vi64 v).length) := by
  obtain ⟨f, hf⟩ : ∃ f, FlatBuffer.ofBytes (vintWrite vi64 v) = f := ⟨_, rfl⟩
  have hrest : f.rest = vintWrite vi64 v := hf ▸ List.drop_zero
  have hpull : (FlatBuffer.sourceOf vi64).pullVint f = (.ok v, f.skip (vintWrite vi64 v).length) :=
    (decodes_flavour vi64).pull v hv f [] (hrest.trans (List.append_nil _).symm)
  refine vintAt_append ?_
  rcases hat : vintAt vi64 (vintWrite vi64 v) with _ | ⟨n, width⟩
  · obtain ⟨pos, needed, herror⟩ := FlatBuffer.pullVint_none (hrest ▸ hat)
    rw [herror] at hpull
    cases hpull
  · rw [FlatBuffer.pullVint_some (hrest ▸ hat)] at hpull
    obtain ⟨hval, hskip⟩ := Prod.mk.inj hpull
    have hpos := congrArg FlatBuffer.pos hskip
    rw [FlatBuffer.pos_skip (hrest ▸ (vintAt_width hat).2),
      FlatBuffer.pos_skip (Eq.le (congrArg List.length hrest).symm)] at hpos
    rw [Except.ok.inj hval, Nat.add_left_cancel hpos]

theorem codecsAgree (vi64 : Bool) : CodecsAgree vi64 where
  emits v hv heap b hg hroom := by
    rw [pushFlavour_eq heap vi64 hv]
    exact Buffer.checked_of_room hg (length_vintWrite vi64 hv ▸ hroom)
  full v hv heap b hg hroom := by
    rw [pushFlavour_eq heap vi64 hv]
    exact Buffer.checked_of_full hg (length_vintWrite vi64 hv ▸ hroom)
  length v hv := length_vintWrite vi64 hv
  shortest v n b h hpull := by
    rw [Buffer.pullInt_eq] at hpull
    cases hat : vintAt vi64 b.rest with
    | none =>
      rw [Buffer.pullFlavour_none hat] at hpull
      cases hpull
    | some found =>
      obtain ⟨hle, hfound⟩ := Buffer.pullFlavour_some
        (show vintAt _ _ = some (found.1, found.2) from hat)
      rw [hfound] at hpull
      obtain ⟨hval, hadv⟩ := Prod.mk.inj hpull
      rw [← Except.ok.inj hval, ← Nat.add_left_cancel (congrArg Buffer.pos hadv)]
      exact vintLength_le hat
  buffer v hv b more hrest := by
    rw [Buffer.pullInt_eq]
    exact Buffer.pullFlavour_some (hrest ▸ vintAt_vintWrite hv more)
  chain v hv c f more href hrest := by
    obtain ⟨hres, hrel, -⟩ := meets_pullInt vi64 c f href
    have hpull := (decodes_flavour vi64).pull v hv f more hrest
    rw [hpull] at hres hrel
    exact ⟨_, Prod.ext hres rfl, hrel⟩
  same b c f href hrest := by
    obtain ⟨hres, hrel, hwait⟩ := meets_pullInt vi64 c f href
    rw [Buffer.pullInt_eq]
    cases hat : vintAt vi64 b.rest with
    | none =>
      obtain ⟨pos, needed, herror⟩ := FlatBuffer.pullVint_none (hrest ▸ hat)
      rw [herror] at hres
      exact .inr ⟨Buffer.pullFlavour_none hat, pos, needed, Prod.ext hres (hwait pos needed hres)⟩
    | some found =>
      obtain ⟨v, width⟩ := found
      obtain ⟨hle, hfound⟩ := Buffer.pullFlavour_some hat
      rw [FlatBuffer.pullVint_some (hrest ▸ hat)] at hres hrel
      exact .inl ⟨v, width, hle, _, hfound, Prod.ext hres rfl, hrel⟩

/-- The two integer formats are the same wherever they are written and read: `Buffer` pushes what
the encoder of object bodies writes, in as few bytes as can be, and the pulls of `Buffer` and
`StreamChain` agree on every string of bytes. A push, which may have to grow the buffer, keeps all
other bytes. -/
theorem vint_codecs_agree :
    (∀ vi64, CodecsAgree vi64) ∧
      ∀ heap b (call : PushCall), b.pos ≤ (call.run heap b).2.pos ∧ b.capacity ≤
      (call.run heap b).2.capacity ∧
        ∀ i, i < b.pos ∨ (call.run heap b).2.pos ≤ i → (call.run heap b).2.buf i = b.buf i :=
  ⟨codecsAgree, push_frame⟩

end Aiopquic
