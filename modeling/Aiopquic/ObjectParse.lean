import Aiopquic.ChainRefines
import Aiopquic.ObjectBody

/-!
# The parser on the flat buffer

What the parser does follows from what its source does: on a chain it does what it does on the
buffer the chain stands for, and there it finds out nothing that more bytes could change, except
that it has to wait for them.
-/

namespace Aiopquic

open Fallible (raise get)

namespace BodySource

variable {σ τ : Type} {P : ∀ α : Type, Fallible σ Raise α → Fallible τ Raise α → Prop}
    {src : BodySource σ}
  {src' : BodySource τ}

/-- The functions of two sources are in relation. -/
structure Related (P : ∀ α : Type, Fallible σ Raise α → Fallible τ Raise α → Prop)
    (src : BodySource σ)
    (src' : BodySource τ) : Prop where
  congruence : Fallible.Congruence P
  pullVint : P ℕ src.pullVint src'.pullVint
  pullBytes : ∀ n, P (List UInt8) (src.pullBytes n) (src'.pullBytes n)
  tell : P ℤ src.tell src'.tell

namespace Related

theorem pullSsize (h : Related P src src') : P ℤ src.pullSsize src'.pullSsize :=
  h.congruence.bind h.pullVint fun _ => h.congruence.ite (h.congruence.pure _)
    (h.congruence.raise _)

theorem extValue (h : Related P src src') (extsEnd : ℤ) (extId : ℕ) :
    P ExtValue (src.extValue extsEnd extId) (src'.extValue extsEnd extId) := by
  have hc := h.congruence
  refine hc.ite (hc.bind h.pullVint fun n => hc.pure _)
    (hc.bind h.pullSsize fun valueLen => hc.bind h.tell fun pos => ?_)
  exact hc.ite (hc.raise _) (hc.bind (h.pullBytes valueLen) fun data => hc.pure _)

theorem extLoop (h : Related P src src') (kvpDelta : Bool) (extsEnd : ℤ) (fuel prevId : ℕ)
    (exts : ExtDict) :
    P ExtDict (src.extLoop kvpDelta extsEnd fuel prevId exts)
    (src'.extLoop kvpDelta extsEnd fuel prevId exts) := by
  have hc := h.congruence
  induction fuel generalizing prevId exts with
  | zero => exact hc.raise _
  | succ fuel ih =>
    refine hc.bind h.tell fun pos =>
      hc.ite (hc.bind h.pullVint fun wireId => hc.ite (hc.raise _) ?_) (hc.pure _)
    exact hc.bind (h.extValue extsEnd _) fun value => hc.bind h.tell fun pos =>
      hc.ite (hc.raise _) (ih _ _)

theorem parseExts (h : Related P src src') (extsLenLimit : ℤ) (kvpDelta : Bool) :
    P (Option ExtDict) (src.parseExts extsLenLimit kvpDelta)
    (src'.parseExts extsLenLimit kvpDelta) := by
  have hc := h.congruence
  refine hc.bind h.pullSsize fun extsLen => hc.ite (hc.raise _)
    (hc.ite (hc.bind h.tell fun pos => ?_) (hc.pure _))
  exact hc.bind (h.extLoop kvpDelta _ _ _ _) fun exts => hc.pure _

/-- The parser pulls the delta first. -/
theorem parseObject_bind (h : Related P src src') (extensionsPresent : Bool) (extsLenLimit : ℤ)
    (kvpDelta : Bool) :
    ∃ k k', src.parseObject extensionsPresent extsLenLimit kvpDelta = src.pullVint >>= k ∧
      src'.parseObject extensionsPresent extsLenLimit kvpDelta = src'.pullVint >>= k' ∧
      ∀ delta, P ObjectBody (k delta) (k' delta) := by
  have hc := h.congruence
  refine ⟨_, _, rfl, rfl, fun delta => hc.bind (hc.ite (h.parseExts _ _) (hc.pure _)) fun exts =>
    hc.bind h.pullSsize fun payloadLen => hc.ite (hc.bind h.pullVint fun status => hc.pure _) ?_⟩
  exact hc.bind (h.pullBytes payloadLen) fun payload => hc.pure _

/-- The parser does to its source only what the source's functions do. -/
theorem parseObject (h : Related P src src') (extensionsPresent : Bool) (extsLenLimit : ℤ)
    (kvpDelta : Bool) :
    P ObjectBody (src.parseObject extensionsPresent extsLenLimit kvpDelta)
      (src'.parseObject extensionsPresent extsLenLimit kvpDelta) := by
  obtain ⟨k, k', hsrc, hsrc', hk⟩ := h.parseObject_bind extensionsPresent extsLenLimit kvpDelta
  rw [hsrc, hsrc']
  exact h.congruence.bind h.pullVint hk

end Related

end BodySource

/-! ## The sources -/

/-- The exception that asks for more bytes. -/
def Raise.isUnderflow : Raise → Bool
  | streamUnderflow _ _ => true
  | _ => false

abbrev Raise.Underflows (e : Raise) : Prop := e.isUnderflow

namespace FlatBuffer

def varintSource : BodySource FlatBuffer := ⟨pullUintVar, pullBytes, tell⟩

def vi64Source : BodySource FlatBuffer := ⟨pullUintVi64, pullBytes, tell⟩

theorem rest_append (f : FlatBuffer) (data : List UInt8) : (f.append data).rest = f.rest ++ data :=
  List.drop_append_of_le_length f.pos_le

theorem advance_append {f : FlatBuffer} {n : ℕ} (h : n ≤ f.rest.length) (data : List UInt8)
    (h' : n ≤ (f.append data).rest.length) : (f.append data).advance n h' = (f.advance n h).append
    data := rfl

/-- Bytes that are there are taken whatever comes behind. -/
theorem take_settled (n : ℕ) : Fallible.Settled Raise.Underflows append (take n) := by
  intro f data hwait
  rcases le_or_gt n f.rest.length with hle | hlt
  · have hle' : n ≤ (f.append data).rest.length := by
      rw [rest_append, List.length_append]
      omega
    rw [take_of_le hle, take_of_le hle', rest_append, List.take_append_of_le_length hle,
      advance_append hle]
  · refine absurd rfl (hwait (.streamUnderflow f.pos (ssize (f.pos + n))) ?_)
    rw [take_of_lt hlt]

theorem pullPrefixed_settled (size head : UInt8 → ℕ) :
    Fallible.Settled Raise.Underflows append (pullPrefixed size head) := by
  intro f data hwait
  rcases hf : f.rest with _ | ⟨first, later⟩
  · refine absurd rfl (hwait (.streamUnderflow f.pos (ssize (f.pos + 1))) ?_)
    rw [pullPrefixed_nil hf]
  · have hbind := ((take_settled (size first)).bind fun raw =>
      Fallible.Settled.pure (head first * 256 ^ raw.tail.length + beValue raw.tail)) f data
    have happend : (f.append data).rest = first :: (later ++ data) := by
      rw [rest_append, hf, List.cons_append]
    rw [pullPrefixed, Fallible.get_bind, hf] at hwait
    rw [pullPrefixed, Fallible.get_bind, happend, Fallible.get_bind, hf]
    exact hbind hwait

theorem pullBytes_settled (n : ℤ) : Fallible.Settled Raise.Underflows append (pullBytes n) := by
  rw [pullBytes]
  split
  · exact .raise _
  · exact take_settled _

theorem tell_settled : Fallible.Settled Raise.Underflows append tell := fun _ _ _ => rfl

/-- The same bytes with the cursor further on. -/
def Onward (f f' : FlatBuffer) : Prop := f'.bytes = f.bytes ∧ f'.anchor = f.anchor ∧ f.pos ≤ f'.pos

theorem Onward.refl (f : FlatBuffer) : Onward f f := ⟨rfl, rfl, le_rfl⟩

theorem Onward.trans (f g h : FlatBuffer) (hfg : Onward f g) (hgh : Onward g h) : Onward f h :=
  ⟨hgh.1.trans hfg.1, hgh.2.1.trans hfg.2.1, hfg.2.2.trans hgh.2.2⟩

theorem take_moves (n : ℕ) : Fallible.Moves Onward (take n) := by
  intro f
  rcases le_or_gt n f.rest.length with hle | hlt
  · rw [take_of_le hle]
    exact ⟨rfl, rfl, Nat.le_add_right ..⟩
  · rw [take_of_lt hlt]
    exact .refl f

/-- A prefixed integer has at least its first byte. -/
theorem pullPrefixed_moves {size : UInt8 → ℕ} (hsize : ∀ b, 0 < size b) (head : UInt8 → ℕ)
    (f : FlatBuffer) :
    Onward f (pullPrefixed size head f).2 ∧
      ((pullPrefixed size head f).2.pos = f.pos → (pullPrefixed size head f).1.isOk = false) := by
  rcases hf : f.rest with _ | ⟨first, later⟩
  · rw [pullPrefixed_nil hf]
    exact ⟨.refl f, fun _ => rfl⟩
  · rcases le_or_gt (size first) f.rest.length with hle | hlt
    · rw [pullPrefixed_of_le hf hle rfl]
      refine ⟨⟨rfl, rfl, Nat.le_add_right ..⟩, fun hpos => absurd hpos (Nat.ne_of_gt ?_)⟩
      exact Nat.lt_add_of_pos_right (hsize first)
    · rw [pullPrefixed_of_lt hf hlt]
      exact ⟨.refl f, fun _ => rfl⟩

theorem pullBytes_moves (n : ℤ) : Fallible.Moves Onward (pullBytes n) := by
  rw [pullBytes]
  split
  · exact Onward.refl
  · exact take_moves _

/-! ## The two flavours -/

/-- The source of a flavour. -/
def sourceOf (vi64 : Bool) : BodySource FlatBuffer := if vi64 then vi64Source else varintSource

/-- What the parser of a flavour does on a buffer. -/
def parseBody (vi64 : Bool) : Bool → ℤ → Bool → Op ObjectBody := (sourceOf vi64).parseObject

variable (vi64 extensionsPresent : Bool) (extsLenLimit : ℤ) (kvpDelta : Bool)

theorem parseBody_simulated : Fallible.Simulates Refines
    (StreamChain.parseBody vi64 extensionsPresent extsLenLimit kvpDelta)
    (parseBody vi64 extensionsPresent extsLenLimit kvpDelta) := by
  have hc := Fallible.Simulates.congruence (ε := Raise) Refines
  have hbytes := fun n => (Meets.pullBytes n).simulates
  cases vi64
  · have h : BodySource.Related _ StreamChain.varintSource varintSource :=
      ⟨hc, Meets.pullUintVar.simulates, hbytes, Meets.tell.simulates⟩
    exact h.parseObject extensionsPresent extsLenLimit kvpDelta
  · have h : BodySource.Related _ StreamChain.vi64Source vi64Source :=
      ⟨hc, Meets.pullUintVi64.simulates, hbytes, Meets.tell.simulates⟩
    exact h.parseObject extensionsPresent extsLenLimit kvpDelta

theorem parseBody_settled : Fallible.Settled Raise.Underflows append
    (parseBody vi64 extensionsPresent extsLenLimit kvpDelta) := by
  have hc := Fallible.Settled.congruence (σ := FlatBuffer) Raise.Underflows append
  cases vi64
  · have h : BodySource.Related _ varintSource varintSource :=
      ⟨hc, pullPrefixed_settled _ _, pullBytes_settled, tell_settled⟩
    exact h.parseObject extensionsPresent extsLenLimit kvpDelta
  · have h : BodySource.Related _ vi64Source vi64Source :=
      ⟨hc, pullPrefixed_settled _ _, pullBytes_settled, tell_settled⟩
    exact h.parseObject extensionsPresent extsLenLimit kvpDelta

theorem pullVint_moves (f : FlatBuffer) :
    Onward f ((sourceOf vi64).pullVint f).2 ∧
      ∀ n, ((sourceOf vi64).pullVint f).1 = .ok n → f.pos < ((sourceOf vi64).pullVint f).2.pos := by
  have hmoves : Onward f ((sourceOf vi64).pullVint f).2 ∧
      (((sourceOf vi64).pullVint f).2.pos = f.pos → ((sourceOf vi64).pullVint f).1.isOk =
        false) := by
    cases vi64
    · exact pullPrefixed_moves (fun _ => Nat.two_pow_pos _) _ f
    · exact pullPrefixed_moves (fun _ => Nat.succ_pos _) _ f
  refine ⟨hmoves.1, fun n hn => lt_of_le_of_ne hmoves.1.2.2 fun hpos => ?_⟩
  have hfail := hmoves.2 hpos.symm
  rw [hn] at hfail
  cases hfail

theorem sourceOf_onward :
    BodySource.Related (fun α (x _ : Op α) => Fallible.Moves Onward x) (sourceOf vi64)
    (sourceOf vi64) where
  congruence := Fallible.Moves.congruence Onward.refl Onward.trans
  pullVint f := (pullVint_moves vi64 f).1
  pullBytes n := by
    cases vi64
    · exact pullBytes_moves n
    · exact pullBytes_moves n
  tell := by
    cases vi64
    · exact Onward.refl
    · exact Onward.refl

/-- The cursor moves on, and an object that is parsed is not empty. -/
theorem parseBody_moves (f : FlatBuffer) :
    Onward f (parseBody vi64 extensionsPresent extsLenLimit kvpDelta f).2 ∧
      ∀ body, (parseBody vi64 extensionsPresent extsLenLimit kvpDelta f).1 = .ok body →
        f.pos < (parseBody vi64 extensionsPresent extsLenLimit kvpDelta f).2.pos := by
  obtain ⟨k, -, hparse, -, hk⟩ := (sourceOf_onward vi64).parseObject_bind extensionsPresent
    extsLenLimit kvpDelta
  obtain ⟨hmoves, hprogress⟩ := pullVint_moves vi64 f
  rw [parseBody, hparse]
  obtain ⟨⟨r, f'⟩, hfirst⟩ : ∃ p, (sourceOf vi64).pullVint f = p := ⟨_, rfl⟩
  rw [hfirst] at hmoves hprogress
  cases r with
  | ok delta =>
    rw [Fallible.bind_ok hfirst]
    have hrest := hk delta f'
    exact ⟨hmoves.trans _ _ _ hrest, fun _ _ => lt_of_lt_of_le (hprogress delta rfl) hrest.2.2⟩
  | error e =>
    rw [Fallible.bind_error hfirst]
    exact ⟨hmoves, nofun⟩

/-! ## The loop over the extensions ends -/

theorem take_ne_stuck (n : ℕ) (f : FlatBuffer) : (take n f).1 ≠ .error .stuck := by
  rcases le_or_gt n f.rest.length with hle | hlt
  · rw [take_of_le hle]
    nofun
  · rw [take_of_lt hlt]
    nofun

theorem pullVint_ne_stuck (f : FlatBuffer) : ((sourceOf vi64).pullVint f).1 ≠ .error .stuck := by
  have hprefixed : ∀ size head, (pullPrefixed size head f).1 ≠ .error .stuck := by
    intro size head
    rcases hf : f.rest with _ | ⟨first, later⟩
    · rw [pullPrefixed_nil hf]
      rintro ⟨⟩
    · rw [pullPrefixed, Fallible.get_bind, hf]
      exact Fallible.bind_ne (take_ne_stuck _ f) fun _ _ _ => by rintro ⟨⟩
  cases vi64
  · exact hprefixed _ _
  · exact hprefixed _ _

theorem pullBytes_ne_stuck (n : ℤ) (f : FlatBuffer) :
    ((sourceOf vi64).pullBytes n f).1 ≠ .error .stuck := by
  have hbytes : (pullBytes n f).1 ≠ .error .stuck := by
    rw [pullBytes, Fallible.ite_apply]
    split
    · rintro ⟨⟩
    · exact take_ne_stuck _ f
  cases vi64
  · exact hbytes
  · exact hbytes

theorem sourceOf_tell : (sourceOf vi64).tell = tell := by cases vi64 <;> rfl

theorem pullSsize_ne_stuck (f : FlatBuffer) : ((sourceOf vi64).pullSsize f).1 ≠ .error .stuck := by
  refine Fallible.bind_ne (pullVint_ne_stuck vi64 f) fun n f' _ => ?_
  rw [Fallible.ite_apply]
  split
  · nofun
  · nofun

theorem extValue_ne_stuck (extsEnd : ℤ) (extId : ℕ) (f : FlatBuffer) :
    ((sourceOf vi64).extValue extsEnd extId f).1 ≠ .error .stuck := by
  rw [BodySource.extValue, Fallible.ite_apply]
  split
  · exact Fallible.bind_ne (pullVint_ne_stuck vi64 f) fun _ _ _ => nofun
  · refine Fallible.bind_ne (pullSsize_ne_stuck vi64 f) fun valueLen f' _ => ?_
    rw [sourceOf_tell]
    refine Fallible.bind_ne nofun fun pos f' _ => ?_
    rw [Fallible.ite_apply]
    split
    · nofun
    · exact Fallible.bind_ne (pullBytes_ne_stuck vi64 _ f') fun _ _ _ => nofun

/-- Each turn of the loop pulls an id, so there are at most as many as the block has bytes. -/
theorem extLoop_ne_stuck (extsEnd : ℤ) {fuel prevId : ℕ} {exts : ExtDict} {f : FlatBuffer}
    (hfuel : (extsEnd - f.pos).toNat < fuel) :
    ((sourceOf vi64).extLoop kvpDelta extsEnd fuel prevId exts f).1 ≠ .error .stuck := by
  induction fuel generalizing prevId exts f with
  | zero => exact absurd hfuel (Nat.not_lt_zero _)
  | succ fuel ih =>
    rw [BodySource.extLoop, sourceOf_tell]
    refine Fallible.bind_ne nofun ?_
    rintro pos _ ⟨⟩
    rw [Fallible.ite_apply]
    split
    · refine Fallible.bind_ne (pullVint_ne_stuck vi64 f) fun wireId f₁ hpull => ?_
      have hpos := (pullVint_moves vi64 f).2 wireId (by rw [hpull])
      rw [hpull] at hpos
      generalize (if kvpDelta = true then prevId + wireId else wireId) = extId
      rw [Fallible.ite_apply]
      split
      · nofun
      refine Fallible.bind_ne (extValue_ne_stuck vi64 extsEnd _ f₁) fun value f₂ hvalue => ?_
      have hpos' := ((sourceOf_onward vi64).extValue extsEnd extId f₁).2.2
      rw [hvalue] at hpos'
      refine Fallible.bind_ne nofun ?_
      rintro pos _ ⟨⟩
      rw [Fallible.ite_apply]
      split
      · nofun
      · refine ih ?_
        simp only at hpos hpos'
        omega
    · nofun

/-- The bound on the loop is never the reason a parser raises. -/
theorem parseBody_ne_stuck (f : FlatBuffer) :
    (parseBody vi64 extensionsPresent extsLenLimit kvpDelta f).1 ≠ .error .stuck := by
  have hexts : ∀ f, ((sourceOf vi64).parseExts extsLenLimit kvpDelta f).1 ≠ .error .stuck := by
    intro f
    refine Fallible.bind_ne (pullSsize_ne_stuck vi64 f) fun extsLen f₁ _ => ?_
    rw [Fallible.ite_apply]
    split
    · nofun
    rw [Fallible.ite_apply]
    split
    · rw [sourceOf_tell]
      refine Fallible.bind_ne nofun ?_
      rintro pos _ ⟨⟩
      exact Fallible.bind_ne (extLoop_ne_stuck vi64 kvpDelta _ (Nat.lt_succ_self _))
        fun _ _ _ => nofun
    · nofun
  refine Fallible.bind_ne (pullVint_ne_stuck vi64 f) fun delta f₁ _ => ?_
  refine Fallible.bind_ne ?_ fun exts f₂ _ => Fallible.bind_ne (pullSsize_ne_stuck vi64 f₂)
    fun payloadLen f₃ _ => ?_
  · rw [Fallible.ite_apply]
    split
    · exact hexts f₁
    · nofun
  · rw [Fallible.ite_apply]
    split
    · exact Fallible.bind_ne (pullVint_ne_stuck vi64 f₃) fun _ _ _ => nofun
    · exact Fallible.bind_ne (pullBytes_ne_stuck vi64 _ f₃) fun _ _ _ => nofun

end FlatBuffer

end Aiopquic
