import Aiopquic.ObjectParse

/-!
# The block of extensions and the bytes behind it

The parser bounds a byte-string value by its block before it pulls it. The integers of a block,
which are ids, values and lengths of values, it pulls from the chain, so one that the end of the
block cuts is completed with bytes from behind the block, and waited for if they are not there.
`scanBlock` is what the bytes of a block say by themselves.
-/

namespace Aiopquic

open Fallible (raise)

/-! ## Integers in bytes -/

/-- How many bytes the integer has that begins with `first`. -/
def vintWidth (vi64 : Bool) (first : UInt8) : ℕ := if vi64 then leadingOnes first + 1 else 2 ^
    (first.toNat / 64)

/-- The bits of `first` that belong to the number. -/
def vintHead (vi64 : Bool) (first : UInt8) : ℕ :=
  if vi64 then first.toNat % 2 ^ (7 - leadingOnes first) else first.toNat % 64

/-- The integer at the start of `bytes` and its width, if all of it is there. -/
def vintAt (vi64 : Bool) : List UInt8 → Option (ℕ × ℕ)
  | [] => none
  | first :: later =>
    let width := vintWidth vi64 first
    let tail := later.take (width - 1)
    if width ≤ later.length + 1
      then some (vintHead vi64 first * 256 ^ tail.length + beValue tail, width)
    else none

variable {vi64 kvpDelta : Bool} {bytes more : List UInt8} {n width : ℕ}

theorem vintWidth_pos (vi64 : Bool) (first : UInt8) : 0 < vintWidth vi64 first := by
  cases vi64
  · exact Nat.two_pow_pos _
  · exact Nat.succ_pos _

theorem vintAt_width (h : vintAt vi64 bytes = some (n, width)) :
    0 < width ∧ width ≤ bytes.length := by
  cases bytes with
  | nil => cases h
  | cons first later =>
    rw [vintAt] at h
    split at h
    · cases h
      exact ⟨vintWidth_pos vi64 first, ‹_›⟩
    · cases h

theorem vintAt_append (h : vintAt vi64 bytes = some (n, width)) :
    vintAt vi64 (bytes ++ more) = some (n, width) := by
  cases bytes with
  | nil => cases h
  | cons first later =>
    rw [vintAt] at h
    split at h
    · rename_i hle
      cases h
      rw [List.cons_append, vintAt, if_pos (by rw [List.length_append]; omega),
        List.take_append_of_le_length (by omega)]
    · cases h

/-- An integer that `bytes` does not hold ends behind it. -/
theorem vintAt_crosses (h : vintAt vi64 bytes = none)
    (hmore : vintAt vi64 (bytes ++ more) = some (n, width)) :
    bytes.length < width := by
  cases bytes with
  | nil => exact (vintAt_width hmore).1
  | cons first later =>
    rw [vintAt] at h
    rw [List.cons_append, vintAt] at hmore
    split at h
    · cases h
    · split at hmore
      · cases hmore
        rw [List.length_cons]
        omega
      · cases hmore

namespace FlatBuffer

variable {f : FlatBuffer}

/-- A source pulls the integer at its cursor. -/
theorem pullVint_some (h : vintAt vi64 f.rest = some (n, width)) :
    (sourceOf vi64).pullVint f = (.ok n, f.skip width) := by
  have hle := (vintAt_width h).2
  rcases hf : f.rest with _ | ⟨first, later⟩
  · rw [hf] at h
    cases h
  · have hpull : ∀ size head, size first = vintWidth vi64 first → head first = vintHead vi64 first →
        pullPrefixed size head f = (.ok n, f.skip width) := by
      intro size head hsize hhead
      rw [hf, vintAt] at h
      split at h
      · cases h
        rw [← hsize] at hle ⊢
        have hpos := hsize ▸ vintWidth_pos vi64 first
        have hraw : f.rest.take (size first) = first :: later.take (size first - 1) := by
          obtain ⟨k, hk⟩ := Nat.exists_eq_succ_of_ne_zero hpos.ne'
          rw [hf, hk, List.take_succ_cons, Nat.succ_sub_one]
        rw [pullPrefixed_of_le hf hle hraw, hhead, advance_eq_skip, List.tail_cons]
      · cases h
    cases vi64
    · exact hpull _ _ rfl rfl
    · exact hpull _ _ rfl rfl

/-- It waits for one that is not there. -/
theorem pullVint_none (h : vintAt vi64 f.rest = none) :
    ∃ pos need, (sourceOf vi64).pullVint f = (.error (.streamUnderflow pos need), f) := by
  rcases hf : f.rest with _ | ⟨first, later⟩
  · refine ⟨f.pos, ssize (f.pos + 1), ?_⟩
    cases vi64
    · exact pullPrefixed_nil hf
    · exact pullPrefixed_nil hf
  · have hlt : f.rest.length < vintWidth vi64 first := by
      rw [hf, vintAt] at h
      split at h
      · cases h
      · rw [hf, List.length_cons]
        omega
    refine ⟨f.pos, ssize (f.pos + vintWidth vi64 first), ?_⟩
    cases vi64
    · exact pullPrefixed_of_lt hf hlt
    · exact pullPrefixed_of_lt hf hlt

end FlatBuffer

/-! ## Blocks -/

/-- What a block says: its extensions; or that an item is refused; or that its end cuts the integer
that `tail` begins with, which is an id or what follows one. -/
inductive BlockScan
  | whole (exts : ExtDict)
  | refused
  | cutId (prev : ℕ) (tail : List UInt8)
  | cutValue (tail : List UInt8)
  deriving DecidableEq

/-- The items of a block one after the other. -/
def scanBlock (vi64 kvpDelta : Bool) : ℕ → ℕ → ExtDict → List UInt8 → BlockScan
  | 0, _, exts, _ => .whole exts
  | fuel + 1, prev, exts, block =>
    if block = [] then .whole exts
    else match vintAt vi64 block with
      | none => .cutId prev block
      | some (wireId, width) =>
        let extId := if kvpDelta then prev + wireId else wireId
        let next := if kvpDelta then extId else prev
        let block := block.drop width
        if kvpDelta ∧ 0xFFFFFFFFFFFFFFFF < extId then .refused
        else match vintAt vi64 block with
          | none => .cutValue block
          | some (n, width) =>
            let block := block.drop width
            if extId % 2 = 0 then scanBlock vi64 kvpDelta fuel next (exts.set extId (.int n)) block
            else if block.length < n ∨ 0xFFFF < n then .refused
            else scanBlock vi64 kvpDelta fuel next (exts.set extId (.bytes (block.take n)))
              (block.drop n)

/-- All of a block. -/
def scan (vi64 kvpDelta : Bool) (block : List UInt8) : BlockScan :=
  scanBlock vi64 kvpDelta (block.length + 1) 0 ⟨[], ExtDict.nodup_nil⟩ block

/-- No integer is cut, or what is buffered behind the block completes the one that is, and, if that
is the id of an item, the integer that follows it, unless the id is refused. -/
def BlockScan.Settles (vi64 kvpDelta : Bool) (after : List UInt8) : BlockScan → Prop
  | whole _ => True
  | refused => True
  | cutId prev tail => ∃ wireId width, vintAt vi64 (tail ++ after) = some (wireId, width) ∧
      (kvpDelta = true ∧ 0xFFFFFFFFFFFFFFFF < prev + wireId ∨
        vintAt vi64 ((tail ++ after).drop width) ≠ none)
  | cutValue tail => vintAt vi64 (tail ++ after) ≠ none

/-! ## The loop over a block -/

namespace FlatBuffer

variable {f : FlatBuffer} {extsEnd : ℤ} {extId : ℕ}

theorem tell_apply (f : FlatBuffer) : (sourceOf vi64).tell f = (.ok (f.pos : ℤ), f) := by
  rw [sourceOf_tell]
  rfl

/-- A value or a length that is not there is waited for. -/
theorem extValue_missing (extsEnd : ℤ) (extId : ℕ) (h : vintAt vi64 f.rest = none) :
    ∃ pos need, (sourceOf vi64).extValue extsEnd extId f =
    (.error (.streamUnderflow pos need), f) := by
  obtain ⟨pos, need, hpull⟩ := pullVint_none h
  refine ⟨pos, need, ?_⟩
  rw [BodySource.extValue, Fallible.ite_apply]
  split
  · exact Fallible.bind_error hpull
  · exact Fallible.bind_error (Fallible.bind_error hpull)

/-- A length that is pulled as `Py_ssize_t`. -/
theorem pullSsize_some (h : vintAt vi64 f.rest = some (n, width)) :
    (sourceOf vi64).pullSsize f = if n < 2 ^ 63 then (.ok (n : ℤ), f.skip width) else
      (.error .intOverflow, f.skip width) := by
  rw [BodySource.pullSsize, Fallible.bind_ok (pullVint_some h), Fallible.ite_apply]
  rfl

/-- One that the end of the block cuts leaves the cursor behind the block, or is refused. -/
theorem extValue_crosses (extId : ℕ) (h : vintAt vi64 f.rest = some (n, width))
    (hend : extsEnd < f.pos + width) :
    (∃ e g, (sourceOf vi64).extValue extsEnd extId f = (.error e, g) ∧ ¬ e.Underflows) ∨
      ∃ value g, (sourceOf vi64).extValue extsEnd extId f = (.ok value, g) ∧ extsEnd < g.pos := by
  have hpos := pos_skip (vintAt_width h).2
  rw [BodySource.extValue, Fallible.ite_apply]
  split
  · refine .inr ⟨_, _, Fallible.bind_ok (pullVint_some h), ?_⟩
    omega
  · have hlen := pullSsize_some h
    split at hlen
    · refine .inl ⟨.valueOverflow n extId, f.skip width, ?_, (by rintro ⟨⟩)⟩
      rw [Fallible.bind_ok hlen, Fallible.bind_ok (tell_apply _), if_pos (.inl (by omega))]
      rfl
    · exact .inl ⟨.intOverflow, f.skip width, Fallible.bind_error hlen, (by rintro ⟨⟩)⟩

/-- A value within the block is pulled, unless it is a byte string of a length that is refused. -/
theorem extValue_within (extId : ℕ) {block after : List UInt8} (hf : f.rest = block ++ after)
    (hend : extsEnd = f.pos + block.length) (h : vintAt vi64 block = some (n, width)) :
    (sourceOf vi64).extValue extsEnd extId f =
      if extId % 2 = 0 then (.ok (.int n), f.skip width)
      else if n < 2 ^ 63 then
        if (block.drop width).length < n ∨ 0xFFFF < n
        then (.error (.valueOverflow n extId), f.skip width)
        else (.ok (.bytes ((block.drop width).take n)), (f.skip width).skip n)
      else (.error .intOverflow, f.skip width) := by
  have hat : vintAt vi64 f.rest = some (n, width) := hf ▸ vintAt_append h
  have hwidth := (vintAt_width h).2
  have hpos := pos_skip (vintAt_width hat).2
  have hrest : (f.skip width).rest = block.drop width ++ after := by
    rw [rest_skip, hf, List.drop_append_of_le_length hwidth]
  rw [BodySource.extValue, Fallible.ite_apply]
  split
  · exact Fallible.bind_ok (pullVint_some hat)
  have hlen := pullSsize_some hat
  split at hlen
  · rename_i hlt
    rw [if_pos hlt, Fallible.bind_ok hlen, Fallible.bind_ok (tell_apply _), Fallible.ite_apply]
    have hiff : (extsEnd - ((f.skip width).pos : ℤ) < n ∨ 0xFFFF < (n : ℤ)) ↔
        ((block.drop width).length < n ∨ 0xFFFF < n) := by
      rw [List.length_drop]
      omega
    by_cases hbad : (block.drop width).length < n ∨ 0xFFFF < n
    · rw [if_pos (hiff.2 hbad), if_pos hbad]
      rfl
    · rw [if_neg (mt hiff.1 hbad), if_neg hbad]
      have hle : n ≤ (f.skip width).rest.length := by
        rw [hrest, List.length_append]
        omega
      have hbytes : (sourceOf vi64).pullBytes (n : ℤ) (f.skip width) =
          (.ok ((block.drop width).take n), (f.skip width).skip n) := by
        have hpull : pullBytes (n : ℤ) (f.skip width) =
            (.ok ((block.drop width).take n), (f.skip width).skip n) := by
          rw [pullBytes, if_neg (by omega), Int.toNat_natCast, take_of_le hle,
            advance_eq_skip, hrest,
            List.take_append_of_le_length (by omega)]
        cases vi64
        · exact hpull
        · exact hpull
      exact Fallible.bind_ok hbytes
  · rename_i hge
    rw [if_neg hge]
    exact Fallible.bind_error hlen

/-- How the loop over a block ends, by what the block says. -/
structure Agrees (vi64 kvpDelta : Bool) (after : List UInt8) (said : BlockScan)
    (r : Except Raise ExtDict × FlatBuffer) (f' : FlatBuffer) : Prop where
  whole : ∀ exts, said = .whole exts → r = (.ok exts, f')
  other : (∀ exts, said ≠ .whole exts) →
    ∃ e, r.1 = .error e ∧ (e.Underflows ↔ ¬ said.Settles vi64 kvpDelta after)

variable {r : Except Raise ExtDict × FlatBuffer} {f' : FlatBuffer} {said : BlockScan}
    {after : List UInt8}

theorem Agrees.of_whole {exts : ExtDict} (h : r = (.ok exts, f')) :
    Agrees vi64 kvpDelta after (.whole exts) r f' :=
  ⟨fun _ heq => by cases heq; exact h, fun hne => absurd rfl (hne exts)⟩

theorem Agrees.of_raise {e : Raise} {g : FlatBuffer} (hne : ∀ exts, said ≠ .whole exts)
    (h : r = (.error e, g))
    (hwaits : e.Underflows ↔ ¬ said.Settles vi64 kvpDelta after) :
    Agrees vi64 kvpDelta after said r f' :=
  ⟨fun exts heq => absurd heq (hne exts), fun _ => ⟨e, by rw [h], hwaits⟩⟩

/-- What is behind an id, when the integer there is not all buffered. -/
theorem Agrees.missing {k : ExtValue → Op ExtDict} (hne : ∀ exts, said ≠ .whole exts)
    (h : vintAt vi64 f.rest = none) (hno : ¬ said.Settles vi64 kvpDelta after) :
    Agrees vi64 kvpDelta after said (((sourceOf vi64).extValue extsEnd extId >>= k) f) f' := by
  obtain ⟨pos, need, hvalue⟩ := extValue_missing extsEnd extId h
  exact .of_raise hne (Fallible.bind_error hvalue) ⟨fun _ => hno, fun _ => rfl⟩

/-- When it is, but ends behind the block. -/
theorem Agrees.crosses {more : ExtValue → Op ExtDict} (h : vintAt vi64 f.rest = some (n, width))
    (hne : ∀ exts, said ≠ .whole exts) (hend : extsEnd < f.pos + width)
    (hyes : said.Settles vi64 kvpDelta after) :
    Agrees vi64 kvpDelta after said (((sourceOf vi64).extValue extsEnd extId >>= fun value =>
      (sourceOf vi64).tell >>= fun pos => if extsEnd < pos
        then raise (.extsOverrun pos extsEnd extId)
        else more value) f) f' := by
  obtain ⟨e, g, hvalue, he⟩ | ⟨value, g, hvalue, hg⟩ := extValue_crosses extId h hend
  · exact .of_raise hne (Fallible.bind_error hvalue)
      ⟨fun h => absurd h he, fun hno => absurd hyes hno⟩
  · rw [Fallible.bind_ok hvalue, Fallible.bind_ok (tell_apply g), if_pos hg]
    exact .of_raise hne rfl ⟨nofun, fun hno => absurd hyes hno⟩

/-- On a block with `after` behind it the loop does what the block says. -/
theorem extLoop_scan {fuel prev : ℕ} {exts : ExtDict} {block : List UInt8}
    (hf : f.rest = block ++ after)
    (hend : extsEnd = f.pos + block.length) (hfuel : block.length < fuel) :
    Agrees vi64 kvpDelta after (scanBlock vi64 kvpDelta fuel prev exts block)
      ((sourceOf vi64).extLoop kvpDelta extsEnd fuel prev exts f) (f.skip block.length) := by
  induction fuel generalizing prev exts block f with
  | zero => exact absurd hfuel (Nat.not_lt_zero _)
  | succ fuel ih =>
    rw [BodySource.extLoop, Fallible.bind_ok (tell_apply f), Fallible.ite_apply, scanBlock]
    by_cases hnil : block = []
    · subst hnil
      rw [if_pos rfl, if_neg (by rw [hend, List.length_nil]; omega)]
      exact .of_whole (by rw [List.length_nil, skip_zero]; rfl)
    have hpos := List.length_pos_iff.2 hnil
    have hlen : f.rest.length = block.length + after.length := by rw [hf, List.length_append]
    rw [if_neg hnil, if_pos (by omega)]
    cases hid : vintAt vi64 block with
    | none =>
      -- the end of the block cuts the id
      dsimp only
      cases hat : vintAt vi64 f.rest with
      | none =>
        obtain ⟨pos, need, hpull⟩ := pullVint_none hat
        rw [hf] at hat
        refine .of_raise (by simp) (Fallible.bind_error hpull) ⟨fun _ => ?_, fun _ => rfl⟩
        rintro ⟨wireId, width, hsome, -⟩
        rw [hat] at hsome
        cases hsome
      | some p =>
        obtain ⟨wireId, width⟩ := p
        rw [Fallible.bind_ok (pullVint_some hat), Fallible.ite_apply]
        have hcross := vintAt_crosses hid (hf ▸ hat)
        have hskip := pos_skip (vintAt_width hat).2
        have hrest : (f.skip width).rest = (block ++ after).drop width := by rw [rest_skip, hf]
        have hat' : vintAt vi64 (block ++ after) = some (wireId, width) := hf ▸ hat
        have hover : (kvpDelta = true ∧ 0xFFFFFFFFFFFFFFFF < if kvpDelta then prev + wireId
          else wireId) ↔
            kvpDelta = true ∧ 0xFFFFFFFFFFFFFFFF < prev + wireId := by
          cases kvpDelta <;> simp
        by_cases hov : kvpDelta = true ∧ 0xFFFFFFFFFFFFFFFF < if kvpDelta then prev + wireId
          else wireId
        · rw [if_pos hov]
          exact .of_raise (by simp) rfl
            ⟨(by rintro ⟨⟩), fun hno => absurd ⟨wireId, width, hat', .inl (hover.1 hov)⟩ hno⟩
        rw [if_neg hov]
        cases hval : vintAt vi64 (f.skip width).rest with
        | none =>
          refine .missing (by simp) hval ?_
          rintro ⟨wireId', width', hsome, hor⟩
          obtain ⟨rfl, rfl⟩ : wireId = wireId' ∧ width = width' := by
            rw [hat'] at hsome
            cases hsome
            exact ⟨rfl, rfl⟩
          exact hor.elim (fun h => hov (hover.2 h)) fun h => h (hrest ▸ hval)
        | some p =>
          refine .crosses (show _ = some (p.1, p.2) from hval) (by simp) (by omega)
            ⟨wireId, width, hat', .inr ?_⟩
          rw [← hrest, hval]
          simp
    | some p =>
      obtain ⟨wireId, width⟩ := p
      dsimp only
      have hwidth := vintAt_width hid
      have hat : vintAt vi64 f.rest = some (wireId, width) := hf ▸ vintAt_append hid
      have hskip := pos_skip (vintAt_width hat).2
      have hrest : (f.skip width).rest = block.drop width ++ after := by
        rw [rest_skip, hf, List.drop_append_of_le_length hwidth.2]
      have hend' : extsEnd = (f.skip width).pos + (block.drop width).length := by
        rw [List.length_drop]
        omega
      rw [Fallible.bind_ok (pullVint_some hat), Fallible.ite_apply]
      generalize hext : (if kvpDelta = true then prev + wireId else wireId) = extId
      by_cases hov : kvpDelta = true ∧ 0xFFFFFFFFFFFFFFFF < extId
      · rw [if_pos hov, if_pos hov]
        exact .of_raise (by simp) rfl ⟨(by rintro ⟨⟩), fun hno => absurd trivial hno⟩
      rw [if_neg hov, if_neg hov]
      cases hval : vintAt vi64 (block.drop width) with
      | none =>
        -- the end of the block cuts what follows the id
        dsimp only
        cases hval' : vintAt vi64 (f.skip width).rest with
        | none => exact .missing (by simp) hval' fun h => h (hrest ▸ hval')
        | some p =>
          have hcross := vintAt_crosses hval (hrest ▸ hval')
          refine .crosses (show _ = some (p.1, p.2) from hval') (by simp) (by omega) ?_
          show vintAt vi64 (block.drop width ++ after) ≠ none
          rw [← hrest, hval']
          simp
      | some p =>
        obtain ⟨n, width'⟩ := p
        have hvalue := extValue_within extId hrest hend' hval
        have hwidth' := vintAt_width hval
        rw [List.length_drop] at hwidth'
        -- one turn is done with a cursor that is still within the block
        have hturn : ∀ {value : ExtValue} {used : ℕ}, width + used ≤ block.length → 0 < used →
            (sourceOf vi64).extValue extsEnd extId (f.skip width) =
              (.ok value, f.skip (width + used)) →
            Agrees vi64 kvpDelta after
              (scanBlock vi64 kvpDelta fuel (if kvpDelta then extId else prev)
                (exts.set extId value)
                (block.drop (width + used)))
              (((sourceOf vi64).extValue extsEnd extId >>= fun value =>
                (sourceOf vi64).tell >>= fun pos =>
                if extsEnd < pos then raise (.extsOverrun pos extsEnd extId)
                else (sourceOf vi64).extLoop kvpDelta extsEnd fuel
                  (if kvpDelta then extId else prev)
                  (exts.set extId value)) (f.skip width)) (f.skip block.length) := by
          intro value used hle hused hdone
          have hskip' : (f.skip (width + used)).pos = f.pos + (width + used) := pos_skip (by omega)
          have hin : ¬ extsEnd < ((f.skip (width + used)).pos : ℤ) := by omega
          rw [Fallible.bind_ok hdone, Fallible.bind_ok (tell_apply _), if_neg hin]
          have hrest' : (f.skip (width + used)).rest = block.drop (width + used) ++ after := by
            rw [rest_skip, hf, List.drop_append_of_le_length hle]
          have hrec := @ih _ (if kvpDelta then extId else prev) (exts.set extId value) _ hrest'
            (by rw [List.length_drop]; omega) (by rw [List.length_drop]; omega)
          rwa [skip_skip, List.length_drop, Nat.add_sub_cancel' hle] at hrec
        dsimp only
        rw [List.drop_drop] at hvalue ⊢
        rw [skip_skip] at hvalue
        by_cases heven : extId % 2 = 0
        · rw [if_pos heven] at hvalue ⊢
          exact hturn (by omega) hwidth'.1 hvalue
        rw [if_neg heven] at hvalue ⊢
        by_cases hbad : (block.drop (width + width')).length < n ∨ 0xFFFF < n
        · rw [if_pos hbad] at hvalue ⊢
          by_cases hlt : n < 2 ^ 63
          · rw [if_pos hlt] at hvalue
            exact .of_raise (by simp) (Fallible.bind_error hvalue)
              ⟨(by rintro ⟨⟩), fun hno => absurd trivial hno⟩
          · rw [if_neg hlt] at hvalue
            exact .of_raise (by simp) (Fallible.bind_error hvalue)
              ⟨(by rintro ⟨⟩), fun hno => absurd trivial hno⟩
        · rw [if_neg hbad, if_pos (by omega), skip_skip, Nat.add_assoc] at hvalue
          rw [if_neg hbad, List.drop_drop, Nat.add_assoc]
          rw [List.length_drop] at hbad
          exact hturn (by omega) (by omega) hvalue

end FlatBuffer

/-! ## Up to the end of the block -/

namespace BodySource

variable {σ τ : Type} (src : BodySource σ)

/-- The part of the parser that ends with the loop over the extensions. -/
def header (extsLenLimit : ℤ) (kvpDelta : Bool) : Fallible σ Raise (ℕ × Option ExtDict) := do
  let delta ← src.pullVint
  let exts ← src.parseExts extsLenLimit kvpDelta
  pure (delta, exts)

/-- The part that begins with the length of the payload. -/
def payload (head : ℕ × Option ExtDict) : Fallible σ Raise ObjectBody := do
  let payloadLen ← src.pullSsize
  if payloadLen = 0 then do
    let status ← src.pullVint
    pure { delta := head.1, exts := head.2, status, payload := [] }
  else do
    let payload ← src.pullBytes payloadLen
    pure { delta := head.1, exts := head.2, status := 0, payload }

theorem parseObject_eq (extsLenLimit : ℤ) (kvpDelta : Bool) :
    src.parseObject true extsLenLimit kvpDelta = src.header extsLenLimit kvpDelta >>=
    src.payload := by
  rw [header, Fallible.bind_assoc]
  simp only [Fallible.bind_assoc]
  rfl

theorem payload_exts {head : ℕ × Option ExtDict} {body : ObjectBody} {s s' : σ}
    (h : src.payload head s = (.ok body, s')) : body.exts = head.2 := by
  obtain ⟨payloadLen, t, -, h⟩ := Fallible.bind_eq_ok.1 h
  rw [Fallible.ite_apply] at h
  split at h
  · obtain ⟨status, u, -, h⟩ := Fallible.bind_eq_ok.1 h
    cases h
    rfl
  · obtain ⟨payload, u, -, h⟩ := Fallible.bind_eq_ok.1 h
    cases h
    rfl

variable {src} {src' : BodySource τ}
    {P : ∀ α : Type, Fallible σ Raise α → Fallible τ Raise α → Prop}

theorem Related.header (h : Related P src src') (extsLenLimit : ℤ) (kvpDelta : Bool) :
    P (ℕ × Option ExtDict) (src.header extsLenLimit kvpDelta) (src'.header extsLenLimit kvpDelta) :=
  h.congruence.bind h.pullVint fun _ => h.congruence.bind (h.parseExts _ _) fun _ =>
    h.congruence.pure _

end BodySource

/-- What a parse of the block alone returns as its extensions, if the block is whole. -/
def BlockScan.exts : BlockScan → Option (Option ExtDict)
  | whole exts => some (if exts.items = [] then none else some exts)
  | _ => none

theorem BlockScan.exts_eq_some {said : BlockScan} {exts : Option ExtDict} : said.exts = some exts ↔
    ∃ dict, said = .whole dict ∧ (if dict.items = [] then none else some dict) = exts := by
  cases said with
  | whole dict => simp [BlockScan.exts]
  | refused => simp [BlockScan.exts]
  | cutId prev tail => simp [BlockScan.exts]
  | cutValue tail => simp [BlockScan.exts]

namespace FlatBuffer

/-- An object begins at the cursor, and all of its block of extensions is there. -/
def Announces (vi64 : Bool) (f : FlatBuffer) (block after : List UInt8) : Prop :=
  ∃ delta width width', vintAt vi64 f.rest = some (delta, width) ∧
    vintAt vi64 (f.rest.drop width) = some (block.length, width') ∧
    f.rest.drop (width + width') = block ++ after

variable {f : FlatBuffer} {block after : List UInt8} {extsLenLimit : ℤ}

theorem parseExts_block {g : FlatBuffer} {extsLen : ℤ}
    (hlen : (sourceOf vi64).pullSsize f = (.ok extsLen, g))
    (hlimit : extsLen ≤ extsLenLimit) (hpos : 0 < extsLen) {extsEnd : ℤ}
    (hend : ssize (g.pos + extsLen) = extsEnd) :
    (sourceOf vi64).parseExts extsLenLimit kvpDelta f =
      ((sourceOf vi64).extLoop kvpDelta extsEnd ((extsEnd - g.pos).toNat + 1) 0 {} >>=
        fun exts => pure (if exts.items = [] then none else some exts)) g := by
  subst hend
  rw [BodySource.parseExts, Fallible.bind_ok hlen, if_neg (not_lt.2 hlimit), if_pos hpos,
    Fallible.bind_ok (tell_apply _)]

/-- Up to the end of the block the parser does what the block says. -/
theorem header_scan (kvpDelta : Bool) (h : Announces vi64 f block after)
    (hlimit : block.length ≤ extsLenLimit)
    (hsize : f.bytes.length < 2 ^ 63) :
    (∀ exts, (scan vi64 kvpDelta block).exts = some exts → ∃ delta g,
      (sourceOf vi64).header extsLenLimit kvpDelta f = (.ok (delta, exts), g) ∧
        g.pos = f.bytes.length - after.length) ∧
    ((scan vi64 kvpDelta block).exts = none →
      ∃ e, ((sourceOf vi64).header extsLenLimit kvpDelta f).1 = .error e ∧
        (e.Underflows ↔ ¬ (scan vi64 kvpDelta block).Settles vi64 kvpDelta after)) := by
  obtain ⟨delta, width, width', hdelta, hlen, hrest⟩ := h
  have hwidth := (vintAt_width hdelta).2
  have hwidth' := (vintAt_width hlen).2
  have htotal := congrArg List.length hrest
  have hadd := f.pos_add_length_rest
  rw [List.length_drop] at hwidth'
  rw [List.length_drop, List.length_append] at htotal
  have hpos : (f.skip (width + width')).pos = f.pos + (width + width') := pos_skip (by omega)
  have hrest' : (f.skip (width + width')).rest = block ++ after := by rw [rest_skip, hrest]
  have hdone : ((f.skip (width + width')).skip block.length).pos = f.bytes.length -
    after.length := by
    rw [pos_skip (by rw [hrest', List.length_append]; omega)]
    omega
  have hssize : (sourceOf vi64).pullSsize (f.skip width) =
    (.ok (block.length : ℤ), f.skip (width + width')) := by
    rw [pullSsize_some (rest_skip ▸ hlen), if_pos (by omega), skip_skip]
  rw [BodySource.header, Fallible.bind_ok (pullVint_some hdelta)]
  by_cases hnil : block = []
  · subst hnil
    have hexts : (sourceOf vi64).parseExts extsLenLimit kvpDelta (f.skip width) =
        (.ok none, f.skip (width + width')) := by
      rw [BodySource.parseExts, Fallible.bind_ok hssize, if_neg (not_lt.2 hlimit), if_neg (by simp)]
      rfl
    rw [Fallible.bind_ok hexts]
    refine ⟨fun exts hsaid => ?_, (by rintro ⟨⟩)⟩
    cases hsaid
    exact ⟨delta, _, rfl, by rw [← hdone, List.length_nil, skip_zero]⟩
  have hne := List.length_pos_iff.2 hnil
  have hend : ssize ((f.skip (width + width')).pos + block.length : ℤ) =
      (f.skip (width + width')).pos + block.length := by
    rw [ssize, Int.bmod_eq_of_le (by omega) (by omega)]
  have hfuel : ((f.skip (width + width')).pos + block.length - (f.skip (width + width')).pos :
    ℤ).toNat + 1 =
      block.length + 1 := by
    rw [add_sub_cancel_left, Int.toNat_natCast]
  have hagrees : Agrees vi64 kvpDelta after (scan vi64 kvpDelta block) _ _ :=
    extLoop_scan hrest' rfl (Nat.lt_succ_self _)
  have hexts : (sourceOf vi64).parseExts extsLenLimit kvpDelta (f.skip width) =
      ((sourceOf vi64).extLoop kvpDelta ((f.skip (width + width')).pos + block.length)
        (block.length + 1) 0 {} >>=
        fun exts => pure (if exts.items = [] then none else some exts))
          (f.skip (width + width')) := by
    rw [parseExts_block hssize hlimit (Int.natCast_pos.2 hne) hend, hfuel]
  refine ⟨fun exts hsaid => ?_, fun hsaid => ?_⟩
  · obtain ⟨dict, hscan, rfl⟩ := BlockScan.exts_eq_some.1 hsaid
    have hloop := hagrees.whole dict hscan
    refine ⟨delta, _, ?_, hdone⟩
    rw [Fallible.bind_ok (hexts.trans (Fallible.bind_ok hloop))]
    rfl
  · obtain ⟨e, he, hwaits⟩ := hagrees.other fun dict heq => by
      rw [heq] at hsaid
      cases hsaid
    refine ⟨e, ?_, hwaits⟩
    rw [Fallible.bind_error (hexts.trans (Fallible.bind_error (Prod.ext he rfl)))]

end FlatBuffer

/-! ## The theorem -/

namespace StreamChain

/-- The source of a flavour on a chain. -/
def sourceOf (vi64 : Bool) : BodySource StreamChain := if vi64 then vi64Source else varintSource

theorem parseBody_eq (vi64 : Bool) : parseBody vi64 = (sourceOf vi64).parseObject := by
    cases vi64 <;> rfl

theorem sourceOf_related (vi64 : Bool) : BodySource.Related
    (fun _ (x : Op _) (y : FlatBuffer.Op _) => Fallible.Simulates Refines x y) (sourceOf vi64)
    (FlatBuffer.sourceOf vi64) := by
  have hc := Fallible.Simulates.congruence (ε := Raise) Refines
  have hbytes := fun n => (Meets.pullBytes n).simulates
  cases vi64
  · exact ⟨hc, Meets.pullUintVar.simulates, hbytes, Meets.tell.simulates⟩
  · exact ⟨hc, Meets.pullUintVi64.simulates, hbytes, Meets.tell.simulates⟩

/-- The parse is confined to the block of extensions, which ends at `blockEnd`. -/
structure Confined (vi64 kvpDelta : Bool) (extsLenLimit : ℤ) (c : StreamChain) (block : List UInt8)
    (blockEnd : ℤ) :
    Prop where
  /-- The loop over the extensions does not ask for more bytes. -/
  waits : ∀ pos need, ((sourceOf vi64).header extsLenLimit kvpDelta c).1 ≠
    .error (.streamUnderflow pos need)
  /-- A parse that succeeds returns what the block says, and reads the payload's length right behind
  it. -/
  success : ∀ body c', parseBody vi64 true extsLenLimit kvpDelta c = (.ok body, c') →
    (scan vi64 kvpDelta block).exts = some body.exts ∧
    ∃ delta g, (sourceOf vi64).header extsLenLimit kvpDelta c = (.ok (delta, body.exts), g) ∧
      g.pos = blockEnd ∧
      (sourceOf vi64).payload (delta, body.exts) g = (.ok body, c')

/-- A parse is confined to its block, which is all buffered, exactly if the end of the block cuts no
integer that the bytes buffered behind it do not complete. -/
theorem confined_iff (vi64 kvpDelta : Bool) {extsLenLimit : ℤ} {c : StreamChain} {f : FlatBuffer}
    {block after : List UInt8} (hc : Refines c f) (h : f.Announces vi64 block after)
    (hlimit : block.length ≤ extsLenLimit) (hsize : f.bytes.length < 2 ^ 63) :
    Confined vi64 kvpDelta extsLenLimit c block (f.bytes.length - after.length : ℕ) ↔
      (scan vi64 kvpDelta block).Settles vi64 kvpDelta after := by
  obtain ⟨hwhole, hother⟩ := FlatBuffer.header_scan kvpDelta h hlimit hsize
  obtain ⟨hres, hrel⟩ := (sourceOf_related vi64).header extsLenLimit kvpDelta c f hc
  obtain ⟨⟨r, g⟩, hrun⟩ : ∃ p, (sourceOf vi64).header extsLenLimit kvpDelta c = p := ⟨_, rfl⟩
  rw [hrun] at hres hrel
  constructor
  · intro hconf
    cases hsaid : (scan vi64 kvpDelta block).exts with
    | some exts =>
      obtain ⟨dict, hscan, -⟩ := BlockScan.exts_eq_some.1 hsaid
      rw [hscan]
      trivial
    | none =>
      obtain ⟨e, he, hwaits⟩ := hother hsaid
      by_contra hno
      have hunder := hwaits.2 hno
      cases e with
      | streamUnderflow pos need => exact hconf.waits pos need (by rw [hrun]; exact hres.trans he)
      | _ => cases hunder
  · intro hsettles
    refine ⟨fun pos need hwait => ?_, fun body c' hparse => ?_⟩
    · rw [hrun] at hwait
      cases hsaid : (scan vi64 kvpDelta block).exts with
      | some exts =>
        obtain ⟨delta, g', hhead, -⟩ := hwhole exts hsaid
        rw [hhead] at hres
        exact absurd (hwait.symm.trans hres) nofun
      | none =>
        obtain ⟨e, he, hwaits⟩ := hother hsaid
        have heq : e = .streamUnderflow pos need := by
          have := (hwait.symm.trans (hres.trans he))
          cases this
          rfl
        exact absurd hsettles (hwaits.1 (heq ▸ rfl))
    · rw [parseBody_eq, BodySource.parseObject_eq] at hparse
      obtain ⟨⟨delta, exts⟩, g', hhead, hpayload⟩ := Fallible.bind_eq_ok.1 hparse
      have hbody : body.exts = exts := BodySource.payload_exts _ hpayload
      subst hbody
      rw [hrun] at hhead
      cases hhead
      cases hsaid : (scan vi64 kvpDelta block).exts with
      | some exts =>
        obtain ⟨delta', g', hflat, hpos⟩ := hwhole exts hsaid
        rw [hflat] at hres hrel
        cases hres
        refine ⟨rfl, delta, g, hrun, ?_, hpayload⟩
        rw [hrel.pos]
        exact_mod_cast hpos
      | none =>
        obtain ⟨e, he, -⟩ := hother hsaid
        exact absurd (hres.trans he) nofun

/-- An object of one extension, in two chunks. -/
def oneExtension : StreamChain := .ofChunks [[0, 3, 1], [1, 0x61, 0]]

theorem confined_iff_oneExtension : Confined false false 16 oneExtension [1, 1, 0x61] 5 := by
  have h : FlatBuffer.Announces false (.ofBytes [0, 3, 1, 1, 0x61, 0]) [1, 1, 0x61] [0] :=
    ⟨0, 1, 1, by decide, by decide, by decide⟩
  have hsettles : (scan false false [1, 1, 0x61]).Settles false false [0] := trivial
  exact (confined_iff false false (ofChunks_refines [[0, 3, 1], [1, 0x61, 0]]) h (by decide)
    (by decide)).2 hsettles

/-- A block of one byte that is the first of two of an id, in either flavour, with nothing behind
it. -/
def cutExtension (vi64 : Bool) : StreamChain := .ofChunks [[0, 1, if vi64 then 0x80 else 0x40]]

theorem cutExtension_not_confined : ¬ Confined false false 16 (cutExtension false) [0x40] 3 ∧
    ¬ Confined true false 16 (cutExtension true) [0x80] 3 :=
  ⟨fun h => h.waits 2 4 (by decide), fun h => h.waits 2 4 (by decide)⟩

end StreamChain

end Aiopquic
