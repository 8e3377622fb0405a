import Aiopquic.ObjectParse

/-!
# The two integer formats

An integer is a first byte, in which its high bits are behind a mark for the length, and the rest of
its bytes. Pulled from a buffer, what the encoder writes for an integer gives that integer back,
whatever follows.
-/

namespace Aiopquic

open FlatBuffer (pullPrefixed)

/-- The low `n` bytes of a number, most significant first. -/
def beBytes : ℕ → ℕ → List UInt8
  | 0, _ => []
  | n + 1, v => .ofNat (v >>> (8 * n) &&& 0xff) :: beBytes n v

theorem length_beBytes (n v : ℕ) : (beBytes n v).length = n := by
  induction n with
  | zero => rfl
  | succ n ih => rw [beBytes, List.length_cons, ih]

theorem shiftRight_bytes (v n : ℕ) : v >>> (8 * n) = v / 256 ^ n := by
  rw [Nat.shiftRight_eq_div_pow, Nat.pow_mul]

theorem toNat_lowByte (v : ℕ) : (UInt8.ofNat (v &&& 0xff)).toNat = v % 256 := by
  have hmask : v &&& 0xff = v % 256 := Nat.and_two_pow_sub_one_eq_mod v 8
  rw [hmask, UInt8.toNat_ofNat', Nat.mod_mod]

theorem beValue_beBytes (n v : ℕ) : beValue (beBytes n v) = v % 256 ^ n := by
  induction n with
  | zero => rw [beBytes, beValue, pow_zero, Nat.mod_one]
  | succ n ih =>
    rw [beBytes, beValue, ih, length_beBytes, toNat_lowByte, shiftRight_bytes, Nat.mod_pow_succ,
      Nat.add_comm,
      Nat.mul_comm]

/-- The loop of `_vi64_write` writes the low bytes. -/
theorem vi64Tail_eq (n v : ℕ) : vi64Tail (n + 1) v = beBytes n v := by
  have hloop : ∀ m s, s + m = n + 1 →
      (List.range' s m).map (fun i => UInt8.ofNat (v >>> (8 * (n - i)) &&& 0xff)) =
        beBytes m v := by
    intro m
    induction m with
    | zero => exact fun s _ => rfl
    | succ m ih =>
      intro s hs
      have hindex : n - s = m := by omega
      rw [List.range'_succ, List.map_cons, ih (s + 1) (by omega), hindex, beBytes]
  exact hloop n 1 (Nat.add_comm ..)

/-- A first byte that says how many follow, and the number's low bytes behind it. -/
theorem pullPrefixed_beBytes {size head : UInt8 → ℕ} {first : UInt8} {n v : ℕ} {f : FlatBuffer}
    {more : List UInt8}
    (hsize : size first = n + 1) (hhead : head first = v / 256 ^ n)
    (h : f.rest = first :: beBytes n v ++ more) :
    pullPrefixed size head f = (.ok v, f.skip (first :: beBytes n v).length) := by
  have hlen : f.rest.length = n + 1 + more.length := by
    rw [h, List.length_append, List.length_cons, length_beBytes]
  have hraw : f.rest.take (size first) = first :: beBytes n v := by
    rw [h, hsize, List.take_append_of_le_length (by rw [List.length_cons, length_beBytes]),
      List.take_of_length_le (by rw [List.length_cons, length_beBytes])]
  rw [FlatBuffer.pullPrefixed_of_le h (by omega) hraw, FlatBuffer.advance_eq_skip, hsize,
    List.tail_cons,
    length_beBytes, beValue_beBytes, hhead, Nat.div_add_mod', List.length_cons, length_beBytes]

namespace VintCodec

/-- What the parser has to know about a format: what is written for an integer below the bound is as
long as the size pass says, and a pull gives the integer back. -/
structure Decodes (codec : VintCodec) (src : BodySource FlatBuffer) (bound : ℕ) : Prop where
  le_bound : 2 ^ 32 ≤ bound
  bound_le : bound ≤ 2 ^ 64
  size_eq : ∀ v < bound, codec.size v = (codec.write v).length
  write_ne_nil : ∀ v, codec.write v ≠ []
  pull : ∀ v < bound, ∀ f more, f.rest = codec.write v ++ more →
    src.pullVint f = (.ok v, f.skip (codec.write v).length)
  pullBytes : src.pullBytes = FlatBuffer.pullBytes
  tell : src.tell = FlatBuffer.tell

/-! ## RFC 9000 -/

/-- What is written: the two high bits of the first byte are the logarithm `k` of the length. -/
theorem varintWrite_eq (v : ℕ) :
    ∃ k n, 2 ^ k = n + 1 ∧ k < 4 ∧ varintSize v = n + 1 ∧ (v < 2 ^ 62 → v / 256 ^ n < 64) ∧
      varintWrite v = .ofNat (v >>> (8 * n) ||| k <<< 6) :: beBytes n v := by
  rw [varintSize, varintWrite]
  split
  · exact ⟨0, 0, rfl, by decide, rfl, fun _ => by omega, by simp [beBytes]⟩
  split
  · exact ⟨1, 1, rfl, by decide, rfl, fun _ => by omega, rfl⟩
  split
  · exact ⟨2, 3, rfl, by decide, rfl, fun _ => by omega, rfl⟩
  · exact ⟨3, 7, rfl, by decide, rfl, fun _ => by omega, rfl⟩

theorem toNat_varintFirst {k q : ℕ} (hk : k < 4) (hq : q < 64) :
    (UInt8.ofNat (q ||| k <<< 6)).toNat = 64 * k + q := by
  rw [Nat.or_comm, ← Nat.shiftLeft_add_eq_or_of_lt (by exact hq), Nat.shiftLeft_eq,
    UInt8.toNat_ofNat',
    Nat.mod_eq_of_lt (by omega), Nat.mul_comm]

theorem varint_decodes : varint.Decodes FlatBuffer.varintSource (2 ^ 62) where
  le_bound := by decide
  bound_le := by decide
  size_eq v hv := by
    obtain ⟨k, n, -, -, hsize, -, hwrite⟩ := varintWrite_eq v
    show varintSize v = (varintWrite v).length
    rw [hsize, hwrite, List.length_cons, length_beBytes]
  write_ne_nil v := by
    obtain ⟨k, n, -, -, -, -, hwrite⟩ := varintWrite_eq v
    show varintWrite v ≠ []
    rw [hwrite]
    exact List.cons_ne_nil _ _
  pull v hv f more h := by
    obtain ⟨k, n, hpow, hk, -, hhigh, hwrite⟩ := varintWrite_eq v
    change f.rest = varintWrite v ++ more at h
    show FlatBuffer.pullUintVar f = (.ok v, f.skip (varintWrite v).length)
    rw [hwrite] at h ⊢
    have hq := hhigh hv
    have hfirst : (UInt8.ofNat (v >>> (8 * n) ||| k <<< 6)).toNat = 64 * k + v / 256 ^ n := by
      rw [shiftRight_bytes, toNat_varintFirst hk hq]
    refine pullPrefixed_beBytes ?_ ?_ h
    · rw [hfirst, Nat.mul_add_div (by decide), Nat.div_eq_of_lt hq, Nat.add_zero, hpow]
    · rw [hfirst, Nat.mul_add_mod, Nat.mod_eq_of_lt hq]
  pullBytes := rfl
  tell := rfl

/-! ## vi64 -/

theorem vi64Size_cases (v : ℕ) (hv : v < 2 ^ 64) :
    ∃ n ≤ 8, vi64Size v = n + 1 ∧ v < 256 ^ n * 2 ^ (7 - n) := by
  rw [vi64Size]
  split
  · exact ⟨0, by decide, rfl, by omega⟩
  split
  · exact ⟨1, by decide, rfl, by omega⟩
  split
  · exact ⟨2, by decide, rfl, by omega⟩
  split
  · exact ⟨3, by decide, rfl, by omega⟩
  split
  · exact ⟨4, by decide, rfl, by omega⟩
  split
  · exact ⟨5, by decide, rfl, by omega⟩
  split
  · exact ⟨6, by decide, rfl, by omega⟩
  split
  · exact ⟨7, by decide, rfl, by omega⟩
  · exact ⟨8, by decide, rfl, by omega⟩

/-- What is written: the first byte has as many leading ones as bytes follow. -/
theorem vi64Write_eq (v : ℕ) (hv : v < 2 ^ 64) :
    ∃ n ≤ 8, vi64Size v = n + 1 ∧ v / 256 ^ n < 2 ^ (7 - n) ∧
      vi64Write v = .ofNat ((0xFF ^^^ 0xFF >>> n) ||| v / 256 ^ n) :: beBytes n v := by
  obtain ⟨n, hn, hsize, hlt⟩ := vi64Size_cases v hv
  refine ⟨n, hn, hsize, Nat.div_lt_of_lt_mul hlt, ?_⟩
  rw [vi64Write, hsize]
  by_cases hlong : n = 8
  · subst hlong
    have hhigh : v / 256 ^ 8 = 0 := Nat.div_eq_of_lt (by omega)
    rw [hhigh, if_pos rfl, vi64Tail_eq]
    rfl
  · have hnine : n + 1 ≠ 9 := by omega
    rw [if_neg hnine, Nat.add_sub_cancel, shiftRight_bytes, vi64Tail_eq]

theorem vi64Write_ne_nil (v : ℕ) : vi64Write v ≠ [] := by
  rw [vi64Write]
  split
  · exact List.cons_ne_nil _ _
  · exact List.cons_ne_nil _ _

/-- The parser finds the mark and what is behind it. -/
theorem vi64First {n q : ℕ} (hn : n ≤ 8) (hq : q < 2 ^ (7 - n)) :
    leadingOnes (.ofNat ((0xFF ^^^ 0xFF >>> n) ||| q)) = n ∧
      (UInt8.ofNat ((0xFF ^^^ 0xFF >>> n) ||| q)).toNat % 2 ^ (7 - n) = q := by
  have hall : ∀ n ≤ 8, ∀ q < 2 ^ (7 - n), leadingOnes (.ofNat ((0xFF ^^^ 0xFF >>> n) ||| q)) = n ∧
      (UInt8.ofNat ((0xFF ^^^ 0xFF >>> n) ||| q)).toNat % 2 ^ (7 - n) = q := by
    decide +kernel
  exact hall n hn q hq

theorem vi64_decodes : vi64.Decodes FlatBuffer.vi64Source (2 ^ 64) where
  le_bound := by decide
  bound_le := le_rfl
  size_eq v hv := by
    obtain ⟨n, -, hsize, -, hwrite⟩ := vi64Write_eq v hv
    show vi64Size v = (vi64Write v).length
    rw [hsize, hwrite, List.length_cons, length_beBytes]
  write_ne_nil := vi64Write_ne_nil
  pull v hv f more h := by
    obtain ⟨n, hn, -, hq, hwrite⟩ := vi64Write_eq v hv
    change f.rest = vi64Write v ++ more at h
    show FlatBuffer.pullUintVi64 f = (.ok v, f.skip (vi64Write v).length)
    rw [hwrite] at h ⊢
    obtain ⟨hones, hmod⟩ := vi64First hn hq
    refine pullPrefixed_beBytes ?_ ?_ h
    · rw [hones]
    · rw [hones, hmod]
  pullBytes := rfl
  tell := rfl

end VintCodec

end Aiopquic
