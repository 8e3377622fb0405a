import Aiopquic.FlatBuffer

/-!
# `StreamChain` refines the flat buffer

The cursor of a chain is in a chunk or behind the last one. A pull that finds its bytes in the chunk
at the cursor and one that walks over several leave the same state behind, `commit` makes a chunk of
the rest of the first, and an anchor is a cursor too.
-/

namespace Aiopquic

open Fallible (raise get modify)

/-! ## The chain stands for a buffer -/

/-- A cursor in a chain: in a chunk, or behind the last, with `pos` bytes before it. -/
structure Cursor (chunks : List (List UInt8)) (idx off pos : ℕ) : Prop where
  inside : (∃ chunk, chunks[idx]? = some chunk ∧ off < chunk.length) ∨
    (idx = chunks.length ∧ off = 0)
  pos_eq : (chunks.take idx).flatten.length + off = pos

structure Refines (c : StreamChain) (f : FlatBuffer) : Prop where
  nonempty : ∀ chunk ∈ c.chunks, chunk ≠ []
  bytes : c.chunks.flatten = f.bytes
  total : c.total = f.bytes.length
  cursor : Cursor c.chunks c.chunkIdx c.chunkOff f.pos
  pos : c.pos = f.pos
  saved : Cursor c.chunks c.saveChunkIdx c.saveChunkOff f.anchor
  savePos : c.savePos = f.anchor

namespace Cursor

variable {chunks : List (List UInt8)} {idx off pos : ℕ} {chunk : List UInt8}

theorem zero (h : ∀ chunk ∈ chunks, chunk ≠ []) : Cursor chunks 0 0 0 := by
  refine ⟨?_, rfl⟩
  cases chunks with
  | nil => exact Or.inr ⟨rfl, rfl⟩
  | cons chunk rest =>
      exact Or.inl ⟨chunk, rfl, List.length_pos_iff.2 (h chunk (List.mem_cons_self ..))⟩

/-- What is behind a cursor. -/
theorem drop_eq (h : Cursor chunks idx off pos) :
    chunks.flatten.drop pos = (chunks.drop idx).flatten.drop off := by
  have hsplit : chunks.flatten = (chunks.take idx).flatten ++ (chunks.drop idx).flatten := by
    rw [← List.flatten_append, List.take_append_drop]
  rw [hsplit, ← h.pos_eq, List.drop_append, Nat.add_sub_cancel_left, List.drop_eq_nil_of_le
    (Nat.le_add_right ..),
    List.nil_append]

/-- What is behind a cursor in a chunk: the rest of the chunk and the later ones. -/
theorem drop_flatten (h : Cursor chunks idx off pos) (hchunk : chunks[idx]? = some chunk)
    (hoff : off ≤ chunk.length) :
    chunks.flatten.drop pos = chunk.drop off ++ (chunks.drop (idx + 1)).flatten := by
  obtain ⟨hidx, rfl⟩ := List.getElem?_eq_some_iff.1 hchunk
  rw [h.drop_eq, List.drop_eq_getElem_cons hidx, List.flatten_cons,
    List.drop_append_of_le_length hoff]

/-- The first of the chunks from the cursor on. -/
theorem first (h : Cursor chunks idx off pos) :
    (∃ chunk, (chunks.drop idx)[0]? = some chunk ∧ off < chunk.length) ∨ chunks.drop idx = [] ∧
    off = 0 := by
  rcases h.inside with ⟨chunk, hchunk, hoff⟩ | ⟨hend, hoff⟩
  · exact Or.inl ⟨chunk, by rw [List.getElem?_drop, Nat.add_zero, hchunk], hoff⟩
  · exact Or.inr ⟨List.drop_eq_nil_of_le hend.ge, hoff⟩

/-- Behind the cursor there is something exactly if it is in a chunk. -/
theorem of_drop_ne_nil (h : Cursor chunks idx off pos) (hrest : chunks.flatten.drop pos ≠ []) :
    ∃ chunk, chunks[idx]? = some chunk ∧ off < chunk.length := by
  rcases h.inside with hin | ⟨rfl, rfl⟩
  · exact hin
  · refine absurd ?_ hrest
    rw [← h.pos_eq, List.take_length, Nat.add_zero, List.drop_length]

/-- The cursor moves on in its chunk, and to the next behind its end. -/
theorem advance (h : Cursor chunks idx off pos) (hne : ∀ chunk ∈ chunks, chunk ≠ [])
    (hchunk : chunks[idx]? = some chunk) {n : ℕ} (hn : off + n ≤ chunk.length) :
    if chunk.length ≤ off + n then Cursor chunks (idx + 1) 0 (pos + n) else Cursor chunks idx
    (off + n) (pos + n) := by
  have hpos := h.pos_eq
  split
  · rename_i hend
    have htake : (chunks.take (idx + 1)).flatten.length = (chunks.take idx).flatten.length +
      chunk.length := by
      obtain ⟨hidx, rfl⟩ := List.getElem?_eq_some_iff.1 hchunk
      rw [List.take_succ_eq_append_getElem hidx, List.flatten_append, List.length_append]
      simp
    refine ⟨?_, by omega⟩
    cases hnext : chunks[idx + 1]? with
    | some next =>
      exact Or.inl ⟨next, rfl, List.length_pos_iff.2 (hne next (List.mem_of_getElem? hnext))⟩
    | none =>
      have hlt := (List.getElem?_eq_some_iff.1 hchunk).1
      have hle := List.getElem?_eq_none_iff.1 hnext
      exact Or.inr ⟨by omega, rfl⟩
  · exact ⟨Or.inl ⟨chunk, hchunk, by omega⟩, by omega⟩

/-- A chunk behind the last leaves a cursor where it is. -/
theorem append (h : Cursor chunks idx off pos) {data : List UInt8} (hdata : data ≠ []) :
    Cursor (chunks ++ [data]) idx off pos := by
  have hpos := h.pos_eq
  rcases h.inside with ⟨chunk, hchunk, hoff⟩ | ⟨rfl, rfl⟩
  · have hidx := (List.getElem?_eq_some_iff.1 hchunk).1
    refine ⟨Or.inl ⟨chunk, by rw [List.getElem?_append_left hidx, hchunk], hoff⟩, ?_⟩
    rw [List.take_append_of_le_length (by omega), hpos]
  · refine ⟨Or.inl ⟨data, by simp, List.length_pos_iff.2 hdata⟩, ?_⟩
    rwa [List.take_append_of_le_length le_rfl]

/-- The walk of `seek` finds the cursor of a byte. -/
theorem of_locate {chunks : List (List UInt8)} {left : ℕ} (h : left < chunks.flatten.length) :
    ∃ idx off, StreamChain.locate chunks left = some (idx, off) ∧ Cursor chunks idx off left := by
  induction chunks generalizing left with
  | nil => exact absurd h (Nat.not_lt_zero _)
  | cons chunk rest ih =>
    rw [List.flatten_cons, List.length_append] at h
    rw [StreamChain.locate]
    split
    · rename_i hlt
      exact ⟨0, left, rfl, Or.inl ⟨chunk, rfl, hlt⟩, by simp⟩
    · rename_i hge
      obtain ⟨idx, off, hfound, hin, hpos⟩ := @ih (left - chunk.length) (by omega)
      refine ⟨idx + 1, off, by
        rw [hfound]; rfl, hin.imp id fun hend => ⟨by simp [hend.1], hend.2⟩, ?_⟩
      rw [List.take_succ_cons, List.flatten_cons, List.length_append]
      omega

theorem locate_eq_none {chunks : List (List UInt8)} {left : ℕ} (h : chunks.flatten.length ≤ left) :
    StreamChain.locate chunks left = none := by
  induction chunks generalizing left with
  | nil => rfl
  | cons chunk rest ih =>
    rw [List.flatten_cons, List.length_append] at h
    rw [StreamChain.locate, if_neg (by omega), ih (by omega)]
    rfl

/-- The cursor behind the last chunk. -/
theorem last (chunks : List (List UInt8)) : Cursor chunks chunks.length 0 chunks.flatten.length :=
  ⟨Or.inr ⟨rfl, rfl⟩, by rw [List.take_length, Nat.add_zero]⟩

end Cursor

namespace Refines

open StreamChain

variable {c : StreamChain} {f : FlatBuffer} {n : ℕ}

theorem avail (h : Refines c f) : c.total - c.pos = f.rest.length := by
  have := f.pos_add_length_rest
  rw [h.total, h.pos]
  omega

theorem start : Refines {} FlatBuffer.empty :=
  ⟨nofun, rfl, rfl, Cursor.zero nofun, rfl, Cursor.zero nofun, rfl⟩

/-- The cursor is in a chunk unless everything is read. -/
theorem at_chunk (h : Refines c f) (hrest : f.rest ≠ []) :
    ∃ chunk, chunkAt c = (.ok chunk, c) ∧ c.chunks[c.chunkIdx]? = some chunk ∧ c.chunkOff <
    chunk.length ∧
      ∃ later, f.rest = chunk.drop c.chunkOff ++ later := by
  rw [FlatBuffer.rest, ← h.bytes] at hrest
  obtain ⟨chunk, hchunk, hoff⟩ := h.cursor.of_drop_ne_nil hrest
  refine ⟨chunk, ?_, hchunk, hoff, (c.chunks.drop (c.chunkIdx + 1)).flatten, ?_⟩
  · rw [chunkAt, Fallible.get_bind, hchunk]
    rfl
  · rw [FlatBuffer.rest, ← h.bytes, h.cursor.drop_flatten hchunk hoff.le]

/-- The end of a pull. -/
theorem advance (h : Refines c f) {chunk : List UInt8} (hchunk : c.chunks[c.chunkIdx]? = some chunk)
    (hoff : c.chunkOff + n ≤ chunk.length) (hn : n ≤ f.rest.length) :
    Refines (advance chunk.length n c) (f.advance n hn) := by
  have hcursor := h.cursor.advance h.nonempty hchunk hoff
  have hpos : c.pos + n = ((f.pos + n : ℕ) : ℤ) := by rw [h.pos, Nat.cast_add]
  rw [StreamChain.advance]
  split
  · rename_i hend
    rw [if_pos hend] at hcursor
    exact ⟨h.nonempty, h.bytes, h.total, hcursor, hpos, h.saved, h.savePos⟩
  · rename_i hend
    rw [if_neg hend] at hcursor
    exact ⟨h.nonempty, h.bytes, h.total, hcursor, hpos, h.saved, h.savePos⟩

/-! ## Bytes -/

/-- The loop of `pull_bytes` takes what is left, however many chunks it is in. -/
theorem pullLoop_spec {fuel left : ℕ} (h : Refines c f) (hleft : left ≤ f.rest.length)
    (hfuel : 0 < fuel)
    (hchunks : left ≠ 0 → c.chunks.length - c.chunkIdx < fuel) :
    ∃ c', pullLoop fuel left c = (.ok (f.rest.take left), c') ∧
    Refines c' (f.advance left hleft) := by
  induction fuel generalizing left c f with
  | zero => exact absurd hfuel (lt_irrefl _)
  | succ fuel ih =>
    rw [pullLoop]
    by_cases hzero : left = 0
    · subst hzero
      exact ⟨c, rfl, h⟩
    · obtain ⟨chunk, hat, hchunk, hoff, later, hrest⟩ := h.at_chunk (by
        rintro hnil
        rw [hnil] at hleft
        exact hzero (Nat.le_zero.1 hleft))
      have hidx := (List.getElem?_eq_some_iff.1 hchunk).1
      have hfuel' := hchunks hzero
      rw [if_neg hzero, Fallible.bind_ok hat, Fallible.get_bind]
      obtain ⟨take, htake⟩ : ∃ take, take = min left (chunk.length - c.chunkOff) := ⟨_, rfl⟩
      have htake_le : take ≤ f.rest.length := by omega
      have hadv := h.advance (n := take) hchunk (by omega) htake_le
      have hleft' : left - take ≤ (f.advance take htake_le).rest.length := by
        rw [FlatBuffer.rest_advance, List.length_drop]
        omega
      obtain ⟨c', hloop, hc'⟩ := ih hadv hleft' (by omega) (by
        intro hmore
        -- what is left after a step is behind the end of the chunk
        have hend : chunk.length ≤ c.chunkOff + take := by omega
        rw [StreamChain.advance, if_pos hend]
        show c.chunks.length - (c.chunkIdx + 1) < fuel
        omega)
      rw [← htake, Fallible.modify_bind, Fallible.bind_ok hloop]
      refine ⟨c', ?_, ?_⟩
      · rw [Fallible.pure_apply, FlatBuffer.rest_advance]
        have hhead : (chunk.drop c.chunkOff).take take = f.rest.take take := by
          rw [hrest, List.take_append_of_le_length (by rw [List.length_drop]; omega)]
        rw [hhead, ← List.take_add, Nat.add_sub_cancel' (by omega)]
      · rwa [FlatBuffer.advance_advance htake_le hleft' hleft (by omega)] at hc'

theorem pullBytes_of_le (h : Refines c f) (hn : n ≤ f.rest.length) :
    ∃ c', pullBytes n c = (.ok (f.rest.take n), c') ∧ Refines c' (f.advance n hn) := by
  have havail := h.avail
  rw [pullBytes, Fallible.get_bind, if_neg (by omega), if_neg (by omega), Int.toNat_natCast]
  by_cases hzero : n = 0
  · subst hzero
    exact ⟨c, rfl, h⟩
  · obtain ⟨chunk, hat, hchunk, hoff, later, hrest⟩ := h.at_chunk (by
      rintro hnil
      rw [hnil] at hn
      exact hzero (Nat.le_zero.1 hn))
    rw [if_neg (by exact_mod_cast hzero), Fallible.bind_ok hat]
    split
    · rename_i hfast
      refine ⟨StreamChain.advance chunk.length n c, ?_, h.advance hchunk (by omega) hn⟩
      rw [Fallible.modify_bind, Fallible.pure_apply, hrest,
        List.take_append_of_le_length (by rw [List.length_drop]; omega)]
    · exact h.pullLoop_spec hn (Nat.succ_pos _) fun _ => by omega

theorem pullBytes_of_lt (h : Refines c f) (hn : f.rest.length < n) :
    pullBytes n c = (.error (.streamUnderflow f.pos (ssize (f.pos + n))), c) := by
  have havail := h.avail
  rw [pullBytes, Fallible.get_bind, if_neg (by omega), if_pos (by omega), h.pos]
  rfl

/-- A byte of the chunk at the cursor. -/
theorem byteAt_eq {chunk later : List UInt8} (hrest : f.rest = chunk.drop c.chunkOff ++ later)
    {i : ℕ}
    (hi : c.chunkOff + i < chunk.length) {b : UInt8} (hb : f.rest[i]? = some b) (s : StreamChain) :
    byteAt chunk c.chunkOff i s = (.ok b.toNat, s) := by
  rw [hrest, List.getElem?_append_left (by rw [List.length_drop]; omega), List.getElem?_drop] at hb
  rw [byteAt, hb]
  rfl

end Refines

/-! ## Each function -/

/-- On a chain and the buffer it stands for the two end the same way, and stay so. An underflow
leaves the chain unchanged. -/
def Meets {α : Type} (x : StreamChain.Op α) (y : FlatBuffer.Op α) : Prop :=
  ∀ c f, Refines c f → (x c).1 = (y f).1 ∧ Refines (x c).2 (y f).2 ∧
    ∀ pos needed, (x c).1 = .error (.streamUnderflow pos needed) → (x c).2 = c

namespace Meets

open StreamChain

variable {α : Type} {x : Op α} {y : FlatBuffer.Op α} {c c' : StreamChain} {f f' : FlatBuffer}
    {a : α} {e : Raise}

theorem simulates (h : Meets x y) : Fallible.Simulates Refines x y := by
  intro c f hcf
  obtain ⟨hres, hrel, -⟩ := h c f hcf
  exact ⟨hres, hrel⟩

theorem of_ok (hx : x c = (.ok a, c')) (hy : y f = (.ok a, f')) (h : Refines c' f') :
    (x c).1 = (y f).1 ∧ Refines (x c).2 (y f).2 ∧
      ∀ pos needed, (x c).1 = .error (.streamUnderflow pos needed) → (x c).2 = c := by
  rw [hx, hy]
  exact ⟨rfl, h, nofun⟩

theorem of_error (hx : x c = (.error e, c)) (hy : y f = (.error e, f)) (h : Refines c f) :
    (x c).1 = (y f).1 ∧ Refines (x c).2 (y f).2 ∧
      ∀ pos needed, (x c).1 = .error (.streamUnderflow pos needed) → (x c).2 = c := by
  rw [hx, hy]
  exact ⟨rfl, h, fun _ _ _ => rfl⟩

theorem pullBytes (n : ℤ) : Meets (pullBytes n) (FlatBuffer.pullBytes n) := by
  intro c f h
  rcases lt_or_ge n 0 with hneg | hnonneg
  · exact of_error (by rw [StreamChain.pullBytes, Fallible.get_bind, if_pos hneg]; rfl)
      (by rw [FlatBuffer.pullBytes, if_pos hneg]; rfl) h
  · lift n to ℕ using hnonneg
    have hflat : FlatBuffer.pullBytes n = FlatBuffer.take n := by
      rw [FlatBuffer.pullBytes, if_neg (by omega), Int.toNat_natCast]
    rw [hflat]
    rcases le_or_gt n f.rest.length with hle | hlt
    · obtain ⟨c', hpull, hc'⟩ := h.pullBytes_of_le hle
      exact of_ok hpull (FlatBuffer.take_of_le hle) hc'
    · exact of_error (h.pullBytes_of_lt hlt) (FlatBuffer.take_of_lt hlt) h

theorem map {β : Type} {x : Op β} {y : FlatBuffer.Op β} (h : Meets x y) (val : β → α) :
    Meets (x >>= fun b => pure (val b)) (y >>= fun b => pure (val b)) := by
  intro c f hcf
  obtain ⟨hres, hrel, hwait⟩ := h c f hcf
  obtain ⟨⟨r, c'⟩, hx⟩ : ∃ p, x c = p := ⟨_, rfl⟩
  obtain ⟨⟨r', f'⟩, hy⟩ : ∃ p, y f = p := ⟨_, rfl⟩
  simp only [hx, hy] at hres hrel hwait
  subst hres
  cases r with
  | ok b =>
    rw [Fallible.bind_ok hx, Fallible.bind_ok hy]
    exact ⟨rfl, hrel, nofun⟩
  | error e =>
    rw [Fallible.bind_error hx, Fallible.bind_error hy]
    exact ⟨rfl, hrel, fun pos needed he => hwait pos needed (by cases he; rfl)⟩

theorem pullUint8 : Meets pullUint8 (FlatBuffer.pullBe 1) := by
  intro c f h
  have havail := h.avail
  rcases le_or_gt 1 f.rest.length with hle | hlt
  · obtain ⟨chunk, hat, hchunk, hoff, later, hrest⟩ := h.at_chunk (List.length_pos_iff.1 hle)
    obtain ⟨b, tail, hb⟩ := List.exists_cons_of_length_pos hle
    refine of_ok (a := b.toNat) ?_ ?_ (h.advance hchunk hoff hle)
    · rw [StreamChain.pullUint8, Fallible.get_bind, if_neg (by omega), Fallible.bind_ok hat,
        Fallible.bind_ok (Refines.byteAt_eq hrest hoff (by rw [hb]; rfl) c)]
      rfl
    · rw [FlatBuffer.pullBe_of_le hle, hb]
      simp [beValue]
  · refine of_error ?_ (FlatBuffer.pullBe_of_lt hlt) h
    rw [StreamChain.pullUint8, Fallible.get_bind, if_pos (by omega), h.pos]
    rfl

theorem pullUintN (n : ℕ) (hn : 0 < n) : Meets (pullUintN n) (FlatBuffer.pullBe n) := by
  intro c f h
  have havail := h.avail
  rcases le_or_gt n f.rest.length with hle | hlt
  · obtain ⟨chunk, hat, hchunk, hoff, later, hrest⟩ := h.at_chunk (List.length_pos_iff.1 (by omega))
    have hx : StreamChain.pullUintN n c =
        (if n ≤ chunk.length - c.chunkOff then do
          modify (StreamChain.advance chunk.length n)
          pure (beFrom 0 ((chunk.drop c.chunkOff).take n))
        else do
          let raw ← StreamChain.pullBytes n
          pure (beFrom 0 raw)) c := by
      rw [StreamChain.pullUintN, Fallible.get_bind, if_neg (by omega), Fallible.bind_ok hat]
    by_cases hfast : n ≤ chunk.length - c.chunkOff
    · refine of_ok ?_ (FlatBuffer.pullBe_of_le hle) (h.advance hchunk (by omega) hle)
      rw [hx, if_pos hfast, Fallible.modify_bind, Fallible.pure_apply, beFrom_zero, hrest,
        List.take_append_of_le_length (by rw [List.length_drop]; omega)]
    · obtain ⟨c', hpull, hc'⟩ := h.pullBytes_of_le hle
      refine of_ok ?_ (FlatBuffer.pullBe_of_le hle) hc'
      rw [hx, if_neg hfast, Fallible.bind_ok hpull, Fallible.pure_apply, beFrom_zero]
  · refine of_error ?_ (FlatBuffer.pullBe_of_lt hlt) h
    rw [StreamChain.pullUintN, Fallible.get_bind, if_pos (by omega), h.pos]
    rfl

theorem pullUintVar : Meets pullUintVar FlatBuffer.pullUintVar := by
  intro c f h
  have havail := h.avail
  rcases hf : f.rest with _ | ⟨first, later⟩
  · have hlen : f.rest.length = 0 := by rw [hf]; rfl
    refine of_error ?_ (FlatBuffer.pullPrefixed_nil hf) h
    rw [StreamChain.pullUintVar, Fallible.get_bind, if_pos (by omega), h.pos]
    rfl
  · obtain ⟨chunk, hat, hchunk, hoff, behind, hrest⟩ :=
      h.at_chunk (by rw [hf]; exact List.cons_ne_nil _ _)
    have hlen : f.rest.length = later.length + 1 := by rw [hf]; rfl
    have hfirst : byteAt chunk c.chunkOff 0 c = (.ok first.toNat, c) :=
      Refines.byteAt_eq hrest hoff (by rw [hf]; rfl) c
    have hsize : 1 <<< (first.toNat >>> 6) = 2 ^ (first.toNat / 64) := by
      rw [Nat.one_shiftLeft, Nat.shiftRight_eq_div_pow]
    have hhead : first.toNat &&& 0x3F = first.toNat % 64 := Nat.and_two_pow_sub_one_eq_mod
      first.toNat 6
    obtain ⟨size, hsize'⟩ : ∃ size, 2 ^ (first.toNat / 64) = size := ⟨_, rfl⟩
    rw [hsize'] at hsize
    rw [StreamChain.pullUintVar, Fallible.get_bind, if_neg (by omega), Fallible.bind_ok hat,
      Fallible.bind_ok hfirst,
      hsize, hhead]
    rcases lt_or_ge f.rest.length size with hlt | hle
    · refine of_error ?_ (FlatBuffer.pullPrefixed_of_lt hf (hsize' ▸ hlt)) h
      rw [if_pos (by omega), h.pos, hsize']
      rfl
    · have hsizes : size = 1 ∨ size = 2 ∨ size = 4 ∨ size = 8 := by
        have hbyte := first.toNat_lt
        have hquot : first.toNat / 64 = 0 ∨ first.toNat / 64 = 1 ∨ first.toNat / 64 = 2 ∨
          first.toNat / 64 = 3 := by
          omega
        rcases hquot with hquot | hquot | hquot | hquot <;> rw [hquot] at hsize' <;> omega
      have hraw : f.rest.take size = first :: later.take (size - 1) := by
        rw [hf, List.take_cons (by omega)]
      have hflat : FlatBuffer.pullUintVar f =
          (.ok (beFrom (first.toNat % 64) (later.take (size - 1))), f.advance size hle) := by
        subst hsize'
        rw [FlatBuffer.pullUintVar, FlatBuffer.pullPrefixed_of_le hf hle hraw, beFrom_eq]
        rfl
      rw [if_neg (by omega)]
      by_cases hone : size = 1
      · subst hone
        exact of_ok (by rw [if_pos rfl]; rfl) hflat (h.advance hchunk hoff hle)
      · rw [if_neg hone]
        by_cases hfast : size ≤ chunk.length - c.chunkOff
        · have hadv := h.advance hchunk (n := size) (by omega) hle
          have hbyte : ∀ {i b}, i < size → f.rest[i]? = some b → byteAt chunk c.chunkOff i c =
            (.ok b.toNat, c) :=
            fun hi hb => Refines.byteAt_eq hrest (by omega) hb c
          rw [if_pos hfast]
          rcases hsizes with rfl | rfl | rfl | rfl
          · exact absurd rfl hone
          · obtain ⟨b1, tail, rfl⟩ : ∃ b1 tail, later = b1 :: tail := by
              match later, hlen with
              | b1 :: tail, _ => exact ⟨b1, tail, rfl⟩
              | [], hlen => simp at hlen; omega
            rw [Fallible.bind_ok (hbyte (by decide) (by rw [hf]; rfl)), if_pos rfl]
            exact of_ok rfl hflat hadv
          · obtain ⟨b1, b2, b3, tail, rfl⟩ : ∃ b1 b2 b3 tail, later = b1 :: b2 :: b3 :: tail := by
              match later, hlen with
              | b1 :: b2 :: b3 :: tail, _ => exact ⟨b1, b2, b3, tail, rfl⟩
              | [], hlen | [_], hlen | [_, _], hlen => simp at hlen; omega
            rw [Fallible.bind_ok (hbyte (by decide) (by rw [hf]; rfl)), if_neg (by decide),
              Fallible.bind_ok (hbyte (by decide) (by rw [hf]; rfl)),
              Fallible.bind_ok (hbyte (by decide) (by rw [hf]; rfl)), if_pos rfl]
            refine of_ok ?_ hflat hadv
            rw [Fallible.modify_bind, Fallible.pure_apply]
            simp [beFrom_cons, beFrom_nil, Nat.shiftLeft_or_distrib, ← Nat.shiftLeft_add]
          · obtain ⟨b1, b2, b3, b4, b5, b6, b7, tail, rfl⟩ :
                ∃ b1 b2 b3 b4 b5 b6 b7 tail, later = b1 :: b2 :: b3 :: b4 :: b5 :: b6 :: b7
                  :: tail := by
              match later, hlen with
              | b1 :: b2 :: b3 :: b4 :: b5 :: b6 :: b7 :: tail, _ =>
                  exact ⟨b1, b2, b3, b4, b5, b6, b7, tail, rfl⟩
              | [], hlen | [_], hlen | [_, _], hlen | [_, _, _], hlen | [_, _, _, _], hlen
              | [_, _, _, _, _], hlen | [_, _, _, _, _, _], hlen => simp at hlen; omega
            rw [Fallible.bind_ok (hbyte (by decide) (by rw [hf]; rfl)), if_neg (by decide),
              Fallible.bind_ok (hbyte (by decide) (by rw [hf]; rfl)),
              Fallible.bind_ok (hbyte (by decide) (by rw [hf]; rfl)), if_neg (by decide),
              Fallible.bind_ok (hbyte (by decide) (by rw [hf]; rfl)),
              Fallible.bind_ok (hbyte (by decide) (by rw [hf]; rfl)),
              Fallible.bind_ok (hbyte (by decide) (by rw [hf]; rfl)),
              Fallible.bind_ok (hbyte (by decide) (by rw [hf]; rfl))]
            refine of_ok ?_ hflat hadv
            rw [Fallible.modify_bind, Fallible.pure_apply]
            simp [beFrom_cons, beFrom_nil, Nat.shiftLeft_or_distrib, ← Nat.shiftLeft_add]
        · obtain ⟨c', hpull, hc'⟩ := h.pullBytes_of_le hle
          refine of_ok ?_ hflat hc'
          rw [if_neg hfast, Fallible.bind_ok hpull, Fallible.pure_apply, hraw, List.headD_cons,
            List.tail_cons]
          exact congrArg (fun n => (Except.ok (beFrom n _), c')) hhead

theorem pullUintVi64 : Meets pullUintVi64 FlatBuffer.pullUintVi64 := by
  intro c f h
  have havail := h.avail
  rcases hf : f.rest with _ | ⟨first, later⟩
  · have hlen : f.rest.length = 0 := by rw [hf]; rfl
    refine of_error ?_ (FlatBuffer.pullPrefixed_nil hf) h
    rw [StreamChain.pullUintVi64, Fallible.get_bind, if_pos (by omega), h.pos]
    rfl
  · obtain ⟨chunk, hat, hchunk, hoff, behind, hrest⟩ :=
      h.at_chunk (by rw [hf]; exact List.cons_ne_nil _ _)
    have hlen : f.rest.length = later.length + 1 := by rw [hf]; rfl
    have hfirst : byteAt chunk c.chunkOff 0 c = (.ok first.toNat, c) :=
      Refines.byteAt_eq hrest hoff (by rw [hf]; rfl) c
    rw [StreamChain.pullUintVi64, Fallible.get_bind, if_neg (by omega), Fallible.bind_ok hat,
      Fallible.bind_ok hfirst,
      UInt8.ofNat_toNat]
    rcases lt_or_ge f.rest.length (leadingOnes first + 1) with hlt | hle
    · refine of_error ?_ (FlatBuffer.pullPrefixed_of_lt hf hlt) h
      rw [if_pos (by omega), h.pos]
      rfl
    · obtain ⟨c', hpull, hc'⟩ := h.pullBytes_of_le hle
      rw [Nat.cast_add, Nat.cast_one] at hpull
      refine of_ok ?_ (FlatBuffer.pullPrefixed_of_le hf hle rfl) hc'
      rw [if_neg (by omega), Fallible.bind_ok hpull, Fallible.pure_apply, beFrom_eq, hf,
        List.take_succ_cons,
        List.headD_cons, and_mask_eq (leadingOnes_le first)]

theorem pullUint64 : Meets pullUint64 (FlatBuffer.pullBe 8) := by
  intro c f h
  have hflat : FlatBuffer.pullBe 8 = FlatBuffer.pullBytes (8 : ℕ) >>= fun raw =>
    pure (beValue raw) := rfl
  have hchain : StreamChain.pullUint64 = StreamChain.pullBytes (8 : ℕ) >>= fun raw =>
    pure (beValue raw) := by
    simp only [StreamChain.pullUint64, fromBytes, beFrom_zero]
    rfl
  rw [hflat, hchain]
  exact (pullBytes 8).map beValue c f h

theorem pullUint (n : Int32) : Meets (pullUint n) (FlatBuffer.pullUint n) := by
  rw [StreamChain.pullUint]
  split
  · subst n
    exact pullUint8
  split
  · subst n
    exact pullUintN 2 (by decide)
  split
  · subst n
    exact pullUintN 4 (by decide)
  split
  · subst n
    exact pullUint64
  · simp only [fromBytes, beFrom_zero]
    exact (pullBytes n.toInt).map beValue

/-! ## The state -/

theorem extend (data : List UInt8) : Meets (extend data) (FlatBuffer.extend data) := by
  intro c f h
  by_cases hdata : data = []
  · subst hdata
    have happend : f.append [] = f := by
      ext1
      · exact List.append_nil _
      · rfl
      · rfl
    have hflat : FlatBuffer.extend [] f = (.ok (), f) := by
      rw [FlatBuffer.extend, Fallible.modify_apply, happend]
    exact of_ok (by rw [StreamChain.extend, if_pos rfl]; rfl) hflat h
  · refine of_ok (by rw [StreamChain.extend, if_neg hdata]; rfl) rfl ?_
    refine ⟨?_, ?_, ?_, h.cursor.append hdata, h.pos, h.saved.append hdata, h.savePos⟩
    · intro chunk hchunk
      rcases List.mem_append.1 hchunk with hold | hnew
      · exact h.nonempty chunk hold
      · rwa [List.mem_singleton.1 hnew]
    · simp [FlatBuffer.append, h.bytes]
    · simp [FlatBuffer.append, h.total]

theorem capacity : Meets capacity FlatBuffer.capacity :=
  fun _ _ h => of_ok rfl (by rw [h.total]; rfl) h

theorem len : Meets len FlatBuffer.len :=
  fun _ _ h => of_ok rfl (by rw [h.avail]; rfl) h

theorem tell : Meets tell FlatBuffer.tell :=
  fun _ _ h => of_ok rfl (by rw [h.pos]; rfl) h

theorem save : Meets save FlatBuffer.save :=
  fun _ _ h => of_ok rfl rfl ⟨h.nonempty, h.bytes, h.total, h.cursor, h.pos, h.cursor, h.pos⟩

theorem rollback : Meets rollback FlatBuffer.rollback :=
  fun _ _ h => of_ok rfl rfl ⟨h.nonempty, h.bytes, h.total, h.saved, h.savePos, h.saved, h.savePos⟩

theorem seek (pos : ℤ) : Meets (seek pos) (FlatBuffer.seek pos) := by
  intro c f h
  have htotal := h.total
  by_cases hrange : 0 ≤ pos ∧ pos ≤ f.bytes.length
  · have hseek : ∀ idx off, (locate c.chunks pos.toNat).getD (c.chunks.length, 0) = (idx, off) →
        StreamChain.seek pos c = (.ok (), { c with chunkIdx := idx, chunkOff := off, pos }) := by
      intro idx off hfound
      rw [StreamChain.seek, Fallible.get_bind, if_neg (by omega), hfound]
      rfl
    have hflat :
      FlatBuffer.seek pos f = (.ok (), { f with pos := pos.toNat, pos_le := by omega }) := by
      rw [FlatBuffer.seek, Fallible.get_bind, dif_pos hrange]
      rfl
    have hcursor : ∃ idx off, (locate c.chunks pos.toNat).getD (c.chunks.length, 0) = (idx, off) ∧
        Cursor c.chunks idx off pos.toNat := by
      rcases lt_or_ge pos.toNat c.chunks.flatten.length with hin | hend
      · obtain ⟨idx, off, hfound, hcur⟩ := Cursor.of_locate hin
        exact ⟨idx, off, by rw [hfound]; rfl, hcur⟩
      · have hlast := Cursor.last c.chunks
        have hpos : c.chunks.flatten.length = pos.toNat := by
          rw [h.bytes] at hend ⊢
          omega
        exact ⟨c.chunks.length, 0, by rw [Cursor.locate_eq_none hend]; rfl, hpos ▸ hlast⟩
    obtain ⟨idx, off, hfound, hcur⟩ := hcursor
    exact of_ok (hseek idx off hfound) hflat
      ⟨h.nonempty, h.bytes, h.total, hcur, (Int.toNat_of_nonneg hrange.1).symm, h.saved, h.savePos⟩
  · refine of_error (e := .seekRange pos f.bytes.length) ?_ ?_ h
    · rw [StreamChain.seek, Fallible.get_bind, if_pos (by omega), htotal]
      rfl
    · rw [FlatBuffer.seek, Fallible.get_bind, dif_neg hrange]
      rfl

/-- The loop of `commit` drops the chunks behind the cursor. -/
theorem dropChunks_eq {left : ℕ} {c : StreamChain} (hidx : c.chunkIdx = left)
    (hleft : left ≤ c.chunks.length) :
    dropChunks left c = (.ok (),
      { c with
        chunks := c.chunks.drop left
        total := c.total - (c.chunks.take left).flatten.length
        pos := c.pos - (c.chunks.take left).flatten.length
        chunkIdx := 0 }) := by
  induction left generalizing c with
  | zero =>
    obtain ⟨chunks, idx, off, pos, total, saveIdx, saveOff, savePos⟩ := c
    cases hidx
    simp [dropChunks]
  | succ left ih =>
    obtain ⟨chunks, idx, off, pos, total, saveIdx, saveOff, savePos⟩ := c
    obtain ⟨old, rest, rfl⟩ := List.exists_cons_of_length_pos (Nat.zero_lt_of_lt hleft)
    rw [dropChunks, Fallible.get_bind]
    simp only [Fallible.modify_bind]
    rw [ih rfl (Nat.le_of_succ_le_succ hleft)]
    simp only [List.drop_succ_cons, List.take_succ_cons, List.flatten_cons, List.length_append,
      Nat.cast_add, sub_sub]

/-- With the cursor in the first chunk, what is before it is cut off. -/
theorem trim_spec {c : StreamChain} (hidx : c.chunkIdx = 0) (hne : ∀ chunk ∈ c.chunks, chunk ≠ [])
    (hin : (∃ chunk, c.chunks[0]? = some chunk ∧ c.chunkOff < chunk.length) ∨ c.chunks = [] ∧
    c.chunkOff = 0) :
    (trim c).chunks.flatten = c.chunks.flatten.drop c.chunkOff ∧
    (∀ chunk ∈ (trim c).chunks, chunk ≠ []) ∧
      (trim c).total = c.total - c.chunkOff ∧ (trim c).pos = c.pos - c.chunkOff ∧
      (trim c).chunkIdx = 0 ∧
      (trim c).chunkOff = 0 := by
  obtain ⟨chunks, idx, off, pos, total, saveIdx, saveOff, savePos⟩ := c
  cases hidx
  rcases hin with ⟨first, hfirst, hoff⟩ | ⟨hnil, hoff⟩
  · obtain ⟨rest, rfl⟩ : ∃ rest, chunks = first :: rest := by
      cases chunks with
      | nil => cases hfirst
      | cons chunk rest => exact ⟨rest, by rw [Option.some.inj hfirst]⟩
    by_cases hzero : off = 0
    · subst hzero
      simpa [trim] using hne
    · have hdrop : first.drop off ≠ [] := by
        rw [Ne, List.drop_eq_nil_iff]
        exact not_le.2 hoff
      have htrim : trim ⟨first :: rest, 0, off, pos, total, saveIdx, saveOff, savePos⟩ =
          ⟨first.drop off :: rest, 0, 0, pos - off, total - off, saveIdx, saveOff, savePos⟩ :=
        if_pos (Nat.pos_of_ne_zero hzero)
      rw [htrim]
      refine ⟨?_, ?_, rfl, rfl, rfl, rfl⟩
      · rw [List.flatten_cons, List.flatten_cons, List.drop_append_of_le_length (le_of_lt hoff)]
      · intro chunk hchunk
        rcases List.mem_cons.1 hchunk with rfl | hold
        · exact hdrop
        · exact hne chunk (List.mem_cons_of_mem _ hold)
  · simp only at hnil hoff
    subst hnil hoff
    simp [trim]

theorem commit : Meets commit FlatBuffer.commit := by
  intro c f h
  have hcursor := h.cursor
  have hidx : c.chunkIdx ≤ c.chunks.length := by
    rcases hcursor.inside with ⟨chunk, hchunk, -⟩ | ⟨hend, -⟩
    · exact (List.getElem?_eq_some_iff.1 hchunk).1.le
    · exact hend.le
  have hpos := hcursor.pos_eq
  have hrest := f.pos_add_length_rest
  have htotal := h.total
  have hcpos := h.pos
  have hbytes : f.rest = (c.chunks.drop c.chunkIdx).flatten.drop c.chunkOff := by
    rw [FlatBuffer.rest, ← h.bytes, hcursor.drop_eq]
  obtain ⟨dropped, hdropped⟩ : ∃ dropped, dropped =
      { c with
        chunks := c.chunks.drop c.chunkIdx
        total := c.total - (c.chunks.take c.chunkIdx).flatten.length
        pos := c.pos - (c.chunks.take c.chunkIdx).flatten.length
        chunkIdx := 0 } := ⟨_, rfl⟩
  have hloop : dropChunks c.chunkIdx c = (.ok (), dropped) := hdropped ▸ dropChunks_eq rfl hidx
  obtain ⟨hflat, hne, htot, htrimmed, hidx0, hoff0⟩ := trim_spec (c := dropped) (by rw [hdropped])
    (by
      intro chunk hchunk
      rw [hdropped] at hchunk
      exact h.nonempty chunk (List.mem_of_mem_drop hchunk))
    (by
      rw [hdropped]
      exact hcursor.first)
  have hchain : StreamChain.commit c =
      (.ok (), { trim dropped with saveChunkIdx := 0, saveChunkOff := 0, savePos := 0 }) := by
    rw [StreamChain.commit, Fallible.get_bind, Fallible.bind_ok hloop, Fallible.modify_bind,
      Fallible.modify_apply]
  have hcommit : FlatBuffer.commit f = (.ok (), ⟨f.rest, 0, 0, Nat.zero_le _, Nat.zero_le _⟩) := rfl
  rw [hdropped] at htot htrimmed
  simp only at htot htrimmed
  refine of_ok hchain hcommit ⟨hne, ?_, ?_, ?_, ?_, Cursor.zero hne, rfl⟩
  · rw [hflat, hbytes, hdropped]
  · rw [hdropped, htot]
    push_cast
    omega
  · show Cursor (trim dropped).chunks (trim dropped).chunkIdx (trim dropped).chunkOff 0
    rw [hidx0, hoff0]
    exact Cursor.zero hne
  · rw [hdropped, htrimmed]
    push_cast
    omega

/-- The loop of `data_slice`. -/
theorem slice_eq {chunks : List (List UInt8)} {off left : ℕ} (c : StreamChain)
    (hoff : off = 0 ∨ ∃ chunk, chunks[0]? = some chunk ∧ off ≤ chunk.length)
    (hleft : off + left ≤ chunks.flatten.length) :
    slice chunks off left c = (.ok ((chunks.flatten.drop off).take left), c) := by
  induction chunks generalizing off left with
  | nil =>
    obtain rfl : left = 0 := by
      rw [List.flatten_nil, List.length_nil] at hleft
      omega
    rfl
  | cons chunk rest ih =>
    have hin : off ≤ chunk.length := by
      rcases hoff with rfl | ⟨first, hfirst, hle⟩
      · exact Nat.zero_le _
      · rwa [← Option.some.inj hfirst] at hle
    rw [List.flatten_cons, List.length_append] at hleft
    rcases left with _ | left
    · rfl
    · have hloop := @ih 0 (left + 1 - min (left + 1) (chunk.length - off)) (Or.inl rfl) (by omega)
      rw [slice, Fallible.bind_ok hloop, Fallible.pure_apply, List.drop_zero, List.flatten_cons,
        List.drop_append_of_le_length hin]
      have htake : (chunk.drop off ++ rest.flatten).take (left + 1) =
          (chunk.drop off).take (left + 1) ++ rest.flatten.take
            (left + 1 - (chunk.drop off).length) :=
        List.take_append
      have hmin : left + 1 - min (left + 1) (chunk.length - off) = left + 1 -
        (chunk.length - off) := by omega
      rw [htake, List.length_drop, hmin, ← List.length_drop, ← List.take_eq_take_min]

theorem dataSlice (start stop : ℤ) :
    Meets (dataSlice start stop) (FlatBuffer.dataSlice start stop) := by
  intro c f h
  have htotal := h.total
  have hbytes := h.bytes
  by_cases hrange : start < 0 ∨ c.total < stop ∨ stop < start
  · refine of_error (e := .dataSliceRange start stop f.bytes.length) ?_ ?_ h
    · rw [StreamChain.dataSlice, Fallible.get_bind, if_pos hrange, htotal]
      rfl
    · rw [FlatBuffer.dataSlice, Fallible.get_bind, if_pos (htotal ▸ hrange)]
      rfl
  · have hflat : FlatBuffer.dataSlice start stop f =
        (.ok ((f.bytes.drop start.toNat).take (stop - start).toNat), f) := by
      rw [FlatBuffer.dataSlice, Fallible.get_bind, if_neg (htotal ▸ hrange)]
      rfl
    refine of_ok ?_ hflat h
    rw [StreamChain.dataSlice, Fallible.get_bind, if_neg hrange]
    by_cases hempty : start = stop
    · rw [if_pos hempty, hempty, sub_self]
      rfl
    · have hstart : start.toNat < c.chunks.flatten.length := by
        rw [hbytes]
        omega
      obtain ⟨idx, off, hfound, hcur⟩ := Cursor.of_locate hstart
      have hdrop : f.bytes.drop start.toNat = (c.chunks.drop idx).flatten.drop off := by
        rw [← hbytes, hcur.drop_eq]
      have hlen : (f.bytes.drop start.toNat).length =
        ((c.chunks.drop idx).flatten.drop off).length :=
        congrArg List.length hdrop
      rw [List.length_drop, List.length_drop] at hlen
      have hslice : slice (c.chunks.drop idx) off (stop - start).toNat c = _ := slice_eq c
        (hcur.first.symm.imp And.right fun ⟨chunk, hchunk, hoff⟩ => ⟨chunk, hchunk, hoff.le⟩)
          (by omega)
      rw [if_neg hempty, hfound, hdrop, ← hslice]
      rfl

end Meets

/-! ## New chains -/

/-- A buffer that is not read yet. -/
def FlatBuffer.ofBytes (bytes : List UInt8) : FlatBuffer :=
  ⟨bytes, 0, 0, Nat.zero_le _, Nat.zero_le _⟩

/-- A new chain that is given some chunks. -/
def StreamChain.ofChunks (chunks : List (List UInt8)) : StreamChain :=
  (Fallible.runAll StreamChain.extend chunks {}).2

theorem ofChunks_refines (chunks : List (List UInt8)) :
    Refines (StreamChain.ofChunks chunks) (FlatBuffer.ofBytes chunks.flatten) := by
  have hflat : ∀ bytes, (Fallible.runAll FlatBuffer.extend chunks (.ofBytes bytes)).2 =
      .ofBytes (bytes ++ chunks.flatten) := by
    induction chunks with
    | nil =>
      intro bytes
      rw [List.flatten_nil, List.append_nil]
      rfl
    | cons chunk rest ih =>
      intro bytes
      rw [List.flatten_cons, ← List.append_assoc]
      exact ih (bytes ++ chunk)
  have hrun := Fallible.Simulates.runAll (fun data => (Meets.extend data).simulates) chunks {}
    FlatBuffer.empty
    Refines.start
  exact hflat [] ▸ hrun.2

/-! ## Runs -/

/-- A call of one of the functions. -/
inductive ChainCall
  | extend (data : List UInt8)
  | pullBytes (n : ℤ)
  | pullUint8
  | pullUint16
  | pullUint32
  | pullUint64
  | pullUint (n : Int32)
  | pullUintVar
  | pullUintVi64
  | seek (pos : ℤ)
  | save
  | rollback
  | commit
  | dataSlice (start stop : ℤ)
  | tell
  | len
  | capacity
  deriving DecidableEq, Repr

/-- What a call returns. -/
inductive ChainValue
  | none
  | bytes (data : List UInt8)
  | number (n : ℤ)
  deriving DecidableEq, Repr

namespace ChainCall

def onChain : ChainCall → StreamChain.Op ChainValue
  | extend data => StreamChain.extend data >>= fun _ => pure .none
  | pullBytes n => StreamChain.pullBytes n >>= fun data => pure (.bytes data)
  | pullUint8 => StreamChain.pullUint8 >>= fun n => pure (.number n)
  | pullUint16 => StreamChain.pullUint16 >>= fun n => pure (.number n)
  | pullUint32 => StreamChain.pullUint32 >>= fun n => pure (.number n)
  | pullUint64 => StreamChain.pullUint64 >>= fun n => pure (.number n)
  | pullUint n => StreamChain.pullUint n >>= fun n => pure (.number n)
  | pullUintVar => StreamChain.pullUintVar >>= fun n => pure (.number n)
  | pullUintVi64 => StreamChain.pullUintVi64 >>= fun n => pure (.number n)
  | seek pos => StreamChain.seek pos >>= fun _ => pure .none
  | save => StreamChain.save >>= fun _ => pure .none
  | rollback => StreamChain.rollback >>= fun _ => pure .none
  | commit => StreamChain.commit >>= fun _ => pure .none
  | dataSlice start stop => StreamChain.dataSlice start stop >>= fun data => pure (.bytes data)
  | tell => StreamChain.tell >>= fun n => pure (.number n)
  | len => StreamChain.len >>= fun n => pure (.number n)
  | capacity => StreamChain.capacity >>= fun n => pure (.number n)

def onFlat : ChainCall → FlatBuffer.Op ChainValue
  | extend data => FlatBuffer.extend data >>= fun _ => pure .none
  | pullBytes n => FlatBuffer.pullBytes n >>= fun data => pure (.bytes data)
  | pullUint8 => FlatBuffer.pullBe 1 >>= fun n => pure (.number n)
  | pullUint16 => FlatBuffer.pullBe 2 >>= fun n => pure (.number n)
  | pullUint32 => FlatBuffer.pullBe 4 >>= fun n => pure (.number n)
  | pullUint64 => FlatBuffer.pullBe 8 >>= fun n => pure (.number n)
  | pullUint n => FlatBuffer.pullUint n >>= fun n => pure (.number n)
  | pullUintVar => FlatBuffer.pullUintVar >>= fun n => pure (.number n)
  | pullUintVi64 => FlatBuffer.pullUintVi64 >>= fun n => pure (.number n)
  | seek pos => FlatBuffer.seek pos >>= fun _ => pure .none
  | save => FlatBuffer.save >>= fun _ => pure .none
  | rollback => FlatBuffer.rollback >>= fun _ => pure .none
  | commit => FlatBuffer.commit >>= fun _ => pure .none
  | dataSlice start stop => FlatBuffer.dataSlice start stop >>= fun data => pure (.bytes data)
  | tell => FlatBuffer.tell >>= fun n => pure (.number n)
  | len => FlatBuffer.len >>= fun n => pure (.number n)
  | capacity => FlatBuffer.capacity >>= fun n => pure (.number n)

theorem meets (call : ChainCall) : Meets call.onChain call.onFlat := by
  cases call with
  | extend data => exact (Meets.extend data).map _
  | pullBytes n => exact (Meets.pullBytes n).map _
  | pullUint8 => exact Meets.pullUint8.map _
  | pullUint16 => exact (Meets.pullUintN 2 (by decide)).map _
  | pullUint32 => exact (Meets.pullUintN 4 (by decide)).map _
  | pullUint64 => exact Meets.pullUint64.map _
  | pullUint n => exact (Meets.pullUint n).map _
  | pullUintVar => exact Meets.pullUintVar.map _
  | pullUintVi64 => exact Meets.pullUintVi64.map _
  | seek pos => exact (Meets.seek pos).map _
  | save => exact Meets.save.map _
  | rollback => exact Meets.rollback.map _
  | commit => exact Meets.commit.map _
  | dataSlice start stop => exact (Meets.dataSlice start stop).map _
  | tell => exact Meets.tell.map _
  | len => exact Meets.len.map _
  | capacity => exact Meets.capacity.map _

end ChainCall

/-- From an empty chain, whatever the calls are: they end as they do on the flat buffer, the chain
stands for that buffer, its cursor and its anchor are in a chunk or behind the last, and a further
call that underflows changes nothing. -/
theorem chain_refines_flat (calls : List ChainCall) :
    let chain := Fallible.runAll ChainCall.onChain calls {}
    let flat := Fallible.runAll ChainCall.onFlat calls FlatBuffer.empty
    chain.1 = flat.1 ∧ Refines chain.2 flat.2 ∧
      ∀ call : ChainCall, ∀ pos needed, (call.onChain chain.2).1 =
        .error (.streamUnderflow pos needed) →
        (call.onChain chain.2).2 = chain.2 := by
  obtain ⟨hres, hrel⟩ := Fallible.Simulates.runAll (fun call => (ChainCall.meets call).simulates)
    calls {} FlatBuffer.empty Refines.start
  exact ⟨hres, hrel, fun call => (call.meets _ _ hrel).2.2⟩

end Aiopquic
