import Aiopquic.ChainRefines
import Aiopquic.Lib.Steps

/-!
# The sources of the chunks (`_streamchain.pyx`)

A chunk holds the buffer of a source, which `extend` asks for as plain bytes. To cut off the front
of a chunk `commit` goes back to the source and slices it, and a slice counts in the items of the
source. For items of one byte that is what the rest of the chain counts in. For wider ones the cut
is in the wrong place, and the chain loses bytes (`commit_keeps_iff`).
-/

namespace Aiopquic

open Fallible (raise get modify)

/-! ## Sources -/

/-- An object with a contiguous buffer: the size of its items, how many there are in each dimension,
and their bytes. -/
@[ext] structure ChainSource where
  itemSize : ℕ
  shape : List ℕ
  data : List UInt8
  itemSize_pos : 0 < itemSize
  length_eq : data.length = shape.prod * itemSize

namespace ChainSource

/-- A bytes object. -/
def ofBytes (data : List UInt8) : ChainSource := ⟨1, [data.length], data, Nat.one_pos, by simp⟩

/-- `memoryview(src)[start:stop]`, which counts in the first dimension and raises for a scalar. -/
def slice (src : ChainSource) (start stop : ℕ) : Except Raise ChainSource :=
  match h : src.shape with
  | [] => .error .typeError
  | count :: dims =>
    let width := dims.prod * src.itemSize
    let first := min start count
    let last := min stop count
    .ok {
      itemSize := src.itemSize
      shape := (last - first) :: dims
      data := (src.data.drop (first * width)).take ((last - first) * width)
      itemSize_pos := src.itemSize_pos
      length_eq := by
        have hlen := src.length_eq
        have hle : first * width + (last - first) * width ≤ count * width := by
          rw [← Nat.add_mul]
          exact Nat.mul_le_mul_right _ (by omega)
        rw [h, List.prod_cons, Nat.mul_assoc] at hlen
        rw [List.length_take, List.length_drop, hlen, List.prod_cons, Nat.mul_assoc]
        exact min_eq_left (Nat.le_sub_of_add_le' hle) }

theorem slice_scalar {src : ChainSource} (h : src.shape = []) (start stop : ℕ) :
    src.slice start stop = .error .typeError := by
  unfold slice
  split
  · rfl
  · rename_i hcons
    rw [h] at hcons
    cases hcons

/-- A slice to the end leaves out whole items of the first dimension. -/
theorem slice_tail {src : ChainSource} {count : ℕ} {dims : List ℕ} (h : src.shape = count :: dims)
    {stop : ℕ}
    (hstop : count ≤ stop) (start : ℕ) :
    ∃ view, src.slice start stop = .ok view ∧
      view.data = src.data.drop (min start count * (dims.prod * src.itemSize)) := by
  have hlen := src.length_eq
  rw [h, List.prod_cons, Nat.mul_assoc] at hlen
  unfold slice
  split
  · rename_i hnil
    rw [h] at hnil
    cases hnil
  · rename_i count' dims' hcons
    rw [h] at hcons
    obtain ⟨rfl, rfl⟩ := List.cons.inj hcons
    refine ⟨_, rfl, List.take_of_length_le ?_⟩
    rw [List.length_drop, hlen, min_eq_right hstop, Nat.sub_mul]

/-- A slice counts in bytes. -/
def Bytewise (src : ChainSource) : Prop :=
  ∃ count dims, src.shape = count :: dims ∧ dims.prod * src.itemSize = 1

end ChainSource

/-! ## The chain -/

/-- `StreamChain` with the sources of its chunks. -/
structure SourceChain where
  sources : List ChainSource := []
  chunkIdx : ℕ := 0
  chunkOff : ℕ := 0
  pos : ℤ := 0
  total : ℤ := 0
  saveChunkIdx : ℕ := 0
  saveChunkOff : ℕ := 0
  savePos : ℤ := 0

namespace SourceChain

abbrev Op (α : Type) := Fallible SourceChain Raise α

/-- The chain of the buffers, which is what everything but `extend` and `commit` works on. -/
def chain (s : SourceChain) : StreamChain where
  chunks := s.sources.map (·.data)
  chunkIdx := s.chunkIdx
  chunkOff := s.chunkOff
  pos := s.pos
  total := s.total
  saveChunkIdx := s.saveChunkIdx
  saveChunkOff := s.saveChunkOff
  savePos := s.savePos

/-- The functions that leave the chunks as they are. -/
def onChain {α : Type} (x : StreamChain.Op α) : Op α := fun s =>
  let c := (x s.chain).2
  ((x s.chain).1,
    { s with
      chunkIdx := c.chunkIdx
      chunkOff := c.chunkOff
      pos := c.pos
      total := c.total
      saveChunkIdx := c.saveChunkIdx
      saveChunkOff := c.saveChunkOff
      savePos := c.savePos })

/-- `extend`. -/
def extend (src : ChainSource) : Op Unit :=
  if src.data.length = 0 then pure ()
  else modify fun s => { s with sources := s.sources ++ [src], total := s.total + src.data.length }

/-- The loop of `commit`: `left` chunks are behind the cursor. -/
def dropSources : ℕ → Op Unit
  | 0 => pure ()
  | left + 1 => do
    let s ← get
    match s.sources with
    | [] => raise .chunkIndex
    | old :: sources => do
      modify fun s =>
        { s with
          sources
          total := s.total - old.data.length
          pos := s.pos - old.data.length
          chunkIdx := left }
      dropSources left

/-- `commit` behind its loop: the first chunk is made anew from a slice of its source. -/
def trimSource : Op Unit := do
  let s ← get
  match s.sources with
  | [] => pure ()
  | first :: rest =>
    if 0 < s.chunkOff then
      let tailLen : ℤ := first.data.length - s.chunkOff
      match first.slice s.chunkOff (s.chunkOff + tailLen).toNat with
      | .error e => raise e
      | .ok view =>
        modify fun s =>
          { s with
            sources := view :: rest
            total := s.total - s.chunkOff
            pos := s.pos - s.chunkOff
            chunkOff := 0 }
    else pure ()

/-- `commit`. -/
def commit : Op Unit := do
  let s ← get
  dropSources s.chunkIdx
  trimSource
  modify fun s => { s with saveChunkIdx := 0, saveChunkOff := 0, savePos := 0 }

/-! ## Runs -/

/-- The calls that leave the chunks as they are. -/
def reads : ChainCall → Bool
  | .extend _ | .commit => false
  | _ => true

inductive Call
  | extend (src : ChainSource)
  | read (call : ChainCall)
  | commit

/-- A call that raises leaves the chain as it is then. -/
def step (s : SourceChain) : Call → Option SourceChain
  | .extend src => some (extend src s).2
  | .read call => if reads call then some (onChain call.onChain s).2 else none
  | .commit => some (SourceChain.commit s).2

/-- The bytes from the cursor on. -/
def unread (s : SourceChain) : List UInt8 := ((s.sources.drop s.chunkIdx).map (·.data)).flatten.drop
    s.chunkOff

/-- A `commit` returns, and neither loses a byte that is not read yet nor leaves an empty chunk
behind. -/
def KeepsUnread (s : SourceChain) : Call → Prop
  | .commit => (SourceChain.commit s).1 = .ok () ∧ (SourceChain.commit s).2.unread = s.unread ∧
      ∀ src ∈ (SourceChain.commit s).2.sources, src.data ≠ []
  | _ => True

/-- A `commit` has no front to cut off, or one of a source whose slices count in bytes. -/
def CutsBytes (s : SourceChain) : Call → Prop
  | .commit => s.chunkOff = 0 ∨ ∀ src, s.sources[s.chunkIdx]? = some src → src.Bytewise
  | _ => True

/-! ## The calls that leave the chunks -/

/-- A computation leaves the chunks as they are. -/
def Leaves {α : Type} (x : StreamChain.Op α) : Prop := Fallible.Moves
    (fun c c' => c'.chunks = c.chunks) x

namespace Leaves

open StreamChain

variable {α β : Type} {x : StreamChain.Op α}

theorem pure (a : α) : Leaves (pure a) := fun _ => rfl

theorem raise (e : Raise) : Leaves (raise e : StreamChain.Op α) := fun _ => rfl

theorem get : Leaves get := fun _ => rfl

theorem bind {g : α → StreamChain.Op β} (h : Leaves x) (hg : ∀ a, Leaves (g a)) :
    Leaves (x >>= g) :=
  Fallible.Moves.bind (fun _ _ _ h h' => h'.trans h) h hg

theorem ite {p : Prop} [Decidable p] {y : StreamChain.Op α} (h : Leaves x) (h' : Leaves y) :
    Leaves (if p then x else y) := by
  split
  · exact h
  · exact h'

theorem modify {f : StreamChain → StreamChain} (h : ∀ c, (f c).chunks = c.chunks) : Leaves
    (modify f) := h

theorem advance (len n : ℕ) : Leaves (Fallible.modify (StreamChain.advance len n)) := by
  refine modify fun c => ?_
  unfold StreamChain.advance
  dsimp only
  split <;> rfl

theorem chunkAt : Leaves chunkAt := by
  refine get.bind fun c => ?_
  cases c.chunks[c.chunkIdx]? with
  | none => exact raise _
  | some chunk => exact pure _

theorem byteAt (chunk : List UInt8) (off i : ℕ) : Leaves (byteAt chunk off i) := by
  unfold StreamChain.byteAt
  cases chunk[off + i]? with
  | none => exact raise _
  | some b => exact pure _

theorem pullLoop (fuel left : ℕ) : Leaves (pullLoop fuel left) := by
  induction fuel generalizing left with
  | zero => exact raise _
  | succ fuel ih =>
    exact (pure _).ite (chunkAt.bind fun _ => get.bind fun _ => (advance _ _).bind fun _ =>
      (ih _).bind fun _ => pure _)

theorem pullBytes (n : ℤ) : Leaves (pullBytes n) :=
  get.bind fun _ => (raise _).ite ((raise _).ite ((pure _).ite (chunkAt.bind fun _ =>
    ((advance _ _).bind fun _ => pure _).ite (pullLoop _ _))))

theorem pullUint8 : Leaves pullUint8 :=
  get.bind fun _ => (raise _).ite (chunkAt.bind fun _ => (byteAt _ _ _).bind fun _ =>
    (advance _ _).bind fun _ => pure _)

theorem pullUintN (n : ℕ) : Leaves (pullUintN n) :=
  get.bind fun _ => (raise _).ite (chunkAt.bind fun _ =>
    ((advance _ _).bind fun _ => pure _).ite ((pullBytes _).bind fun _ => pure _))

theorem pullUint64 : Leaves pullUint64 := (pullBytes 8).bind fun _ => pure _

theorem pullUint (n : Int32) : Leaves (pullUint n) :=
  pullUint8.ite ((pullUintN 2).ite
    ((pullUintN 4).ite (pullUint64.ite ((pullBytes _).bind fun _ => pure _))))

theorem pullUintVar : Leaves pullUintVar :=
  get.bind fun _ => (raise _).ite (chunkAt.bind fun _ => (byteAt _ _ _).bind fun _ =>
    (raise _).ite (((advance _ _).bind fun _ => pure _).ite
      (((byteAt _ _ _).bind fun _ => ((advance _ _).bind fun _ => pure _).ite
        ((byteAt _ _ _).bind fun _ => (byteAt _ _ _).bind fun _ =>
          ((advance _ _).bind fun _ => pure _).ite
          ((byteAt _ _ _).bind fun _ => (byteAt _ _ _).bind fun _ => (byteAt _ _ _).bind fun _ =>
            (byteAt _ _ _).bind fun _ => (advance _ _).bind fun _ => pure _))).ite
        ((pullBytes _).bind fun _ => pure _))))

theorem pullUintVi64 : Leaves pullUintVi64 :=
  get.bind fun _ => (raise _).ite (chunkAt.bind fun _ => (byteAt _ _ _).bind fun _ =>
    (raise _).ite ((pullBytes _).bind fun _ => pure _))

theorem slice (chunks : List (List UInt8)) (off left : ℕ) : Leaves (slice chunks off left) := by
  induction chunks generalizing off left with
  | nil =>
    cases left with
    | zero => exact pure _
    | succ left => exact raise _
  | cons chunk rest ih =>
    cases left with
    | zero => exact pure _
    | succ left => exact (ih _ _).bind fun _ => pure _

theorem dataSlice (start stop : ℤ) : Leaves (dataSlice start stop) :=
  get.bind fun _ => (raise _).ite ((pure _).ite (slice _ _ _))

theorem seek (pos : ℤ) : Leaves (seek pos) := get.bind fun _ => (raise _).ite (modify fun _ => rfl)

theorem save : Leaves save := modify fun _ => rfl

theorem rollback : Leaves rollback := modify fun _ => rfl

/-- The calls that the chain of the buffers makes alone. -/
theorem onChain {call : ChainCall} (h : reads call = true) : Leaves call.onChain := by
  cases call with
  | extend data => cases h
  | commit => cases h
  | pullBytes n => exact (pullBytes n).bind fun _ => pure _
  | pullUint8 => exact pullUint8.bind fun _ => pure _
  | pullUint16 => exact (pullUintN 2).bind fun _ => pure _
  | pullUint32 => exact (pullUintN 4).bind fun _ => pure _
  | pullUint64 => exact pullUint64.bind fun _ => pure _
  | pullUint n => exact (pullUint n).bind fun _ => pure _
  | pullUintVar => exact pullUintVar.bind fun _ => pure _
  | pullUintVi64 => exact pullUintVi64.bind fun _ => pure _
  | seek pos => exact (seek pos).bind fun _ => pure _
  | save => exact save.bind fun _ => pure _
  | rollback => exact rollback.bind fun _ => pure _
  | dataSlice start stop => exact (dataSlice start stop).bind fun _ => pure _
  | tell => exact (get.bind fun _ => pure _).bind fun _ => pure _
  | len => exact (get.bind fun _ => pure _).bind fun _ => pure _
  | capacity => exact (get.bind fun _ => pure _).bind fun _ => pure _

end Leaves

/-! ## The chain stays in order -/

/-- The chain of the buffers stands for a flat buffer. -/
def Ordered (s : SourceChain) : Prop := ∃ f, Refines s.chain f

variable {s s' : SourceChain}

theorem empty_ordered : Ordered {} := ⟨_, Refines.start⟩

theorem chain_extend (src : ChainSource) (s : SourceChain) :
    (extend src s).2.chain = (StreamChain.extend src.data s.chain).2 := by
  rw [extend, StreamChain.extend]
  by_cases hnil : src.data = []
  · rw [if_pos hnil, if_pos (List.length_eq_zero_iff.2 hnil)]
    rfl
  · rw [if_neg hnil, if_neg (mt List.length_eq_zero_iff.1 hnil)]
    show StreamChain.mk ((s.sources ++ [src]).map (·.data)) .. = _
    rw [List.map_append]
    rfl

theorem chain_onChain {call : ChainCall} (h : reads call = true) (s : SourceChain) :
    (onChain call.onChain s).2.chain = (call.onChain s.chain).2 := by
  have hchunks : (call.onChain s.chain).2.chunks = s.sources.map (·.data) :=
    Leaves.onChain h s.chain
  show StreamChain.mk (s.sources.map (·.data)) .. = _
  rw [← hchunks]
  rfl

theorem dropSources_eq {left : ℕ} (hidx : s.chunkIdx = left) (hleft : left ≤ s.sources.length) :
    dropSources left s = (.ok (),
      { s with
        sources := s.sources.drop left
        total := s.total - ((s.sources.take left).map (·.data)).flatten.length
        pos := s.pos - ((s.sources.take left).map (·.data)).flatten.length
        chunkIdx := 0 }) := by
  induction left generalizing s with
  | zero =>
    obtain ⟨sources, idx, off, pos, total, saveIdx, saveOff, savePos⟩ := s
    cases hidx
    simp [dropSources]
  | succ left ih =>
    obtain ⟨sources, idx, off, pos, total, saveIdx, saveOff, savePos⟩ := s
    obtain ⟨old, rest, rfl⟩ := List.exists_cons_of_length_pos (Nat.zero_lt_of_lt hleft)
    rw [dropSources, Fallible.get_bind]
    simp only [Fallible.modify_bind]
    rw [ih rfl (Nat.le_of_succ_le_succ hleft)]
    simp only [List.drop_succ_cons, List.take_succ_cons, List.map_cons, List.flatten_cons,
      List.length_append,
      Nat.cast_add, sub_sub]

/-- The chain behind the loop of `commit`. -/
def dropped (s : SourceChain) : SourceChain :=
  { s with
    sources := s.sources.drop s.chunkIdx
    total := s.total - ((s.sources.take s.chunkIdx).map (·.data)).flatten.length
    pos := s.pos - ((s.sources.take s.chunkIdx).map (·.data)).flatten.length
    chunkIdx := 0 }

theorem Ordered.chunkIdx_le (h : s.Ordered) : s.chunkIdx ≤ s.sources.length := by
  obtain ⟨f, hf⟩ := h
  have hlen : s.chain.chunks.length = s.sources.length := List.length_map _
  rcases hf.cursor.inside with ⟨chunk, hchunk, -⟩ | ⟨hend, -⟩
  · have hlt := (List.getElem?_eq_some_iff.1 hchunk).1
    rw [hlen] at hlt
    exact hlt.le
  · exact (hend.trans hlen).le

/-- Where a front is to be cut off, the cursor is in its chunk. -/
theorem Ordered.first (h : s.Ordered) (hoff : 0 < s.chunkOff) :
    ∃ first rest, s.sources.drop s.chunkIdx = first :: rest ∧ s.sources[s.chunkIdx]? = some first ∧
      s.chunkOff < first.data.length := by
  obtain ⟨f, hf⟩ := h
  rcases hf.cursor.inside with ⟨chunk, hchunk, hlt⟩ | ⟨-, hzero⟩
  · have hget : (s.sources.map (·.data))[s.chunkIdx]? = some chunk := hchunk
    rw [List.getElem?_map, Option.map_eq_some_iff] at hget
    obtain ⟨first, hfirst, rfl⟩ := hget
    obtain ⟨hidx, rfl⟩ := List.getElem?_eq_some_iff.1 hfirst
    exact ⟨_, _, List.drop_eq_getElem_cons hidx, hfirst, hlt⟩
  · have : s.chunkOff = 0 := hzero
    omega

theorem commit_eq (h : s.Ordered) :
    commit s = (trimSource >>= fun _ =>
      modify fun s => { s with saveChunkIdx := 0, saveChunkOff := 0, savePos := 0 }) s.dropped := by
  rw [commit, Fallible.get_bind]
  exact Fallible.bind_ok (dropSources_eq rfl h.chunkIdx_le)

theorem chain_dropped (h : s.Ordered) :
    StreamChain.dropChunks s.chain.chunkIdx s.chain = (.ok (), s.dropped.chain) := by
  have hle : s.chain.chunkIdx ≤ s.chain.chunks.length := h.chunkIdx_le.trans (List.length_map _).ge
  rw [Meets.dropChunks_eq rfl hle]
  simp only [dropped, chain, List.map_drop, List.map_take]

/-! ## The cut -/

/-- The number of items is not more than that of bytes, and there is at least one byte in an
item. -/
theorem count_le {src : ChainSource} {count : ℕ} {dims : List ℕ} (h : src.shape = count :: dims)
    (hpos : 0 < src.data.length) :
    src.data.length = count * (dims.prod * src.itemSize) ∧ 0 < dims.prod * src.itemSize := by
  have hlen := src.length_eq
  rw [h, List.prod_cons, Nat.mul_assoc] at hlen
  refine ⟨hlen, Nat.pos_of_ne_zero fun hzero => ?_⟩
  rw [hzero, Nat.mul_zero] at hlen
  omega

theorem trimSource_zero (h : s.chunkOff = 0) : trimSource s = (.ok (), s) := by
  rw [trimSource, Fallible.get_bind]
  cases s.sources with
  | nil => rfl
  | cons first rest => exact congrFun (if_neg (by omega)) s

/-- With something to cut off, all depends on the slice. -/
theorem trimSource_slice {first : ChainSource} {rest : List ChainSource}
    (hsources : s.sources = first :: rest)
    (hoff : 0 < s.chunkOff) :
    trimSource s =
      match first.slice s.chunkOff first.data.length with
      | .error e => (.error e, s)
      | .ok view => (.ok (),
        { s with
          sources := view :: rest
          total := s.total - s.chunkOff
          pos := s.pos - s.chunkOff
          chunkOff := 0 }) := by
  have hstop : ((s.chunkOff : ℤ) + ((first.data.length : ℤ) - s.chunkOff)).toNat =
    first.data.length := by omega
  rw [trimSource, Fallible.get_bind, hsources]
  refine (congrFun (if_pos hoff) s).trans ?_
  rw [hstop]
  cases first.slice s.chunkOff first.data.length with
  | error e => rfl
  | ok view => rfl

theorem trim_zero {c : StreamChain} (h : c.chunkOff = 0) : StreamChain.trim c = c := by
  unfold StreamChain.trim
  split
  · rfl
  · rw [if_neg (by omega)]

/-- A `commit` that cuts bytes does what it does on the chain of the buffers. -/
theorem commit_cuts (h : s.Ordered) (hcuts : s.CutsBytes .commit) :
    (commit s).1 = .ok () ∧ (commit s).2.chain = (StreamChain.commit s.chain).2 := by
  have hchain : (StreamChain.commit s.chain).2 =
      { StreamChain.trim s.dropped.chain with saveChunkIdx := 0, saveChunkOff := 0, savePos := 0 } := by
    rw [StreamChain.commit, Fallible.get_bind, Fallible.bind_ok (chain_dropped h),
      Fallible.modify_bind,
      Fallible.modify_apply]
  obtain ⟨d, htrim, hd⟩ : ∃ d, trimSource s.dropped = (.ok (), d) ∧
      d.chain = StreamChain.trim s.dropped.chain := by
    rcases Nat.eq_zero_or_pos s.chunkOff with hzero | hoff
    · exact ⟨s.dropped, trimSource_zero hzero, (trim_zero hzero).symm⟩
    · obtain ⟨first, rest, hdrop, hget, hlt⟩ := h.first hoff
      obtain ⟨count, dims, hshape, hone⟩ := (hcuts.resolve_left hoff.ne') first hget
      obtain ⟨hlen, -⟩ := count_le hshape (by omega)
      rw [hone, Nat.mul_one] at hlen
      obtain ⟨view, hview, hdata⟩ := ChainSource.slice_tail hshape hlen.ge s.chunkOff
      rw [hone, Nat.mul_one, min_eq_left (by omega)] at hdata
      have htrim := trimSource_slice (s := s.dropped) hdrop hoff
      have hslice : first.slice s.dropped.chunkOff first.data.length = .ok view := hview
      rw [hslice] at htrim
      refine ⟨_, htrim, ?_⟩
      have hchunks : s.dropped.chain.chunks = first.data :: rest.map (·.data) :=
        congrArg (List.map ChainSource.data) hdrop
      rw [StreamChain.trim, hchunks]
      refine Eq.trans ?_ (if_pos hoff).symm
      show StreamChain.mk (view.data :: rest.map (·.data)) .. = _
      rw [hdata]
      rfl
  rw [commit_eq h, Fallible.bind_ok htrim, hchain, ← hd]
  exact ⟨rfl, rfl⟩

/-- The next state is in order, too. -/
theorem step_ordered (a : Call) (h : s.Ordered) (hcuts : s.CutsBytes a)
    (hstep : s.step a = some s') :
    s'.Ordered := by
  obtain ⟨f, hf⟩ := h
  cases a with
  | extend src =>
    cases hstep
    exact ⟨_, chain_extend src s ▸ (Meets.extend src.data _ _ hf).2.1⟩
  | read call =>
    rw [step] at hstep
    split at hstep
    · rename_i hreads
      cases hstep
      exact ⟨_, chain_onChain hreads s ▸ (call.meets _ _ hf).2.1⟩
    · cases hstep
  | commit =>
    cases hstep
    exact ⟨_, (commit_cuts ⟨f, hf⟩ hcuts).2 ▸ (Meets.commit _ _ hf).2.1⟩

theorem unread_eq {f : FlatBuffer} (hf : Refines s.chain f) : s.unread = f.rest := by
  rw [FlatBuffer.rest, ← hf.bytes, hf.cursor.drop_eq, unread, List.map_drop]
  rfl

/-- Items that are not of one byte: the slice leaves out more bytes than it should. -/
theorem cut_length {count width off : ℕ} (hoff : 0 < off) (hlt : off < count * width)
    (hwidth : 0 < width)
    (hone : width ≠ 1) : count * width - min off count * width < count * width - off := by
  rcases le_or_gt off count with hle | hgt
  · have hmore : off * 2 ≤ off * width := Nat.mul_le_mul_left _ (by omega)
    rw [min_eq_left hle]
    omega
  · rw [min_eq_right hgt.le]
    omega

/-- A cut in the wrong place is never made good. -/
theorem commit_loses (h : s.Ordered) (hcuts : ¬ s.CutsBytes .commit) : ¬ s.KeepsUnread .commit := by
  obtain ⟨hoff, hwide⟩ := not_or.1 hcuts
  have hpos : 0 < s.chunkOff := Nat.pos_of_ne_zero hoff
  obtain ⟨first, rest, hdrop, hget, hlt⟩ := h.first hpos
  have hnot : ¬ first.Bytewise := fun hbytes => hwide fun src hsrc => by
    rw [hget] at hsrc
    exact Option.some.inj hsrc ▸ hbytes
  have htrim := trimSource_slice (s := s.dropped) hdrop hpos
  rintro ⟨hok, hunread, -⟩
  cases hshape : first.shape with
  | nil =>
    rw [ChainSource.slice_scalar hshape] at htrim
    rw [commit_eq h, Fallible.bind_error htrim] at hok
    cases hok
  | cons count dims =>
    obtain ⟨hlen, hwidth⟩ := count_le hshape (by omega)
    have hcount : count ≤ first.data.length := hlen ▸ Nat.le_mul_of_pos_right _ hwidth
    obtain ⟨view, hview, hdata⟩ := ChainSource.slice_tail hshape hcount s.chunkOff
    have hslice : first.slice s.dropped.chunkOff first.data.length = .ok view := hview
    rw [hslice] at htrim
    have hcut := cut_length hpos (hlen ▸ hlt) hwidth fun hone => hnot ⟨count, dims, hshape, hone⟩
    have hafter : (commit s).2.unread = view.data ++ (rest.map (·.data)).flatten := by
      rw [commit_eq h, Fallible.bind_ok htrim]
      rfl
    have hbefore : s.unread = first.data.drop s.chunkOff ++ (rest.map (·.data)).flatten := by
      rw [unread, hdrop, List.map_cons, List.flatten_cons, List.drop_append_of_le_length hlt.le]
    rw [hafter, hbefore] at hunread
    have hsame := congrArg List.length (List.append_cancel_right hunread)
    rw [hdata, List.length_drop, List.length_drop, hlen] at hsame
    omega

theorem keepsUnread_iff (h : s.Ordered) (a : Call) : s.KeepsUnread a ↔ s.CutsBytes a := by
  cases a with
  | extend src => exact Iff.rfl
  | read call => exact Iff.rfl
  | commit =>
    refine ⟨fun hkeeps => by_contra fun hcuts => commit_loses h hcuts hkeeps, fun hcuts => ?_⟩
    obtain ⟨hok, hchain⟩ := commit_cuts h hcuts
    obtain ⟨f, hf⟩ := h
    have hf' : Refines (commit s).2.chain _ := hchain ▸ (Meets.commit _ _ hf).2.1
    refine ⟨hok, ?_, fun src hsrc => hf'.nonempty _ (List.mem_map_of_mem hsrc)⟩
    rw [unread_eq hf', unread_eq hf]
    rfl

/-- In every run of calls on a new chain, with sources of any kind, each `commit` keeps what is not
read yet exactly if each cuts off the front of a chunk only where the slices of its source count in
bytes. -/
theorem commit_keeps_iff (calls : List Call) :
    Steps.Along step KeepsUnread {} calls ↔ Steps.Along step CutsBytes {} calls :=
  Steps.along_congr (fun _ a _ h hcuts hstep => step_ordered a h hcuts hstep)
    (fun _ a h => keepsUnread_iff h a)
    empty_ordered

/-- `array('I', [0x04030201, 0x08070605])`. -/
def twoWords : ChainSource := ⟨4, [2], [1, 2, 3, 4, 5, 6, 7, 8], by decide, rfl⟩

/-- One byte is pulled and the chain committed: the next three are lost with it. -/
theorem commit_drops_words :
    (∃ s, Steps.run step {} [.extend twoWords, .read .pullUint8] = some s ∧ s.unread =
    [2, 3, 4, 5, 6, 7, 8] ∧
      (commit s).2.unread = [5, 6, 7, 8]) ∧
      ¬ Steps.Along step KeepsUnread {} [.extend twoWords, .read .pullUint8, .commit] := by
  refine ⟨⟨_, rfl, by decide, by decide⟩, fun h => ?_⟩
  obtain ⟨-, hrest⟩ := h
  obtain ⟨-, hrest⟩ := hrest _ rfl
  have hkeeps := (hrest _ rfl).1.2.1
  exact absurd hkeeps (by decide)

end SourceChain

end Aiopquic
