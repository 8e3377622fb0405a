import Aiopquic.ObjectCodec

/-!
# An object body survives its encoding

The two passes of the encoder are compared with one run of the parser over what the second writes:
extension by extension, with the id before as the state of both, the parser finds the absolute id
again and is at the end of the block when the encoder is.
-/

namespace Aiopquic

/-- Even ids have integers and odd ids have bytes, at most as many as the parser takes. -/
def ExtValue.Typed (extId : ℤ) : ExtValue → Prop
  | .int _ => extId % 2 = 0
  | .bytes data => extId % 2 = 1 ∧ data.length ≤ 0xFFFF

/-- The integer that is encoded for a value: the value, or its length. -/
def ExtValue.integer : ExtValue → ℤ
  | .int n => n
  | .bytes data => data.length

theorem uint64_ok {n : ℤ} (h : 0 ≤ n) (hlt : n < 2 ^ 64) : uint64 n = .ok n.toNat := if_pos ⟨h, hlt⟩

namespace ExtDict

theorem set_new {exts : ExtDict} {id : ℤ} (h : id ∉ exts.items.map Prod.fst) (value : ExtValue) :
    (exts.set id value).items = exts.items ++ [(id, value)] := by
  rw [set, dif_neg h]

theorem ordered_perm (exts : ExtDict) (kvpDelta : Bool) :
    (exts.ordered kvpDelta).Perm exts.items := by
  rw [ordered]
  split
  · exact List.perm_insertionSort ..
  · exact .refl _

theorem ordered_sorted (exts : ExtDict) : (exts.ordered true).Pairwise fun a b => a.1 ≤ b.1 := by
  have htotal : Std.Total fun a b : ℤ × ExtValue => a.1 ≤ b.1 := ⟨fun a b => le_total a.1 b.1⟩
  have htrans : IsTrans (ℤ × ExtValue) fun a b => a.1 ≤ b.1 := ⟨fun _ _ _ => le_trans⟩
  exact List.pairwise_insertionSort _ exts.items

end ExtDict

namespace VintCodec

variable {codec : VintCodec} {src : BodySource FlatBuffer} {bound : ℕ}

namespace Decodes

theorem pullSsize (hd : codec.Decodes src bound) {v : ℕ} (hv : v < bound) (hv' : v < 2 ^ 63)
    {f : FlatBuffer}
    {more : List UInt8} (h : f.rest = codec.write v ++ more) :
    src.pullSsize f = (.ok v, f.skip (codec.write v).length) := by
  rw [BodySource.pullSsize, Fallible.bind_ok (hd.pull v hv f more h), if_pos hv']
  rfl

theorem rest_skip_write {f : FlatBuffer} {written more : List UInt8}
    (h : f.rest = written ++ more) :
    (f.skip written.length).rest = more := by
  rw [FlatBuffer.rest_skip, h, List.drop_left]

theorem pos_skip_write {f : FlatBuffer} {written more : List UInt8} (h : f.rest = written ++ more) :
    (f.skip written.length).pos = f.pos + written.length :=
  FlatBuffer.pos_skip (by rw [h, List.length_append]; omega)

theorem pullBytes_data (hd : codec.Decodes src bound) {data more : List UInt8} {f : FlatBuffer}
    (h : f.rest = data ++ more) : src.pullBytes data.length f = (.ok data, f.skip data.length) := by
  have hle : data.length ≤ f.rest.length := by
    rw [h, List.length_append]
    omega
  rw [hd.pullBytes, FlatBuffer.pullBytes, if_neg (by omega), Int.toNat_natCast,
    FlatBuffer.take_of_le hle,
    FlatBuffer.advance_eq_skip, h, List.take_left]

theorem tell_pos (hd : codec.Decodes src bound) (f : FlatBuffer) :
    src.tell f = (.ok (f.pos : ℤ), f) := by
  rw [hd.tell]
  rfl

/-- What both passes make of a value, and the parser of what is written. -/
theorem value_parsed (hd : codec.Decodes src bound) (wireId absId : ℕ) {value : ExtValue}
    (htyped : value.Typed absId) (hnonneg : 0 ≤ value.integer) (hlt : value.integer < bound) :
    ∃ written, codec.pairWrite ⟨wireId, absId, value⟩ = .ok (codec.write wireId ++ written) ∧
      codec.pairSize ⟨wireId, absId, value⟩ = .ok (codec.size wireId + written.length) ∧
      ∀ f more extsEnd, f.rest = written ++ more → (f.pos + written.length : ℕ) ≤ extsEnd →
        src.extValue extsEnd absId f = (.ok value, f.skip written.length) := by
  have hbound := hd.bound_le
  cases value with
  | int n =>
    lift n to ℕ using hnonneg
    have heven : absId % 2 = 0 := by
      have : (absId : ℤ) % 2 = 0 := htyped
      omega
    have hn : n < bound := Int.ofNat_lt.1 hlt
    have hconv : (ExtValue.int n).toUint64 = .ok n := by
      rw [ExtValue.toUint64, uint64_ok (by omega) (by omega), Int.toNat_natCast]
    refine ⟨codec.write n, ?_, ?_, ?_⟩
    · rw [pairWrite, if_pos heven, hconv]
      rfl
    · rw [pairSize, if_pos heven, hconv, ← hd.size_eq n hn]
      rfl
    · intro f more extsEnd hf _
      rw [BodySource.extValue, if_pos heven, Fallible.bind_ok (hd.pull n hn f more hf)]
      rfl
  | bytes data =>
    obtain ⟨hodd, hshort⟩ := htyped
    have hodd' : ¬ absId % 2 = 0 := by omega
    have hn : data.length < bound := Int.ofNat_lt.1 hlt
    refine ⟨codec.write data.length ++ data, ?_, ?_, ?_⟩
    · rw [pairWrite, if_neg hodd']
      rfl
    · rw [pairSize, if_neg hodd', List.length_append, ← hd.size_eq _ hn]
      rfl
    · intro f more extsEnd hf hend
      rw [List.append_assoc] at hf
      have hrest := rest_skip_write hf
      have hpos := pos_skip_write hf
      rw [List.length_append] at hend ⊢
      rw [BodySource.extValue, if_neg hodd', Fallible.bind_ok (hd.pullSsize hn (by omega) hf),
        Fallible.bind_ok (hd.tell_pos _), if_neg (by omega),
          Fallible.bind_ok (hd.pullBytes_data hrest),
        FlatBuffer.skip_skip]
      rfl

/-- The block of the extensions `items`, from the id `prev` on. -/
theorem block_parsed (hd : codec.Decodes src bound) {kvpDelta : Bool} {items : List (ℤ × ExtValue)}
    {prev : ℕ}
    (hids : ∀ item ∈ items, 0 ≤ item.1 ∧ item.1 < 2 ^ 64 ∧ item.2.Typed item.1)
    (hsorted : kvpDelta → items.Pairwise fun a b => a.1 ≤ b.1)
    (hprev : kvpDelta → ∀ item ∈ items, prev ≤ item.1)
    (hnodup : (items.map Prod.fst).Nodup)
    (hbounds : ∀ pairs, extPairs kvpDelta prev items = .ok pairs → ∀ pair ∈ pairs,
      pair.wireId < bound ∧ 0 ≤ pair.value.integer ∧ pair.value.integer < bound) :
    ∃ pairs block, extPairs kvpDelta prev items = .ok pairs ∧ codec.blockWrite pairs = .ok block ∧
      codec.blockSize pairs = .ok block.length ∧ items.length ≤ block.length ∧
      ∀ f more fuel exts, f.rest = block ++ more → block.length < fuel →
        (∀ item ∈ items, item.1 ∉ exts.items.map Prod.fst) →
        ∃ exts', src.extLoop kvpDelta (f.pos + block.length : ℕ) fuel prev exts f =
        (.ok exts', f.skip block.length) ∧
          exts'.items = exts.items ++ items := by
  induction items generalizing prev with
  | nil =>
    refine ⟨[], [], rfl, rfl, rfl, le_rfl, fun f more fuel exts _ hfuel _ =>
      ⟨exts, ?_, (List.append_nil _).symm⟩⟩
    obtain ⟨fuel, rfl⟩ := Nat.exists_eq_succ_of_ne_zero (Nat.ne_of_gt hfuel)
    rw [BodySource.extLoop, Fallible.bind_ok (hd.tell_pos f), if_neg (by simp), List.length_nil,
      FlatBuffer.skip_zero]
    rfl
  | cons item items ih =>
    obtain ⟨extId, value⟩ := item
    obtain ⟨hnonneg, hlt, htyped⟩ := hids _ (List.mem_cons_self ..)
    lift extId to ℕ using hnonneg
    have habs : uint64 extId = .ok extId := by rw [uint64_ok (by omega) hlt, Int.toNat_natCast]
    obtain ⟨hnew, hnodup'⟩ := List.nodup_cons.1 (List.map_cons .. ▸ hnodup)
    obtain ⟨wireId, hwire⟩ : ∃ wireId,
        wireId = if kvpDelta then (extId + (2 ^ 64 - prev)) % 2 ^ 64 else extId := ⟨_, rfl⟩
    obtain ⟨next, hnext⟩ : ∃ next, next = if kvpDelta then extId else prev := ⟨_, rfl⟩
    have hpairs : ∀ pairs, extPairs kvpDelta next items = .ok pairs →
        extPairs kvpDelta prev ((↑extId, value) :: items) =
          .ok (⟨wireId, extId, value⟩ :: pairs) := by
      intro pairs hpairs
      rw [extPairs, habs, hwire]
      rw [hnext] at hpairs
      show (extPairs _ _ items >>= _) = _
      rw [hpairs]
      rfl
    obtain ⟨pairs, block, hp, hwrite, hsize, hlen, hparse⟩ := @ih next
      (fun item hmem => hids item (List.mem_cons_of_mem _ hmem))
      (fun hk => (List.pairwise_cons.1 (hsorted hk)).2)
      (fun hk item hmem => by
        rw [hnext, if_pos hk]
        exact (List.pairwise_cons.1 (hsorted hk)).1 item hmem)
      hnodup'
      (fun pairs hp pair hmem => hbounds _ (hpairs pairs hp) pair (List.mem_cons_of_mem _ hmem))
    obtain ⟨hwlt, hvnonneg, hvlt⟩ := hbounds _ (hpairs pairs hp) _ (List.mem_cons_self ..)
    obtain ⟨written, hpairWrite, hpairSize, hvalue⟩ := hd.value_parsed wireId extId htyped
      hvnonneg hvlt
    have hpos : 0 < (codec.write wireId).length := List.length_pos_iff.2 (hd.write_ne_nil wireId)
    refine ⟨_, codec.write wireId ++ (written ++ block), hpairs pairs hp, ?_, ?_, ?_, ?_⟩
    · rw [blockWrite, hpairWrite]
      show (codec.blockWrite pairs >>= _) = _
      rw [hwrite, ← List.append_assoc]
      rfl
    · rw [blockSize, hpairSize]
      show (codec.blockSize pairs >>= _) = _
      rw [hsize, hd.size_eq wireId hwlt, List.length_append, List.length_append, ← Nat.add_assoc]
      rfl
    · simp only [List.length_cons, List.length_append]
      omega
    · intro f more fuel exts hf hfuel hfresh
      obtain ⟨fuel, rfl⟩ := Nat.exists_eq_succ_of_ne_zero (Nat.ne_of_gt (Nat.zero_lt_of_lt hfuel))
      rw [List.append_assoc, List.append_assoc] at hf
      have hrest := rest_skip_write hf
      have hskip := pos_skip_write hf
      have hrest' := rest_skip_write hrest
      have hskip' := pos_skip_write hrest
      rw [FlatBuffer.skip_skip] at hrest' hskip'
      simp only [List.length_append] at hfuel ⊢
      -- the parser adds what the encoder took off
      have hid : (if kvpDelta then prev + wireId else wireId) = extId := by
        rw [hwire]
        split
        · rename_i hk
          have hle := hprev hk _ (List.mem_cons_self ..)
          omega
        · rfl
      obtain ⟨exts', hloop, hitems⟩ :=
        hparse (f.skip ((codec.write wireId).length + written.length)) more fuel
        (exts.set extId value) hrest' (by omega) (by
          intro item hmem
          rw [ExtDict.set_new (hfresh _ (List.mem_cons_self ..)), List.map_append,
            List.mem_append, not_or]
          refine ⟨hfresh item (List.mem_cons_of_mem _ hmem), fun hsame => hnew ?_⟩
          rw [← List.mem_singleton.1 hsame]
          exact List.mem_map_of_mem hmem)
      refine ⟨exts', ?_, ?_⟩
      · rw [BodySource.extLoop, Fallible.bind_ok (hd.tell_pos f), if_pos (by omega),
          Fallible.bind_ok (hd.pull wireId hwlt f _ hf)]
        rw [hid, if_neg (by omega), Fallible.bind_ok (hvalue _ _ _ hrest (by omega)),
          FlatBuffer.skip_skip,
          Fallible.bind_ok (hd.tell_pos _), if_neg (by omega), ← hnext]
        rw [hskip', hskip, FlatBuffer.skip_skip] at hloop
        simp only [Nat.add_assoc] at hloop
        exact hloop
      · rw [hitems, ExtDict.set_new (hfresh _ (List.mem_cons_self ..)), List.append_assoc,
          List.singleton_append]

/-- The block with its length. -/
theorem exts_parsed (hd : codec.Decodes src bound) {kvpDelta : Bool} {exts : ExtDict}
    {extsLenLimit : ℤ}
    (hids : ∀ item ∈ exts.items, 0 ≤ item.1 ∧ item.1 < 2 ^ 64 ∧ item.2.Typed item.1)
    (hbounds : ∀ pairs, extPairs kvpDelta 0 (exts.ordered kvpDelta) = .ok pairs → ∀ pair ∈ pairs,
      pair.wireId < bound ∧ 0 ≤ pair.value.integer ∧ pair.value.integer < bound)
    (hblock : ∀ pairs size, extPairs kvpDelta 0 (exts.ordered kvpDelta) = .ok pairs →
      codec.blockSize pairs = .ok size → size < bound ∧ size < 2 ^ 63 ∧ size ≤ extsLenLimit) :
    ∃ pairs block, extPairs kvpDelta 0 (exts.ordered kvpDelta) = .ok pairs ∧
    codec.blockWrite pairs = .ok block ∧
      codec.blockSize pairs = .ok block.length ∧
      ∀ f more, f.rest = codec.write block.length ++ block ++ more → f.bytes.length < 2 ^ 63 →
        ∃ parsed, src.parseExts extsLenLimit kvpDelta f =
            (.ok parsed, f.skip (codec.write block.length ++ block).length) ∧
          Option.Rel (fun a b => a.items.Perm b.items) parsed
          (if exts.items = [] then none else some exts) := by
  have hperm := exts.ordered_perm kvpDelta
  obtain ⟨pairs, block, hpairs, hwrite, hsize, hlen, hparse⟩ := @block_parsed codec src bound hd
    kvpDelta (exts.ordered kvpDelta) 0
    (fun item hmem => hids item (hperm.mem_iff.1 hmem))
    (fun hk => by
      rw [hk]
      exact exts.ordered_sorted)
    (fun _ item hmem => (hids item (hperm.mem_iff.1 hmem)).1)
    ((hperm.map Prod.fst).nodup_iff.2 exts.nodup) hbounds
  obtain ⟨hlt, hssize, hlimit⟩ := hblock pairs _ hpairs hsize
  refine ⟨pairs, block, hpairs, hwrite, hsize, fun f more hf htotal => ?_⟩
  rw [List.append_assoc] at hf
  have hrest := rest_skip_write hf
  have hpos := pos_skip_write hf
  have hend : (f.skip (codec.write block.length).length).pos + block.length ≤ f.bytes.length := by
    have hbytes := (f.skip (codec.write block.length).length).pos_add_length_rest
    rw [hrest, List.length_append] at hbytes
    have hsame : (f.skip (codec.write block.length).length).bytes.length = f.bytes.length := rfl
    omega
  rw [BodySource.parseExts, Fallible.bind_ok (hd.pullSsize hlt hssize hf), if_neg (by omega)]
  rw [List.length_append]
  by_cases hempty : block.length = 0
  · have hnil : exts.items = [] := by
      rw [← List.length_eq_zero_iff, ← hperm.length_eq]
      omega
    refine ⟨none, ?_, by rw [if_pos hnil]; exact .none⟩
    rw [if_neg (by omega), hempty, Nat.add_zero]
    rfl
  · have hssum : ssize ((f.skip (codec.write block.length).length).pos + block.length : ℤ) =
        ((f.skip (codec.write block.length).length).pos + block.length : ℕ) := by
      rw [ssize, ← Nat.cast_add]
      exact Int.bmod_eq_of_le (by omega) (by omega)
    obtain ⟨parsed, hloop, hitems⟩ := hparse _ more (block.length + 1) {} hrest (Nat.lt_succ_self _)
      (by simp)
    rw [FlatBuffer.skip_skip] at hloop
    have hitems' : parsed.items = exts.ordered kvpDelta := hitems
    have hne : parsed.items ≠ [] := by
      intro hnil
      rw [← hitems', hnil] at hpairs
      cases hpairs
      exact hempty (Except.ok.inj hsize).symm
    refine ⟨some parsed, ?_, ?_⟩
    · rw [if_pos (by omega), Fallible.bind_ok (hd.tell_pos _)]
      have hfuel : (((f.skip (codec.write block.length).length).pos + block.length : ℕ) -
          ((f.skip (codec.write block.length).length).pos : ℤ)).toNat = block.length := by omega
      rw [hssum, hfuel, Fallible.bind_ok hloop, if_neg hne]
      rfl
    · rw [if_neg fun hnil =>
        hne (by rwa [hitems', ← List.length_eq_zero_iff, hperm.length_eq, List.length_eq_zero_iff])]
      exact .some (hitems' ▸ hperm)

end Decodes

/-! ## The body -/

/-- What can be encoded in integers below `bound`, with a block that the parser takes. The ids, the
values and the block are asked about as the encoder makes them. -/
structure Encodable (codec : VintCodec) (bound : ℕ) (delta : ℤ) (exts : Option ExtDict)
    (status : Int32)
    (payload : List UInt8) (extensionsPresent kvpDelta : Bool) (extsLenLimit : ℤ) : Prop where
  delta_lt : 0 ≤ delta ∧ delta < bound
  status_nonneg : 0 ≤ status.toInt
  payload_lt : payload.length < bound
  ids : extensionsPresent → status = 0 → ∀ dict, exts = some dict → ∀ item ∈ dict.items,
    0 ≤ item.1 ∧ item.1 < 2 ^ 64 ∧ item.2.Typed item.1
  integers : ∀ pairs, writtenPairs exts status extensionsPresent kvpDelta = .ok pairs →
    ∀ pair ∈ pairs,
    pair.wireId < bound ∧ 0 ≤ pair.value.integer ∧ pair.value.integer < bound
  block : extensionsPresent → ∀ pairs size, writtenPairs exts status extensionsPresent kvpDelta =
    .ok pairs →
    codec.blockSize pairs = .ok size → size < bound ∧ size < 2 ^ 63 ∧ size ≤ extsLenLimit

/-- The extensions that come back. -/
def keptExts (exts : Option ExtDict) (status : Int32) (extensionsPresent : Bool) : Option ExtDict :=
  if extensionsPresent ∧ status = 0 then exts.filter fun dict => dict.items ≠ [] else none

/-- Dicts with the same items are equal, whatever the order of insertion. -/
def SameExts : Option ExtDict → Option ExtDict → Prop := Option.Rel fun a b => a.items.Perm b.items

variable {delta : ℤ} {exts : Option ExtDict} {status : Int32} {payload : List UInt8}
  {extensionsPresent kvpDelta : Bool} {extsLenLimit : ℤ}

/-- If no extensions are written it is as if there were none. -/
theorem exists_written (exts : Option ExtDict) (status : Int32)
    (extensionsPresent kvpDelta : Bool) :
    ∃ dict : ExtDict,
      writtenPairs exts status extensionsPresent kvpDelta = extPairs kvpDelta 0
      (dict.ordered kvpDelta) ∧
      keptExts exts status extensionsPresent = (if dict.items = [] then none else some dict) ∧
      (dict.items = [] ∨ extensionsPresent ∧ status = 0 ∧ exts = some dict) := by
  have hempty : extPairs kvpDelta 0 (({} : ExtDict).ordered kvpDelta) = .ok [] := by
    cases kvpDelta <;> simp [ExtDict.ordered, extPairs]
  cases exts with
  | none => exact ⟨{}, by rw [hempty]; rfl, by rw [keptExts]; simp, Or.inl rfl⟩
  | some dict =>
    by_cases h : extensionsPresent ∧ status = 0
    · refine ⟨dict, if_pos h, ?_, Or.inr ⟨h.1, h.2, rfl⟩⟩
      rw [keptExts, if_pos h]
      by_cases hnil : dict.items = [] <;> simp [Option.filter, hnil]
    · exact ⟨{}, by rw [hempty]; exact if_neg h, by rw [keptExts, if_neg h]; rfl, Or.inl rfl⟩

namespace Decodes

/-- The extensions, with nothing at all if they are not present. -/
theorem optional_parsed (hd : codec.Decodes src bound) {dict : ExtDict}
    (hids : ∀ item ∈ dict.items, 0 ≤ item.1 ∧ item.1 < 2 ^ 64 ∧ item.2.Typed item.1)
    (habsent : extensionsPresent = false → dict.items = [])
    (hbounds : ∀ pairs, extPairs kvpDelta 0 (dict.ordered kvpDelta) = .ok pairs → ∀ pair ∈ pairs,
      pair.wireId < bound ∧ 0 ≤ pair.value.integer ∧ pair.value.integer < bound)
    (hblock : extensionsPresent → ∀ pairs size, extPairs kvpDelta 0 (dict.ordered kvpDelta) =
    .ok pairs →
      codec.blockSize pairs = .ok size → size < bound ∧ size < 2 ^ 63 ∧ size ≤ extsLenLimit) :
    ∃ pairs block, extPairs kvpDelta 0 (dict.ordered kvpDelta) = .ok pairs ∧
    codec.blockWrite pairs = .ok block ∧
      codec.blockSize pairs = .ok block.length ∧ (extensionsPresent → block.length < bound) ∧
      ∀ f more, f.rest = (if extensionsPresent then codec.write block.length ++ block else []) ++
      more →
        f.bytes.length < 2 ^ 63 →
        ∃ parsed, (if extensionsPresent then src.parseExts extsLenLimit kvpDelta else pure none) f =
            (.ok parsed, f.skip (if extensionsPresent then codec.write block.length ++ block
            else []).length) ∧
          SameExts parsed (if dict.items = [] then none else some dict) := by
  cases extensionsPresent with
  | true =>
    obtain ⟨pairs, block, hpairs, hwrite, hsize, hparse⟩ := hd.exts_parsed hids hbounds (hblock rfl)
    exact ⟨pairs, block, hpairs, hwrite, hsize, fun _ => (hblock rfl pairs _ hpairs hsize).1,
      hparse⟩
  | false =>
    have hnil := habsent rfl
    have hordered : dict.ordered kvpDelta = [] := by
      rw [← List.length_eq_zero_iff, (dict.ordered_perm kvpDelta).length_eq, hnil]
      rfl
    rw [hordered]
    refine ⟨[], [], rfl, rfl, rfl, nofun, fun f more _ _ => ⟨none, ?_, ?_⟩⟩
    · simp only [Bool.false_eq_true, if_false, List.length_nil, FlatBuffer.skip_zero]
      rfl
    · rw [if_pos hnil]
      exact .none

/-- What both passes make of the arguments, and the parser of what is written. -/
theorem object_parsed (hd : codec.Decodes src bound)
    (h : codec.Encodable bound delta exts status payload extensionsPresent kvpDelta extsLenLimit) :
    ∃ out, codec.encodeObject delta exts status payload extensionsPresent kvpDelta = .ok out ∧
      out.size = out.written.length ∧
      ∀ f more, f.rest = out.written ++ more → f.bytes.length < 2 ^ 63 →
        ∃ parsed, src.parseObject extensionsPresent extsLenLimit kvpDelta f =
            (.ok ⟨delta.toNat, parsed, status.toInt.toNat, if status = 0 then payload else []⟩,
              f.skip out.written.length) ∧
          SameExts parsed (keptExts exts status extensionsPresent) := by
  have hle := hd.le_bound
  have hbound := hd.bound_le
  obtain ⟨hnonneg, hdelta⟩ := h.delta_lt
  lift delta to ℕ using hnonneg
  have hdelta' : delta < bound := Int.ofNat_lt.1 hdelta
  obtain ⟨dict, hpairsEq, hkept, hdict⟩ := exists_written exts status extensionsPresent kvpDelta
  have hintegers := h.integers
  have hblock := h.block
  rw [hpairsEq] at hintegers hblock
  obtain ⟨pairs, block, hpairs, hwrite, hsize, hblockLt, hexts⟩ := hd.optional_parsed
    (by
      rcases hdict with hnil | ⟨hpresent, hstatus, hexts⟩
      · rw [hnil]
        nofun
      · exact h.ids hpresent hstatus dict hexts)
    (by
      rintro rfl
      rcases hdict with hnil | ⟨hpresent, -, -⟩
      · exact hnil
      · cases hpresent)
    hintegers hblock
  -- the status as the encoder writes it
  have hstatusLt : status.toInt < 2 ^ 31 := status.toInt_lt
  have hstatus := h.status_nonneg
  obtain ⟨statusV, hstatusV⟩ : ∃ v, (status.toInt % 2 ^ 64).toNat = v := ⟨_, rfl⟩
  have hstatusNat : statusV = status.toInt.toNat := by omega
  obtain ⟨extPart, hextPart⟩ : ∃ part, part =
      if extensionsPresent then codec.write block.length ++ block else [] := ⟨_, rfl⟩
  obtain ⟨tail, htail⟩ : ∃ tail, tail =
      if status = 0 ∧ 0 < payload.length then codec.write payload.length ++ payload
        else codec.write 0 ++ codec.write statusV := ⟨_, rfl⟩
  refine ⟨⟨codec.size delta +
    (if extensionsPresent then codec.size block.length + block.length else 0) +
    (if status = 0 ∧ 0 < payload.length then codec.size payload.length + payload.length
      else codec.size 0 + codec.size statusV), codec.write delta ++ extPart ++ tail⟩, ?_, ?_, ?_⟩
  · have hconv : uint64 (delta : ℤ) =
      .ok delta := by rw [uint64_ok (by omega) (by omega), Int.toNat_natCast]
    rw [encodeObject, hconv]
    show (writtenPairs exts status extensionsPresent kvpDelta >>= _) = _
    rw [hpairsEq, hpairs]
    show (codec.blockSize pairs >>= _) = _
    rw [hsize]
    show (codec.blockWrite pairs >>= _) = _
    rw [hwrite, hextPart, htail, hstatusV]
    rfl
  · show _ = (codec.write delta ++ extPart ++ tail).length
    have hextLen : extPart.length = if extensionsPresent then codec.size block.length + block.length
      else 0 := by
      rw [hextPart]
      split
      · rename_i hpresent
        rw [List.length_append, hd.size_eq _ (hblockLt hpresent)]
      · rfl
    have htailLen : tail.length = if status = 0 ∧ 0 < payload.length
      then codec.size payload.length + payload.length
        else codec.size 0 + codec.size statusV := by
      rw [htail]
      split
      · rw [List.length_append, hd.size_eq _ h.payload_lt]
      · rw [List.length_append, hd.size_eq 0 (by omega), hd.size_eq statusV (by omega)]
    rw [List.length_append, List.length_append, hextLen, htailLen, hd.size_eq delta hdelta']
  · intro f more hf htotal
    rw [List.append_assoc, List.append_assoc] at hf
    have hrest := rest_skip_write hf
    obtain ⟨parsed, hparsed, hsame⟩ := hexts (f.skip (codec.write delta).length) (tail ++ more)
      (hextPart ▸ hrest) htotal
    rw [← hextPart, FlatBuffer.skip_skip] at hparsed
    have hrest' := rest_skip_write hrest
    rw [FlatBuffer.skip_skip] at hrest'
    refine ⟨parsed, ?_, hkept ▸ hsame⟩
    rw [BodySource.parseObject, Fallible.bind_ok (hd.pull delta hdelta' f _ hf),
      Fallible.bind_ok hparsed,
      Int.toNat_natCast]
    simp only [List.length_append]
    by_cases hdata : status = 0 ∧ 0 < payload.length
    · rw [if_pos hdata] at htail
      rw [htail, List.append_assoc] at hrest'
      have hshort : payload.length < 2 ^ 63 := by
        have hbytes := (f.skip ((codec.write delta).length + extPart.length)).pos_add_length_rest
        rw [hrest', List.length_append, List.length_append] at hbytes
        have hsameBytes : (f.skip ((codec.write delta).length + extPart.length)).bytes.length =
          f.bytes.length := rfl
        omega
      have hzero : status.toInt.toNat = 0 := by rw [hdata.1]; rfl
      rw [Fallible.bind_ok (hd.pullSsize h.payload_lt hshort hrest'), if_neg (by omega),
        Fallible.bind_ok (hd.pullBytes_data (rest_skip_write hrest')), if_pos hdata.1, hzero, htail,
        FlatBuffer.skip_skip, FlatBuffer.skip_skip, List.length_append]
      rfl
    · rw [if_neg hdata] at htail
      rw [htail, List.append_assoc] at hrest'
      have hnone : (if status = 0 then payload else []) = [] := by
        split
        · rename_i hzero
          exact List.length_eq_zero_iff.1 (Nat.le_zero.1 (not_lt.1 fun hpos => hdata ⟨hzero, hpos⟩))
        · rfl
      rw [Fallible.bind_ok (hd.pullSsize (by omega) (by omega) hrest'), if_pos (by rfl),
        Fallible.bind_ok (hd.pull statusV (by omega) _ _ (rest_skip_write hrest')), hnone, htail,
        FlatBuffer.skip_skip, FlatBuffer.skip_skip, List.length_append, hstatusNat]
      rfl

end Decodes

end VintCodec

open VintCodec in
/-- An object body survives its encoding, in either flavour. The encoder allocates what it writes;
and parsed with the same flags, from any chain that has the encoding at its cursor, however it is
split into chunks and whatever follows, the arguments come back, and exactly the encoding is
consumed. -/
theorem object_body_round_trip (vi64 : Bool) (delta : ℤ) (exts : Option ExtDict) (status : Int32)
    (payload : List UInt8) (extensionsPresent kvpDelta : Bool) (extsLenLimit : ℤ)
    (h : (ofFlavour vi64).Encodable (vintBound vi64) delta exts status payload
    extensionsPresent kvpDelta
      extsLenLimit) :
    ∃ out, encodeBody vi64 delta exts status payload extensionsPresent kvpDelta = .ok out ∧
      out.size = out.written.length ∧
      ∀ c f more, Refines c f → f.rest = out.written ++ more → f.bytes.length < 2 ^ 63 →
        ∃ parsed c', StreamChain.parseBody vi64 extensionsPresent extsLenLimit kvpDelta c =
            (.ok ⟨delta.toNat, parsed, status.toInt.toNat, if status = 0 then payload else []⟩, c')
            ∧
          SameExts parsed (keptExts exts status extensionsPresent) ∧
          Refines c' (f.skip out.written.length) ∧ c'.pos = c.pos + out.written.length := by
  have hd : (ofFlavour vi64).Decodes (FlatBuffer.sourceOf vi64) (vintBound vi64) := by
    cases vi64
    · exact varint_decodes
    · exact vi64_decodes
  have hencode : encodeBody vi64 = (ofFlavour vi64).encodeObject := by cases vi64 <;> rfl
  obtain ⟨out, hout, hsize, hparse⟩ := hd.object_parsed h
  refine ⟨out, by rw [hencode, hout], hsize, fun c f more hc hf htotal => ?_⟩
  obtain ⟨parsed, hflat, hsame⟩ := hparse f more hf htotal
  change FlatBuffer.parseBody vi64 extensionsPresent extsLenLimit kvpDelta f = _ at hflat
  obtain ⟨hres, hrel⟩ := FlatBuffer.parseBody_simulated vi64 extensionsPresent extsLenLimit
    kvpDelta c f hc
  rw [hflat] at hres hrel
  refine ⟨parsed, _, Prod.ext hres rfl, hsame, hrel, ?_⟩
  rw [hrel.pos, hc.pos, FlatBuffer.pos_skip (by rw [hf, List.length_append]; omega), Nat.cast_add]

/-- Extensions that are not in the order of their ids. -/
def unsortedExts : ExtDict := ⟨[(5, .bytes [1, 2]), (2, .int 300)], by decide⟩

theorem object_body_round_trip_unsortedExts :
    ∃ parsed c', StreamChain.parseBody true true 64 true
        (.ofChunks [[7, 7, 2, 129], [], [44, 3, 2, 1], [2, 2, 9, 9, 5]]) =
          (.ok ⟨7, parsed, 0, [9, 9]⟩, c') ∧
      VintCodec.SameExts parsed (some unsortedExts) ∧ c'.pos = 12 := by
  have hpairs : VintCodec.writtenPairs (some unsortedExts) 0 true true =
      .ok [⟨2, 2, .int 300⟩, ⟨3, 5, .bytes [1, 2]⟩] := by decide +kernel
  have hsize : VintCodec.vi64.blockSize [⟨2, 2, .int 300⟩, ⟨3, 5, .bytes [1, 2]⟩] =
    .ok 7 := by decide +kernel
  obtain ⟨out, hout, -, hparse⟩ := object_body_round_trip true 7 (some unsortedExts) 0 [9, 9]
    true true 64
    { delta_lt := by decide
      status_nonneg := by decide
      payload_lt := by decide
      ids := by
        intro _ _ dict hdict
        cases hdict
        simp [unsortedExts, ExtValue.Typed]
      integers := by
        intro pairs h
        rw [hpairs] at h
        cases h
        simp [vintBound, ExtValue.integer]
      block := by
        intro _ pairs size h hblock
        rw [hpairs] at h
        cases h
        cases hsize.symm.trans hblock
        decide }
  have hwritten : encodeBody true 7 (some unsortedExts) 0 [9, 9] true true =
      .ok ⟨12, [7, 7, 2, 129, 44, 3, 2, 1, 2, 2, 9, 9]⟩ := by decide +kernel
  cases hwritten.symm.trans hout
  obtain ⟨parsed, c', hparsed, hsame, -, hpos⟩ := hparse _ _ [5]
    (ofChunks_refines [[7, 7, 2, 129], [], [44, 3, 2, 1], [2, 2, 9, 9, 5]]) rfl (by decide)
  exact ⟨parsed, c', hparsed, hsame, hpos⟩

end Aiopquic
