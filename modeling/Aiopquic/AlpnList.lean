import Mathlib.Data.List.TakeWhile
import Mathlib.Data.List.Basic

/-!
# The ALPN list (`callback.h`)

The names that a server allows or a client offers are given as one comma-separated string.
`aiopquic_ctx_set_alpn_list` takes it apart again, and `aiopquic_alpn_select_cb` goes through the
list, in the server's order, for a name that the client has offered.
-/

namespace Aiopquic

/-! ## The list -/

/-- A blank, a tab or a comma. -/
def alpnSeparates (b : UInt8) : Bool := b = 0x20 ∨ b = 0x09 ∨ b = 0x2C

/-- The second loop of `aiopquic_alpn_next_token`: `out` is the token so far. A string that is used
up ends at its `NUL`. -/
def alpnTokenLoop (outsz : ℕ) : List UInt8 → List UInt8 → List UInt8 × List UInt8
  | [], out => (out, [])
  | b :: rest, out =>
    if b ≠ 0 ∧ ¬ alpnSeparates b then
      alpnTokenLoop outsz rest (if b ≠ 0x22 ∧ out.length + 1 < outsz then out ++ [b] else out)
    else (out, b :: rest)

/-- `aiopquic_alpn_next_token`: the token and the cursor behind it. -/
def alpnNextToken (outsz : ℕ) (cursor : List UInt8) : List UInt8 × List UInt8 :=
  alpnTokenLoop outsz (cursor.dropWhile alpnSeparates) []

/-- `alpn_list`, which is `NULL` or owns its tokens. -/
structure AlpnCtx where
  alpnList : Option (List (List UInt8)) := none
  deriving DecidableEq, Repr

/-- The loop of `aiopquic_ctx_set_alpn_list`: there is room for `room` more tokens behind those in
`arr`. `alloc k` says if the allocation of token `k` succeeds. -/
def alpnLoop (alloc : ℕ → Bool) : ℕ → List UInt8 → List (List UInt8) → Option (List (List UInt8))
  | 0, _, arr => some arr
  | room + 1, cursor, arr =>
    let (tok, cursor) := alpnNextToken 256 cursor
    if 0 < tok.length then
      if alloc arr.length then alpnLoop alloc room cursor (arr ++ [tok]) else none
    else some arr

/-- `aiopquic_ctx_set_alpn_list`. `allocArr` says if the allocation of the array succeeds. -/
def setAlpnList (allocArr : Bool) (alloc : ℕ → Bool) (csv : Option (List UInt8)) (ctx : AlpnCtx) :
    AlpnCtx :=
  let ctx := { ctx with alpnList := none }
  match csv with
  | none => ctx
  | some csv =>
    if csv.headD 0 = 0 then ctx
    else if ¬ allocArr then ctx
    else
      let cap := (csv.takeWhile (· ≠ 0)).length + 1
      match alpnLoop alloc cap csv [] with
      | none => ctx
      | some arr => if arr.length = 0 then ctx else { ctx with alpnList := some arr }

/-- The inner loop of `aiopquic_alpn_select_cb`, from the client's name `i` on. -/
def alpnOffered (name : List UInt8) : ℕ → List (List UInt8) → Option ℕ
  | _, [] => none
  | i, offered :: rest =>
    let alen := (name.takeWhile (· ≠ 0)).length
    if offered.length = alen ∧ offered.take alen = name.take alen then some i else alpnOffered name
      (i + 1) rest

/-- The outer loop. -/
def alpnSelectLoop (list : List (List UInt8)) : List (List UInt8) → Option ℕ
  | [] => none
  | name :: rest =>
    match alpnOffered name 0 list with
    | some i => some i
    | none => alpnSelectLoop list rest

/-- `aiopquic_alpn_select_cb`, for the client's list. `bridge` is `NULL` for a context without
callback context. -/
def alpnSelectCb (bridge : Option AlpnCtx) (list : List (List UInt8)) : ℕ :=
  match bridge with
  | none => list.length
  | some bridge =>
    match bridge.alpnList with
    | none => list.length
    | some names => (alpnSelectLoop list names).getD list.length

/-! ## Names -/

/-- A name that fits into a token, with nothing in it that the tokenizer takes for something
else. -/
structure AlpnName where
  bytes : List UInt8
  pos : 0 < bytes.length
  length_le : bytes.length ≤ 255
  plain : ∀ b ∈ bytes, b ≠ 0 ∧ b ≠ 0x22 ∧ alpnSeparates b = false

/-- `",".join(alpn_list)`. -/
def alpnJoin (names : List AlpnName) : List UInt8 := [0x2C].intercalate (names.map AlpnName.bytes)

/-- What is behind the first of some names. -/
def alpnTail (names : List AlpnName) : List UInt8 := names.flatMap fun name => 0x2C :: name.bytes

/-- Pieces with a separator between them are the first piece and the others with a separator in
front. -/
theorem intercalate_map_cons {α β : Type} (sep : List α) (f : β → List α) (x : β) (xs : List β) :
    sep.intercalate ((x :: xs).map f) = f x ++ xs.flatMap fun y => sep ++ f y := by
  induction xs generalizing x with
  | nil => simp
  | cons next xs ih =>
    rw [List.map_cons, List.map_cons, List.intercalate_cons_cons, ← List.map_cons, ih,
      List.flatMap_cons,
      List.append_assoc, List.append_assoc]

theorem alpnJoin_cons (name : AlpnName) (names : List AlpnName) :
    alpnJoin (name :: names) = name.bytes ++ alpnTail names :=
  intercalate_map_cons [0x2C] AlpnName.bytes name names

/-! ## The tokenizer -/

/-- A token ends at the end of the string or at a separator. -/
theorem alpnTokenLoop_append {name rest : List UInt8}
    (hplain : ∀ b ∈ name, b ≠ 0 ∧ b ≠ 0x22 ∧ alpnSeparates b = false)
    (hrest : ∀ b more, rest = b :: more → alpnSeparates b = true) {outsz : ℕ} {out : List UInt8}
    (hroom : out.length + name.length < outsz) :
    alpnTokenLoop outsz (name ++ rest) out = (out ++ name, rest) := by
  induction name generalizing out with
  | nil =>
    rw [List.nil_append, List.append_nil]
    cases rest with
    | nil => rfl
    | cons b more =>
      rw [alpnTokenLoop, if_neg]
      rw [hrest b more rfl]
      simp
  | cons b name ih =>
    obtain ⟨hnul, hquote, hsep⟩ := hplain b List.mem_cons_self
    rw [List.length_cons] at hroom
    rw [List.cons_append, alpnTokenLoop, if_pos ⟨hnul, by simp [hsep]⟩, if_pos ⟨hquote, by omega⟩,
      ih (fun c hc => hplain c (List.mem_cons_of_mem _ hc))
        (by rw [List.length_append, List.length_singleton]; omega),
      List.append_assoc, List.singleton_append]

theorem alpnTail_head (names : List AlpnName) (b : UInt8) (more : List UInt8)
    (h : alpnTail names = b :: more) :
    alpnSeparates b = true := by
  cases names with
  | nil => cases h
  | cons name names =>
    obtain ⟨rfl, -⟩ := List.cons.inj h
    rfl

/-- A name is a token, with or without a comma in front. -/
theorem alpnNextToken_name (name : AlpnName) (names : List AlpnName) {cursor : List UInt8}
    (h : cursor = name.bytes ++ alpnTail names ∨ cursor = 0x2C :: (name.bytes ++ alpnTail names)) :
    alpnNextToken 256 cursor = (name.bytes, alpnTail names) := by
  have hskip : cursor.dropWhile alpnSeparates = name.bytes ++ alpnTail names := by
    obtain ⟨b, bytes, hcons⟩ := List.exists_cons_of_length_pos name.pos
    have hsep : alpnSeparates b = false :=
      (name.plain b (by rw [hcons]; exact List.mem_cons_self)).2.2
    have hname :
      (name.bytes ++ alpnTail names).dropWhile alpnSeparates = name.bytes ++ alpnTail names := by
      rw [hcons, List.cons_append, List.dropWhile_cons_of_neg (by simp [hsep])]
    rcases h with rfl | rfl
    · exact hname
    · rw [List.dropWhile_cons_of_pos (by rfl), hname]
  have hle := name.length_le
  rw [alpnNextToken, hskip, alpnTokenLoop_append name.plain (alpnTail_head names)
    (by rw [List.length_nil]; omega),
    List.nil_append]

/-- The loop over the tokens, from some name on: all names become tokens if each of them can be
allocated. -/
theorem alpnLoop_names (alloc : ℕ → Bool) (names : List AlpnName) {room : ℕ} {cursor : List UInt8}
    {arr : List (List UInt8)} (hcursor : cursor = alpnTail names ∨ cursor = alpnJoin names)
    (hroom : names.length < room) : alpnLoop alloc room cursor arr =
      if (List.range' arr.length names.length).all alloc then some (arr ++ names.map AlpnName.bytes)
      else none := by
  induction names generalizing room cursor arr with
  | nil =>
    obtain ⟨room, rfl⟩ := Nat.exists_eq_succ_of_ne_zero hroom.ne'
    obtain rfl : cursor = [] := by
      rcases hcursor with rfl | rfl
      · rfl
      · rfl
    simp [alpnLoop, alpnNextToken, alpnTokenLoop]
  | cons name names ih =>
    obtain ⟨room, rfl⟩ := Nat.exists_eq_succ_of_ne_zero (Nat.ne_zero_of_lt hroom)
    have hnext : alpnNextToken 256 cursor = (name.bytes, alpnTail names) := by
      refine alpnNextToken_name name names ?_
      rcases hcursor with rfl | rfl
      · exact .inr rfl
      · exact .inl (alpnJoin_cons name names)
    rw [alpnLoop, hnext]
    dsimp only
    rw [if_pos name.pos, List.length_cons, List.range'_succ, List.all_cons]
    cases halloc : alloc arr.length with
    | false => simp
    | true =>
      rw [if_pos rfl, ih (.inl rfl) (by rw [List.length_cons] at hroom; omega), List.length_append,
        List.length_singleton, Bool.true_and, List.map_cons, List.append_assoc,
          List.singleton_append]

theorem alpnTail_length (names : List AlpnName) : names.length ≤ (alpnTail names).length := by
  induction names with
  | nil => exact Nat.zero_le _
  | cons name names ih =>
    have htail :
      (alpnTail (name :: names)).length = name.bytes.length + 1 + (alpnTail names).length := by
      simp [alpnTail]
      omega
    rw [htail, List.length_cons]
    omega

theorem alpnJoin_plain (names : List AlpnName) : ∀ b ∈ alpnJoin names, b ≠ 0 := by
  cases names with
  | nil => exact nofun
  | cons name names =>
    intro b hb
    rw [alpnJoin_cons, List.mem_append, alpnTail, List.mem_flatMap] at hb
    rcases hb with hb | ⟨next, -, hb⟩
    · exact (name.plain b hb).1
    · rcases List.mem_cons.1 hb with rfl | hb
      · decide
      · exact (next.plain b hb).1

/-- The list that is stored: the names, unless memory runs out. -/
theorem setAlpnList_join (allocArr : Bool) (alloc : ℕ → Bool) (names : List AlpnName)
    (ctx : AlpnCtx) :
    (setAlpnList allocArr alloc (some (alpnJoin names)) ctx).alpnList.getD [] =
      if allocArr ∧ (List.range names.length).all alloc then names.map AlpnName.bytes else [] := by
  cases names with
  | nil => simp [setAlpnList, alpnJoin]
  | cons name names =>
    have hplain := alpnJoin_plain (name :: names)
    obtain ⟨b, bytes, hcons⟩ : ∃ b bytes, alpnJoin (name :: names) = b :: bytes := by
      obtain ⟨b, bytes, hbytes⟩ := List.exists_cons_of_length_pos name.pos
      exact ⟨b, bytes ++ alpnTail names, by rw [alpnJoin_cons, hbytes, List.cons_append]⟩
    have hhead : (alpnJoin (name :: names)).headD 0 ≠ 0 := by
      rw [hcons]
      exact hplain b (by rw [hcons]; exact List.mem_cons_self)
    have hcap : ((alpnJoin (name :: names)).takeWhile (· ≠ 0)).length + 1 =
      (alpnJoin (name :: names)).length + 1 := by
      rw [List.takeWhile_eq_self_iff.2 fun b hb => by simpa using hplain b hb]
    have hroom : (name :: names).length < (alpnJoin (name :: names)).length + 1 := by
      have := alpnTail_length names
      have := name.pos
      rw [alpnJoin_cons, List.length_append, List.length_cons]
      omega
    rw [setAlpnList]
    dsimp only
    rw [if_neg hhead, hcap, alpnLoop_names alloc (name :: names) (.inr rfl) hroom]
    cases allocArr with
    | false => simp
    | true =>
      rw [List.range_eq_range', List.length_nil, List.nil_append]
      by_cases hall : (List.range' 0 (name :: names).length).all alloc = true
      · rw [if_neg (by simp), if_pos hall, if_pos ⟨rfl, hall⟩]
        rfl
      · rw [if_neg (by simp), if_neg hall, if_neg fun h => hall h.2]
        rfl

/-! ## The selection -/

/-- The client's index of the first name of the server that the client has offered, or the length of
the offer. -/
structure Selects (names offer : List (List UInt8)) (r : ℕ) : Prop where
  le : r ≤ offer.length
  count_iff : r = offer.length ↔ ∀ name ∈ names, name ∉ offer
  first : r < offer.length → ∃ before name after pre post, names = before ++ name :: after ∧
    (∀ m ∈ before, m ∉ offer) ∧ offer = pre ++ name :: post ∧ name ∉ pre ∧ r = pre.length

/-- The inner loop finds the first place of a name. -/
theorem alpnOffered_eq {name : List UInt8} (hnul : ∀ b ∈ name, b ≠ 0) (i : ℕ)
    (offer : List (List UInt8)) :
    alpnOffered name i offer = none ∧ name ∉ offer ∨
      ∃ pre post, offer = pre ++ name :: post ∧ name ∉ pre ∧ alpnOffered name i offer =
      some (i + pre.length) := by
  have hlen : (name.takeWhile (· ≠ 0)).length = name.length := by
    rw [List.takeWhile_eq_self_iff.2 fun b hb => by simpa using hnul b hb]
  induction offer generalizing i with
  | nil => exact .inl ⟨rfl, List.not_mem_nil⟩
  | cons offered rest ih =>
    rw [alpnOffered, hlen]
    by_cases hsame : offered = name
    · subst hsame
      exact .inr ⟨[], rest, rfl, List.not_mem_nil, if_pos ⟨rfl, rfl⟩⟩
    · have hno :
        ¬ (offered.length = name.length ∧ offered.take name.length = name.take name.length) := by
        rintro ⟨hl, htake⟩
        rw [List.take_length, ← hl, List.take_length] at htake
        exact hsame htake
      rw [if_neg hno]
      rcases ih (i + 1) with ⟨hnone, hout⟩ | ⟨pre, post, rfl, hpre, hfound⟩
      · exact .inl ⟨hnone, fun hmem => (List.mem_cons.1 hmem).elim (fun h => hsame h.symm) hout⟩
      · refine .inr ⟨offered :: pre, post, rfl, ?_, ?_⟩
        · exact fun hmem => (List.mem_cons.1 hmem).elim (fun h => hsame h.symm) hpre
        · rw [hfound, List.length_cons]
          congr 1
          omega

theorem alpnSelectLoop_eq (names offer : List (List UInt8))
    (hnul : ∀ name ∈ names, ∀ b ∈ name, b ≠ 0) :
    alpnSelectLoop offer names = none ∧ (∀ name ∈ names, name ∉ offer) ∨
      ∃ before name after pre post, names = before ++ name :: after ∧ (∀ m ∈ before, m ∉ offer) ∧
        offer = pre ++ name :: post ∧ name ∉ pre ∧ alpnSelectLoop offer names =
        some pre.length := by
  induction names with
  | nil => exact .inl ⟨rfl, fun _ h => nomatch h⟩
  | cons name names ih =>
    rw [alpnSelectLoop]
    rcases alpnOffered_eq (hnul name List.mem_cons_self) 0 offer with ⟨hnone, hout⟩ |
      ⟨pre, post, heq, hpre, hfound⟩
    · rw [hnone]
      rcases ih fun m hm => hnul m (List.mem_cons_of_mem _ hm) with
        ⟨hloop, hall⟩ | ⟨before, m, after, pre, post, rfl, hbefore, heq, hpre, hloop⟩
      · exact .inl ⟨hloop, fun m hm => (List.mem_cons.1 hm).elim (fun h => h ▸ hout) (hall m)⟩
      · exact .inr ⟨name :: before, m, after, pre, post, rfl,
          fun m hm => (List.mem_cons.1 hm).elim (fun h => h ▸ hout) (hbefore m), heq, hpre, hloop⟩
    · rw [hfound, Nat.zero_add]
      exact .inr ⟨[], name, names, pre, post, rfl, (fun _ h => nomatch h), heq, hpre, rfl⟩

theorem selects (names : List (List UInt8)) (hnul : ∀ name ∈ names, ∀ b ∈ name, b ≠ 0)
    (offer : List (List UInt8)) :
    Selects names offer ((alpnSelectLoop offer names).getD offer.length) := by
  rcases alpnSelectLoop_eq names offer hnul with
    ⟨hloop, hall⟩ | ⟨before, name, after, pre, post, hnames, hbefore, hoffer, hpre, hloop⟩
  · rw [hloop, Option.getD_none]
    exact ⟨le_rfl, iff_of_true rfl hall, fun h => absurd h (Nat.lt_irrefl _)⟩
  · have hlt : pre.length < offer.length := by
      rw [hoffer, List.length_append, List.length_cons]
      omega
    rw [hloop, Option.getD_some]
    refine ⟨hlt.le, iff_of_false hlt.ne fun hall => ?_, fun _ =>
      ⟨before, name, after, pre, post, hnames, hbefore, hoffer, hpre, rfl⟩⟩
    refine hall name ?_ ?_
    · rw [hnames]
      exact List.mem_append_right _ List.mem_cons_self
    · rw [hoffer]
      exact List.mem_append_right _ List.mem_cons_self

/-- The names that are set are stored in order, whatever was stored before, and the selection is
made among them in the server's order. If memory runs out, none are stored and none is selected. -/
theorem alpn_list_selects (allocArr : Bool) (alloc : ℕ → Bool) (names : List AlpnName)
    (old : AlpnCtx) :
    let ctx := setAlpnList allocArr alloc (some (alpnJoin names)) old
    let stored := if allocArr ∧ (List.range names.length).all alloc then names.map AlpnName.bytes
      else []
    ctx.alpnList.getD [] = stored ∧
      (∀ offer, Selects stored offer (alpnSelectCb (some ctx) offer)) ∧
      ∀ offer, alpnSelectCb (some ⟨none⟩) offer = offer.length ∧ alpnSelectCb none offer =
        offer.length := by
  intro ctx stored
  have hstored : ctx.alpnList.getD [] = stored := setAlpnList_join allocArr alloc names old
  have hnul : ∀ name ∈ stored, ∀ b ∈ name, b ≠ 0 := by
    intro name hname b hb
    dsimp only [stored] at hname
    split at hname
    · obtain ⟨n, -, rfl⟩ := List.mem_map.1 hname
      exact (n.plain b hb).1
    · cases hname
  refine ⟨hstored, fun offer => ?_, fun offer => ⟨rfl, rfl⟩⟩
  have hcb : alpnSelectCb (some ctx) offer = (alpnSelectLoop offer stored).getD offer.length := by
    rw [← hstored, alpnSelectCb]
    cases ctx.alpnList with
    | none => rfl
    | some list => rfl
  rw [hcb]
  exact selects stored hnul offer

end Aiopquic
