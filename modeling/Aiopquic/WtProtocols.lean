import Aiopquic.AlpnList
import Mathlib.Data.List.DropRight
import Mathlib.Data.List.Find
import Mathlib.Data.List.TakeWhile
import Mathlib.Tactic.Common

/-!
# Selection of the WebTransport protocol (`h3wt_callback.h`)

A client offers protocols in a header that is a comma-separated list of quoted names, and a server
supports those of another such list. `aiopquic_wt_list_next` walks over either. It knows blanks, one
pair of quotes and parameters, and it takes every comma for the end of an item.
-/

namespace Aiopquic

/-! ## The list -/

def wtBlank (b : UInt8) : Bool := b = 0x20 ∨ b = 0x09

def wtSeparates (b : UInt8) : Bool := wtBlank b ∨ b = 0x2C

/-- One pair of quotes is taken off. -/
def wtUnquote (s : List UInt8) : List UInt8 :=
  if 2 ≤ s.length ∧ s.head? = some 0x22 ∧ s.getLast? = some 0x22 then s.tail.dropLast else s

/-- `aiopquic_wt_list_next`, for the bytes from `p` to `end`: the item and the bytes from the
position after it. -/
def wtListNext (p : List UInt8) : Option (List UInt8 × List UInt8) :=
  let p := p.dropWhile wtSeparates
  if p = [] then none
  else
    let piece := p.takeWhile (· ≠ 0x2C)
    let stop := (piece.takeWhile (· ≠ 0x3B)).rdropWhile wtBlank
    some (wtUnquote stop, p.dropWhile (· ≠ 0x2C))

/-- A loop over a list, which `visit` may leave with a value. Without `fuel` it does not end. -/
def wtWalk {α : Type} (visit : List UInt8 → Option α) : ℕ → List UInt8 → Option (Option α)
  | 0, _ => none
  | fuel + 1, q =>
    match wtListNext q with
    | none => some none
    | some (item, q) =>
      match visit item with
      | some a => some (some a)
      | none => wtWalk visit fuel q

/-- The items that a loop over a list goes through. -/
def wtItems : ℕ → List UInt8 → Option (List (List UInt8))
  | 0, _ => none
  | fuel + 1, q =>
    match wtListNext q with
    | none => some []
    | some (item, q) => (wtItems fuel q).map (item :: ·)

/-! ## The selection -/

def wtProtoNoMatch : ℤ := -1

def wtProtoNoneOffered : ℤ := 0

def wtProtoSelected : ℤ := 1

/-- What `aiopquic_wt_select_protocol` returns, and the name that it has passed to
`picowt_set_wt_protocol`. -/
structure WtSelection where
  code : ℤ
  set : Option (List UInt8) := none
  deriving DecidableEq, Repr

/-- The inner loop, for an item of the offer: it is left with a selection, or without one if the
name is too long. -/
def wtSupports (setOk : List UInt8 → Bool) (supported o : List UInt8) :
    Option (Option (Option WtSelection)) :=
  wtWalk (fun sv =>
    if o.length = sv.length ∧ o.take sv.length = sv then
      if 256 ≤ sv.length then some none
      else some (some ⟨if setOk sv then wtProtoSelected else wtProtoNoMatch, some sv⟩)
    else none) (supported.length + 1) supported

/-- The body of the second loop over the offer. A loop that does not end has no selection. -/
def wtVisit (setOk : List UInt8 → Bool) (supported o : List UInt8) : Option (Option WtSelection) :=
  if o.length = 0 then none
  else
    match wtSupports setOk supported o with
    | none => some none
    | some none => none
    | some (some none) => none
    | some (some (some selection)) => some (some selection)

/-- `aiopquic_wt_select_protocol`. `offer` is the header, if there is one, and `supported` is up to
its first `NUL`. `setOk` says which names `picowt_set_wt_protocol` takes. -/
def wtSelectProtocol (setOk : List UInt8 → Bool) (offer : Option (List UInt8))
    (supported : List UInt8) :
    Option WtSelection :=
  match offer with
  | none => some ⟨wtProtoNoneOffered, none⟩
  | some offer => do
    let supported := supported.takeWhile (· ≠ 0)
    let offered ← wtWalk (fun o => if 0 < o.length then some () else none) (offer.length + 1) offer
    match offered with
    | none => some ⟨wtProtoNoneOffered, none⟩
    | some () => do
      let found ← wtWalk (wtVisit setOk supported) (offer.length + 1) offer
      match found with
      | none => some ⟨wtProtoNoMatch, none⟩
      | some selection => selection

/-! ## How a list is written -/

/-- A name that has nothing in it that the list is made of. -/
structure WtName where
  bytes : List UInt8
  pos : 0 < bytes.length
  length_le : bytes.length ≤ 255
  plain : ∀ b ∈ bytes, b ≠ 0x2C ∧ b ≠ 0x3B ∧ b ≠ 0x22
  head : ∀ b, bytes.head? = some b → wtBlank b = false
  last : ∀ b, bytes.getLast? = some b → wtBlank b = false

/-- A name as it may stand in a list: with blanks around it and commas in front, in quotes or not,
and with parameters behind, in which there is no comma. -/
structure WtItem where
  name : WtName
  lead : List UInt8 := []
  quoted : Bool := false
  blanks : List UInt8 := []
  params : Option (List UInt8) := none
  lead_separates : ∀ b ∈ lead, wtSeparates b = true := by simp
  blanks_blank : ∀ b ∈ blanks, wtBlank b = true := by simp
  params_plain : ∀ ps ∈ params, ∀ b ∈ ps, b ≠ 0x2C := by simp

namespace WtItem

variable (item : WtItem)

/-- The name, with its quotes. -/
def core : List UInt8 := if item.quoted then 0x22 :: (item.name.bytes ++ [0x22])
    else item.name.bytes

/-- The name, with all that comes up to the next comma. -/
def body : List UInt8 := item.core ++ item.blanks ++ item.params.elim [] (0x3B :: ·)

def text : List UInt8 := item.lead ++ item.body

end WtItem

/-- A list: commas between the items, and nothing but separators behind the last. -/
structure WtList where
  items : List WtItem
  trail : List UInt8 := []
  trail_separates : ∀ b ∈ trail, wtSeparates b = true := by simp

namespace WtList

def text (l : WtList) : List UInt8 := [0x2C].intercalate (l.items.map WtItem.text) ++ l.trail

def names (l : WtList) : List (List UInt8) := l.items.map (·.name.bytes)

end WtList

/-- `_sf_string_list`, in bytes. -/
def sfStringList (names : List WtName) : List UInt8 :=
  [0x2C, 0x20].intercalate (names.map fun name => 0x22 :: (name.bytes ++ [0x22]))

/-- A list that is written as a C string. -/
structure WtSupported extends WtList where
  text_nul : ∀ b ∈ toWtList.text, b ≠ 0

/-! ## One item -/

theorem rdropWhile_blanks {s blanks : List UInt8} (hblanks : ∀ b ∈ blanks, wtBlank b = true)
    (hlast : ∀ b, s.getLast? = some b → wtBlank b = false) :
    (s ++ blanks).rdropWhile wtBlank = s := by
  induction blanks using List.reverseRecOn with
  | nil =>
    rw [List.append_nil, List.rdropWhile_eq_self_iff]
    intro hne
    simp [hlast _ (List.getLast?_eq_some_getLast hne)]
  | append_singleton blanks b ih =>
    rw [← List.append_assoc, List.rdropWhile_concat_pos _ _ _ (hblanks b (by simp))]
    exact ih fun c hc => hblanks c (List.mem_append_left _ hc)

namespace WtItem

variable (item : WtItem)

/-- What `core` is made of: a first and a last byte that are no blanks, and nothing that ends it. -/
theorem core_plain : ∀ b ∈ item.core, b ≠ 0x2C ∧ b ≠ 0x3B := by
  intro b hb
  have hname : ∀ c ∈ item.name.bytes, c ≠ 0x2C ∧ c ≠ 0x3B := fun c hc =>
    ⟨(item.name.plain c hc).1, (item.name.plain c hc).2.1⟩
  rw [core] at hb
  split at hb
  · rcases List.mem_cons.1 hb with rfl | hb
    · decide
    · rcases List.mem_append.1 hb with hb | hb
      · exact hname b hb
      · obtain rfl := List.mem_singleton.1 hb
        decide
  · exact hname b hb

theorem core_head : ∃ b more, item.core = b :: more ∧ wtSeparates b = false := by
  rw [core]
  split
  · exact ⟨0x22, _, rfl, by decide⟩
  · obtain ⟨b, more, hcons⟩ := List.exists_cons_of_length_pos item.name.pos
    have hblank := item.name.head b (by rw [hcons]; rfl)
    have hcomma := (item.name.plain b (by rw [hcons]; exact List.mem_cons_self)).1
    exact ⟨b, more, hcons, by simp [wtSeparates, hblank, hcomma]⟩

theorem core_last (b : UInt8) (h : item.core.getLast? = some b) : wtBlank b = false := by
  rw [core] at h
  split at h
  · rw [← List.cons_append, List.getLast?_concat] at h
    obtain rfl := Option.some.inj h
    decide
  · exact item.name.last b h

theorem core_unquote : wtUnquote item.core = item.name.bytes := by
  rw [core]
  split
  · rw [wtUnquote, if_pos]
    · rw [List.tail_cons, List.dropLast_concat]
    · rw [← List.cons_append, List.getLast?_concat]
      refine ⟨?_, rfl, rfl⟩
      simp
  · rw [wtUnquote, if_neg]
    rintro ⟨-, hhead, -⟩
    exact (item.name.plain 0x22 (List.mem_of_mem_head? hhead)).2.2 rfl

/-- Up to the semicolon, `body` is `core` with blanks behind, and there is no comma in it. -/
theorem body_plain : ∀ b ∈ item.body, b ≠ 0x2C := by
  intro b hb
  rw [body, List.mem_append, List.mem_append] at hb
  rcases hb with (hb | hb) | hb
  · exact (item.core_plain b hb).1
  · rintro rfl
    exact absurd (item.blanks_blank _ hb) (by decide)
  · cases hparams : item.params with
    | none =>
      rw [hparams] at hb
      exact absurd hb List.not_mem_nil
    | some ps =>
      rw [hparams] at hb
      rcases List.mem_cons.1 hb with rfl | hb
      · decide
      · exact item.params_plain ps (by rw [hparams]; rfl) b hb

theorem body_stop {blanks : List UInt8} (hblanks : ∀ b ∈ blanks, wtBlank b = true) :
    ((item.body ++ blanks).takeWhile (· ≠ 0x3B)).rdropWhile wtBlank = item.core := by
  have hsemi : ∀ bs : List UInt8, (∀ b ∈ bs, wtBlank b = true) → ∀ b ∈ item.core ++ bs,
    decide (b ≠ 0x3B) = true := by
    intro bs hbs b hb
    rw [decide_eq_true_eq]
    rcases List.mem_append.1 hb with hb | hb
    · exact (item.core_plain b hb).2
    · rintro rfl
      exact absurd (hbs _ hb) (by decide)
  rw [body]
  cases item.params with
  | none =>
    have hall : ∀ b ∈ item.blanks ++ blanks, wtBlank b = true := fun b hb =>
      (List.mem_append.1 hb).elim (item.blanks_blank b) (hblanks b)
    rw [Option.elim_none, List.append_nil, List.append_assoc, List.takeWhile_eq_self_iff.2
      (hsemi _ hall)]
    exact rdropWhile_blanks hall item.core_last
  | some ps =>
    rw [Option.elim_some, List.append_assoc (_ ++ _), List.takeWhile_append_of_pos
      (hsemi _ item.blanks_blank),
      List.cons_append, List.takeWhile_cons_of_neg (by decide), List.append_nil]
    exact rdropWhile_blanks item.blanks_blank item.core_last

/-- An item behind any separators, with what is behind it up to the next comma blank. -/
theorem listNext {seps rest : List UInt8} (hseps : ∀ b ∈ seps, wtSeparates b = true)
    (hrest : ∀ b ∈ rest.takeWhile (· ≠ 0x2C), wtBlank b = true) :
    wtListNext (seps ++ (item.body ++ rest)) =
    some (item.name.bytes, rest.dropWhile (· ≠ 0x2C)) := by
  obtain ⟨b, more, hcore, hsep⟩ := item.core_head
  have hskip : (seps ++ (item.body ++ rest)).dropWhile wtSeparates = item.body ++ rest := by
    rw [List.dropWhile_append_of_pos hseps, body, hcore, List.cons_append, List.cons_append,
      List.cons_append,
      List.dropWhile_cons_of_neg (by simp [hsep])]
  have hne : item.body ++ rest ≠ [] := by
    rw [body, hcore]
    simp
  have hplain : ∀ b ∈ item.body, decide (b ≠ 0x2C) = true := fun b hb =>
    decide_eq_true (item.body_plain b hb)
  rw [wtListNext, hskip]
  dsimp only
  rw [if_neg hne, List.takeWhile_append_of_pos hplain, List.dropWhile_append_of_pos hplain,
    item.body_stop hrest,
    item.core_unquote]

end WtItem

/-! ## The loops -/

theorem wtListNext_separators {p : List UInt8} (h : ∀ b ∈ p, wtSeparates b = true) :
    wtListNext p = none := by
  rw [wtListNext, List.dropWhile_eq_nil_iff.2 h]
  rfl

/-- The position moves on: it was at a byte that is no comma, and it is at a comma or at the end. -/
theorem wtListNext_shorter {p q item : List UInt8} (h : wtListNext p = some (item, q)) :
    q.length < p.length := by
  rw [wtListNext] at h
  dsimp only at h
  cases hskip : p.dropWhile wtSeparates with
  | nil => rw [if_pos hskip] at h; cases h
  | cons b more =>
    have hsep : ¬ wtSeparates b = true := by
      have := List.head?_dropWhile_not wtSeparates p
      rw [hskip] at this
      simpa using this
    have hcomma : b ≠ 0x2C := by
      rintro rfl
      exact hsep (by decide)
    rw [hskip, if_neg (List.cons_ne_nil b more)] at h
    obtain ⟨-, rfl⟩ := Prod.mk.inj (Option.some.inj h)
    have hle : (b :: more).length ≤ p.length := by
      rw [← hskip]
      exact (List.dropWhile_sublist _).length_le
    have hmore := (List.dropWhile_sublist (p := fun b : UInt8 => decide (b ≠ 0x2C))
      (l := more)).length_le
    rw [List.length_cons] at hle
    rw [List.dropWhile_cons_of_pos (by simpa using hcomma)]
    omega

/-- A loop goes around no more often than there are bytes. -/
theorem wtItems_ends {fuel : ℕ} {p : List UInt8} (h : p.length < fuel) :
    ∃ items, wtItems fuel p = some items := by
  induction fuel generalizing p with
  | zero => exact absurd h (Nat.not_lt_zero _)
  | succ fuel ih =>
    cases hnext : wtListNext p with
    | none => exact ⟨[], by rw [wtItems, hnext]⟩
    | some next =>
      obtain ⟨item, q⟩ := next
      obtain ⟨items, hitems⟩ := ih (p := q) (by have := wtListNext_shorter hnext; omega)
      refine ⟨item :: items, ?_⟩
      rw [wtItems, hnext]
      dsimp only
      rw [hitems, Option.map_some]

/-- What a loop with a body does is said by the items. -/
theorem wtWalk_eq {α : Type} (visit : List UInt8 → Option α) {fuel : ℕ} {p : List UInt8}
    {items : List (List UInt8)}
    (h : wtItems fuel p = some items) : wtWalk visit fuel p = some (items.findSome? visit) := by
  induction fuel generalizing p items with
  | zero => cases h
  | succ fuel ih =>
    rw [wtItems] at h
    rw [wtWalk]
    cases hnext : wtListNext p with
    | none =>
      rw [hnext] at h
      obtain rfl := Option.some.inj h
      rfl
    | some next =>
      obtain ⟨item, q⟩ := next
      rw [hnext] at h
      obtain ⟨more, hmore, rfl⟩ := Option.map_eq_some_iff.1 h
      rw [List.findSome?_cons]
      dsimp only
      cases visit item with
      | none => exact ih hmore
      | some a => rfl

/-! ## The items of a list -/

/-- What is behind the first of some items. -/
def wtTail (items : List WtItem) : List UInt8 := items.flatMap fun item => 0x2C :: item.text

/-- Up to a comma, there are nothing but blanks behind an item. -/
theorem wtTail_blank {trail : List UInt8} (htrail : ∀ b ∈ trail, wtSeparates b = true)
    (items : List WtItem) :
    ∀ b ∈ (wtTail items ++ trail).takeWhile (· ≠ 0x2C), wtBlank b = true := by
  cases items with
  | nil =>
    intro b hb
    have hcomma : b ≠ 0x2C := by simpa using List.mem_takeWhile_imp hb
    have hsep := htrail b ((List.takeWhile_sublist _).subset hb)
    simpa [wtSeparates, hcomma] using hsep
  | cons item items => exact fun b hb => absurd hb List.not_mem_nil

/-- The loop behind some item: it goes through the items that follow. -/
theorem wtItems_tail {trail : List UInt8} (htrail : ∀ b ∈ trail, wtSeparates b = true)
    (items : List WtItem)
    {fuel : ℕ} (h : (wtTail items ++ trail).length < fuel) :
    wtItems fuel ((wtTail items ++ trail).dropWhile (· ≠ 0x2C)) =
    some (items.map (·.name.bytes)) := by
  induction items generalizing fuel with
  | nil =>
    obtain ⟨fuel, rfl⟩ := Nat.exists_eq_succ_of_ne_zero (Nat.ne_zero_of_lt h)
    rw [wtItems, wtListNext_separators]
    · rfl
    · exact fun b hb => htrail b ((List.dropWhile_sublist _).subset hb)
  | cons item items ih =>
    obtain ⟨fuel, rfl⟩ := Nat.exists_eq_succ_of_ne_zero (Nat.ne_zero_of_lt h)
    have htext : wtTail (item :: items) ++ trail = (0x2C :: item.lead) ++
      (item.body ++ (wtTail items ++ trail)) := by
      simp [wtTail, WtItem.text]
    have hseps : ∀ b ∈ (0x2C : UInt8) :: item.lead, wtSeparates b = true := by
      intro b hb
      rcases List.mem_cons.1 hb with rfl | hb
      · decide
      · exact item.lead_separates b hb
    have hcomma : (wtTail (item :: items) ++ trail).dropWhile (· ≠ 0x2C) = wtTail (item :: items) ++
      trail := by
      rw [htext]
      rfl
    rw [hcomma, htext, wtItems, item.listNext hseps (wtTail_blank htrail items)]
    dsimp only
    rw [ih, List.map_cons, Option.map_some]
    rw [htext, List.length_append, List.length_append, List.length_cons] at h
    omega

theorem WtList.text_cons (item : WtItem) (items : List WtItem) :
    [0x2C].intercalate ((item :: items).map WtItem.text) = item.text ++ wtTail items :=
  intercalate_map_cons [0x2C] WtItem.text item items

/-- The items of a list are its names. -/
theorem WtList.items_text (l : WtList) : wtItems (l.text.length + 1) l.text = some l.names := by
  obtain ⟨items, trail, htrail⟩ := l
  cases items with
  | nil =>
    rw [wtItems, wtListNext_separators]
    · rfl
    · simpa [WtList.text] using htrail
  | cons item items =>
    have htext : WtList.text ⟨item :: items, trail, htrail⟩ = item.lead ++
      (item.body ++ (wtTail items ++ trail)) := by
      rw [WtList.text, WtList.text_cons, WtItem.text, List.append_assoc, List.append_assoc]
    have hlen : (wtTail items ++ trail).length <
      (item.lead ++ (item.body ++ (wtTail items ++ trail))).length := by
      obtain ⟨b, more, hcore, -⟩ := item.core_head
      rw [WtItem.body, hcore]
      simp only [List.length_append, List.length_cons]
      omega
    rw [htext, wtItems, item.listNext item.lead_separates (wtTail_blank htrail items)]
    dsimp only
    rw [wtItems_tail htrail items hlen]
    rfl

/-- The list that `_sf_string_list` writes. -/
def WtList.quoted : List WtName → WtList
  | [] => { items := [] }
  | name :: names =>
    { items := { name, quoted := true } :: names.map fun name =>
        { name, quoted := true, lead := [0x20], lead_separates := by simp [wtSeparates, wtBlank] } }

theorem WtList.quoted_names (names : List WtName) :
    (WtList.quoted names).names = names.map WtName.bytes := by
  cases names with
  | nil => rfl
  | cons name names => simp [WtList.quoted, WtList.names, Function.comp_def]

theorem WtList.quoted_text (names : List WtName) :
    (WtList.quoted names).text = sfStringList names := by
  cases names with
  | nil => rfl
  | cons name names =>
    rw [sfStringList, intercalate_map_cons, WtList.text, WtList.quoted, WtList.text_cons, wtTail,
      List.flatMap_map,
      List.append_nil]
    simp [WtItem.text, WtItem.body, WtItem.core]

/-! ## What is selected -/

/-- The inner loop ends at the first item that is the name. -/
theorem wtSupports_eq (setOk : List UInt8 → Bool) {supported : List UInt8}
    {items : List (List UInt8)}
    (h : wtItems (supported.length + 1) supported = some items) (o : List UInt8) :
    wtSupports setOk supported o = some (if o ∈ items then
      some (if 256 ≤ o.length then none
        else some ⟨if setOk o then wtProtoSelected else wtProtoNoMatch, some o⟩)
      else none) := by
  rw [wtSupports, wtWalk_eq _ h]
  congr 1
  clear h
  induction items with
  | nil => rfl
  | cons sv items ih =>
    rw [List.findSome?_cons]
    by_cases hsame : o = sv
    · subst hsame
      rw [if_pos ⟨rfl, List.take_length⟩, if_pos List.mem_cons_self]
      by_cases hlong : 256 ≤ o.length
      · rw [if_pos hlong, if_pos hlong]
      · rw [if_neg hlong, if_neg hlong]
    · have hno : ¬ (o.length = sv.length ∧ o.take sv.length = sv) := by
        rintro ⟨hlen, htake⟩
        rw [← hlen, List.take_length] at htake
        exact hsame htake
      rw [if_neg hno]
      dsimp only
      rw [ih]
      simp [hsame]

/-- The items of the offer that can be selected. -/
def wtSelectable (supported : List (List UInt8)) (o : List UInt8) : Bool := o ≠ [] ∧ o ∈ supported ∧
    o.length < 256

theorem wtVisit_eq (setOk : List UInt8 → Bool) {supported : List UInt8} {items : List (List UInt8)}
    (h : wtItems (supported.length + 1) supported = some items) (o : List UInt8) :
    wtVisit setOk supported o = if wtSelectable items o then
      some (some ⟨if setOk o then wtProtoSelected else wtProtoNoMatch, some o⟩) else none := by
  rw [wtVisit, wtSupports_eq setOk h]
  by_cases hempty : o.length = 0
  · rw [if_pos hempty, if_neg]
    simp [wtSelectable, List.length_eq_zero_iff.1 hempty]
  · rw [if_neg hempty]
    have hne : o ≠ [] := fun h => hempty (List.length_eq_zero_iff.2 h)
    by_cases hmem : o ∈ items
    · by_cases hlong : 256 ≤ o.length
      · simp [wtSelectable, hmem, hlong]
      · have hlt : o.length < 256 := by omega
        simp [wtSelectable, hmem, hlong, hlt, hne]
    · simp [wtSelectable, hmem]

/-- The selection, as the items of the two lists say it. -/
def wtChoice (setOk : List UInt8 → Bool) (offered supported : List (List UInt8)) : WtSelection :=
  match offered.find? (wtSelectable supported) with
  | some o => ⟨if setOk o then wtProtoSelected else wtProtoNoMatch, some o⟩
  | none => ⟨if ∀ o ∈ offered, o = [] then wtProtoNoneOffered else wtProtoNoMatch, none⟩

theorem wtVisit_find (setOk : List UInt8 → Bool) {supported : List UInt8}
    {items : List (List UInt8)}
    (h : wtItems (supported.length + 1) supported = some items) (offered : List (List UInt8)) :
    offered.findSome? (wtVisit setOk supported) = (offered.find? (wtSelectable items)).map
      fun o => some ⟨if setOk o then wtProtoSelected else wtProtoNoMatch, some o⟩ := by
  induction offered with
  | nil => rfl
  | cons o offered ih =>
    rw [List.findSome?_cons, wtVisit_eq setOk h, List.find?_cons]
    cases wtSelectable items o with
    | true => rfl
    | false => exact ih

/-- Whatever the bytes of the two lists are, their loops end, and the selection is made among the
items. -/
theorem wtSelectProtocol_eq (setOk : List UInt8 → Bool) {offer supported : List UInt8}
    {offered items : List (List UInt8)} (hoffer : wtItems (offer.length + 1) offer = some offered)
    (hsupported : wtItems ((supported.takeWhile (· ≠ 0)).length + 1) (supported.takeWhile (· ≠ 0)) =
    some items) :
    wtSelectProtocol setOk (some offer) supported = some (wtChoice setOk offered items) := by
  rw [wtSelectProtocol, wtWalk_eq _ hoffer, wtWalk_eq _ hoffer, wtVisit_find setOk hsupported,
    wtChoice]
  by_cases hnone : ∀ o ∈ offered, o = []
  · have hfirst : offered.findSome? (fun o => if 0 < o.length then some () else none) = none :=
      List.findSome?_eq_none_iff.2 fun o ho => by simp [hnone o ho]
    have hfind : offered.find? (wtSelectable items) = none :=
      List.find?_eq_none.2 fun o ho => by simp [wtSelectable, hnone o ho]
    rw [hfirst, hfind]
    dsimp only
    rw [if_pos hnone]
    rfl
  · have hfirst : offered.findSome? (fun o => if 0 < o.length then some () else none) =
      some () := by
      cases hfirst : offered.findSome? (fun o => if 0 < o.length then some () else none) with
      | some u => rfl
      | none =>
        refine absurd (fun o ho => ?_) hnone
        have := List.findSome?_eq_none_iff.1 hfirst o ho
        simpa using this
    rw [hfirst]
    cases hfind : offered.find? (wtSelectable items) with
    | some o => rfl
    | none =>
      dsimp only
      rw [if_neg hnone]
      rfl

theorem wtChoice_none_iff (setOk : List UInt8 → Bool) (offered supported : List (List UInt8)) :
    (wtChoice setOk offered supported).code = wtProtoNoneOffered ↔ ∀ o ∈ offered, o = [] := by
  rw [wtChoice]
  cases hfind : offered.find? (wtSelectable supported) with
  | some o =>
    have hne : o ≠ [] := by
      have := List.find?_some hfind
      rw [wtSelectable, decide_eq_true_eq] at this
      exact this.1
    refine iff_of_false ?_ fun hall => hne (hall o (List.mem_of_find?_eq_some hfind))
    dsimp only
    split <;> decide
  | none =>
    dsimp only
    by_cases hall : ∀ o ∈ offered, o = []
    · rw [if_pos hall]
      exact iff_of_true rfl hall
    · rw [if_neg hall]
      exact iff_of_false (by decide) hall

/-- Names are neither empty nor too long. -/
theorem WtList.choice (setOk : List UInt8 → Bool) (offer supported : WtList) :
    wtChoice setOk offer.names supported.names = match offer.names.find? (· ∈ supported.names) with
      | some name => ⟨if setOk name then wtProtoSelected else wtProtoNoMatch, some name⟩
      | none => ⟨if offer.names = [] then wtProtoNoneOffered else wtProtoNoMatch, none⟩ := by
  have hname : ∀ name ∈ offer.names, name ≠ [] ∧ name.length < 256 := by
    intro name hname
    obtain ⟨item, -, rfl⟩ := List.mem_map.1 hname
    exact ⟨List.length_pos_iff.1 item.name.pos, Nat.lt_succ_of_le item.name.length_le⟩
  have hfind : offer.names.find? (wtSelectable supported.names) = offer.names.find?
    (· ∈ supported.names) := by
    refine List.find?_congr fun name hmem => ?_
    simp [wtSelectable, hname name hmem]
  have hempty : (∀ name ∈ offer.names, name = []) ↔ offer.names = [] := by
    refine ⟨fun h => ?_, fun h name hmem => ?_⟩
    · exact List.eq_nil_iff_forall_not_mem.2 fun name hmem => (hname name hmem).1 (h name hmem)
    · rw [h] at hmem
      exact absurd hmem List.not_mem_nil
  rw [wtChoice, hfind]
  simp only [hempty]

theorem WtSupported.text_stop (supported : WtSupported) :
    supported.text.takeWhile (· ≠ 0) = supported.text :=
  List.takeWhile_eq_self_iff.2 fun b hb => decide_eq_true (supported.text_nul b hb)

/-- The loop over a list goes through its names, in order, and what `_sf_string_list` writes is a
list of the names it is given. The first name offered that is supported is selected, and there is no
other. Whatever the bytes are, the loops end, and nothing counts as offered if all items are
empty. -/
theorem wt_protocols_selected (setOk : List UInt8 → Bool) :
    (∀ l : WtList, wtItems (l.text.length + 1) l.text = some l.names) ∧
    (∀ names : List WtName, ∃ l : WtList, l.text = sfStringList names ∧ l.names =
    names.map WtName.bytes) ∧
    (∀ (offer : WtList) (supported : WtSupported), wtSelectProtocol setOk (some offer.text)
    supported.text =
      some (match offer.names.find? (· ∈ supported.names) with
        | some name => ⟨if setOk name then wtProtoSelected else wtProtoNoMatch, some name⟩
        | none => ⟨if offer.names = [] then wtProtoNoneOffered else wtProtoNoMatch, none⟩)) ∧
    (∀ supported, wtSelectProtocol setOk none supported = some ⟨wtProtoNoneOffered, none⟩) ∧
    ∀ offer supported : List UInt8, ∃ offered items selection, wtItems (offer.length + 1) offer =
    some offered ∧
      wtItems ((supported.takeWhile (· ≠ 0)).length + 1) (supported.takeWhile (· ≠ 0)) =
      some items ∧
      wtSelectProtocol setOk (some offer) supported = some selection ∧ selection =
      wtChoice setOk offered items ∧
      (selection.code = wtProtoNoneOffered ↔ ∀ o ∈ offered, o = []) := by
  refine ⟨WtList.items_text, fun names => ?_, fun offer supported => ?_, fun _ => rfl,
    fun offer supported => ?_⟩
  · exact ⟨WtList.quoted names, WtList.quoted_text names, WtList.quoted_names names⟩
  · rw [← WtList.choice]
    apply wtSelectProtocol_eq setOk offer.items_text
    rw [supported.text_stop]
    exact supported.items_text
  · obtain ⟨offered, hoffered⟩ := wtItems_ends (Nat.lt_succ_self offer.length)
    obtain ⟨items, hitems⟩ := wtItems_ends (Nat.lt_succ_self (supported.takeWhile (· ≠ 0)).length)
    exact ⟨offered, items, _, hoffered, hitems, wtSelectProtocol_eq setOk hoffered hitems, rfl,
      wtChoice_none_iff setOk offered items⟩

/-- A name that a C string cannot hold. -/
def wtNameNul : WtName where
  bytes := [0x61, 0, 0x62]
  pos := by decide
  length_le := by decide
  plain := by simp
  head := by
    rintro b ⟨⟩
    rfl
  last := by
    rintro b ⟨⟩
    rfl

/-- A comma ends an item inside of a parameter also, here in `"a";x="b,c"`. A name with a `NUL` is
offered and supported, and it is not selected. -/
theorem wt_protocols_cut :
    wtItems 12 [0x22, 0x61, 0x22, 0x3B, 0x78, 0x3D, 0x22, 0x62, 0x2C, 0x63, 0x22] =
    some [[0x61], [0x63, 0x22]] ∧
    wtSelectProtocol (fun _ => true) (some (sfStringList [wtNameNul])) wtNameNul.bytes =
      some ⟨wtProtoNoMatch, none⟩ := by
  decide +kernel

end Aiopquic
