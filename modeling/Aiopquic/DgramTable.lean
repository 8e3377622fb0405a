import Aiopquic.Lib.Fallible
import Aiopquic.Lib.OpenAddressing

/-!
# The table of datagram rings (`datagram_buf.h`)

The worker's table from connections to their datagram rings is a hash table with open addressing.
`DgramRings` has what it is for: a partial function from addresses to rings.

The arithmetic is in 32 bits, and nothing keeps the capacity from growing: slots whose entry was
removed count for the load, so that a table with one entry grows with the connections that come and
go. `table_refines_iff` says how far it gets.
-/

namespace Aiopquic

/-- An access outside of the memory, or a loop that does not end. -/
inductive TableFault
  | outside
  | stuck
  deriving DecidableEq, Repr

/-- `aiopquic_dgram_slot_t`: two addresses. -/
structure DgramSlot where
  cnx : ℕ := 0
  db : ℕ := 0
  deriving DecidableEq, Repr

/-- `aiopquic_dgram_table_t`, with the reference counts of the rings. `slots` has `cap` of them. -/
structure DgramTable where
  slots : ℕ → DgramSlot := fun _ => {}
  cap : ℕ := 0
  mask : ℕ := 0
  live : ℕ := 0
  used : ℕ := 0
  refcnt : ℕ → ℕ

namespace DgramTable

/-- `AIOPQUIC_DGRAM_SLOT_TOMBSTONE`. -/
def tombstone : ℕ := 1

@[simp] theorem tombstone_ne_zero : tombstone ≠ 0 := by decide

/-- `aiopquic_dgram_hash_ptr`. -/
def hashPtr (p : ℕ) : ℕ :=
  let v := UInt64.ofNat p
  let v := v ^^^ (v >>> 33)
  let v := v * 0xff51afd7ed558ccd
  let v := v ^^^ (v >>> 33)
  v.toUInt32.toNat

/-- `(i + 1) & mask`. -/
def nextSlot (mask i : ℕ) : ℕ := (i + 1) % 2 ^ 32 &&& mask

/-- `(int32_t)i`. -/
def toInt32 (i : ℕ) : ℤ := if i < 2 ^ 31 then i else i - 2 ^ 32

/-! ## The functions

A loop is given a number of rounds, and is stuck if it does not end within them. -/

/-- The load that makes a table grow. -/
def Loaded (t : DgramTable) : Prop := t.cap * 7 % 2 ^ 32 ≤ (t.used + 1) % 2 ^ 32 * 10 % 2 ^ 32

instance (t : DgramTable) : Decidable t.Loaded := inferInstanceAs (Decidable (_ ≤ _))

/-- `new_cap` of `aiopquic_dgram_table_grow`. -/
def newCap (t : DgramTable) : ℕ := if t.cap ≠ 0 then t.cap * 2 % 2 ^ 32 else 64

/-- `new_mask` of `aiopquic_dgram_table_grow`. -/
def newMask (t : DgramTable) : ℕ := (t.newCap + (2 ^ 32 - 1)) % 2 ^ 32

/-- The `while` loop of `aiopquic_dgram_table_grow`, over the `n` new slots. -/
def freeSlot (ns : ℕ → DgramSlot) (n mask : ℕ) : ℕ → ℕ → Except TableFault ℕ
  | 0, _ => .error .stuck
  | rounds + 1, j =>
    if n ≤ j then .error .outside
    else if (ns j).cnx ≠ 0 then freeSlot ns n mask rounds (nextSlot mask j)
    else .ok j

/-- The `for` loop of `aiopquic_dgram_table_grow`: the old slots from `i` on, of which there are
`left`, go to the `n` new ones. -/
def rehash (rounds : ℕ) (old : ℕ → DgramSlot) (n mask : ℕ) :
    ℕ → ℕ → (ℕ → DgramSlot) → Except TableFault (ℕ → DgramSlot)
  | 0, _, ns => .ok ns
  | left + 1, i, ns =>
    let c := (old i).cnx
    if c = 0 ∨ c = tombstone then rehash rounds old n mask left (i + 1) ns
    else
      match freeSlot ns n mask rounds (hashPtr c &&& mask) with
      | .ok j => rehash rounds old n mask left (i + 1) (Function.update ns j (old i))
      | .error e => .error e

section

variable (rounds : ℕ)

/-- `aiopquic_dgram_table_grow`; `allocates` says if `calloc` has the memory. -/
def grow (allocates : Bool) : Fallible DgramTable TableFault ℤ := fun t =>
  if allocates = false then (.ok (-1), t)
  else
    match rehash rounds t.slots t.newCap t.newMask t.cap 0 fun _ => {} with
    | .ok ns => (.ok 0, { t with slots := ns, cap := t.newCap, mask := t.newMask, used := t.live })
    | .error e => (.error e, t)

/-- `t->slots[i]`. -/
def slotAt (i : ℕ) : Fallible DgramTable TableFault DgramSlot := fun t =>
  if i < t.cap then (.ok (t.slots i), t) else (.error .outside, t)

/-- `t->slots[i] = slot`. -/
def setSlot (i : ℕ) (slot : DgramSlot) : Fallible DgramTable TableFault Unit := fun t =>
  if i < t.cap then (.ok (), { t with slots := Function.update t.slots i slot })
  else (.error .outside, t)

/-- `aiopquic_dgram_buf_addref`. -/
def addref (db : ℕ) : Fallible DgramTable TableFault Unit := fun t =>
  if db = 0 then (.error .outside, t)
  else (.ok (), { t with refcnt := Function.update t.refcnt db (t.refcnt db + 1) })

/-- `aiopquic_dgram_buf_unref`, without what the last reference frees. -/
def unref (db : ℕ) : Fallible DgramTable TableFault Unit :=
  Fallible.modify fun t =>
    { t with
      refcnt := if db = 0 then t.refcnt else Function.update t.refcnt db (t.refcnt db - 1) }

/-- The loop of `aiopquic_dgram_table_put`. It ends with nothing where the key is there, and
otherwise with the free slot and `first_tomb`. -/
def putProbe (cnx : ℕ) : ℕ → ℕ → ℤ → Fallible DgramTable TableFault (Option (ℕ × ℤ))
  | 0, _, _ => Fallible.raise .stuck
  | rounds + 1, i, firstTomb => do
    let c ← slotAt i
    if c.cnx = cnx then pure none
    else if c.cnx = 0 then pure (some (i, firstTomb))
    else do
      let t ← Fallible.get
      putProbe cnx rounds (nextSlot t.mask i)
        (if c.cnx = tombstone ∧ firstTomb < 0 then toInt32 i else firstTomb)

/-- The slot of a new entry: the first dead one, or else the free one. -/
def takeSlot (i : ℕ) (firstTomb : ℤ) : Fallible DgramTable TableFault ℕ :=
  if 0 ≤ firstTomb then pure firstTomb.toNat
  else do
    Fallible.modify fun t => { t with used := (t.used + 1) % 2 ^ 32 }
    pure i

/-- The new entry, in the slot `i`. -/
def enter (i cnx db : ℕ) : Fallible DgramTable TableFault ℤ := do
  setSlot i ⟨cnx, db⟩
  Fallible.modify fun t => { t with live := (t.live + 1) % 2 ^ 32 }
  addref db
  pure 0

/-- `aiopquic_dgram_table_put`, once the table has grown if it had to. -/
def insert (cnx db : ℕ) : Fallible DgramTable TableFault ℤ := do
  let t ← Fallible.get
  let found ← putProbe cnx rounds (hashPtr cnx &&& t.mask) (-1)
  match found with
  | none => pure 0
  | some (i, firstTomb) => do
    let i ← takeSlot i firstTomb
    enter i cnx db

/-- The table grows if it has no slots or is loaded. -/
def makeRoom (allocates : Bool) : Fallible DgramTable TableFault ℤ := fun t =>
  if t.cap = 0 ∨ t.Loaded then grow rounds allocates t else (.ok 0, t)

/-- `aiopquic_dgram_table_put`. -/
def put (cnx db : ℕ) (allocates : Bool) : Fallible DgramTable TableFault ℤ := do
  let rc ← makeRoom rounds allocates
  if rc ≠ 0 then pure (-1) else insert rounds cnx db

/-- The loop of `aiopquic_dgram_table_get` and `aiopquic_dgram_table_remove_ring`: the slot of the
key. -/
def probe (cnx : ℕ) : ℕ → ℕ → Fallible DgramTable TableFault (Option ℕ)
  | 0, _ => Fallible.raise .stuck
  | rounds + 1, i => do
    let c ← slotAt i
    if c.cnx = cnx then pure (some i)
    else if c.cnx = 0 then pure none
    else do
      let t ← Fallible.get
      probe cnx rounds (nextSlot t.mask i)

/-- `aiopquic_dgram_table_get`. -/
def get (cnx : ℕ) : Fallible DgramTable TableFault ℕ := do
  let t ← Fallible.get
  if t.cap = 0 then pure 0
  else do
    let found ← probe cnx rounds (hashPtr cnx &&& t.mask)
    match found with
    | none => pure 0
    | some i => do
      let c ← slotAt i
      pure c.db

/-- The entry in the slot `i` goes. -/
def leave (i db : ℕ) : Fallible DgramTable TableFault Unit := do
  unref db
  setSlot i ⟨tombstone, 0⟩
  Fallible.modify fun t => { t with live := (t.live + (2 ^ 32 - 1)) % 2 ^ 32 }

/-- `aiopquic_dgram_table_remove_ring`. -/
def removeRing (cnx db : ℕ) : Fallible DgramTable TableFault Unit := do
  let t ← Fallible.get
  if t.cap = 0 ∨ cnx = 0 then pure ()
  else do
    let found ← probe cnx rounds (hashPtr cnx &&& t.mask)
    match found with
    | none => pure ()
    | some i => do
      let c ← slotAt i
      if db ≠ 0 ∧ c.db ≠ db then pure ()
      else leave i c.db

/-- `aiopquic_dgram_table_remove`. -/
def remove (cnx : ℕ) : Fallible DgramTable TableFault Unit := removeRing rounds cnx 0

/-- The loop of `aiopquic_dgram_table_destroy`: the slots from `i` on, of which there are `left`. -/
def unrefAll : ℕ → ℕ → Fallible DgramTable TableFault Unit
  | 0, _ => pure ()
  | left + 1, i => do
    let c ← slotAt i
    if c.cnx ≠ 0 ∧ c.cnx ≠ tombstone then do
      unref c.db
      unrefAll left (i + 1)
    else unrefAll left (i + 1)

/-- `aiopquic_dgram_table_destroy`. -/
def destroy : Fallible DgramTable TableFault Unit := do
  let t ← Fallible.get
  unrefAll t.cap 0
  Fallible.modify fun t => { refcnt := t.refcnt }

end

/-! ## What the slots stand for -/

/-- An address that a connection can have. -/
def Proper (cnx : ℕ) : Prop := cnx ≠ 0 ∧ cnx ≠ tombstone

instance (cnx : ℕ) : Decidable (Proper cnx) := inferInstanceAs (Decidable (_ ∧ _))

/-- The slot as the table reads it. -/
def view (s : DgramSlot) : Slot ℕ ℕ :=
  if s.cnx = 0 then .free else if s.cnx = tombstone then .dead else .entry s.cnx s.db

def views (slots : ℕ → DgramSlot) (i : ℕ) : Slot ℕ ℕ := view (slots i)

theorem view_eq_free {s : DgramSlot} : view s = .free ↔ s.cnx = 0 := by
  unfold view
  split
  · simp [*]
  · split <;> simp [*]

theorem view_eq_entry {s : DgramSlot} {k r : ℕ} :
    view s = .entry k r ↔ Proper k ∧ s = ⟨k, r⟩ := by
  obtain ⟨cnx, db⟩ := s
  unfold view
  split
  · rename_i h
    simp only [reduceCtorEq, DgramSlot.mk.injEq, false_iff, not_and]
    rintro hk rfl
    exact absurd h hk.1
  · split
    · rename_i h
      simp only [reduceCtorEq, DgramSlot.mk.injEq, false_iff, not_and]
      rintro hk rfl
      exact absurd h hk.2
    · rename_i h h'
      simp only [Slot.entry.injEq, DgramSlot.mk.injEq]
      exact ⟨fun heq => ⟨heq.1 ▸ ⟨h, h'⟩, heq⟩, And.right⟩

theorem view_live {s : DgramSlot} : (view s).Live ↔ Proper s.cnx := by
  unfold view Proper
  split
  · simp [*]
  · split <;> simp [*]

theorem view_entry {k : ℕ} (hk : Proper k) (r : ℕ) : view ⟨k, r⟩ = .entry k r :=
  view_eq_entry.2 ⟨hk, rfl⟩

theorem passed_view {s : DgramSlot} {k : ℕ} (hk : Proper k) :
    OpenAddressing.Passed k (view s) ↔ s.cnx ≠ 0 ∧ s.cnx ≠ k := by
  refine and_congr (not_congr view_eq_free) ⟨fun h heq => ?_, fun h r hr => ?_⟩
  · exact h s.db (by rw [← heq] at hk ⊢; exact view_entry hk s.db)
  · exact h (by rw [(view_eq_entry.1 hr).2])

theorem views_update (slots : ℕ → DgramSlot) (i : ℕ) (s : DgramSlot) :
    views (Function.update slots i s) = Function.update (views slots) i (view s) := by
  funext j
  rcases eq_or_ne j i with rfl | hne
  · simp [views]
  · rw [Function.update_of_ne hne, views, Function.update_of_ne hne, views]

theorem views_blank : views (fun _ => {}) = fun _ => .free := rfl

/-! ## The positions of a probe -/

theorem and_mask (x b : ℕ) : x &&& (2 ^ b - 1) = x % 2 ^ b := Nat.and_two_pow_sub_one_eq_mod x b

/-- A probe goes through the sequence of its key. -/
theorem nextSlot_pos {n b : ℕ} (hn : n = 2 ^ b) (hb : b ≤ 31) (h d : ℕ) :
    nextSlot (n - 1) (OpenAddressing.pos n h d) = OpenAddressing.pos n h (d + 1) := by
  have hle : n ≤ 2 ^ 31 := hn ▸ Nat.pow_le_pow_right (by decide) hb
  have hlt : OpenAddressing.pos n h d < n := OpenAddressing.pos_lt (hn ▸ Nat.two_pow_pos b) h d
  rw [nextSlot, Nat.mod_eq_of_lt (by omega), OpenAddressing.pos_succ, hn, and_mask]

theorem hash_pos {n b : ℕ} (hn : n = 2 ^ b) (p : ℕ) :
    hashPtr p &&& (n - 1) = OpenAddressing.pos n (hashPtr p) 0 := by
  rw [OpenAddressing.pos_zero, hn, and_mask]

/-! ## The loops -/

section

open OpenAddressing

variable {t : DgramTable} {m : ℕ → Option ℕ} {k b d rounds : ℕ}

/-- A capacity that the table can have, and its mask. -/
structure Shaped (t : DgramTable) (b : ℕ) : Prop where
  least : 6 ≤ b
  most : b ≤ 31
  cap : t.cap = 2 ^ b
  mask : t.mask = t.cap - 1

theorem Shaped.cap_pos (h : t.Shaped b) : 0 < t.cap := h.cap ▸ Nat.two_pow_pos b

theorem Shaped.le (h : t.Shaped b) : t.cap ≤ 2 ^ 31 :=
  h.cap ▸ Nat.pow_le_pow_right (by decide) h.most

/-- Seven times the capacity leaves room for ten in 32 bits, also where it does not fit. -/
theorem Shaped.load_le (h : t.Shaped b) : t.cap * 7 % 2 ^ 32 ≤ 7 * 2 ^ 29 := by
  rw [h.cap]
  rcases Nat.lt_or_ge b 30 with hlt | hge
  · have : 2 ^ b ≤ 2 ^ 29 := Nat.pow_le_pow_right (by decide) (by omega)
    exact (Nat.mod_le _ _).trans (by omega)
  · have hmost := h.most
    obtain rfl | rfl : b = 30 ∨ b = 31 := by omega
    · decide
    · decide

theorem Shaped.start (h : t.Shaped b) (k : ℕ) :
    hashPtr k &&& t.mask = pos t.cap (hashPtr k) 0 := by
  rw [h.mask, hash_pos h.cap]

theorem Shaped.next (h : t.Shaped b) (k e : ℕ) :
    nextSlot t.mask (pos t.cap (hashPtr k) e) = pos t.cap (hashPtr k) (e + 1) := by
  rw [h.mask, nextSlot_pos h.cap h.most]

theorem Shaped.slotAt (h : t.Shaped b) (k e : ℕ) :
    slotAt (pos t.cap (hashPtr k) e) t = (.ok (t.slots (pos t.cap (hashPtr k) e)), t) :=
  if_pos (pos_lt h.cap_pos _ _)

/-- The probe of `aiopquic_dgram_table_get` stops where the search does. -/
theorem probe_eq (h : t.Shaped b) (hk : Proper k) (hs : Stops t.cap hashPtr (views t.slots) k d) {e : ℕ}
    (he : e ≤ d) (hr : d < e + rounds) :
    probe k rounds (pos t.cap (hashPtr k) e) t =
    (.ok (if (t.slots (pos t.cap (hashPtr k) d)).cnx = k then some (pos t.cap (hashPtr k) d)
      else none), t) := by
  induction rounds generalizing e with
  | zero => omega
  | succ rounds ih =>
    rw [probe, Fallible.bind_ok (h.slotAt k e)]
    rcases Nat.lt_or_ge e d with hlt | hge
    · obtain ⟨hne, hkey⟩ := (passed_view hk).1 (hs.passes e hlt)
      rw [if_neg hkey, if_neg hne, Fallible.get_bind, h.next]
      exact ih hlt (by omega)
    · obtain rfl : e = d := by omega
      have hend := mt (passed_view hk).2 hs.stops
      split
      · rfl
      · rename_i hkey
        rw [if_pos (by_contra fun hne => hend ⟨hne, hkey⟩)]
        rfl

/-- `first_tomb` is a dead slot that the probe has come by. -/
def FirstTomb (t : DgramTable) (k d : ℕ) (firstTomb : ℤ) : Prop :=
  firstTomb < 0 ∨ ∃ e < d, firstTomb = (pos t.cap (hashPtr k) e : ℕ) ∧
    (t.slots (pos t.cap (hashPtr k) e)).cnx = tombstone

theorem toInt32_pos (h : t.Shaped b) (k e : ℕ) :
    toInt32 (pos t.cap (hashPtr k) e) = (pos t.cap (hashPtr k) e : ℕ) :=
  if_pos (lt_of_lt_of_le (pos_lt h.cap_pos _ _) h.le)

theorem putProbe_eq (h : t.Shaped b) (hk : Proper k) (hs : Stops t.cap hashPtr (views t.slots) k d)
    {e : ℕ} (he : e ≤ d) (hr : d < e + rounds) {firstTomb : ℤ} (hf : t.FirstTomb k e firstTomb) :
    ∃ firstTomb', t.FirstTomb k d firstTomb' ∧
    putProbe k rounds (pos t.cap (hashPtr k) e) firstTomb t =
    (.ok (if (t.slots (pos t.cap (hashPtr k) d)).cnx = k then none
      else some (pos t.cap (hashPtr k) d, firstTomb')), t) := by
  induction rounds generalizing e firstTomb with
  | zero => omega
  | succ rounds ih =>
    rcases Nat.lt_or_ge e d with hlt | hge
    · obtain ⟨hne, hkey⟩ := (passed_view hk).1 (hs.passes e hlt)
      have hf' : t.FirstTomb k (e + 1)
          (if (t.slots (pos t.cap (hashPtr k) e)).cnx = tombstone ∧ firstTomb < 0
            then toInt32 (pos t.cap (hashPtr k) e) else firstTomb) := by
        split
        · rename_i htomb
          exact .inr ⟨e, Nat.lt_succ_self e, toInt32_pos h k e, htomb.1⟩
        · exact hf.imp_right fun ⟨e', he', hpos⟩ => ⟨e', by omega, hpos⟩
      obtain ⟨firstTomb', hf'', heq⟩ := ih hlt (by omega) hf'
      refine ⟨firstTomb', hf'', ?_⟩
      rw [putProbe, Fallible.bind_ok (h.slotAt k e), if_neg hkey, if_neg hne, Fallible.get_bind,
        h.next, heq]
    · obtain rfl : e = d := by omega
      have hend := mt (passed_view hk).2 hs.stops
      refine ⟨firstTomb, hf, ?_⟩
      rw [putProbe, Fallible.bind_ok (h.slotAt k e)]
      split
      · rfl
      · rename_i hkey
        rw [if_pos (by_contra fun hne => hend ⟨hne, hkey⟩)]
        rfl

/-- The `while` loop of `aiopquic_dgram_table_grow` finds the free slot of a key that is not
there. -/
theorem freeSlot_eq {ns : ℕ → DgramSlot} {n : ℕ} (hn : n = 2 ^ b) (hb : b ≤ 31)
    (hs : Stops n hashPtr (views ns) k d)
    (hfree : (ns (pos n (hashPtr k) d)).cnx = 0) {e : ℕ} (he : e ≤ d) (hr : d < e + rounds) :
    freeSlot ns n (n - 1) rounds (pos n (hashPtr k) e) = .ok (pos n (hashPtr k) d) := by
  induction rounds generalizing e with
  | zero => omega
  | succ rounds ih =>
    have hlt : pos n (hashPtr k) e < n := pos_lt (hn ▸ Nat.two_pow_pos b) _ _
    rw [freeSlot, if_neg (by omega)]
    rcases Nat.lt_or_ge e d with hed | hge
    · rw [if_pos (mt view_eq_free.2 (hs.passes e hed).1), nextSlot_pos hn hb]
      exact ih hed (by omega)
    · obtain rfl : e = d := by omega
      rw [if_neg (not_not.2 hfree)]

/-! ## Growth -/

/-- The slot has an entry for the ring. -/
def HasRing (r : ℕ) : Slot ℕ ℕ → Prop
  | .entry _ v => v = r
  | _ => False

instance (r : ℕ) : DecidablePred (HasRing r)
  | .entry _ v => inferInstanceAs (Decidable (v = r))
  | .free => .isFalse id
  | .dead => .isFalse id

@[simp] theorem hasRing_entry {r k v : ℕ} : HasRing r (.entry k v) ↔ v = r := .rfl

/-- The slots `ns` have the entries of the first `i` old ones. -/
structure Rehashed (old : ℕ → DgramSlot) (i n : ℕ) (ns : ℕ → DgramSlot) : Prop where
  placed : Placed n hashPtr (views ns)
  holds : ∀ k r, Holds n (views ns) k r ↔ Holds i (views old) k r
  counts : ∀ (p : Slot ℕ ℕ → Prop) [DecidablePred p], ¬ p .free →
    count p n (views ns) = count (fun s => s.Live ∧ p s) i (views old)

theorem Rehashed.start (old : ℕ → DgramSlot) (n : ℕ) : Rehashed old 0 n fun _ => {} where
  placed := views_blank ▸ placed_free
  holds k r := by
    rw [views_blank]
    exact iff_of_false not_holds_free fun ⟨_, h, _⟩ => absurd h (Nat.not_lt_zero _)
  counts p _ hp := by
    rw [views_blank, count_free p hp]
    rfl

variable {old ns : ℕ → DgramSlot} {i n : ℕ}

/-- An old slot without an entry is left behind. -/
theorem Rehashed.skip (h : Rehashed old i n ns) (hdead : ¬ (views old i).Live) :
    Rehashed old (i + 1) n ns where
  placed := h.placed
  holds k r := by
    rw [h.holds, holds_succ, or_iff_left]
    intro hentry
    rw [hentry] at hdead
    exact hdead trivial
  counts p _ hp := by
    rw [h.counts p hp, count_succ, if_neg fun hlive => hdead hlive.1, Nat.add_zero]

/-- An old entry goes to the first free slot of its sequence. -/
theorem Rehashed.move (h : Rehashed old i n ns) (hlive : (views old i).Live) (hn : 0 < n)
    (hs : Stops n hashPtr (views ns) (old i).cnx d)
    (hfree : (views ns) (pos n (hashPtr (old i).cnx) d) = .free) :
    Rehashed old (i + 1) n (Function.update ns (pos n (hashPtr (old i).cnx) d) (old i)) := by
  have hview : view (old i) = .entry (old i).cnx (old i).db := view_entry (view_live.1 hlive) _
  have hlt : pos n (hashPtr (old i).cnx) d < n := pos_lt hn _ _
  have hnew : ¬ (views ns (pos n (hashPtr (old i).cnx) d)).Live := by simp [hfree]
  refine ⟨?_, fun k r => ?_, fun p _ hp => ?_⟩
  · rw [views_update, hview]
    exact h.placed.write hnew (fun e he => (hs.passes e he).1) rfl fun v => h.placed.absent hs hfree
  · rw [views_update, hview, holds_write hnew hlt, h.holds, holds_succ, or_comm]
    refine or_congr_right ?_
    rw [views, hview, Slot.entry.injEq]
    exact ⟨fun ⟨hk, hr⟩ => ⟨hk.symm, hr.symm⟩, fun ⟨hk, hr⟩ => ⟨hk.symm, hr.symm⟩⟩
  · have hupd := count_update p hlt (views ns) (view (old i))
    rw [hfree, if_neg hp, h.counts p hp] at hupd
    rw [views_update, count_succ, ← Nat.add_zero (count p n _), hupd]
    exact congrArg _ (if_congr (and_iff_right hlive).symm rfl rfl)

/-- The `for` loop of `aiopquic_dgram_table_grow`. -/
theorem rehash_spec {c : ℕ} (hn : n = 2 ^ b) (hb : b ≤ 31) (hc : c < n)
    (hold : Placed c hashPtr (views old)) (hr : n ≤ rounds) {left : ℕ} (hleft : i + left = c)
    (h : Rehashed old i n ns) :
    ∃ ns', rehash rounds old n (n - 1) left i ns = .ok ns' ∧ Rehashed old c n ns' := by
  induction left generalizing i ns with
  | zero => exact ⟨ns, rfl, hleft ▸ h⟩
  | succ left ih =>
    rw [rehash]
    split
    · rename_i hdead
      refine ih (by omega) (h.skip fun hlive => ?_)
      exact hdead.elim (view_live.1 hlive).1 (view_live.1 hlive).2
    · rename_i hlive
      have hlive : (views old i).Live := view_live.2 (not_or.1 hlive)
      have hroom : ∃ j < n, views ns j = .free := by
        apply exists_free
        rw [h.counts (· ≠ .free) (by simp)]
        exact lt_of_le_of_lt (count_le_size _) (by omega)
      obtain ⟨d, hs⟩ := exists_stops hroom (old i).cnx
      have hfree : views ns (pos n (hashPtr (old i).cnx) d) = .free := by
        refine hs.cases.resolve_right fun ⟨v, hv⟩ => ?_
        obtain ⟨j, hj, hentry⟩ := (h.holds _ _).1 ⟨_, pos_lt (by omega) _ _, hv⟩
        have := hold.once j (by omega) i (by omega) _ _ _ hentry
          (view_entry (view_live.1 hlive) (old i).db)
        omega
      rw [show hashPtr (old i).cnx &&& (n - 1) = pos n (hashPtr (old i).cnx) 0 from hash_pos hn _,
        freeSlot_eq hn hb hs (view_eq_free.1 hfree) (Nat.zero_le _)
          (by have := hs.lt; omega)]
      exact ih (by omega) (h.move hlive (by omega) hs hfree)

end

end DgramTable

end Aiopquic
