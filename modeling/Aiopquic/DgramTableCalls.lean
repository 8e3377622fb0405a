import Aiopquic.DgramRings
import Aiopquic.DgramTable

/-!
# The calls on the table of datagram rings

Each call on a table that stands for a map answers as the map and leaves a table that stands for the
map after the call, with the references of its entries. A table has a free slot, so that the probes
end, as long as 32 bits are enough for its capacity.
-/

namespace Aiopquic

namespace DgramTable

section

open OpenAddressing

variable {t : DgramTable} {m : ℕ → Option ℕ} {k b d rounds : ℕ}

/-! ## The invariant -/

/-- The table is a table of `m`, in 32 bits, with the references of its entries. -/
structure Inv (base : ℕ → ℕ) (t : DgramTable) (m : ℕ → Option ℕ) : Prop where
  shape : t.cap = 0 ∨ ∃ b, t.Shaped b
  load : t.cap ≠ 0 → t.used * 10 < t.cap * 7 % 2 ^ 32
  placed : Placed t.cap hashPtr (views t.slots)
  live : t.live = count Slot.Live t.cap (views t.slots)
  used : t.used = count (· ≠ .free) t.cap (views t.slots)
  map : ∀ k r, m k = some r ↔ Holds t.cap (views t.slots) k r
  refs : ∀ r ≠ 0, t.refcnt r = base r + count (HasRing r) t.cap (views t.slots)

/-- There is room for one more entry. -/
def Room (t : DgramTable) : Prop := t.cap ≠ 0 ∧ (t.used + 1) * 10 < t.cap * 7 % 2 ^ 32

variable {base : ℕ → ℕ}

theorem inv_init {refcnt : ℕ → ℕ} (h : ∀ r ≠ 0, refcnt r = base r) :
    Inv base { refcnt := refcnt } fun _ => none where
  shape := .inl rfl
  load h := absurd rfl h
  placed := views_blank ▸ placed_free
  live := rfl
  used := rfl
  map k r := iff_of_false (by simp) fun ⟨_, h, _⟩ => absurd h (Nat.not_lt_zero _)
  refs := h

theorem Inv.shaped (h : Inv base t m) (hcap : t.cap ≠ 0) : ∃ b, t.Shaped b :=
  h.shape.resolve_left hcap

theorem Inv.live_le (h : Inv base t m) : t.live ≤ t.used := by
  rw [h.live, h.used]
  refine count_le _ fun s hs hfree => ?_
  rw [hfree] at hs
  exact hs

theorem Inv.stops (h : Inv base t m) (hcap : t.cap ≠ 0) (k : ℕ) :
    ∃ d, Stops t.cap hashPtr (views t.slots) k d := by
  refine exists_stops (exists_free ?_) k
  have hload := h.load hcap
  have hmod := Nat.mod_le (t.cap * 7) (2 ^ 32)
  rw [← h.used]
  omega

/-- Where the table is not loaded there is room. -/
theorem Inv.room_of_not_loaded (h : Inv base t m) (hcap : t.cap ≠ 0) (hload : ¬ t.Loaded) :
    t.Room := by
  obtain ⟨b, hb⟩ := h.shaped hcap
  have hcur := h.load hcap
  have hle := hb.load_le
  rw [Loaded, Nat.mod_eq_of_lt (show t.used + 1 < 2 ^ 32 by omega),
    Nat.mod_eq_of_lt (show (t.used + 1) * 10 < 2 ^ 32 by omega), Nat.not_le] at hload
  exact ⟨hcap, hload⟩

/-- The growth of a table leaves room. -/
theorem load_grown {c : ℕ} (hb : 6 ≤ b) (hb' : b ≤ 30) (hc : c = 2 ^ b) {live : ℕ}
    (hload : live * 10 < c * 7 % 2 ^ 32) (hfew : live < 2 ^ 26) :
    c * 2 % 2 ^ 32 = 2 ^ (b + 1) ∧ (live + 1) * 10 < 2 ^ (b + 1) * 7 % 2 ^ 32 := by
  rw [Nat.pow_succ 2 b, ← hc]
  rcases Nat.lt_or_ge b 29 with hlt | hge
  · have : c ≤ 2 ^ 28 := hc ▸ Nat.pow_le_pow_right (by decide) (by omega)
    have : 2 ^ 6 ≤ c := hc ▸ Nat.pow_le_pow_right (by decide) hb
    rw [Nat.mod_eq_of_lt (show c * 7 < 2 ^ 32 by omega)] at hload
    rw [Nat.mod_eq_of_lt (show c * 2 < 2 ^ 32 by omega),
      Nat.mod_eq_of_lt (show c * 2 * 7 < 2 ^ 32 by omega)]
    exact ⟨rfl, by omega⟩
  · obtain rfl | rfl : b = 29 ∨ b = 30 := by omega
    · omega
    · omega

theorem grow_of_ok {ns : ℕ → DgramSlot}
    (h : rehash rounds t.slots t.newCap t.newMask t.cap 0 (fun _ => {}) = .ok ns) :
    grow rounds true t =
    (.ok 0, { t with slots := ns, cap := t.newCap, mask := t.newMask, used := t.live }) := by
  rw [grow, if_neg (by simp), h]

theorem grow_of_error {e : TableFault}
    (h : rehash rounds t.slots t.newCap t.newMask t.cap 0 (fun _ => {}) = .error e) :
    grow rounds true t = (.error e, t) := by
  rw [grow, if_neg (by simp), h]

/-- `aiopquic_dgram_table_grow` loses and duplicates nothing. -/
theorem grow_spec (h : Inv base t m) (hr : 2 ^ 31 ≤ rounds) (hfew : t.live < 2 ^ 26)
    (hcap : t.cap ≠ 2 ^ 31) :
    ∃ t', grow rounds true t = (.ok 0, t') ∧ Inv base t' m ∧ t'.Room ∧ t'.live = t.live := by
  obtain ⟨b, hleast, hmost, hnew, hlt, hroom⟩ : ∃ b, 6 ≤ b ∧ b ≤ 31 ∧ t.newCap = 2 ^ b ∧
      t.cap < 2 ^ b ∧ (t.live + 1) * 10 < 2 ^ b * 7 % 2 ^ 32 := by
    by_cases hzero : t.cap = 0
    · have hlive : t.live = 0 := by
        rw [h.live, hzero]
        rfl
      exact ⟨6, le_rfl, by decide, if_neg (not_not.2 hzero), by omega, by rw [hlive]; decide⟩
    · obtain ⟨b, hb⟩ := h.shaped hzero
      have hb30 : b ≤ 30 := by
        rcases Nat.lt_or_ge b 31 with hlt | hge
        · omega
        · exact absurd (hb.cap.trans (by rw [show b = 31 from le_antisymm hb.most hge])) hcap
      obtain ⟨hdouble, hgrown⟩ := load_grown hb.least hb30 hb.cap
        (lt_of_le_of_lt (Nat.mul_le_mul_right 10 h.live_le) (h.load hzero)) hfew
      refine ⟨b + 1, Nat.le_succ_of_le hb.least, by omega, (if_pos hzero).trans hdouble, ?_, hgrown⟩
      rw [hb.cap]
      exact Nat.pow_lt_pow_right (by decide) (Nat.lt_succ_self b)
  have hle : 2 ^ b ≤ 2 ^ 31 := Nat.pow_le_pow_right (by decide) hmost
  have hpos : 0 < 2 ^ b := Nat.two_pow_pos b
  have hmask : t.newMask = t.newCap - 1 := by
    rw [newMask, hnew]
    omega
  have hrounds : t.newCap ≤ rounds := by omega
  obtain ⟨ns, hns, hre⟩ := rehash_spec hnew hmost (hnew.symm ▸ hlt) h.placed hrounds
    (Nat.zero_add _) (Rehashed.start t.slots t.newCap)
  rw [← hmask] at hns
  refine ⟨_, grow_of_ok hns, ⟨.inr ⟨b, hleast, hmost, hnew, hmask⟩, fun _ => ?_, hre.placed, ?_, ?_, fun k r => ?_,
      fun r hr => ?_⟩, ⟨?_, ?_⟩, rfl⟩
  · show t.live * 10 < t.newCap * 7 % 2 ^ 32
    rw [hnew]
    omega
  · show t.live = count Slot.Live t.newCap (views ns)
    rw [hre.counts Slot.Live (by simp), h.live]
    exact count_congr _ fun s => ⟨fun hs => ⟨hs, hs⟩, And.left⟩
  · show t.live = count (· ≠ .free) t.newCap (views ns)
    rw [hre.counts (· ≠ .free) (by simp), h.live]
    exact count_congr _ fun s => ⟨fun hs => ⟨hs, fun hfree => by simp [hfree] at hs⟩, And.left⟩
  · exact (h.map k r).trans (hre.holds k r).symm
  · show t.refcnt r = base r + count (HasRing r) t.newCap (views ns)
    rw [hre.counts (HasRing r) id, h.refs r hr]
    refine congrArg _ (count_congr _ fun s => ⟨fun hs => ⟨?_, hs⟩, And.right⟩)
    cases s <;> first | exact hs.elim | trivial
  · show t.newCap ≠ 0
    omega
  · show (t.live + 1) * 10 < t.newCap * 7 % 2 ^ 32
    rwa [hnew]

/-! ## The calls -/

/-- A probe ends at the slot of its key, or the map does not have the key. -/
theorem Inv.found (h : Inv base t m) (hs : Stops t.cap hashPtr (views t.slots) k d) :
    (∃ r, m k = some r ∧ t.slots (pos t.cap (hashPtr k) d) = ⟨k, r⟩) ∨
    (m k = none ∧ views t.slots (pos t.cap (hashPtr k) d) = .free) := by
  have hlt : pos t.cap (hashPtr k) d < t.cap := pos_lt (Nat.zero_lt_of_lt hs.lt) _ _
  rcases hs.cases with hfree | ⟨r, hr⟩
  · refine .inr ⟨?_, hfree⟩
    cases hm : m k with
    | none => rfl
    | some r => exact absurd ((h.map k r).1 hm) (h.placed.absent hs hfree)
  · exact .inl ⟨r, (h.map k r).2 ⟨_, hlt, hr⟩, (view_eq_entry.1 hr).2⟩

/-- `aiopquic_dgram_table_get` answers as the map. -/
theorem get_spec (h : Inv base t m) (hk : Proper k) (hr : 2 ^ 31 ≤ rounds) :
    get rounds k t = (.ok ((m k).getD 0), t) := by
  rw [get, Fallible.get_bind]
  split
  · rename_i hzero
    have hnone : m k = none := by
      cases hm : m k with
      | none => rfl
      | some r =>
        obtain ⟨i, hi, -⟩ := (h.map k r).1 hm
        omega
    rw [hnone]
    rfl
  · rename_i hcap
    obtain ⟨b, hb⟩ := h.shaped hcap
    obtain ⟨d, hs⟩ := h.stops hcap k
    have hle := hb.le
    have hd := hs.lt
    have hread := hb.slotAt k d
    have hfound := h.found hs
    rw [hb.start, Fallible.bind_ok (probe_eq hb hk hs (Nat.zero_le d) (by omega))]
    obtain ⟨i, hi⟩ : ∃ i, pos t.cap (hashPtr k) d = i := ⟨_, rfl⟩
    rw [hi] at hread hfound ⊢
    rcases hfound with ⟨r, hm, hslot⟩ | ⟨hm, hfree⟩
    · rw [hslot] at hread
      rw [hslot, if_pos rfl, hm]
      exact Fallible.bind_ok hread
    · have hzero : (t.slots i).cnx = 0 := view_eq_free.1 hfree
      rw [hzero, if_neg hk.1.symm, hm]
      rfl

/-- An entry for a new key goes to a slot without one that its probe has come by. -/
theorem Inv.write (h : Inv base t m) (hroom : t.Room) (hk : Proper k) {r : ℕ} (hr : r ≠ 0)
    (hm : m k = none) (hs : Stops t.cap hashPtr (views t.slots) k d) {e : ℕ} (he : e ≤ d)
    (hnew : ¬ (views t.slots (pos t.cap (hashPtr k) e)).Live) {used : ℕ}
    (hused : used = t.used + if views t.slots (pos t.cap (hashPtr k) e) = .free then 1 else 0) :
    Inv base
      { t with
        slots := Function.update t.slots (pos t.cap (hashPtr k) e) ⟨k, r⟩
        live := t.live + 1
        used := used
        refcnt := Function.update t.refcnt r (t.refcnt r + 1) }
      (Function.update m k (some r)) := by
  have hlt : pos t.cap (hashPtr k) e < t.cap := pos_lt (Nat.zero_lt_of_lt hs.lt) _ _
  have habsent : ∀ v, ¬ Holds t.cap (views t.slots) k v :=
    fun v hv => by simp [(h.map k v).2 hv] at hm
  have hviews : views (Function.update t.slots (pos t.cap (hashPtr k) e) ⟨k, r⟩) =
      Function.update (views t.slots) (pos t.cap (hashPtr k) e) (.entry k r) := by
    rw [views_update, view_entry hk]
  have hcount : ∀ (p : Slot ℕ ℕ → Prop) [DecidablePred p],
      count p t.cap (views (Function.update t.slots (pos t.cap (hashPtr k) e) ⟨k, r⟩)) +
        (if p (views t.slots (pos t.cap (hashPtr k) e)) then 1 else 0) =
      count p t.cap (views t.slots) + if p (.entry k r) then 1 else 0 := by
    intro p _
    rw [hviews]
    exact count_update p hlt _ _
  refine ⟨h.shape.imp_right (Exists.imp fun _ hb => ⟨hb.least, hb.most, hb.cap, hb.mask⟩), fun _ => ?_,
    ?_, ?_, ?_, fun k' r' => ?_, fun r' hr' => ?_⟩
  · have := hroom.2
    show used * 10 < t.cap * 7 % 2 ^ 32
    split at hused <;> omega
  · show Placed t.cap hashPtr (views _)
    rw [hviews]
    exact h.placed.write hnew (fun e' he' => (hs.passes e' (by omega)).1) rfl habsent
  · have hlive := hcount Slot.Live
    rw [if_neg hnew, if_pos (Slot.live_entry k r), Nat.add_zero, ← h.live] at hlive
    exact hlive.symm
  · have hinuse := hcount (· ≠ .free)
    rw [← h.used, if_pos (show Slot.entry k r ≠ .free by simp)] at hinuse
    show used = count (· ≠ .free) t.cap
      (views (Function.update t.slots (pos t.cap (hashPtr k) e) ⟨k, r⟩))
    by_cases hfree : views t.slots (pos t.cap (hashPtr k) e) = .free
    · rw [if_pos hfree] at hused
      rw [if_neg (not_not.2 hfree)] at hinuse
      omega
    · rw [if_neg hfree] at hused
      rw [if_pos (show views t.slots (pos t.cap (hashPtr k) e) ≠ .free from hfree)] at hinuse
      omega
  · show Function.update m k (some r) k' = some r' ↔ Holds t.cap (views _) k' r'
    rw [hviews, holds_write hnew hlt, ← h.map]
    rcases eq_or_ne k' k with rfl | hne
    · rw [Function.update_self, hm]
      simp [eq_comm]
    · rw [Function.update_of_ne hne]
      simp [hne]
  · have hring := hcount (HasRing r')
    rw [if_neg fun hv => hnew (by revert hv; cases views t.slots _ <;> simp [HasRing])] at hring
    show Function.update t.refcnt r (t.refcnt r + 1) r' = base r' + count (HasRing r') t.cap
      (views (Function.update t.slots (pos t.cap (hashPtr k) e) ⟨k, r⟩))
    rcases eq_or_ne r' r with rfl | hne
    · rw [if_pos (hasRing_entry.2 rfl)] at hring
      rw [Function.update_self, h.refs r' hr']
      omega
    · rw [if_neg (mt hasRing_entry.1 hne.symm)] at hring
      rw [Function.update_of_ne hne, h.refs r' hr']
      omega

theorem makeRoom_spec (h : Inv base t m) (hr : 2 ^ 31 ≤ rounds) (hfew : t.live < 2 ^ 26)
    {allocates : Bool} (hcap : allocates = true → t.cap = 2 ^ 31 → ¬ t.Loaded) :
    ∃ rc t', makeRoom rounds allocates t = (.ok rc, t') ∧ Inv base t' m ∧
    (rc = 0 ∧ t'.Room ∨ rc = -1 ∧ allocates = false) ∧ t'.live = t.live := by
  unfold makeRoom
  split
  · rename_i hload
    cases allocates with
    | false => exact ⟨-1, t, rfl, h, .inr ⟨rfl, rfl⟩, rfl⟩
    | true =>
      have hne : t.cap ≠ 2 ^ 31 := by
        intro heq
        exact hload.elim (fun hzero => by omega) (hcap rfl heq)
      obtain ⟨t', heq, hinv, hroom, hlive⟩ := grow_spec h hr hfew hne
      exact ⟨0, t', heq, hinv, .inl ⟨rfl, hroom⟩, hlive⟩
  · rename_i hload
    obtain ⟨hcap, hload⟩ := not_or.1 hload
    exact ⟨0, t, rfl, h, .inl ⟨rfl, h.room_of_not_loaded hcap hload⟩, rfl⟩

/-- The slot that `aiopquic_dgram_table_put` takes for a new key. -/
theorem takeSlot_eq (hfree : views t.slots (pos t.cap (hashPtr k) d) = .free) (hused : t.used < 2 ^ 32 - 1)
    {firstTomb : ℤ} (hf : t.FirstTomb k d firstTomb) :
    ∃ e ≤ d, ¬ (views t.slots (pos t.cap (hashPtr k) e)).Live ∧
    takeSlot (pos t.cap (hashPtr k) d) firstTomb t = (.ok (pos t.cap (hashPtr k) e),
      { t with used := t.used + if views t.slots (pos t.cap (hashPtr k) e) = .free then 1 else 0 })
    := by
  rcases hf with hneg | ⟨e, he, rfl, htomb⟩
  · refine ⟨d, le_rfl, by simp [hfree], ?_⟩
    rw [takeSlot, if_neg (by omega), Fallible.modify_bind, Fallible.pure_apply, if_pos hfree,
      Nat.mod_eq_of_lt (by omega)]
  · have hdead : views t.slots (pos t.cap (hashPtr k) e) = .dead := by
      rw [views, view, if_neg (by rw [htomb]; exact tombstone_ne_zero), if_pos htomb]
    refine ⟨e, he.le, by simp [hdead], ?_⟩
    rw [takeSlot, if_pos (Int.natCast_nonneg _), Int.toNat_natCast, hdead]
    rfl

theorem setSlot_eq {i : ℕ} (hi : i < t.cap) (s : DgramSlot) :
    setSlot i s t = (.ok (), { t with slots := Function.update t.slots i s }) := if_pos hi

theorem enter_eq {i r : ℕ} (hi : i < t.cap) (hlive : t.live < 2 ^ 32 - 1) (hr : r ≠ 0) :
    enter i k r t = (.ok 0,
      { t with
        slots := Function.update t.slots i ⟨k, r⟩
        live := t.live + 1
        refcnt := Function.update t.refcnt r (t.refcnt r + 1) }) := by
  rw [enter, Fallible.bind_ok (setSlot_eq hi _), Fallible.modify_bind,
    Nat.mod_eq_of_lt (show t.live + 1 < 2 ^ 32 by omega)]
  exact Fallible.bind_ok (if_neg hr)

theorem insert_spec (h : Inv base t m) (hroom : t.Room) (hk : Proper k) {r : ℕ} (hr : r ≠ 0)
    (hrounds : 2 ^ 31 ≤ rounds) :
    ∃ t', insert rounds k r t = (.ok 0, t') ∧ Inv base t' (DgramRings.put m k r true) := by
  obtain ⟨b, hb⟩ := h.shaped hroom.1
  obtain ⟨d, hs⟩ := h.stops hroom.1 k
  have hle := hb.le
  have hd := hs.lt
  have hload := hb.load_le
  have hspace := hroom.2
  have hlive := h.live_le
  obtain ⟨firstTomb, hf, hprobe⟩ := putProbe_eq hb hk hs (Nat.zero_le d)
    (show d < 0 + rounds by omega) (.inl (show (-1 : ℤ) < 0 by decide))
  rw [insert, Fallible.get_bind, hb.start, Fallible.bind_ok hprobe]
  rcases h.found hs with ⟨r', hm, hslot⟩ | ⟨hm, hfree⟩
  · refine ⟨t, ?_, ?_⟩
    · rw [hslot, if_pos rfl]
      rfl
    · rw [DgramRings.put, if_neg (by simp [hm])]
      exact h
  · have hzero : (t.slots (pos t.cap (hashPtr k) d)).cnx = 0 := view_eq_free.1 hfree
    obtain ⟨e, he, hnew, htake⟩ := takeSlot_eq hfree (by omega) hf
    have hlt : pos t.cap (hashPtr k) e < t.cap := pos_lt (Nat.zero_lt_of_lt hd) _ _
    have hwrite := h.write hroom hk hr hm hs he hnew rfl
    rw [hzero, if_neg hk.1.symm]
    obtain ⟨i, hi⟩ : ∃ i, pos t.cap (hashPtr k) d = i := ⟨_, rfl⟩
    obtain ⟨j, hj⟩ : ∃ j, pos t.cap (hashPtr k) e = j := ⟨_, rfl⟩
    rw [hi, hj] at htake
    rw [hj] at hwrite hlt
    rw [hi]
    refine ⟨_, (Fallible.bind_ok htake).trans (enter_eq hlt ?_ hr), ?_⟩
    · show t.live < 2 ^ 32 - 1
      omega
    · have hput : DgramRings.put m k r true = Function.update m k (some r) := if_pos ⟨rfl, hm⟩
      rw [hput]
      exact hwrite

theorem put_spec (h : Inv base t m) (hk : Proper k) {r : ℕ} (hr : r ≠ 0) (hrounds : 2 ^ 31 ≤ rounds)
    (hfew : t.live < 2 ^ 26) {allocates : Bool}
    (hcap : allocates = true → t.cap = 2 ^ 31 → ¬ t.Loaded) :
    ∃ rc t', put rounds k r allocates t = (.ok rc, t') ∧ (rc = 0 ∨ rc = -1 ∧ allocates = false) ∧
    Inv base t' (DgramRings.put m k r (decide (rc = 0))) := by
  obtain ⟨rc, t', hmake, hinv, hrc, -⟩ := makeRoom_spec h hrounds hfew hcap
  rw [put, Fallible.bind_ok hmake]
  rcases hrc with ⟨rfl, hroom⟩ | ⟨rfl, hno⟩
  · obtain ⟨t'', hins, hinv'⟩ := insert_spec hinv hroom hk hr hrounds
    exact ⟨0, t'', hins, .inl rfl, hinv'⟩
  · refine ⟨-1, t', rfl, .inr ⟨rfl, hno⟩, ?_⟩
    rw [DgramRings.put, if_neg (by simp)]
    exact hinv

/-- A removed entry leaves a dead slot, and gives its reference back. -/
theorem Inv.kill (h : Inv base t m) {i r : ℕ} (hk : Proper k) (hi : i < t.cap)
    (hslot : t.slots i = ⟨k, r⟩) :
    0 < t.live ∧ Inv base
      { t with
        slots := Function.update t.slots i ⟨tombstone, 0⟩
        live := t.live - 1
        refcnt := if r = 0 then t.refcnt else Function.update t.refcnt r (t.refcnt r - 1) }
      (DgramRings.remove m k) := by
  have hentry : views t.slots i = .entry k r := by rw [views, hslot, view_entry hk]
  have hviews : views (Function.update t.slots i ⟨tombstone, 0⟩) =
      Function.update (views t.slots) i .dead := by
    rw [views_update]
    rfl
  have hcount : ∀ (p : Slot ℕ ℕ → Prop) [DecidablePred p],
      count p t.cap (views (Function.update t.slots i ⟨tombstone, 0⟩)) +
        (if p (.entry k r) then 1 else 0) =
      count p t.cap (views t.slots) + if p .dead then 1 else 0 := by
    intro p _
    rw [hviews, ← hentry]
    exact count_update p hi _ _
  have hlive := hcount Slot.Live
  rw [if_pos (Slot.live_entry k r), if_neg Slot.not_live_dead, ← h.live] at hlive
  refine ⟨by omega, h.shape.imp_right (Exists.imp fun _ hb => ⟨hb.least, hb.most, hb.cap, hb.mask⟩), h.load,
    ?_, ?_, ?_, fun k' r' => ?_, fun r' hr' => ?_⟩
  · show Placed t.cap hashPtr (views _)
    rw [hviews]
    exact h.placed.kill i
  · show t.live - 1 = count Slot.Live t.cap (views (Function.update t.slots i ⟨tombstone, 0⟩))
    omega
  · have hinuse := hcount (· ≠ .free)
    rw [if_pos (show Slot.entry k r ≠ .free by simp),
      if_pos (show (Slot.dead : Slot ℕ ℕ) ≠ .free by simp), ← h.used] at hinuse
    show t.used = count (· ≠ .free) t.cap (views (Function.update t.slots i ⟨tombstone, 0⟩))
    omega
  · show Function.update m k none k' = some r' ↔ Holds t.cap (views _) k' r'
    rw [hviews, h.placed.holds_kill hi hentry, ← h.map]
    rcases eq_or_ne k' k with rfl | hne
    · simp
    · simp [hne]
  · have hring := hcount (HasRing r')
    have href := h.refs r' hr'
    rw [if_neg (show ¬ HasRing r' .dead from id)] at hring
    show (if r = 0 then t.refcnt else Function.update t.refcnt r (t.refcnt r - 1)) r' = base r' +
      count (HasRing r') t.cap (views (Function.update t.slots i ⟨tombstone, 0⟩))
    rcases eq_or_ne r r' with rfl | hne
    · rw [if_pos (hasRing_entry.2 rfl)] at hring
      rw [if_neg hr', Function.update_self]
      omega
    · rw [if_neg (mt hasRing_entry.1 hne)] at hring
      split
      · omega
      · rw [Function.update_of_ne hne.symm]
        omega

theorem leave_eq {i r : ℕ} (hi : i < t.cap) (hlive : 0 < t.live) (hlt : t.live < 2 ^ 32) :
    leave i r t = (.ok (),
      { t with
        slots := Function.update t.slots i ⟨tombstone, 0⟩
        live := t.live - 1
        refcnt := if r = 0 then t.refcnt else Function.update t.refcnt r (t.refcnt r - 1) }) := by
  have hmod : (t.live + (2 ^ 32 - 1)) % 2 ^ 32 = t.live - 1 := by omega
  rw [leave, unref, Fallible.modify_bind]
  refine (Fallible.bind_ok (setSlot_eq (by exact hi) _)).trans ?_
  show (Except.ok (), { t with
    slots := Function.update t.slots i ⟨tombstone, 0⟩
    live := (t.live + (2 ^ 32 - 1)) % 2 ^ 32
    refcnt := if r = 0 then t.refcnt else Function.update t.refcnt r (t.refcnt r - 1) }) = _
  rw [hmod]

/-- What `aiopquic_dgram_table_remove_ring` does to the map. -/
def removed (m : ℕ → Option ℕ) (cnx db : ℕ) : ℕ → Option ℕ :=
  if db = 0 then DgramRings.remove m cnx else DgramRings.removeRing m cnx db

theorem removeRing_spec (h : Inv base t m) (hk : Proper k) (hrounds : 2 ^ 31 ≤ rounds) (db : ℕ) :
    ∃ t', removeRing rounds k db t = (.ok (), t') ∧ Inv base t' (removed m k db) := by
  have habsent : m k = none → removed m k db = m := by
    intro hm
    have hnone : DgramRings.remove m k = m := Function.update_eq_self_iff.2 hm.symm
    unfold removed DgramRings.removeRing
    split
    · exact hnone
    · rw [if_neg (by simp [hm])]
  rw [removeRing, Fallible.get_bind]
  split
  · rename_i hzero
    have hm : m k = none := by
      cases hm : m k with
      | none => rfl
      | some r =>
        obtain ⟨i, hi, -⟩ := (h.map k r).1 hm
        have := hzero.resolve_right hk.1
        omega
    exact ⟨t, rfl, by rw [habsent hm]; exact h⟩
  · rename_i hcap
    obtain ⟨b, hb⟩ := h.shaped (not_or.1 hcap).1
    obtain ⟨d, hs⟩ := h.stops (not_or.1 hcap).1 k
    have hle := hb.le
    have hd := hs.lt
    have hlt : pos t.cap (hashPtr k) d < t.cap := pos_lt (Nat.zero_lt_of_lt hd) _ _
    have hread := hb.slotAt k d
    have hfound := h.found hs
    rw [hb.start, Fallible.bind_ok (probe_eq hb hk hs (Nat.zero_le d) (by omega))]
    obtain ⟨i, hi⟩ : ∃ i, pos t.cap (hashPtr k) d = i := ⟨_, rfl⟩
    rw [hi] at hread hfound hlt ⊢
    rcases hfound with ⟨r, hm, hslot⟩ | ⟨hm, hfree⟩
    · rw [hslot] at hread
      rw [hslot, if_pos rfl]
      by_cases hother : db ≠ 0 ∧ r ≠ db
      · refine ⟨t, (Fallible.bind_ok hread).trans ?_, ?_⟩
        · rw [if_pos hother]
          rfl
        · rw [removed, if_neg hother.1, DgramRings.removeRing, if_neg (by simpa [hm] using hother.2)]
          exact h
      · obtain ⟨hlive, hkill⟩ := h.kill hk hlt hslot
        have hload := hb.load_le
        have hcur := h.load (not_or.1 hcap).1
        have hused := h.live_le
        have hmap : removed m k db = DgramRings.remove m k := by
          unfold removed DgramRings.removeRing
          split
          · rfl
          · rename_i hdb
            rw [if_pos (by rw [hm, not_not.1 fun hne => hother ⟨hdb, hne⟩])]
        rw [← hmap] at hkill
        refine ⟨_, (Fallible.bind_ok hread).trans ?_, hkill⟩
        rw [if_neg hother]
        exact leave_eq hlt hlive (by omega)
    · have hzero : (t.slots i).cnx = 0 := view_eq_free.1 hfree
      rw [hzero, if_neg hk.1.symm, habsent hm]
      exact ⟨t, rfl, h⟩

/-- `aiopquic_dgram_table_destroy` gives back the references of all entries. -/
theorem unrefAll_spec {left i : ℕ} (hcap : i + left = t.cap)
    (hrefs : ∀ r ≠ 0, t.refcnt r + count (HasRing r) i (views t.slots) =
      base r + count (HasRing r) t.cap (views t.slots)) :
    ∃ refcnt, unrefAll left i t = (.ok (), { t with refcnt := refcnt }) ∧
    ∀ r ≠ 0, refcnt r = base r := by
  induction left generalizing t i with
  | zero =>
    refine ⟨t.refcnt, rfl, fun r hr => ?_⟩
    have := hrefs r hr
    rw [show i = t.cap from hcap] at this
    omega
  | succ left ih =>
    have hi : i < t.cap := by omega
    have hread : slotAt i t = (.ok (t.slots i), t) := if_pos hi
    rw [unrefAll, Fallible.bind_ok hread]
    split
    · rename_i hk
      rw [unref, Fallible.modify_bind]
      have hentry : views t.slots i = .entry (t.slots i).cnx (t.slots i).db := view_entry hk _
      refine ih (t := { t with refcnt := _ }) (by show i + 1 + left = t.cap; omega) fun r hr => ?_
      have hr' := hrefs r hr
      show (if (t.slots i).db = 0 then t.refcnt
          else Function.update t.refcnt (t.slots i).db (t.refcnt (t.slots i).db - 1)) r +
        count (HasRing r) (i + 1) (views t.slots) = base r + count (HasRing r) t.cap (views t.slots)
      have hmono := count_mono (HasRing r) (show i + 1 ≤ t.cap by omega) (views t.slots)
      rw [count_succ, hentry] at hmono ⊢
      rcases eq_or_ne (t.slots i).db r with rfl | hne
      · rw [if_pos (hasRing_entry.2 rfl)] at hmono ⊢
        rw [if_neg hr, Function.update_self]
        omega
      · rw [if_neg (mt hasRing_entry.1 hne)]
        split
        · exact hr'
        · rwa [Function.update_of_ne hne.symm]
    · rename_i hk
      refine ih (by omega) fun r hr => ?_
      have hno : ¬ HasRing r (views t.slots i) := by
        intro hring
        refine hk (view_live.1 (?_ : (views t.slots i).Live))
        cases hv : views t.slots i <;> rw [hv] at hring <;> first | exact hring.elim | trivial
      rw [count_succ, if_neg hno]
      exact hrefs r hr

theorem putProbe_faults (hcap : t.cap = 0) (rounds i : ℕ) (firstTomb : ℤ) :
    ∃ e, putProbe k rounds i firstTomb t = (.error e, t) := by
  cases rounds with
  | zero => exact ⟨.stuck, rfl⟩
  | succ rounds =>
    exact ⟨.outside, Fallible.bind_error (if_neg (by rw [hcap]; exact Nat.not_lt_zero i))⟩

/-- The growth beyond `2 ^ 31` slots asks for `2 ^ 32`, which in 32 bits is none. -/
theorem put_faults (rounds cnx db : ℕ) (hcap : t.cap = 2 ^ 31) (hload : t.Loaded) :
    ∃ e t', put rounds cnx db true t = (.error e, t') := by
  have hnew : t.newCap = 0 := by
    rw [newCap, hcap]
    rfl
  have hroom : makeRoom rounds true t = grow rounds true t := if_pos (.inr hload)
  cases hre : rehash rounds t.slots t.newCap t.newMask t.cap 0 fun _ => {} with
  | error e => exact ⟨e, t, Fallible.bind_error (hroom.trans (grow_of_error hre))⟩
  | ok ns =>
    obtain ⟨e, hprobe⟩ := putProbe_faults (k := cnx)
      (t := { t with slots := ns, cap := t.newCap, mask := t.newMask, used := t.live }) hnew
      rounds (hashPtr cnx &&& t.newMask) (-1)
    have hins : insert rounds cnx db
        { t with slots := ns, cap := t.newCap, mask := t.newMask, used := t.live } =
        (.error e, { t with slots := ns, cap := t.newCap, mask := t.newMask, used := t.live }) := by
      rw [insert, Fallible.get_bind]
      exact Fallible.bind_error hprobe
    exact ⟨e, _, (Fallible.bind_ok (hroom.trans (grow_of_ok hre))).trans hins⟩

/-- After `aiopquic_dgram_table_destroy` the table has no references, and can be used again. -/
theorem destroy_spec (h : Inv base t m) :
    ∃ t', destroy t = (.ok (), t') ∧ Inv base t' fun _ => none := by
  obtain ⟨refcnt, hall, hrefs⟩ := unrefAll_spec (Nat.zero_add t.cap) h.refs
  exact ⟨{ refcnt := refcnt }, Fallible.bind_ok hall, inv_init hrefs⟩

end

end DgramTable

end Aiopquic
