import Aiopquic.ObjectParse
import Aiopquic.ObjectRoundTrip

/-!
# What an object body can say

The parser only returns integers that its format has, and byte strings of at most `0xFFFF` bytes as
extensions. With delta-coded ids, each id is an integer of the format above the one before it.
-/

namespace Aiopquic

/-- The values of an extension that a parser of integers below `bound` returns. -/
structure ExtValue.Fits (bound : ℕ) (value : ExtValue) : Prop where
  nonneg : 0 ≤ value.integer
  lt : value.integer < bound
  short : ∀ data, value = .bytes data → data.length ≤ 0xFFFF

namespace ExtDict

/-- The ids of a dict. -/
def ids (exts : ExtDict) : List ℤ := exts.items.map Prod.fst

theorem mem_ids_set {exts : ExtDict} {id k : ℤ} {value : ExtValue} :
    k ∈ (exts.set id value).ids ↔ k = id ∨ k ∈ exts.ids := by
  rw [ids, set]
  split
  · rename_i hmem
    show k ∈ (exts.items.map _).map Prod.fst ↔ _
    rw [map_set_fst]
    constructor
    · exact .inr
    · rintro (rfl | h)
      · exact hmem
      · exact h
  · show k ∈ (exts.items ++ [(id, value)]).map Prod.fst ↔ _
    rw [List.map_append, List.mem_append, or_comm]
    simp [ids]

theorem mem_items_set {exts : ExtDict} {id : ℤ} {value : ExtValue} {item : ℤ × ExtValue}
    (h : item ∈ (exts.set id value).items) : item = (id, value) ∨ item ∈ exts.items := by
  rw [set] at h
  split at h
  · obtain ⟨old, hold, heq⟩ := List.mem_map.1 h
    split at heq
    · exact .inl heq.symm
    · exact .inr (heq ▸ hold)
  · rcases List.mem_append.1 h with hold | hnew
    · exact .inr hold
    · exact .inl (List.mem_singleton.1 hnew)

/-- The ids have no gaps of `bound` or more, where they are coded as differences; else they are
below `bound`. -/
def Spaced (bound : ℕ) (kvpDelta : Bool) (ids : List ℤ) : Prop :=
  ∀ k ∈ ids, k < bound ∨ kvpDelta = true ∧ ∃ j ∈ ids, j < k ∧ k - j < bound

/-- A dict whose ids and values a parser of integers below `bound` can return. -/
structure Fits (bound : ℕ) (kvpDelta : Bool) (exts : ExtDict) : Prop where
  values : ∀ item ∈ exts.items, item.2.Fits bound
  spaced : Spaced bound kvpDelta exts.ids

theorem Fits.perm {bound : ℕ} {kvpDelta : Bool} {exts exts' : ExtDict}
    (h : exts.Fits bound kvpDelta)
    (hperm : exts.items.Perm exts'.items) : exts'.Fits bound kvpDelta := by
  have hids : exts.ids.Perm exts'.ids := hperm.map Prod.fst
  refine ⟨fun item hmem => h.values item (hperm.mem_iff.2 hmem), fun k hk => ?_⟩
  refine (h.spaced k (hids.mem_iff.2 hk)).imp_right fun ⟨hdelta, j, hj, hlt⟩ => ?_
  exact ⟨hdelta, j, hids.mem_iff.1 hj, hlt⟩

end ExtDict

namespace BodySource

/-- The chain gives integers below `bound`, and as many bytes as it is asked for. -/
structure Bounded (src : BodySource FlatBuffer) (bound : ℕ) : Prop where
  pullVint : ∀ f n f', src.pullVint f = (.ok n, f') → n < bound
  pullBytes : ∀ n f data f', src.pullBytes n f = (.ok data, f') → (data.length : ℤ) = n

variable {src : BodySource FlatBuffer} {bound : ℕ} {kvpDelta : Bool} {f f' : FlatBuffer}

theorem Bounded.pullSsize (hb : src.Bounded bound) {n : ℤ} (h : src.pullSsize f = (.ok n, f')) :
    0 ≤ n ∧ n < bound := by
  rw [BodySource.pullSsize, Fallible.bind_eq_ok] at h
  obtain ⟨v, g, hv, hn⟩ := h
  have hlt := hb.pullVint f v g hv
  split at hn
  · cases hn
    omega
  · cases hn

theorem Bounded.extValue (hb : src.Bounded bound) {extsEnd : ℤ} {extId : ℕ} {value : ExtValue}
    (h : src.extValue extsEnd extId f = (.ok value, f')) : value.Fits bound := by
  rw [BodySource.extValue] at h
  split at h
  · obtain ⟨n, g, hn, hvalue⟩ := Fallible.bind_eq_ok.1 h
    cases hvalue
    exact ⟨Int.natCast_nonneg n, Int.ofNat_lt.2 (hb.pullVint f n _ hn), (by simp)⟩
  · obtain ⟨n, g, hn, hrest⟩ := Fallible.bind_eq_ok.1 h
    obtain ⟨pos, g', hpos, hrest⟩ := Fallible.bind_eq_ok.1 hrest
    obtain ⟨hnonneg, hlt⟩ := hb.pullSsize hn
    split at hrest
    · cases hrest
    · rename_i hfits
      obtain ⟨data, g'', hdata, hvalue⟩ := Fallible.bind_eq_ok.1 hrest
      cases hvalue
      have hlen := hb.pullBytes _ _ _ _ hdata
      refine ⟨Int.natCast_nonneg _, ?_, ?_⟩
      · show (data.length : ℤ) < bound
        omega
      · rintro data' heq
        cases heq
        omega

/-- A round of the loop that comes to an end: it is the last one, or an extension is read and
set. -/
theorem extLoop_eq_ok {extsEnd : ℤ} {fuel prevId : ℕ} {exts exts' : ExtDict}
    (h : src.extLoop kvpDelta extsEnd (fuel + 1) prevId exts f = (.ok exts', f')) :
    ∃ pos g, src.tell f = (.ok pos, g) ∧
      (¬ pos < extsEnd ∧ exts' = exts ∧ f' = g ∨
        pos < extsEnd ∧ ∃ wireId g₁ value g₂ pos' g₃, src.pullVint g = (.ok wireId, g₁) ∧
          src.extValue extsEnd (if kvpDelta then prevId + wireId else wireId) g₁ = (.ok value, g₂) ∧
          src.tell g₂ = (.ok pos', g₃) ∧ pos' ≤ extsEnd ∧
          src.extLoop kvpDelta extsEnd fuel (if kvpDelta then prevId + wireId else prevId)
            (exts.set (if kvpDelta then prevId + wireId else wireId : ℕ) value) g₃ =
            (.ok exts', f')) := by
  rw [BodySource.extLoop] at h
  obtain ⟨pos, g, hpos, h⟩ := Fallible.bind_eq_ok.1 h
  refine ⟨pos, g, hpos, ?_⟩
  by_cases hlt : pos < extsEnd
  · rw [if_pos hlt] at h
    obtain ⟨wireId, g₁, hwire, h⟩ := Fallible.bind_eq_ok.1 h
    have hnext : (if kvpDelta then (if kvpDelta then prevId + wireId else wireId) else prevId) =
        if kvpDelta then prevId + wireId else prevId := by
      split <;> rfl
    rw [hnext] at h
    obtain ⟨extId, hid⟩ : ∃ extId, extId = if kvpDelta then prevId + wireId else wireId := ⟨_, rfl⟩
    rw [← hid] at h
    by_cases hover : kvpDelta = true ∧ 0xFFFFFFFFFFFFFFFF < extId
    · rw [if_pos hover] at h
      cases h
    · rw [if_neg hover] at h
      obtain ⟨value, g₂, hvalue, h⟩ := Fallible.bind_eq_ok.1 h
      obtain ⟨pos', g₃, hpos', h⟩ := Fallible.bind_eq_ok.1 h
      by_cases hend : extsEnd < pos'
      · rw [if_pos hend] at h
        cases h
      · rw [if_neg hend] at h
        subst hid
        exact .inr ⟨hlt, wireId, g₁, value, g₂, pos', g₃, hwire, hvalue, hpos', not_lt.1 hend, h⟩
  · rw [if_neg hlt] at h
    cases h
    exact .inl ⟨hlt, rfl, rfl⟩

/-- What each extension that is set keeps, the loop keeps. -/
theorem Bounded.extLoop (hb : src.Bounded bound) {P : ℕ → ExtDict → Prop}
    (hset : ∀ prevId exts wireId value, P prevId exts → wireId < bound → value.Fits bound →
      P (if kvpDelta then prevId + wireId else prevId)
        (exts.set (if kvpDelta then prevId + wireId else wireId : ℕ) value))
    {extsEnd : ℤ} {fuel prevId : ℕ} {exts exts' : ExtDict} (hP : P prevId exts)
    (h : src.extLoop kvpDelta extsEnd fuel prevId exts f = (.ok exts', f')) :
    ∃ last, P last exts' := by
  induction fuel generalizing prevId exts f with
  | zero => cases h
  | succ fuel ih =>
    obtain ⟨pos, g, -,
      ⟨-, rfl, -⟩ | ⟨-, wireId, g₁, value, g₂, pos', g₃, hwire, hvalue, -, -, hrest⟩⟩ :=
      extLoop_eq_ok h
    · exact ⟨prevId, hP⟩
    · exact ih (hset prevId exts wireId value hP (hb.pullVint _ _ _ hwire) (hb.extValue hvalue))
        hrest

/-- The dict that the loop makes fits the format. -/
theorem Bounded.extLoop_fits (hb : src.Bounded bound) {extsEnd : ℤ} {fuel : ℕ} {exts : ExtDict}
    (h : src.extLoop kvpDelta extsEnd fuel 0 {} f = (.ok exts, f')) : exts.Fits bound kvpDelta := by
  have hstart : ExtDict.Fits bound kvpDelta {} ∧
    (kvpDelta = true → 0 = 0 ∨ ((0 : ℕ) : ℤ) ∈ ExtDict.ids {}) :=
    ⟨⟨nofun, nofun⟩, fun _ => .inl rfl⟩
  obtain ⟨last, hfits, -⟩ := hb.extLoop
    (P := fun prevId exts => exts.Fits bound kvpDelta ∧
      (kvpDelta = true → prevId = 0 ∨ (prevId : ℤ) ∈ exts.ids))
    (fun prevId exts wireId value ⟨hfits, hprev⟩ hlt hvalue => by
      refine ⟨⟨fun item hmem => ?_, fun k hk => ?_⟩, fun hdelta => ?_⟩
      · rcases ExtDict.mem_items_set hmem with rfl | hold
        · exact hvalue
        · exact hfits.values item hold
      · have hold : k ∈ exts.ids → k < bound ∨ kvpDelta = true ∧ ∃ j ∈
            (exts.set (if kvpDelta then prevId + wireId else wireId : ℕ) value).ids, j < k ∧ k - j <
              bound := by
          intro hmem
          refine (hfits.spaced k hmem).imp_right fun ⟨hdelta, j, hj, hjk⟩ => ?_
          exact ⟨hdelta, j, ExtDict.mem_ids_set.2 (.inr hj), hjk⟩
        rcases ExtDict.mem_ids_set.1 hk with rfl | hmem
        · cases kvpDelta with
          | false => exact .inl (by simpa using hlt)
          | true =>
            rcases hprev rfl with hzero | hmem
            · exact .inl (by simpa [hzero] using hlt)
            · by_cases hwire : wireId = 0
              · refine hold ?_
                rw [hwire]
                exact hmem
              · refine .inr ⟨rfl, prevId, ExtDict.mem_ids_set.2 (.inr hmem), ?_⟩
                rw [if_pos rfl]
                omega
        · exact hold hmem
      · rw [if_pos hdelta, hdelta]
        exact .inr (ExtDict.mem_ids_set.2 (.inl rfl)))
    hstart h
  exact hfits

end BodySource

end Aiopquic
