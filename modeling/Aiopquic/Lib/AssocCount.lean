import Mathlib.Data.List.AList

/-!
# How often a value is in an association list

`AList` has no two entries with one key, and any number with one value. `values` are the values, in
the order of the entries. The lemmas say how often a value is among them after an entry is made or
taken out, so that what the entries of a table hold can be counted.
-/

namespace AList

variable {κ ν : Type*} {s : AList fun _ : κ => ν} {k : κ} {v : ν}

/-- The values of all entries. -/
def values (s : AList fun _ : κ => ν) : List ν := s.entries.map Sigma.snd

@[simp] theorem values_empty : (∅ : AList fun _ : κ => ν).values = [] := rfl

section

variable [DecidableEq κ]

theorem mem_values : v ∈ s.values ↔ ∃ k, s.lookup k = some v := by
  simp only [values, List.mem_map]
  constructor
  · rintro ⟨⟨k, w⟩, hmem, rfl⟩
    exact ⟨k, AList.mem_lookup_iff.2 hmem⟩
  · rintro ⟨k, hk⟩
    exact ⟨⟨k, v⟩, AList.mem_lookup_iff.1 hk, rfl⟩

theorem notMem_of_lookup_eq_none (h : s.lookup k = none) : k ∉ s := AList.lookup_eq_none.1 h

theorem erase_eq_self (h : s.lookup k = none) : s.erase k = s := by
  apply AList.ext
  exact List.kerase_of_notMem_keys (notMem_of_lookup_eq_none h)

variable [DecidableEq ν]

/-- A new entry has its value once more. -/
theorem count_values_insert (h : s.lookup k = none) (v w : ν) :
    (s.insert k v).values.count w = s.values.count w + if w = v then 1 else 0 := by
  rw [values, AList.entries_insert_of_notMem (notMem_of_lookup_eq_none h), List.map_cons,
    List.count_cons, values]
  congr 1
  by_cases hw : w = v
  · simp [hw]
  · simp [hw, Ne.symm hw]

/-- An entry that is taken out had its value once. -/
theorem count_values_erase (h : s.lookup k = some v) (w : ν) :
    s.values.count w = (s.erase k).values.count w + if w = v then 1 else 0 := by
  have hmem : k ∈ s.entries.keys := by
    have hk : k ∈ s := AList.lookup_isSome.1 (by rw [h]; rfl)
    exact hk
  obtain ⟨u, l₁, l₂, hnew, hl, herase⟩ := List.exists_of_kerase hmem
  have hu : u = v := by
    have hin : (⟨k, u⟩ : Sigma fun _ : κ => ν) ∈ s.entries := by
      rw [hl]
      simp
    have hlook := AList.mem_lookup_iff.2 hin
    rw [Option.mem_def, h] at hlook
    exact (Option.some.inj hlook).symm
  have hval : s.values = l₁.map Sigma.snd ++ u :: l₂.map Sigma.snd := by
    rw [values, hl, List.map_append, List.map_cons]
  have herased : (s.erase k).values = l₁.map Sigma.snd ++ l₂.map Sigma.snd := by
    rw [values, show (s.erase k).entries = s.entries.kerase k from rfl, herase, List.map_append]
  rw [hval, herased, hu, List.count_append, List.count_append, List.count_cons, Nat.add_assoc]
  congr 2
  by_cases hw : w = v
  · simp [hw]
  · simp [hw, Ne.symm hw]

end

end AList
