import NamedLambda.Name.Map

/-! A map is determined by its look-ups, as its entries stand in the order of their keys. -/

namespace NamedLambda.NameMap

variable {α : Type}

/-- The entries are the keys with the values that look-ups find. -/
theorem mem_entries_iff {map : NameMap α} {name : Name} {value : α} :
    (name, value) ∈ map.entries ↔ map.get? name = some value := by
  rw [get?, List.lookup_eq_some_iff]
  constructor
  · -- The entries before a key have smaller keys, so none of them hides it.
    intro member
    obtain ⟨before, after, split⟩ := List.append_of_mem member
    refine ⟨before, after, split, fun entry earlier => ?_⟩
    have ordered := map.ascending
    rw [split, List.pairwise_append] at ordered
    have smaller := ordered.2.2 entry earlier _ List.mem_cons_self
    exact bne_iff_ne.mpr (String.ne_of_lt smaller).symm
  · -- An entry that a look-up finds is one of them.
    rintro ⟨before, after, split, -⟩
    simp [split]

/-- No two entries of a map are the same. -/
theorem entries_nodup (map : NameMap α) : map.entries.Nodup := by
  -- Their keys differ already.
  refine map.ascending.imp ?_
  rintro earlier later before rfl
  exact String.lt_irrefl _ before

/-- The keys stand in ascending order. -/
theorem keys_ascending (map : NameMap α) : map.keys.Pairwise (· < ·) :=
  -- This is the order of the entries.
  List.pairwise_map.mpr map.ascending

/-- There are as many keys as the size of the map says. -/
@[simp]
theorem length_keys (map : NameMap α) : map.keys.length = map.size := by
  -- Each entry has one key.
  simp [keys, size]

/-- Maps that find the same values are the same map. -/
theorem ext_get? {left right : NameMap α} (same : ∀ name, left.get? name = right.get? name) :
    left = right := by
  -- The same entries in ascending order make one list only.
  have entries : left.entries = right.entries := by
    refine List.Perm.eq_of_pairwise ?_ left.ascending right.ascending ?_
    · intro first second _ _ before after
      exact absurd (String.lt_trans before after) (String.lt_irrefl _)
    · refine (List.perm_ext_iff_of_nodup left.entries_nodup right.entries_nodup).mpr ?_
      intro entry
      rw [mem_entries_iff, mem_entries_iff, same]
  cases left
  cases right
  congr

end NamedLambda.NameMap
