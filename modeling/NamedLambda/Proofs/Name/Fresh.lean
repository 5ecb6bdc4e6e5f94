import NamedLambda.Name.Fresh

/-! A fresh name is never one of the names it has to avoid. -/

namespace NamedLambda

/-- Different numbers after one stem make different names. -/
theorem numberedName_injective (stem : Name) {left right : Nat}
    (same : numberedName stem left = numberedName stem right) : left = right := by
  -- The digits behind the common stem are equal, and reading them gives the number back.
  have texts := congrArg String.toList same
  simp only [numberedName, String.toList_append] at texts
  have digits := List.append_cancel_left texts
  have read := congrArg (fun digits => Nat.ofDigitChars 10 digits 0) digits
  simpa [Nat.repr, Nat.ofDigitChars_toDigits] using read

/-- A search that ends at an avoided name has met avoided names only. -/
theorem firstUnused_rejected {stem : Name} {avoid : NameSet} {rejections number : Nat}
    (avoided : firstUnused stem avoid rejections number ∈ avoid) :
    ∀ step, step ≤ rejections → numberedName stem (number + step) ∈ avoid := by
  -- The search moves on by one number only from a name that is avoided.
  induction rejections generalizing number with
  -- The last candidate is returned without a further search.
  | zero =>
    intro step within
    have first : step = 0 := by omega
    subst first
    exact avoided
  | succ rejections ih =>
    intro step within
    simp only [firstUnused] at avoided
    split at avoided
    · -- The first candidate was rejected, and the later ones by the search that goes on.
      rename_i rejected
      cases step with
      | zero => exact rejected
      | succ step =>
        have later := ih avoided step (by omega)
        rwa [Nat.add_assoc, Nat.add_comm 1] at later
    · contradiction

/-- Names of one stem with consecutive numbers are all different. -/
theorem numberedNames_nodup (stem : Name) (first count : Nat) :
    ((List.range count).map (fun step => numberedName stem (first + step))).Nodup := by
  -- Their numbers are.
  refine List.pairwise_map.mpr (List.nodup_range.imp ?_)
  intro left right different same
  have numbers := numberedName_injective stem same
  omega

/-- The fresh name is not among the avoided names. -/
theorem freshName_not_mem (base : Name) (avoid : NameSet) : freshName base avoid ∉ avoid := by
  -- One candidate more than there are avoided names cannot all be avoided.
  intro avoided
  have rejected := firstUnused_rejected avoided
  have contained : (List.range (avoid.size + 1)).map
      (fun step => numberedName (nameStem base) (1 + step)) ⊆ avoid.toList := by
    intro name member
    obtain ⟨step, inRange, rfl⟩ := List.mem_map.mp member
    have below := List.mem_range.mp inRange
    exact rejected step (by omega)
  have count := (numberedNames_nodup _ _ _).length_le_of_subset contained
  simp only [List.length_map, List.length_range, NameSet.size] at count
  omega

end NamedLambda
