/-! Names are texts, and a set of names is the strictly ascending list of its members. -/

namespace NamedLambda

/-- The name of a variable, a binder or a macro: any text at all. -/
abbrev Name := String

/-- Two names of which neither comes before the other are one name. -/
theorem name_eq_of_not_lt {left right : Name} (notBefore : ¬left < right)
    (notAfter : ¬right < left) : left = right :=
  String.le_antisymm (String.not_lt.mp notAfter) (String.not_lt.mp notBefore)

/-- A finite set of names, kept as its members in ascending order. -/
structure NameSet where
  /-- The members, each once, in the order of their characters. -/
  toList : List Name
  /-- Every member comes strictly before the ones after it. -/
  ascending : toList.Pairwise (· < ·)
deriving DecidableEq, Repr

namespace NameSet

/-- Two sets with the same members are the same set. -/
@[ext]
theorem ext_toList {left right : NameSet} (same : left.toList = right.toList) : left = right := by
  -- The order is a proposition, so the list is all there is to compare.
  cases left
  cases right
  simpa using same

instance : Membership Name NameSet where
  mem names name := name ∈ names.toList

/-- Belonging to a set is belonging to its list of members. -/
@[simp]
theorem mem_toList {names : NameSet} {name : Name} : name ∈ names.toList ↔ name ∈ names :=
  Iff.rfl

instance (name : Name) (names : NameSet) : Decidable (name ∈ names) :=
  inferInstanceAs (Decidable (name ∈ names.toList))

/-- The set without members. -/
instance : EmptyCollection NameSet where
  emptyCollection := ⟨[], List.Pairwise.nil⟩

/-- The set with one member. -/
instance : Singleton Name NameSet where
  singleton name := ⟨[name], List.pairwise_singleton _ _⟩

/-- How many names the set holds. -/
def size (names : NameSet) : Nat :=
  names.toList.length

/-- Nothing belongs to the empty set. -/
@[simp]
theorem not_mem_empty (name : Name) : name ∉ (∅ : NameSet) :=
  List.not_mem_nil

/-- A set without members is the empty one. -/
theorem eq_empty_iff {names : NameSet} : names = ∅ ↔ ∀ name, name ∉ names := by
  constructor
  · rintro rfl
    exact not_mem_empty
  · exact fun free => ext_toList (List.eq_nil_iff_forall_not_mem.mpr free)

/-- A singleton holds its one name only. -/
@[simp]
theorem mem_singleton {name other : Name} : name ∈ ({other} : NameSet) ↔ name = other :=
  List.mem_singleton

/-- The members of two ascending lists, merged into one ascending list. -/
def mergeLists : List Name → List Name → List Name
  | [], right => right
  | left, [] => left
  | a :: left, b :: right =>
    -- The smaller head goes first, and equal heads become one.
    if a < b then a :: mergeLists left (b :: right)
    else if b < a then b :: mergeLists (a :: left) right
    else a :: mergeLists left right
termination_by left right => left.length + right.length

/-- Merging keeps the members of both lists and adds none. -/
theorem mem_mergeLists {left right : List Name} {name : Name} :
    name ∈ mergeLists left right ↔ name ∈ left ∨ name ∈ right := by
  -- The induction follows the merge, and equal heads are one name in the order.
  fun_induction mergeLists left right with
  | case1 => simp
  | case2 => simp
  | case3 a left b right smaller ih => simp [ih, or_assoc]
  | case4 a left b right notSmaller greater ih => simp [ih, or_left_comm]
  | case5 a left b right notSmaller notGreater ih =>
    rw [name_eq_of_not_lt notSmaller notGreater]
    simp only [List.mem_cons, ih]
    -- The common head is named once on the left and twice on the right.
    constructor
    · rintro (same | inLeft | inRight)
      · exact .inl (.inl same)
      · exact .inl (.inr inLeft)
      · exact .inr (.inr inRight)
    · rintro ((same | inLeft) | same | inRight)
      · exact .inl same
      · exact .inr (.inl inLeft)
      · exact .inl same
      · exact .inr (.inr inRight)

/-- Merging keeps the strictly ascending order. -/
theorem mergeLists_ascending {left right : List Name} (first : left.Pairwise (· < ·))
    (second : right.Pairwise (· < ·)) : (mergeLists left right).Pairwise (· < ·) := by
  -- Each chosen head is below both remainders, whose members are all that can follow.
  fun_induction mergeLists left right with
  | case1 => exact second
  | case2 => exact first
  | case3 a left b right smaller ih =>
    rw [List.pairwise_cons] at first
    refine List.pairwise_cons.mpr ⟨?_, ih first.2 second⟩
    intro name member
    rcases mem_mergeLists.mp member with inLeft | inRight
    · exact first.1 name inLeft
    · rcases List.mem_cons.mp inRight with same | later
      · rw [same]; exact smaller
      · exact String.lt_trans smaller (List.rel_of_pairwise_cons second later)
  | case4 a left b right notSmaller greater ih =>
    rw [List.pairwise_cons] at second
    refine List.pairwise_cons.mpr ⟨?_, ih first second.2⟩
    intro name member
    rcases mem_mergeLists.mp member with inLeft | inRight
    · rcases List.mem_cons.mp inLeft with same | later
      · rw [same]; exact greater
      · exact String.lt_trans greater (List.rel_of_pairwise_cons first later)
    · exact second.1 name inRight
  | case5 a left b right notSmaller notGreater ih =>
    rw [List.pairwise_cons] at first second
    refine List.pairwise_cons.mpr ⟨?_, ih first.2 second.2⟩
    intro name member
    rcases mem_mergeLists.mp member with inLeft | inRight
    · exact first.1 name inLeft
    · rw [name_eq_of_not_lt notSmaller notGreater]
      exact second.1 name inRight

/-- The names in one set or the other. -/
instance : Union NameSet where
  union left right :=
    ⟨mergeLists left.toList right.toList, mergeLists_ascending left.ascending right.ascending⟩

/-- A union holds the members of both sets. -/
@[simp]
theorem mem_union {left right : NameSet} {name : Name} :
    name ∈ left ∪ right ↔ name ∈ left ∨ name ∈ right :=
  mem_mergeLists

/-- The set without one name. -/
def erase (names : NameSet) (name : Name) : NameSet :=
  ⟨names.toList.filter (· ≠ name), names.ascending.filter _⟩

/-- Erasing removes its name and keeps the rest. -/
@[simp]
theorem mem_erase {names : NameSet} {name erased : Name} :
    name ∈ names.erase erased ↔ name ∈ names ∧ name ≠ erased := by
  -- The filter keeps exactly the members that differ.
  change name ∈ names.toList.filter _ ↔ _
  simp

end NameSet

end NamedLambda
