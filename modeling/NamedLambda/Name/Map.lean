import NamedLambda.Name.Set

/-! A map from names keeps its entries in ascending order of their keys. -/

namespace NamedLambda

/-- A finite map from names, kept as its entries in ascending order of their keys. -/
structure NameMap (α : Type) where
  /-- The keys with their values, in the order of the keys. -/
  entries : List (Name × α)
  /-- Every key comes strictly before the keys after it. -/
  ascending : entries.Pairwise (fun earlier later => earlier.1 < later.1)
deriving DecidableEq, Repr

namespace NameMap

variable {α : Type}

instance : EmptyCollection (NameMap α) where
  emptyCollection := ⟨[], List.Pairwise.nil⟩

/-- How many keys the map has. -/
def size (map : NameMap α) : Nat :=
  map.entries.length

/-- The keys of the map, in ascending order. -/
def keys (map : NameMap α) : List Name :=
  map.entries.map Prod.fst

/-- The value stored under a name. -/
def get? (map : NameMap α) (name : Name) : Option α :=
  map.entries.lookup name

/-- The entries with one more, in its place by key, in place of an entry of the same key. -/
def insertEntry (name : Name) (value : α) : List (Name × α) → List (Name × α)
  | [] => [(name, value)]
  | (key, held) :: rest =>
    if name < key then (name, value) :: (key, held) :: rest
    else if key < name then (key, held) :: insertEntry name value rest
    else (name, value) :: rest

/-- Insertion brings in its own entry and no other. -/
theorem mem_insertEntry {name : Name} {value : α} {entries : List (Name × α)} {entry : Name × α}
    (member : entry ∈ insertEntry name value entries) :
    entry = (name, value) ∨ entry ∈ entries := by
  -- The new entry lands at one place of the walk, and everything else was there before.
  fun_induction insertEntry name value entries with
  | case1 => exact .inl (List.mem_singleton.mp member)
  | case2 key held rest smaller => exact List.mem_cons.mp member
  | case3 key held rest notSmaller greater ih =>
    rcases List.mem_cons.mp member with same | later
    · exact .inr (List.mem_cons.mpr (.inl same))
    · exact (ih later).imp_right (List.mem_cons_of_mem _)
  | case4 key held rest notSmaller notGreater =>
    exact (List.mem_cons.mp member).imp_right (List.mem_cons_of_mem _)

/-- Insertion keeps the keys strictly ascending. -/
theorem insertEntry_ascending {name : Name} {value : α} {entries : List (Name × α)}
    (ordered : entries.Pairwise (fun earlier later => earlier.1 < later.1)) :
    (insertEntry name value entries).Pairwise (fun earlier later => earlier.1 < later.1) := by
  -- The walk passes only smaller keys, and a replaced key keeps its place.
  fun_induction insertEntry name value entries with
  | case1 => exact List.pairwise_singleton _ _
  | case2 key held rest smaller =>
    refine List.pairwise_cons.mpr ⟨?_, ordered⟩
    intro entry member
    rcases List.mem_cons.mp member with same | later
    · rw [same]; exact smaller
    · exact String.lt_trans smaller (List.rel_of_pairwise_cons ordered later)
  | case3 key held rest notSmaller greater ih =>
    rw [List.pairwise_cons] at ordered
    refine List.pairwise_cons.mpr ⟨?_, ih ordered.2⟩
    intro entry member
    rcases mem_insertEntry member with same | old
    · rw [same]; exact greater
    · exact ordered.1 entry old
  | case4 key held rest notSmaller notGreater =>
    rw [List.pairwise_cons] at ordered
    have same : name = key := name_eq_of_not_lt notSmaller notGreater
    exact List.pairwise_cons.mpr ⟨fun entry member => same ▸ ordered.1 entry member, ordered.2⟩

/-- The map with a value stored under a name, in place of any value held there before. -/
def insert (map : NameMap α) (name : Name) (value : α) : NameMap α :=
  ⟨insertEntry name value map.entries, insertEntry_ascending map.ascending⟩

/-- The first of the entries decides a look-up of its own key. -/
theorem lookup_entry_cons (name key : Name) (held : α) (rest : List (Name × α)) :
    ((key, held) :: rest).lookup name = if name = key then some held else rest.lookup name := by
  -- The comparison of keys is decided by their equality.
  by_cases same : name = key
  · simp [same]
  · simp [List.lookup_cons, beq_eq_false_iff_ne.mpr same, same]

/-- A look-up after an insertion finds the new value under its name and the old ones elsewhere. -/
@[simp]
theorem get?_insert (map : NameMap α) (name other : Name) (value : α) :
    (map.insert name value).get? other = if other = name then some value else map.get? other := by
  simp only [get?, insert]
  -- The insertion passes other keys only, so none of them hides the new entry.
  fun_induction insertEntry name value map.entries with
  | case1 => simp [lookup_entry_cons]
  | case2 key held rest smaller => rw [lookup_entry_cons]
  | case3 key held rest notSmaller greater ih =>
    rw [lookup_entry_cons, lookup_entry_cons, ih]
    by_cases same : other = key
    · simp [same, String.ne_of_lt greater]
    · simp [same]
  | case4 key held rest notSmaller notGreater =>
    rw [lookup_entry_cons, lookup_entry_cons, name_eq_of_not_lt notSmaller notGreater]
    by_cases same : other = key <;> simp [same]

/-- The empty map has no values. -/
@[simp]
theorem get?_empty (name : Name) : (∅ : NameMap α).get? name = none :=
  rfl

/-- The keys are the names that have a value. -/
theorem mem_keys {map : NameMap α} {name : Name} :
    name ∈ map.keys ↔ (map.get? name).isSome := by
  -- A look-up stops at the first entry whose key is the name.
  simp only [keys, get?]
  induction map.entries with
  | nil => simp
  | cons entry rest ih =>
    rw [lookup_entry_cons, List.map_cons, List.mem_cons, ih]
    by_cases same : name = entry.1 <;> simp [same]

/-- Whether the map has the name as a key. -/
def contains (map : NameMap α) (name : Name) : Bool :=
  (map.get? name).isSome

/-- The map whose values are changed one by one. -/
def mapValues {β : Type} (map : NameMap α) (change : α → β) : NameMap β :=
  ⟨map.entries.map (fun entry => (entry.1, change entry.2)),
    List.pairwise_map.mpr (map.ascending.imp (fun before => before))⟩

/-- A look-up after changing the values. -/
@[simp]
theorem get?_mapValues {β : Type} (map : NameMap α) (change : α → β) (name : Name) :
    (map.mapValues change).get? name = (map.get? name).map change := by
  -- The keys are untouched, so both searches stop at the same entry.
  simp only [get?, mapValues]
  induction map.entries with
  | nil => rfl
  | cons entry rest ih =>
    rw [List.map_cons, lookup_entry_cons, lookup_entry_cons, ih]
    by_cases same : name = entry.1 <;> simp [same]

end NameMap

end NamedLambda
