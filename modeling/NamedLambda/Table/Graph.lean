import NamedLambda.Name.Map

/-! A dependency graph is searched depth first for an order in which dependencies come first. -/

namespace NamedLambda

/-- The names that each name depends on. -/
abbrev Graph := NameMap NameSet

namespace Graph

/-- The names from the first of two meetings with a name on a stack to the second. -/
def cycleAt (stack : List Name) (name : Name) : List Name :=
  -- The top of the stack is met last, and the name is met again after it.
  name :: (stack.takeWhile (· ≠ name)).reverse ++ [name]

/-- How many dependencies the entries list for names that are not on the stack. -/
def pendingIn (stack : List Name) : List (Name × NameSet) → Nat
  | [] => 0
  | (name, needed) :: rest =>
    (if name ∈ stack then 0 else needed.toList.length) + pendingIn stack rest

/-- One more name on the stack leaves no more dependencies than before. -/
theorem pendingIn_cons_le (stack : List Name) (name : Name) (entries : List (Name × NameSet)) :
    pendingIn (name :: stack) entries ≤ pendingIn stack entries := by
  induction entries with
  | nil => exact Nat.le_refl _
  | cons entry rest ih =>
    -- The entry counts as before, unless the new name is its own.
    simp only [pendingIn]
    by_cases waiting : entry.1 ∈ stack
    · rw [if_pos (List.mem_cons_of_mem _ waiting), if_pos waiting]
      omega
    · rw [if_neg waiting]
      split <;> omega

/-- A name that goes on the stack takes its own dependencies out of those listed. -/
theorem pendingIn_cons_add_le {stack : List Name} {name : Name} {needed : NameSet}
    {entries : List (Name × NameSet)} (fresh : name ∉ stack)
    (found : entries.lookup name = some needed) :
    pendingIn (name :: stack) entries + needed.toList.length ≤ pendingIn stack entries := by
  induction entries with
  | nil => cases found
  | cons entry rest ih =>
    rw [NameMap.lookup_entry_cons] at found
    simp only [pendingIn]
    by_cases same : name = entry.1
    · -- The entry found counts before and not after, and the rest counts for no more.
      have later := pendingIn_cons_le stack name rest
      rw [if_pos same, Option.some.injEq] at found
      rw [if_pos (same ▸ List.mem_cons_self), if_neg (same ▸ fresh), found]
      omega
    · -- The stack says the same of another entry before and after.
      rw [if_neg same] at found
      have earlier := ih found
      simp only [List.mem_cons, Ne.symm same, false_or]
      omega

/-- The names done so far and those reached from further ones, each after all it depends on. -/
def visit (graph : Graph) (stack done : List Name) : List Name → Except (List Name) (List Name)
  | [] => .ok done
  | name :: rest =>
    if name ∈ done then visit graph stack done rest
    else if onStack : name ∈ stack then .error (cycleAt stack name)
    else
      match found : graph.get? name with
      -- A name outside the graph depends on nothing.
      | none => visit graph stack done rest
      | some needed =>
        have := pendingIn_cons_add_le onStack found
        match visit graph (name :: stack) done needed.toList with
        | .ok reached => visit graph stack (reached ++ [name]) rest
        | .error cycle => .error cycle
-- Every call drops one of the names at hand, or takes up dependencies that were still pending.
termination_by names => pendingIn stack graph.entries + names.length

/-- All names, dependencies first and otherwise in ascending order, or else a cycle. -/
def order (graph : Graph) : Except (List Name) (List Name) :=
  graph.visit [] [] graph.keys

/-- Whether a name depends directly on one of the given names. -/
def dependsOnAny (graph : Graph) (name : Name) (others : List Name) : Bool :=
  (graph.get? name).any (fun needed => others.any (fun other => decide (other ∈ needed)))

/-- The names of a list that depend on affected names, which they then are themselves. -/
def affectedBy (graph : Graph) (affected : List Name) : List Name → List Name
  | [] => []
  | name :: rest =>
    if graph.dependsOnAny name affected then name :: graph.affectedBy (name :: affected) rest
    else graph.affectedBy affected rest

end Graph

end NamedLambda
