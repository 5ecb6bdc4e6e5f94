import Mathlib.Data.List.Chain
import Mathlib.Data.List.Nodup
import Mathlib.Logic.Relation
import NamedLambda.Proofs.Name.Map
import NamedLambda.Table.Graph

/-! The depth-first search finds an order with dependencies first exactly when there is no cycle. -/

namespace NamedLambda

/-- A list that leads along a relation back to its first name and meets no name twice before. -/
def IsCycle (leadsTo : Name → Name → Prop) (cycle : List Name) : Prop :=
  ∃ first later, cycle = first :: later ++ [first] ∧ (first :: later).Nodup ∧
    cycle.IsChain leadsTo

/-- There is a name on every cycle. -/
theorem IsCycle.exists_mem {leadsTo : Name → Name → Prop} {cycle : List Name}
    (closed : IsCycle leadsTo cycle) : ∃ name, name ∈ cycle := by
  -- The first name is one.
  obtain ⟨first, later, same, -, -⟩ := closed
  exact ⟨first, by simp [same]⟩

/-- Every name on a cycle leads back to itself. -/
theorem IsCycle.returns {leadsTo : Name → Name → Prop} {cycle : List Name}
    (closed : IsCycle leadsTo cycle) {name : Name} (member : name ∈ cycle) :
    Relation.TransGen leadsTo name name := by
  obtain ⟨first, later, rfl, -, chain⟩ := closed
  -- Along the chain every name leads to all names that come after it.
  have leads : (first :: later ++ [first]).Pairwise (Relation.TransGen leadsTo) :=
    List.isChain_iff_pairwise.mp (chain.imp (fun _ _ => .single))
  have parts := List.pairwise_append.mp leads
  have around : Relation.TransGen leadsTo first first :=
    parts.2.2 first List.mem_cons_self first (List.mem_singleton_self first)
  -- From any name the cycle leads on to the end, which is its first name.
  rcases List.mem_append.mp member with inside | last
  · have back := parts.2.2 name inside first (List.mem_singleton_self first)
    rcases List.mem_cons.mp inside with rfl | inLater
    · exact around
    · exact back.trans (List.rel_of_pairwise_cons parts.1 inLater)
  · rw [List.mem_singleton.mp last]
    exact around

namespace Graph

/-- A name depends directly on another. -/
def DependsOn (graph : Graph) (name other : Name) : Prop :=
  ∃ needed, graph.get? name = some needed ∧ other ∈ needed

/-- A name with dependencies is a name of the graph. -/
theorem DependsOn.mem_keys {graph : Graph} {name other : Name}
    (depends : graph.DependsOn name other) : name ∈ graph.keys := by
  -- Its dependencies are stored under it.
  obtain ⟨needed, found, -⟩ := depends
  exact NameMap.mem_keys.mpr (by simp [found])

/-- The given names depend on nothing that comes later among them or is missing from them. -/
inductive Sorted (graph : Graph) : List Name → Prop where
  /-- No names. -/
  | nil : Sorted graph []
  /-- One more name, after all names of the graph that it depends on. -/
  | concat {names : List Name} {name : Name} (sorted : Sorted graph names)
      (known : name ∈ graph.keys) (fresh : name ∉ names)
      (after : ∀ other, graph.DependsOn name other → other ∈ graph.keys → other ∈ names) :
      Sorted graph (names ++ [name])

namespace Sorted

variable {graph : Graph} {names : List Name}

/-- Sorted names are names of the graph. -/
theorem mem_keys (sorted : graph.Sorted names) {name : Name} (member : name ∈ names) :
    name ∈ graph.keys := by
  -- Each of them was one when it was added.
  induction sorted with
  | nil => contradiction
  | concat sorted known fresh after ih =>
    rcases List.mem_append.mp member with earlier | last
    · exact ih earlier
    · rwa [List.mem_singleton.mp last]

/-- No name is sorted in twice. -/
theorem nodup (sorted : graph.Sorted names) : names.Nodup := by
  -- Each of them was fresh when it was added.
  induction sorted with
  | nil => exact List.nodup_nil
  | concat sorted known fresh after ih =>
    refine List.nodup_append.mpr ⟨ih, List.pairwise_singleton _ _, ?_⟩
    intro earlier member last isLast same
    rw [List.mem_singleton.mp isLast] at same
    exact fresh (same ▸ member)

/-- Whatever a sorted name depends on within the graph is sorted in as well. -/
theorem mem_of_dependsOn (sorted : graph.Sorted names) {name other : Name} (member : name ∈ names)
    (depends : graph.DependsOn name other) (known : other ∈ graph.keys) : other ∈ names := by
  -- It came before the name did, and names stay.
  induction sorted with
  | nil => contradiction
  | concat sorted _ fresh after ih =>
    refine List.mem_append_left _ ?_
    rcases List.mem_append.mp member with earlier | last
    · exact ih earlier
    · rw [List.mem_singleton.mp last] at depends
      exact after other depends known

/-- A dependency stands strictly before the names that depend on it. -/
theorem idxOf_lt (sorted : graph.Sorted names) {name other : Name} (member : name ∈ names)
    (depends : graph.DependsOn name other) (known : other ∈ graph.keys) :
    names.idxOf other < names.idxOf name := by
  -- Adding a name at the end leaves the places of the earlier ones.
  induction sorted with
  | nil => contradiction
  | concat sorted _ fresh after ih =>
    rcases List.mem_append.mp member with earlier | last
    · -- Both stand among the earlier names.
      have earlierOther := sorted.mem_of_dependsOn earlier depends known
      rw [List.idxOf_append_of_mem earlierOther, List.idxOf_append_of_mem earlier]
      exact ih earlier
    · rw [List.mem_singleton.mp last] at depends ⊢
      -- The last name stands behind all of these.
      have earlierOther := after other depends known
      rw [List.idxOf_append_of_mem earlierOther, List.idxOf_append_of_notMem fresh]
      have place := List.idxOf_lt_length_of_mem earlierOther
      omega

/-- No sorted name depends on a later one. -/
theorem pairwise (sorted : graph.Sorted names) :
    names.Pairwise (fun earlier later => ¬graph.DependsOn earlier later) := by
  -- What the earlier names depend on was there before the last one.
  induction sorted with
  | nil => exact List.Pairwise.nil
  | concat sorted known fresh after ih =>
    refine List.pairwise_append.mpr ⟨ih, List.pairwise_singleton _ _, ?_⟩
    intro earlier member last isLast depends
    rw [List.mem_singleton.mp isLast] at depends
    exact fresh (sorted.mem_of_dependsOn member depends known)

end Sorted

/-- A search that succeeds keeps the names sorted and adds all those it was given. -/
theorem visit_sorted {graph : Graph} {stack done names result : List Name}
    (sorted : graph.Sorted done) (apart : ∀ name ∈ done, name ∉ stack)
    (visited : graph.visit stack done names = .ok result) :
    graph.Sorted result ∧ (∀ name ∈ result, name ∉ stack) ∧ done ⊆ result ∧
      ∀ name ∈ names, name ∈ graph.keys → name ∈ result := by
  -- The induction follows the search; a name is added once all it depends on is done.
  fun_induction visit graph stack done names generalizing result with
  | case1 stack done =>
    obtain rfl : done = result := by simpa using visited
    exact ⟨sorted, apart, List.Subset.refl _, by simp⟩
  -- A name that is done needs no visit.
  | case2 stack done name rest isDone ih =>
    obtain ⟨resultSorted, resultApart, kept, covered⟩ := ih sorted apart visited
    refine ⟨resultSorted, resultApart, kept, ?_⟩
    exact List.forall_mem_cons.mpr ⟨fun _ => kept isDone, covered⟩
  | case3 => simp at visited
  -- A name that is not in the graph is passed over.
  | case4 stack done name rest notDone offStack missing ih =>
    obtain ⟨resultSorted, resultApart, kept, covered⟩ := ih sorted apart visited
    refine ⟨resultSorted, resultApart, kept, List.forall_mem_cons.mpr ⟨?_, covered⟩⟩
    intro known
    simp [NameMap.mem_keys, missing] at known
  -- A name is entered: the search of its dependencies sorts them in before it.
  | case5 stack done name rest notDone offStack needed found shrinks reached searched innerIh ih =>
    have innerApart : ∀ other ∈ done, other ∉ name :: stack := by
      intro other member
      rw [List.mem_cons, not_or]
      exact ⟨fun same => notDone (same ▸ member), apart other member⟩
    obtain ⟨reachedSorted, reachedApart, kept, covered⟩ := innerIh sorted innerApart searched
    have known : name ∈ graph.keys := NameMap.mem_keys.mpr (by simp [found])
    -- The inner search avoids its stack, on which the name stands.
    have fresh : name ∉ reached := fun member => reachedApart name member List.mem_cons_self
    have nextSorted : graph.Sorted (reached ++ [name]) := by
      refine reachedSorted.concat known fresh ?_
      rintro other ⟨others, located, member⟩ otherKnown
      obtain rfl : needed = others := by simpa [found] using located
      exact covered other member otherKnown
    have nextApart : ∀ other ∈ reached ++ [name], other ∉ stack := by
      intro other member
      rcases List.mem_append.mp member with inReached | last
      · exact fun onStack => reachedApart other inReached (List.mem_cons_of_mem _ onStack)
      · rwa [List.mem_singleton.mp last]
    -- With the name sorted in, the search goes on.
    obtain ⟨resultSorted, resultApart, keptNext, coveredNext⟩ := ih nextSorted nextApart visited
    refine ⟨resultSorted, resultApart, ?_, List.forall_mem_cons.mpr ⟨fun _ => ?_, coveredNext⟩⟩
    · exact fun other member => keptNext (List.mem_append_left _ (kept member))
    · exact keptNext (List.mem_append_right _ (List.mem_singleton_self name))
  | case6 => simp at visited

/-- A name met again below a chain of dependents closes a cycle with the part of it above. -/
theorem isCycle_cycleAt {graph : Graph} {stack : List Name} {name : Name}
    (chain : (name :: stack).IsChain (fun later earlier => graph.DependsOn earlier later))
    (distinct : stack.Nodup) (onStack : name ∈ stack) :
    IsCycle graph.DependsOn (cycleAt stack name) := by
  -- The stack has its latest name first, so the part above is read backwards.
  obtain ⟨above, below, rfl, notAbove⟩ := List.eq_append_cons_of_mem onStack
  have part : (above ++ name :: below).takeWhile (· ≠ name) = above := by
    rw [List.takeWhile_append_of_pos]
    · simp
    · intro other member
      simpa using fun same : other = name => notAbove (same ▸ member)
  rw [cycleAt, part]
  refine ⟨name, above.reverse, rfl, ?_, ?_⟩
  · -- The name does not come again above itself, and the stack meets no name twice.
    rw [List.nodup_cons, List.mem_reverse, List.nodup_reverse]
    exact ⟨notAbove, (List.nodup_append.mp distinct).1⟩
  · -- The chain of the stack, read backwards, leads from the name to itself.
    have loop : (name :: above ++ [name]).IsChain
        (fun later earlier => graph.DependsOn earlier later) := by
      refine chain.prefix ⟨below, ?_⟩
      simp
    have backwards := List.isChain_reverse.mpr loop
    simpa using backwards

/-- A search that fails names a cycle, as the stack is a chain of dependents. -/
theorem visit_isCycle {graph : Graph} {stack done names cycle : List Name}
    (chain : stack.IsChain (fun later earlier => graph.DependsOn earlier later))
    (distinct : stack.Nodup)
    (wanted : ∀ top ∈ stack.head?, ∀ name ∈ names, graph.DependsOn top name)
    (visited : graph.visit stack done names = .error cycle) :
    IsCycle graph.DependsOn cycle := by
  -- Only a name that its latest dependent needs goes on the stack.
  fun_induction visit graph stack done names with
  | case1 => simp at visited
  | case2 stack done name rest isDone ih =>
    exact ih chain distinct
      (fun top isTop other member => wanted top isTop other (List.mem_cons_of_mem _ member)) visited
  -- The name is on the stack, and the latest dependent above leads back to it.
  | case3 stack done name rest notDone onStack =>
    obtain rfl : cycleAt stack name = cycle := by simpa using visited
    refine isCycle_cycleAt (List.isChain_cons.mpr ⟨?_, chain⟩) distinct onStack
    exact fun top isTop => wanted top isTop name List.mem_cons_self
  | case4 stack done name rest notDone offStack missing ih =>
    exact ih chain distinct
      (fun top isTop other member => wanted top isTop other (List.mem_cons_of_mem _ member)) visited
  | case5 stack done name rest notDone offStack needed found shrinks reached searched innerIh ih =>
    exact ih chain distinct
      (fun top isTop other member => wanted top isTop other (List.mem_cons_of_mem _ member)) visited
  -- The cycle is found below the name, which has gone on the stack as a dependent.
  | case6 stack done name rest notDone offStack needed found shrinks inner searched innerIh =>
    obtain rfl : inner = cycle := by simpa using visited
    refine innerIh (List.isChain_cons.mpr ⟨?_, chain⟩) (List.nodup_cons.mpr ⟨offStack, distinct⟩)
      ?_ searched
    · exact fun top isTop => wanted top isTop name List.mem_cons_self
    · intro top isTop other member
      obtain rfl : name = top := by simpa using isTop
      exact ⟨needed, found, member⟩

/-- An order that is found is sorted and holds every name of the graph. -/
theorem order_sorted {graph : Graph} {names : List Name} (found : graph.order = .ok names) :
    graph.Sorted names ∧ ∀ name, name ∈ names ↔ name ∈ graph.keys := by
  -- The search starts with nothing done and asks for every name.
  obtain ⟨sorted, -, -, covered⟩ := visit_sorted .nil (by simp) found
  exact ⟨sorted, fun name => ⟨sorted.mem_keys, fun known => covered name known known⟩⟩

/-- Where no order is found there is a cycle, and it is the one named. -/
theorem order_isCycle {graph : Graph} {cycle : List Name} (failed : graph.order = .error cycle) :
    IsCycle graph.DependsOn cycle :=
  -- The search starts with nothing on the stack.
  visit_isCycle .nil List.nodup_nil (by simp) failed

/-- An order leaves no way from a name back to itself. -/
theorem not_returns_of_order {graph : Graph} {names : List Name} (found : graph.order = .ok names)
    (name : Name) : ¬Relation.TransGen graph.DependsOn name name := by
  obtain ⟨sorted, covers⟩ := order_sorted found
  -- Every way leads to strictly earlier places of the order.
  have earlier : ∀ {start finish}, Relation.TransGen graph.DependsOn start finish →
      finish ∈ graph.keys → names.idxOf finish < names.idxOf start := by
    intro start finish way
    induction way with
    | single depends =>
      exact sorted.idxOf_lt ((covers _).mpr depends.mem_keys) depends
    | tail way depends ih =>
      intro known
      have middle := depends.mem_keys
      exact Nat.lt_trans (sorted.idxOf_lt ((covers _).mpr middle) depends known) (ih middle)
  intro returns
  have known : name ∈ graph.keys := by
    obtain ⟨_, depends, _⟩ := Relation.TransGen.head'_iff.mp returns
    exact depends.mem_keys
  exact Nat.lt_irrefl _ (earlier returns known)

end Graph

end NamedLambda
