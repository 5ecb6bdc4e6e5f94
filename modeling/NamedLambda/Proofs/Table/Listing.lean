import Mathlib.Data.Set.Finite.Lemmas
import Mathlib.Data.String.Basic
import NamedLambda.Proofs.Table.History

/-! The macros of a table are listed after those they refer to, and otherwise by the smallest name
from which references lead to them. -/

namespace NamedLambda

namespace Graph

variable {graph : Graph} {stack done first second names result : List Name}

/-- A name of the graph that is met for the first time is entered, and comes after all that it
depends on. -/
theorem visit_entered {name : Name} {rest : List Name} {needed : NameSet} (notDone : name ∉ done)
    (offStack : name ∉ stack) (found : graph.get? name = some needed) :
    graph.visit stack done (name :: rest) =
      (graph.visit (name :: stack) done needed.toList).bind
        (fun reached => graph.visit stack (reached ++ [name]) rest) := by
  -- The name is entered with itself on the stack, and is done when its dependencies are.
  rw [visit, if_neg notDone, dif_neg offStack]
  split
  · rename_i missing
    simp [found] at missing
  · rename_i others located
    obtain rfl : needed = others := by simpa [found] using located
    cases searched : graph.visit (name :: stack) done needed.toList <;> rfl

/-- A search from further names goes on with what has been done for the names before them. -/
theorem visit_append :
    graph.visit stack done (first ++ second) =
      (graph.visit stack done first).bind (fun reached => graph.visit stack reached second) := by
  -- Both sides decide alike about each of the first names.
  fun_induction visit graph stack done first with
  | case1 stack done => rfl
  | case2 stack done name rest isDone ih =>
    rw [List.cons_append, visit, if_pos isDone]
    exact ih
  -- A cycle among the first names ends both searches.
  | case3 stack done name rest notDone onStack =>
    rw [List.cons_append, visit, if_neg notDone, dif_pos onStack]
    rfl
  -- A name that is not in the graph is passed over.
  | case4 stack done name rest notDone offStack missing ih =>
    rw [List.cons_append, visit, if_neg notDone, dif_neg offStack]
    split
    · exact ih
    · rename_i needed found
      simp [missing] at found
  -- A name that is entered leaves more done on both sides.
  | case5 stack done name rest notDone offStack needed found shrinks reached searched innerIh ih =>
    rw [List.cons_append, visit_entered notDone offStack found, searched]
    exact ih
  -- A cycle below the name ends both searches.
  | case6 stack done name rest notDone offStack needed found shrinks inner searched innerIh =>
    rw [List.cons_append, visit_entered notDone offStack found, searched]
    rfl

/-- A search leaves what has been done in its place. -/
theorem visit_prefix (visited : graph.visit stack done names = .ok result) : done <+: result := by
  -- Names are only ever added at the end.
  fun_induction visit graph stack done names generalizing result with
  | case1 stack done =>
    obtain rfl : done = result := by simpa using visited
    exact List.prefix_refl done
  | case2 stack done name rest isDone ih => exact ih visited
  | case3 => simp at visited
  | case4 stack done name rest notDone offStack missing ih => exact ih visited
  | case5 stack done name rest notDone offStack needed found shrinks reached searched innerIh ih =>
    exact (innerIh searched).trans ((List.prefix_append reached [name]).trans (ih visited))
  | case6 => simp at visited

/-- A search adds only names that it was given, and names that these lead to. -/
theorem visit_reaches (visited : graph.visit stack done names = .ok result) {reached : Name}
    (member : reached ∈ result) :
    reached ∈ done ∨ ∃ name ∈ names, Relation.ReflTransGen graph.DependsOn name reached := by
  -- A name is added when it is given, or when it is a dependency of one that is entered.
  fun_induction visit graph stack done names generalizing result with
  | case1 stack done =>
    obtain rfl : done = result := by simpa using visited
    exact .inl member
  | case2 stack done name rest isDone ih =>
    rcases ih visited member with before | ⟨start, given, leads⟩
    · exact .inl before
    · exact .inr ⟨start, List.mem_cons_of_mem _ given, leads⟩
  | case3 => simp at visited
  | case4 stack done name rest notDone offStack missing ih =>
    rcases ih visited member with before | ⟨start, given, leads⟩
    · exact .inl before
    · exact .inr ⟨start, List.mem_cons_of_mem _ given, leads⟩
  | case5 stack done name rest notDone offStack needed found shrinks inner searched innerIh ih =>
    rcases ih visited member with before | ⟨start, given, leads⟩
    · rcases List.mem_append.mp before with inInner | last
      · rcases innerIh searched inInner with earlier | ⟨start, given, leads⟩
        · exact .inl earlier
        · -- What the dependencies of the name lead to, the name leads to as well.
          exact .inr ⟨name, List.mem_cons_self, .head ⟨needed, found, given⟩ leads⟩
      · obtain rfl := List.mem_singleton.mp last
        exact .inr ⟨reached, List.mem_cons_self, .refl⟩
    · exact .inr ⟨start, List.mem_cons_of_mem _ given, leads⟩
  | case6 => simp at visited

/-- Sorted names are closed under dependencies. -/
theorem Sorted.mem_of_leads (sorted : graph.Sorted names)
    (known : ∀ name other, graph.DependsOn name other → other ∈ graph.keys) {name other : Name}
    (member : name ∈ names) (leads : Relation.ReflTransGen graph.DependsOn name other) :
    other ∈ names := by
  -- Every step along a path stays among the sorted names.
  induction leads with
  | refl => exact member
  | tail _ depends ih => exact sorted.mem_of_dependsOn ih depends (known _ _ depends)

/-- The smallest of the names that lead to a name along dependencies, where the name
leads to itself. -/
def IsRoot (graph : Graph) (root name : Name) : Prop :=
  IsLeast {owner | owner ∈ graph.keys ∧ Relation.ReflTransGen graph.DependsOn owner name} root

/-- Every name of the graph has a root. -/
theorem exists_root {name : Name} (known : name ∈ graph.keys) : ∃ root, graph.IsRoot root name := by
  -- The name leads to itself, and there are finitely many names.
  have finite : {owner | owner ∈ graph.keys ∧
      Relation.ReflTransGen graph.DependsOn owner name}.Finite :=
    graph.keys.finite_toSet.subset fun owner leads => leads.1
  obtain ⟨root, leads, least⟩ := Set.exists_min_image _ id finite ⟨name, known, .refl⟩
  exact ⟨root, leads, least⟩

/-- In an order that is found, names of a smaller root come first. -/
theorem idxOf_lt_of_root_lt (found : graph.order = .ok names)
    (known : ∀ name other, graph.DependsOn name other → other ∈ graph.keys)
    {name other root otherRoot : Name} (isRoot : graph.IsRoot root name)
    (isOtherRoot : graph.IsRoot otherRoot other) (smaller : root < otherRoot) :
    names.idxOf name < names.idxOf other := by
  -- The search comes to the greater root when all smaller names are done.
  obtain ⟨before, after, keys⟩ := List.append_of_mem isOtherRoot.1.1
  have ascending := graph.keys_ascending
  rw [keys, List.pairwise_append] at ascending
  rw [order, keys, visit_append] at found
  cases searched : graph.visit [] [] before with
  | error cycle => simp [searched, Except.bind] at found
  | ok reached =>
    rw [searched] at found
    obtain ⟨sorted, -, -, covered⟩ := visit_sorted .nil (by simp) searched
    -- One of the smaller names is the smaller root, which leads to its name.
    have rootBefore : root ∈ before := by
      have member := isRoot.1.1
      rw [keys, List.mem_append] at member
      refine member.resolve_right fun late => ?_
      rcases List.mem_cons.mp late with rfl | later
      · exact String.lt_irrefl _ smaller
      · exact String.lt_irrefl _
          (String.lt_trans smaller (List.rel_of_pairwise_cons ascending.2.1 later))
    have nameReached : name ∈ reached :=
      sorted.mem_of_leads known (covered root rootBefore isRoot.1.1) isRoot.1.2
    -- None of them leads to the other name, as its root is greater.
    have otherLeft : other ∉ reached := by
      intro member
      rcases visit_reaches searched member with nothing | ⟨start, given, leads⟩
      · contradiction
      · have least := isOtherRoot.2 ⟨by rw [keys]; exact List.mem_append_left _ given, leads⟩
        exact absurd (ascending.2.2 start given otherRoot List.mem_cons_self)
          (String.not_lt.mpr least)
    obtain ⟨added, rfl⟩ := visit_prefix found
    rw [List.idxOf_append_of_mem nameReached, List.idxOf_append_of_notMem otherLeft]
    have place := List.idxOf_lt_length_of_mem nameReached
    omega

end Graph

namespace Table

/-- The smallest name of the macros that are a macro or refer to it, be it through others. -/
def IsRoot (table : Table) (root name : Name) : Prop :=
  IsLeast {owner | table.contains owner ∧ Relation.ReflTransGen table.RefersTo owner name} root

/-- The roots of macros are those of the graph. -/
theorem isRoot_graph (table : Table) : table.graph.IsRoot = table.IsRoot := by
  funext root name
  simp only [Graph.IsRoot, IsRoot, dependsOn_graph, mem_keys_graph]

/-- After any changes the macros have an order without the names having to serve as one. It holds
each macro once, after all macros that its body refers to, and macros of smaller roots come first,
where every macro has a root. -/
theorem ofChanges_order (budget : Nat) (changes : List TableChange) :
    let table := ofChanges budget changes
    table.graph.order = .ok table.order ∧ table.order.Nodup ∧
      (∀ name, name ∈ table.order ↔ table.contains name) ∧
      (∀ name other, table.RefersTo name other →
        table.order.idxOf other < table.order.idxOf name) ∧
      (∀ name, table.contains name → ∃ root, table.IsRoot root name) ∧
      ∀ name other root otherRoot, table.IsRoot root name → table.IsRoot otherRoot other →
        root < otherRoot → table.order.idxOf name < table.order.idxOf other := by
  -- A sound table has no cycles, so that the search finds an order; its laws are those
  -- of the graph.
  intro table
  have sound : table.Sound := ofChanges_sound budget changes
  obtain ⟨names, found⟩ := sound.exists_order
  obtain ⟨sorted, covers⟩ := Graph.order_sorted found
  have same : table.order = names := by rw [order, found]
  have known : ∀ name other, table.graph.DependsOn name other → other ∈ table.graph.keys := by
    intro name other depends
    rw [dependsOn_graph] at depends
    exact mem_keys_graph.mpr (sound.bound name other depends)
  rw [same]
  refine ⟨found, sorted.nodup, fun name => (covers name).trans mem_keys_graph, ?_, ?_, ?_⟩
  · -- Dependencies come first in sorted names.
    intro name other reference
    rw [← dependsOn_graph] at reference
    exact sorted.idxOf_lt ((covers name).mpr reference.mem_keys) reference
      (known name other reference)
  · -- Roots are those of the graph.
    intro name defined
    rw [← isRoot_graph]
    exact Graph.exists_root (mem_keys_graph.mpr defined)
  · -- Smaller roots are visited before greater ones.
    intro name other root otherRoot isRoot isOtherRoot smaller
    rw [← isRoot_graph] at isRoot isOtherRoot
    exact Graph.idxOf_lt_of_root_lt found known isRoot isOtherRoot smaller

end Table

end NamedLambda
