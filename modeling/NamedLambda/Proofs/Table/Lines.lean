import NamedLambda.Proofs.Source.Defining
import NamedLambda.Proofs.Table.Bare
import NamedLambda.Table.Source

/-! A table that was made by source texts can be written down as lines that define its macros, and
these lines make it again. -/

namespace NamedLambda

/-- A change that is asked of a table in a source text. -/
inductive SourceChange where
  /-- To define the macro that a text defines, or to redefine it. -/
  | define (source : String)
  /-- To remove all macros. -/
  | clear
deriving DecidableEq, Repr

namespace Table

/-- The table after a change, which is the table before where the text is refused. -/
def applySource (table : Table) : SourceChange → Table
  | .define source =>
    match table.defineSource source with
    | .ok (after, _) => after
    | .error _ => table
  | .clear => table.clear

/-- The table that source texts make of the empty one. -/
def ofSources (budget : Nat) (changes : List SourceChange) : Table :=
  changes.foldl applySource (empty budget)

/-- The line that defines a macro as it is. -/
def line? (table : Table) (name : Name) : Option String :=
  (table.body? name).map (fun body => name ++ " = " ++ body.text)

/-- The lines that define the macros of a table, in their order. -/
def lines (table : Table) : List String :=
  table.order.filterMap table.line?

/-- The table after lines that each define a macro, or the error of the first that does not. -/
def defineLines (table : Table) (lines : List String) : Except Error Table :=
  lines.foldlM (fun current line => (current.defineSource line).map Prod.fst) table

/-- What holds of tables that source texts make. -/
structure Written (table : Table) : Prop where
  /-- All definitions have passed their checks. -/
  sound : table.Sound
  /-- All values have been found for the bodies. -/
  current : ∀ name, table.UpToDate name
  /-- All bodies can be read again. -/
  bodies : ∀ name body, table.body? name = some body → body.Rereadable

/-- A source text defines what it is read as. -/
theorem defineSource_eq_ok_iff {table after : Table} {source : String} {run : Run} :
    table.defineSource source = .ok (after, run) ↔
      ∃ name body, table.readDefinition source = .ok (name, body) ∧
        table.define name body = .ok (after, run) := by
  -- A text has to be read before its definition is tried.
  rw [defineSource]
  cases table.readDefinition source with
  | error error => simp [Except.mapError, bind, Except.bind]
  | ok definition =>
    obtain ⟨name, body⟩ := definition
    cases defined : table.define name body <;>
      simp [Except.mapError, bind, Except.bind, defined]

/-- An empty table is as source texts make it. -/
theorem written_empty (budget : Nat) : (empty budget).Written := by
  -- It has no definition that could be out of date, and no body.
  refine ⟨sound_empty budget, ?_, ?_⟩
  · intro name definition found
    contradiction
  · intro name body found
    contradiction

variable {table : Table}

/-- A change that is written keeps a table as source texts make it, with its budget. -/
theorem Written.applySource (written : table.Written) (change : SourceChange) :
    (table.applySource change).Written ∧ (table.applySource change).budget = table.budget := by
  -- A text that is accepted brings one new body, and a text that is refused changes nothing.
  cases change with
  | clear => exact ⟨written_empty table.budget, rfl⟩
  | define source =>
    rw [Table.applySource]
    split
    · rename_i after run found
      obtain ⟨name, body, read, defined⟩ := defineSource_eq_ok_iff.mp found
      refine ⟨⟨define_sound written.sound defined, ?_, ?_⟩, budget_of_define defined⟩
      · exact define_upToDate written.sound written.current defined
      · intro other kept has
        -- The new body was read from a text, and the others were there before.
        rw [body?_of_define defined] at has
        split at has
        · obtain rfl := Option.some.inj has
          exact rereadable_of_readDefinition read
        · exact written.bodies other kept has
    · exact ⟨written, rfl⟩

/-- Whatever is written and cleared, a table is as source texts make it. -/
theorem ofSources_written (budget : Nat) (changes : List SourceChange) :
    (ofSources budget changes).Written ∧ (ofSources budget changes).budget = budget := by
  -- What one change keeps, all of them keep.
  have run : ∀ (changes : List SourceChange) (table : Table), table.Written →
      (changes.foldl Table.applySource table).Written ∧
        (changes.foldl Table.applySource table).budget = table.budget := by
    intro changes
    induction changes with
    | nil => exact fun table written => ⟨written, rfl⟩
    | cons change rest ih =>
      intro table written
      obtain ⟨after, budget⟩ := written.applySource change
      obtain ⟨holds, same⟩ := ih _ after
      exact ⟨holds, same.trans budget⟩
  exact run changes (empty budget) (written_empty budget)

/-- A table that has been made again as far as some macros go. -/
structure Restores (table replayed : Table) (names : List Name) : Prop where
  /-- All definitions have passed their checks. -/
  sound : replayed.Sound
  /-- All values have been found for the bodies. -/
  current : ∀ name, replayed.UpToDate name
  /-- The budget is the same. -/
  budget : replayed.budget = table.budget
  /-- The macros are those named, and their bodies differ in what references carry. -/
  bodies : ∀ name, (replayed.body? name).map Term.bare =
    if name ∈ names then (table.body? name).map Term.bare else none

namespace Restores

variable {replayed : Table} {names : List Name} (restores : table.Restores replayed names)
include restores

/-- The macros that have been made again are defined. -/
theorem contains {name : Name} (known : table.contains name) (member : name ∈ names) :
    replayed.contains name := by
  -- They have bodies, if not quite the same ones.
  obtain ⟨body, found⟩ := contains_iff.mp known
  have same := restores.bodies name
  rw [if_pos member, found] at same
  obtain ⟨kept, has, -⟩ := Option.map_eq_some_iff.mp same
  exact contains_iff.mpr ⟨kept, has⟩

/-- They refer to the same macros as before. -/
theorem refersTo {name other : Name} (reference : replayed.RefersTo name other) :
    table.RefersTo name other := by
  -- What references carry does not matter to which macros they are to.
  obtain ⟨kept, has, member⟩ := reference
  have same := restores.bodies name
  rw [has] at same
  split at same
  · obtain ⟨body, found, bare⟩ := Option.map_eq_some_iff.mp same.symm
    rw [← Term.references_bare, ← bare, Term.references_bare] at member
    exact ⟨body, found, member⟩
  · contradiction

end Restores

/-- The line of a macro is accepted once those of the macros it refers to have been. -/
theorem Written.restores_line (written : table.Written) {replayed : Table} {names : List Name}
    (restores : table.Restores replayed names) {name : Name} (known : table.contains name)
    (earlier : ∀ other, table.RefersTo name other → other ∈ names) :
    ∃ line next run, table.line? name = some line ∧
      replayed.defineSource line = .ok (next, run) ∧ table.Restores next (names ++ [name]) := by
  obtain ⟨body, has⟩ := contains_iff.mp known
  -- The body comes back from its line with references to what has been made again so far.
  have named := written.sound.named name body has
  have closed := written.sound.closed name body has
  have refers : ∀ other ∈ body.references, table.RefersTo name other :=
    fun other member => (refersTo_iff has).mpr member
  have defined : ∀ other ∈ body.references, replayed.contains other := by
    intro other member
    have reference := refers other member
    exact restores.contains (written.sound.bound name other reference) (earlier other reference)
  -- All that the body refers to has been made again, so that its line is read in full.
  have read : replayed.readDefinition (name ++ " = " ++ body.text) =
      .ok (name, replayed.refresh .normal body) := by
    refine (written.bodies name body has).readDefinition named closed (fun other member => ?_)
    obtain ⟨kept, found⟩ := contains_iff.mp (defined other member)
    exact ⟨restores.sound.named other kept found,
      restores.sound.isSome_resolve? .normal (defined other member)⟩
  -- The body that is read meets every condition of a definition.
  have admits : replayed.Admits name (replayed.refresh .normal body) := by
    refine ⟨named, ?_, ?_, ?_⟩
    · intro free
      rw [refresh, Term.occursFree_relink]
      exact closed free
    · rw [refresh, Term.references_relink]
      exact fun other member => .inl (defined other member)
    · -- A way back to the macro would have been one before.
      rw [refresh, Term.references_relink]
      intro other member leads
      have back := Relation.ReflTransGen.mono (fun _ _ => restores.refersTo) _ _ leads
      exact written.sound.acyclic name (.head' (refers other member) back)
  obtain ⟨next, run, accepted⟩ := restores.sound.exists_of_admits admits
  refine ⟨_, next, run, by rw [line?, has, Option.map_some],
    defineSource_eq_ok_iff.mpr ⟨_, _, read, accepted⟩, ?_⟩
  -- With one more macro the tables still agree on the macros so far.
  refine ⟨define_sound restores.sound accepted,
    define_upToDate restores.sound restores.current accepted,
    (budget_of_define accepted).trans restores.budget, fun other => ?_⟩
  rw [body?_of_define accepted]
  by_cases same : other = name
  · simp [same, has, refresh]
  · simp [same, restores.bodies]

/-- Lines are all accepted in an order in which no macro comes before one it refers to. -/
theorem Written.restores_lines (written : table.Written) {names : List Name}
    (sorted : table.graph.Sorted names) :
    ∃ replayed, (empty table.budget).defineLines (names.filterMap table.line?) = .ok replayed ∧
      table.Restores replayed names := by
  -- The lines are taken in the order in which the names have been sorted.
  induction sorted with
  | nil =>
    -- Without lines the table is the empty one.
    have nothing := written_empty table.budget
    exact ⟨_, rfl, nothing.sound, nothing.current, rfl, fun name => rfl⟩
  | @concat names name sorted known fresh after ih =>
    -- All that the next macro refers to is among the macros that are there already.
    obtain ⟨replayed, accepted, restores⟩ := ih
    have earlier : ∀ other, table.RefersTo name other → other ∈ names := by
      intro other reference
      refine after other (by rwa [dependsOn_graph]) (mem_keys_graph.mpr ?_)
      exact written.sound.bound name other reference
    obtain ⟨line, next, run, printed, defined, further⟩ :=
      written.restores_line restores (mem_keys_graph.mp known) earlier
    refine ⟨next, ?_, further⟩
    rw [defineLines] at accepted ⊢
    rw [List.filterMap_append, List.foldlM_append, accepted]
    simp [printed, defined, Except.map, bind, Except.bind, pure, Except.pure]

/-- A table that has been made again as a whole differs in what references carry. -/
theorem Written.bare_eq (written : table.Written) {replayed : Table} {names : List Name}
    (restores : table.Restores replayed names)
    (all : ∀ name, table.contains name → name ∈ names) : replayed.bare = table.bare := by
  -- Bodies determine a table that is up to date.
  refine restores.sound.bare.eq_of_upToDate ?_ restores.budget
    (restores.sound.upToDate_bare restores.current) (written.sound.upToDate_bare written.current)
  funext name
  rw [body?_bare, body?_bare, restores.bodies]
  split
  · rfl
  · -- Nothing else is defined on either side.
    rename_i outside
    cases found : table.body? name with
    | none => rfl
    | some body => exact absurd (all name (contains_iff.mpr ⟨body, found⟩)) outside

/-- A session can be written down as text: whatever was defined, refused, redefined and cleared
before, each line that defines a macro of the table as it is now is accepted by the table made of
the lines before it, and in the end there are the same macros in the same order, with the same
values and with bodies that differ in nothing but what their references carry. -/
theorem ofSources_lines (budget : Nat) (changes : List SourceChange) :
    ∃ replayed, (empty budget).defineLines (ofSources budget changes).lines = .ok replayed ∧
      replayed.definitions.keys = (ofSources budget changes).definitions.keys ∧
      (∀ name, (replayed.body? name).map Term.bare =
          ((ofSources budget changes).body? name).map Term.bare ∧
        (replayed.get? name).map Definition.values =
          ((ofSources budget changes).get? name).map Definition.values) ∧
      replayed.order = (ofSources budget changes).order := by
  -- The lines stand in an order in which macros come after all that they refer to.
  obtain ⟨written, same⟩ := ofSources_written budget changes
  obtain ⟨names, found⟩ := written.sound.exists_order
  obtain ⟨sorted, covers⟩ := Graph.order_sorted found
  obtain ⟨replayed, accepted, restores⟩ := written.restores_lines sorted
  have order : (ofSources budget changes).order = names := by rw [Table.order, found]
  -- Everything that is claimed is the same for tables that are equal when stripped.
  have tables : replayed.bare = (ofSources budget changes).bare :=
    written.bare_eq restores (fun name known => (covers name).mpr (mem_keys_graph.mpr known))
  rw [same] at accepted
  refine ⟨replayed, by rw [lines, order, accepted], ?_, fun name => ⟨?_, ?_⟩, ?_⟩
  · rw [← keys_bare, tables, keys_bare]
  · rw [← body?_bare, tables, body?_bare]
  · rw [← map_values_bare, tables, map_values_bare]
  · rw [← order_bare, tables, order_bare]

-- A refused text leaves no line, and a redefined macro comes before the one that refers to it. The
-- lines make a table again that prints them and that is the same but for what references carry.
example :
    let session := ofSources 3 [.define "B = λx.x", .define "A = (λy.B)B", .define "C = x",
      .define "B = λx y.x"]
    session.lines = ["B = λx.λy.x", "A = (λy.B) B"] ∧
      ((empty 3).defineLines session.lines).map lines = .ok session.lines ∧
      ((empty 3).defineLines session.lines).map bare = .ok session.bare := by
  decide +kernel

end Table

end NamedLambda
