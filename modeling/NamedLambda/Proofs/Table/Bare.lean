import NamedLambda.Proofs.Table.Acceptance
import NamedLambda.Proofs.Term.Bare

/-! A table never reads what the references of its bodies carry: stripped of it, bodies are checked,
compiled and referred to as before. -/

namespace NamedLambda

/-- The definition with a body whose references carry nothing but their names. -/
def Definition.bare (definition : Definition) : Definition :=
  ⟨definition.body.bare, definition.values⟩

/-- The change with a body whose references carry nothing but their names. -/
def TableChange.bare : TableChange → TableChange
  | define name body => define name body.bare
  | clear => clear

namespace Table

/-- The table with bodies whose references carry nothing but their names. -/
def bare (table : Table) : Table :=
  ⟨table.definitions.mapValues Definition.bare, table.budget⟩

section

variable (table : Table) (name : Name)

/-- A stripped table has the same macros, with stripped bodies. -/
@[simp]
theorem get?_bare : table.bare.get? name = (table.get? name).map Definition.bare :=
  NameMap.get?_mapValues ..

/-- The body of a macro is stripped with the table. -/
@[simp]
theorem body?_bare : table.bare.body? name = (table.body? name).map Term.bare := by
  rw [body?, get?_bare, body?, Option.map_map, Option.map_map]
  rfl

/-- Stripping defines and removes no macro. -/
@[simp]
theorem contains_bare : table.bare.contains name = table.contains name := by
  simp [contains, NameMap.contains, bare]

/-- Bare bodies make the same references. -/
theorem graph_bare : table.bare.graph = table.graph := by
  -- Both graphs give each macro the references of its body.
  apply NameMap.ext_get?
  intro name
  simp [graph, bare, Definition.bare, Function.comp_def]

/-- The macros are listed in the same order. -/
theorem keys_bare : table.bare.definitions.keys = table.definitions.keys := by
  simp [NameMap.keys, NameMap.mapValues, bare]

/-- Bare bodies put the macros in the same order. -/
theorem order_bare : table.bare.order = table.order := by
  rw [order, graph_bare, keys_bare, order]

/-- The values of a macro are stored apart from its body. -/
theorem map_values_bare :
    (table.bare.get? name).map Definition.values = (table.get? name).map Definition.values := by
  rw [get?_bare, Option.map_map]
  rfl

/-- Macros refer to each other as before. -/
theorem refersTo_bare : table.bare.RefersTo = table.RefersTo := by
  rw [← dependsOn_graph, graph_bare, dependsOn_graph]

/-- Stripping a table after a macro is stored strips what is stored. -/
theorem store_bare (definition : Definition) :
    (table.store name definition).bare = table.bare.store name definition.bare := by
  -- The definitions agree name by name, and the budget is the same.
  have definitions : (table.store name definition).bare.definitions =
      (table.bare.store name definition.bare).definitions := by
    apply NameMap.ext_get?
    intro other
    simp only [bare, store, NameMap.get?_mapValues, NameMap.get?_insert]
    split <;> rfl
  exact congrArg (Table.mk · table.budget) definitions

/-- A definition is checked by the references that its body makes. -/
theorem check_bare (body : Term) : table.bare.check name body.bare = table.check name body := by
  -- A check looks at free variables, at references and at the graph, all the same on both sides.
  have missing : table.bare.missing? name body.bare = table.missing? name body := by
    simp only [missing?, Term.references_bare, contains_bare]
  simp only [check, Term.firstFree?_bare, missing, graph_bare, Term.references_bare]

end

variable {table : Table}

/-- A table with bare bodies is sound if the table was. -/
theorem Sound.bare (sound : table.Sound) : table.bare.Sound := by
  -- Bare bodies have the same free variables and make the same references.
  refine ⟨?_, ?_, ?_, ?_⟩
  · -- Names are as they were.
    intro name body found
    rw [body?_bare] at found
    obtain ⟨kept, has, -⟩ := Option.map_eq_some_iff.mp found
    exact sound.named name kept has
  · -- So are the free variables of each body.
    intro name body found
    rw [body?_bare] at found
    obtain ⟨kept, has, rfl⟩ := Option.map_eq_some_iff.mp found
    intro free
    rw [Term.bare, Term.occursFree_relink]
    exact sound.closed name kept has free
  · -- The last two conditions speak of references only.
    rw [refersTo_bare]
    intro name other reference
    rw [contains_bare]
    exact sound.bound name other reference
  · rw [refersTo_bare]
    exact sound.acyclic

/-- Every macro of a sound table stands for something. -/
theorem Sound.isSome_resolve? (sound : table.Sound) (strategy : Strategy) {name : Name}
    (defined : table.contains name) : (table.resolve? strategy name).isSome := by
  -- A defined macro has a value or a body to stand for.
  rw [sound.resolve?_eq, Option.isSome_map]
  exact defined

/-- Where the macros referred to mean the same, references of a bare body are renewed
to the same. -/
theorem Sound.refresh_bare_of_agree (sound : table.Sound) {strategy : Strategy} {body : Term}
    (bound : ∀ other ∈ body.references, table.contains other)
    (agree : ∀ other ∈ body.references,
      table.bare.resolve? strategy other = table.resolve? strategy other) :
    table.bare.refresh strategy body.bare = table.refresh strategy body := by
  -- References are renewed from the table, never from what they carried.
  rw [refresh, refresh, Term.relink_bare, Term.relink_congr agree]
  intro other member
  rw [agree other member]
  exact sound.isSome_resolve? strategy (bound other member)

/-- A macro stands for the same with bare bodies as before. -/
theorem Sound.resolve?_bare (sound : table.Sound) (strategy : Strategy) (name : Name) :
    table.bare.resolve? strategy name = table.resolve? strategy name := by
  -- The values are the same, and a body is renewed after the macros that it refers to.
  have defined : ∀ name, table.contains name →
      table.bare.resolve? strategy name = table.resolve? strategy name := by
    refine sound.induct ?_
    intro name body has ih
    obtain ⟨definition, found, rfl⟩ := Option.map_eq_some_iff.mp has
    have bound : ∀ other ∈ definition.body.references, table.contains other := by
      exact fun other member => sound.bound name other (refersTo_of_get? found member)
    rw [sound.bare.resolve?_eq, sound.resolve?_eq, get?_bare, found]
    simp only [Option.map_some, Definition.bare, sound.refresh_bare_of_agree bound ih]
  -- A name that is not defined stands for nothing in either table.
  cases found : table.get? name with
  | some definition => exact defined name (contains_of_get? found)
  | none => rw [sound.bare.resolve?_eq, sound.resolve?_eq, get?_bare, found]; rfl

/-- A bare body compiles to the same values in the same runs. -/
theorem Sound.compile_bare (sound : table.Sound) {body : Term}
    (bound : ∀ other ∈ body.references, table.contains other) :
    table.bare.compile body.bare = table.compile body := by
  have runs : ∀ strategy,
      table.bare.evaluateBody body.bare strategy = table.evaluateBody body strategy := by
    -- A run does not start from the body itself, but from the body with its references renewed.
    intro strategy
    rw [evaluateBody, evaluateBody,
      sound.refresh_bare_of_agree bound (fun other _ => sound.resolve?_bare strategy other)]
    rfl
  rw [compile, compile, runs, runs, runs]

/-- Values that are up to date are so for bare bodies. -/
theorem Sound.upToDate_bare (sound : table.Sound) (current : ∀ name, table.UpToDate name)
    (name : Name) : table.bare.UpToDate name := by
  -- The stored values are the compiled ones, and a bare body compiles to the same.
  intro definition found
  rw [get?_bare] at found
  obtain ⟨kept, located, rfl⟩ := Option.map_eq_some_iff.mp found
  have bound : ∀ other ∈ kept.body.references, table.contains other := by
    exact fun other member => sound.bound name other (refersTo_of_get? located member)
  rw [Definition.bare, sound.compile_bare bound]
  exact current name kept located

/-- Macros with bare bodies are compiled again to the same values. -/
theorem Sound.recompile_bare (sound : table.Sound) (names : List Name) :
    table.bare.recompile names = (table.recompile names).bare := by
  -- One macro at a time: each is compiled in a table that differs from the other in
  -- its bodies only.
  induction names generalizing table with
  | nil => rfl
  | cons name rest ih =>
    have first : table.bare.recompile [name] = (table.recompile [name]).bare := by
      simp only [Table.recompile, List.foldl_cons, List.foldl_nil, get?_bare]
      -- A name of the list that is not defined changes neither table.
      cases found : table.get? name with
      | none => rfl
      | some definition =>
        have bound : ∀ other ∈ definition.body.references, table.contains other := by
          exact fun other member => sound.bound name other (refersTo_of_get? found member)
        simp only [Option.map_some, Definition.bare, sound.compile_bare bound, store_bare]
    rw [recompile_cons, recompile_cons table, first, ih (sound.recompile [name])]

/-- A definition that passes its check refers to macros of the table only, and not to itself. -/
theorem Passes.contains {name : Name} {body : Term} {dependents : List Name}
    (passes : table.Passes name body dependents) {other : Name}
    (member : other ∈ body.references) : table.contains other := by
  rcases passes.bound other member with known | same
  · exact known
  · -- The new macro itself would lead to the new macro.
    exact absurd (same ▸ .refl) (passes.admits.apart other member)

/-- A bare definition is refused for the same reason, or it is accepted with the same run and makes
the same table, but for bare bodies. -/
theorem Sound.define_bare (sound : table.Sound) (name : Name) (body : Term) :
    table.bare.define name body.bare =
      (table.define name body).map (fun result => (result.1.bare, result.2)) := by
  -- Checking, compiling and compiling dependents again are all the same on both sides.
  rw [define, check_bare, define]
  cases checked : table.check name body with
  | error error => rfl
  | ok dependents =>
    -- Once the macro is stored the tables still differ in bare bodies only.
    have passes := check_passes checked
    have stored := (passes.sound_candidate sound).of_bodies
      (body?_store_eq_candidate table name body (table.compile body).1).symm
    simp only [sound.compile_bare (fun _ => passes.contains), Except.map]
    rw [← stored.recompile_bare, store_bare]
    rfl

/-- What a table answers to a change: the run of the body that it defines, or why it refuses to. -/
def respond (table : Table) : TableChange → Except DefinitionError (Option Run)
  | .define name body => (table.define name body).map (fun result => some result.2)
  | .clear => .ok none

/-- What a table answers to changes, one after the other. -/
def responses (table : Table) : List TableChange → List (Except DefinitionError (Option Run))
  | [] => []
  | change :: rest => table.respond change :: (table.apply change).responses rest

/-- A change keeps a table sound. -/
theorem Sound.apply (sound : table.Sound) (change : TableChange) : (table.apply change).Sound := by
  -- A definition that is refused leaves the table, and one that is accepted keeps it sound.
  cases change with
  | clear => exact sound_empty table.budget
  | define name body =>
    rw [Table.apply]
    split
    · rename_i defined
      exact define_sound sound defined
    · exact sound

/-- A bare change makes the same table, but for bare bodies. -/
theorem Sound.apply_bare (sound : table.Sound) (change : TableChange) :
    table.bare.apply change.bare = (table.apply change).bare := by
  -- Clearing forgets everything, and a definition is accepted on both sides or on neither.
  cases change with
  | clear => rfl
  | define name body =>
    rw [TableChange.bare, Table.apply, Table.apply, sound.define_bare]
    cases table.define name body <;> rfl

/-- A bare change is answered alike. -/
theorem Sound.respond_bare (sound : table.Sound) (change : TableChange) :
    table.bare.respond change.bare = table.respond change := by
  -- Clearing is answered with nothing, and a definition with its run or its error.
  cases change with
  | clear => rfl
  | define name body =>
    rw [TableChange.bare, respond, respond, sound.define_bare]
    cases table.define name body <;> rfl

/-- Bare changes are answered alike, and make the same table but for bare bodies. -/
theorem Sound.replay_bare (sound : table.Sound) (changes : List TableChange) :
    table.bare.responses (changes.map TableChange.bare) = table.responses changes ∧
      table.bare.replay (changes.map TableChange.bare) = (table.replay changes).bare := by
  -- After each change the tables differ in what their bodies carry, as before it.
  induction changes generalizing table with
  | nil => exact ⟨rfl, rfl⟩
  | cons change rest ih =>
    obtain ⟨answered, replayed⟩ := ih (sound.apply change)
    rw [← sound.apply_bare] at answered replayed
    refine ⟨?_, replayed⟩
    rw [List.map_cons, responses, responses, sound.respond_bare, answered]

/-- Definitions depend on nothing that the references of the bodies carry: changes that differ in
this alone are answered alike one by one, and make tables with the same order, the same values, and
the same meaning and reference for every name. -/
theorem ofChanges_eq_of_bare (budget : Nat) {left right : List TableChange}
    (same : left.map TableChange.bare = right.map TableChange.bare) :
    (empty budget).responses left = (empty budget).responses right ∧
      (ofChanges budget left).order = (ofChanges budget right).order ∧
      ∀ name, ((ofChanges budget left).get? name).map Definition.values =
          ((ofChanges budget right).get? name).map Definition.values ∧
        ∀ strategy, (ofChanges budget left).resolve? strategy name =
            (ofChanges budget right).resolve? strategy name ∧
          (ofChanges budget left).reference strategy name =
            (ofChanges budget right).reference strategy name := by
  -- Both sessions are compared with the one whose references carry nothing.
  obtain ⟨leftAnswered, leftMade⟩ := (sound_empty budget).replay_bare left
  obtain ⟨rightAnswered, rightMade⟩ := (sound_empty budget).replay_bare right
  rw [same] at leftAnswered leftMade
  have tables : (ofChanges budget left).bare = (ofChanges budget right).bare :=
    leftMade.symm.trans rightMade
  -- What macros stand for does not see the difference either.
  have means : ∀ strategy name, (ofChanges budget left).resolve? strategy name =
      (ofChanges budget right).resolve? strategy name := by
    intro strategy name
    rw [← (ofChanges_sound budget left).resolve?_bare, tables,
      (ofChanges_sound budget right).resolve?_bare]
  refine ⟨leftAnswered.symm.trans rightAnswered, ?_, fun name => ⟨?_, fun strategy => ?_⟩⟩
  · rw [← order_bare, tables, order_bare]
  · rw [← map_values_bare, tables, map_values_bare]
  · refine ⟨means strategy name, ?_⟩
    rw [reference, reference, reference?, reference?, means]

/-- References that carry an open term and references that carry a reference to another macro define
the same; neither keeps a table from finding a cycle or a macro that is missing. -/
theorem ofChanges_eq_of_bare_open :
    let changes := fun carried : Term =>
      [.define "E" (.lam "x" (.var "x")), .clear, .define "B" (.lam "x" (.var "x")),
        .define "A" (.app (.ref "B" carried) (.lam "y" (.var "y"))), .define "B" (.ref "A" carried),
        .define "C" (.ref "E" carried), .define "B" (.lam "x" (.lam "y" (.var "x")))]
    let first : List TableChange := changes (.var "z")
    let second : List TableChange := changes (.ref "A" (.lam "x" (.var "x")))
    first ≠ second ∧ first.map TableChange.bare = second.map TableChange.bare ∧
      (empty 3).responses first = (empty 3).responses second ∧
      ((empty 3).responses second)[4]? = some (.error (.cyclic "B" ["A", "B", "A"])) ∧
      ((empty 3).responses second)[5]? = some (.error (.unbound "E")) ∧
      (ofChanges 3 second).resolve? .normal "A" = some (.lam "y" (.lam "y" (.var "y"))) := by
  -- The first session is computed, and the theorem gives the same answers to the second.
  intro changes first second
  have same : first.map TableChange.bare = second.map TableChange.bare := rfl
  obtain ⟨answered, -, holds⟩ := ofChanges_eq_of_bare 3 same
  have cyclic : ((empty 3).responses first)[4]? = some (.error (.cyclic "B" ["A", "B", "A"])) := by
    decide +kernel
  have missing : ((empty 3).responses first)[5]? = some (.error (.unbound "E")) := by decide +kernel
  have value : (ofChanges 3 first).resolve? .normal "A" =
      some (.lam "y" (.lam "y" (.var "y"))) := by decide +kernel
  have sameValue := ((holds "A").2 .normal).1
  exact ⟨by decide, same, answered, answered ▸ cyclic, answered ▸ missing, sameValue ▸ value⟩

end Table

end NamedLambda
