import NamedLambda.Proofs.Table.Recompilation

/-! Whatever is defined and cleared, a table stays sound and its values stay up to date. -/

namespace NamedLambda

/-- A change that is asked of a table. -/
inductive TableChange where
  /-- To define a macro, or to redefine it. -/
  | define (name : Name) (body : Term)
  /-- To remove all macros. -/
  | clear
deriving DecidableEq, Repr

namespace Table

/-- The table after a change, which is the table before where the change is refused. -/
def apply (table : Table) : TableChange → Table
  | .define name body =>
    match table.define name body with
    | .ok (after, _) => after
    | .error _ => table
  | .clear => table.clear

/-- The table after changes, one after the other. -/
def replay (table : Table) (changes : List TableChange) : Table :=
  changes.foldl apply table

/-- The table that changes make of the empty one. -/
def ofChanges (budget : Nat) (changes : List TableChange) : Table :=
  (empty budget).replay changes

/-- What holds of empty tables and survives every accepted definition holds after any changes. -/
theorem ofChanges_induct {motive : Table → Prop} (base : ∀ budget, motive (empty budget))
    (kept : ∀ table name body after run, motive table →
      table.define name body = .ok (after, run) → motive after)
    (budget : Nat) (changes : List TableChange) : motive (ofChanges budget changes) := by
  -- A refused definition changes nothing, and a cleared table is empty again.
  have step : ∀ table change, motive table → motive (table.apply change) := by
    intro table change holds
    cases change with
    | define name body =>
      cases defined : table.define name body with
      | error error => simpa [apply, defined] using holds
      | ok result =>
        obtain ⟨after, run⟩ := result
        simpa [apply, defined] using kept table name body after run holds defined
    | clear => exact base table.budget
  -- The changes come one after the other.
  have run : ∀ changes table, motive table → motive (table.replay changes) := by
    intro changes
    induction changes with
    | nil => exact fun _ holds => holds
    | cons change rest ih =>
      intro table holds
      exact ih (table.apply change) (step table change holds)
  exact run changes (empty budget) (base budget)

/-- An accepted definition passes its check, is compiled against the table before, and has its
dependents compiled again. -/
theorem define_passes {table after : Table} {name : Name} {body : Term} {run : Run}
    (defined : table.define name body = .ok (after, run)) :
    ∃ dependents, table.Passes name body dependents ∧
      after = (table.store name ⟨body, (table.compile body).1⟩).recompile dependents ∧
      run = (table.compile body).2 := by
  unfold define at defined
  split at defined
  · -- A check that fails accepts nothing.
    contradiction
  · rename_i dependents checked
    simp only [Except.ok.injEq, Prod.mk.injEq] at defined
    exact ⟨dependents, check_passes checked, defined.1.symm, defined.2.symm⟩

/-- A definition stored over another of the same name leaves nothing of it. -/
theorem store_store (table : Table) (name : Name) (first second : Definition) :
    (table.store name first).store name second = table.store name second := by
  simp only [store, mk.injEq, and_true]
  -- Every look-up finds the same in both maps.
  apply NameMap.ext_get?
  intro other
  simp only [NameMap.get?_insert]
  split <;> rfl

/-- A macro of a sound table plays no part in compiling its own body. -/
theorem Sound.compile_store {table : Table} (sound : table.Sound) {name : Name}
    {definition : Definition} (stored : (table.store name definition).Sound) :
    (table.store name definition).compile definition.body = table.compile definition.body := by
  -- With and without the macro, all macros are the same from which no reference leads to it.
  refine stored.compile_congr_among sound rfl
    (fun known => ¬Relation.ReflTransGen (table.store name definition).RefersTo known name) ?_ ?_ ?_
  · intro known apart
    have different : known ≠ name := by
      rintro rfl
      exact apart .refl
    rw [get?_store, if_neg different]
  · intro known needed apart reference reaches
    exact apart (.head reference reaches)
  · -- A reference of the body that led to the macro would close a cycle.
    intro needed member reaches
    have reference : (table.store name definition).RefersTo name needed :=
      (refersTo_iff (by rw [body?_store, if_pos rfl])).mpr member
    exact stored.acyclic name (.head' reference reaches)

/-- A body that passes its check compiles alike in the candidate table and in the table before. -/
theorem Passes.compile_candidate {table : Table} {name : Name} {body : Term}
    {dependents : List Name} (passes : table.Passes name body dependents) (sound : table.Sound) :
    (table.candidate name body).compile body = table.compile body :=
  -- The candidate table stores the body without values.
  sound.compile_store (passes.sound_candidate sound)

/-- Compiling the new macro of the candidate table stores its values beside the body. -/
theorem recompile_candidate (table : Table) (name : Name) (body : Term) :
    (table.candidate name body).recompile [name] =
      table.store name ⟨body, ((table.candidate name body).compile body).1⟩ := by
  have found : (table.candidate name body).get? name = some ⟨body, .weak none none⟩ := by
    rw [candidate, get?_store, if_pos rfl]
  simp only [recompile, List.foldl_cons, List.foldl_nil, found]
  -- The second definition stored under the name takes the place of the first.
  exact store_store ..

/-- An accepted definition compiles the new macro and then its dependents in the candidate table,
and its run is that of the new body there. -/
theorem define_eq_candidate {table after : Table} (sound : table.Sound) {name : Name}
    {body : Term} {run : Run} (defined : table.define name body = .ok (after, run)) :
    ∃ dependents, table.Passes name body dependents ∧
      after = (table.candidate name body).recompile (name :: dependents) ∧
      run = ((table.candidate name body).compile body).2 := by
  obtain ⟨dependents, passes, rfl, rfl⟩ := define_passes defined
  -- The new macro comes first, and the candidate table compiles it as the table before does.
  refine ⟨dependents, passes, ?_, ?_⟩
  · rw [recompile_cons, recompile_candidate, passes.compile_candidate sound]
  · rw [passes.compile_candidate sound]

/-- An accepted definition changes one body. -/
theorem body?_of_define {table after : Table} {name : Name} {body : Term} {run : Run}
    (defined : table.define name body = .ok (after, run)) (other : Name) :
    after.body? other = if other = name then some body else table.body? other := by
  obtain ⟨dependents, -, rfl, -⟩ := define_passes defined
  rw [body?_recompile, body?_store]

/-- An accepted definition keeps the budget. -/
theorem budget_of_define {table after : Table} {name : Name} {body : Term} {run : Run}
    (defined : table.define name body = .ok (after, run)) : after.budget = table.budget := by
  obtain ⟨dependents, -, rfl, -⟩ := define_passes defined
  exact budget_recompile _ dependents

/-- The bodies of a table do not depend on the values that are stored with a new one. -/
theorem body?_store_eq_candidate (table : Table) (name : Name) (body : Term) (values : Values) :
    (table.store name ⟨body, values⟩).body? = (table.candidate name body).body? := by
  -- Either way the new body is the only change.
  funext other
  rw [body?_store, body?_candidate]

/-- An accepted definition keeps the table sound. -/
theorem define_sound {table after : Table} (sound : table.Sound) {name : Name} {body : Term}
    {run : Run} (defined : table.define name body = .ok (after, run)) : after.Sound := by
  obtain ⟨dependents, passes, rfl, -⟩ := define_passes defined
  -- The new table has the bodies of the candidate table.
  refine (passes.sound_candidate sound).of_bodies ?_
  rw [body?_recompile, body?_store_eq_candidate]

/-- A macro that is no dependent of the new one refers neither to it nor to a dependent. -/
theorem Passes.independent {table : Table} {name : Name} {body : Term} {dependents : List Name}
    (passes : table.Passes name body dependents) {other needed : Name} (spared : other ∉ dependents)
    (reference : (table.candidate name body).RefersTo other needed) :
    needed ≠ name ∧ needed ∉ dependents := by
  obtain ⟨names, found, rfl⟩ := passes.ordered
  obtain ⟨sorted, covers⟩ := Graph.order_sorted found
  rw [← dependsOn_graph] at reference
  -- The order puts every macro after those that it refers to.
  have member := (covers other).mpr reference.mem_keys
  have apart := Graph.independent_of_not_mem_affectedBy sorted.pairwise member spared reference
  rw [List.mem_singleton] at apart
  exact apart

/-- With a new macro stored only its dependents can be out of date, and only they
refer to dependents. -/
theorem Passes.settled {table : Table} (sound : table.Sound)
    (current : ∀ name, table.UpToDate name) {name : Name} {body : Term} {dependents : List Name}
    (passes : table.Passes name body dependents) :
    (table.store name ⟨body, (table.compile body).1⟩).Settled dependents := by
  have bodies := body?_store_eq_candidate table name body (table.compile body).1
  have storedSound := (passes.sound_candidate sound).of_bodies bodies.symm
  have refers := refersTo_congr bodies
  -- What is neither the new macro nor a dependent is as before, and so is all it refers to.
  have compiled : ∀ owner definition, owner ∉ dependents →
      (table.store name ⟨body, (table.compile body).1⟩).get? owner = some definition →
        table.compile definition.body =
          (table.store name ⟨body, (table.compile body).1⟩).compile definition.body := by
    intro owner definition spared found
    refine sound.compile_congr_among storedSound rfl
      (fun known => known ≠ name ∧ known ∉ dependents) ?_ ?_ ?_
    · intro known apart
      rw [get?_store, if_neg apart.1]
    · intro known further apart reference
      exact passes.independent apart.2 ((refersTo_candidate apart.1).mpr reference)
    · intro needed member
      have reference := refersTo_of_get? found member
      rw [refers] at reference
      exact passes.independent spared reference
  constructor
  · -- A macro that is no dependent is the new one, just compiled, or as it was before.
    intro owner spared definition found
    rw [← compiled owner definition spared found]
    rw [get?_store] at found
    split at found
    · obtain rfl := Option.some.inj found
      rfl
    · exact current owner definition found
  · -- Nor does it refer to a dependent.
    intro owner needed spared reference
    rw [refers] at reference
    exact (passes.independent spared reference).2

/-- An accepted definition brings the values of all macros up to date. -/
theorem define_upToDate {table after : Table} (sound : table.Sound)
    (current : ∀ name, table.UpToDate name) {name : Name} {body : Term} {run : Run}
    (defined : table.define name body = .ok (after, run)) (other : Name) :
    after.UpToDate other := by
  obtain ⟨dependents, passes, rfl, -⟩ := define_passes defined
  have bodies := body?_store_eq_candidate table name body (table.compile body).1
  have storedSound := (passes.sound_candidate sound).of_bodies bodies.symm
  refine (passes.settled sound current).recompile storedSound ?_ other
  -- The dependents stand in the order of a list in which dependencies come first.
  obtain ⟨names, found, rfl⟩ := passes.ordered
  rw [DependenciesFirst, refersTo_congr bodies, ← dependsOn_graph]
  exact (Graph.order_sorted found).1.pairwise.sublist (Graph.affectedBy_sublist _ _)

/-- After any changes a table is sound and up to date. -/
theorem ofChanges_sound_upToDate (budget : Nat) (changes : List TableChange) :
    (ofChanges budget changes).Sound ∧ ∀ name, (ofChanges budget changes).UpToDate name := by
  -- The empty table has no macro, and every accepted definition keeps both.
  refine ofChanges_induct (motive := fun table => table.Sound ∧ ∀ name, table.UpToDate name)
    ?_ ?_ budget changes
  · refine fun budget => ⟨sound_empty budget, ?_⟩
    intro name definition found
    contradiction
  · intro table name body after run holds defined
    exact ⟨define_sound holds.1 defined, define_upToDate holds.1 holds.2 defined⟩

/-- After any changes a table is sound. -/
theorem ofChanges_sound (budget : Nat) (changes : List TableChange) :
    (ofChanges budget changes).Sound :=
  (ofChanges_sound_upToDate budget changes).1

/-- After any changes the values of a table are up to date. -/
theorem ofChanges_upToDate (budget : Nat) (changes : List TableChange) (name : Name) :
    (ofChanges budget changes).UpToDate name :=
  (ofChanges_sound_upToDate budget changes).2 name

end Table

end NamedLambda
