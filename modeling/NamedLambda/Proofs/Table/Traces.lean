import NamedLambda.Proofs.Reduction.Traces
import NamedLambda.Proofs.Table.Inlining
import NamedLambda.Proofs.Table.Invariant

/-! The terms of a trace can be read again with the macros of the table, as long as their references
show: substitution takes references for closed, and so it may put one below a binder of its name. -/

namespace NamedLambda.Table

/-- The variables and binders of all bodies have names of a kind. -/
def Spelled (table : Table) (kind : Name → Bool) : Prop :=
  ∀ name body, table.body? name = some body → ∀ used ∈ body.names, kind used

section

variable {table : Table} {kind : Name → Bool}
  (fresh : ∀ base avoid, kind base → kind (freshName base avoid))

/-- A macro that stands for terms with names of a kind under every strategy. -/
def Speaks (table : Table) (kind : Name → Bool) (name : Name) : Prop :=
  ∀ strategy, ∃ resolved, table.resolve? strategy name = some resolved ∧
    resolved.Spelled kind (table.resolve? strategy)

include fresh

/-- A run of a body finds a value with names of the kind, whose references are those
of the table. -/
theorem evaluateBody_spelled {body value : Term} {strategy : Strategy}
    (named : ∀ name ∈ body.names, kind name)
    (speaks : ∀ name ∈ body.references, table.Speaks kind name)
    (found : (table.evaluateBody body strategy).value = some value) :
    value.Spelled kind (table.resolve? strategy) := by
  -- The run starts from references to what the macros mean now, and its steps bring no others.
  have start : (table.refresh strategy body).Spelled kind (table.resolve? strategy) :=
    Term.spelled_relink named (fun name member => speaks name member strategy)
  exact (Term.evaluate_value (fun _ _ => Term.throughout_step? fresh) start found).1

/-- The values that a body compiles to have its names. -/
theorem compile_spelled {body value : Term} {strategy : Strategy}
    (named : ∀ name ∈ body.names, kind name)
    (speaks : ∀ name ∈ body.references, table.Speaks kind name)
    (found : (table.compile body).1.valueFor? strategy = some value) :
    value.Spelled kind (table.resolve? strategy) := by
  -- A value that serves a strategy was found by a run, under normal order or under
  -- the strategy itself.
  cases normal : (table.evaluateBody body .normal).value with
  | some kept =>
    obtain rfl : kept = value := by simpa [compile, normal, Values.valueFor?] using found
    have spelled := evaluateBody_spelled fresh named speaks normal
    -- A normal form serves every strategy, as no reference is left in it.
    have value : Strategy.normal.isValue kept :=
      (Term.evaluate_value (fun _ _ _ _ => trivial) trivial normal).2
    exact Term.throughout_of_not_mem_references spelled.forall_names
      (Strategy.not_mem_references_of_normal value)
  | none =>
    simp only [compile, normal] at found
    cases strategy with
    | callByValue => exact evaluateBody_spelled fresh named speaks found
    | callByName => exact evaluateBody_spelled fresh named speaks found
    | applicative => contradiction
    | normal => contradiction

/-- The macros of a table stand for terms with the names of its bodies. -/
theorem Sound.speaks (sound : table.Sound) (current : ∀ name, table.UpToDate name)
    (spelled : table.Spelled kind) {name : Name} (defined : table.contains name) :
    table.Speaks kind name := by
  -- The macros that a body refers to speak before the one it defines.
  refine sound.induct ?_ name defined
  intro name body has ih strategy
  obtain ⟨definition, found, rfl⟩ := Option.map_eq_some_iff.mp has
  have named := spelled name definition.body has
  rw [sound.resolve?_eq, found, Option.map_some]
  refine ⟨_, rfl, ?_⟩
  cases kept : definition.values.valueFor? strategy with
  | none => exact Term.spelled_relink named (fun other member => ih other member strategy)
  | some value =>
    rw [current name definition found] at kept
    exact compile_spelled fresh named ih kept

/-- A term that is read with a table has the names of its text and of the bodies. -/
theorem Sound.readTerm_spelled (sound : table.Sound) (current : ∀ name, table.UpToDate name)
    (spelled : table.Spelled kind) {strategy : Strategy} {source : String} {term : Term}
    (found : table.readTerm strategy source = .ok term) (named : ∀ name ∈ term.names, kind name) :
    term.Spelled kind (table.resolve? strategy) := by
  -- Its references carry what the table would renew them to.
  obtain ⟨same, defined⟩ := refresh_of_written (readTerm_written found)
  rw [← same]
  exact Term.spelled_relink named
    (fun name member => sound.speaks fresh current spelled (defined name member) strategy)

end

/-- Only macro names stand for anything. -/
theorem Sound.isMacroName_of_resolve? {table : Table} (sound : table.Sound) {strategy : Strategy}
    {name : Name} {resolved : Term} (found : table.resolve? strategy name = some resolved) :
    isMacroName name := by
  -- A name that stands for something has a definition, which has passed its check.
  obtain ⟨definition, located⟩ := exists_of_resolve? found
  exact sound.named name definition.body (body?_of_get? located)

/-- The references of a term that is read carry closed terms. -/
theorem Sound.readTerm_carriesClosed {table : Table} (sound : table.Sound)
    (current : ∀ name, table.UpToDate name) {strategy : Strategy} {source : String} {term : Term}
    (found : table.readTerm strategy source = .ok term) : term.CarriesClosed := by
  -- The references are those that the table makes, to what its macros mean.
  obtain ⟨same, defined⟩ := refresh_of_written (readTerm_written found)
  rw [← same]
  exact Term.carriesClosed_relink (fun name member =>
    sound.meaningful current (defined name member) strategy)

/-- The text of a term that can be written is read as the term that it says. -/
theorem Sound.readTerm_text {table : Table} (sound : table.Sound) {strategy : Strategy}
    {kind : Name → Bool} {term : Term} (legible : term.Legible)
    (spelled : term.Spelled kind (table.resolve? strategy))
    (plain : ∀ name, term.occursFree name → isMacroName name = false) :
    table.readTerm strategy term.text = .ok (term.asPrinted []) := by
  -- Printing forgets what references carry, and the table gives it back.
  have resolves : term.unlink.scope? (table.reference? strategy) [] = some (term.asPrinted []) :=
    spelled.scope?_unlink (fun _ _ => sound.isMacroName_of_resolve?) plain
  exact (Term.readsAs_text legible).expression.readTerm resolves

/-- A text of a trace is read with the macros of the table as the term that it says, if the names of
the printed term can be written at all, which they can if those of all bodies can. This is the
printed term up to bound names exactly when all its references show, and then it is the printed term
itself; they do if neither the term that was evaluated nor a body has a variable or binder named
like a macro. -/
theorem readTerm_trace (budget : Nat) (changes : List TableChange) {strategy : Strategy}
    {source : String} {term : Term}
    (found : (ofChanges budget changes).readTerm strategy source = .ok term) (rounds index : Nat)
    {text : String} (seen : (term.evaluate strategy rounds).trace[index]? = some text) :
    ∃ reached, Run.stepTimes? strategy.step? index term = some reached ∧
      (reached.Legible →
        (ofChanges budget changes).readTerm strategy text = .ok (reached.asPrinted []) ∧
        ((reached.asPrinted []).alphaEq reached ↔ reached.showsReferences []) ∧
        (reached.showsReferences [] → reached.asPrinted [] = reached)) ∧
      ((ofChanges budget changes).Spelled isIdentifier → reached.Legible) ∧
      ((ofChanges budget changes).Spelled (fun name => !isMacroName name) →
        (∀ name ∈ term.names, isMacroName name = false) → reached.showsReferences []) := by
  obtain ⟨sound, current⟩ := ofChanges_sound_upToDate budget changes
  obtain ⟨reached, steps, rfl⟩ := Term.exists_of_trace seen
  have named : ∀ name resolved, (ofChanges budget changes).resolve? strategy name = some resolved →
      isMacroName name := fun _ _ => sound.isMacroName_of_resolve?
  obtain ⟨plain, plainly, scopes⟩ := exists_readPlainTerm found
  -- What every step keeps of names holds of the term reached.
  have keeps {kind : Name → Bool}
      (fresh : ∀ base avoid, kind base → kind (freshName base avoid))
      (spelled : (ofChanges budget changes).Spelled kind)
      (inTerm : ∀ name ∈ term.names, kind name) :
      reached.Spelled kind ((ofChanges budget changes).resolve? strategy) :=
    Run.stepTimes?_keeps (fun _ _ => Term.throughout_step? fresh)
      (sound.readTerm_spelled fresh current spelled found inTerm) steps
  refine ⟨reached, steps, ?_, ?_, ?_⟩
  · -- A term that can be written is read as printed.
    intro legible
    obtain ⟨carries, free⟩ :=
      Term.stepTimes?_comesOf (sound.readTerm_carriesClosed current found) steps
    have linked : reached.Spelled (fun _ => true) ((ofChanges budget changes).resolve? strategy) :=
      keeps (fun _ _ _ => rfl) (fun _ _ _ _ _ => rfl) (fun _ _ => rfl)
    refine ⟨sound.readTerm_text legible linked ?_, Term.alphaEq_asPrinted_iff carries,
      Term.asPrinted_eq_self⟩
    -- Free macro names became references when the term was read, and no step frees a name.
    intro name occurs
    exact Term.isMacroName_of_scope? scopes (free name occurs) List.not_mem_nil
  · -- Identifiers of the text and of the bodies are kept by every step.
    intro identifiers
    refine (keeps ?_ identifiers ?_).legible named
    · intro base avoid identifier
      rwa [isIdentifier_freshName]
    · intro name member
      exact (readPlainTerm_names plainly).1 name (Term.names_scope? scopes member)
  · -- So are names that are none of macros.
    intro apart inTerm
    refine (keeps ?_ apart ?_).showsReferences named
    · intro base avoid different
      rwa [isMacroName_freshName]
    · intro name member
      rw [inTerm name member]
      rfl

/-- A reference below a binder of another name is read as one. -/
theorem readTerm_trace_constant :
    let identity := Term.lam "x" (.var "x")
    let table := ofChanges 9 [.define "I" identity]
    let term := Term.app (.lam "x" (.lam "y" (.var "x"))) (.ref "I" identity)
    let reached := Term.lam "y" (.ref "I" identity)
    table.readTerm .normal "(λx.λy.x) I" = .ok term ∧
      (term.evaluate .normal 9).trace[1]? = some "λy.I" ∧
      table.Spelled isIdentifier ∧ table.Spelled (fun name => !isMacroName name) ∧
      reached.Legible ∧ reached.showsReferences [] ∧
      table.readTerm .normal "λy.I" = .ok reached := by
  have found : (ofChanges 9 [.define "I" (.lam "x" (.var "x"))]).readTerm .normal "(λx.λy.x) I" =
      .ok (.app (.lam "x" (.lam "y" (.var "x"))) (.ref "I" (.lam "x" (.var "x")))) := by
    decide +kernel
  have keys : (ofChanges 9 [.define "I" (.lam "x" (.var "x"))]).definitions.keys = ["I"] := by
    decide +kernel
  have identity : (ofChanges 9 [.define "I" (.lam "x" (.var "x"))]).body? "I" =
      some (.lam "x" (.var "x")) := by decide +kernel
  -- The one body has the one name.
  have spelled : ∀ kind, kind "x" →
      (ofChanges 9 [.define "I" (.lam "x" (.var "x"))]).Spelled kind := by
    intro kind holds name body has used member
    have defined := NameMap.mem_keys.mpr (contains_iff.mpr ⟨body, has⟩)
    rw [keys, List.mem_singleton] at defined
    subst defined
    obtain rfl := Option.some.inj (identity.symm.trans has)
    obtain rfl : used = "x" := by simpa [Term.names] using member
    exact holds
  intro _ table term reached
  -- The snapshot and the term behind it are computed.
  have seen : (term.evaluate .normal 9).trace[1]? = some "λy.I" := by decide +kernel
  have stepped : Run.stepTimes? Strategy.normal.step? 1 term = some reached := by decide +kernel
  obtain ⟨other, steps, reads, legible, shows⟩ := readTerm_trace 9 _ found 9 1 seen
  obtain rfl := Option.some.inj (stepped.symm.trans steps)
  have identifiers : table.Spelled isIdentifier := spelled _ (by decide)
  have apart : table.Spelled (fun name => !isMacroName name) := spelled _ (by decide)
  have plain : ∀ name ∈ term.names, isMacroName name = false := by
    simp only [term, Term.names, NameSet.mem_union, NameSet.mem_singleton, NameSet.not_mem_empty,
      or_false, or_imp, forall_and, forall_eq]
    decide
  obtain ⟨read, -, same⟩ := reads (legible identifiers)
  rw [same (shows apart plain)] at read
  exact ⟨found, seen, identifiers, apart, legible identifiers, shows apart plain, read⟩

/-- A reference that comes below a binder of its name is read as a variable, and a binder that
cannot be written is not read at all. -/
theorem readTerm_trace_captured :
    let identity := Term.lam "x" (.var "x")
    let accented := Term.lam "é" (.var "é")
    let term := Term.app (.lam "x" (.lam "I" (.var "x"))) (.ref "I" identity)
    let reached := Term.lam "I" (.ref "I" identity)
    (∃ back, (ofChanges 9 [.define "I" identity]).readTerm .normal "(λx.λI.x) I" = .ok term ∧
        (term.evaluate .normal 9).trace[1]? = some "λI.I" ∧
        Run.stepTimes? Strategy.normal.step? 1 term = some reached ∧
        (ofChanges 9 [.define "I" identity]).readTerm .normal "λI.I" = .ok back ∧
        back.alphaEq reached = false) ∧
      ∃ error, (ofChanges 9 [.define "I" accented]).readTerm .normal "I" =
          .ok (.ref "I" accented) ∧
        ((Term.ref "I" accented).evaluate .normal 9).trace[1]? = some "λé.é" ∧
        (ofChanges 9 [.define "I" accented]).readTerm .normal "λé.é" = .error error := by
  -- Both tables are small enough to compute with.
  refine ⟨⟨.lam "I" (.var "I"), ?_, ?_, ?_, ?_, ?_⟩,
    .invalidCharacter ⟨'é', 1⟩, ?_, ?_, ?_⟩
  all_goals decide +kernel

end NamedLambda.Table
