import NamedLambda.Proofs.Table.Linked
import NamedLambda.Proofs.Term.Folding

/-! Folding with the macros of a table keeps what a term stands for, and leaves nothing to fold. -/

namespace NamedLambda.Table

variable {table : Table} {strategy : Strategy} {term : Term}

/-- Folding gives the folded term, and says whether there was a part to fold. -/
theorem fold_eq (table : Table) (strategy : Strategy) (term : Term) :
    table.fold strategy term = (term.folded (table.meanings strategy),
      (term.foldWith? (table.meanings strategy)).isSome) := by
  -- Where there is no part to fold, the term itself is given back.
  rw [fold, fold?, Term.folded]
  cases term.foldWith? (table.meanings strategy) <;> rfl

/-- Folding replaces parts of the term by references to macros. -/
theorem folds_of_fold {folded : Term} {changed : Bool}
    (found : table.fold strategy term = (folded, changed)) :
    Term.Folds (table.meanings strategy) term folded := by
  rw [fold_eq] at found
  obtain ⟨rfl, -⟩ := Prod.mk.inj found
  exact Term.folds_folded term

section

variable (sound : table.Sound)
include sound

/-- The order of a sound table holds its macros. -/
theorem Sound.mem_order_iff {name : Name} : name ∈ table.order ↔ table.contains name := by
  -- There is an order, and it leaves no macro out.
  obtain ⟨names, found⟩ := sound.exists_order
  rw [order, found, (Graph.order_sorted found).2, mem_keys_graph]

/-- Each macro has a meaning, which is what it stands for. -/
theorem Sound.mem_meanings_iff {name : Name} {resolved : Term} :
    (name, resolved) ∈ table.meanings strategy ↔
      table.resolve? strategy name = some resolved := by
  -- Every macro of the order is looked up.
  simp only [meanings, List.mem_filterMap, Option.map_eq_some_iff, Prod.mk.injEq]
  constructor
  · rintro ⟨other, -, meaning, found, rfl, rfl⟩
    exact found
  · intro found
    have defined := contains_of_resolve? found
    exact ⟨name, sound.mem_order_iff.mpr defined, resolved, found, rfl, rfl⟩

/-- References to what the macros of a table stand for are those that the table makes. -/
theorem Sound.meanings_spelled (current : ∀ name, table.UpToDate name) (strategy : Strategy) :
    ∀ meaning ∈ table.meanings strategy,
      (Term.ref meaning.1 meaning.2).Spelled (fun _ => true) (table.resolve? strategy) := by
  -- A meaning is what its macro stands for, at every depth.
  intro meaning member
  have found := sound.mem_meanings_iff.mp member
  exact ⟨found, sound.resolve?_spelled current found⟩

/-- References to what the macros of a table stand for are coherent. -/
theorem Sound.meanings_coherent (current : ∀ name, table.UpToDate name) (strategy : Strategy) :
    ∀ meaning ∈ table.meanings strategy,
      (Term.ref meaning.1 meaning.2).Coherent (table.form strategy) :=
  fun meaning member =>
    sound.coherent current (sound.meanings_spelled current strategy meaning member)

end

/-- A folded term is equal to the term up to bound names, and it expands to the same; folding is
said to change a term exactly when it does. -/
theorem fold_alphaEq (budget : Nat) (changes : List TableChange)
    (linked : (ofChanges budget changes).Linked strategy term) :
    ((ofChanges budget changes).fold strategy term).1.alphaEq term ∧
      ((ofChanges budget changes).fold strategy term).1.expand.nameless = term.expand.nameless ∧
      (((ofChanges budget changes).fold strategy term).2 = false ↔
        ((ofChanges budget changes).fold strategy term).1 = term) := by
  obtain ⟨sound, current⟩ := ofChanges_sound_upToDate budget changes
  have coherent := sound.coherent current (sound.spelled_of_linked current linked)
  have known := sound.meanings_coherent current strategy
  -- Comparing the terms amounts to comparing their expansions, which are the same.
  have foldedCoherent := (Term.folds_folded term).throughout known coherent
  have same := (Term.folds_folded term).namelessUnder_expand known coherent []
  rw [fold_eq]
  refine ⟨(Term.alphaEq_iff foldedCoherent coherent).mpr same, same, ?_⟩
  rw [Term.folded]
  -- A fold that finds a part puts a reference where there was none.
  cases found : term.foldWith? ((ofChanges budget changes).meanings strategy) with
  | none => simp
  | some folded =>
    have different : folded ≠ term := fun same => Term.foldWith?_ne_self term (same ▸ found)
    simp [different]

/-- A part below binders is folded as well, and a reference is left as it is. -/
theorem fold_alphaEq_below_binder :
    let identity := Term.lam "x" (.var "x")
    let table := ofChanges 9 [.define "I" identity]
    let term := Term.app (.app (.var "z") (.ref "I" identity)) (.lam "y" (.lam "y" (.var "y")))
    let folded := Term.app (.app (.var "z") (.ref "I" identity)) (.lam "y" (.ref "I" identity))
    table.Linked .normal term ∧ table.fold .normal term = (folded, true) ∧
      folded.alphaEq term ∧ folded.expand.nameless = term.expand.nameless ∧ folded ≠ term := by
  -- The folding is computed, and the theorem says that it keeps the meaning.
  have meaning : (ofChanges 9 [.define "I" (.lam "x" (.var "x"))]).resolve? .normal "I" =
      some (.lam "x" (.var "x")) := by decide +kernel
  have folds : (ofChanges 9 [.define "I" (.lam "x" (.var "x"))]).fold .normal
      (.app (.app (.var "z") (.ref "I" (.lam "x" (.var "x")))) (.lam "y" (.lam "y" (.var "y")))) =
        (.app (.app (.var "z") (.ref "I" (.lam "x" (.var "x"))))
          (.lam "y" (.ref "I" (.lam "x" (.var "x")))), true) := by decide +kernel
  intro identity table term folded
  have spelled : term.Spelled (fun _ => true) (table.resolve? .normal) :=
    ⟨⟨rfl, meaning, rfl, rfl⟩, rfl, rfl, rfl⟩
  have linked := linked_of_spelled spelled
  obtain ⟨same, sameForm, changed⟩ := fold_alphaEq 9 [.define "I" identity] linked
  rw [folds] at same sameForm changed
  exact ⟨linked, folds, same, sameForm, fun unchanged => Bool.noConfusion (changed.mpr unchanged)⟩

/-- A term without a normal form. -/
def divergent : Term :=
  .app (.lam "y" (.app (.var "y") (.var "y"))) (.lam "y" (.app (.var "y") (.var "y")))

/-- The changes that define two macros, one referring to the other, and leave both without a normal
form by redefining the latter. -/
def divergence : List TableChange :=
  [.define "W" (.lam "x" (.var "x")), .define "V" (.lam "z" (.ref "W" (.lam "x" (.var "x")))),
    .define "W" (.lam "x" divergent)]

/-- In a folded term no part but a reference is equal to what a macro stands for up to bound names,
so that folding it again changes nothing. -/
theorem fold_complete (budget : Nat) (changes : List TableChange)
    (linked : (ofChanges budget changes).Linked strategy term) :
    (∀ path part, ((ofChanges budget changes).fold strategy term).1.at? path = some part →
        ¬part.IsReference → ∀ name resolved,
          (ofChanges budget changes).resolve? strategy name = some resolved →
            part.alphaEq resolved = false ∧ resolved.alphaEq part = false) ∧
      (ofChanges budget changes).fold strategy ((ofChanges budget changes).fold strategy term).1 =
        (((ofChanges budget changes).fold strategy term).1, false) := by
  obtain ⟨sound, current⟩ := ofChanges_sound_upToDate budget changes
  have coherent := sound.coherent current (sound.spelled_of_linked current linked)
  have known := sound.meanings_coherent current strategy
  have foldedCoherent := (Term.folds_folded term).throughout known coherent
  simp only [fold_eq]
  constructor
  · -- A part that stood for a macro would have been named after it.
    intro path part located apart name resolved found
    have member := sound.mem_meanings_iff.mpr found
    have unnamed := Term.nameAs?_of_at?_folded known coherent located apart
    rw [Term.alphaEq_comm (known _ member).2 (foldedCoherent.at? located), and_self]
    -- The search for a name looks at every macro.
    rw [Term.nameAs?, Option.map_eq_none_iff, List.find?_eq_none] at unnamed
    simpa using unnamed _ member
  · -- A second search finds no part to fold.
    have unfolded := Term.foldWith?_folded known coherent
    rw [unfolded, Term.folded, unfolded]
    rfl

/-- A part is named after the macro whose value refers to another macro, and
not searched further. -/
theorem fold_complete_divergence :
    let value := Term.lam "z" (.ref "W" (.lam "x" divergent))
    let term := Term.app (.var "q") (.lam "a" (.lam "b" divergent))
    let folded := Term.app (.var "q") (.ref "V" value)
    (ofChanges 3 divergence).Linked .callByName term ∧
      (ofChanges 3 divergence).resolve? .callByName "V" = some value ∧
      (ofChanges 3 divergence).fold .callByName term = (folded, true) ∧
      folded.alphaEq value = false ∧ value.alphaEq folded = false ∧
      (ofChanges 3 divergence).fold .callByName folded = (folded, false) := by
  -- The folding is computed, and the theorem excludes parts that are left.
  have meaning : (ofChanges 3 divergence).resolve? .callByName "V" =
      some (.lam "z" (.ref "W" (.lam "x" divergent))) := by decide +kernel
  have folds : (ofChanges 3 divergence).fold .callByName
      (.app (.var "q") (.lam "a" (.lam "b" divergent))) =
        (.app (.var "q") (.ref "V" (.lam "z" (.ref "W" (.lam "x" divergent)))), true) := by
    decide +kernel
  intro value term folded
  have spelled : term.Spelled (fun _ => true) ((ofChanges 3 divergence).resolve? .callByName) := by
    simp [term, divergent, Term.Throughout]
  have linked := linked_of_spelled spelled
  obtain ⟨complete, again⟩ := fold_complete 3 divergence linked
  rw [folds] at complete again
  have apart : ¬folded.IsReference := by simp [folded, Term.IsReference]
  obtain ⟨different, differs⟩ := complete [] folded rfl apart "V" value meaning
  exact ⟨linked, meaning, folds, different, differs, again⟩

end NamedLambda.Table
