import NamedLambda.Proofs.Table.Folding

/-! The value that was found for a macro folds back to a name of it: its own, unless an earlier
macro stands for the same. -/

namespace NamedLambda

/-- The value that was found under the strategy itself. -/
def Values.foundBy? (values : Values) : Strategy → Option Term
  | .normal => values.normalForm?
  | .callByName => values.byName?
  | .callByValue => values.byValue?
  -- No value is searched for in applicative order.
  | .applicative => none

/-- A value serves the strategy that it was found under. -/
theorem Values.valueFor?_of_foundBy? {values : Values} {strategy : Strategy} {value : Term}
    (found : values.foundBy? strategy = some value) : values.valueFor? strategy = some value := by
  -- A normal form serves its own strategy among the others.
  cases values with
  | normalForm term =>
    cases strategy with
    | normal => exact found
    | _ => contradiction
  | weak byName byValue =>
    cases strategy with
    | callByName => exact found
    | callByValue => exact found
    | _ => contradiction

namespace Table

variable {table : Table} {strategy : Strategy}

/-- The first macro in the order of the table that stands for a term up to bound names. -/
def firstFor? (table : Table) (strategy : Strategy) (term : Term) : Option Name :=
  table.order.find? (fun name =>
    (table.resolve? strategy name).any (fun resolved => resolved.alphaEq term))

/-- The first macro for a term stands for it, and no macro before it in the order does. -/
theorem firstFor?_eq_some_iff {term : Term} {name : Name} :
    table.firstFor? strategy term = some name ↔
      (∃ resolved, table.resolve? strategy name = some resolved ∧ resolved.alphaEq term) ∧
        ∃ before after, table.order = before ++ name :: after ∧
          ∀ other ∈ before, ∀ earlier, table.resolve? strategy other = some earlier →
            earlier.alphaEq term = false := by
  -- This is what a search of the order finds.
  simp only [firstFor?, List.find?_eq_some_iff_append, Option.any_eq_true, Bool.not_eq_true',
    Option.any_eq_false]

/-- There is a first macro for what some macro stands for. -/
theorem Sound.exists_firstFor? (sound : table.Sound) {term resolved : Term} {name : Name}
    (found : table.resolve? strategy name = some resolved) (same : resolved.alphaEq term) :
    ∃ first, table.firstFor? strategy term = some first := by
  rw [← Option.isSome_iff_exists, firstFor?, List.find?_isSome]
  -- The search passes every macro.
  exact ⟨name, sound.mem_order_iff.mpr (contains_of_resolve? found), by simp [found, same]⟩

/-- What is kept as found under a strategy is the value of a run under this strategy. -/
theorem evaluateBody_of_foundBy? {body value : Term}
    (found : (table.compile body).1.foundBy? strategy = some value) :
    (table.evaluateBody body strategy).value = some value := by
  -- The other strategies are tried only where there is no normal form.
  cases normal : (table.evaluateBody body .normal).value with
  | some kept =>
    simp only [compile, normal] at found
    cases strategy with
    | normal =>
      rw [normal]
      exact found
    -- The other strategies have not been tried.
    | _ => contradiction
  | none =>
    simp only [compile, normal] at found
    cases strategy with
    | callByName => exact found
    | callByValue => exact found
    | _ => contradiction

/-- A part of a term is named after the first macro that stands for it. -/
theorem Sound.nameAs?_meanings (sound : table.Sound) (current : ∀ name, table.UpToDate name)
    {term : Term} (coherent : term.Coherent (table.form strategy)) :
    term.nameAs? (table.meanings strategy) =
      (table.firstFor? strategy term).bind (table.reference? strategy) := by
  -- The two searches compare in opposite directions.
  have same : table.firstFor? strategy term = table.order.find? (fun name =>
      ((table.resolve? strategy name).map (name, ·)).any
        (fun meaning => term.alphaEq meaning.2)) := by
    apply List.find?_congr
    intro name _
    -- A macro that stands for nothing passes neither comparison.
    cases found : table.resolve? strategy name with
    | none => rfl
    | some resolved =>
      have other := sound.meanings_coherent current strategy _ (sound.mem_meanings_iff.mpr found)
      simp only [Option.any_some, Option.map_some]
      exact Term.alphaEq_comm other.2 coherent
  rw [Term.nameAs?, meanings, List.find?_filterMap, same, Option.map_bind]
  congr 1
  funext name
  simp only [Function.comp_apply, reference?, Option.map_map, Function.comp_def]

/-- The value that a strategy found for a macro is what its body now evaluates to under the
strategy, and it folds to a reference: to itself where it is one, or else to the first macro that
stands for it, which is its own macro where no earlier one does. -/
theorem fold_value (budget : Nat) (changes : List TableChange) {name : Name}
    {definition : Definition} {strategy : Strategy} {value : Term}
    (defined : (ofChanges budget changes).get? name = some definition)
    (kept : definition.values.foundBy? strategy = some value) :
    (((ofChanges budget changes).refresh strategy definition.body).evaluate strategy
        (ofChanges budget changes).budget).value = some value ∧
      (value.IsReference → (ofChanges budget changes).fold strategy value = (value, false)) ∧
      (¬value.IsReference → ∃ first resolved,
        (ofChanges budget changes).firstFor? strategy value = some first ∧
        (ofChanges budget changes).reference strategy first = .ok (.ref first resolved) ∧
        (ofChanges budget changes).fold strategy value = (.ref first resolved, true) ∧
        ∀ before after, (ofChanges budget changes).order = before ++ name :: after →
          (∀ other ∈ before, ∀ earlier,
            (ofChanges budget changes).resolve? strategy other = some earlier →
              earlier.alphaEq value = false) →
          first = name) := by
  -- What was found under the strategy serves it, so that the macro stands for the value.
  obtain ⟨sound, current⟩ := ofChanges_sound_upToDate budget changes
  have stands : (ofChanges budget changes).resolve? strategy name = some value := by
    rw [sound.resolve?_eq, defined, Option.map_some, Values.valueFor?_of_foundBy? kept,
      Option.getD_some]
  refine ⟨?_, ?_, ?_⟩
  · -- The stored values are those of the present body.
    rw [current name definition defined] at kept
    exact evaluateBody_of_foundBy? kept
  · -- A reference is left as it is.
    rintro ⟨other, resolved, rfl⟩
    rfl
  · intro apart
    have coherent := sound.coherent current (sound.resolve?_spelled current stands)
    -- The macro itself passes the comparison, so that the search for a name succeeds.
    have itself : value.alphaEq value := Term.alphaEq_of_nameless rfl
    obtain ⟨first, located⟩ := sound.exists_firstFor? stands itself
    obtain ⟨⟨resolved, found, -⟩, -⟩ := firstFor?_eq_some_iff.mp located
    have named := sound.nameAs?_meanings current coherent
    rw [located, Option.bind_some, reference?, found, Option.map_some] at named
    refine ⟨first, resolved, located, reference_eq_ok_iff.mpr found, ?_, ?_⟩
    · rw [fold_eq, Term.folded, Term.foldWith?_of_nameAs? apart named]
      rfl
    · -- With no earlier macro the search stops at the macro itself.
      intro before after split others
      have mine := firstFor?_eq_some_iff.mpr ⟨⟨value, stands, itself⟩, before, after, split, others⟩
      exact Option.some.inj (located.symm.trans mine)

/-- A value that refers to a macro as it was redefined folds to the name of its own macro. -/
theorem fold_value_divergence :
    let body := Term.lam "z" (.ref "W" (.lam "x" (.var "x")))
    let value := Term.lam "z" (.ref "W" (.lam "x" divergent))
    let values := Values.weak (some value) (some value)
    (ofChanges 3 divergence).get? "V" = some ⟨body, values⟩ ∧
      values.foundBy? .callByName = some value ∧
      (((ofChanges 3 divergence).refresh .callByName body).evaluate .callByName
        (ofChanges 3 divergence).budget).value = some value ∧
      (ofChanges 3 divergence).fold .callByName value = (.ref "V" value, true) := by
  -- The only macro listed before this one stands for another term.
  intro body value values
  have defined : (ofChanges 3 divergence).get? "V" = some ⟨body, values⟩ := by decide +kernel
  have order : (ofChanges 3 divergence).order = ["W"] ++ "V" :: [] := by decide +kernel
  have other : (ofChanges 3 divergence).resolve? .callByName "W" = some (.lam "x" divergent) := by
    decide +kernel
  have kept : values.foundBy? .callByName = some value := rfl
  have apart : ¬value.IsReference := by simp [value, Term.IsReference]
  obtain ⟨reached, -, folds⟩ := fold_value 3 divergence defined kept
  obtain ⟨first, resolved, -, made, folded, mine⟩ := folds apart
  obtain rfl : first = "V" := by
    refine mine ["W"] [] order (fun earlier member meaning found => ?_)
    obtain rfl := List.mem_singleton.mp member
    obtain rfl := Option.some.inj (other.symm.trans found)
    decide
  have stands : (ofChanges 3 divergence).resolve? .callByName "V" = some value := by decide +kernel
  obtain rfl := Option.some.inj (stands.symm.trans (reference_eq_ok_iff.mp made))
  exact ⟨defined, kept, reached, folded⟩

end Table

end NamedLambda
