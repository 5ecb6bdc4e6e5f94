import NamedLambda.Proofs.Term.Occurrence
import NamedLambda.Proofs.Term.Substitution

/-! Where no binder would capture a variable of the value, substitution is plain replacement of the
free occurrences of a name, and no binder is renamed. -/

namespace NamedLambda.Term

/-- The term with a value at the free occurrences of a name, whatever the binders
around them are. -/
def replaceFree (term : Term) (name : Name) (value : Term) : Term :=
  match term with
  | var other => if other = name then value else var other
  | lam binder body =>
    if binder = name then lam binder body else lam binder (body.replaceFree name value)
  | app func arg => app (func.replaceFree name value) (arg.replaceFree name value)
  | ref macroName resolved => ref macroName resolved

/-- That a value stands at all free occurrences of a name, and everything else is as it was. -/
structure Replaces (term : Term) (name : Name) (value next : Term) : Prop where
  /-- The value has come to each position at which the name was free. -/
  placed : ∀ path, term.FreeAt name path → next.at? path = some value
  /-- There is the same node at every position that is not at or inside such a place. -/
  kept : ∀ path, (∀ above, above <+: path → ¬term.FreeAt name above) →
    (next.at? path).map node = (term.at? path).map node

/-- That no abstraction around a free occurrence of a name binds a variable of the value. -/
def Spares (term : Term) (name : Name) (value : Term) : Prop :=
  ∀ path, term.FreeAt name path → ∀ binder ∈ term.bindersOn path, value.occursFree binder = false

variable {term value : Term} {name : Name} {path : Path}

/-- Replacement puts the value at the free occurrences of the name. -/
theorem at?_replaceFree (free : term.FreeAt name path) :
    (term.replaceFree name value).at? path = some value := by
  -- The path goes into no abstraction over the name, so replacement goes along with it.
  induction term generalizing path with
  | var other =>
    obtain ⟨rfl, rfl⟩ := freeAt_var_iff.mp free
    simp [replaceFree, at?]
  | lam binder body ih =>
    obtain ⟨rest, rfl, distinct, inBody⟩ := freeAt_lam_iff.mp free
    rw [replaceFree, if_neg distinct]
    exact ih inBody
  | app func arg funcIh argIh =>
    rcases freeAt_app_iff.mp free with ⟨rest, rfl, inFunc⟩ | ⟨rest, rfl, inArg⟩
    · exact funcIh inFunc
    · exact argIh inArg
  | ref macroName resolved => exact absurd free not_freeAt_ref

/-- Replacement keeps every node that is not at or inside a free occurrence of the name. -/
theorem node_at?_replaceFree (outside : ∀ above, above <+: path → ¬term.FreeAt name above) :
    ((term.replaceFree name value).at? path).map node = (term.at? path).map node := by
  -- A position in a part is outside of the occurrences in the part.
  induction term generalizing path with
  | var other =>
    -- A variable of the name would itself be an occurrence on the way.
    have distinct : other ≠ name := fun same =>
      outside [] List.nil_prefix (freeAt_var_iff.mpr ⟨rfl, same⟩)
    rw [replaceFree, if_neg distinct]
  | lam binder body ih =>
    rw [replaceFree]
    split
    · -- An abstraction over the name is left as it is.
      rfl
    · -- A binder of another name lets replacement into its body.
      rename_i distinct
      cases path with
      | nil => rfl
      | cons branch rest =>
        cases branch with
        | func => rfl
        | arg => rfl
        | body =>
          refine ih fun above before free => ?_
          exact outside (.body :: above) ((List.prefix_cons_inj _).mpr before)
            (freeAt_lam_iff.mpr ⟨above, rfl, distinct, free⟩)
  | app func arg funcIh argIh =>
    cases path with
    | nil => rfl
    | cons branch rest =>
      cases branch with
      | body => rfl
      | func =>
        refine funcIh fun above before free => ?_
        exact outside (.func :: above) ((List.prefix_cons_inj _).mpr before)
          (freeAt_app_iff.mpr (.inl ⟨above, rfl, free⟩))
      | arg =>
        refine argIh fun above before free => ?_
        exact outside (.arg :: above) ((List.prefix_cons_inj _).mpr before)
          (freeAt_app_iff.mpr (.inr ⟨above, rfl, free⟩))
  | ref macroName resolved => rfl

/-- A name that is not free has no occurrences to replace. -/
theorem replaceFree_of_not_free (absent : term.occursFree name = false) :
    term.replaceFree name value = term := by
  -- Without a place for the value every node is kept.
  refine eq_of_nodes fun path => node_at?_replaceFree fun above _ free => ?_
  rw [occursFree_iff.mpr ⟨above, free⟩] at absent
  contradiction

/-- A variable of the name itself in its place changes nothing. -/
theorem replaceFree_self (term : Term) (name : Name) : term.replaceFree name (var name) = term := by
  -- A replaced variable was the same before.
  induction term with
  | var other =>
    rw [replaceFree]
    split
    · rename_i same
      rw [same]
    · rfl
  | lam binder body ih => rw [replaceFree, ih, ite_self]
  | app func arg funcIh argIh => rw [replaceFree, funcIh, argIh]
  | ref macroName resolved => rfl

/-- Another variable in place of the name is a renaming. -/
theorem replaceFree_var (term : Term) (name other : Name) :
    term.replaceFree name (var other) = term.rename name other := by
  -- Both stop at abstractions over the name.
  induction term with
  | var found => rfl
  | lam binder body ih => rw [replaceFree, rename, ih]
  | app func arg funcIh argIh => rw [replaceFree, rename, funcIh, argIh]
  | ref macroName resolved => rfl

namespace Spares

/-- Where an application is spared its function is. -/
theorem func {func arg : Term} (spares : (app func arg).Spares name value) :
    func.Spares name value :=
  fun path free => spares (.func :: path) (freeAt_app_iff.mpr (.inl ⟨path, rfl, free⟩))

/-- Where an application is spared its argument is. -/
theorem arg {func arg : Term} (spares : (app func arg).Spares name value) :
    arg.Spares name value :=
  fun path free => spares (.arg :: path) (freeAt_app_iff.mpr (.inr ⟨path, rfl, free⟩))

/-- Where an abstraction over another name is spared its body is. -/
theorem body {binder : Name} {body : Term} (spares : (lam binder body).Spares name value)
    (distinct : binder ≠ name) : body.Spares name value := by
  intro path free other member
  exact spares (.body :: path) (freeAt_lam_iff.mpr ⟨path, rfl, distinct, free⟩) other
    (List.mem_cons_of_mem _ member)

/-- Where an abstraction is spared it captures nothing in its body. -/
theorem occursFree_binder {binder : Name} {body : Term}
    (spares : (lam binder body).Spares name value) (free : (lam binder body).occursFree name) :
    value.occursFree binder = false := by
  -- The binder stands on the way to the occurrence.
  obtain ⟨path, freeAt⟩ := occursFree_iff.mp free
  obtain ⟨rest, rfl, -⟩ := freeAt_lam_iff.mp freeAt
  exact spares (.body :: rest) freeAt binder List.mem_cons_self

/-- Without a capture substitution is replacement. -/
theorem substitute_eq (spares : term.Spares name value) :
    term.substitute name value = term.replaceFree name value := by
  -- The induction follows substitution; no spared binder has to make way.
  fun_induction substitute term name value with
  | case1 => rw [replaceFree, if_pos rfl]
  | case2 other different => rw [replaceFree, if_neg different]
  | case3 func arg funcIh argIh => rw [replaceFree, funcIh spares.func, argIh spares.arg]
  | case4 => rfl
  -- The name does not occur, on either side.
  | case5 binder body absent =>
    refine (replaceFree_of_not_free ?_).symm
    simp only [Bool.or_eq_true, decide_eq_true_eq, Bool.not_eq_true'] at absent
    rcases absent with same | fresh
    · simp [occursFree, same]
    · simp [occursFree, fresh]
  | case6 binder body present captures escape ih =>
    -- The binder would capture a variable of the value around an occurrence of the name.
    simp only [Bool.or_eq_true, decide_eq_true_eq, Bool.not_eq_true', not_or,
      Bool.not_eq_false] at present
    rw [spares.occursFree_binder (by simp [occursFree, present])] at captures
    contradiction
  | case7 binder body present spared ih =>
    simp only [Bool.or_eq_true, decide_eq_true_eq, not_or] at present
    rw [replaceFree, if_neg present.1, ih (spares.body present.1)]

/-- Where the name is not free there is nothing to capture. -/
theorem of_not_free (absent : term.occursFree name = false) : term.Spares name value := by
  -- There is no occurrence for a binder to stand around.
  intro path free
  rw [occursFree_iff.mpr ⟨path, free⟩] at absent
  contradiction

/-- A variable is captured by binders of its name only, and they would not let it be replaced. -/
theorem self (term : Term) (name : Name) : term.Spares name (var name) := by
  -- A free occurrence has no binder of its name around it.
  intro path free binder member
  rw [occursFree, beq_eq_false_iff_ne]
  rintro rfl
  exact free.2 member

end Spares

/-- A name that is not in use can take the place of another one without a capture. -/
theorem substitute_var_eq_rename {old new : Name} (unused : new ∉ term.names) :
    term.substitute old (var new) = term.rename old new := by
  -- The new name is no binder, so nothing is captured, and replacing by a variable is renaming.
  rw [← replaceFree_var]
  refine Spares.substitute_eq fun path free binder member => ?_
  -- Every binder of the term is one of its names.
  rw [occursFree, beq_eq_false_iff_ne]
  rintro rfl
  exact unused (mem_names_of_mem_bindersOn member)

/-- Where no abstraction around a free occurrence of the name binds a variable of the value,
substitution puts the value at these occurrences and changes nothing else; so it does nothing at all
where the name is not free, or where the name itself is the value. -/
theorem substitute_spares (term : Term) (name : Name) (value : Term) :
    term.Replaces name value (term.replaceFree name value) ∧
      (term.Spares name value → term.substitute name value = term.replaceFree name value) ∧
      (term.occursFree name = false → term.substitute name value = term) ∧
      term.substitute name (var name) = term := by
  -- Without an occurrence nothing is captured, nor by the name itself.
  refine ⟨⟨fun _ => at?_replaceFree, fun _ => node_at?_replaceFree⟩, Spares.substitute_eq,
    fun absent => ?_, ?_⟩
  · rw [(Spares.of_not_free absent).substitute_eq, replaceFree_of_not_free absent]
  · rw [(Spares.self term name).substitute_eq, replaceFree_self]

/-- A binder that is free in the value has no occurrence of the name below it, so it
keeps its name. -/
theorem substitute_spares_binder :
    (app (lam "y" (var "y")) (lam "z" (var "x"))).Spares "x" (var "y") ∧
      (app (lam "y" (var "y")) (lam "z" (var "x"))).substitute "x" (var "y") =
        app (lam "y" (var "y")) (lam "z" (var "y")) := by
  -- The one free occurrence is below the other binder.
  have spares : (app (lam "y" (var "y")) (lam "z" (var "x"))).Spares "x" (var "y") := by
    intro path free binder member
    rcases freeAt_app_iff.mp free with ⟨rest, rfl, inFunc⟩ | ⟨rest, rfl, inArg⟩
    · simp [freeAt_lam_iff, freeAt_var_iff] at inFunc
    · obtain ⟨below, rfl, -, inBody⟩ := freeAt_lam_iff.mp inArg
      obtain ⟨rfl, -⟩ := freeAt_var_iff.mp inBody
      obtain rfl : binder = "z" := by simpa [bindersOn] using member
      decide
  exact ⟨spares, (substitute_spares _ "x" (var "y")).2.1 spares⟩

end NamedLambda.Term
