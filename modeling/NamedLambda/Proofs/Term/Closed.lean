import NamedLambda.Proofs.Term.Substitution
import NamedLambda.Proofs.Term.Throughout

/-! Closed terms, and terms whose references carry closed terms, stay so under substitution. -/

namespace NamedLambda

/-- Whether a name occurs as a free variable. -/
def Nameless.occursFree (name : Name) : Nameless → Bool
  | bound _ | ref _ _ => false
  | free other => other == name
  | lam body => body.occursFree name
  | app func arg => func.occursFree name || arg.occursFree name

/-- A replaced name makes way for the free variables of the value. -/
theorem Nameless.occursFree_replaceFree {term : Nameless} {name other : Name} {value : Nameless} :
    (term.replaceFree name value).occursFree other ↔
      other ≠ name ∧ term.occursFree other ∨ term.occursFree name ∧ value.occursFree other := by
  -- Each occurrence is replaced on its own.
  induction term with
  | bound distance => simp [replaceFree, occursFree]
  | free found =>
    -- A variable of the name gives way to the value, and any other stays.
    by_cases same : found = name
    · by_cases fresh : found = other
      · simp [replaceFree, occursFree, same, fresh ▸ same]
      · simp [replaceFree, occursFree, same, Ne.symm (same ▸ fresh), same ▸ fresh]
    · by_cases fresh : found = other
      · simp [replaceFree, occursFree, same, fresh ▸ same]
      · simp [replaceFree, occursFree, same, fresh]
  | lam body ih => simpa only [replaceFree, occursFree] using ih
  | app func arg funcIh argIh =>
    simp only [replaceFree, occursFree, Bool.or_eq_true, funcIh, argIh]
    grind
  | ref found resolved => simp [replaceFree, occursFree]

namespace Term

/-- The free variables of the nameless form are those that no binder around it binds. -/
theorem occursFree_namelessUnder {term : Term} {binders : List Name} {name : Name} :
    (term.namelessUnder binders).occursFree name ↔ term.occursFree name ∧ name ∉ binders := by
  -- A binder is one more that binds its name.
  induction term generalizing binders with
  | var other =>
    by_cases bound : other ∈ binders
    · obtain ⟨distance, found⟩ := namelessUnder_var_of_mem bound
      simp only [found, Nameless.occursFree, occursFree, beq_iff_eq]
      grind
    · simp only [namelessUnder_var_of_not_mem bound, Nameless.occursFree, occursFree, beq_iff_eq]
      grind
  | lam binder body ih =>
    simp only [namelessUnder, Nameless.occursFree, occursFree, ih, List.mem_cons, not_or,
      Bool.and_eq_true, bne_iff_ne]
    grind
  | app func arg funcIh argIh =>
    simp only [namelessUnder, Nameless.occursFree, occursFree, Bool.or_eq_true, funcIh, argIh,
      or_and_right]
  | ref other resolved => simp [namelessUnder, Nameless.occursFree, occursFree]

/-- The free variables can be read off the nameless form. -/
theorem occursFree_nameless {term : Term} {name : Name} :
    term.nameless.occursFree name ↔ term.occursFree name := by
  simp [nameless, occursFree_namelessUnder]

/-- Terms of one nameless form have the same free variables. -/
theorem occursFree_congr {left right : Term} (same : left.nameless = right.nameless)
    (name : Name) : left.occursFree name = right.occursFree name := by
  rw [Bool.eq_iff_iff, ← occursFree_nameless, same, occursFree_nameless]

/-- Substitution trades the free occurrences of a name for the free variables of the value. -/
theorem occursFree_substitute {term : Term} {name other : Name} {value : Term} :
    (term.substitute name value).occursFree other ↔
      other ≠ name ∧ term.occursFree other ∨ term.occursFree name ∧ value.occursFree other := by
  -- On nameless forms substitution is plain replacement, which is counted there.
  have replaced : (term.substitute name value).nameless =
      term.nameless.replaceFree name value.nameless :=
    namelessUnder_substitute List.not_mem_nil (by simp)
  rw [← occursFree_nameless, replaced, Nameless.occursFree_replaceFree, occursFree_nameless,
    occursFree_nameless, occursFree_nameless]

/-- A term without free variables. -/
def Closed (term : Term) : Prop :=
  ∀ name, term.occursFree name = false

/-- An application is closed exactly when both parts are. -/
theorem closed_app_iff {func arg : Term} : (app func arg).Closed ↔ func.Closed ∧ arg.Closed := by
  simp only [Closed, occursFree, Bool.or_eq_false_iff, forall_and]

/-- Every reference carries a closed term, and so do the references in the terms carried. -/
def CarriesClosed : Term → Prop
  | var _ => True
  | lam _ body => body.CarriesClosed
  | app func arg => func.CarriesClosed ∧ arg.CarriesClosed
  | ref _ resolved => resolved.Closed ∧ resolved.CarriesClosed

/-- The leftmost unbound variable is free and none of the given binders. -/
theorem occursFree_of_firstUnbound? {term : Term} {bound : List Name} {name : Name}
    (found : term.firstUnbound? bound = some name) : term.occursFree name ∧ name ∉ bound := by
  -- The binders passed on the way are the binders given at the end.
  induction term generalizing bound with
  | var other =>
    simp only [firstUnbound?] at found
    split at found
    · contradiction
    · rename_i unbound
      obtain rfl : other = name := by simpa using found
      exact ⟨by simp [occursFree], unbound⟩
  | lam binder body ih =>
    obtain ⟨free, unbound⟩ := ih found
    rw [List.mem_cons, not_or] at unbound
    exact ⟨by simp [occursFree, free, Ne.symm unbound.1], unbound.2⟩
  | app func arg funcIh argIh =>
    simp only [firstUnbound?, Option.or_eq_some_iff] at found
    -- The variable is found in the function, or else in the argument.
    rcases found with inFunc | inArg
    · have free := funcIh inFunc
      exact ⟨by simp [occursFree, free.1], free.2⟩
    · have free := argIh inArg.2
      exact ⟨by simp [occursFree, free.1], free.2⟩
  | ref other resolved => simp [firstUnbound?] at found

/-- Without an unbound variable every free variable is one of the given binders. -/
theorem mem_of_firstUnbound?_eq_none {term : Term} {bound : List Name} {name : Name}
    (absent : term.firstUnbound? bound = none) (free : term.occursFree name) : name ∈ bound := by
  -- Below an abstraction its own binder is one of those given, but not free outside.
  induction term generalizing bound with
  | var other =>
    obtain rfl : other = name := by simpa [occursFree] using free
    simpa [firstUnbound?] using absent
  | lam binder body ih =>
    simp only [occursFree, Bool.and_eq_true, bne_iff_ne] at free
    rcases List.mem_cons.mp (ih absent free.2) with same | outside
    · exact absurd same.symm free.1
    · exact outside
  | app func arg funcIh argIh =>
    simp only [firstUnbound?, Option.or_eq_none_iff] at absent
    simp only [occursFree, Bool.or_eq_true] at free
    rcases free with inFunc | inArg
    · exact funcIh absent.1 inFunc
    · exact argIh absent.2 inArg
  | ref other resolved => simp [occursFree] at free

/-- A term is closed exactly when no unbound variable is found. -/
theorem firstFree?_eq_none_iff {term : Term} : term.firstFree? = none ↔ term.Closed := by
  constructor
  · -- Every free variable would be bound by one of no binders.
    intro absent name
    rw [Bool.eq_false_iff]
    exact fun free => absurd (mem_of_firstUnbound?_eq_none absent free) List.not_mem_nil
  · intro closed
    -- A variable found would be free.
    cases found : term.firstFree? with
    | none => rfl
    | some name =>
      have free := (occursFree_of_firstUnbound? found).1
      rw [closed name] at free
      contradiction

/-- Terms that carry closed terms may have any names. -/
theorem carriesClosed_iff {term : Term} :
    term.CarriesClosed ↔ term.Throughout (fun _ => true) (fun _ resolved => resolved.Closed) := by
  -- Nothing is asked of the names.
  induction term with
  | var name => simp [CarriesClosed, Throughout]
  | lam binder body ih => simp [CarriesClosed, Throughout, ih]
  | app func arg funcIh argIh => simp [CarriesClosed, Throughout, funcIh, argIh]
  | ref name resolved ih => simp [CarriesClosed, Throughout, ih]

/-- The references of a substitution are those of the term and of the value. -/
theorem carriesClosed_substitute {term : Term} {name : Name} {value : Term}
    (carries : term.CarriesClosed) (valueCarries : value.CarriesClosed) :
    (term.substitute name value).CarriesClosed := by
  rw [carriesClosed_iff] at carries valueCarries ⊢
  exact throughout_substitute (fun _ _ _ => rfl) carries valueCarries

/-- Renewing references leaves the variables alone. -/
theorem occursFree_relink (term : Term) (meaning : Name → Option Term) (name : Name) :
    (term.relink meaning).occursFree name = term.occursFree name := by
  -- A reference has no variables before or after.
  induction term with
  | var other => rfl
  | lam binder body ih => simp only [relink, occursFree, ih]
  | app func arg funcIh argIh => simp only [relink, occursFree, funcIh, argIh]
  | ref other resolved => rfl

/-- References renewed to closed meanings carry closed terms, whatever they carried before. -/
theorem carriesClosed_relink {term : Term} {meaning : Name → Option Term}
    (sound : ∀ name ∈ term.references, ∃ resolved, meaning name = some resolved ∧
      resolved.Closed ∧ resolved.CarriesClosed) : (term.relink meaning).CarriesClosed := by
  simp only [carriesClosed_iff] at sound ⊢
  exact throughout_relink (fun _ _ => rfl) sound

/-- The abstraction seen through references carries closed terms and has no other free variables
than the term itself. -/
theorem abstraction?_sound {term : Term} (carries : term.CarriesClosed) {binder : Name}
    {body : Term} (found : term.abstraction? = some (binder, body)) :
    body.CarriesClosed ∧ ∀ name, (lam binder body).occursFree name → term.occursFree name := by
  -- What a reference carries is closed, so it can only lose variables to look through it.
  induction term with
  | var name => simp [abstraction?] at found
  | lam other inner ih =>
    obtain ⟨rfl, rfl⟩ : other = binder ∧ inner = body := by simpa [abstraction?] using found
    exact ⟨carries, fun _ free => free⟩
  | app func arg funcIh argIh => simp [abstraction?] at found
  | ref name resolved ih =>
    obtain ⟨bodyCarries, free⟩ := ih carries.2 found
    -- A free variable of the abstraction would be one of what the reference carries.
    refine ⟨bodyCarries, fun other occurs => ?_⟩
    have inside := free other occurs
    rw [carries.1 other] at inside
    contradiction

end Term

end NamedLambda
