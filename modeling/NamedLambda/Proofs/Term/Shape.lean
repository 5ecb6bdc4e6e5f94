import NamedLambda.Proofs.Term.Replacement

/-! A variable in place of another keeps the shape of a term, so that substitution comes to an end
though it goes on with bodies that it has changed itself. -/

namespace NamedLambda

/-- Which constructor stands at a place of a term. -/
inductive Kind where
  /-- A variable. -/
  | var
  /-- An abstraction. -/
  | lam
  /-- An application. -/
  | app
  /-- A reference. -/
  | ref
deriving DecidableEq, Repr

namespace Term

/-- The constructor at the root of a term. -/
def kind : Term → Kind
  | var _ => .var
  | lam _ _ => .lam
  | app _ _ => .app
  | ref _ _ => .ref

/-- Two terms have the same constructors at the same positions. -/
def SameShape (left right : Term) : Prop :=
  ∀ path, (left.at? path).map kind = (right.at? path).map kind

/-- Substitution as it makes use of itself: a binder that would capture a variable makes way through
a substitution in its body, and the outer one goes on with what comes out of that. -/
inductive Substitutes : Term → Name → Term → Term → Prop where
  /-- The value comes in for a variable of the name. -/
  | here (name : Name) (value : Term) : Substitutes (var name) name value value
  /-- Other variables stay. -/
  | other {other name : Name} (value : Term) (distinct : other ≠ name) :
    Substitutes (var other) name value (var other)
  /-- References stay. -/
  | ref (macroName : Name) (resolved : Term) (name : Name) (value : Term) :
    Substitutes (ref macroName resolved) name value (ref macroName resolved)
  /-- Both parts of an application are changed. -/
  | app {func arg value newFunc newArg : Term} {name : Name}
    (inFunc : Substitutes func name value newFunc) (inArg : Substitutes arg name value newArg) :
    Substitutes (app func arg) name value (app newFunc newArg)
  /-- An abstraction without a free occurrence of the name stays. -/
  | absent {binder name : Name} {body : Term} (value : Term)
    (absent : binder = name ∨ body.occursFree name = false) :
    Substitutes (lam binder body) name value (lam binder body)
  /-- Where nothing is captured the body is changed. -/
  | body {binder name : Name} {body value next : Term} (distinct : binder ≠ name)
    (free : body.occursFree name) (spared : value.occursFree binder = false)
    (inBody : Substitutes body name value next) :
    Substitutes (lam binder body) name value (lam binder next)
  /-- Otherwise the binder is changed in the body before. -/
  | escape {binder name : Name} {body value renamed next : Term} (distinct : binder ≠ name)
    (free : body.occursFree name) (captures : value.occursFree binder)
    (renames : Substitutes body binder (var (escapeName name value binder body)) renamed)
    (inRenamed : Substitutes renamed name value next) :
    Substitutes (lam binder body) name value (lam (escapeName name value binder body) next)

namespace SameShape

variable {left right : Term}

/-- Variables have one shape, whatever their names. -/
theorem var (name other : Name) : (Term.var name).SameShape (Term.var other) := by
  -- Neither has a part but itself.
  intro path
  cases path with
  | nil => rfl
  | cons branch rest => rw [at?_cons_var, at?_cons_var]

/-- Abstractions over bodies of one shape have one shape. -/
theorem lam (sameBody : left.SameShape right) (binder other : Name) :
    (lam binder left).SameShape (lam other right) := by
  -- The only branch leads into the bodies.
  intro path
  cases path with
  | nil => rfl
  | cons branch rest =>
    cases branch with
    | body => exact sameBody rest
    | _ => rfl

/-- Applications of one shape are made of parts of one shape. -/
theorem app {func arg : Term} (sameFunc : left.SameShape func) (sameArg : right.SameShape arg) :
    (app left right).SameShape (app func arg) := by
  -- One branch leads into each part.
  intro path
  cases path with
  | nil => rfl
  | cons branch rest =>
    cases branch with
    | func => exact sameFunc rest
    | arg => exact sameArg rest
    | body => rfl

/-- Terms of one shape are of one size. -/
theorem size_eq (same : left.SameShape right) : left.size = right.size := by
  -- The constructors at the roots agree, and the parts have one shape again.
  induction left generalizing right with
  | var name =>
    have root := same []
    cases right <;> simp_all [at?, kind, size]
  | ref name resolved =>
    have root := same []
    cases right <;> simp_all [at?, kind, size]
  | lam binder body ih =>
    have root := same []
    cases right with
    | lam other otherBody =>
      rw [size, size, ih fun rest => same (.body :: rest)]
    | _ => simp [at?, kind] at root
  | app func arg funcIh argIh =>
    have root := same []
    cases right with
    | app otherFunc otherArg =>
      rw [size, size, funcIh fun rest => same (.func :: rest),
        argIh fun rest => same (.arg :: rest)]
    | _ => simp [at?, kind] at root

end SameShape

/-- Renaming changes names only. -/
theorem sameShape_rename (old new : Name) (term : Term) : (term.rename old new).SameShape term := by
  -- A variable stays a variable, and an abstraction stays one.
  induction term with
  | var name =>
    rw [rename]
    split
    · exact .var new name
    · exact fun path => rfl
  | lam binder body ih =>
    rw [rename]
    split
    · exact fun path => rfl
    · exact ih.lam binder binder
  | app func arg funcIh argIh => exact funcIh.app argIh
  | ref name resolved => exact fun path => rfl

/-- A variable that is substituted for another keeps the shape of a term, also where
binders make way. -/
theorem sameShape_substitute_var (term : Term) (name other : Name) :
    (term.substitute name (var other)).SameShape term := by
  -- The induction follows the recursion of substitution, and a variable comes in for a variable.
  fun_induction substitute term name (var other) with
  | case1 => exact .var other name
  | case2 found different => exact fun path => rfl
  | case3 func arg funcIh argIh => exact funcIh.app argIh
  | case4 macroName resolved => exact fun path => rfl
  | case5 binder body absent => exact fun path => rfl
  | case6 binder body present captures escape ih =>
    -- The body that is gone on with has been renamed, and has its shape from before.
    have renamed := sameShape_rename binder escape body
    exact SameShape.lam (fun path => (ih path).trans (renamed path)) escape binder
  | case7 binder body present spared ih => exact ih.lam binder binder

/-- What substitution comes to by its rules is what it computes. -/
theorem Substitutes.eq_substitute {term value result : Term} {name : Name}
    (substitutes : Substitutes term name value result) : result = term.substitute name value := by
  -- Each rule is a branch of the function.
  induction substitutes with
  | here name value => rw [substitute, if_pos rfl]
  | other value distinct => rw [substitute, if_neg distinct]
  | ref macroName resolved name value => rw [substitute]
  | app inFunc inArg funcIh argIh => rw [substitute, funcIh, argIh]
  | absent value absent => rw [substitute, if_pos (by simpa using absent)]
  | body distinct free spared inBody ih =>
    rw [substitute, if_neg (by simp [distinct, free]), if_neg (by simp [spared]), ih]
  | @escape binder name body value renamed next distinct free captures renames inRenamed
      renameIh ih =>
    -- The new name of the binder is in no use, so putting it in is a renaming.
    have fresh := escapeName_not_mem_names name value binder body
    rw [substitute_var_eq_rename fresh] at renameIh
    rw [substitute, if_neg (by simp [distinct, free]), if_pos captures, ih, renameIh]

/-- Substitution comes to an end by its rules. -/
theorem exists_substitutes (term : Term) (name : Name) (value : Term) :
    ∃ result, Substitutes term name value result := by
  -- A body in which a binder has made way is as small as it was before.
  induction size : term.size using Nat.strongRecOn generalizing term name value with
  | ind count ih =>
    subst size
    cases term with
    | var other =>
      by_cases same : other = name
      · exact ⟨value, same ▸ .here other value⟩
      · exact ⟨var other, .other value same⟩
    | ref macroName resolved => exact ⟨ref macroName resolved, .ref macroName resolved name value⟩
    | app func arg =>
      obtain ⟨newFunc, inFunc⟩ := ih func.size (by rw [size]; omega) func name value rfl
      obtain ⟨newArg, inArg⟩ := ih arg.size (by rw [size]; omega) arg name value rfl
      exact ⟨app newFunc newArg, .app inFunc inArg⟩
    | lam binder body =>
      have smaller : body.size < (lam binder body).size := Nat.lt_succ_self _
      by_cases distinct : binder = name
      · exact ⟨lam binder body, .absent value (.inl distinct)⟩
      cases free : body.occursFree name with
      | false => exact ⟨lam binder body, .absent value (.inr free)⟩
      | true =>
        cases captures : value.occursFree binder with
        | false =>
          obtain ⟨next, inBody⟩ := ih body.size smaller body name value rfl
          exact ⟨lam binder next, .body distinct free captures inBody⟩
        | true =>
          -- The binder makes way by a substitution in the body, whose result has the size
          -- of the body.
          obtain ⟨renamed, renames⟩ := ih body.size smaller body binder
            (var (escapeName name value binder body)) rfl
          have shape := renames.eq_substitute ▸ sameShape_substitute_var body binder _
          obtain ⟨next, inRenamed⟩ :=
            ih renamed.size (shape.size_eq ▸ smaller) renamed name value rfl
          exact ⟨_, .escape distinct free captures renames inRenamed⟩

/-- A variable put in the place of another keeps the constructor at every position, hence the number
of nodes. A body in which a binder has made way is therefore smaller than the abstraction, and
substitution comes to an end by its rules, on every term and with what it computes. -/
theorem substitute_ends (term : Term) (name : Name) (value : Term) :
    (∀ other, (term.substitute name (var other)).SameShape term ∧
        (term.substitute name (var other)).size = term.size) ∧
      (∀ binder other, (term.substitute binder (var other)).size < (lam binder term).size) ∧
      ∀ result, Substitutes term name value result ↔ result = term.substitute name value := by
  refine ⟨fun other => ?_, fun binder other => ?_, fun result => ?_⟩
  · have shape := sameShape_substitute_var term name other
    exact ⟨shape, shape.size_eq⟩
  · rw [(sameShape_substitute_var term binder other).size_eq]
    exact Nat.lt_succ_self _
  · constructor
    · exact Substitutes.eq_substitute
    · rintro rfl
      -- It ends somewhere, and that is what it computes.
      obtain ⟨found, substitutes⟩ := exists_substitutes term name value
      exact substitutes.eq_substitute ▸ substitutes

end Term

end NamedLambda
