import NamedLambda.Proofs.Term.Throughout
import NamedLambda.Term.Position

/-! Parts of a term have what the term has throughout, a reference has no parts but itself, and a
term is known by its nodes. -/

namespace NamedLambda

/-- What stands at one place of a term: a constructor and what goes with it, without its parts. -/
inductive Node where
  /-- A variable. -/
  | var (name : Name)
  /-- An abstraction over some body. -/
  | lam (binder : Name)
  /-- An application of some function to some argument. -/
  | app
  /-- A reference, with the term that it carries. -/
  | ref (name : Name) (resolved : Term)
deriving DecidableEq, Repr

namespace Term

/-- The node at the root of a term. -/
def node : Term → Node
  | var name => .var name
  | lam binder _ => .lam binder
  | app _ _ => .app
  | ref name resolved => .ref name resolved

variable {branch : Branch} {path : Path} {part : Term}

/-- The only part of a variable is the variable itself. -/
theorem at?_cons_var (name : Name) : (var name).at? (branch :: path) = none := by
  -- No branch leads on.
  cases branch <;> rfl

/-- The only part of a reference is the reference itself. -/
theorem at?_cons_ref (name : Name) (resolved : Term) :
    (ref name resolved).at? (branch :: path) = none := by
  -- No branch leads to what it carries.
  cases branch <;> rfl

/-- The parts of an abstraction are those of its body. -/
theorem at?_cons_lam_eq_some {binder : Name} {body : Term} :
    (lam binder body).at? (branch :: path) = some part ↔
      branch = .body ∧ body.at? path = some part := by
  -- The other branches lead nowhere.
  cases branch <;> simp [at?]

/-- The parts of an application are those of its function and of its argument. -/
theorem at?_cons_app_eq_some {func arg : Term} :
    (app func arg).at? (branch :: path) = some part ↔
      branch = .func ∧ func.at? path = some part ∨ branch = .arg ∧ arg.at? path = some part := by
  -- The branch says which part it is.
  cases branch <;> simp [at?]

/-- What holds throughout a term holds throughout its parts. -/
theorem Throughout.at? {onName : Name → Bool} {onReference : Name → Term → Prop} {term : Term}
    (throughout : term.Throughout onName onReference) (found : term.at? path = some part) :
    part.Throughout onName onReference := by
  -- Each branch of the path leads to a part of an abstraction or of an application.
  induction path generalizing term with
  | nil =>
    obtain rfl := Option.some.inj found
    exact throughout
  | cons branch rest ih =>
    cases term with
    | var name => simp [at?_cons_var] at found
    | lam binder body => exact ih throughout.2 (at?_cons_lam_eq_some.mp found).2
    | app func arg =>
      rcases at?_cons_app_eq_some.mp found with ⟨-, inFunc⟩ | ⟨-, inArg⟩
      · exact ih throughout.1 inFunc
      · exact ih throughout.2 inArg
    | ref name resolved => simp [at?_cons_ref] at found

/-- A path leads where its end leads from where its beginning leads. -/
theorem at?_append (first second : Path) (term : Term) :
    term.at? (first ++ second) = (term.at? first).bind (at? second) := by
  -- Both sides leave the term at the same branch, if they do.
  fun_induction at? first term with
  | case1 term => rfl
  | case2 rest func arg ih => exact ih
  | case3 rest func arg ih => exact ih
  | case4 rest binder body ih => exact ih
  -- A branch that leads nowhere ends both.
  | case5 branch rest term noFunc noArg noBody =>
    cases branch <;> cases term <;> simp_all [at?]

/-- Terms with the same node at every position are one term. -/
theorem eq_of_nodes {left right : Term}
    (same : ∀ path, (left.at? path).map node = (right.at? path).map node) : left = right := by
  -- The nodes at the roots agree, and so do those of the parts behind one branch.
  induction left generalizing right with
  | var name =>
    have root := same []
    cases right <;> simp_all [at?, node]
  | ref name resolved ih =>
    have root := same []
    cases right <;> simp_all [at?, node]
  | lam binder body ih =>
    have root := same []
    cases right with
    | lam otherBinder otherBody =>
      obtain rfl : binder = otherBinder := by simpa [at?, node] using root
      rw [ih fun rest => same (.body :: rest)]
    | _ => simp [at?, node] at root
  | app func arg funcIh argIh =>
    have root := same []
    cases right with
    | app otherFunc otherArg =>
      rw [funcIh fun rest => same (.func :: rest), argIh fun rest => same (.arg :: rest)]
    | _ => simp [at?, node] at root

/-- Parts at one position with the same node everywhere inside are one part. -/
theorem at?_eq_of_nodes {left right : Term}
    (same : ∀ rest, (left.at? (path ++ rest)).map node = (right.at? (path ++ rest)).map node) :
    left.at? path = right.at? path := by
  -- The nodes at the position itself tell whether there is a part on either side.
  have root := same []
  simp only [at?_append] at same
  cases inLeft : left.at? path with
  | none =>
    cases inRight : right.at? path with
    | none => rfl
    | some part => simp [inLeft, inRight] at root
  | some part =>
    cases inRight : right.at? path with
    | none => simp [inLeft, inRight] at root
    | some other =>
      simp only [inLeft, inRight, Option.bind_some] at same
      rw [eq_of_nodes same]

end Term

end NamedLambda
