import NamedLambda.Table.Basic
import NamedLambda.Term.Alpha

/-! Folding replaces the parts of a term that are values of macros by references to them. -/

namespace NamedLambda

/-- A macro with what it stands for. -/
abbrev Meaning := Name × Term

namespace Term

/-- A reference to the first macro that stands for the term. -/
def nameAs? (meanings : List Meaning) (term : Term) : Option Term :=
  (meanings.find? (fun meaning => term.alphaEq meaning.2)).map
    (fun meaning => ref meaning.1 meaning.2)

/-- The term with its largest nameable parts replaced by references, if it has any. -/
def foldWith? (meanings : List Meaning) : Term → Option Term
  -- What a reference stands for is not searched.
  | ref _ _ => none
  | var name => (var name).nameAs? meanings
  | lam binder body =>
    -- The whole is tried before its parts, so that the largest parts are named.
    ((lam binder body).nameAs? meanings).or ((body.foldWith? meanings).map (lam binder ·))
  | app func arg =>
    ((app func arg).nameAs? meanings).or
      (match func.foldWith? meanings, arg.foldWith? meanings with
      | none, none => none
      | folded, foldedArg => some (app (folded.getD func) (foldedArg.getD arg)))

end Term

namespace Table

/-- What each macro stands for under a strategy, in the order of the table. -/
def meanings (table : Table) (strategy : Strategy) : List Meaning :=
  table.order.filterMap (fun name => (table.resolve? strategy name).map (name, ·))

/-- The term with references to macros in place of what they stand for, if it has any such part. -/
def fold? (table : Table) (strategy : Strategy) (term : Term) : Option Term :=
  term.foldWith? (table.meanings strategy)

/-- The folded term, and whether folding changed it. -/
def fold (table : Table) (strategy : Strategy) (term : Term) : Term × Bool :=
  match table.fold? strategy term with
  | some folded => (folded, true)
  | none => (term, false)

end Table

end NamedLambda
