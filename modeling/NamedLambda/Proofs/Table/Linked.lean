import NamedLambda.Proofs.Table.Traces
import NamedLambda.Proofs.Term.Alpha
import NamedLambda.Proofs.Term.Position

/-! Terms whose references are those of a table refer by each name to terms of one form only. -/

namespace NamedLambda.Table

/-- All references in a term are those that the table makes under a strategy. -/
def Linked (table : Table) (strategy : Strategy) (term : Term) : Prop :=
  ∀ path name resolved, term.at? path = some (.ref name resolved) →
    table.reference strategy name = .ok (.ref name resolved)

/-- The nameless form of the expansion of what a macro stands for. -/
def form (table : Table) (strategy : Strategy) (name : Name) : Nameless :=
  -- Names that stand for nothing have no form, and any will do.
  ((table.resolve? strategy name).map (fun resolved => resolved.expand.nameless)).getD (.free name)

variable {table : Table} {strategy : Strategy} {term : Term}

/-- The table makes a reference with what the macro stands for. -/
theorem reference_eq_ok_iff {name : Name} {resolved : Term} :
    table.reference strategy name = .ok (.ref name resolved) ↔
      table.resolve? strategy name = some resolved := by
  -- It looks the meaning up once.
  rw [reference, reference?]
  cases table.resolve? strategy name <;> simp

/-- References that carry what their macros stand for are those that the table makes. -/
theorem linked_of_spelled {kind : Name → Bool}
    (spelled : term.Spelled kind (table.resolve? strategy)) : table.Linked strategy term :=
  fun _ _ _ found => reference_eq_ok_iff.mpr (spelled.at? found).1

section

variable (sound : table.Sound) (current : ∀ name, table.UpToDate name)
include sound current

/-- What a macro stands for refers to what other macros stand for, at every depth. -/
theorem Sound.resolve?_spelled {name : Name} {resolved : Term}
    (found : table.resolve? strategy name = some resolved) :
    resolved.Spelled (fun _ => true) (table.resolve? strategy) := by
  -- Any names will do, so this is the law for names with nothing asked of them.
  have spelled : table.Spelled (fun _ => true) := fun _ _ _ _ _ => rfl
  obtain ⟨other, same, speaks⟩ := sound.speaks (fun _ _ _ => rfl) current spelled
    (contains_of_resolve? found) strategy
  obtain rfl := Option.some.inj (found.symm.trans same)
  exact speaks

/-- References that the table makes carry such references in turn. -/
theorem Sound.spelled_of_linked (linked : table.Linked strategy term) :
    term.Spelled (fun _ => true) (table.resolve? strategy) := by
  -- Paths end at the references of the term, and the macros account for what lies beyond.
  induction term with
  | var name => rfl
  | lam binder body ih => exact ⟨rfl, ih (fun path => linked (.body :: path))⟩
  | app func arg funcIh argIh =>
    exact ⟨funcIh (fun path => linked (.func :: path)), argIh (fun path => linked (.arg :: path))⟩
  | ref name resolved =>
    have found := reference_eq_ok_iff.mp (linked [] name resolved rfl)
    exact ⟨found, sound.resolve?_spelled current found⟩

/-- References that carry what their macros stand for are coherent. -/
theorem Sound.coherent (spelled : term.Spelled (fun _ => true) (table.resolve? strategy)) :
    term.Coherent (table.form strategy) := by
  -- At every depth a reference carries the one meaning of its macro.
  refine spelled.imp (fun name resolved found => ?_)
  obtain ⟨other, same, closed, -⟩ :=
    sound.meaningful current (contains_of_resolve? found) strategy
  obtain rfl := Option.some.inj (found.symm.trans same)
  exact ⟨closed, by rw [form, found]; rfl⟩

end

end NamedLambda.Table
