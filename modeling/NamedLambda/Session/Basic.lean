import NamedLambda.Session.Settings
import NamedLambda.Table.Source

/-! A session keeps a table of macros, one saved table, and terms stored by name. -/

namespace NamedLambda

/-- What a session keeps between its steps. -/
structure Session where
  /-- The macros in use. -/
  table : Table
  /-- The macros that were saved last. -/
  saved : Table
  /-- The stored terms. -/
  terms : NameMap Term
deriving DecidableEq, Repr

namespace Session

/-- The session without macros, saved macros or stored terms. -/
def start (settings : Settings) : Session :=
  ⟨.empty settings.definitionBudget, .empty settings.definitionBudget, ∅⟩

/-- The session with another table in use. -/
def withTable (session : Session) (table : Table) : Session :=
  { session with table := table }

/-- The session with a macro defined by a term, and the normal-order run of the term. -/
def define (session : Session) (name : Name) (body : Term) :
    Except DefinitionError (Session × Run) :=
  (session.table.define name body).map (fun (table, run) => (session.withTable table, run))

/-- The session with the definition that a source text writes, and the run of its body. -/
def defineSource (session : Session) (source : String) : Except Error (Session × Run) :=
  (session.table.defineSource source).map (fun (table, run) => (session.withTable table, run))

/-- The session with a term stored under a name. -/
def storeTerm (session : Session) (name : Name) (term : Term) : Session :=
  { session with terms := session.terms.insert name term }

/-- The session without macros. -/
def clear (session : Session) : Session :=
  session.withTable session.table.clear

/-- The session with its macros saved. -/
def save (session : Session) : Session :=
  { session with saved := session.table }

/-- The session with the saved macros in use again. -/
def restore (session : Session) : Session :=
  session.withTable session.saved

/-- Whether the macros in use are the saved ones, with the same values and budget. -/
def matchesSaved (session : Session) : Bool :=
  session.table == session.saved

end Session

end NamedLambda
