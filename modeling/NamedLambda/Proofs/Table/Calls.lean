import NamedLambda.Proofs.Name.Map
import NamedLambda.Proofs.Table.History

/-! Macros are resolved by calls that nest no deeper than the table has macros. -/

namespace NamedLambda.Table

/-- What is called while references are resolved. -/
inductive Call where
  /-- To find what a macro stands for. -/
  | resolve (name : Name)
  /-- To renew the references of a term. -/
  | refresh (term : Term)
  /-- To make a reference to a macro. -/
  | reference (name : Name)
deriving DecidableEq, Repr

/-- A call makes another one on its way to an answer. -/
inductive Makes (table : Table) (strategy : Strategy) : Call → Call → Prop where
  /-- A macro without a value has its body refreshed. -/
  | body {name : Name} {definition : Definition} (found : table.get? name = some definition)
      (unvalued : definition.values.valueFor? strategy = none) :
      Makes table strategy (.resolve name) (.refresh definition.body)
  /-- An abstraction has its body refreshed. -/
  | lam (binder : Name) (body : Term) :
      Makes table strategy (.refresh (.lam binder body)) (.refresh body)
  /-- An application has its function refreshed. -/
  | func (func arg : Term) : Makes table strategy (.refresh (.app func arg)) (.refresh func)
  /-- An application has its argument refreshed. -/
  | arg (func arg : Term) : Makes table strategy (.refresh (.app func arg)) (.refresh arg)
  /-- A reference is made anew. -/
  | ref (name : Name) (resolved : Term) :
      Makes table strategy (.refresh (.ref name resolved)) (.reference name)
  /-- What is referred to is resolved. -/
  | reference (name : Name) : Makes table strategy (.reference name) (.resolve name)

/-- A call comes to an answer from those of the calls that it makes. -/
inductive Returns (table : Table) (strategy : Strategy) : Call → Option Term → Prop where
  /-- A name that is no macro stands for nothing. -/
  | undefined {name : Name} (missing : table.get? name = none) :
      Returns table strategy (.resolve name) none
  /-- A macro with a value stands for it. -/
  | value {name : Name} {definition : Definition} {term : Term}
      (found : table.get? name = some definition)
      (valued : definition.values.valueFor? strategy = some term) :
      Returns table strategy (.resolve name) (some term)
  /-- A macro without a value stands for its body, refreshed. -/
  | body {name : Name} {definition : Definition} {term : Term}
      (found : table.get? name = some definition)
      (unvalued : definition.values.valueFor? strategy = none)
      (refreshed : Returns table strategy (.refresh definition.body) (some term)) :
      Returns table strategy (.resolve name) (some term)
  /-- A variable stays. -/
  | var (name : Name) : Returns table strategy (.refresh (.var name)) (some (.var name))
  /-- An abstraction keeps its binder. -/
  | lam {binder : Name} {body renewed : Term}
      (inBody : Returns table strategy (.refresh body) (some renewed)) :
      Returns table strategy (.refresh (.lam binder body)) (some (.lam binder renewed))
  /-- An application has both parts renewed. -/
  | app {func arg newFunc newArg : Term}
      (inFunc : Returns table strategy (.refresh func) (some newFunc))
      (inArg : Returns table strategy (.refresh arg) (some newArg)) :
      Returns table strategy (.refresh (.app func arg)) (some (.app newFunc newArg))
  /-- A reference is replaced by the one that is made, if one is. -/
  | ref {name : Name} {resolved : Term} {made : Option Term}
      (remade : Returns table strategy (.reference name) made) :
      Returns table strategy (.refresh (.ref name resolved))
        (some (made.getD (.ref name resolved)))
  /-- A reference carries what its macro stands for. -/
  | reference {name : Name} {meaning : Option Term}
      (resolved : Returns table strategy (.resolve name) meaning) :
      Returns table strategy (.reference name) (meaning.map (.ref name ·))

/-- What the table says in answer to a call. -/
def answer (table : Table) (strategy : Strategy) : Call → Option Term
  | .resolve name => table.resolve? strategy name
  | .refresh term => some (table.refresh strategy term)
  | .reference name => table.reference? strategy name

/-- The name that a call resolves. -/
def Call.resolved? : Call → Option Name
  | resolve name => some name
  | refresh _ | reference _ => none

/-- The names that are resolved along calls, in their order. -/
def resolvedNames (calls : List Call) : List Name :=
  calls.filterMap Call.resolved?

/-- Under a strategy all calls end, and they nest no deeper than there are macros. -/
structure CallsEnd (table : Table) (strategy : Strategy) : Prop where
  /-- No calls go on to make calls for ever. -/
  ends : WellFounded (fun inner outer => table.Makes strategy outer inner)
  /-- A call returns what the table says, and nothing else. -/
  returns : ∀ call result,
    table.Returns strategy call result ↔ result = table.answer strategy call
  /-- Nested calls resolve no name twice. -/
  nodup : ∀ calls : List Call, calls.IsChain (table.Makes strategy) → (resolvedNames calls).Nodup
  /-- Nested calls resolve no more names than there are macros, or a single one that is none. -/
  depth : ∀ calls : List Call, calls.IsChain (table.Makes strategy) →
    (resolvedNames calls).length ≤ table.size ∨
      ∃ name, ¬table.contains name ∧ resolvedNames calls = [name]

variable {table : Table} {strategy : Strategy}

/-- The names that a call may resolve next. -/
def Call.Wants (table : Table) : Call → Name → Prop
  | resolve name, other => table.RefersTo name other
  | refresh term, other => other ∈ term.references
  | reference name, other => other = name

/-- A call resolves only what is wanted, and hands on only what it is asked for. -/
theorem Makes.wants {outer inner : Call} (makes : table.Makes strategy outer inner) :
    (∀ name, inner = .resolve name → outer.Wants table name) ∧
      (inner.resolved? = none → ∀ name, inner.Wants table name → outer.Wants table name) := by
  -- Only a reference has a name resolved, and every other call hands on part of its term.
  cases makes with
  | body found unvalued =>
    exact ⟨nofun, fun _ name member => refersTo_of_get? found member⟩
  | lam binder body => exact ⟨nofun, fun _ name member => member⟩
  | func func arg => exact ⟨nofun, fun _ name member => NameSet.mem_union.mpr (.inl member)⟩
  | arg func arg => exact ⟨nofun, fun _ name member => NameSet.mem_union.mpr (.inr member)⟩
  | ref name resolved => exact ⟨nofun, fun _ other same => NameSet.mem_singleton.mpr same⟩
  | reference name => exact ⟨fun other same => (Call.resolve.inj same).symm, nofun⟩

/-- Nested calls resolve what their first one wants, and what that refers to. -/
theorem exists_wants {call : Call} {calls : List Call}
    (chain : (call :: calls).IsChain (table.Makes strategy)) {name : Name}
    (member : name ∈ resolvedNames calls) :
    ∃ first, call.Wants table first ∧ Relation.ReflTransGen table.RefersTo first name := by
  -- The first name that is resolved is wanted, and each later one is wanted by the one before it.
  induction calls generalizing call with
  | nil => contradiction
  | cons inner rest ih =>
    rw [List.isChain_cons_cons] at chain
    obtain ⟨makes, nested⟩ := chain
    -- The call that comes next resolves a name, or hands the wish on.
    cases kind : inner.resolved? with
    | none =>
      rw [resolvedNames, List.filterMap_cons_none kind] at member
      obtain ⟨first, wanted, leads⟩ := ih nested member
      exact ⟨first, makes.wants.2 kind first wanted, leads⟩
    | some entered =>
      -- Only one kind of call resolves a name.
      obtain rfl : inner = .resolve entered := by
        cases inner <;> simp_all [Call.resolved?]
      have wanted := makes.wants.1 entered rfl
      rw [resolvedNames, List.filterMap_cons_some kind, List.mem_cons] at member
      rcases member with same | later
      · exact ⟨entered, wanted, same ▸ .refl⟩
      · obtain ⟨first, reference, leads⟩ := ih nested later
        exact ⟨entered, wanted, .head reference leads⟩

/-- Each name that nested calls resolve refers to those after it, directly or through others. -/
theorem pairwise_resolvedNames {calls : List Call}
    (chain : calls.IsChain (table.Makes strategy)) :
    (resolvedNames calls).Pairwise (Relation.TransGen table.RefersTo) := by
  -- What comes behind a call that resolves a name is reached from what the name refers to.
  induction calls with
  | nil => exact .nil
  | cons call rest ih =>
    have later := ih chain.tail
    cases call with
    -- Calls that resolve no name add nothing to the list.
    | refresh term => exact later
    | reference name => exact later
    | resolve name =>
      refine List.pairwise_cons.mpr ⟨fun other member => ?_, later⟩
      obtain ⟨first, reference, leads⟩ := exists_wants chain member
      exact .head' reference leads

namespace Sound

variable (sound : table.Sound)
include sound

/-- What a macro refers to, directly or through others, is defined, and so is the macro. -/
theorem contains_of_transGen {name other : Name}
    (leads : Relation.TransGen table.RefersTo name other) :
    table.contains name ∧ table.contains other := by
  -- The first step leaves a body, and the last one is to a macro that is defined.
  obtain ⟨next, ⟨body, found, -⟩, -⟩ := Relation.TransGen.head'_iff.mp leads
  obtain ⟨last, -, reference⟩ := Relation.TransGen.tail'_iff.mp leads
  exact ⟨contains_iff.mpr ⟨body, found⟩, sound.bound last other reference⟩

/-- Without cycles nested calls resolve no name twice. -/
theorem nodup_resolvedNames {calls : List Call} (chain : calls.IsChain (table.Makes strategy)) :
    (resolvedNames calls).Nodup := by
  -- A name that came again would refer to itself.
  refine (pairwise_resolvedNames chain).imp ?_
  rintro name other leads rfl
  exact sound.acyclic name leads

/-- Names that are macros and resolved once are no more than the macros. -/
theorem length_resolvedNames {calls : List Call} (chain : calls.IsChain (table.Makes strategy)) :
    (resolvedNames calls).length ≤ table.size ∨
      ∃ name, ¬table.contains name ∧ resolvedNames calls = [name] := by
  -- Different names that all are macros are no more than the keys of the table.
  have nodup := sound.nodup_resolvedNames chain
  have pairwise := pairwise_resolvedNames chain
  have among (known : ∀ name ∈ resolvedNames calls, table.contains name) :
      (resolvedNames calls).length ≤ table.size := by
    have subset : resolvedNames calls ⊆ table.definitions.keys :=
      fun name member => NameMap.mem_keys.mpr (known name member)
    simpa [size] using nodup.length_le_of_subset subset
  -- Of two names or more each refers to another or is referred to.
  match resolvedNames calls, pairwise, among with
  | [], _, among => exact .inl (among (by simp))
  | [name], _, among =>
    by_cases known : table.contains name
    · exact .inl (among (by simpa using known))
    · exact .inr ⟨name, known, rfl⟩
  | first :: second :: rest, pairwise, among =>
    rw [List.pairwise_cons] at pairwise
    refine .inl (among (List.forall_mem_cons.mpr ⟨?_, ?_⟩))
    · exact (sound.contains_of_transGen (pairwise.1 second List.mem_cons_self)).1
    · exact fun name member => (sound.contains_of_transGen (pairwise.1 name member)).2

end Sound

section

variable {motive : Call → Prop}
  (step : ∀ call, (∀ inner, table.Makes strategy call inner → motive inner) → motive call)
include step

/-- What holds of a call as soon as it holds of the calls that it makes holds of refreshing a term,
if it holds of resolving its references. -/
theorem refresh_induct {term : Term}
    (resolved : ∀ name ∈ term.references, motive (.resolve name)) : motive (.refresh term) := by
  -- A term is refreshed through calls for its parts, and a reference through two calls in a row.
  induction term with
  | var name => exact step _ nofun
  | lam binder body ih =>
    refine step _ ?_
    rintro _ (_ | _)
    exact ih resolved
  | app func arg funcIh argIh =>
    -- Both parts are refreshed, with their own references.
    obtain ⟨inFunc, inArg⟩ := Term.forall_references_app.mp resolved
    refine step _ ?_
    rintro _ (_ | _)
    · exact funcIh inFunc
    · exact argIh inArg
  | ref name inner =>
    -- The first call makes a reference, and the second resolves its name.
    refine step _ ?_
    rintro _ (_ | _)
    refine step _ ?_
    rintro _ (_ | _)
    exact resolved name (NameSet.mem_singleton.mpr rfl)

/-- In a sound table what holds of a call as soon as it holds of the calls that it makes holds of
all calls. -/
theorem Sound.call_induct (sound : table.Sound) (call : Call) : motive call := by
  have resolves : ∀ name, motive (.resolve name) := by
    intro name
    by_cases defined : table.contains name
    · -- The references of a body come before the body.
      refine sound.induct (motive := fun name => motive (.resolve name)) ?_ name defined
      intro name body found ih
      refine step _ ?_
      rintro _ (⟨located, -⟩ | _)
      obtain rfl := Option.some.inj ((body?_of_get? located).symm.trans found)
      exact refresh_induct step ih
    · -- A name that is no macro makes no call at all.
      refine step _ ?_
      rintro _ (⟨located, -⟩ | _)
      exact absurd (contains_of_get? located) defined
  -- Every other call comes down to resolving some names.
  cases call with
  | resolve name => exact resolves name
  | refresh term => exact refresh_induct step (fun name _ => resolves name)
  | reference name =>
    refine step _ ?_
    rintro _ (_ | _)
    exact resolves name

end

namespace Sound

variable (sound : table.Sound)
include sound

/-- A call returns what the table says if the calls that it makes do. -/
theorem returns_of_makes (call : Call)
    (inner : ∀ other, table.Makes strategy call other →
      table.Returns strategy other (table.answer strategy other)) :
    table.Returns strategy call (table.answer strategy call) := by
  -- Each kind of call has a rule of its own, fed by the answers to the calls that it makes.
  cases call with
  | resolve name =>
    rw [answer, sound.resolve?_eq]
    cases found : table.get? name with
    | none => exact .undefined found
    | some definition =>
      rw [Option.map_some]
      -- A stored value is the answer; without one the body is refreshed.
      cases valued : definition.values.valueFor? strategy with
      | some value => exact .value found valued
      | none => exact .body found valued (inner _ (.body found valued))
  | refresh term =>
    cases term with
    | var name => exact .var name
    | lam binder body => exact .lam (inner _ (.lam binder body))
    | app func arg => exact .app (inner _ (.func func arg)) (inner _ (.arg func arg))
    | ref name resolved =>
      have made : table.Returns strategy (.refresh (.ref name resolved)) _ :=
        .ref (inner _ (.ref name resolved))
      rw [answer, reference?] at made
      rw [answer, refresh, Term.relink]
      -- A reference to a macro that stands for nothing is left as it was.
      cases meaning : table.resolve? strategy name with
      | none => simpa [meaning] using made
      | some term => simpa [meaning] using made
  | reference name => exact .reference (inner _ (.reference name))

/-- Every call returns what the table says. -/
theorem returns_answer (call : Call) :
    table.Returns strategy call (table.answer strategy call) :=
  sound.call_induct sound.returns_of_makes call

/-- A call returns nothing but what the table says. -/
theorem eq_answer {call : Call} {result : Option Term}
    (returns : table.Returns strategy call result) : result = table.answer strategy call := by
  -- Each rule computes what the table says from what the table says to the calls before.
  induction returns with
  | undefined missing => rw [answer, sound.resolve?_eq, missing, Option.map_none]
  | value found valued => simp [answer, sound.resolve?_eq, found, valued]
  | body found unvalued refreshed ih => simpa [answer, sound.resolve?_eq, found, unvalued] using ih
  | var name => rfl
  | lam inBody ih =>
    obtain rfl := Option.some.inj ih
    rfl
  | app inFunc inArg funcIh argIh =>
    obtain rfl := Option.some.inj funcIh
    obtain rfl := Option.some.inj argIh
    rfl
  | @ref name resolved made remade ih =>
    -- A reference is renewed or left, as the table says.
    rw [ih, answer, answer, reference?, refresh, Term.relink]
    cases table.resolve? strategy name <;> rfl
  | reference resolved ih => rw [ih, answer, answer, reference?]

/-- In a sound table all calls end. -/
theorem callsEnd (strategy : Strategy) : table.CallsEnd strategy where
  ends := ⟨sound.call_induct (fun call inner => ⟨call, inner⟩)⟩
  returns call _ :=
    ⟨sound.eq_answer, fun same => same ▸ sound.returns_answer call⟩
  nodup _ chain := sound.nodup_resolvedNames chain
  depth _ chain := sound.length_resolvedNames chain

end Sound

/-- After any changes all calls end, and so they do in a table that has stored a new macro, with
any values and while macros are compiled again. -/
theorem ofChanges_callsEnd (budget : Nat) (changes : List TableChange) (strategy : Strategy) :
    (ofChanges budget changes).CallsEnd strategy ∧
      ∀ name body dependents, (ofChanges budget changes).check name body = .ok dependents →
        ∀ values names, (((ofChanges budget changes).store name ⟨body, values⟩).recompile
          names).CallsEnd strategy := by
  have sound := ofChanges_sound budget changes
  refine ⟨sound.callsEnd strategy, ?_⟩
  intro name body dependents checked values names
  -- The values play no part in the soundness of the new table.
  have stored := ((check_passes checked).sound_candidate sound).of_bodies
    (body?_store_eq_candidate (ofChanges budget changes) name body values).symm
  exact (stored.recompile names).callsEnd strategy

/-- The changes that define an identity, and its application to itself. -/
def selfApplication : List TableChange :=
  [.define "ID" (.lam "x" (.var "x")),
    .define "TWICE" (.app (.ref "ID" (.var "x")) (.ref "ID" (.var "x")))]

/-- The table in which another function is about to take the place of the identity. -/
def selfApplicationStored : Table :=
  ((ofChanges 0 selfApplication).store "ID"
    ⟨.lam "x" (.lam "y" (.var "x")), .weak none none⟩).recompile ["TWICE"]

/-- While a macro is redefined, resolving one that refers to it goes on to its new body. -/
theorem callsEnd_selfApplication :
    (ofChanges 0 selfApplication).check "ID" (.lam "x" (.lam "y" (.var "x"))) = .ok ["TWICE"] ∧
      selfApplicationStored.CallsEnd .normal ∧
      [Call.resolve "TWICE", .refresh (.app (.ref "ID" (.var "x")) (.ref "ID" (.var "x"))),
        .refresh (.ref "ID" (.var "x")), .reference "ID", .resolve "ID",
        .refresh (.lam "x" (.lam "y" (.var "x")))].IsChain
          (selfApplicationStored.Makes .normal) := by
  -- The theorem is used in the middle of a redefinition, where the new identity has no value yet.
  have checked : (ofChanges 0 selfApplication).check "ID" (.lam "x" (.lam "y" (.var "x"))) =
      .ok ["TWICE"] := by decide +kernel
  have outer : selfApplicationStored.get? "TWICE" =
      some ⟨.app (.ref "ID" (.var "x")) (.ref "ID" (.var "x")), .weak none none⟩ := by
    decide +kernel
  have inner : selfApplicationStored.get? "ID" =
      some ⟨.lam "x" (.lam "y" (.var "x")), .weak none none⟩ := by decide +kernel
  have ends := (ofChanges_callsEnd 0 selfApplication .normal).2 "ID" _ _ checked
    (.weak none none) ["TWICE"]
  refine ⟨checked, ends, ?_⟩
  -- Each call of the chain is made by the one before it.
  simp only [List.isChain_cons_cons, List.isChain_singleton, and_true]
  exact ⟨.body outer rfl, .func _ _, .ref _ _, .reference _, .body inner rfl⟩

end NamedLambda.Table
