import NamedLambda.Proofs.Table.Sound
import NamedLambda.Table.Define

/-! What a macro stands for is settled by its own definition and by the macros it refers to. -/

namespace NamedLambda

/-- Renewed references show only in what they come to stand for. -/
theorem Term.relink_congr {term : Term} {left right : Name → Option Term}
    (agree : ∀ name ∈ term.references, left name = right name) :
    term.relink left = term.relink right := by
  -- Only references are looked up.
  induction term with
  | var name => rfl
  | lam binder body ih => rw [relink, relink, ih agree]
  | app func arg funcIh argIh =>
    obtain ⟨inFunc, inArg⟩ := forall_references_app.mp agree
    rw [relink, relink, funcIh inFunc, argIh inArg]
  | ref name resolved => rw [relink, relink, agree name (NameSet.mem_singleton.mpr rfl)]

namespace Table

/-- A name without a definition stands for nothing, at any depth. -/
theorem resolveWithin_eq_none {table : Table} {name : Name} (missing : table.get? name = none)
    (strategy : Strategy) (depth : Nat) : table.resolveWithin strategy depth name = none := by
  -- The look-up comes first.
  cases depth with
  | zero => rfl
  | succ depth => simp [resolveWithin, missing]

/-- Only macros that are defined stand for anything. -/
theorem exists_of_resolve? {table : Table} {strategy : Strategy} {name : Name} {resolved : Term}
    (found : table.resolve? strategy name = some resolved) :
    ∃ definition, table.get? name = some definition := by
  -- Without a definition no depth finds a meaning.
  rw [← Option.isSome_iff_exists, Option.isSome_iff_ne_none]
  intro missing
  rw [resolve?, resolveWithin_eq_none missing] at found
  contradiction

/-- What stands for something is a macro of the table. -/
theorem contains_of_resolve? {table : Table} {strategy : Strategy} {name : Name} {resolved : Term}
    (found : table.resolve? strategy name = some resolved) : table.contains name := by
  obtain ⟨definition, located⟩ := exists_of_resolve? found
  exact contains_of_get? located

/-- Depths beyond the rank of a macro all give it the same meaning. -/
theorem resolveWithin_eq {table : Table} {rank : Name → Nat}
    (falls : ∀ name other, table.RefersTo name other → rank other < rank name)
    (strategy : Strategy) {name : Name} {depth deeper : Nat} (enough : rank name < depth)
    (plenty : rank name < deeper) :
    table.resolveWithin strategy depth name = table.resolveWithin strategy deeper name := by
  -- The references of a body have smaller ranks, for which one level less is enough.
  induction depth generalizing name deeper with
  | zero => omega
  | succ depth ih =>
    cases deeper with
    | zero => omega
    | succ deeper =>
      cases found : table.get? name with
      | none => rw [resolveWithin_eq_none found, resolveWithin_eq_none found]
      | some definition =>
        simp only [resolveWithin, found, Option.map_some]
        congr 2
        apply Term.relink_congr
        intro other member
        have smaller := falls name other (refersTo_of_get? found member)
        exact ih (by omega) (by omega)

/-- A macro of a sound table stands for its value, or else for its body with
the references renewed. -/
theorem Sound.resolve?_eq {table : Table} (sound : table.Sound) (strategy : Strategy)
    (name : Name) :
    table.resolve? strategy name = (table.get? name).map (fun definition =>
      (definition.values.valueFor? strategy).getD (table.refresh strategy definition.body)) := by
  -- References fall in rank, and the table has room for every rank.
  obtain ⟨rank, falls, small⟩ := sound.exists_rank
  cases found : table.get? name with
  | none => exact resolveWithin_eq_none found strategy table.size
  | some definition =>
    have room := small name (contains_of_get? found)
    -- One level of the depth is spent on the macro itself, and the rest is still enough.
    obtain ⟨depth, size⟩ : ∃ depth, table.size = depth + 1 := ⟨table.size - 1, by omega⟩
    rw [resolve?, size, resolveWithin, found]
    simp only [Option.map_some, refresh]
    congr 2
    apply Term.relink_congr
    intro other member
    have smaller := falls name other (refersTo_of_get? found member)
    rw [resolve?]
    exact resolveWithin_eq falls strategy (by omega) (by omega)

/-- A macro with the same definition in two sound tables means the same in both if the macros that
its body refers to do. -/
theorem Sound.resolve?_congr_of_get? {left right : Table} (sound : left.Sound)
    (other : right.Sound) {strategy : Strategy} {name : Name}
    (same : left.get? name = right.get? name)
    (agree : ∀ needed, left.RefersTo name needed →
      left.resolve? strategy needed = right.resolve? strategy needed) :
    left.resolve? strategy name = right.resolve? strategy name := by
  rw [sound.resolve?_eq, other.resolve?_eq, ← same]
  cases found : left.get? name with
  | none => rfl
  | some definition =>
    -- The values are the same, and so are the bodies with their references renewed.
    rw [Option.map_some, Option.map_some, refresh, refresh]
    congr 2
    apply Term.relink_congr
    intro needed member
    exact agree needed (refersTo_of_get? found member)

/-- Sound tables that agree on names whose references stay among them give these
the same meanings. -/
theorem Sound.resolve?_congr {left right : Table} (sound : left.Sound) (other : right.Sound)
    (among : Name → Prop) (agree : ∀ name, among name → left.get? name = right.get? name)
    (stays : ∀ name needed, among name → left.RefersTo name needed → among needed)
    (strategy : Strategy) {name : Name} (member : among name) :
    left.resolve? strategy name = right.resolve? strategy name := by
  -- The meanings agree from the macros without references up to those that refer to them.
  have defined : ∀ name, left.contains name → among name →
      left.resolve? strategy name = right.resolve? strategy name := by
    refine sound.induct ?_
    intro name body found ih member
    refine sound.resolve?_congr_of_get? other (agree name member) ?_
    intro needed reference
    exact ih needed ((refersTo_iff found).mp reference) (stays name needed member reference)
  refine sound.resolve?_congr_of_get? other (agree name member) ?_
  intro needed reference
  exact defined needed (sound.bound name needed reference) (stays name needed member reference)

/-- A body compiles alike where its references mean the same and the budget is the same. -/
theorem compile_congr {left right : Table} {body : Term} (budget : left.budget = right.budget)
    (agree : ∀ strategy, ∀ name ∈ body.references,
      left.resolve? strategy name = right.resolve? strategy name) :
    left.compile body = right.compile body := by
  -- Each of the three runs starts from the body with its references renewed.
  have runs : ∀ strategy, left.evaluateBody body strategy = right.evaluateBody body strategy := by
    intro strategy
    rw [evaluateBody, evaluateBody, refresh, refresh, Term.relink_congr (agree strategy), budget]
  rw [compile, compile, runs, runs, runs]

/-- Sound tables that agree on names whose references stay among them compile a body alike that
refers to these names only. -/
theorem Sound.compile_congr_among {left right : Table} (sound : left.Sound) (other : right.Sound)
    (budget : left.budget = right.budget) (among : Name → Prop)
    (agree : ∀ name, among name → left.get? name = right.get? name)
    (stays : ∀ name needed, among name → left.RefersTo name needed → among needed) {body : Term}
    (inside : ∀ name ∈ body.references, among name) : left.compile body = right.compile body :=
  compile_congr budget (fun strategy name member =>
    sound.resolve?_congr other among agree stays strategy (inside name member))

end Table

end NamedLambda
