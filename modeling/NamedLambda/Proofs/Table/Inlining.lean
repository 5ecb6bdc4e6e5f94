import NamedLambda.Proofs.Reduction.Normalization
import NamedLambda.Proofs.Source.Reading
import NamedLambda.Proofs.Table.Invariant
import NamedLambda.Proofs.Term.Alike
import NamedLambda.Table.Source

/-! Under normal order a term with macros finds the results that it finds with the bodies of the
macros written out in their places. -/

namespace NamedLambda

namespace Term

/-- The term with every reference replaced by what its macro stands for, where it has a meaning. -/
def replaceReferences (meaning : Name → Option Term) : Term → Term
  | var name => var name
  | lam binder body => lam binder (body.replaceReferences meaning)
  | app func arg => app (func.replaceReferences meaning) (arg.replaceReferences meaning)
  | ref name resolved => (meaning name).getD (ref name resolved)

/-- Only the meanings of the macros referred to matter. -/
theorem replaceReferences_congr {term : Term} {left right : Name → Option Term}
    (agree : ∀ name ∈ term.references, left name = right name) :
    term.replaceReferences left = term.replaceReferences right := by
  induction term with
  | var name => rfl
  | lam binder body ih => rw [replaceReferences, replaceReferences, ih agree]
  | app func arg funcIh argIh =>
    obtain ⟨inFunc, inArg⟩ := forall_references_app.mp agree
    rw [replaceReferences, replaceReferences, funcIh inFunc, argIh inArg]
  | ref name resolved =>
    rw [replaceReferences, replaceReferences, agree name (NameSet.mem_singleton.mpr rfl)]

end Term

namespace Table

/-- The body of a macro with the references in it replaced in turn, to a limited depth. -/
def inlinedWithin (table : Table) : (depth : Nat) → Name → Option Term
  | 0, _ => none
  | depth + 1, name =>
    (table.body? name).map (fun body => body.replaceReferences (table.inlinedWithin depth))

/-- The term with every reference replaced by the body of its macro, which is inlined in turn. -/
def inline (table : Table) (term : Term) : Term :=
  -- Without cycles no chain of references is longer than the table.
  term.replaceReferences (table.inlinedWithin table.size)

/-- Depths beyond the rank of a macro all give it the same inlined body. -/
theorem inlinedWithin_eq {table : Table} {rank : Name → Nat}
    (falls : ∀ name other, table.RefersTo name other → rank other < rank name) {name : Name}
    {depth deeper : Nat} (enough : rank name < depth) (plenty : rank name < deeper) :
    table.inlinedWithin depth name = table.inlinedWithin deeper name := by
  -- The references of a body have smaller ranks, for which one level less is enough.
  induction depth generalizing name deeper with
  | zero => omega
  | succ depth ih =>
    cases deeper with
    | zero => omega
    | succ deeper =>
      simp only [inlinedWithin]
      cases found : table.body? name with
      | none => rfl
      | some body =>
        refine congrArg some (Term.replaceReferences_congr ?_)
        intro other member
        have smaller := falls name other ((refersTo_iff found).mpr member)
        exact ih (by omega) (by omega)

variable {table : Table} {term : Term}

/-- The inlined body of a macro is its body, inlined. -/
theorem Sound.inlinedWithin_size (sound : table.Sound) (name : Name) :
    table.inlinedWithin table.size name = (table.body? name).map table.inline := by
  obtain ⟨rank, falls, small⟩ := sound.exists_rank
  cases found : table.body? name with
  | none => cases size : table.size <;> simp [inlinedWithin, found]
  | some body =>
    -- One level of the depth is spent on the macro itself, and the rest is still enough.
    have room := small name (contains_iff.mpr ⟨body, found⟩)
    obtain ⟨depth, size⟩ : ∃ depth, table.size = depth + 1 := ⟨table.size - 1, by omega⟩
    rw [size, inlinedWithin, found, Option.map_some, Option.map_some, inline]
    refine congrArg some (Term.replaceReferences_congr ?_)
    intro other member
    have smaller := falls name other ((refersTo_iff found).mpr member)
    exact inlinedWithin_eq falls (by omega) (by omega)

/-- A reference is replaced by the inlined body of its macro. -/
theorem Sound.inline_ref (sound : table.Sound) {name : Name} {body : Term}
    (found : table.body? name = some body) (resolved : Term) :
    table.inline (.ref name resolved) = table.inline body := by
  rw [inline, Term.replaceReferences, sound.inlinedWithin_size, found]
  rfl

/-- The inlined body of a macro serves in place of what the macro stands for. -/
structure Transparent (table : Table) (name : Name) (body resolved : Term) : Prop where
  /-- The macro has this body. -/
  stored : table.body? name = some body
  /-- The macro stands for this term under normal order. -/
  meaning : table.resolve? .normal name = some resolved
  /-- What the macro stands for is closed. -/
  closed : resolved.Closed
  /-- All references in what the macro stands for carry closed terms. -/
  carries : resolved.CarriesClosed
  /-- The inlined body is closed. -/
  inlineClosed : (table.inline body).Closed
  /-- The inlined body has no references left. -/
  plain : ∀ other, other ∉ (table.inline body).references
  /-- The inlined body reduces to what the macro stands for, expanded. -/
  reduces : (table.inline body).nameless.Reduces resolved.expand.nameless

section

variable (sound : table.Sound)
  (transparent : ∀ name ∈ term.references, ∃ body resolved, table.Transparent name body resolved)
include sound transparent

/-- Inlining leaves no references. -/
theorem not_mem_references_inline (other : Name) : other ∉ (table.inline term).references := by
  -- Only references are replaced, and inlined bodies have none.
  induction term with
  | var name => exact NameSet.not_mem_empty other
  | lam binder body ih => exact ih transparent
  | app func arg funcIh argIh =>
    obtain ⟨inFunc, inArg⟩ := Term.forall_references_app.mp transparent
    exact fun member => (NameSet.mem_union.mp member).elim (funcIh inFunc) (argIh inArg)
  | ref name resolved =>
    obtain ⟨body, meaning, known⟩ := transparent name (NameSet.mem_singleton.mpr rfl)
    rw [sound.inline_ref known.stored]
    exact known.plain other

/-- Inlining brings no free variables along, as bodies are closed. -/
theorem occursFree_inline (other : Name) :
    (table.inline term).occursFree other = term.occursFree other := by
  -- Only references are replaced, by closed terms, and neither has free names.
  induction term with
  | var name => rfl
  | lam binder body ih => exact congrArg (binder != other && ·) (ih transparent)
  | app func arg funcIh argIh =>
    obtain ⟨inFunc, inArg⟩ := Term.forall_references_app.mp transparent
    exact congrArg₂ (· || ·) (funcIh inFunc) (argIh inArg)
  | ref name resolved =>
    obtain ⟨body, meaning, known⟩ := transparent name (NameSet.mem_singleton.mpr rfl)
    rw [sound.inline_ref known.stored]
    exact known.inlineClosed other

/-- A term with the bodies of its macros written out reduces to the expansion of the term with its
references renewed. -/
theorem inline_reduces (binders : List Name) :
    ((table.inline term).namelessUnder binders).Reduces
      ((table.refresh .normal term).expand.namelessUnder binders) := by
  -- Variables and binders are the same on both sides, and reductions take place inside the parts.
  induction term generalizing binders with
  | var name => exact .refl
  | lam binder body ih => exact (ih transparent (binder :: binders)).lam
  | app func arg funcIh argIh =>
    obtain ⟨inFunc, inArg⟩ := Term.forall_references_app.mp transparent
    exact (funcIh inFunc binders).app (argIh inArg binders)
  | ref name resolved =>
    obtain ⟨body, meaning, known⟩ := transparent name (NameSet.mem_singleton.mpr rfl)
    -- One side writes out the body, and the other what the macro stands for.
    rw [sound.inline_ref known.stored, refresh, Term.relink, known.meaning, Option.getD_some,
      Term.expand]
    -- Closed terms have the same form below any binders.
    rw [Term.namelessUnder_eq_nameless (fun binder _ => known.inlineClosed binder),
      Term.namelessUnder_expand_of_closed known.closed known.carries]
    exact known.reduces

end

/-- What serves normal order is what its run found, if it found something. -/
theorem valueFor?_compile_normal (table : Table) (body : Term) :
    (table.compile body).1.valueFor? .normal = (table.evaluateBody body .normal).value := by
  -- Without a normal form no other value serves normal order.
  cases found : (table.evaluateBody body .normal).value with
  | none => simp [compile, found, Values.valueFor?]
  | some value => simp [compile, found, Values.valueFor?]

/-- In a sound table that is up to date all macros are transparent. -/
theorem Sound.transparent (sound : table.Sound) (current : ∀ name, table.UpToDate name)
    {name : Name} (defined : table.contains name) :
    ∃ body resolved, table.Transparent name body resolved := by
  -- The macros that a body refers to are transparent before the one it defines.
  refine sound.induct
    (motive := fun name => ∃ body resolved, table.Transparent name body resolved) ?_ name defined
  intro name body has ih
  obtain ⟨definition, found, rfl⟩ := Option.map_eq_some_iff.mp has
  have defined := contains_of_get? found
  obtain ⟨resolved, meaning, closed, carries⟩ := sound.meaningful current defined .normal
  have meaningful : ∀ other ∈ definition.body.references, table.Meaningful other :=
    fun other member =>
      sound.meaningful current (sound.bound name other (refersTo_of_get? found member))
  have bodyClosed := sound.closed name definition.body has
  obtain ⟨-, freshCarries⟩ := refresh_closed bodyClosed meaningful .normal
  -- A body reduces to the body with renewed references before anything is evaluated.
  have reduces := inline_reduces sound ih []
  refine ⟨definition.body, resolved, has, meaning, closed, carries, ?_, ?_, reduces.trans ?_⟩
  · exact fun other => (occursFree_inline sound ih other).trans (bodyClosed other)
  · exact not_mem_references_inline sound ih
  · rw [sound.resolve?_eq, found, Option.map_some, current name definition found,
      valueFor?_compile_normal] at meaning
    -- A value was found by contractions, and otherwise the body itself serves.
    cases run : (table.evaluateBody definition.body .normal).value with
    | none =>
      obtain rfl : table.refresh .normal definition.body = resolved := by simpa [run] using meaning
      exact .refl
    | some value =>
      obtain rfl : value = resolved := by simpa [run] using meaning
      exact (Term.contracts_reduces freshCarries (Term.evaluate_contracts run).1).2

/-- References that a source text writes are those of the table. -/
theorem refresh_of_written {strategy : Strategy}
    (written : term.Written (table.reference? strategy)) :
    table.refresh strategy term = term ∧ ∀ name ∈ term.references, table.contains name := by
  -- A name is read as a reference only if the table has a meaning for it.
  induction written with
  | var name => exact ⟨rfl, fun other member => absurd member (NameSet.not_mem_empty other)⟩
  | @reference name term named found =>
    obtain ⟨resolved, meaning, rfl⟩ := Option.map_eq_some_iff.mp found
    refine ⟨by rw [refresh, Term.relink, meaning, Option.getD_some], ?_⟩
    intro other member
    obtain rfl := NameSet.mem_singleton.mp member
    exact contains_of_resolve? meaning
  | lam binder written ih => exact ⟨congrArg (Term.lam binder) ih.1, ih.2⟩
  | app funcWritten argWritten funcIh argIh =>
    exact ⟨congrArg₂ Term.app funcIh.1 argIh.1,
      Term.forall_references_app.mpr ⟨funcIh.2, argIh.2⟩⟩

/-- A term that a source text writes finds the same values under normal order as with the bodies of
its macros written out, and one of them halts if the other does. -/
theorem inline_halts_iff (budget : Nat) (changes : List TableChange) {source : String}
    (written : (ofChanges budget changes).readTerm .normal source = .ok term) :
    (term.Halts .normal ↔ ((ofChanges budget changes).inline term).Halts .normal) ∧
      ∀ rounds inlineRounds value inlineValue,
        (term.evaluate .normal rounds).value = some value →
        (((ofChanges budget changes).inline term).evaluate .normal inlineRounds).value =
          some inlineValue →
        value.alphaEq inlineValue ∧ value.nameless = inlineValue.nameless := by
  -- Reduction from one to the other carries halting both ways, and normal forms are unique.
  obtain ⟨sound, current⟩ := ofChanges_sound_upToDate budget changes
  obtain ⟨fresh, defined⟩ := refresh_of_written (readTerm_written written)
  have transparent := fun name member => sound.transparent current (defined name member)
  -- References of the text are those of the table, and carry closed terms.
  have carries : term.CarriesClosed := by
    rw [← fresh]
    exact Term.carriesClosed_relink (fun name member =>
      sound.meaningful current (defined name member) .normal)
  have plain := not_mem_references_inline sound transparent
  have inlineCarries := Term.carriesClosed_of_not_mem_references plain
  -- The inlined term is its own expansion, which reduces to that of the term.
  have reduces := inline_reduces sound transparent []
  rw [fresh] at reduces
  replace reduces : ((ofChanges budget changes).inline term).expand.nameless.Reduces
      term.expand.nameless := by
    rwa [Term.expand_eq_self plain]
  refine ⟨(Term.halts_iff_of_reduces inlineCarries carries reduces).symm, ?_⟩
  intro rounds inlineRounds value inlineValue found inlineFound
  have same := Term.value_nameless_of_reduces inlineCarries carries reduces inlineFound found
  exact ⟨Term.alphaEq_of_nameless same.symm, same.symm⟩

/-- The changes that define a macro whose normal form is found in two rounds, and a macro of which
none is found. -/
def twoRounds : List TableChange :=
  [.define "I" (.app (.lam "x" (.var "x")) (.lam "y" (.var "y"))),
    .define "T" (.app (.app (.ref "I" (.var "z")) (.ref "I" (.var "z"))) (.lam "z" (.var "z")))]

/-- A stored normal form and a body that had to serve lead to the value of the
bodies written out. -/
theorem inline_halts_iff_two_rounds :
    let kept := Term.ref "I" (.lam "y" (.var "y"))
    let term := Term.app (.ref "T" (.app (.app kept kept) (.lam "z" (.var "z")))) (.var "a")
    (ofChanges 2 twoRounds).readTerm .normal "T a" = .ok term ∧
      (term.evaluate .normal 5).value = some (.var "a") ∧
      ((ofChanges 2 twoRounds).inline term).Halts .normal := by
  -- The reading and the run are computed; the theorem carries the halt over to the bodies.
  intro kept term
  have written : (ofChanges 2 twoRounds).readTerm .normal "T a" = .ok term := by decide +kernel
  have value : (term.evaluate .normal 5).value = some (.var "a") := by decide +kernel
  exact ⟨written, value, (inline_halts_iff 2 twoRounds written).1.mp ⟨5, .var "a", value⟩⟩

end Table

end NamedLambda
