import NamedLambda.Proofs.Source.Grammar
import NamedLambda.Proofs.Source.Words
import NamedLambda.Proofs.Term.Text
import NamedLambda.Term.References
import NamedLambda.Term.Variables

/-! A printed term is read back as it is, with the references in it as variables. -/

namespace NamedLambda

/-- The characters spell words that write the term, as a construct of the grammar. -/
def ReadsAs (construct : Construct) (chars : List Char) (term : Term) : Prop :=
  ∃ words, Spells chars words ∧ Derives construct words term

namespace ReadsAs

variable {chars argChars : List Char} {func arg term : Term}

/-- A name that can be written reads as a variable. -/
theorem name {name : Name} (identifier : isIdentifier name) :
    ReadsAs .simple name.toList (.var name) :=
  ⟨[.ident name], .ident identifier, .name name⟩

/-- A lambda sign, a name and a dot in front of an expression read as an abstraction. -/
theorem lam {binder : Name} {body : Term} (identifier : isIdentifier binder)
    (reads : ReadsAs .expression chars body) :
    ReadsAs .abstraction ('λ' :: (binder.toList ++ '.' :: chars)) (.lam binder body) := by
  obtain ⟨words, spells, derived⟩ := reads
  -- The name ends at the dot, and signs are words by themselves.
  have spelled : Spells ('λ' :: (binder.toList ++ '.' :: chars))
      (.lambda :: ([.ident binder] ++ .dot :: words)) :=
    .sign rfl (.append (.ident identifier) (by decide) (.sign rfl spells))
  exact ⟨_, spelled, @Derives.bind [binder] words body (by simp) derived⟩

/-- An expression in parentheses reads as a simple term. -/
theorem group (reads : ReadsAs .expression chars term) :
    ReadsAs .simple ('(' :: (chars ++ [')'])) term := by
  obtain ⟨words, spells, derived⟩ := reads
  -- The closing parenthesis goes on with no name.
  have spelled : Spells ('(' :: (chars ++ [')'])) (.openParen :: (words ++ [.closeParen])) :=
    .sign rfl (.append spells (by decide) (.sign rfl .nil))
  exact ⟨_, spelled, .group derived⟩

/-- An argument in parentheses stands apart by itself. -/
theorem appGroup (reads : ReadsAs .chain chars func) (argReads : ReadsAs .expression argChars arg) :
    ReadsAs .chain (chars ++ '(' :: (argChars ++ [')'])) (.app func arg) := by
  -- The opening parenthesis ends whatever name the function ends in.
  obtain ⟨words, spells, derived⟩ := reads
  obtain ⟨argWords, argSpells, argDerived⟩ := argReads.group
  exact ⟨_, spells.append (by decide) argSpells, derived.apply argDerived⟩

/-- Any other argument stands apart by a blank. -/
theorem appBlank (reads : ReadsAs .chain chars func) (argReads : ReadsAs .simple argChars arg) :
    ReadsAs .chain (chars ++ ' ' :: argChars) (.app func arg) := by
  -- The blank is no word, and it ends whatever name the function ends in.
  obtain ⟨words, spells, derived⟩ := reads
  obtain ⟨argWords, argSpells, argDerived⟩ := argReads
  exact ⟨_, spells.append (by decide) (argSpells.blank (by decide)), derived.apply argDerived⟩

/-- A simple term is a chain of one. -/
theorem chain (reads : ReadsAs .simple chars term) : ReadsAs .chain chars term := by
  -- The words stay the same, with one more rule of the grammar.
  obtain ⟨words, spells, derived⟩ := reads
  exact ⟨words, spells, .ofSimple derived⟩

/-- Every construct is an expression. -/
theorem expression {construct : Construct} (reads : ReadsAs construct chars term) :
    ReadsAs .expression chars term := by
  obtain ⟨words, spells, derived⟩ := reads
  refine ⟨words, spells, ?_⟩
  -- The grammar leads from the other constructs to expressions, one rule at a time.
  cases construct with
  | expression => exact derived
  | abstraction => exact .ofAbstraction derived
  | application => exact .ofApplication derived
  | chain => exact .ofApplication (.ofChain derived)
  | simple => exact .ofApplication (.ofChain (.ofSimple derived))

/-- What reads as an expression is read as its term, with the macro names resolved. -/
theorem readTerm {meaning : Name → Option Term} {text : String} {resolved : Term}
    (reads : ReadsAs .expression text.toList term)
    (resolves : term.scope? meaning [] = some resolved) :
    NamedLambda.readTerm meaning text = .ok resolved := by
  obtain ⟨words, spells, derived⟩ := reads
  obtain ⟨tokens, cut, same⟩ := spells.tokensOf
  -- The blanks among the tokens do not matter.
  simp only [NamedLambda.readTerm, cut, bind, Except.bind]
  rw [Reader.read_eq_ok_iff_filter meaning 0 0, same]
  exact derived.read_start resolves 0

end ReadsAs

namespace Term

/-- The term with a variable of the same name in place of every reference. -/
def unlink : Term → Term
  | var name | ref name _ => var name
  | lam binder body => lam binder body.unlink
  | app func arg => app func.unlink arg.unlink

/-- Every name of a variable, a binder or a macro referred to can be written in a source text. -/
def Legible (term : Term) : Prop :=
  ∀ name, name ∈ term.names ∨ name ∈ term.references → isIdentifier name

/-- A variable is legible if its name can be written. -/
theorem legible_var_iff {name : Name} : (var name).Legible ↔ isIdentifier name := by
  -- It has one name and no reference.
  simp [Legible, names, references]

/-- A reference is legible if the name of its macro can be written. -/
theorem legible_ref_iff {name : Name} {resolved : Term} :
    (ref name resolved).Legible ↔ isIdentifier name := by
  -- What it carries is not printed.
  simp [Legible, names, references]

/-- An abstraction is legible if its binder can be written and its body is legible. -/
theorem legible_lam_iff {binder : Name} {body : Term} :
    (lam binder body).Legible ↔ isIdentifier binder ∧ body.Legible := by
  -- The binder is one of the names, and all others are those of the body.
  simp only [Legible, names, references, NameSet.mem_union, NameSet.mem_singleton, or_imp,
    forall_and, forall_eq, and_assoc]

/-- An application is legible if both parts are. -/
theorem legible_app_iff {func arg : Term} :
    (app func arg).Legible ↔ func.Legible ∧ arg.Legible := by
  -- Its names and references are those of the parts, which only have to be regrouped.
  simp only [Legible, names, references, NameSet.mem_union, or_imp, forall_and]
  constructor
  · rintro ⟨⟨funcNames, argNames⟩, funcReferences, argReferences⟩
    exact ⟨⟨funcNames, funcReferences⟩, argNames, argReferences⟩
  · rintro ⟨⟨funcNames, funcReferences⟩, argNames, argReferences⟩
    exact ⟨⟨funcNames, argNames⟩, funcReferences, argReferences⟩

/-- The construct that a term is printed as. -/
def construct : Term → Construct
  | var _ | ref _ _ => .simple
  | lam _ _ => .abstraction
  | app _ _ => .chain

/-- A function is printed as a chain, in parentheses if it is an abstraction. -/
theorem readsAs_func {func : Term} (reads : ReadsAs func.construct func.text.toList func.unlink) :
    ReadsAs .chain (func.renderIn func.groupsAsFunc none).toList func.unlink := by
  cases func with
  | var name => exact reads.chain
  | ref name resolved => exact reads.chain
  | app func arg => exact reads
  -- An abstraction would take the argument into its body, so it stands in parentheses.
  | lam binder body =>
    rw [groupsAsFunc, renderIn_true]
    simpa using reads.expression.group.chain

/-- Behind a chain, an argument is printed as a simple term. -/
theorem readsAs_app {chars : List Char} {func arg : Term} (reads : ReadsAs .chain chars func)
    (argReads : ReadsAs arg.construct arg.text.toList arg.unlink) :
    ReadsAs .chain (chars ++ ((if arg.groupsAsArg then "" else " ").toList ++
      (arg.renderIn arg.groupsAsArg none).toList)) (.app func arg.unlink) := by
  cases arg with
  -- A name could run on from the chain, so a blank comes before it.
  | var name => simpa [groupsAsArg, renderIn_false] using reads.appBlank argReads
  | ref name resolved => simpa [groupsAsArg, renderIn_false] using reads.appBlank argReads
  -- Applications and abstractions stand in parentheses, which need no blank.
  | app func arg =>
    rw [groupsAsArg, renderIn_true]
    simpa using reads.appGroup argReads.expression
  | lam binder body =>
    rw [groupsAsArg, renderIn_true]
    simpa using reads.appGroup argReads.expression

/-- A term is printed as a construct of the grammar. -/
theorem readsAs_text {term : Term} (legible : term.Legible) :
    ReadsAs term.construct term.text.toList term.unlink := by
  -- Each constructor is printed by the rule of its construct, around the texts of its parts.
  induction term with
  | var name => exact .name (legible_var_iff.mp legible)
  | ref name resolved => exact .name (legible_ref_iff.mp legible)
  | lam binder body ih =>
    obtain ⟨identifier, inBody⟩ := legible_lam_iff.mp legible
    rw [text_lam]
    simpa [construct, unlink] using ReadsAs.lam identifier (ih inBody).expression
  | app func arg funcIh argIh =>
    obtain ⟨inFunc, inArg⟩ := legible_app_iff.mp legible
    rw [text_app]
    simpa [construct, unlink] using readsAs_app (readsAs_func (funcIh inFunc)) (argIh inArg)

/-- With all parentheses, a term is printed as a simple term. -/
theorem readsAs_fullText {term : Term} (legible : term.Legible) :
    ReadsAs .simple term.fullText.toList term.unlink := by
  -- Every abstraction and application is a group of its own, and variables are simple as they are.
  induction term with
  | var name => exact .name (legible_var_iff.mp legible)
  | ref name resolved => exact .name (legible_ref_iff.mp legible)
  | lam binder body ih =>
    obtain ⟨identifier, inBody⟩ := legible_lam_iff.mp legible
    simpa [fullText, unlink] using (ReadsAs.lam identifier (ih inBody).expression).expression.group
  | app func arg funcIh argIh =>
    obtain ⟨inFunc, inArg⟩ := legible_app_iff.mp legible
    simpa [fullText, unlink] using ((funcIh inFunc).chain.appBlank (argIh inArg)).expression.group

/-- A legible term is read back from either of its texts, with the references in it as variables. -/
theorem readPlainTerm_text {term : Term} (legible : term.Legible) :
    readPlainTerm term.text = .ok term.unlink ∧ readPlainTerm term.fullText = .ok term.unlink := by
  -- When every name means a variable the term read is the one that was printed.
  have resolves := scope?_var term.unlink []
  exact ⟨(readsAs_text legible).expression.readTerm resolves,
    (readsAs_fullText legible).expression.readTerm resolves⟩

/-- Parentheses, blanks and references come back from a text with few parentheses and from one with
all of them. -/
theorem readPlainTerm_text_parentheses :
    let term := app (lam "x" (app (var "f_1") (app (var "x") (ref "K" (var "z")))))
      (lam "y" (lam "z" (var "y")))
    term.Legible ∧ term.text = "(λx.f_1(x K))(λy.λz.y)" ∧
      term.fullText = "((λx.(f_1 (x K))) (λy.(λz.y)))" ∧
      readPlainTerm "(λx.f_1(x K))(λy.λz.y)" = .ok term.unlink ∧
      readPlainTerm "((λx.(f_1 (x K))) (λy.(λz.y)))" = .ok term.unlink := by
  intro term
  -- All names of the term are identifiers, the macro among them.
  have legible : term.Legible := by
    simp only [term, legible_app_iff, legible_lam_iff, legible_var_iff, legible_ref_iff]
    decide
  have text : term.text = "(λx.f_1(x K))(λy.λz.y)" := by decide +kernel
  have fullText : term.fullText = "((λx.(f_1 (x K))) (λy.(λz.y)))" := by decide +kernel
  obtain ⟨fromText, fromFullText⟩ := readPlainTerm_text legible
  exact ⟨legible, text, fullText, text ▸ fromText, fullText ▸ fromFullText⟩

end Term

end NamedLambda
