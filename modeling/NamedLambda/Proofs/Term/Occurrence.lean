import NamedLambda.Proofs.Term.Closed
import NamedLambda.Proofs.Term.Position
import NamedLambda.Proofs.Term.Traversal

/-! The queries for variables agree with each other, and with where the variables of
a term stand. -/

namespace NamedLambda.Term

/-- The binders of the abstractions that a path goes into, the outermost first. -/
def bindersOn : Path → Term → List Name
  | .func :: rest, app func _ => func.bindersOn rest
  | .arg :: rest, app _ arg => arg.bindersOn rest
  | .body :: rest, lam binder body => binder :: body.bindersOn rest
  | _, _ => []

/-- A variable of a name stands at a position, and no abstraction around it binds it. -/
def FreeAt (term : Term) (name : Name) (path : Path) : Prop :=
  term.at? path = some (var name) ∧ name ∉ term.bindersOn path

variable {term : Term} {name : Name} {path : Path}

/-- The only variable in a variable is the variable itself. -/
theorem freeAt_var_iff {other : Name} :
    (var other).FreeAt name path ↔ path = [] ∧ other = name := by
  -- No branch leads on from a variable.
  cases path with
  | nil => simp [FreeAt, at?, bindersOn]
  | cons branch rest => simp [FreeAt, at?_cons_var]

/-- There are no variables in a reference. -/
theorem not_freeAt_ref {macroName : Name} {resolved : Term} :
    ¬(ref macroName resolved).FreeAt name path := by
  -- No branch leads into what it carries.
  cases path with
  | nil => simp [FreeAt, at?]
  | cons branch rest => simp [FreeAt, at?_cons_ref]

/-- The free variables of an abstraction are those of its body that it does not bind. -/
theorem freeAt_lam_iff {binder : Name} {body : Term} :
    (lam binder body).FreeAt name path ↔
      ∃ rest, path = .body :: rest ∧ binder ≠ name ∧ body.FreeAt name rest := by
  -- The one branch leads into the body, past the binder.
  cases path with
  | nil => simp [FreeAt, at?]
  | cons branch rest =>
    cases branch with
    | body =>
      simp only [FreeAt, at?, bindersOn, List.mem_cons, not_or, List.cons.injEq, true_and,
        exists_eq_left']
      rw [and_left_comm, ne_comm]
    | _ => simp [FreeAt, at?]

/-- The free variables of an application are those of its function and of its argument. -/
theorem freeAt_app_iff {func arg : Term} :
    (app func arg).FreeAt name path ↔
      (∃ rest, path = .func :: rest ∧ func.FreeAt name rest) ∨
        ∃ rest, path = .arg :: rest ∧ arg.FreeAt name rest := by
  -- Each part has a branch of its own, and no binder comes between.
  cases path with
  | nil => simp [FreeAt, at?]
  | cons branch rest => cases branch <;> simp [FreeAt, at?, bindersOn]

/-- A name occurs free exactly if a variable of the name stands free somewhere. -/
theorem occursFree_iff : term.occursFree name ↔ ∃ path, term.FreeAt name path := by
  -- The positions in a part are those of the whole that its branch leads to.
  induction term with
  | var other => simp [occursFree, freeAt_var_iff]
  | lam binder body ih =>
    simp only [occursFree, Bool.and_eq_true, bne_iff_ne, ih, freeAt_lam_iff]
    constructor
    · rintro ⟨other, path, free⟩
      exact ⟨.body :: path, path, rfl, other, free⟩
    · rintro ⟨-, path, rfl, other, free⟩
      exact ⟨other, path, free⟩
  | app func arg funcIh argIh =>
    simp only [occursFree, Bool.or_eq_true, funcIh, argIh, freeAt_app_iff]
    constructor
    · rintro (⟨path, free⟩ | ⟨path, free⟩)
      · exact ⟨.func :: path, .inl ⟨path, rfl, free⟩⟩
      · exact ⟨.arg :: path, .inr ⟨path, rfl, free⟩⟩
    · rintro ⟨-, ⟨path, rfl, free⟩ | ⟨path, rfl, free⟩⟩
      · exact .inl ⟨path, free⟩
      · exact .inr ⟨path, free⟩
  | ref macroName resolved => simp [occursFree, not_freeAt_ref]

/-- The free names are the names that occur free. -/
theorem mem_freeNames : name ∈ term.freeNames ↔ term.occursFree name := by
  -- An abstraction takes its binder away on both sides.
  induction term with
  | var other =>
    simp only [freeNames, NameSet.mem_singleton, occursFree, beq_iff_eq]
    exact eq_comm
  | lam binder body ih =>
    simp only [freeNames, NameSet.mem_erase, ih, occursFree, Bool.and_eq_true, bne_iff_ne]
    rw [and_comm, ne_comm]
  | app func arg funcIh argIh => simp [freeNames, occursFree, funcIh, argIh]
  | ref macroName resolved => simp [freeNames, occursFree]

/-- A term has no free names exactly if it is closed. -/
theorem freeNames_eq_empty_iff : term.freeNames = ∅ ↔ term.Closed := by
  -- Both say of every name that it does not occur free.
  simp only [NameSet.eq_empty_iff, mem_freeNames, Closed, Bool.not_eq_true]

/-- The names are those of the variables and of the binders, wherever they stand. -/
theorem mem_names_iff :
    name ∈ term.names ↔ ∃ path, (term.at? path).map node = some (.var name) ∨
      (term.at? path).map node = some (.lam name) := by
  constructor
  · -- Each name is put there by a node, and the path to it is found in the term.
    intro member
    induction term with
    | var other =>
      obtain rfl := NameSet.mem_singleton.mp member
      exact ⟨[], .inl rfl⟩
    | lam binder body ih =>
      rcases NameSet.mem_union.mp member with atBinder | inBody
      · obtain rfl := NameSet.mem_singleton.mp atBinder
        exact ⟨[], .inr rfl⟩
      · obtain ⟨path, stands⟩ := ih inBody
        exact ⟨.body :: path, stands⟩
    | app func arg funcIh argIh =>
      rcases NameSet.mem_union.mp member with inFunc | inArg
      · obtain ⟨path, stands⟩ := funcIh inFunc
        exact ⟨.func :: path, stands⟩
      · obtain ⟨path, stands⟩ := argIh inArg
        exact ⟨.arg :: path, stands⟩
    | ref macroName resolved => exact absurd member (NameSet.not_mem_empty name)
  · -- The node at the end of a path puts its name among those of the term.
    rintro ⟨path, stands⟩
    fun_induction at? path term with
    | case1 term => cases term <;> simp_all [node, names]
    | case2 rest func arg ih => exact NameSet.mem_union.mpr (.inl (ih stands))
    | case3 rest func arg ih => exact NameSet.mem_union.mpr (.inr (ih stands))
    | case4 rest binder body ih => exact NameSet.mem_union.mpr (.inr (ih stands))
    | case5 => simp at stands

/-- The binders on any path are names of the term. -/
theorem mem_names_of_mem_bindersOn (member : name ∈ term.bindersOn path) : name ∈ term.names := by
  -- A path collects the binders of abstractions, which are names.
  fun_induction bindersOn path term with
  | case1 rest func arg ih => exact NameSet.mem_union.mpr (.inl (ih member))
  | case2 rest func arg ih => exact NameSet.mem_union.mpr (.inr (ih member))
  | case3 rest binder body ih =>
    rcases List.mem_cons.mp member with rfl | inBody
    · exact NameSet.mem_union.mpr (.inl (NameSet.mem_singleton.mpr rfl))
    · exact NameSet.mem_union.mpr (.inr (ih inBody))
  | case4 => contradiction

/-- A variable stands at a position that neither the term nor the given binders bind. -/
def UnboundAt (term : Term) (bound : List Name) (path : Path) : Prop :=
  ∃ name, name ∉ bound ∧ term.FreeAt name path

/-- What an abstraction leaves unbound is what its body leaves unbound below it. -/
theorem unboundAt_lam_iff {binder : Name} {body : Term} {bound : List Name} :
    (lam binder body).UnboundAt bound path ↔
      ∃ rest, path = .body :: rest ∧ body.UnboundAt (binder :: bound) rest := by
  -- The binder joins the given ones on the way down.
  simp only [UnboundAt, freeAt_lam_iff, List.mem_cons, not_or]
  constructor
  · rintro ⟨name, unbound, rest, rfl, distinct, free⟩
    exact ⟨rest, rfl, name, ⟨Ne.symm distinct, unbound⟩, free⟩
  · rintro ⟨rest, rfl, name, ⟨distinct, unbound⟩, free⟩
    exact ⟨name, unbound, rest, rfl, Ne.symm distinct, free⟩

/-- What an application leaves unbound is what its parts leave unbound. -/
theorem unboundAt_app_iff {func arg : Term} {bound : List Name} :
    (app func arg).UnboundAt bound path ↔
      (∃ rest, path = .func :: rest ∧ func.UnboundAt bound rest) ∨
        ∃ rest, path = .arg :: rest ∧ arg.UnboundAt bound rest := by
  -- The given binders are the same for both parts.
  simp only [UnboundAt, freeAt_app_iff]
  constructor
  · rintro ⟨name, unbound, ⟨rest, rfl, free⟩ | ⟨rest, rfl, free⟩⟩
    · exact .inl ⟨rest, rfl, name, unbound, free⟩
    · exact .inr ⟨rest, rfl, name, unbound, free⟩
  · rintro (⟨rest, rfl, name, unbound, free⟩ | ⟨rest, rfl, name, unbound, free⟩)
    · exact ⟨name, unbound, .inl ⟨rest, rfl, free⟩⟩
    · exact ⟨name, unbound, .inr ⟨rest, rfl, free⟩⟩

/-- The leftmost unbound variable is the first one that neither the term nor the
given binders bind. -/
theorem first_of_firstUnbound? {bound : List Name} (found : term.firstUnbound? bound = some name) :
    ∃ path, term.FreeAt name path ∧ Traversal.preorder.First (term.UnboundAt bound) path := by
  -- The search goes the way of the walk, with the binders that it has passed.
  induction term generalizing bound with
  | var other =>
    obtain ⟨unbound, rfl⟩ : other ∉ bound ∧ other = name := by simpa [firstUnbound?] using found
    have here : (var other).FreeAt other [] := freeAt_var_iff.mpr ⟨rfl, rfl⟩
    refine ⟨[], here, ⟨other, unbound, here⟩, ?_⟩
    rintro path ⟨free, -, isFree⟩
    exact .inl (freeAt_var_iff.mp isFree).1
  | lam binder body ih =>
    have inBody : body.firstUnbound? (binder :: bound) = some name := found
    obtain ⟨path, free, isFirst⟩ := ih inBody
    have spared := (occursFree_of_firstUnbound? inBody).2
    rw [List.mem_cons, not_or] at spared
    refine ⟨.body :: path, freeAt_lam_iff.mpr ⟨path, rfl, Ne.symm spared.1, free⟩, ?_⟩
    exact (isFirst.part .body).congr fun _ => unboundAt_lam_iff
  | app func arg funcIh argIh =>
    rcases Option.or_eq_some_iff.mp found with inFunc | ⟨missing, inArg⟩
    · -- All of the argument comes later.
      obtain ⟨path, free, isFirst⟩ := funcIh inFunc
      refine ⟨.func :: path, freeAt_app_iff.mpr (.inl ⟨path, rfl, free⟩), ?_⟩
      refine ((isFirst.part .func).or_left ?_).congr fun _ => unboundAt_app_iff
      rintro - ⟨rest, rfl, -⟩
      exact .sides .preorder path rest
    · obtain ⟨path, free, isFirst⟩ := argIh inArg
      refine ⟨.arg :: path, freeAt_app_iff.mpr (.inr ⟨path, rfl, free⟩), ?_⟩
      refine ((isFirst.part .arg).or_right ?_).congr fun _ => unboundAt_app_iff
      -- The search would have ended in the function.
      rintro - ⟨rest, rfl, other, unbound, inFunc⟩
      exact unbound (mem_of_firstUnbound?_eq_none missing (occursFree_iff.mpr ⟨rest, inFunc⟩))
  | ref macroName resolved => simp [firstUnbound?] at found

/-- The leftmost free variable is the one that a walk meets first. -/
theorem firstFree?_eq_some_iff :
    term.firstFree? = some name ↔ ∃ path, term.FreeAt name path ∧
      Traversal.preorder.First (fun other => ∃ free, term.FreeAt free other) path := by
  -- The search answers a first position, and there is only one.
  have leftmost : ∀ found, term.firstFree? = some found → ∃ path, term.FreeAt found path ∧
      Traversal.preorder.First (fun other => ∃ free, term.FreeAt free other) path := by
    intro found isFound
    obtain ⟨path, free, isFirst⟩ := first_of_firstUnbound? isFound
    exact ⟨path, free, isFirst.congr fun other => by simp [UnboundAt]⟩
  refine ⟨leftmost name, ?_⟩
  rintro ⟨path, free, isFirst⟩
  cases searched : term.firstFree? with
  | none =>
    have closed := firstFree?_eq_none_iff.mp searched name
    rw [occursFree_iff.mpr ⟨path, free⟩] at closed
    contradiction
  | some found =>
    -- There is one first position only, and one variable at it.
    obtain ⟨other, otherFree, otherFirst⟩ := leftmost found searched
    obtain rfl := isFirst.unique otherFirst
    have same := free.1.symm.trans otherFree.1
    simp only [Option.some.injEq, var.injEq] at same
    rw [same]

/-- The names that occur free are the free names, which are those of the variables that no
abstraction around them binds; the leftmost free variable is the first of these variables; a term
without free names is a closed one; and the free names are among the names of variables and binders.
A reference has none of them. -/
theorem freeNames_agree (term : Term) :
    (∀ name, term.occursFree name ↔ name ∈ term.freeNames) ∧
      (∀ name, name ∈ term.freeNames ↔ ∃ path, term.FreeAt name path) ∧
      (∀ name, term.firstFree? = some name ↔ ∃ path, term.FreeAt name path ∧
        Traversal.preorder.First (fun other => ∃ free, term.FreeAt free other) path) ∧
      (term.firstFree? = none ↔ term.freeNames = ∅) ∧ (term.isClosed ↔ term.freeNames = ∅) ∧
      (∀ name ∈ term.freeNames, name ∈ term.names) ∧
      (∀ name, name ∈ term.names ↔ ∃ path, (term.at? path).map node = some (.var name) ∨
        (term.at? path).map node = some (.lam name)) ∧
      ∀ macroName resolved, (∀ name, (ref macroName resolved).occursFree name = false) ∧
        (ref macroName resolved).freeNames = ∅ ∧ (ref macroName resolved).names = ∅ ∧
          (ref macroName resolved).firstFree? = none ∧ (ref macroName resolved).isClosed := by
  -- Each query has been compared with the positions of the variables; a reference has
  -- none by definition.
  have closed : term.firstFree? = none ↔ term.freeNames = ∅ :=
    firstFree?_eq_none_iff.trans freeNames_eq_empty_iff.symm
  refine ⟨fun name => mem_freeNames.symm, fun name => mem_freeNames.trans occursFree_iff,
    fun name => firstFree?_eq_some_iff, closed, ?_, ?_, fun name => mem_names_iff,
    fun macroName resolved => ⟨fun name => rfl, rfl, rfl, rfl, rfl⟩⟩
  · rw [isClosed, Option.isNone_iff_eq_none]
    exact closed
  · exact fun name free => mem_names_of_occursFree (mem_freeNames.mp free)

/-- A name that is bound at its first occurrence and free at a later one. -/
example :
    let term := app (lam "x" (app (var "x") (var "y"))) (var "x")
    term.occursFree "x" ∧ term.firstFree? = some "y" := by
  decide

end NamedLambda.Term
