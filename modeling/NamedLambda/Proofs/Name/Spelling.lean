import NamedLambda.Name.Macro
import NamedLambda.Proofs.Name.Search
import NamedLambda.Proofs.Source.Words

/-! A fresh name begins like the name it is made from and is spelled in the same way. -/

namespace NamedLambda

/-- Whether characters begin with one of a kind and go on with characters of another. -/
def headThen (start inner : Char → Bool) : List Char → Bool
  | [] => false
  | first :: rest => start first && rest.all inner

/-- An identifier is spelled with characters of two kinds. -/
theorem isIdentifier_eq (name : Name) :
    isIdentifier name = headThen isIdentStart isIdentChar name.toList := by
  -- Both look at the first character and at all that follow.
  unfold isIdentifier headThen
  cases name.toList <;> rfl

/-- A macro name is spelled with characters of two other kinds. -/
theorem isMacroName_eq (name : Name) :
    isMacroName name = headThen Char.isUpper isMacroNameChar name.toList := by
  -- Both look at the first character and at all that follow.
  unfold isMacroName headThen
  cases name.toList <;> rfl

section

variable {start inner : Char → Bool}

/-- Digits begin nothing that begins with another kind of character. -/
theorem headThen_digits (opens : ∀ c, c.isDigit → start c = false) {digits : List Char}
    (each : ∀ c ∈ digits, c.isDigit) : headThen start inner digits = false := by
  -- If there are digits at all, it is one of them that comes first.
  cases digits with
  | nil => rfl
  | cons first rest => rw [headThen, opens first (each first List.mem_cons_self), Bool.false_and]

/-- Digits at the end make no difference where digits can go on. -/
theorem headThen_append_digits (goes : ∀ c, c.isDigit → inner c) {stem digits : List Char}
    (nonempty : stem ≠ []) (each : ∀ c ∈ digits, c.isDigit) :
    headThen start inner (stem ++ digits) = headThen start inner stem := by
  -- The stem has the first character, and the digits are among those that follow it.
  obtain ⟨first, rest, rfl⟩ := List.exists_cons_of_ne_nil nonempty
  have all : digits.all inner = true :=
    List.all_eq_true.mpr (fun c member => goes c (each c member))
  rw [List.cons_append, headThen, List.all_append, all, Bool.and_true, headThen]

end

/-- A fresh name is its stem with digits behind it. -/
theorem exists_toList_freshName (base : Name) (avoid : NameSet) :
    ∃ digits : List Char, (∀ c ∈ digits, c.isDigit) ∧
      (freshName base avoid).toList = (nameStem base).toList ++ digits := by
  -- The search goes through numbers only.
  obtain ⟨steps, -, ends⟩ := searches_firstUnused (freshName_not_mem base avoid)
  obtain ⟨number, -, found, -⟩ := ends.passes
  refine ⟨number.repr.toList, ?_, ?_⟩
  · -- A number is written in digits.
    intro c member
    rw [Nat.repr, String.toList_ofList] at member
    exact Nat.isDigit_of_mem_toDigits (by decide) (by decide) member
  · rw [freshName, found, numberedName, String.toList_append]

/-- A fresh name is spelled in a way in which digits can go on but not begin exactly when the name
it is made from is. -/
theorem headThen_freshName {start inner : Char → Bool} (opens : ∀ c, c.isDigit → start c = false)
    (goes : ∀ c, c.isDigit → inner c) (base : Name) (avoid : NameSet) :
    headThen start inner (freshName base avoid).toList = headThen start inner base.toList := by
  -- Name and fresh name begin with the same stem.
  obtain ⟨fresh, freshDigits, freshList⟩ := exists_toList_freshName base avoid
  have stems := isStem_nameStem base
  generalize nameStem base = stem at freshList stems
  cases stems with
  | @cut _ digits together each kept =>
    -- Digits are cut off or put on behind a stem that is not empty.
    have nonempty : stem.toList ≠ [] := by
      intro empty
      simp [empty] at kept
    rw [freshList, together, headThen_append_digits goes nonempty freshDigits,
      headThen_append_digits goes nonempty each]
  | whole each =>
    -- Digits followed by digits are digits.
    rw [freshList, headThen_digits opens each, headThen_digits opens]
    exact List.forall_mem_append.mpr ⟨each, freshDigits⟩

/-- A fresh name can be written in a source text exactly when the name it is made from can. -/
theorem isIdentifier_freshName (base : Name) (avoid : NameSet) :
    isIdentifier (freshName base avoid) = isIdentifier base := by
  -- Digits can go on in an identifier and are no letters.
  rw [isIdentifier_eq, isIdentifier_eq]
  refine headThen_freshName ?_ ?_ base avoid
  · exact fun c digit => isIdentStart_eq_false_of_isDigit digit
  · exact fun c digit => isIdentChar_of_isDigit digit

/-- A fresh name is a macro name exactly when the name it is made from is one. -/
theorem isMacroName_freshName (base : Name) (avoid : NameSet) :
    isMacroName (freshName base avoid) = isMacroName base := by
  -- Digits can go on in a macro name and are no capitals.
  rw [isMacroName_eq, isMacroName_eq]
  refine headThen_freshName ?_ ?_ base avoid
  · -- A capital would be a letter.
    intro c digit
    have noLetter := isAlpha_eq_false_of_isDigit digit
    exact (Bool.or_eq_false_iff.mp noLetter).1
  · intro c digit
    simp [isMacroNameChar, digit]

/-- A capital is a letter. -/
theorem isAlpha_of_isUpper {c : Char} (upper : c.isUpper) : c.isAlpha := by
  -- Letters are capitals or small ones.
  change (c.isUpper || c.isLower) = true
  rw [upper, Bool.true_or]

/-- A macro name can be written in a source text. -/
theorem isIdentifier_of_isMacroName {name : Name} (named : isMacroName name) :
    isIdentifier name := by
  -- Capitals begin identifiers, and capitals, digits and underscores go on in them.
  unfold isMacroName at named
  unfold isIdentifier
  cases spelled : name.toList with
  | nil => simp [spelled] at named
  | cons first rest =>
    simp only [spelled, Bool.and_eq_true, List.all_eq_true] at named ⊢
    refine ⟨by simp [isIdentStart, isAlpha_of_isUpper named.1], fun c member => ?_⟩
    have inside := named.2 c member
    simp only [isMacroNameChar, Bool.or_eq_true] at inside
    simp only [isIdentChar, Char.isAlphanum, Bool.or_eq_true]
    exact inside.imp_left (Or.imp_left isAlpha_of_isUpper)

end NamedLambda
