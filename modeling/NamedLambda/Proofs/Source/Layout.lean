import Mathlib.Logic.Relation
import NamedLambda.Proofs.Source.Words

/-! Blanks between words and the choice of a lambda sign leave the words of a text as they are. -/

namespace NamedLambda

/-- A run of characters of a class ends where a character of another class follows. -/
theorem head?_dropWhile (inClass : Char → Bool) (chars : List Char) :
    ∀ c ∈ (chars.dropWhile inClass).head?, inClass c = false := by
  -- The rest begins with the first character outside of the class.
  have ended := List.head?_dropWhile_not inClass chars
  intro c found
  rw [Option.mem_def.mp found] at ended
  simpa using ended

/-- Characters that begin like a name are one with something behind it that does not go on in it. -/
theorem exists_name_prefix {c : Char} (start : isIdentStart c) (rest : List Char) :
    ∃ (name : Name) (remains : List Char), c :: rest = name.toList ++ remains ∧
      isIdentifier name ∧ ∀ d ∈ remains.head?, isIdentChar d = false := by
  -- The name is the longest run of characters that can go on in one.
  refine ⟨String.ofList ((c :: rest).takeWhile isIdentChar), (c :: rest).dropWhile isIdentChar, ?_,
    isIdentifier_takeWhile start rest, head?_dropWhile isIdentChar (c :: rest)⟩
  rw [String.toList_ofList, List.takeWhile_append_dropWhile]

/-- No name can run on from characters into those that follow them. -/
def Detached (before after : List Char) : Prop :=
  (∀ c ∈ before.getLast?, isIdentChar c = false) ∨ ∀ c ∈ after.head?, isIdentChar c = false

/-- What comes further in front does not matter to names that run on. -/
theorem Detached.of_append (first : List Char) {before after : List Char}
    (apart : Detached (first ++ before) after) : Detached before after := by
  -- The last character in front stays the last.
  refine apart.imp_left (fun ends c last => ends c ?_)
  rw [List.getLast?_append, Option.mem_def.mp last]
  rfl

/-- Behind characters of a name none follows that could go on in it. -/
theorem Detached.ends {before after : List Char} (apart : Detached before after)
    (nonempty : before ≠ []) (all : ∀ c ∈ before, isIdentChar c) :
    ∀ c ∈ after.head?, isIdentChar c = false := by
  -- The last character in front could go on in a name.
  refine apart.resolve_left (fun ends => ?_)
  have last := ends (before.getLast nonempty) (List.getLast?_eq_some_getLast nonempty)
  rw [all _ (List.getLast_mem nonempty)] at last
  contradiction

/-- The characters make the same words wherever they stand, or none at all. -/
def SameWords (left right : List Char) : Prop :=
  ∀ offset other : Nat,
    (Lexer.words ⟨left, offset⟩).toOption = (Lexer.words ⟨right, other⟩).toOption

namespace SameWords

/-- Making the same words goes both ways. -/
theorem symm {left right : List Char} (same : SameWords left right) : SameWords right left :=
  fun offset other => (same other offset).symm

/-- Characters that make the same words as some in between make the same as each other. -/
theorem trans {left middle right : List Char} (first : SameWords left middle)
    (second : SameWords middle right) : SameWords left right :=
  fun offset other => (first offset 0).trans (second 0 other)

/-- A blank in front on both sides leaves the words the same. -/
theorem blank {left right : List Char} (same : SameWords left right) {c : Char}
    (blank : isBlank c) : SameWords (c :: left) (c :: right) := by
  -- It separates nothing that comes before.
  intro offset other
  rw [Lexer.words_blank blank, Lexer.words_blank blank]
  exact same _ _

/-- Signs for the same token in front on both sides leave the words the same. -/
theorem sign {left right : List Char} (same : SameWords left right) {c d : Char} {token : Token}
    (sign : Token.ofSign? c = some token) (otherSign : Token.ofSign? d = some token) :
    SameWords (c :: left) (d :: right) := by
  -- Both signs are cut off as the same word, and the rests make the same words further on.
  intro offset other
  rw [Lexer.words_sign sign, Lexer.words_sign otherSign]
  have rests := same (offset + 1) (other + 1)
  cases first : Lexer.words ⟨left, offset + 1⟩ <;>
    cases second : Lexer.words ⟨right, other + 1⟩ <;>
      simp_all [Except.map, Except.toOption]

/-- A name in front on both sides leaves the words the same, where it ends there. -/
theorem ident {left right : List Char} (same : SameWords left right) {name : Name}
    (identifier : isIdentifier name) (ends : ∀ c ∈ left.head?, isIdentChar c = false)
    (otherEnds : ∀ c ∈ right.head?, isIdentChar c = false) :
    SameWords (name.toList ++ left) (name.toList ++ right) := by
  -- The name ends where the rest begins, so on both sides it is cut off as one word.
  intro offset other
  rw [Lexer.words_ident identifier left ends, Lexer.words_ident identifier right otherEnds]
  have rests := same (offset + name.toList.length) (other + name.toList.length)
  cases first : Lexer.words ⟨left, offset + name.toList.length⟩ <;>
    cases second : Lexer.words ⟨right, other + name.toList.length⟩ <;>
      simp_all [Except.map, Except.toOption]

/-- A character that begins no word spoils whatever follows it. -/
theorem unexpected {c : Char} (noStart : isIdentStart c = false) (noBlank : isBlank c = false)
    (noSign : Token.ofSign? c = none) (left right : List Char) :
    SameWords (c :: left) (c :: right) := by
  -- Where it stands no words are made on either side.
  have spoils (rest : List Char) (offset : Nat) :
      Lexer.next ⟨c :: rest, offset⟩ = .unexpected c := by
    simp [Lexer.next, noStart, noBlank, noSign]
  intro offset other
  rw [Lexer.words_of_unexpected (spoils left offset),
    Lexer.words_of_unexpected (spoils right other)]
  rfl

/-- Characters that make the same words do so behind any others, where no name runs on into them. -/
theorem append {left right : List Char} (same : SameWords left right) (before : List Char)
    (apart : Detached before left) (otherApart : Detached before right) :
    SameWords (before ++ left) (before ++ right) := by
  -- One word or blank after the other is taken from the characters in front.
  induction size : before.length using Nat.strongRecOn generalizing before with
  | ind length ih =>
    cases before with
    | nil => exact same
    | cons c rest =>
      have shorter : rest.length < length := by
        rw [List.length_cons] at size
        omega
      cases start : isIdentStart c with
      | true =>
        -- A character that begins a name begins the longest name in front.
        obtain ⟨name, remains, split, identifier, ends⟩ := exists_name_prefix start rest
        obtain ⟨first, others, spelled, -, all⟩ := isIdentifier_iff.mp identifier
        have nonempty : name.toList ≠ [] := by simp [spelled]
        rw [split] at apart otherApart size ⊢
        cases remains with
        | nil =>
          -- The name goes up to the end of the characters in front.
          rw [List.append_nil] at apart otherApart ⊢
          exact same.ident identifier (apart.ends nonempty all) (otherApart.ends nonempty all)
        | cons d more =>
          -- The name ends among the characters in front, and others are left of them.
          have positive := List.length_pos_iff.mpr nonempty
          rw [List.length_append] at size
          rw [List.append_assoc, List.append_assoc]
          have later := ih _ (by omega) (d :: more) (apart.of_append _) (otherApart.of_append _) rfl
          exact later.ident identifier ends ends
      | false =>
        cases separates : isBlank c with
        | true =>
          -- A blank is taken off by itself.
          exact (ih rest.length shorter rest (Detached.of_append [c] apart)
            (Detached.of_append [c] otherApart) rfl).blank separates
        | false =>
          cases found : Token.ofSign? c with
          -- Any other character is a sign, or it spoils what follows on both sides.
          | none => exact unexpected start separates found _ _
          | some token =>
            exact (ih rest.length shorter rest (Detached.of_append [c] apart)
              (Detached.of_append [c] otherApart) rfl).sign found found

end SameWords

/-- One change of the layout of a text, or of a lambda sign in it. -/
inductive Relaid : List Char → List Char → Prop where
  /-- A blank more, at either end of the text or where no name runs on. -/
  | blank {before after : List Char} {c : Char} (blank : isBlank c)
    (apart : Detached before after) : Relaid (before ++ after) (before ++ c :: after)
  /-- One lambda sign in place of another. -/
  | lambda (before after : List Char) {c d : Char} (sign : Token.ofSign? c = some .lambda)
    (other : Token.ofSign? d = some .lambda) : Relaid (before ++ c :: after) (before ++ d :: after)

/-- Characters make the same words at any offset. -/
theorem SameWords.refl (chars : List Char) : SameWords chars chars := by
  -- The end of a text makes the same words wherever it stands.
  have ended : SameWords [] [] := by
    intro offset other
    rw [Lexer.words_of_finished rfl, Lexer.words_of_finished rfl]
  simpa using ended.append chars (.inr (by simp)) (.inr (by simp))

/-- One change of the layout leaves the words the same. -/
theorem Relaid.sameWords {left right : List Char} (relaid : Relaid left right) :
    SameWords left right := by
  -- The change is made right behind the characters in front, which stand apart from it.
  cases relaid with
  | @blank before after c blank apart =>
    -- The blank itself makes no word.
    have one : SameWords after (c :: after) := by
      intro offset other
      rw [Lexer.words_blank blank]
      exact SameWords.refl after offset (other + 1)
    refine one.append before apart (.inr ?_)
    simpa using isIdentChar_eq_false_of_isBlank blank
  | lambda before after sign other =>
    -- Both signs stand for the same token, and neither goes on in a name.
    refine ((SameWords.refl after).sign sign other).append before (.inr ?_) (.inr ?_)
    · simpa using (Token.of_ofSign? sign).2.1
    · simpa using (Token.of_ofSign? other).2.1

/-- Any number of such changes leaves the words of a text as they are. -/
theorem sameWords_of_relaid {left right : List Char} (relaid : Relation.EqvGen Relaid left right) :
    SameWords left right := by
  -- Changes can be undone and made one after the other.
  induction relaid with
  | rel left right one => exact one.sameWords
  | refl chars => exact .refl chars
  | symm left right _ ih => exact ih.symm
  | trans left middle right _ _ ih later => exact ih.trans later

end NamedLambda
