import Mathlib.Order.Bounds.Basic
import NamedLambda.Proofs.Source.Layout

/-! A text is cut into tokens up to its first illegal character, or as a whole without one. -/

namespace NamedLambda

/-- Whether a character can stand anywhere in a source text. -/
def isSourceChar (c : Char) : Bool :=
  ['λ', '\\', '/', '|', '.', '(', ')', '=', '_'].contains c || c.isAlphanum || isBlank c

/-- A character does not fit behind others if no source text has it, or if it is a digit that goes
on with no name. -/
def Misfits (before : List Char) (c : Char) : Prop :=
  isSourceChar c = false ∨ c.isDigit ∧ ∀ d ∈ before.getLast?, isIdentChar d = false

/-- The character at a position does not fit behind those before it. -/
def IllegalAt (chars : List Char) (position : Nat) : Prop :=
  ∃ c, chars[position]? = some c ∧ Misfits (chars.take position) c

/-- No position is illegal. -/
def Legal (chars : List Char) : Prop :=
  ∀ position, ¬IllegalAt chars position

section

variable {c : Char}

/-- The characters of names are letters, digits and underscores. -/
theorem isSourceChar_of_isIdentChar (inside : isIdentChar c) : isSourceChar c := by
  -- The underscore is listed, and the others are letters and digits.
  simp only [isIdentChar, Bool.or_eq_true, beq_iff_eq] at inside
  rcases inside with inside | rfl
  · simp [isSourceChar, inside]
  · decide

/-- A name does not begin with a digit. -/
theorem isDigit_eq_false_of_isIdentStart (start : isIdentStart c) : c.isDigit = false := by
  -- A digit goes on in names and begins none.
  rw [Bool.eq_false_iff]
  intro digit
  rw [isIdentStart_eq_false_of_isDigit digit] at start
  contradiction

/-- What cannot go on in a name is no digit. -/
theorem isDigit_eq_false_of_isIdentChar (outside : isIdentChar c = false) : c.isDigit = false := by
  -- Every digit could go on in one.
  rw [Bool.eq_false_iff]
  intro digit
  rw [isIdentChar_of_isDigit digit] at outside
  contradiction

/-- A source text has all signs. -/
theorem isSourceChar_of_ofSign? {token : Token} (sign : Token.ofSign? c = some token) :
    isSourceChar c := by
  -- There are eight signs.
  unfold Token.ofSign? at sign
  split at sign <;> first | contradiction | decide

/-- A character of a source text that begins no token is a digit. -/
theorem isDigit_of_isSourceChar (known : isSourceChar c) (noStart : isIdentStart c = false)
    (noBlank : isBlank c = false) (noSign : Token.ofSign? c = none) : c.isDigit := by
  simp only [isSourceChar, noBlank, Char.isAlphanum, Bool.or_false, Bool.or_eq_true] at known
  simp only [isIdentStart, Bool.or_eq_false_iff] at noStart
  rcases known with listed | letter | digit
  · -- All characters of the list begin tokens.
    simp only [List.contains_eq_mem, List.mem_cons, List.not_mem_nil, or_false,
      decide_eq_true_eq] at listed
    rcases listed with rfl | rfl | rfl | rfl | rfl | rfl | rfl | rfl | rfl <;>
      first | exact absurd noSign (by decide) | exact absurd noStart.2 (by decide)
  · -- A letter would begin a name.
    rw [noStart.1] at letter
    contradiction
  · exact digit

end

section

variable {before rest : List Char} {c : Char} {position : Nat}

/-- What comes behind a position does not matter to it. -/
theorem illegalAt_append (inside : position < before.length) :
    IllegalAt (before ++ rest) position ↔ IllegalAt before position := by
  -- Both the character and those before it are in the first part.
  rw [IllegalAt, IllegalAt, List.getElem?_append_left inside,
    List.take_append_of_le_length (Nat.le_of_lt inside)]

/-- A character is illegal if it does not fit behind those before it. -/
theorem illegalAt_append_cons :
    IllegalAt (before ++ c :: rest) before.length ↔ Misfits before c := by
  -- It stands at the position, and those before it are the ones in front.
  simp [IllegalAt]

/-- The first illegal character is one that does not fit behind legal ones. -/
theorem isLeast_illegalAt (legal : Legal before) (misfits : Misfits before c) :
    IsLeast {position | IllegalAt (before ++ c :: rest) position} before.length := by
  -- An earlier one would be illegal among the characters before.
  refine ⟨illegalAt_append_cons.mpr misfits, fun other illegal => ?_⟩
  refine Nat.le_of_not_lt (fun earlier => ?_)
  exact legal other ((illegalAt_append earlier).mp illegal)

/-- A text without characters is legal. -/
theorem legal_nil : Legal [] := by
  -- There is no character at any position.
  rintro position ⟨c, found, -⟩
  simp at found

/-- One more character is legal if it fits. -/
theorem Legal.concat (legal : Legal before) (fits : ¬Misfits before c) : Legal (before ++ [c]) := by
  -- An illegal position would be one of those before, or that of the new character.
  intro position illegal
  have place : position < (before ++ [c]).length := by
    obtain ⟨d, found, -⟩ := illegal
    exact (List.getElem?_eq_some_iff.mp found).1
  rw [List.length_append, List.length_singleton] at place
  rcases Nat.lt_succ_iff_lt_or_eq.mp place with earlier | last
  · exact legal position ((illegalAt_append earlier).mp illegal)
  · subst last
    exact fits (illegalAt_append_cons.mp illegal)

/-- Characters of source texts are legal behind others if they are no digits. -/
theorem Legal.append_of_isSourceChar (legal : Legal before) {run : List Char}
    (plain : ∀ c ∈ run, isSourceChar c ∧ c.isDigit = false) : Legal (before ++ run) := by
  -- Each of them fits behind anything.
  induction run generalizing before with
  | nil => rwa [List.append_nil]
  | cons c run ih =>
    obtain ⟨⟨known, noDigit⟩, later⟩ := List.forall_mem_cons.mp plain
    rw [List.append_cons]
    exact ih (legal.concat (by simp [Misfits, known, noDigit])) later

/-- What goes on in a name is legal behind a part of it. -/
theorem Legal.append_of_isIdentChar (legal : Legal before)
    (inName : ∃ d ∈ before.getLast?, isIdentChar d) {run : List Char}
    (goesOn : ∀ c ∈ run, isIdentChar c) : Legal (before ++ run) := by
  -- Every character of the run is part of the name for the next one.
  induction run generalizing before with
  | nil => rwa [List.append_nil]
  | cons c run ih =>
    obtain ⟨inside, later⟩ := List.forall_mem_cons.mp goesOn
    obtain ⟨d, last, part⟩ := inName
    have fits : ¬Misfits before c := by
      rintro (unknown | ⟨-, apart⟩)
      · simp [isSourceChar_of_isIdentChar inside] at unknown
      · simp [apart d last] at part
    rw [List.append_cons]
    exact ih (legal.concat fits) ⟨c, by simp, inside⟩ later

end

namespace Lexer

/-- A lexer has come to a place of a text behind legal characters, and no name runs on over it. -/
structure Reaches (chars before : List Char) (lexer : Lexer) : Prop where
  /-- The text is what comes before the place and what is left. -/
  split : chars = before ++ lexer.rest
  /-- The characters before the place are counted. -/
  counted : lexer.offset = before.length
  /-- They are legal. -/
  legal : Legal before
  /-- No name runs on. -/
  apart : Detached before lexer.rest

namespace Reaches

variable {chars before : List Char} {lexer after : Lexer}

/-- Behind a legal run of a class a lexer has come to its end. -/
theorem skipWhile (reaches : Reaches chars before lexer) (inClass : Char → Bool)
    (legal : Legal (before ++ lexer.rest.takeWhile inClass))
    (apart : Detached (before ++ lexer.rest.takeWhile inClass)
      (lexer.rest.dropWhile inClass)) :
    Reaches chars (before ++ lexer.rest.takeWhile inClass) (lexer.skipWhile inClass) where
  -- The run goes over from what is left to what comes before.
  split := by
    rw [reaches.split, Lexer.skipWhile, List.append_assoc, List.takeWhile_append_dropWhile]
  counted := by
    rw [Lexer.skipWhile, reaches.counted, List.length_append]
  legal := legal
  apart := apart

/-- A token that is found is legal. -/
theorem token {token : Token} (reaches : Reaches chars before lexer)
    (found : lexer.next = .token token after) : ∃ passed, Reaches chars passed after := by
  -- The token is a name or a sign.
  have finds := finds_next lexer
  rw [found] at finds
  cases finds with
  | @name c rest offset start =>
    have inside := isIdentChar_of_isIdentStart start
    have run : (c :: rest).takeWhile isIdentChar = c :: rest.takeWhile isIdentChar := by
      simp [inside]
    -- The first letter fits anywhere, and the others fit behind it.
    have first : Legal (before ++ [c]) :=
      reaches.legal.concat (by
        simp [Misfits, isSourceChar_of_isIdentChar inside, isDigit_eq_false_of_isIdentStart start])
    have legal : Legal (before ++ (c :: rest).takeWhile isIdentChar) := by
      rw [run, List.append_cons]
      exact first.append_of_isIdentChar ⟨c, by simp, inside⟩
        (fun d member => List.all_eq_true.mp List.all_takeWhile d member)
    exact ⟨_, reaches.skipWhile isIdentChar legal (.inr (head?_dropWhile isIdentChar _))⟩
  | @sign c rest offset _ sign =>
    -- A sign is one legal character, and no name goes on with it.
    obtain ⟨-, outside, -, -⟩ := Token.of_ofSign? sign
    refine ⟨before ++ [c], ?_, ?_, ?_, ?_⟩
    · rw [reaches.split, ← List.append_cons]
    · rw [List.length_append, List.length_singleton, ← reaches.counted]
    · exact reaches.legal.concat (by
        simp [Misfits, isSourceChar_of_ofSign? sign, isDigit_eq_false_of_isIdentChar outside])
    · exact .inl (by simpa using outside)

/-- A run of blanks is legal. -/
theorem blanks (reaches : Reaches chars before lexer) (found : lexer.next = .blanks after) :
    ∃ passed, Reaches chars passed after := by
  have finds := finds_next lexer
  rw [found] at finds
  cases finds with
  | @blanks c rest offset blank =>
    have all : ∀ d ∈ (c :: rest).takeWhile isBlank, isBlank d :=
      fun d member => List.all_eq_true.mp List.all_takeWhile d member
    -- Blanks are characters of source texts and no digits.
    have legal : Legal (before ++ (c :: rest).takeWhile isBlank) := by
      refine reaches.legal.append_of_isSourceChar (fun d member => ?_)
      have outside := isIdentChar_eq_false_of_isBlank (all d member)
      exact ⟨by simp [isSourceChar, all d member], isDigit_eq_false_of_isIdentChar outside⟩
    refine ⟨_, reaches.skipWhile isBlank legal (.inl ?_)⟩
    -- The run ends with a blank, with which no name goes on.
    intro d last
    have nonempty : (c :: rest).takeWhile isBlank ≠ [] := by simp [blank]
    rw [List.getLast?_append, List.getLast?_eq_some_getLast nonempty, Option.some_or] at last
    obtain rfl := Option.some.inj last
    exact isIdentChar_eq_false_of_isBlank (all _ (List.getLast_mem nonempty))

/-- A character that begins no token does not fit behind those before it. -/
theorem misfits (reaches : Reaches chars before lexer) {c : Char}
    (found : lexer.next = .unexpected c) : ∃ rest, lexer.rest = c :: rest ∧ Misfits before c := by
  have finds := finds_next lexer
  rw [found] at finds
  cases finds with
  | @unexpected c rest offset noStart noBlank noSign =>
    -- It is unknown to source texts, or else a digit.
    refine ⟨rest, rfl, ?_⟩
    cases known : isSourceChar c with
    | false => exact .inl known
    | true =>
      -- A digit could go on in a name, so there is none before it.
      have digit := isDigit_of_isSourceChar known noStart noBlank noSign
      refine .inr ⟨digit, reaches.apart.resolve_right (fun ends => ?_)⟩
      have outside := ends c rfl
      rw [isIdentChar_of_isDigit digit] at outside
      contradiction

end Reaches

/-- A lexer comes to a stop behind a legal text, or before the first illegal character. -/
inductive Stops (chars : List Char) : Except LexError (List Token) × Lexer → Prop where
  /-- There is no illegal character. -/
  | behind {tokens : List Token} (legal : Legal chars) :
      Stops chars (.ok tokens, ⟨[], chars.length⟩)
  /-- The lexer stays where the first one is. -/
  | before {before rest : List Char} {c : Char} (split : chars = before ++ c :: rest)
      (legal : Legal before) (misfits : Misfits before c)
      (stays : next ⟨c :: rest, before.length⟩ = .unexpected c) :
      Stops chars (.error ⟨c, before.length⟩, ⟨c :: rest, before.length⟩)

/-- What becomes of the tokens does not matter to the place where a lexer stops. -/
theorem Stops.map {chars : List Char} {outcome : Except LexError (List Token)} {lexer : Lexer}
    (stops : Stops chars (outcome, lexer)) (change : List Token → List Token) :
    Stops chars (outcome.map change, lexer) := by
  -- The change leaves errors and the lexer as they are.
  cases stops with
  | behind legal => exact .behind legal
  | before split legal misfits stays => exact .before split legal misfits stays

/-- From any place behind legal characters a lexer goes on to where it has to stop. -/
theorem stops_tokensAfter {chars before : List Char} {wordEnded : Bool} {lexer : Lexer}
    (reaches : Reaches chars before lexer) : Stops chars (tokensAfter wordEnded lexer) := by
  -- A token or a run of blanks takes the lexer further, and anything else stops it.
  fun_induction tokensAfter wordEnded lexer generalizing before with
  | case1 wordEnded lexer found =>
    -- At the end of the text all characters have been legal.
    have finds := finds_next lexer
    rw [found] at finds
    cases finds with
    | finished offset =>
      obtain ⟨split, counted, legal, -⟩ := reaches
      rw [List.append_nil] at split
      subst split counted
      exact .behind legal
  | case2 wordEnded lexer c found =>
    -- What begins no token is the first illegal character.
    obtain ⟨rest, remains, misfits⟩ := reaches.misfits found
    obtain ⟨split, counted, legal, -⟩ := reaches
    obtain ⟨_, offset⟩ := lexer
    subst remains counted
    exact .before split legal misfits found
  | case3 wordEnded lexer after found shorter later =>
    rename_i ih
    -- Behind blanks or a token the lexer goes on from a place of the same kind.
    obtain ⟨passed, further⟩ := reaches.blanks found
    cases wordEnded with
    | true => exact (ih further).map _
    | false => exact ih further
  | case4 wordEnded lexer token after found shorter later =>
    rename_i ih
    obtain ⟨passed, further⟩ := reaches.token found
    exact (ih further).map _

/-- A lexer that stays where it stops goes on to give the same outcome. -/
theorem tokenizeTimes_of_stays {lexer : Lexer} {outcome : Except LexError (List Token)}
    (stays : lexer.tokenize = (outcome, lexer)) (times : Nat) :
    tokenizeTimes times lexer = List.replicate times outcome := by
  -- Each call leaves the lexer where it found it.
  induction times with
  | zero => rfl
  | succ times ih => rw [tokenizeTimes, stays, ih, List.replicate_succ]

/-- A lexer at the beginning of a text comes to a stop. -/
theorem stops_tokenize (text : String) : Stops text.toList (ofText text).tokenize :=
  -- Nothing comes before the beginning.
  stops_tokensAfter ⟨rfl, rfl, legal_nil, .inl (by simp)⟩

namespace Stops

variable {chars : List Char} {outcome : Except LexError (List Token)} {lexer : Lexer}

/-- A lexer that stops with tokens has come through a legal text. -/
theorem exists_ok_iff (stops : Stops chars (outcome, lexer)) :
    (∃ tokens, outcome = .ok tokens) ↔ Legal chars := by
  -- Either the text is legal and there are tokens, or neither is so.
  cases stops with
  | @behind tokens legal => exact ⟨fun _ => legal, fun _ => ⟨tokens, rfl⟩⟩
  | before split legal misfits stays =>
    subst split
    exact ⟨nofun, fun all => absurd (illegalAt_append_cons.mpr misfits) (all _)⟩

/-- A lexer that stops with an error names the first illegal position and its character. -/
theorem eq_error_iff (stops : Stops chars (outcome, lexer)) (error : LexError) :
    outcome = .error error ↔
      IsLeast {position | IllegalAt chars position} error.offset ∧
        chars[error.offset]? = some error.found := by
  cases stops with
  -- A legal text has no illegal position and no error.
  | behind legal => exact ⟨nofun, fun ⟨least, _⟩ => absurd least.1 (legal _)⟩
  | @before before rest c split legal misfits stays =>
    subst split
    have least : IsLeast {position | IllegalAt (before ++ c :: rest) position} before.length :=
      isLeast_illegalAt legal misfits
    have here : (before ++ c :: rest)[before.length]? = some c := by simp
    constructor
    · -- The error is the one that the lexer stops with.
      intro same
      obtain rfl := Except.error.inj same
      exact ⟨least, here⟩
    · -- There is one first position, and one character at it.
      rintro ⟨other, found⟩
      obtain ⟨d, offset⟩ := error
      obtain rfl : offset = before.length := other.unique least
      rw [Option.some.inj (here.symm.trans found)]

/-- Called again a lexer finds the end of the text once more, or the same character. -/
theorem tokenizeTimes_eq (stops : Stops chars (outcome, lexer)) (times : Nat) :
    tokenizeTimes times lexer = List.replicate times (outcome.map (fun _ => [.eof])) := by
  -- Neither at the end nor at a character that begins no token does the lexer move on.
  cases stops with
  | behind legal =>
    refine tokenizeTimes_of_stays ?_ times
    rw [tokenize, tokensAfter]
    rfl
  | before split legal misfits stays =>
    refine tokenizeTimes_of_stays ?_ times
    rw [tokenize, tokensAfter]
    split <;> rename_i found <;> cases stays.symm.trans found
    rfl

end Stops

/-- A text is cut into tokens exactly if no position is illegal, and an error is about the
first illegal position and its character. Further calls find the end of the text only, or
the same error. -/
theorem tokenize_illegal (text : String) :
    ((∃ tokens, (ofText text).tokenize.1 = .ok tokens) ↔
        ∀ position, ¬IllegalAt text.toList position) ∧
      (∀ error, (ofText text).tokenize.1 = .error error ↔
        IsLeast {position | IllegalAt text.toList position} error.offset ∧
          text.toList[error.offset]? = some error.found) ∧
      ∀ times, tokenizeTimes (times + 1) (ofText text) =
        (ofText text).tokenize.1 ::
          List.replicate times ((ofText text).tokenize.1.map (fun _ => [.eof])) := by
  have stops := stops_tokenize text
  -- The first call stops, and the others stay where it did.
  refine ⟨stops.exists_ok_iff, stops.eq_error_iff, fun times => ?_⟩
  exact congrArg ((ofText text).tokenize.1 :: ·) (stops.tokenizeTimes_eq times)

/-- A digit goes on with the name in front of it, but not behind a blank. -/
theorem tokenize_illegal_digit :
    (ofText "x1 2λ").tokenize.1 = .error ⟨'2', 3⟩ ∧
      IsLeast {position | IllegalAt "x1 2λ".toList position} 3 ∧
      tokenizeTimes 2 (ofText "x1 2λ") = [.error ⟨'2', 3⟩, .error ⟨'2', 3⟩] := by
  -- The first call is evaluated, and the rest follows.
  have stopped : (ofText "x1 2λ").tokenize.1 = .error ⟨'2', 3⟩ := by decide +kernel
  obtain ⟨-, errors, again⟩ := tokenize_illegal "x1 2λ"
  refine ⟨stopped, ((errors _).mp stopped).1, ?_⟩
  rw [again 1, stopped]
  rfl

end Lexer

end NamedLambda
