import NamedLambda.Source.Blank
import NamedLambda.Source.Token

/-! A lexer cuts a source text into tokens and stays at the first character it cannot place. -/

namespace NamedLambda

/-- A character that no token begins with. -/
structure LexError where
  /-- The character. -/
  found : Char
  /-- How many characters come before it in the text. -/
  offset : Nat
deriving DecidableEq, Repr

/-- The message for a character that no token begins with. -/
def LexError.message (error : LexError) : String :=
  "Unexpected character '" ++ error.found.toString ++ "' at offset " ++ error.offset.repr

/-- A place in a source text. -/
structure Lexer where
  /-- The characters that are still to be read. -/
  rest : List Char
  /-- How many characters have been read. -/
  offset : Nat
deriving DecidableEq, Repr

namespace Lexer

/-- The lexer at the beginning of a text. -/
def ofText (text : String) : Lexer :=
  ⟨text.toList, 0⟩

/-- The lexer behind the longest run of characters of a class. -/
def skipWhile (lexer : Lexer) (inClass : Char → Bool) : Lexer :=
  ⟨lexer.rest.dropWhile inClass, lexer.offset + (lexer.rest.takeWhile inClass).length⟩

/-- The lexer behind its next character. -/
def skipChar (lexer : Lexer) : Lexer :=
  ⟨lexer.rest.tail, lexer.offset + 1⟩

/-- Skipping a run leaves no more than there was. -/
theorem length_skipWhile_le (lexer : Lexer) (inClass : Char → Bool) :
    (lexer.skipWhile inClass).rest.length ≤ lexer.rest.length :=
  (List.dropWhile_sublist inClass).length_le

/-- What a lexer finds at its place. -/
inductive Lexeme where
  /-- Nothing, at the end of the text. -/
  | finished
  /-- A token, with the lexer behind it. -/
  | token (token : Token) (after : Lexer)
  /-- A run of blanks, with the lexer behind it. -/
  | blanks (after : Lexer)
  /-- A character that begins no token. -/
  | unexpected (found : Char)

/-- What the lexer finds next: the longest name or run of blanks, or a single sign. -/
def next (lexer : Lexer) : Lexeme :=
  match lexer.rest with
  | [] => .finished
  | c :: _ =>
    -- A name may go on with characters that it cannot begin with.
    if isIdentStart c then
      .token (.ident (String.ofList (lexer.rest.takeWhile isIdentChar)))
        (lexer.skipWhile isIdentChar)
    else if isBlank c then .blanks (lexer.skipWhile isBlank)
    else
      match Token.ofSign? c with
      | some token => .token token lexer.skipChar
      | none => .unexpected c

/-- A token takes at least one character. -/
theorem next_token_shorter {lexer after : Lexer} {token : Token}
    (found : lexer.next = .token token after) : after.rest.length < lexer.rest.length := by
  -- A name takes its first character, and a sign takes exactly one.
  cases lexer with
  | mk rest offset =>
    cases rest with
    | nil => simp [next] at found
    | cons c rest =>
      simp only [next] at found
      split at found
      · rename_i start
        have first := isIdentChar_of_isIdentStart start
        have shorter := length_skipWhile_le ⟨rest, offset⟩ isIdentChar
        simp only [Lexeme.token.injEq] at found
        rw [← found.2]
        simp only [skipWhile, List.dropWhile_cons, first, if_true, List.length_cons] at shorter ⊢
        omega
      · split at found
        · simp at found
        · split at found
          · simp only [Lexeme.token.injEq] at found
            simp [← found.2, skipChar]
          · simp at found

/-- A run of blanks takes at least one character. -/
theorem next_blanks_shorter {lexer after : Lexer}
    (found : lexer.next = .blanks after) : after.rest.length < lexer.rest.length := by
  -- The run was found by its first character, which belongs to it.
  cases lexer with
  | mk rest offset =>
    cases rest with
    | nil => simp [next] at found
    | cons c rest =>
      simp only [next] at found
      split at found
      · simp at found
      · split at found
        · rename_i first
          have shorter := length_skipWhile_le ⟨rest, offset⟩ isBlank
          simp only [Lexeme.blanks.injEq] at found
          rw [← found]
          simp only [skipWhile, List.dropWhile_cons, first, if_true, List.length_cons] at shorter ⊢
          omega
        · split at found <;> simp at found

/-- The tokens up to the end of the text, where blanks are reported only if a word just ended. -/
def tokensAfter (wordEnded : Bool) (lexer : Lexer) : Except LexError (List Token) × Lexer :=
  match found : lexer.next with
  | .finished => (.ok [.eof], lexer)
  -- The lexer stays before the character, where it may be asked again.
  | .unexpected c => (.error ⟨c, lexer.offset⟩, lexer)
  | .blanks after =>
    have := next_blanks_shorter found
    let later := tokensAfter false after
    (if wordEnded then later.1.map (.blank :: ·) else later.1, later.2)
  | .token token after =>
    have := next_token_shorter found
    let later := tokensAfter token.endsWord after
    (later.1.map (token :: ·), later.2)
termination_by lexer.rest.length

/-- The tokens from the lexer's place to the end of the text, and the place it stops at. -/
def tokenize (lexer : Lexer) : Except LexError (List Token) × Lexer :=
  tokensAfter false lexer

/-- The outcomes of asking one lexer for its tokens several times, each from where it stopped. -/
def tokenizeTimes : (times : Nat) → Lexer → List (Except LexError (List Token))
  | 0, _ => []
  | times + 1, lexer =>
    -- The next call goes on from where this one stopped.
    lexer.tokenize.1 :: tokenizeTimes times lexer.tokenize.2

end Lexer

end NamedLambda
