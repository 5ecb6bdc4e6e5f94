import NamedLambda.Source.Reader

/-! What a text says is in its words, which are its tokens without the blanks between them. -/

namespace NamedLambda

/-- A blank is no character of a name. -/
theorem isIdentChar_eq_false_of_isBlank {c : Char} (blank : isBlank c) :
    isIdentChar c = false := by
  rw [Bool.eq_false_iff]
  intro inside
  -- The characters of a name are told by their codes, except for the underscore.
  have written : (((65 ≤ c.toNat ∧ c.toNat ≤ 90) ∨ (97 ≤ c.toNat ∧ c.toNat ≤ 122)) ∨
      (48 ≤ c.toNat ∧ c.toNat ≤ 57)) ∨ c = '_' := by
    change ((decide ('A'.val ≤ c.val ∧ c.val ≤ 'Z'.val) ||
      (decide ('a'.val ≤ c.val) && decide (c.val ≤ 'z'.val))) ||
      (decide ('0'.val ≤ c.val) && decide (c.val ≤ '9'.val)) || c == '_') = true at inside
    simpa [UInt32.le_iff_toNat_le] using inside
  simp only [isBlank, blankRanges, List.any_cons, List.any_nil, Bool.or_eq_true, Bool.and_eq_true,
    decide_eq_true_eq, Bool.false_eq_true, or_false] at blank
  -- All ranges of blanks lie outside those of the letters and digits.
  rcases written with written | rfl
  · omega
  · revert blank
    decide

/-- A blank begins no name. -/
theorem isIdentStart_eq_false_of_isBlank {c : Char} (blank : isBlank c) :
    isIdentStart c = false := by
  -- What begins a name can go on in one.
  rw [Bool.eq_false_iff]
  intro start
  have inside := isIdentChar_of_isIdentStart start
  rw [isIdentChar_eq_false_of_isBlank blank] at inside
  contradiction

/-- A digit is no letter. -/
theorem isAlpha_eq_false_of_isDigit {c : Char} (digit : c.isDigit) : c.isAlpha = false := by
  rw [Char.isDigit_iff_toNat] at digit
  -- The digits come before all letters.
  have low : c.toNat ≤ 57 := digit.2
  have noLetter : ¬((65 ≤ c.toNat ∧ c.toNat ≤ 90) ∨ (97 ≤ c.toNat ∧ c.toNat ≤ 122)) := by omega
  change (decide ('A'.val ≤ c.val ∧ c.val ≤ 'Z'.val) ||
    (decide ('a'.val ≤ c.val) && decide (c.val ≤ 'z'.val))) = false
  simpa [UInt32.le_iff_toNat_le] using noLetter

/-- A name can go on with a digit. -/
theorem isIdentChar_of_isDigit {c : Char} (digit : c.isDigit) : isIdentChar c := by
  -- Letters and digits go on in a name alike.
  simp [isIdentChar, Char.isAlphanum, digit]

/-- No name begins with a digit. -/
theorem isIdentStart_eq_false_of_isDigit {c : Char} (digit : c.isDigit) :
    isIdentStart c = false := by
  -- A name begins with a letter or an underscore.
  have noSign : c ≠ '_' := by
    rintro rfl
    contradiction
  simp [isIdentStart, isAlpha_eq_false_of_isDigit digit, noSign]

/-- A sign is no character of a name and no blank, and makes a word. -/
theorem Token.of_ofSign? {c : Char} {token : Token} (sign : Token.ofSign? c = some token) :
    isIdentStart c = false ∧ isIdentChar c = false ∧ isBlank c = false ∧ token ≠ .blank := by
  -- There are eight signs.
  unfold Token.ofSign? at sign
  split at sign <;> simp only [Option.some.injEq, reduceCtorEq] at sign <;> subst sign <;> decide

/-- Whether a name can be written in a source text: a letter or underscore, then letters,
digits and underscores. -/
def isIdentifier (name : Name) : Bool :=
  match name.toList with
  | [] => false
  | first :: rest => isIdentStart first && rest.all isIdentChar

/-- A name can be written if it is a character that begins names and others that go on in them. -/
theorem isIdentifier_iff {name : Name} :
    isIdentifier name ↔ ∃ first rest, name.toList = first :: rest ∧ isIdentStart first ∧
      ∀ c ∈ name.toList, isIdentChar c := by
  -- Whatever begins a name may also go on in it, so that the last condition covers all.
  unfold isIdentifier
  cases spelled : name.toList with
  | nil => simp
  | cons first rest =>
    simp +contextual [isIdentChar_of_isIdentStart]

/-- The longest run of characters that can go on in a name is a name, if it begins like one. -/
theorem isIdentifier_takeWhile {c : Char} (start : isIdentStart c) (rest : List Char) :
    isIdentifier (String.ofList ((c :: rest).takeWhile isIdentChar)) := by
  -- The run begins with the first character, and all of it goes on in a name.
  have first := isIdentChar_of_isIdentStart start
  refine isIdentifier_iff.mpr ⟨c, rest.takeWhile isIdentChar, by simp [first], start, ?_⟩
  rw [String.toList_ofList]
  exact List.all_eq_true.mp List.all_takeWhile

namespace Lexer

/-- What is found next decides how the tokens begin. -/
theorem tokensAfter_eq (wordEnded : Bool) (lexer : Lexer) :
    (tokensAfter wordEnded lexer).1 =
      match lexer.next with
      | .finished => .ok [.eof]
      | .unexpected c => .error ⟨c, lexer.offset⟩
      | .blanks after =>
        if wordEnded then (tokensAfter false after).1.map (.blank :: ·)
        else (tokensAfter false after).1
      | .token token after => (tokensAfter token.endsWord after).1.map (token :: ·) := by
  -- The lexer looks at one lexeme before it goes on.
  rw [tokensAfter]
  split <;> rename_i found <;> simp only [found]

/-- The tokens up to the end of the text, without the blanks between them. -/
def words (lexer : Lexer) : Except LexError (List Token) :=
  lexer.tokenize.1.map (List.filter (· ≠ .blank))

/-- What came before matters to blanks only. -/
theorem words_tokensAfter (wordEnded : Bool) (lexer : Lexer) :
    (tokensAfter wordEnded lexer).1.map (List.filter (· ≠ .blank)) = lexer.words := by
  -- Only the blank that a word leaves behind depends on it, and it is filtered out.
  rw [words, tokenize, tokensAfter_eq, tokensAfter_eq false]
  cases lexer.next with
  | finished => rfl
  | unexpected c => rfl
  | token token after => rfl
  | blanks after =>
    cases wordEnded with
    | false => rfl
    | true => cases tokens : (tokensAfter false after).1 <;> simp [tokens, Except.map]

/-- Where nothing is left the end of the text is the only word. -/
theorem words_of_finished {lexer : Lexer} (found : lexer.next = .finished) :
    lexer.words = .ok [.eof] := by
  -- The end is a token and no blank.
  rw [words, tokenize, tokensAfter_eq, found]
  rfl

/-- A character that begins no word is the error. -/
theorem words_of_unexpected {lexer : Lexer} {c : Char} (found : lexer.next = .unexpected c) :
    lexer.words = .error ⟨c, lexer.offset⟩ := by
  -- No token has been cut off for the filter to look at.
  rw [words, tokenize, tokensAfter_eq, found]
  rfl

/-- A run of blanks adds no word. -/
theorem words_of_blanks {lexer after : Lexer} (found : lexer.next = .blanks after) :
    lexer.words = after.words := by
  -- At the beginning of a text the run leaves no token either.
  rw [words, tokenize, tokensAfter_eq, found]
  rfl

/-- A token that is no blank is the next word. -/
theorem words_of_token {lexer after : Lexer} {token : Token}
    (found : lexer.next = .token token after) (solid : token ≠ .blank) :
    lexer.words = after.words.map (token :: ·) := by
  -- What it leaves behind for blanks makes no difference to the words after it.
  rw [words, tokenize, tokensAfter_eq, found, ← words_tokensAfter token.endsWord after]
  cases tokens : (tokensAfter token.endsWord after).1 <;> simp [tokens, Except.map, solid]

/-- A sign is a word of its own. -/
theorem words_sign {c : Char} {token : Token} (sign : Token.ofSign? c = some token)
    (rest : List Char) (offset : Nat) :
    words ⟨c :: rest, offset⟩ = (words ⟨rest, offset + 1⟩).map (token :: ·) := by
  -- The lexer cuts off the sign, and the words go on with the next character.
  obtain ⟨noStart, -, noBlank, solid⟩ := Token.of_ofSign? sign
  have begins : next ⟨c :: rest, offset⟩ = .token token ⟨rest, offset + 1⟩ := by
    simp [next, noStart, noBlank, sign, skipChar]
  exact words_of_token begins solid

/-- A blank only separates words. -/
theorem words_blank {c : Char} (blank : isBlank c) (rest : List Char) (offset : Nat) :
    words ⟨c :: rest, offset⟩ = words ⟨rest, offset + 1⟩ := by
  -- The lexer skips the whole run of blanks that begins here.
  have skips {c : Char} (blank : isBlank c) (rest : List Char) (offset : Nat) :
      next ⟨c :: rest, offset⟩ = .blanks (skipWhile ⟨rest, offset + 1⟩ isBlank) := by
    simp [next, isIdentStart_eq_false_of_isBlank blank, blank, skipWhile, Nat.add_assoc,
      Nat.add_comm 1]
  rw [words_of_blanks (skips blank rest offset)]
  -- The run of blanks is left behind whether or not it is entered at its beginning.
  cases rest with
  | nil => rfl
  | cons first rest =>
    cases again : isBlank first with
    | true =>
      rw [words_of_blanks (skips again rest (offset + 1))]
      simp [skipWhile, again, Nat.add_assoc, Nat.add_comm 1, Nat.add_comm 2]
    | false => simp [skipWhile, again]

/-- A name ends where a character follows that does not go on with it. -/
theorem words_ident {name : Name} (identifier : isIdentifier name) (rest : List Char)
    (ends : ∀ c ∈ rest.head?, isIdentChar c = false) (offset : Nat) :
    words ⟨name.toList ++ rest, offset⟩ =
      (words ⟨rest, offset + name.toList.length⟩).map (.ident name :: ·) := by
  obtain ⟨first, inside, spelled, start, all⟩ := isIdentifier_iff.mp identifier
  -- The longest run of such characters is the name itself.
  have taken : (name.toList ++ rest).takeWhile isIdentChar = name.toList := by
    rw [List.takeWhile_append_of_pos all]
    cases rest with
    | nil => simp
    | cons c rest => simp [ends c rfl]
  have dropped : (name.toList ++ rest).dropWhile isIdentChar = rest := by
    have whole := List.takeWhile_append_dropWhile (p := isIdentChar) (l := name.toList ++ rest)
    rw [taken] at whole
    exact List.append_cancel_left whole
  -- The lexer cuts off this run, and the words go on behind it.
  have begins : next ⟨name.toList ++ rest, offset⟩ =
      .token (.ident (String.ofList ((name.toList ++ rest).takeWhile isIdentChar)))
        (skipWhile ⟨name.toList ++ rest, offset⟩ isIdentChar) := by
    rw [spelled]
    simp [next, start]
  rw [skipWhile, taken, dropped, String.ofList_toList] at begins
  exact words_of_token begins (by simp)

end Lexer

/-- A token that can stand before the end of a text. -/
def Token.Inside : Token → Prop
  | .eof => False
  | .ident name => isIdentifier name
  | _ => True

/-- The end of the text comes last and nowhere else, and all names can be written. -/
def Token.Ended (tokens : List Token) : Prop :=
  ∃ inside, tokens = inside ++ [.eof] ∧ ∀ token ∈ inside, token.Inside

/-- A token in front that is not the end keeps the end last. -/
theorem Token.Ended.cons {token : Token} {tokens : List Token} (ended : Token.Ended tokens)
    (inside : token.Inside) : Token.Ended (token :: tokens) := by
  -- It is one more token inside.
  obtain ⟨rest, rfl, each⟩ := ended
  exact ⟨token :: rest, rfl, List.forall_mem_cons.mpr ⟨inside, each⟩⟩

/-- The tokens behind the first one end as all of them do. -/
theorem Token.Ended.uncons {token : Token} {rest : List Token}
    (ended : Token.Ended (token :: rest)) (more : token ≠ .eof) :
    token.Inside ∧ Token.Ended rest := by
  obtain ⟨inside, together, each⟩ := ended
  cases inside with
  -- A token that is not the end is not the last one.
  | nil =>
    obtain ⟨rfl, -⟩ : token = .eof ∧ rest = [] := by simpa using together
    exact absurd rfl more
  | cons first later =>
    obtain ⟨rfl, rfl⟩ : token = first ∧ rest = later ++ [.eof] := by simpa using together
    obtain ⟨here, each⟩ := List.forall_mem_cons.mp each
    exact ⟨here, later, rfl, each⟩

namespace Lexer

/-- What a lexer finds, by the character that it stands at. -/
inductive Finds : Lexer → Lexeme → Prop where
  /-- Nothing is left. -/
  | finished (offset : Nat) : Finds ⟨[], offset⟩ .finished
  /-- The longest name that begins with the character. -/
  | name {c : Char} {rest : List Char} {offset : Nat} (start : isIdentStart c) :
      Finds ⟨c :: rest, offset⟩
        (.token (.ident (String.ofList ((c :: rest).takeWhile isIdentChar)))
          (skipWhile ⟨c :: rest, offset⟩ isIdentChar))
  /-- The longest run of blanks. -/
  | blanks {c : Char} {rest : List Char} {offset : Nat} (blank : isBlank c) :
      Finds ⟨c :: rest, offset⟩ (.blanks (skipWhile ⟨c :: rest, offset⟩ isBlank))
  /-- A sign. -/
  | sign {c : Char} {rest : List Char} {offset : Nat} {token : Token}
      (sign : Token.ofSign? c = some token) :
      Finds ⟨c :: rest, offset⟩ (.token token ⟨rest, offset + 1⟩)
  /-- A character that is none of these. -/
  | unexpected {c : Char} {rest : List Char} {offset : Nat} (noStart : isIdentStart c = false)
      (noBlank : isBlank c = false) (noSign : Token.ofSign? c = none) :
      Finds ⟨c :: rest, offset⟩ (.unexpected c)

/-- A lexer finds the longest name or run of blanks, a sign or what is none of these. -/
theorem finds_next (lexer : Lexer) : Finds lexer lexer.next := by
  -- The first character is tested for each kind in turn.
  obtain ⟨rest, offset⟩ := lexer
  cases rest with
  | nil => exact .finished offset
  | cons c rest =>
    simp only [next]
    split
    · rename_i start
      exact .name start
    · rename_i noStart
      split
      · rename_i blank
        exact .blanks blank
      · rename_i noBlank
        split
        · rename_i sign
          exact .sign sign
        · rename_i noSign
          exact .unexpected (Bool.eq_false_iff.mpr noStart) (Bool.eq_false_iff.mpr noBlank) noSign

/-- What is cut off as a token never is the end of the text, and names can be written. -/
theorem next_inside {lexer after : Lexer} {token : Token}
    (found : lexer.next = .token token after) : token.Inside := by
  -- A token is a name or a sign.
  have finds := finds_next lexer
  rw [found] at finds
  cases finds with
  | name start => exact isIdentifier_takeWhile start _
  | sign sign =>
    -- No sign is a name or ends the text.
    unfold Token.ofSign? at sign
    split at sign <;> simp only [Option.some.injEq, reduceCtorEq] at sign <;> subst sign <;>
      trivial

/-- A changed outcome that is a result was the result of something. -/
theorem exists_of_map_eq_ok {α β ε : Type} {change : α → β} {outcome : Except ε α} {result : β}
    (mapped : outcome.map change = .ok result) :
    ∃ value, outcome = .ok value ∧ change value = result := by
  -- An error would have stayed an error.
  cases outcome with
  | error error => contradiction
  | ok value => exact ⟨value, rfl, by simpa [Except.map] using mapped⟩

/-- The end of a text is its last token, and no other. -/
theorem tokensAfter_ended {wordEnded : Bool} {lexer : Lexer} {tokens : List Token}
    (cut : (tokensAfter wordEnded lexer).1 = .ok tokens) : Token.Ended tokens := by
  -- Each lexeme puts at most one token in front of those after it.
  fun_induction tokensAfter wordEnded lexer generalizing tokens with
  -- At the end of the text there is nothing inside.
  | case1 wordEnded lexer found =>
    obtain rfl : [.eof] = tokens := by simpa using cut
    exact ⟨[], rfl, by simp⟩
  | case2 wordEnded lexer c found => contradiction
  | case3 wordEnded lexer after found shorter later =>
    rename_i ih
    -- A run of blanks is a token behind a word and none elsewhere.
    cases wordEnded with
    | true =>
      obtain ⟨rest, below, rfl⟩ := exists_of_map_eq_ok cut
      exact (ih below).cons trivial
    | false => exact ih cut
  | case4 wordEnded lexer token after found shorter later =>
    rename_i ih
    obtain ⟨rest, below, rfl⟩ := exists_of_map_eq_ok cut
    exact (ih below).cons (next_inside found)

end Lexer

/-- The characters spell the words, unless the next character goes on with a name that ends them. -/
def Spells (chars : List Char) (words : List Token) : Prop :=
  ∀ (rest : List Char) (offset : Nat), (∀ c ∈ rest.head?, isIdentChar c = false) →
    Lexer.words ⟨chars ++ rest, offset⟩ =
      (Lexer.words ⟨rest, offset + chars.length⟩).map (words ++ ·)

namespace Spells

variable {chars : List Char} {words : List Token}

/-- No characters spell no words. -/
theorem nil : Spells [] [] := by
  -- The words are those that follow.
  intro rest offset _
  simp only [List.nil_append, List.length_nil, Nat.add_zero]
  cases Lexer.words ⟨rest, offset⟩ <;> rfl

/-- A name that can be written spells itself. -/
theorem ident {name : Name} (identifier : isIdentifier name) : Spells name.toList [.ident name] :=
  fun rest offset ends => Lexer.words_ident identifier rest ends offset

/-- A sign in front spells its token. -/
theorem sign {c : Char} {token : Token} (sign : Token.ofSign? c = some token)
    (spells : Spells chars words) : Spells (c :: chars) (token :: words) := by
  -- It is cut off as the first word, whatever follows.
  intro rest offset ends
  rw [List.cons_append, Lexer.words_sign sign, spells rest _ ends, List.length_cons,
    Nat.add_right_comm, Nat.add_assoc]
  cases Lexer.words ⟨rest, offset + (chars.length + 1)⟩ <;> rfl

/-- A blank in front spells nothing. -/
theorem blank {c : Char} (blank : isBlank c) (spells : Spells chars words) :
    Spells (c :: chars) words := by
  -- The words begin behind it.
  intro rest offset ends
  rw [List.cons_append, Lexer.words_blank blank, spells rest _ ends, List.length_cons,
    Nat.add_right_comm, Nat.add_assoc]

/-- Characters that go on with no name can follow all others. -/
theorem append {c : Char} {later : List Char} {laterWords : List Token}
    (spells : Spells chars words) (apart : isIdentChar c = false)
    (laterSpells : Spells (c :: later) laterWords) :
    Spells (chars ++ c :: later) (words ++ laterWords) := by
  -- The words in front end where the later characters begin, and the offsets add up.
  intro rest offset ends
  rw [List.append_assoc, spells _ _ (by simpa using apart), laterSpells rest _ ends,
    List.length_append, Nat.add_assoc]
  cases Lexer.words ⟨rest, offset + (chars.length + (c :: later).length)⟩ with
  | error error => rfl
  | ok tokens => simp [Except.map]

/-- A text that spells words is cut into tokens that are these words, save for the blanks. -/
theorem tokensOf {text : String} (spells : Spells text.toList words) :
    ∃ tokens, NamedLambda.tokensOf text = .ok tokens ∧
      tokens.filter (· ≠ .blank) = words ++ [.eof] := by
  -- Behind the words nothing is left but the end of the text.
  have all : (Lexer.ofText text).words = .ok (words ++ [.eof]) := by
    have whole := spells [] 0 (by simp)
    have ended : Lexer.next ⟨[], 0 + text.toList.length⟩ = .finished := rfl
    rw [List.append_nil, Lexer.words_of_finished ended] at whole
    exact whole
  rw [Lexer.words] at all
  rw [NamedLambda.tokensOf]
  -- Words come from tokens, so that the text is cut into tokens.
  cases cut : (Lexer.ofText text).tokenize.1 with
  | error error => simp [cut, Except.map] at all
  | ok tokens => exact ⟨tokens, rfl, by simpa [cut, Except.map] using all⟩

end Spells

namespace Reader

variable (meaning : Name → Option Term)

/-- The position of a token matters to error messages only. -/
theorem advance_position (position other : Nat) (state : State) (token : Token) :
    (advance meaning position state token).toOption =
      (advance meaning other state token).toOption := by
  -- Every clause uses the position in an error or not at all.
  unfold advance
  split <;> first | rfl | split <;> rfl

/-- The position of the end matters to error messages only. -/
theorem finish_position (position other : Nat) (state : State) :
    (finish position state).toOption = (finish other state).toOption := by
  -- Every clause uses the position in an error or not at all.
  unfold finish
  split <;> first | rfl | split <;> rfl

/-- The term is read from the state after the first token. -/
theorem read_cons (position : Nat) (state : State) {token : Token} (more : token ≠ .eof)
    (rest : List Token) :
    (read meaning position state (token :: rest)).toOption =
      (advance meaning position state token).toOption.bind
        (fun next => (read meaning (position + 1) next rest).toOption) := by
  -- An error of this token is the end of the reading.
  rw [read]
  · cases advance meaning position state token <;> rfl
  · exact more

/-- The term that is read is in the words, not in the blanks between them. -/
theorem read_filter (position other : Nat) (state : State) (tokens : List Token) :
    (read meaning position state tokens).toOption =
      (read meaning other state (tokens.filter (· ≠ .blank))).toOption := by
  induction tokens generalizing position other state with
  -- The end of the text completes the same term at any position.
  | nil => exact finish_position position other state
  | cons token rest ih =>
    by_cases ends : token = .eof
    · subst ends
      exact finish_position position other state
    · rw [read_cons meaning position state ends]
      by_cases separates : token = .blank
      · -- A blank leaves the state as it is.
        subst separates
        exact ih (position + 1) other state
      · -- Any other token takes both readings to the same state.
        rw [List.filter_cons_of_pos (by simpa using separates), read_cons meaning other state ends,
          advance_position meaning position other]
        congr 1
        funext next
        exact ih (position + 1) (other + 1) next

/-- Tokens are read exactly when the words are, with the same term. -/
theorem read_eq_ok_iff_filter (position other : Nat) (state : State) (tokens : List Token)
    (term : Term) :
    read meaning position state tokens = .ok term ↔
      read meaning other state (tokens.filter (· ≠ .blank)) = .ok term := by
  -- The two outcomes agree in whether there is a term and in which it is.
  have same := read_filter meaning position other state tokens
  cases whole : read meaning position state tokens <;>
    cases filtered : read meaning other state (tokens.filter (· ≠ .blank)) <;>
      simp_all [Except.toOption]

end Reader

/-- A text ends with its last token, and with no other. -/
theorem tokensOf_ended {source : String} {tokens : List Token}
    (cut : tokensOf source = .ok tokens) : Token.Ended tokens := by
  -- The tokens of a text are those that its lexer cuts off.
  unfold tokensOf at cut
  cases found : (Lexer.ofText source).tokenize.1 with
  | error error =>
    rw [found] at cut
    cases cut
  | ok found' =>
    rw [found] at cut
    obtain rfl : found' = tokens := Except.ok.inj cut
    exact Lexer.tokensAfter_ended found

/-- What is read off a text is in its words. -/
theorem readTerm_toOption (meaning : Name → Option Term) (source : String) :
    (readTerm meaning source).toOption = (Lexer.ofText source).words.toOption.bind
      (fun words => (Reader.read meaning 0 Reader.start words).toOption) := by
  -- An illegal character leaves neither tokens nor words.
  unfold readTerm tokensOf Lexer.words
  cases (Lexer.ofText source).tokenize.1 with
  | error error => rfl
  | ok tokens => exact Reader.read_filter meaning 0 0 Reader.start tokens

end NamedLambda
