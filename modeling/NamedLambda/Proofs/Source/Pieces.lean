import Mathlib.Data.List.Chain
import Mathlib.Logic.ExistsUnique
import NamedLambda.Proofs.Source.Layout

/-! The tokens of a text say all that it says, save for its layout and its choice
of lambda signs. -/

namespace NamedLambda

/-- How a token is written, with the letter for a lambda sign and without blanks. -/
def Token.written : Token → List Char
  | lambda => ['λ']
  | dot => ['.']
  | openParen => ['(']
  | closeParen => [')']
  | equals => ['=']
  | ident name => name.toList
  | blank | eof => []

/-- The letter for any lambda sign, and any other character as it is. -/
def asLetter (c : Char) : Char :=
  if ['λ', '\\', '/', '|'].contains c then 'λ' else c

/-- The characters that are no blanks, with the letter for every lambda sign. -/
def unspaced (chars : List Char) : List Char :=
  (chars.filter (!isBlank ·)).map asLetter

/-- Whether characters end with a part of a name or with a closing parenthesis, or there are none
and a word ended before them. -/
def endsInWord (wordEnded : Bool) (chars : List Char) : Bool :=
  chars.getLast?.elim wordEnded (fun c => isIdentChar c || c == ')')

/-- A run of blanks in a text that is as long as it can be and directly follows a word. -/
structure FollowsWord (wordEnded : Bool) (chars before run after : List Char) : Prop where
  /-- The text is what comes before the run, the run and what comes after it. -/
  split : chars = before ++ (run ++ after)
  /-- The run is no empty one. -/
  nonempty : run ≠ []
  /-- It consists of blanks. -/
  each : ∀ c ∈ run, isBlank c
  /-- It does not go on behind its end. -/
  ends : ∀ c ∈ after.head?, isBlank c = false
  /-- A word ends where it begins. -/
  follows : endsInWord wordEnded before

/-- Of two tokens next to each other the second is a blank only if the first is a word, and not both
are names. -/
structure Token.Adjoins (first second : Token) : Prop where
  /-- Blanks are reported behind names and closing parentheses only. -/
  behindWord : second = .blank →
    first = .closeParen ∨ ∃ name, isIdentifier name ∧ first = .ident name
  /-- A name is not cut in two. -/
  apart : ∀ name other, first = .ident name → second ≠ .ident other

/-- The tokens of a text piece by piece, where a word may have ended before it. -/
inductive Cuts : (wordEnded : Bool) → List Char → List Token → Prop where
  /-- Behind the text there is its end. -/
  | finished (wordEnded : Bool) : Cuts wordEnded [] [.eof]
  /-- A name goes up to a character that cannot go on in it. -/
  | name {wordEnded : Bool} {name : Name} {rest : List Char} {tokens : List Token}
    (identifier : isIdentifier name) (ends : ∀ c ∈ rest.head?, isIdentChar c = false)
    (cuts : Cuts true rest tokens) :
    Cuts wordEnded (name.toList ++ rest) (.ident name :: tokens)
  /-- A sign is a token. -/
  | sign {wordEnded : Bool} {c : Char} {token : Token} {rest : List Char} {tokens : List Token}
    (sign : Token.ofSign? c = some token) (cuts : Cuts token.endsWord rest tokens) :
    Cuts wordEnded (c :: rest) (token :: tokens)
  /-- A run of blanks goes up to another character, and is reported behind a word. -/
  | blanks {wordEnded : Bool} {run rest : List Char} {tokens : List Token} (nonempty : run ≠ [])
    (each : ∀ c ∈ run, isBlank c) (ends : ∀ c ∈ rest.head?, isBlank c = false)
    (cuts : Cuts false rest tokens) :
    Cuts wordEnded (run ++ rest) (if wordEnded then .blank :: tokens else tokens)

/-- The tokens that a lexer finds are those of the text before it. -/
theorem Lexer.cuts_of_tokensAfter {wordEnded : Bool} {lexer : Lexer} {tokens : List Token}
    (cut : (tokensAfter wordEnded lexer).1 = .ok tokens) : Cuts wordEnded lexer.rest tokens := by
  -- What the lexer finds next is the first piece, and what it finds from there on is in the rest.
  fun_induction tokensAfter wordEnded lexer generalizing tokens with
  | case1 wordEnded lexer found =>
    have finds := finds_next lexer
    rw [found] at finds
    cases finds with
    | finished offset =>
      -- Nothing is left of the text, and the end is its one token.
      obtain rfl : [.eof] = tokens := by simpa using cut
      exact .finished wordEnded
  -- A text with an illegal character is not cut.
  | case2 wordEnded lexer c found => contradiction
  | case3 wordEnded lexer after found shorter later =>
    rename_i ih
    have finds := finds_next lexer
    rw [found] at finds
    cases finds with
    | @blanks c rest offset blank =>
      -- The run of blanks is as long as it can be.
      have together := List.takeWhile_append_dropWhile (p := isBlank) (l := c :: rest)
      have nonempty : (c :: rest).takeWhile isBlank ≠ [] := by simp [blank]
      have each : ∀ d ∈ (c :: rest).takeWhile isBlank, isBlank d :=
        List.all_eq_true.mp List.all_takeWhile
      have ends := head?_dropWhile isBlank (c :: rest)
      rw [← together]
      cases wordEnded with
      | true =>
        obtain ⟨others, below, rfl⟩ := exists_of_map_eq_ok cut
        exact .blanks nonempty each ends (ih below)
      | false => exact .blanks nonempty each ends (ih cut)
  | case4 wordEnded lexer token after found shorter later =>
    rename_i ih
    obtain ⟨others, below, rfl⟩ := exists_of_map_eq_ok cut
    have cuts := ih below
    have finds := finds_next lexer
    rw [found] at finds
    cases finds with
    | @name c rest offset start =>
      -- So is a name.
      have together := List.takeWhile_append_dropWhile (p := isIdentChar) (l := c :: rest)
      have piece := @Cuts.name wordEnded _ _ _ (isIdentifier_takeWhile start rest)
        (head?_dropWhile isIdentChar (c :: rest)) cuts
      rwa [String.toList_ofList, together] at piece
    | sign sign => exact .sign sign cuts

section

variable {wordEnded : Bool} {chars piece rest before run after : List Char} {tokens : List Token}

/-- What comes last decides. -/
theorem endsInWord_append (wordEnded : Bool) (first second : List Char) :
    endsInWord wordEnded (first ++ second) = endsInWord (endsInWord wordEnded first) second := by
  -- Where nothing comes last it is what comes before.
  unfold endsInWord
  rw [List.getLast?_append]
  cases second.getLast? <;> rfl

/-- Behind a name a word has ended. -/
theorem endsInWord_name {name : Name} (identifier : isIdentifier name) :
    endsInWord wordEnded name.toList := by
  -- Its last character could go on in a name.
  obtain ⟨first, others, spelled, -, all⟩ := isIdentifier_iff.mp identifier
  have nonempty : name.toList ≠ [] := by simp [spelled]
  rw [endsInWord, List.getLast?_eq_some_getLast nonempty, Option.elim_some,
    all _ (List.getLast_mem nonempty), Bool.true_or]

/-- Of the signs only closing parentheses end a word. -/
theorem endsInWord_sign {c : Char} {token : Token} (sign : Token.ofSign? c = some token) :
    endsInWord wordEnded [c] = token.endsWord := by
  -- There are eight signs.
  unfold Token.ofSign? at sign
  split at sign <;> simp only [Option.some.injEq, reduceCtorEq] at sign <;> subst sign <;> rfl

/-- No word ends with a blank. -/
theorem endsInWord_blanks (nonempty : run ≠ []) (each : ∀ c ∈ run, isBlank c) :
    endsInWord wordEnded run = false := by
  -- The last character is a blank, and so neither one of a name nor a parenthesis.
  have blank := each _ (List.getLast_mem nonempty)
  have noParen : run.getLast nonempty ≠ ')' := by
    intro same
    rw [same] at blank
    contradiction
  rw [endsInWord, List.getLast?_eq_some_getLast nonempty, Option.elim_some,
    isIdentChar_eq_false_of_isBlank blank, Bool.false_or, beq_eq_false_iff_ne]
  exact noParen

/-- Blanks are left out of each part. -/
theorem unspaced_append (first second : List Char) :
    unspaced (first ++ second) = unspaced first ++ unspaced second := by
  -- Filtering and mapping go through a text character by character.
  simp [unspaced]

/-- No name has a blank in it. -/
theorem isBlank_eq_false_of_isIdentChar {c : Char} (inside : isIdentChar c) :
    isBlank c = false := by
  -- Were it a blank it could not go on in a name.
  rw [Bool.eq_false_iff]
  intro blank
  rw [isIdentChar_eq_false_of_isBlank blank] at inside
  contradiction

/-- No name has a lambda sign in it. -/
theorem asLetter_of_isIdentChar {c : Char} (inside : isIdentChar c) : asLetter c = c := by
  -- The signs that the letter stands for are no characters of names.
  rw [asLetter, if_neg]
  intro sign
  simp only [List.contains_eq_mem, List.mem_cons, List.not_mem_nil, or_false,
    decide_eq_true_eq] at sign
  rcases sign with rfl | rfl | rfl | rfl <;> contradiction

/-- A name is written as it is. -/
theorem unspaced_name {name : Name} (identifier : isIdentifier name) :
    unspaced name.toList = name.toList := by
  obtain ⟨-, -, -, -, all⟩ := isIdentifier_iff.mp identifier
  -- No blank is left out of it, and no sign is replaced.
  have kept : name.toList.filter (!isBlank ·) = name.toList := by
    refine List.filter_eq_self.mpr fun c member => ?_
    rw [isBlank_eq_false_of_isIdentChar (all c member), Bool.not_false]
  rw [unspaced, kept]
  exact (List.map_congr_left fun c member => asLetter_of_isIdentChar (all c member)).trans
    (List.map_id _)

/-- A sign is written as it is, unless it opens an abstraction. -/
theorem unspaced_sign {c : Char} {token : Token} (sign : Token.ofSign? c = some token) :
    unspaced [c] = token.written := by
  -- There are eight signs.
  unfold Token.ofSign? at sign
  split at sign <;> simp only [Option.some.injEq, reduceCtorEq] at sign <;> subst sign <;> decide

/-- Blanks are not written. -/
theorem unspaced_blanks (each : ∀ c ∈ run, isBlank c) : unspaced run = [] := by
  -- The filter leaves none of them.
  simp +contextual [unspaced, each]

/-- Written back without blanks, the tokens are the text without its blanks. -/
theorem Cuts.written (cuts : Cuts wordEnded chars tokens) :
    tokens.flatMap Token.written = unspaced chars := by
  -- Each token writes what its piece is without blanks.
  induction cuts with
  -- The end is not written.
  | finished wordEnded => rfl
  | name identifier ends cuts ih =>
    rw [List.flatMap_cons, unspaced_append, unspaced_name identifier, ih, Token.written]
  | @sign wordEnded c token rest tokens sign cuts ih =>
    have first := unspaced_append [c] rest
    rw [List.singleton_append] at first
    rw [List.flatMap_cons, first, unspaced_sign sign, ih]
  | @blanks wordEnded run rest tokens nonempty each ends cuts ih =>
    -- Neither the run nor the token that may report it is written.
    rw [unspaced_append, unspaced_blanks each, List.nil_append, ← ih]
    cases wordEnded <;> rfl

/-- No sign is a name. -/
theorem ne_ident_of_ofSign? {c : Char} {token : Token} (sign : Token.ofSign? c = some token)
    (name : Name) : token ≠ .ident name := by
  -- There are eight signs.
  unfold Token.ofSign? at sign
  split at sign <;> simp only [Option.some.injEq, reduceCtorEq] at sign <;> subst sign <;> nofun

/-- Of the signs only the closing parenthesis ends a word. -/
theorem eq_closeParen_of_endsWord {c : Char} {token : Token}
    (sign : Token.ofSign? c = some token) (ends : token.endsWord) : token = .closeParen := by
  -- A name ends a word as well, but is no sign.
  cases token with
  | closeParen => rfl
  | ident name => exact absurd rfl (ne_ident_of_ofSign? sign name)
  | _ => contradiction

/-- Blanks come first only where a word has ended, and a name only where it can begin. -/
theorem Cuts.first {token : Token} (cuts : Cuts wordEnded chars tokens)
    (found : token ∈ tokens.head?) :
    (token = .blank → wordEnded) ∧
      ∀ name, token = .ident name → wordEnded → ∃ c ∈ chars.head?, isIdentChar c := by
  -- Only a run that is not reported leaves the first token to what comes behind it.
  induction cuts with
  | finished wordEnded =>
    obtain rfl : Token.eof = token := by simpa using found
    exact ⟨nofun, nofun⟩
  | @name wordEnded name rest tokens identifier ends cuts ih =>
    -- A name comes first with its first character.
    obtain rfl : Token.ident name = token := by simpa using found
    obtain ⟨first, others, spelled, -, all⟩ := isIdentifier_iff.mp identifier
    refine ⟨nofun, fun other same ended => ⟨first, by simp [spelled], all first ?_⟩⟩
    rw [spelled]
    exact List.mem_cons_self
  | sign sign cuts ih =>
    -- A sign is neither a blank nor a name.
    obtain rfl := Option.some.inj found
    obtain ⟨-, -, -, solid⟩ := Token.of_ofSign? sign
    exact ⟨fun same => absurd same solid,
      fun name same => absurd same (ne_ident_of_ofSign? sign name)⟩
  | @blanks wordEnded run rest tokens nonempty each ends cuts ih =>
    -- The run is reported only behind a word, and without one what comes behind it is first.
    cases wordEnded with
    | true =>
      obtain rfl : Token.blank = token := by simpa using found
      exact ⟨fun _ => rfl, nofun⟩
    | false => exact ⟨fun same => absurd ((ih found).1 same) (by simp), by simp⟩

/-- Of two tokens next to each other a blank follows a word, and not both are names. -/
theorem Cuts.adjoins (cuts : Cuts wordEnded chars tokens) : tokens.IsChain Token.Adjoins := by
  -- Each piece says whether a word ends with it, on which the first token behind it depends.
  induction cuts with
  | finished wordEnded => exact .singleton _
  | @name wordEnded name rest tokens identifier ends cuts ih =>
    refine List.isChain_cons.mpr ⟨fun next found => ⟨fun _ => .inr ⟨name, identifier, rfl⟩, ?_⟩, ih⟩
    -- Another name would go on with the one before it.
    rintro _ other - same
    obtain ⟨c, first, inside⟩ := (cuts.first found).2 other same rfl
    rw [ends c first] at inside
    contradiction
  | @sign wordEnded c token rest tokens sign cuts ih =>
    refine List.isChain_cons.mpr ⟨fun next found => ⟨fun same => .inl ?_, ?_⟩, ih⟩
    · -- A blank behind a sign says that the sign ends a word.
      exact eq_closeParen_of_endsWord sign ((cuts.first found).1 same)
    · exact fun name _ same => absurd same (ne_ident_of_ofSign? sign name)
  | @blanks wordEnded run rest tokens nonempty each ends cuts ih =>
    -- Behind a run no word has ended, so that no second blank comes.
    cases wordEnded with
    | true =>
      refine List.isChain_cons.mpr ⟨fun next found => ⟨fun same => ?_, nofun⟩, ih⟩
      exact absurd ((cuts.first found).1 same) (by simp)
    | false => exact ih

namespace FollowsWord

/-- A run in what is left of a text is one in the text as a whole. -/
theorem behind (piece : List Char)
    (follows : FollowsWord (endsInWord wordEnded piece) rest before run after) :
    FollowsWord wordEnded (piece ++ rest) (piece ++ before) run after where
  split := by rw [follows.split, List.append_assoc]
  nonempty := follows.nonempty
  each := follows.each
  ends := follows.ends
  follows := by rw [endsInWord_append, follows.follows]

/-- A run comes behind a piece of the text that it does not begin in. -/
theorem exists_behind (follows : FollowsWord wordEnded (piece ++ rest) before run after)
    (outside : piece.length ≤ before.length) :
    ∃ inner, before = piece ++ inner ∧
      FollowsWord (endsInWord wordEnded piece) rest inner run after := by
  obtain ⟨split, nonempty, each, ends, follows⟩ := follows
  -- Both ways to split the text agree in which part is longer.
  obtain ⟨inner, rfl, same⟩ | ⟨beyond, rfl, same⟩ := List.append_eq_append_iff.mp split
  · exact ⟨inner, rfl, same, nonempty, each, ends, by rwa [endsInWord_append] at follows⟩
  · -- The piece goes no further than the run begins.
    obtain rfl : beyond = [] := by
      rw [List.length_append] at outside
      exact List.eq_nil_of_length_eq_zero (by omega)
    refine ⟨[], by simp, by simpa using same.symm, nonempty, each, ends, ?_⟩
    rw [List.append_nil]
    exact follows

/-- A run does not begin in a piece without blanks. -/
theorem outside (follows : FollowsWord wordEnded (piece ++ rest) before run after)
    (solid : ∀ c ∈ piece, isBlank c = false) : piece.length ≤ before.length := by
  refine Nat.le_of_not_lt fun inside => ?_
  -- The first blank of the run would be a character of the piece.
  obtain ⟨c, others, rfl⟩ := List.exists_cons_of_ne_nil follows.nonempty
  have here : (piece ++ rest)[before.length]? = some c := by
    rw [follows.split]
    simp
  rw [List.getElem?_append_left inside] at here
  have blank := follows.each c List.mem_cons_self
  rw [solid c (List.mem_of_getElem? here)] at blank
  contradiction

/-- A run begins where the blanks do that it is made of. -/
theorem outside_blanks (follows : FollowsWord wordEnded (piece ++ rest) before run after)
    (blanks : ∀ c ∈ piece, isBlank c) (behind : before ≠ []) : piece.length ≤ before.length := by
  refine Nat.le_of_not_lt fun inside => ?_
  -- Otherwise there would be a blank right before it.
  have part : before <+: piece :=
    List.prefix_of_prefix_length_le ⟨run ++ after, follows.split.symm⟩
      (List.prefix_append piece rest)
      (Nat.le_of_lt inside)
  have ended := follows.follows
  rw [endsInWord_blanks behind fun c member => blanks c (part.subset member)] at ended
  contradiction

/-- Behind a word the text has not only blanks more than at an earlier place. -/
theorem eq_of_prefix {other : List Char} (follows : FollowsWord wordEnded chars other run after)
    (part : before <+: other) (same : unspaced before = unspaced other) : before = other := by
  obtain ⟨extra, rfl⟩ := part
  rw [unspaced_append, List.self_eq_append_right] at same
  -- What comes in between would be blanks.
  have blanks : ∀ c ∈ extra, isBlank c := by simpa [unspaced] using same
  cases extra with
  | nil => rw [List.append_nil]
  | cons c others =>
    -- The word would end with a blank.
    have ended := follows.follows
    rw [endsInWord_append, endsInWord_blanks (by simp) blanks] at ended
    contradiction

/-- A run that follows a word is known by what is written before it. -/
theorem eq_of_unspaced_eq {other otherRun otherAfter : List Char}
    (follows : FollowsWord wordEnded chars before run after)
    (otherFollows : FollowsWord wordEnded chars other otherRun otherAfter)
    (same : unspaced before = unspaced other) : before = other := by
  -- Of two places in one text one is the earlier.
  have first : before <+: chars := ⟨run ++ after, follows.split.symm⟩
  have second : other <+: chars := ⟨otherRun ++ otherAfter, otherFollows.split.symm⟩
  rcases List.prefix_or_prefix_of_prefix first second with part | part
  · exact otherFollows.eq_of_prefix part same
  · exact (follows.eq_of_prefix part same.symm).symm

end FollowsWord

namespace Cuts

/-- Every blank among the tokens stands at a run that follows a word. -/
theorem exists_run {earlier later : List Token} (cuts : Cuts wordEnded chars tokens)
    (split : tokens = earlier ++ .blank :: later) :
    ∃ before run after, FollowsWord wordEnded chars before run after ∧
      earlier.flatMap Token.written = unspaced before := by
  -- The blank is that of the first piece, or one of the rest with the piece in front of its run.
  induction cuts generalizing earlier with
  -- The end is no blank.
  | finished wordEnded =>
    obtain ⟨rfl, same⟩ | ⟨others, rfl, same⟩ := List.cons_eq_append_iff.mp split
    · simp at same
    · simp at same
  | @name wordEnded name rest tokens identifier ends cuts ih =>
    obtain ⟨rfl, same⟩ | ⟨others, rfl, same⟩ := List.cons_eq_append_iff.mp split
    · simp at same
    · -- A blank in the rest has its run there, in front of which the name is written.
      obtain ⟨before, run, after, follows, same⟩ := ih same
      refine ⟨name.toList ++ before, run, after,
        .behind _ (endsInWord_name identifier ▸ follows), ?_⟩
      rw [List.flatMap_cons, same, unspaced_append, unspaced_name identifier, Token.written]
  | @sign wordEnded c token rest tokens sign cuts ih =>
    obtain ⟨rfl, same⟩ | ⟨others, rfl, same⟩ := List.cons_eq_append_iff.mp split
    · obtain ⟨-, -, -, solid⟩ := Token.of_ofSign? sign
      exact absurd (List.cons.inj same).1.symm solid
    · obtain ⟨before, run, after, follows, same⟩ := ih same
      refine ⟨[c] ++ before, run, after, .behind [c] (endsInWord_sign sign ▸ follows), ?_⟩
      rw [List.flatMap_cons, same, unspaced_append, unspaced_sign sign]
  | @blanks wordEnded piece rest tokens nonempty each ends cuts ih =>
    -- What is found in the rest of the text stands behind the run.
    have inRest {others : List Token} (same : tokens = others ++ .blank :: later) :
        ∃ before run after, FollowsWord wordEnded (piece ++ rest) before run after ∧
          others.flatMap Token.written = unspaced before := by
      obtain ⟨before, run, after, follows, same⟩ := ih same
      refine ⟨piece ++ before, run, after,
        .behind piece (endsInWord_blanks nonempty each ▸ follows), ?_⟩
      rw [unspaced_append, unspaced_blanks each, List.nil_append, same]
    cases wordEnded with
    | false => exact inRest split
    | true =>
      obtain ⟨rfl, same⟩ | ⟨others, rfl, same⟩ := List.cons_eq_append_iff.mp split
      · -- The first blank is that of the run, behind the word that ended before.
        exact ⟨[], piece, rest, ⟨rfl, nonempty, each, ends, rfl⟩, rfl⟩
      · obtain ⟨before, run, after, follows, written⟩ := inRest same
        exact ⟨before, run, after, follows, written⟩

/-- A blank among the tokens stands at every run that follows a word. -/
theorem exists_blank (cuts : Cuts wordEnded chars tokens)
    (follows : FollowsWord wordEnded chars before run after) :
    ∃ earlier later, tokens = earlier ++ .blank :: later ∧
      earlier.flatMap Token.written = unspaced before := by
  -- No run begins inside a piece, so it is the first piece itself or one in the rest.
  induction cuts generalizing before with
  -- In an empty text there is no run.
  | finished wordEnded =>
    have nothing := follows.split
    simp [follows.nonempty] at nothing
  | @name wordEnded name rest tokens identifier ends cuts ih =>
    obtain ⟨-, -, -, -, all⟩ := isIdentifier_iff.mp identifier
    -- The run stands behind the name, which has no blank in it.
    have solid : ∀ c ∈ name.toList, isBlank c = false :=
      fun c member => isBlank_eq_false_of_isIdentChar (all c member)
    obtain ⟨inner, rfl, inRest⟩ := follows.exists_behind (follows.outside solid)
    rw [endsInWord_name identifier] at inRest
    obtain ⟨earlier, later, rfl, same⟩ := ih inRest
    refine ⟨.ident name :: earlier, later, rfl, ?_⟩
    rw [List.flatMap_cons, same, unspaced_append, unspaced_name identifier, Token.written]
  | @sign wordEnded c token rest tokens sign cuts ih =>
    -- No sign is a blank, so that the run stands behind it as well.
    obtain ⟨-, -, noBlank, -⟩ := Token.of_ofSign? sign
    have follows : FollowsWord wordEnded ([c] ++ rest) before run after := follows
    obtain ⟨inner, rfl, inRest⟩ :=
      follows.exists_behind (follows.outside (by simpa using noBlank))
    rw [endsInWord_sign sign] at inRest
    obtain ⟨earlier, later, rfl, same⟩ := ih inRest
    refine ⟨token :: earlier, later, rfl, ?_⟩
    rw [List.flatMap_cons, same, unspaced_append, unspaced_sign sign]
  | @blanks wordEnded piece rest tokens nonempty each ends cuts ih =>
    cases before with
    | nil =>
      -- This is the run itself, behind a word that ended before.
      obtain rfl : wordEnded = true := follows.follows
      exact ⟨[], tokens, rfl, rfl⟩
    | cons c others =>
      -- Another run stands behind this one, with something in between.
      obtain ⟨inner, same, inRest⟩ :=
        follows.exists_behind (follows.outside_blanks each (List.cons_ne_nil c others))
      rw [endsInWord_blanks nonempty each] at inRest
      obtain ⟨earlier, later, rfl, written⟩ := ih inRest
      rw [same, unspaced_append, unspaced_blanks each, List.nil_append]
      cases wordEnded with
      | true => exact ⟨.blank :: earlier, later, rfl, written⟩
      | false => exact ⟨earlier, later, rfl, written⟩

/-- Tokens right before a blank are not all without writing. -/
theorem eq_nil_of_unwritten {earlier between later : List Token}
    (cuts : Cuts wordEnded chars tokens)
    (split : tokens = earlier ++ between ++ .blank :: later)
    (unwritten : between.flatMap Token.written = []) : between = [] := by
  -- The last of them would be a word, and words are written.
  rcases List.eq_nil_or_concat between with rfl | ⟨front, last, rfl⟩
  · rfl
  · have parts : tokens = (earlier ++ front) ++ last :: .blank :: later := by simpa using split
    have adjoins := List.isChain_iff_forall_rel_of_append_cons_cons.mp cuts.adjoins parts
    have nothing := List.flatMap_eq_nil_iff.mp unwritten last (by simp)
    rcases adjoins.behindWord rfl with rfl | ⟨name, identifier, rfl⟩
    · contradiction
    · obtain ⟨first, others, spelled, -⟩ := isIdentifier_iff.mp identifier
      rw [Token.written, spelled] at nothing
      contradiction

/-- A blank among the tokens is known by what is written before it. -/
theorem eq_of_written_eq {earlier later other otherLater : List Token}
    (cuts : Cuts wordEnded chars tokens) (split : tokens = earlier ++ .blank :: later)
    (otherSplit : tokens = other ++ .blank :: otherLater)
    (same : earlier.flatMap Token.written = other.flatMap Token.written) : earlier = other := by
  -- The tokens in between the two blanks would write nothing.
  rcases List.append_eq_append_iff.mp (split.symm.trans otherSplit) with
    ⟨between, rfl, -⟩ | ⟨between, rfl, -⟩
  · rw [List.flatMap_append, List.self_eq_append_right] at same
    rw [cuts.eq_nil_of_unwritten otherSplit same, List.append_nil]
  · rw [List.flatMap_append, List.append_right_eq_self] at same
    rw [cuts.eq_nil_of_unwritten split same, List.append_nil]

end Cuts

end

namespace Lexer

/-- The tokens of a text, written back without blanks, are the text without its blanks and with the
letter for every lambda sign. The end comes last and only there, no two names are next to each
other, and blanks are reported once at each run of them that follows a name or a closing parenthesis
and nowhere else; what is written before tells which token stands at which run. -/
theorem tokenize_written {text : String} {tokens : List Token}
    (cut : (ofText text).tokenize.1 = .ok tokens) :
    tokens.flatMap Token.written = unspaced text.toList ∧
      (∃ inside, tokens = inside ++ [.eof] ∧ .eof ∉ inside) ∧
      (∀ earlier later first second,
        tokens ≠ earlier ++ .ident first :: .ident second :: later) ∧
      (∀ earlier later, tokens = earlier ++ .blank :: later →
        ∃! before, ∃ run after, FollowsWord false text.toList before run after ∧
          earlier.flatMap Token.written = unspaced before) ∧
      ∀ before run after, FollowsWord false text.toList before run after →
        ∃! earlier, ∃ later, tokens = earlier ++ .blank :: later ∧
          earlier.flatMap Token.written = unspaced before := by
  -- The pieces of the text have all that is said of its tokens.
  have cuts : Cuts false text.toList tokens := cuts_of_tokensAfter cut
  have adjoin := List.isChain_iff_forall_rel_of_append_cons_cons.mp cuts.adjoins
  refine ⟨cuts.written, ?_, ?_, ?_, ?_⟩
  · -- The end is the last token and no other.
    obtain ⟨inside, rfl, each⟩ := tokensAfter_ended cut
    exact ⟨inside, rfl, fun member => each _ member⟩
  · intro earlier later first second same
    exact (adjoin same).apart first second rfl rfl
  · -- A blank has its run, which is known by what is written before it.
    intro earlier later split
    obtain ⟨before, run, after, follows, written⟩ := cuts.exists_run split
    refine ⟨before, ⟨run, after, follows, written⟩, ?_⟩
    rintro other ⟨otherRun, otherAfter, otherFollows, otherWritten⟩
    exact otherFollows.eq_of_unspaced_eq follows (otherWritten.symm.trans written)
  · -- A run has its blank, which is known in the same way.
    intro before run after follows
    obtain ⟨earlier, later, split, written⟩ := cuts.exists_blank follows
    refine ⟨earlier, ⟨later, split, written⟩, ?_⟩
    rintro other ⟨otherLater, otherSplit, otherWritten⟩
    exact cuts.eq_of_written_eq otherSplit split (otherWritten.trans written.symm)

/-- The blanks behind a name are reported once, and those behind a lambda sign are not. -/
theorem tokenize_written_argument :
    let tokens := [.lambda, .ident "x", .dot, .openParen, .ident "f", .blank, .ident "x",
      .closeParen, .eof]
    (ofText "\\ x.(f  x)").tokenize.1 = .ok tokens ∧
      tokens.flatMap Token.written = "λx.(fx)".toList ∧
      FollowsWord false "\\ x.(f  x)".toList "\\ x.(f".toList [' ', ' '] ['x', ')'] ∧
      ∃! earlier, ∃ later, tokens = earlier ++ .blank :: later ∧
        earlier.flatMap Token.written = unspaced "\\ x.(f".toList := by
  intro tokens
  have cut : (ofText "\\ x.(f  x)").tokenize.1 = .ok tokens := by decide +kernel
  obtain ⟨written, -, -, -, blanks⟩ := tokenize_written cut
  -- The two blanks are all that separates the name from the next one.
  have follows :
      FollowsWord false "\\ x.(f  x)".toList "\\ x.(f".toList [' ', ' '] ['x', ')'] :=
    ⟨rfl, by simp, List.forall_mem_cons.mpr ⟨rfl, List.forall_mem_singleton.mpr rfl⟩,
      by rintro c ⟨⟩; rfl, rfl⟩
  exact ⟨cut, written, follows, blanks _ _ _ follows⟩

end Lexer

end NamedLambda
