import Mathlib.Order.Bounds.Defs
import NamedLambda.Proofs.Name.Fresh

/-! A fresh name is found by counting up from one behind the stem of the name it is made from. -/

namespace NamedLambda

/-- What is left of a name without its trailing digits, or the name itself if nothing would be. -/
inductive IsStem (base : Name) : Name → Prop where
  /-- Digits are cut off behind a character of another kind. -/
  | cut {stem : Name} {digits : List Char} (together : base.toList = stem.toList ++ digits)
    (each : ∀ c ∈ digits, c.isDigit) (kept : ∃ c ∈ stem.toList.getLast?, c.isDigit = false) :
    IsStem base stem
  /-- A name made of digits only is kept as it is. -/
  | whole (each : ∀ c ∈ base.toList, c.isDigit) : IsStem base base

/-- Trying one number after the other, from a given one on, comes after a count of candidates to the
first name that is not avoided. -/
inductive Searches (stem : Name) (avoid : NameSet) : (number tried : Nat) → Name → Prop where
  /-- A candidate that is not avoided ends the search. -/
  | unused {number : Nat} (free : numberedName stem number ∉ avoid) :
    Searches stem avoid number 1 (numberedName stem number)
  /-- Behind an avoided candidate the search goes on with the next number. -/
  | used {number tried : Nat} {name : Name} (taken : numberedName stem number ∈ avoid)
    (later : Searches stem avoid (number + 1) tried name) :
    Searches stem avoid number (tried + 1) name

/-- The stem that fresh names are made from is what it should be. -/
theorem isStem_nameStem (base : Name) : IsStem base (nameStem base) := by
  -- The trailing digits are the leading ones of the reversed name.
  have parts : base.toList = (base.toList.reverse.dropWhile Char.isDigit).reverse ++
      (base.toList.reverse.takeWhile Char.isDigit).reverse := by
    rw [← List.reverse_append, List.takeWhile_append_dropWhile, List.reverse_reverse]
  have digits : ∀ c ∈ (base.toList.reverse.takeWhile Char.isDigit).reverse, c.isDigit :=
    fun c member => List.all_eq_true.mp List.all_takeWhile c (List.mem_reverse.mp member)
  rw [nameStem]
  cases kept : base.toList.reverse.dropWhile Char.isDigit with
  | nil =>
    -- Nothing but digits was there.
    rw [kept, List.reverse_nil, List.nil_append] at parts
    exact .whole (parts ▸ digits)
  | cons last front =>
    -- The first character that is left of the reversed name is no digit.
    have noDigit : last.isDigit = false := by
      have ended := List.head?_dropWhile_not Char.isDigit base.toList.reverse
      rwa [kept] at ended
    have nonempty : (last :: front).reverse.isEmpty = false := by simp
    rw [kept] at parts
    simp only [nonempty, Bool.false_eq_true, if_false]
    refine .cut (by rwa [String.toList_ofList]) digits ⟨last, ?_, noDigit⟩
    simp [List.getLast?_reverse]

/-- There is no other stem. -/
theorem IsStem.eq_nameStem {base stem : Name} (stems : IsStem base stem) :
    stem = nameStem base := by
  rw [nameStem]
  -- The reversed name is read up to the first character that is no digit.
  cases stems with
  | @cut _ digits together each kept =>
    obtain ⟨last, ended, noDigit⟩ := kept
    -- Reversed, the name begins with the digits, and behind them with the end of the stem.
    have left : base.toList.reverse.dropWhile Char.isDigit = stem.toList.reverse := by
      rw [together, List.reverse_append,
        List.dropWhile_append_of_pos fun c member => each c (List.mem_reverse.mp member)]
      rw [Option.mem_def, ← List.head?_reverse] at ended
      obtain ⟨front, spelled⟩ := List.head?_eq_some_iff.mp ended
      rw [spelled, List.dropWhile_cons_of_neg (by simp [noDigit])]
    have nonempty : stem.toList.isEmpty = false := by
      cases spelled : stem.toList with
      | nil => simp [spelled] at ended
      | cons first rest => rfl
    simp only [left, List.reverse_reverse, nonempty, Bool.false_eq_true, if_false,
      String.ofList_toList]
  | whole each =>
    -- Nothing is left of the reversed name.
    have left : base.toList.reverse.dropWhile Char.isDigit = [] := by
      rw [← List.append_nil base.toList.reverse,
        List.dropWhile_append_of_pos fun c member => each c (List.mem_reverse.mp member),
        List.dropWhile_nil]
    simp only [left, List.reverse_nil, List.isEmpty_nil, if_true]

section

variable {stem : Name} {avoid : NameSet} {number : Nat}

/-- A search ends at a name that is not avoided, behind candidates that all are. -/
theorem Searches.passes {tried : Nat} {name : Name}
    (searches : Searches stem avoid number tried name) :
    ∃ last, number + tried = last + 1 ∧ name = numberedName stem last ∧ name ∉ avoid ∧
      ∀ other, number ≤ other → other < last → numberedName stem other ∈ avoid := by
  -- The induction is on the candidates that were tried.
  induction searches with
  | @unused number free => exact ⟨number, rfl, rfl, free, fun other atLeast below => by omega⟩
  | @used number tried name taken later ih =>
    obtain ⟨last, counted, same, free, avoided⟩ := ih
    refine ⟨last, by omega, same, free, fun other atLeast below => ?_⟩
    -- The first candidate was avoided, and the others are those of the search that goes on.
    rcases Nat.eq_or_lt_of_le atLeast with rfl | behind
    · exact taken
    · exact avoided other behind below

/-- Where the bounded search finds a name, the search without a bound finds the same. -/
theorem searches_firstUnused {rejections : Nat}
    (free : firstUnused stem avoid rejections number ∉ avoid) :
    ∃ steps ≤ rejections,
      Searches stem avoid number (steps + 1) (firstUnused stem avoid rejections number) := by
  -- Both searches try the same candidates, and the bound is not used up.
  induction rejections generalizing number with
  -- With nothing left to reject the candidate at hand is the one returned.
  | zero => exact ⟨0, Nat.le_refl 0, .unused free⟩
  | succ rejections ih =>
    rw [firstUnused] at free ⊢
    split
    · -- An avoided candidate is one of those that the bound allows for.
      rename_i taken
      rw [if_pos taken] at free
      obtain ⟨steps, bounded, later⟩ := ih free
      exact ⟨steps + 1, Nat.succ_le_succ bounded, .used taken later⟩
    · rename_i unused
      exact ⟨0, Nat.zero_le _, .unused unused⟩

/-- A search has one end only. -/
theorem Searches.unique {tried other : Nat} {name otherName : Name}
    (searches : Searches stem avoid number tried name)
    (otherSearches : Searches stem avoid number other otherName) :
    tried = other ∧ name = otherName := by
  -- Whether a candidate is avoided decides how both go on.
  induction searches generalizing other with
  | unused free =>
    cases otherSearches with
    | unused => exact ⟨rfl, rfl⟩
    | used taken => exact absurd taken free
  | used taken later ih =>
    cases otherSearches with
    | unused free => exact absurd taken free
    | used _ otherLater =>
      obtain ⟨rfl, rfl⟩ := ih otherLater
      exact ⟨rfl, rfl⟩

end

/-- A fresh name is the stem with the least positive number that makes it a name in no use; the
search that goes up from one without a bound of its own ends there, after no more candidates than
there are avoided names and one. -/
theorem freshName_search (base : Name) (avoid : NameSet) :
    (∀ stem, IsStem base stem ↔ stem = nameStem base) ∧
      ∃ number, freshName base avoid = nameStem base ++ number.repr ∧
        IsLeast {other | 1 ≤ other ∧ nameStem base ++ other.repr ∉ avoid} number ∧
        number ≤ avoid.size + 1 ∧
        ∀ tried name, Searches (nameStem base) avoid 1 tried name ↔
          tried = number ∧ name = freshName base avoid := by
  -- The bounded search ends at an unused name, where the search without a bound ends as well.
  obtain ⟨steps, bounded, ends⟩ := searches_firstUnused (freshName_not_mem base avoid)
  obtain ⟨number, counted, found, free, avoided⟩ := ends.passes
  -- Counting from one, the number of the last candidate says how many there were.
  obtain rfl : number = steps + 1 := by omega
  have found : freshName base avoid = nameStem base ++ (steps + 1).repr := found
  refine ⟨fun stem => ?_, steps + 1, found, ⟨⟨by omega, ?_⟩, ?_⟩, by omega, ?_⟩
  · constructor
    · exact IsStem.eq_nameStem
    · rintro rfl
      exact isStem_nameStem base
  · rw [← found]
    exact free
  · -- Every smaller number has been tried and was in use.
    rintro other ⟨positive, unused⟩
    exact Nat.le_of_not_lt fun smaller => unused (avoided other positive smaller)
  · intro tried name
    constructor
    · exact fun searches => searches.unique ends
    · rintro ⟨rfl, rfl⟩
      exact ends

/-- A name of digits only is its own stem. -/
example : nameStem "7" = "7" ∧ freshName "7" {"71"} = "72" := by
  decide

end NamedLambda
