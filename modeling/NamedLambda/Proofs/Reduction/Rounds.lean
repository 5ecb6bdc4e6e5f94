import NamedLambda.Reduction.Run

/-! A run finds the first term that does not step, if the budget leaves a round to see that. -/

namespace NamedLambda.Run

/-- The term that so many steps lead to, if each of them is possible. -/
def stepTimes? (step : Term → Option Term) : (times : Nat) → Term → Option Term
  | 0, term => some term
  | times + 1, term => (step term).bind (stepTimes? step times)

variable {step : Term → Option Term}

/-- Any number of steps keeps what a single one keeps. -/
theorem stepTimes?_keeps {keeps : Term → Prop}
    (kept : ∀ term next, keeps term → step term = some next → keeps next) {times : Nat}
    {term reached : Term} (start : keeps term)
    (found : stepTimes? step times term = some reached) : keeps reached := by
  -- The first step keeps it, and the others start from there.
  induction times generalizing term with
  | zero =>
    obtain rfl : term = reached := by simpa [stepTimes?] using found
    exact start
  | succ times ih =>
    obtain ⟨next, stepped, later⟩ := Option.bind_eq_some_iff.mp found
    exact ih (kept term next start stepped) later

/-- The value of a run is the term that fewer steps than there are rounds lead to, and that does
not step itself. -/
theorem observe_eq_some_iff {left round : Nat} {term value : Term} :
    (observe (fun _ => step) left round term).2 = some value ↔
      ∃ times, times < left ∧ stepTimes? step times term = some value ∧ step value = none := by
  -- The rounds that are left count the steps that may still be made.
  induction left generalizing round term with
  | zero => simp [observe]
  | succ left ih =>
    simp only [observe]
    cases stepped : step term with
    | none =>
      -- No step can be made, so the term itself is the only one in reach.
      constructor
      · intro found
        obtain rfl : term = value := by simpa using found
        exact ⟨0, Nat.zero_lt_succ left, rfl, stepped⟩
      · rintro ⟨times, -, reached, -⟩
        cases times with
        | zero => exact reached
        | succ times => simp [stepTimes?, stepped] at reached
    | some next =>
      -- The value does not step, so it takes at least the step to the next term to get there.
      refine ih.trans ⟨?_, ?_⟩
      · rintro ⟨times, fewer, reached, stops⟩
        exact ⟨times + 1, Nat.succ_lt_succ fewer, by simpa [stepTimes?, stepped], stops⟩
      · rintro ⟨times, fewer, reached, stops⟩
        cases times with
        | zero =>
          obtain rfl : term = value := by simpa [stepTimes?] using reached
          rw [stepped] at stops
          contradiction
        | succ times =>
          exact ⟨times, Nat.lt_of_succ_lt_succ fewer, by simpa [stepTimes?, stepped] using reached,
            stops⟩

/-- What a run sees in a round is the term that as many steps lead to. -/
theorem observe_getElem?_eq_some_iff {left round index : Nat} {term seen : Term} :
    (observe (fun _ => step) left round term).1[index]? = some seen ↔
      index < left ∧ stepTimes? step index term = some seen := by
  -- Each round is one step further than the one before it.
  induction left generalizing round index term with
  | zero => simp [observe]
  | succ left ih =>
    simp only [observe]
    cases stepped : step term with
    | none =>
      -- The term itself is the last one that is seen.
      cases index with
      | zero => simp [stepTimes?]
      | succ index => simp [stepTimes?, stepped]
    | some next =>
      cases index with
      | zero => simp [stepTimes?]
      | succ index =>
        -- The later rounds see what the steps from the next term lead to.
        rw [List.getElem?_cons_succ, ih, stepTimes?, stepped, Option.bind_some,
          Nat.succ_lt_succ_iff]

end NamedLambda.Run
