import NamedLambda.Name.Set

/-! A fresh name is a stem with the least number that keeps it away from the names in use. -/

namespace NamedLambda

/-- The name without its trailing digits, or the whole name when it is made of digits only. -/
def nameStem (base : Name) : Name :=
  let kept := (base.toList.reverse.dropWhile Char.isDigit).reverse
  if kept.isEmpty then base else String.ofList kept

/-- The stem followed by a number in decimal digits. -/
def numberedName (stem : Name) (number : Nat) : Name :=
  stem ++ number.repr

/-- The first numbered name outside the avoided ones, after at most the given rejections. -/
def firstUnused (stem : Name) (avoid : NameSet) : (rejections number : Nat) → Name
  -- As many rejections as there are avoided names leave no avoided name to meet.
  | 0, number => numberedName stem number
  | rejections + 1, number =>
    if numberedName stem number ∈ avoid then firstUnused stem avoid rejections (number + 1)
    else numberedName stem number

/-- The name with its trailing digits replaced by the least positive number not in use. -/
def freshName (base : Name) (avoid : NameSet) : Name :=
  firstUnused (nameStem base) avoid avoid.size 1

end NamedLambda
