/-!
# Percentages

A part of a whole in percent, cut off to an integer. The quotient and the percentage are rounded to
53 binary digits on the way, so that the result can be one less than the exact quotient cut off.
-/

namespace TreeMacros.Tally

/-- The integer nearest to a quotient; a half goes to the even neighbour. -/
def roundHalfEven (num den : Nat) : Nat :=
  let q := num / den
  let r := num % den
  if 2 * r < den then q
  else if den < 2 * r then q + 1
  else if q % 2 == 0 then q else q + 1

/-- A quotient rounded to 53 binary digits, as a mantissa and the number of its digits after the
binary point. The quotient is less than `2 ^ 52`. -/
def round53 (num den : Nat) : Nat × Nat :=
  if num == 0 then (0, 0)
  else
    let e := 52 + den.log2 - num.log2
    let e := if (num <<< e) / den < 1 <<< 52 then e + 1 else e
    (roundHalfEven (num <<< e) den, e)

def percent (part whole : Nat) : Nat :=
  let (m, e) := round53 part whole
  let (m, e) := round53 (100 * m) (1 <<< e)
  m >>> e

example : percent 29 101 = 28 := by decide +kernel
example : percent 58 200 = 28 := by decide +kernel
example : percent 1 2 = 50 := by decide +kernel

end TreeMacros.Tally
