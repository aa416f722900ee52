import LayeredConfig.Number.Basic

/-!
# Rounding to binary64

`Number.nearest` is the binary64 number nearest to a rational, a tie going to the even
significand. The numbers of binary64 are `m · 2 ^ e` with `m < 2 ^ 53` and `-1074 ≤ e ≤ 971`;
the exponent is chosen from the magnitude (`binaryMagnitude`), the quotient is rounded once in
natural numbers (`roundHalfEven`), and what lies past the largest of them is infinite.
-/

namespace LayeredConfig

namespace Number

/-- `num / den` rounded to a whole number, a half going to the even neighbour. -/
def roundHalfEven (num den : Nat) : Nat :=
  let below := num / den
  let rest := 2 * (num % den)
  if rest < den then below
  else if den < rest then below + 1
  else if below % 2 = 0 then below else below + 1

/-- `2 ^ e` as a fraction, numerator first. -/
def powerOfTwo (e : Int) : Nat × Nat := (Nat.pow 2 e.toNat, Nat.pow 2 (-e).toNat)

/-- The exponent `e` with `2 ^ e ≤ num / den < 2 ^ (e + 1)`, for a positive fraction. -/
def binaryMagnitude (num den : Nat) : Int :=
  let e : Int := (Nat.log2 num : Int) - Nat.log2 den
  let (up, down) := powerOfTwo e
  if up * den ≤ num * down then e else e - 1

/-- The smallest exponent of a binary64 number. -/
def leastExponent : Int := -1074

/-- The significands of binary64 stay below this bound. -/
def significandBound : Nat := Nat.pow 2 53

/-- No binary64 number reaches this bound. -/
def overflowBound : Nat := Nat.pow 2 1024

/-- The binary64 number nearest to the positive fraction `num / den`, as a fraction; `none`
past the largest. -/
def nearestFraction? (num den : Nat) : Option (Nat × Nat) :=
  let e := max (binaryMagnitude num den - 52) leastExponent
  let (up, down) := powerOfTwo e
  let significand := roundHalfEven (num * down) (den * up)
  if overflowBound * down ≤ significand * up then none else some (significand * up, down)

/-- The binary64 number nearest to `q`. What rounds to zero keeps its sign. -/
def nearest (q : Rat) : Number :=
  if q.num = 0 then .finite 0
  else
    let negative := decide (q.num < 0)
    match nearestFraction? q.num.natAbs q.den with
    | none => .infinity negative
    | some (0, _) => if negative then .negativeZero else .finite 0
    | some (n, d) => .finite (mkRat (if negative then -(n : Int) else n) d)

end Number

end LayeredConfig
