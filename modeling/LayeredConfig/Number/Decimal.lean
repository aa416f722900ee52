import LayeredConfig.Number.Rounding

/-!
# Decimal text of numbers

How a number is written and read.

- `Number.text`: whole numbers below `2 ^ 53` are written by their digits. Any other number is
  written by the fewest significant digits that read back as it (`shortestDigits`), of equally
  few the nearest, of equally near the even. The point is placed positionally from `10 ^ -7`
  up to `10 ^ 21`, and in scientific notation outside (`layout`). Both zeros are `0`.
- `Number.signedText`: the same, with the negatively signed zero as `-0`.
- `Number.ofText`: the number nearest to a literal: a decimal one, or a whole number in base 16,
  8 or 2. Blanks around it do not count, and blanks alone are zero.
-/

namespace LayeredConfig

namespace Number

/-! ## Writing -/

/-- The decimal digits of a natural number, most significant first. -/
def digits (n : Nat) : List Char := Nat.toDigits 10 n

/-- `10 ^ e` as a fraction, numerator first. -/
def powerOfTen (e : Int) : Nat × Nat := (Nat.pow 10 e.toNat, Nat.pow 10 (-e).toNat)

/-- The exponent `k` with `10 ^ (k - 1) ≤ num / den < 10 ^ k`, for a positive fraction. -/
def decimalMagnitude (num den : Nat) : Int :=
  let k : Int := ((digits num).length : Int) - (digits den).length
  let (up, down) := powerOfTen k
  if up * den ≤ num * down then k + 1 else k

/-- Significant digits together with the place of the point: `digits` and `point` stand for
`0.digits · 10 ^ point`. -/
structure Significand where
  digits : List Char
  point : Int
deriving DecidableEq

/-- The significand of `n · 10 ^ e`, without zeros at its end. -/
def significandOf (n : Nat) (e : Int) : Significand :=
  let ds := digits n
  ⟨(ds.reverse.dropWhile (· == '0')).reverse, e + ds.length⟩

/-- Whether `n · 10 ^ e` reads back as the fraction `num / den`. -/
def readsBack (num den n : Nat) (e : Int) : Bool :=
  let (up, down) := powerOfTen e
  match nearestFraction? (n * up) down with
  | some (num', den') => num' * den == num * den'
  | none => false

/-- The better of the two neighbours of `num / den` among the multiples of `10 ^ e`: of those
that read back the nearer, and the even one of two equally near. -/
def neighbour? (num den : Nat) (e : Int) : Option Nat :=
  let (up, down) := powerOfTen e
  let scaled := num * down
  let unit := den * up
  let below := scaled / unit
  match readsBack num den below e, readsBack num den (below + 1) e with
  | true, false => some below
  | false, true => some (below + 1)
  | true, true => some (roundHalfEven scaled unit)
  | false, false => none

/-- Seventeen significant digits tell any two binary64 numbers apart. -/
def mostDigits : Nat := 17

/-- The first hit among grids of `count` digits and more. -/
def shortestFrom (num den : Nat) (magnitude : Int) : (count grids : Nat) → Significand
  | count, 0 =>
    let e := magnitude - count
    let (up, down) := powerOfTen e
    significandOf (roundHalfEven (num * down) (den * up)) e
  | count, grids + 1 =>
    let e := magnitude - count
    match neighbour? num den e with
    | some n => significandOf n e
    | none => shortestFrom num den magnitude (count + 1) grids

/-- The fewest significant digits that read back as the positive fraction `num / den`. -/
def shortestDigits (num den : Nat) : Significand :=
  shortestFrom num den (decimalMagnitude num den) 1 (mostDigits - 1)

/-- Positional notation is used while the point lies above this place … -/
def leastPositionalPoint : Int := -6

/-- … and not beyond this one. -/
def greatestPositionalPoint : Int := 21

/-- The decimal text of an integer. -/
def integerText (n : Int) : String :=
  String.ofList (if n < 0 then '-' :: digits n.natAbs else digits n.natAbs)

/-- Places the point of a significand. -/
def layout (s : Significand) : String :=
  let count : Int := s.digits.length
  if count ≤ s.point && s.point ≤ greatestPositionalPoint then
    String.ofList (s.digits ++ List.replicate (s.point - count).toNat '0')
  else if 0 < s.point && s.point ≤ greatestPositionalPoint then
    String.ofList (s.digits.take s.point.toNat ++ '.' :: s.digits.drop s.point.toNat)
  else if leastPositionalPoint < s.point && s.point ≤ 0 then
    String.ofList ('0' :: '.' :: (List.replicate (-s.point).toNat '0' ++ s.digits))
  else
    let exponent := s.point - 1
    let mark := if exponent < 0 then "e-" else "e+"
    let significand := match s.digits with
      | [] => []
      | [d] => [d]
      | d :: rest => d :: '.' :: rest
    String.ofList significand ++ mark ++ integerText exponent.natAbs

/-- The text of a rational number. -/
def rationalText (q : Rat) : String :=
  if q.den = 1 ∧ q.num.natAbs < significandBound then integerText q.num
  else (if q.num < 0 then "-" else "") ++ layout (shortestDigits q.num.natAbs q.den)

/-- The text of a number; both zeros are `0`. -/
def text : Number → String
  | .nan => "NaN"
  | .infinity negative => if negative then "-Infinity" else "Infinity"
  | .negativeZero => "0"
  | .finite q => rationalText q

/-- The text of a number that shows the sign of zero. -/
def signedText : Number → String
  | .negativeZero => "-0"
  | n => n.text

/-! ## Reading -/

/-- The natural number that a run of digits denotes, starting from `start`. -/
def ofDigits (start : Nat) (ds : List Char) : Nat :=
  ds.foldl (fun n c => 10 * n + (c.toNat - '0'.toNat)) start

/-- Splits a sign off; `true` means negative. -/
def splitSign : List Char → Bool × List Char
  | '-' :: cs => (true, cs)
  | '+' :: cs => (false, cs)
  | cs => (false, cs)

/-- The exponent at the end of a literal: nothing, or `e` with an optional sign and digits. -/
def exponentOf? : List Char → Option Int
  | [] => some 0
  | c :: cs =>
    let (negative, ds) := splitSign cs
    if (c == 'e' || c == 'E') && !ds.isEmpty && ds.all Char.isDigit then
      let n : Int := ofDigits 0 ds
      some (if negative then -n else n)
    else none

/-- A number with this many digits before the point is infinite, and one with this many zeros right
behind the point is zero. -/
def magnitudeBound : Nat := 400

/-- The rational that an unsigned decimal literal denotes, for instance `12.5e-3`. An exponent
that leads far out of the range of binary64 is brought near it: all such numbers round alike. -/
def unsignedLiteral? (cs : List Char) : Option Rat :=
  let whole := cs.takeWhile Char.isDigit
  let (fraction, rest) := match cs.dropWhile Char.isDigit with
    | '.' :: r => (r.takeWhile Char.isDigit, r.dropWhile Char.isDigit)
    | r => ([], r)
  if whole.isEmpty && fraction.isEmpty then none
  else (exponentOf? rest).map fun e =>
    let least : Int := -(whole.length + fraction.length + magnitudeBound : Nat)
    let (up, down) := powerOfTen (max least (min (e - fraction.length) magnitudeBound))
    mkRat ((ofDigits (ofDigits 0 whole) fraction * up : Nat) : Int) down

/-- The value of a digit in bases up to sixteen. -/
def digitValue? (c : Char) : Option Nat :=
  if c.isDigit then some (c.toNat - '0'.toNat)
  else if 'a' ≤ c.toLower && c.toLower ≤ 'f' then some (c.toLower.toNat - 'a'.toNat + 10)
  else none

/-- The base that a letter announces. -/
def base? (c : Char) : Option Nat :=
  match c.toLower with
  | 'x' => some 16
  | 'o' => some 8
  | 'b' => some 2
  | _ => none

/-- The natural number that a literal with a base denotes, for instance `0x1f`. -/
def basedLiteral? : List Char → Option Nat
  | '0' :: letter :: ds => do
    let base ← base? letter
    let values ← ds.mapM digitValue?
    if values.isEmpty || values.any (base ≤ ·) then none
    else return values.foldl (fun n d => base * n + d) 0
  | _ => none

/-- Whether a character may stand around a literal: a blank, an end of line, or a mark of byte
order. -/
def isBlank (c : Char) : Bool :=
  let n := c.toNat
  (0x09 ≤ n && n ≤ 0x0d) || (0x2000 ≤ n && n ≤ 0x200a)
    || [0x20, 0xa0, 0x1680, 0x2028, 0x2029, 0x202f, 0x205f, 0x3000, 0xfeff].contains n

/-- A text without the blanks around it. -/
def trimBlanks (cs : List Char) : List Char :=
  ((cs.dropWhile isBlank).reverse.dropWhile isBlank).reverse

/-- The number nearest to a decimal literal with an optional sign. -/
def ofDecimal (literal : List Char) : Number :=
  let (negative, cs) := splitSign literal
  if cs = "Infinity".toList then .infinity negative
  else match unsignedLiteral? cs with
    | none => .nan
    | some q =>
      if q.num = 0 then (if negative then .negativeZero else .finite 0)
      else nearest (if negative then -q else q)

/-- The number nearest to the literal `s`; a text that is no literal gives the undefined number. -/
def ofText (s : String) : Number :=
  let literal := trimBlanks s.toList
  if literal.isEmpty then .finite 0
  else match basedLiteral? literal with
    | some n => nearest (n : Int)
    | none => ofDecimal literal

end Number

end LayeredConfig
