/-!
# Numbers

The numbers that a configuration value can hold: the rationals, two infinities, a zero of
negative sign, and one undefined number.

- `Number`: the type. Its values are exact. Whatever reads a number from outside rounds it
  first (`LayeredConfig.Number.Rounding`), so nothing after that has to round again, and a
  position in a sequence is never confused with another, however long the sequence.
- `Number.unsigned`: numbers are told apart in two ways. Two values are *identical* when they
  are `=`. As set members and table keys they count as one when they agree after `unsigned`,
  which forgets the sign of zero.
- `Number.le`: the order; the undefined number stands in no relation to any number.
-/

namespace LayeredConfig

/-- A number: rational, infinite, the negatively signed zero, or undefined. -/
inductive Number where
  /-- The undefined number, for instance the text `abc` read as a number. -/
  | nan
  | infinity (negative : Bool)
  /-- Zero with a negative sign; `finite 0` is the ordinary zero. -/
  | negativeZero
  | finite (value : Rat)
deriving DecidableEq, Inhabited

namespace Number

/-- The number of a position or a count. -/
def ofNat (n : Nat) : Number := .finite (n : Int)

/-- The number of an integer. -/
def ofInt (n : Int) : Number := .finite n

/-- Forgets the sign of zero: the form in which a set or a table stores a number. -/
def unsigned : Number → Number
  | .negativeZero => .finite 0
  | n => n

@[simp] theorem unsigned_unsigned (n : Number) : n.unsigned.unsigned = n.unsigned := by
  cases n <;> rfl

/-- The rational that a number stands for; zero where there is none. -/
def toRat : Number → Rat
  | .finite q => q
  | _ => 0

/-- The order of numbers. Nothing is below or above the undefined number. -/
def le : Number → Number → Bool
  | .nan, _ => false
  | _, .nan => false
  | .infinity true, _ => true
  | _, .infinity false => true
  | .infinity false, _ => false
  | _, .infinity true => false
  | a, b => a.toRat ≤ b.toRat

/-- Whether the number has no fractional part; infinities have none to speak of and fail. -/
def isInteger : Number → Bool
  | .finite q => q.den == 1
  | .negativeZero => true
  | _ => false

/-! ## The sign of zero -/

@[simp] theorem isInteger_unsigned (n : Number) : n.unsigned.isInteger = n.isInteger := by
  cases n <;> rfl

@[simp] theorem le_unsigned (m n : Number) : m.le n.unsigned = m.le n := by
  cases n with
  | negativeZero =>
    cases m with
    | infinity negative => cases negative <;> rfl
    | _ => rfl
  | _ => rfl

@[simp] theorem unsigned_le (m n : Number) : m.unsigned.le n = m.le n := by
  cases m with
  | negativeZero =>
    cases n with
    | infinity negative => cases negative <;> rfl
    | _ => rfl
  | _ => rfl

end Number

end LayeredConfig
