import LayeredConfig.Text.Quoted

/-!
# Clipped text

Quoted text of limited length.

- `Clipped.units`: the length of a text, where a character beyond the basic plane takes two
  units and every other character takes one.
- `Clipped.head`: the part of a text that fits a number of units. Of a character of two units
  it may keep the first half only.
- `Clipped.quoted`: a text in quotes, with a note on the units that are left out. A text that
  fits is written in full.
-/

namespace LayeredConfig

namespace Clipped

/-- A text of more units is clipped. -/
def limit : Nat := 10000

/-- The units that a character takes. -/
def unitsOf (c : Char) : Nat := if c.toNat < 0x10000 then 1 else 2

/-- The units that a text takes. -/
def units : List Char → Nat
  | [] => 0
  | c :: rest => unitsOf c + units rest

/-- The part of a text that is kept. -/
structure Head where
  /-- The characters that fit. -/
  whole : List Char
  /-- The character after them, where only its first half fits. -/
  halved : Option Char

/-- The part of a text that fits into `room` units. -/
def head : (room : Nat) → List Char → Head
  | _, [] => ⟨[], none⟩
  | room, c :: rest =>
    if unitsOf c ≤ room then
      let later := head (room - unitsOf c) rest
      ⟨c :: later.whole, later.halved⟩
    else ⟨[], if room = 0 then none else some c⟩

/-- The first half of a character of two units, written by its number in four digits. -/
def halfText (c : Char) : List Char :=
  '\\' :: 'u' :: Nat.toDigits 16 (0xD800 + (c.toNat - 0x10000) / 0x400)

/-- The note on units that are left out. -/
def omissionNote (count : Nat) : String :=
  if count = 1 then "... 1 more character" else "... " ++ count.repr ++ " more characters"

/-- A text that is too long: the kept part in quotes, then the note. -/
def clip (cs : List Char) : String :=
  let kept := head limit cs
  let quote := Quoted.quoteFor kept.whole
  String.ofList (quote :: (kept.whole.flatMap (Quoted.escape quote)
    ++ kept.halved.toList.flatMap halfText ++ [quote])) ++ omissionNote (units cs - limit)

/-- The text in quotes, clipped where it is too long. -/
def quoted (s : String) : String :=
  if units s.toList ≤ limit then Quoted.quoted s else clip s.toList

end Clipped

end LayeredConfig
