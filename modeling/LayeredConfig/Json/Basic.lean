/-!
# JSON text

- `Json`: JSON documents. A number is kept as it is written, and the members of an object stand
  in the order in which they are written.
- `Json.text`: the text of a document, without blanks and line breaks. Inside a string the two
  characters with a meaning there and the control characters of ASCII are escaped
  (`Json.escape`); everything else stands for itself. A string is a sequence of characters: halves
  of surrogate pairs, which would have to be escaped as well, do not occur in it by themselves.
-/

namespace LayeredConfig

/-- A JSON document. -/
inductive Json where
  | null
  | bool (value : Bool)
  | number (numeral : String)
  | string (value : String)
  | array (elements : List Json)
  | object (members : List (String × Json))
deriving Inhabited

namespace Json

/-- The hexadecimal digit of a number below sixteen, in lower case. -/
def hexDigit (n : Nat) : Char := Nat.digitChar n

/-- What is written for a character of a string. -/
def escape (c : Char) : List Char :=
  if c = '\x22' then ['\\', '\x22']
  else if c = '\\' then ['\\', '\\']
  else if c = '\x08' then ['\\', 'b']
  else if c = '\t' then ['\\', 't']
  else if c = '\n' then ['\\', 'n']
  else if c = '\x0c' then ['\\', 'f']
  else if c = '\r' then ['\\', 'r']
  else if c.toNat < 0x20 then
    ['\\', 'u', '0', '0', hexDigit (c.toNat / 16), hexDigit (c.toNat % 16)]
  else [c]

/-- A string in its quotes. -/
def quoted (s : String) : List Char := '\x22' :: (s.toList.flatMap escape ++ ['\x22'])

/-- Texts with commas between them. -/
def separated : List (List Char) → List Char
  | [] => []
  | [cs] => cs
  | cs :: rest => cs ++ ',' :: separated rest

mutual

/-- The characters of a document. -/
def chars : Json → List Char
  | .null => "null".toList
  | .bool b => if b then "true".toList else "false".toList
  | .number numeral => numeral.toList
  | .string s => quoted s
  | .array elements => '[' :: (separated (elementChars elements) ++ [']'])
  | .object members => '\x7b' :: (separated (memberChars members) ++ ['\x7d'])

/-- The characters of each element of an array. -/
def elementChars : List Json → List (List Char)
  | [] => []
  | j :: rest => j.chars :: elementChars rest

/-- The characters of each member of an object. -/
def memberChars : List (String × Json) → List (List Char)
  | [] => []
  | (k, j) :: rest => (quoted k ++ ':' :: j.chars) :: memberChars rest

end

/-- The text of a document. -/
def text (json : Json) : String := String.ofList json.chars

/-- No character is written by a line break. -/
theorem newline_not_mem_escape (c : Char) : '\n' ∉ escape c := by
  have hdigit : ∀ n < 16, hexDigit n ≠ '\n' := by decide
  unfold escape
  repeat' split
  all_goals try (simp; done)
  · have h1 := hdigit (c.toNat / 16) (by omega)
    have h2 := hdigit (c.toNat % 16) (by omega)
    simp [Ne.symm h1, Ne.symm h2]
  · simpa using Ne.symm ‹¬ c = '\n'›

end Json

end LayeredConfig
