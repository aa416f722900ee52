import LayeredConfig.Number.Decimal

/-!
# Quoted text

Text in quotes, as values and keys appear in messages.

- `Quoted.quoteFor`: the single quote, unless the text holds one and another kind of quote
  spares the escape.
- `Quoted.escape`: a backslash, a control character and the enclosing single quote are
  escaped, everything else stands for itself.
-/

namespace LayeredConfig

namespace Quoted

def singleQuote : Char := '\x27'

def doubleQuote : Char := '\x22'

def backquote : Char := '\x60'

/-- Whether a dollar sign stands right before an opening brace. -/
def holdsPlaceholder : List Char → Bool
  | [] => false
  | c :: rest => (c == '$' && rest.head? == some '\x7b') || holdsPlaceholder rest

/-- The quote around a text: the first of single, double and back quote that the text does not
hold, the last only without a placeholder; if all are ruled out, the single quote. -/
def quoteFor (cs : List Char) : Char :=
  if !cs.contains singleQuote then singleQuote
  else if !cs.contains doubleQuote then doubleQuote
  else if !cs.contains backquote && !holdsPlaceholder cs then backquote
  else singleQuote

/-- The hexadecimal digit of a number below sixteen, in upper case. -/
def upperHexDigit (n : Nat) : Char := (Nat.digitChar n).toUpper

/-- Whether a character is a control character of ASCII or Latin-1. -/
def isControl (c : Char) : Bool := c.toNat < 0x20 || (0x7f ≤ c.toNat && c.toNat < 0xa0)

/-- What is written for a character inside the given quotes. -/
def escape (quote c : Char) : List Char :=
  if c = '\\' then ['\\', '\\']
  else if c = singleQuote then (if quote = singleQuote then ['\\', c] else [c])
  else if c = '\x08' then ['\\', 'b']
  else if c = '\t' then ['\\', 't']
  else if c = '\n' then ['\\', 'n']
  else if c = '\x0c' then ['\\', 'f']
  else if c = '\r' then ['\\', 'r']
  else if isControl c then
    ['\\', 'x', upperHexDigit (c.toNat / 16), upperHexDigit (c.toNat % 16)]
  else [c]

/-- The text in quotes. -/
def quoted (s : String) : String :=
  let quote := quoteFor s.toList
  String.ofList (quote :: (s.toList.flatMap (escape quote) ++ [quote]))

/-- Whether a key can stand without quotes: a letter or underscore, then letters, digits and
underscores, all of them ASCII. -/
def isBareKey (key : String) : Bool :=
  match key.toList with
  | [] => false
  | c :: rest => (c.isAlpha || c == '_') && rest.all fun d => d.isAlphanum || d == '_'

end Quoted

end LayeredConfig
