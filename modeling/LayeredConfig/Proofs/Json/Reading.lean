import LayeredConfig.Json.Basic
import LayeredConfig.Number.Decimal

/-!
# Reading JSON

What a text says, for every text in JSON and not only for those that are written here.

- `Json.tokensFrom`: a text is cut up into strings, words, brackets, commas and colons, character by
  character (`Mode.step`). Blanks between them do not count. A word is `null`, `true`, `false` or a
  number (`Json.isNumeral`).
- `Json.State`: how far a document is read, with the lists and objects around the place that is
  reached (`Frame`). A token leads from one state to the next (`State.step`).
- `Json.read?`: the document of a text. What is not JSON has none.
- `Json.member?`: of several members with one name the last one counts.

Strings hold characters, so an escape for one half of a surrogate pair is read with the other half,
and not without it.
-/

namespace LayeredConfig

namespace Json

/-! ## Words -/

/-- Whether digits are a whole number: a zero does not stand in front of others. -/
def isWhole (ds : List Char) : Bool := ds == ['0'] || (!ds.isEmpty && ds.head? != some '0')

/-- What follows the decimals of a number, if there are any. -/
def afterDecimals? : List Char → Option (List Char)
  | '.' :: cs =>
    if (cs.takeWhile Char.isDigit).isEmpty then none else some (cs.dropWhile Char.isDigit)
  | cs => some cs

/-- Whether a word is a number without a sign. -/
def isUnsignedNumeral (cs : List Char) : Bool :=
  isWhole (cs.takeWhile Char.isDigit) &&
    ((afterDecimals? (cs.dropWhile Char.isDigit)).bind Number.exponentOf?).isSome

/-- Whether a word is a number, for instance `-12.5e-3`. -/
def isNumeral : List Char → Bool
  | '-' :: cs => isUnsignedNumeral cs
  | cs => isUnsignedNumeral cs

/-- Whether a character can stand in a word. -/
def isWordChar (c : Char) : Bool := c.isAlphanum || c == '-' || c == '+' || c == '.'

/-- What a word says. -/
def ofWord? (word : List Char) : Option Json :=
  if word = "null".toList then some .null
  else if word = "true".toList then some (.bool true)
  else if word = "false".toList then some (.bool false)
  else if isNumeral word then some (.number (String.ofList word))
  else none

/-! ## Strings -/

/-- What is read of a string: its characters, and the first half of one whose other half is to
come. -/
structure Body where
  read : List Char
  half : Option Nat

namespace Body

/-- Goes on by a character. -/
def push? (body : Body) (c : Char) : Option Body :=
  if body.half.isNone then some ⟨body.read ++ [c], none⟩ else none

/-- Goes on by a code unit of UTF-16. -/
def pushUnit? (body : Body) (unit : Nat) : Option Body :=
  let isLow := 0xdc00 ≤ unit && unit < 0xe000
  match body.half with
  | none =>
    if 0xd800 ≤ unit && unit < 0xdc00 then some ⟨body.read, some unit⟩
    else if isLow then none
    else body.push? (Char.ofNat unit)
  | some high =>
    if isLow then
      let c := Char.ofNat (0x10000 + 0x400 * (high - 0xd800) + (unit - 0xdc00))
      some ⟨body.read ++ [c], none⟩
    else none

/-- The string, where it ends. -/
def close? (body : Body) : Option String :=
  if body.half.isNone then some (String.ofList body.read) else none

end Body

/-- What a character stands for behind a backslash. -/
def escaped? : Char → Option Char
  | '\x22' => some '\x22'
  | '\\' => some '\\'
  | '/' => some '/'
  | 'b' => some '\x08'
  | 'f' => some '\x0c'
  | 'n' => some '\n'
  | 'r' => some '\r'
  | 't' => some '\t'
  | _ => none

/-! ## Tokens -/

/-- A part of a text. -/
inductive Token where
  | openArray
  | closeArray
  | openObject
  | closeObject
  | comma
  | colon
  | scalar (json : Json)

/-- The token of a single character. -/
def Token.ofChar? : Char → Option Token
  | '[' => some .openArray
  | ']' => some .closeArray
  | '\x7b' => some .openObject
  | '\x7d' => some .closeObject
  | ',' => some .comma
  | ':' => some .colon
  | _ => none

/-- Where in a token a character stands. -/
inductive Mode where
  | between
  | word (letters : List Char)
  | quoted (body : Body)
  | escape (body : Body)
  /-- Among the hexadecimal digits of a code unit. -/
  | unit (body : Body) (digits : List Nat)

namespace Mode

/-- Reads a character that stands between tokens. -/
def start (c : Char) : Option (List Token × Mode) :=
  if c = ' ' ∨ c = '\t' ∨ c = '\n' ∨ c = '\r' then some ([], .between)
  else if c = '\x22' then some ([], .quoted ⟨[], none⟩)
  else if isWordChar c then some ([], .word [c])
  else (Token.ofChar? c).map fun token => ([token], .between)

/-- Reads a character; which tokens end there, and where the next one stands. -/
def step : Mode → Char → Option (List Token × Mode)
  | .between, c => start c
  | .word letters, c =>
    if isWordChar c then some ([], .word (letters ++ [c]))
    else do
      let json ← ofWord? letters
      let (tokens, next) ← start c
      return (.scalar json :: tokens, next)
  | .quoted body, c =>
    if c = '\x22' then body.close?.map fun s => ([.scalar (.string s)], .between)
    else if c = '\\' then some ([], .escape body)
    else if c.toNat < 0x20 then none
    else (body.push? c).map fun body => ([], .quoted body)
  | .escape body, c =>
    if c = 'u' then some ([], .unit body [])
    else ((escaped? c).bind body.push?).map fun body => ([], .quoted body)
  | .unit body digits, c => do
    let digits := digits ++ [← Number.digitValue? c]
    if digits.length < 4 then return ([], .unit body digits)
    let body ← body.pushUnit? (digits.foldl (fun n d => 16 * n + d) 0)
    return ([], .quoted body)

/-- Where a text may end, and with which token. -/
def finish? : Mode → Option (List Token)
  | .between => some []
  | .word letters => (ofWord? letters).map fun json => [.scalar json]
  | .quoted _ | .escape _ | .unit _ _ => none

end Mode

/-- The tokens of a text. -/
def tokensFrom : Mode → List Char → Option (List Token)
  | mode, [] => mode.finish?
  | mode, c :: cs => do
    let (tokens, next) ← mode.step c
    let rest ← tokensFrom next cs
    return tokens ++ rest

/-! ## Documents -/

/-- A list or an object that is not read to its end. -/
inductive Frame where
  | array (before : List Json)
  /-- The member that is read has this name. -/
  | object (before : List (String × Json)) (name : String)

/-- How far a document is read. The innermost of the open frames comes first. -/
inductive State where
  /-- A value is to come. -/
  | value (frames : List Frame)
  /-- The name of a member is to come. -/
  | member (before : List (String × Json)) (frames : List Frame)
  /-- The colon behind a name is to come. -/
  | colon (before : List (String × Json)) (name : String) (frames : List Frame)
  /-- A value is read. -/
  | after (json : Json) (frames : List Frame)

namespace State

/-- Reads a token. No comma stands in front of a closing bracket. -/
def step : State → Token → Option State
  | .value frames, .scalar json => some (.after json frames)
  | .value frames, .openArray => some (.value (.array [] :: frames))
  | .value frames, .openObject => some (.member [] frames)
  | .value (.array [] :: frames), .closeArray => some (.after (.array []) frames)
  | .member before frames, .scalar (.string name) => some (.colon before name frames)
  | .member [] frames, .closeObject => some (.after (.object []) frames)
  | .colon before name frames, .colon => some (.value (.object before name :: frames))
  | .after json (.array before :: frames), .comma =>
    some (.value (.array (before ++ [json]) :: frames))
  | .after json (.array before :: frames), .closeArray =>
    some (.after (.array (before ++ [json])) frames)
  | .after json (.object before name :: frames), .comma =>
    some (.member (before ++ [(name, json)]) frames)
  | .after json (.object before name :: frames), .closeObject =>
    some (.after (.object (before ++ [(name, json)])) frames)
  | _, _ => none

/-- The document, if it is read to its end. -/
def finish? : State → Option Json
  | .after json [] => some json
  | _ => none

end State

/-- The document that a text makes of what is read before it. -/
def readFrom (state : State) (mode : Mode) (cs : List Char) : Option Json := do
  let tokens ← tokensFrom mode cs
  let last ← tokens.foldlM State.step state
  last.finish?

/-- The document of a text. -/
def read? (text : String) : Option Json := readFrom (.value []) .between text.toList

/-- Blanks and escapes are read that are never written. -/
example : read? "[1.5e3 , \"\\u00e9\"]" = some (.array [.number "1.5e3", .string "é"]) := rfl

/-- The member of an object with a name. -/
def member? (name : String) : Json → Option Json
  | .object members => (members.findRev? fun m => m.1 == name).map Prod.snd
  | _ => none

end Json

end LayeredConfig
