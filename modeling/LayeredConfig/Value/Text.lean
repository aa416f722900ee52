import LayeredConfig.Text.Clipped
import LayeredConfig.Text.Rows
import LayeredConfig.Value.Basic

/-!
# Text of values

`Value.format` writes a value for people to read, in messages and in descriptions of ranges.

- Containers nest five deep; a deeper one that is not empty is named by its kind alone.
- Lists, sets and tables show one hundred items and a note on the rest. Long texts are clipped
  (`LayeredConfig.Text.Clipped`).
- A container is written on one line when no line break occurs in it and the last container
  entered while writing it lies at most two levels further in (`Written.innermost`); otherwise
  each item, or each row of a long list (`LayeredConfig.Text.Rows`), gets a line of its own.
-/

namespace LayeredConfig

namespace Value

/-- A written value. `innermost` is the depth of the container that was entered last while
writing it, itself included; there is none if no container was entered. -/
structure Written where
  text : String
  innermost : Option Nat := none

/-- How a kind of container is written around its items. -/
structure Frame where
  /-- Stands in front of the bracket. -/
  leader : String
  opening : String
  closing : String
  /-- Stands for a container that is nested too deep. -/
  summary : String

def listFrame : Frame := ⟨"", "[", "]", "[Array]"⟩

def objectFrame : Frame := ⟨"", "\x7b", "\x7d", "[Object]"⟩

def bareFrame : Frame :=
  ⟨"[Object: null prototype] ", "\x7b", "\x7d", "[Object: null prototype]"⟩

/-- The type is named in front, unless it has the name of the ordinary maps. -/
def foreignFrame (typeName : String) : Frame :=
  if typeName = "Object" then objectFrame
  else ⟨typeName ++ " ", "\x7b", "\x7d", "[" ++ typeName ++ "]"⟩

def setFrame (size : Nat) : Frame := ⟨"Set(" ++ size.repr ++ ") ", "\x7b", "\x7d", "[Set]"⟩

def mapFrame (size : Nat) : Frame := ⟨"Map(" ++ size.repr ++ ") ", "\x7b", "\x7d", "[Map]"⟩

/-- Containers inside this many others are only named. -/
def depthLimit : Nat := 5

/-- Lists, sets and tables show this many items. -/
def itemLimit : Nat := 100

/-- A list of more items than this may be set in rows. -/
def rowThreshold : Nat := 6

/-- A container on one line reaches less than this many levels further in. -/
def compactLevels : Nat := 3

/-- The note on items that are not shown. -/
def omissionNote (size : Nat) : List String :=
  if size ≤ itemLimit then []
  else if size = itemLimit + 1 then ["... 1 more item"]
  else ["... " ++ (size - itemLimit).repr ++ " more items"]

def blanks (n : Nat) : String := String.ofList (List.replicate n ' ')

/-- Puts each line of a container on a line of its own. -/
def onLines (frame : Frame) (indent : Nat) (lines : List String) : String :=
  let margin := "\n" ++ blanks indent
  frame.leader ++ frame.opening ++ margin ++ "  "
    ++ String.intercalate ("," ++ margin ++ "  ") lines ++ margin ++ frame.closing

/-- Puts all items of a container on one line. -/
def onOneLine (frame : Frame) (items : List String) : String :=
  frame.leader ++ frame.opening ++ " " ++ String.intercalate ", " items ++ " " ++ frame.closing

/-- Lays out a container at `depth` that is not empty. `rows` holds the rows of a list that is
set in rows. -/
def layOut (frame : Frame) (depth indent : Nat) (items : List Written) (note : List String)
    (rows : Option (List String)) : Written :=
  let texts := items.map (·.text) ++ note
  let innermost := items.foldl (fun d item => item.innermost.getD d) depth
  let text := match rows with
    | some lines => onLines frame indent lines
    | none =>
      if innermost < depth + compactLevels && texts.all fun t => !t.toList.contains '\n' then
        onOneLine frame texts
      else onLines frame indent texts
  ⟨text, some innermost⟩

/-- Writes a container of `size` items, of which `items` are shown. -/
def enclose (frame : Frame) (depth indent size : Nat) (items : List Written) (note : List String)
    (rows : Option (List String)) : Written :=
  if size = 0 then ⟨frame.leader ++ frame.opening ++ frame.closing, none⟩
  else if depthLimit ≤ depth then ⟨frame.summary, none⟩
  else layOut frame depth indent items note rows

/-- Whether an element is aligned on its right when set in rows. -/
def isNumeric : Value → Bool
  | .number _ | .bigint _ => true
  | _ => false

/-- The rows of a list, where it is set in rows. -/
def rowsOfList (elements : List Value) (items : List Written) : Option (List String) :=
  let note := omissionNote elements.length
  let entries := items.length + note.length
  if rowThreshold < entries then
    Rows.arrange ((elements.take entries).all isNumeric) (items.map (·.text)) note
  else none

/-- A key in front of its value. -/
def keyText (key : String) : String :=
  if key = reservedKey then "[" ++ Quoted.quoted key ++ "]"
  else if Quoted.isBareKey key then key
  else Quoted.quoted key

/-- An item of a map: the key, then the value. -/
def Written.under (key : String) (w : Written) : Written :=
  ⟨keyText key ++ ": " ++ w.text, w.innermost⟩

/-- An item of a table: the key, then the value, which is written after it. -/
def Written.pairedWith (k v : Written) : Written :=
  ⟨k.text ++ " => " ++ v.text, v.innermost.or k.innermost⟩

mutual

/-- Writes a value that stands inside `depth` containers, at the given indentation. -/
def write : Value → (depth indent : Nat) → Written
  | .undefined, _, _ => ⟨"undefined", none⟩
  | .null, _, _ => ⟨"null", none⟩
  | .bool b, _, _ => ⟨if b then "true" else "false", none⟩
  | .text s, _, _ => ⟨Clipped.quoted s, none⟩
  | .number n, _, _ => ⟨n.signedText, none⟩
  | .bigint n, _, _ => ⟨Number.integerText n ++ "n", none⟩
  | .date _ t, _, _ => ⟨t, none⟩
  | .list _ vs, depth, indent =>
    let items := (writeAll vs (depth + 1) (indent + 2)).take itemLimit
    enclose listFrame depth indent vs.length items (omissionNote vs.length) (rowsOfList vs items)
  | .set _ vs, depth, indent =>
    let items := (writeAll vs (depth + 1) (indent + 2)).take itemLimit
    enclose (setFrame vs.length) depth indent vs.length items (omissionNote vs.length) none
  | .map _ ps, depth, indent =>
    let items := (writePairs ps (depth + 1) (indent + 2)).take itemLimit
    enclose (mapFrame ps.length) depth indent ps.length items (omissionNote ps.length) none
  | .object _ bare es, depth, indent =>
    enclose (if bare then bareFrame else objectFrame) depth indent es.length
      (writeEntries es (depth + 1) (indent + 2)) [] none
  | .foreign _ typeName es, depth, indent =>
    enclose (foreignFrame typeName) depth indent es.length
      (writeEntries es (depth + 1) (indent + 2)) [] none

/-- Writes the elements of a list or the members of a set. -/
def writeAll : List Value → (depth indent : Nat) → List Written
  | [], _, _ => []
  | v :: rest, depth, indent => v.write depth indent :: writeAll rest depth indent

/-- Writes the entries of a map. -/
def writeEntries : List (String × Value) → (depth indent : Nat) → List Written
  | [], _, _ => []
  | (k, v) :: rest, depth, indent =>
    (v.write depth indent).under k :: writeEntries rest depth indent

/-- Writes the pairs of a table. -/
def writePairs : List (Value × Value) → (depth indent : Nat) → List Written
  | [], _, _ => []
  | (k, v) :: rest, depth, indent =>
    (k.write depth indent).pairedWith (v.write depth indent) :: writePairs rest depth indent

end

/-- The text of a value. -/
def format (v : Value) : String := (v.write 0 0).text

end Value

end LayeredConfig
