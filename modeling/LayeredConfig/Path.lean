import LayeredConfig.Value.Text

/-!
# Paths

Where a value stands in a configuration.

- `Segment`, `Path`: map keys and positions, outermost first. The key `0` and the position `0`
  are different segments.
- `Path.text`: keys joined by points, positions in brackets; the empty path has a name.
- `Segment.ofKey`: the step from a table to the value under a key.
-/

namespace LayeredConfig

/-- One step of a path. -/
inductive Segment where
  | key (name : String)
  | position (index : Number)
deriving DecidableEq, Inhabited

/-- Steps from the outermost map to a value. -/
abbrev Path := List Segment

namespace Segment

/-- The step to the value under a key of a table. A key that is neither a text nor a number is
named by its text. -/
def ofKey : Value → Segment
  | .text s => .key s
  | .number n => .position n
  | v => .key v.format

/-- The segment as a value. -/
def toValue : Segment → Value
  | .key name => .text name
  | .position index => .number index

end Segment

namespace Path

/-- The path of the `i`-th element of the sequence at `path`. -/
def element (path : Path) (i : Nat) : Path := path ++ [.position (.ofNat i)]

/-- The path of the entry `key` of the map at `path`. -/
def entry (path : Path) (key : String) : Path := path ++ [.key key]

/-- The path of the pair with key `key` of the table at `path`. -/
def pair (path : Path) (key : Value) : Path := path ++ [.ofKey key]

/-- Writes one more segment after what is written of a path. -/
def appendText (written : String) : Segment → String
  | .position index => written ++ "[" ++ index.text ++ "]"
  | .key name => if written = "" then name else written ++ "." ++ name

/-- The text of a path, for instance `servers[0].port`. -/
def text (path : Path) : String :=
  if path.isEmpty then "<root>" else path.foldl appendText ""

/-- The path as a value: the list of its segments. -/
def toValue (path : Path) : Value := .ofList (path.map Segment.toValue)

/-- The path through nested sections. -/
def ofKeys (keys : List String) : Path := keys.map .key

/-- The path through a section goes on from the path of the section. -/
theorem entry_append (path : Path) (key : String) (keys : List String) :
    path.entry key ++ ofKeys keys = path ++ ofKeys (key :: keys) := by
  simp [entry, ofKeys]

theorem append_entry (path : Path) (keys : List String) (key : String) :
    (path ++ ofKeys keys).entry key = path ++ ofKeys (keys ++ [key]) := by
  simp [entry, ofKeys]

theorem ofKeys_injective {keys keys' : List String} (h : ofKeys keys = ofKeys keys') :
    keys = keys' :=
  (List.map_inj_right fun _ _ heq => Segment.key.inj heq).1 h

end Path

end LayeredConfig
