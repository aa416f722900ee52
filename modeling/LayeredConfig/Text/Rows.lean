/-!
# Rows of short items

Long lists of short items are set in rows of equally many columns.

- `Rows.width`: the room that an item takes. An item may hold line breaks, which take none.
- `Rows.columnCount`: the number of columns that makes the block of rows look square, given
  the widths of the items. It is 0 or 1 where rows do not pay.
- `Rows.arrange`: the rows, each column padded to its widest item.
-/

namespace LayeredConfig

namespace Rows

/-- The room that a text takes when its lines are thought side by side: one column for each
character, and none for a line break or another control character of ASCII. It is meant for
characters that are neither of double width nor combining. -/
def width (s : String) : Nat := s.toList.countP fun c => 0x20 ≤ c.toNat

/-- The room that separates two items: a comma and a blank. -/
def separatorWidth : Nat := 2

/-- Rows have at most this many columns. -/
def mostColumns : Nat := 12

/-- The height of a character relative to its width. -/
def characterHeight : Float := 2.5

/-- The width of the widest item. -/
def widestOf (widths : List Nat) : Nat := widths.foldl max 0

/-- The room that all items take, each with its separator. -/
def totalWidth (widths : List Nat) : Nat :=
  widths.foldl (fun total width => total + (width + separatorWidth)) 0

/-- Whether the items are so much alike in width that rows leave no large gaps: no single item
takes a fifth of the room of all, or all are narrow. -/
def alike (widths : List Nat) : Bool :=
  widestOf widths ≤ 6 || 5 * (widestOf widths + separatorWidth) < totalWidth widths

/-- The number of columns for items of these widths, where the list has `entries` items in all,
a note on left out items included. The typical width is the greatest one less the spread of the
widths. -/
def columnCount (widths : List Nat) (entries : Nat) : Nat :=
  let widest := widestOf widths + separatorWidth
  let mean := Float.ofNat (totalWidth widths) / Float.ofNat entries
  let spread := Float.sqrt (Float.ofNat widest - mean)
  let reduced := Float.ofNat widest - 3 - spread
  let typical := if reduced < 1 then 1 else reduced
  let square := Float.sqrt (characterHeight * typical * Float.ofNat widths.length) / typical
  min square.round.toUInt64.toNat mostColumns

/-- Fills a text up with blanks on its left. -/
def padLeft (room : Nat) (s : String) : String :=
  String.ofList (List.replicate (room - width s) ' ') ++ s

/-- Fills a text up with blanks on its right. -/
def padRight (room : Nat) (s : String) : String :=
  s ++ String.ofList (List.replicate (room - width s) ' ')

/-- The width of the widest item in a column. -/
def columnWidth (items : List String) (columns column : Nat) : Nat :=
  (items.zipIdx.filter fun p => p.2 % columns == column).foldl (fun w p => max w (width p.1)) 0

/-- One row: each item but the last with its comma, padded to its column. -/
def rowText (rightAligned : Bool) : List (String × Nat) → String
  | [] => ""
  | [(item, room)] => if rightAligned then padLeft room item else item
  | (item, room) :: rest =>
    let cell := item ++ ", "
    (if rightAligned then padLeft else padRight) (room + separatorWidth) cell
      ++ rowText rightAligned rest

/-- The items in rows of `columns`. -/
def rowsOf (rightAligned : Bool) (columns : Nat) (items : List String) : List String :=
  let widths := (List.range columns).map (columnWidth items columns)
  let count := (items.length + columns - 1) / columns
  (List.range count).map fun i =>
    rowText rightAligned (((items.drop (i * columns)).take columns).zip widths)

/-- Items set in rows, or `none` where they are not. A note on left out items is a row of its
own. -/
def arrange (rightAligned : Bool) (items note : List String) : Option (List String) :=
  let widths := items.map width
  if alike widths then
    let columns := columnCount widths (items.length + note.length)
    if columns ≤ 1 then none else some (rowsOf rightAligned columns items ++ note)
  else none

end Rows

end LayeredConfig
