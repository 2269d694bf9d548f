import MixComputer.Text.Lines
import MixComputer.Text.Width

/-!
Tables of text. A cell holds any number of lines, so a table can stand inside a cell of another.
Columns are as wide as their widest line, rows as high as their highest cell, and every cell has a
blank at either side.
-/
namespace MixComputer.Text

structure Cell where
  content : List String
  alignRight : Bool
deriving DecidableEq

namespace Cell

def left (text : String) : Cell := ⟨lines text, false⟩

def right (text : String) : Cell := ⟨lines text, true⟩

def width (c : Cell) : Nat := (c.content.map lineWidth).foldl max 0

def line (c : Cell) (width k : Nat) : String :=
  let text := c.content.getD k ""
  let fill := String.ofList (List.replicate (width - lineWidth text) ' ')
  " " ++ (if c.alignRight then fill ++ text else text ++ fill) ++ " "

end Cell

abbrev Row := List Cell

def rowHeight (row : Row) : Nat := (row.map fun c => c.content.length).foldl max 1

structure Frame where
  /-- What stands at both ends of a line. -/
  edge : String
  /-- What stands between two columns. -/
  separator : String
  /-- The junctions of the rules below the title and below the last row, if the table has rules. -/
  rules : Option (String × String)

namespace Frame

def plain : Frame := ⟨"", "", none⟩

/-- Columns are kept apart by lines; a line stands below the title and one below the last row. -/
def ruled : Frame := ⟨" ", "│", some ("┼", "┴")⟩

def rule (f : Frame) (widths : List Nat) (junction : String) : String :=
  f.edge ++ junction.intercalate (widths.map fun w => String.ofList (List.replicate (w + 2) '─'))
    ++ f.edge

def rowLines (f : Frame) (widths : List Nat) (row : Row) : List String :=
  (List.range (rowHeight row)).map fun k =>
    f.edge ++ f.separator.intercalate ((row.zip widths).map fun c => c.1.line c.2 k) ++ f.edge

end Frame

structure Table where
  frame : Frame
  title : Row
  rows : List Row

namespace Table

def widths (t : Table) : List Nat :=
  t.rows.foldl (fun ws row => ws.zipWith (fun w c => max w c.width) row) (t.title.map Cell.width)

def rendered (t : Table) : List String :=
  t.frame.rowLines t.widths t.title
    ++ (t.frame.rules.map fun r => t.frame.rule t.widths r.1).toList
    ++ t.rows.flatMap (t.frame.rowLines t.widths)
    ++ (t.frame.rules.map fun r => t.frame.rule t.widths r.2).toList

def render (t : Table) : String := String.join (t.rendered.map (· ++ "\n"))

end Table

end MixComputer.Text
