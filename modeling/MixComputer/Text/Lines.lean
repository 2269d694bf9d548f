/-!
The lines of a text. A line ends with a newline, and a carriage return just before the newline
does not belong to the line. Nothing after the last newline is no line.
-/
namespace MixComputer.Text

def splitLines : List Char → List (List Char)
  | [] => []
  | '\n' :: cs => [] :: splitLines cs
  | '\r' :: '\n' :: cs => [] :: splitLines cs
  | c :: cs =>
    match splitLines cs with
    | line :: lines => (c :: line) :: lines
    | [] => [[c]]

def lines (text : String) : List String := (splitLines text.toList).map String.ofList

end MixComputer.Text
