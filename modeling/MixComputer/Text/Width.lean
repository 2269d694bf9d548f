import MixComputer.Text.Width.Sequel

/-!
The number of columns that a line of text takes on a screen. Control characters take one like
letters do, and of an escape sequence that changes colours only the escape character does.
-/
namespace MixComputer.Text

def drawnWidth (cs : List Char) : Nat :=
  let measure (c : Char) (r : Int × Sequel) : Int × Sequel :=
    let (width, s) := r.2.before c
    (r.1 + width, s)
  (cs.foldr measure (0, .plain)).1.toNat

/-- Control characters and those that take no column are not seen. -/
def isSeen (c : Char) : Bool :=
  0x20 ≤ c.toNat && !(0x7F ≤ c.toNat && c.toNat < 0xA0) && !isZeroWidth c

/-- The number of seen characters in escape sequences, each counted from after the escape character
to the first `m`. `within` says whether the text begins inside of one. -/
def escapedCount (within : Bool) : List Char → Nat
  | [] => 0
  | c :: cs =>
    match within, c, cs with
    | true, c, cs => escapedCount (c != 'm') cs + (isSeen c).toNat
    | false, '\x1b', '[' :: cs => escapedCount true cs + 1
    | false, '\x1b', _ :: cs => escapedCount false cs
    | false, _, cs => escapedCount false cs

/-- The width of a line without the columns that its escape sequences would take, one for each seen
character. -/
def lineWidth (line : String) : Nat :=
  drawnWidth line.toList - escapedCount false line.toList

end MixComputer.Text
