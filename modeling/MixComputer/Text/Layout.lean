/-!
Text of a fixed width.
-/
namespace MixComputer.Text

/-- `s` moved to the right end of `width` characters. Longer text stays as it is. -/
def padLeft (width : Nat) (fill : Char) (s : String) : String :=
  String.ofList (List.replicate (width - s.length) fill) ++ s

def zeroPadded (width n : Nat) : String := padLeft width '0' (toString n)

end MixComputer.Text
