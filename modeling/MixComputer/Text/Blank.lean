import MixComputer.Text.Ranges

/-!
Blank characters: the code points with the Unicode property `White_Space`. Fields of a source
line are separated by them, and settings are trimmed of them.
-/
namespace MixComputer.Text

def blankRanges : Ranges :=
  [(0x09, 0x0D), (0x20, 0x20), (0x85, 0x85), (0xA0, 0xA0), (0x1680, 0x1680),
   (0x2000, 0x200A), (0x2028, 0x2029), (0x202F, 0x202F), (0x205F, 0x205F), (0x3000, 0x3000)]

def isBlank (c : Char) : Bool := blankRanges.contain c

def dropBlanks (cs : List Char) : List Char := cs.dropWhile isBlank

def trim (cs : List Char) : List Char := (dropBlanks (dropBlanks cs).reverse).reverse

end MixComputer.Text
