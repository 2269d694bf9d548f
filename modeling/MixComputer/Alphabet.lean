import MixComputer.Word

/-!
The character code. Codes 0 to 55 stand for characters; the other eight bytes have none.
-/
namespace MixComputer.Alphabet

def characters : List Char :=
  [' ', 'A', 'B', 'C', 'D', 'E', 'F', 'G', 'H', 'I',
   'Δ', 'J', 'K', 'L', 'M', 'N', 'O', 'P', 'Q', 'R',
   'Σ', 'Π', 'S', 'T', 'U', 'V', 'W', 'X', 'Y', 'Z',
   '0', '1', '2', '3', '4', '5', '6', '7', '8', '9',
   '.', ',', '(', ')', '+', '-', '*', '/', '=', '$',
   '<', '>', '@', ';', ':', '\x27']

def digitZero : Nat := 30

def code? (c : Char) : Option Byte := (characters.idxOf? c).map Byte.ofNat

def char? (code : Nat) : Option Char := characters[code]?

end MixComputer.Alphabet
