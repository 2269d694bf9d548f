/-!
Decimal numerals.
-/
namespace MixComputer.Text

def digitValue (c : Char) : Nat := c.toNat - '0'.toNat

def numeral (digits : List Char) : Nat := digits.foldl (fun n c => 10 * n + digitValue c) 0

end MixComputer.Text
