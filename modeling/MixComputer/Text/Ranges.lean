/-!
Sets of characters, given as ranges of code points in increasing order.
-/
namespace MixComputer.Text

abbrev Ranges := List (Nat × Nat)

def Ranges.contain (ranges : Ranges) (c : Char) : Bool :=
  ranges.any fun r => r.1 ≤ c.toNat && c.toNat ≤ r.2

end MixComputer.Text
