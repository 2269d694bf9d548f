import MixComputer.Word

/-!
Signed addresses. Like a word an address is a sign and a magnitude, so there is a minus zero,
which indexing and packing keep.
-/
namespace MixComputer

structure Address where
  negative : Bool
  magnitude : Nat
deriving DecidableEq

namespace Address

def zero : Address := ⟨false, 0⟩

/-- Magnitudes are kept modulo 2 to the 32. A value of zero is positive. -/
def ofInt (v : Int) : Address := ⟨decide (v < 0), v.natAbs % 0x100000000⟩

def value (a : Address) : Int := if a.negative then -(a.magnitude : Int) else a.magnitude

def sameValue (a b : Address) : Bool := a.value == b.value

def fitsInstruction (a : Address) : Bool := a.magnitude < weight 2

def location? (a : Address) (size : Nat) : Option Nat :=
  if 0 ≤ a.value ∧ a.value.toNat < size then some a.value.toNat else none

def toWord (a : Address) : Word := Word.wrap a.negative a.magnitude

def ofWord (w : Word) : Address := ⟨w.negative, w.magnitude⟩

/-- Indexing. A sum of zero keeps the sign of the address. -/
def add (a : Address) (n : Int) : Address :=
  if a.value + n = 0 then ⟨a.negative, 0⟩ else ofInt (a.value + n)

end Address

end MixComputer
