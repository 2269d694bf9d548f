import MixComputer.Listing

/-!
The register file: rA, rX, six index registers, rJ, the overflow toggle and the comparison
indicator.
-/
namespace MixComputer

structure Registers where
  /-- rA, rI1 to rI6 and rX. -/
  general : Vector Word 8
  /-- The address after the latest jump. -/
  j : Nat
  overflow : Bool
  comparison : Ordering
deriving DecidableEq

namespace Registers

def initial : Registers := ⟨Vector.replicate 8 Word.zero, 0, false, .eq⟩

def get (s : Registers) (r : Register) : Word := s.general[r]

/-- The word is stored as it is; the two bytes of an index register are the caller's care. -/
def set (s : Registers) (r : Register) (w : Word) : Registers :=
  { s with general := s.general.set r w }

def a (s : Registers) : Word := s.get Register.a

def x (s : Registers) : Word := s.get Register.x

def setA (s : Registers) (w : Word) : Registers := s.set Register.a w

def setX (s : Registers) (w : Word) : Registers := s.set Register.x w

def indexValue (s : Registers) (i : Fin 7) : Int :=
  if i.val = 0 then 0 else (s.get (i.castLE (by decide))).value

/-- rJ as a word; it has two bytes and no sign. -/
def jWord (s : Registers) : Word := Word.wrap false (s.j % weight 2)

def comparisonName : Ordering → String
  | .lt => "Less"
  | .eq => "Equal"
  | .gt => "Greater"

def overflowText (s : Registers) : String := if s.overflow then "true" else "false"

def text (s : Registers) : String :=
  String.join (Register.all.map fun (r : Register) =>
      Text.padLeft 3 ' ' (Register.name r) ++ ": " ++ (s.get r).text ++ "\n")
    ++ " rJ: " ++ toString s.j ++ "\tOV: " ++ s.overflowText
    ++ "\tCI: " ++ comparisonName s.comparison

end Registers

end MixComputer
