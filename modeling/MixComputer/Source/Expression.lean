import MixComputer.Source.Token
import MixComputer.Text.Numeral

/-!
Expressions: an atom with an optional sign, and any number of operators with an atom each. There
is no precedence. Reading takes as many tokens as belong to the expression and leaves the rest.
-/
namespace MixComputer.Source

inductive Atom where
  | number (n : Nat)
  | symbol (name : String)
  /-- `*`, the location of the line. -/
  | here
deriving DecidableEq

inductive Operator where
  | add
  | subtract
  | multiply
  | divide
  /-- `a//b` is the quotient of `a` times 64 to the fifth and `b`. -/
  | divideFraction
  /-- `a:b` is `8a + b`, the code of a field. -/
  | field
deriving DecidableEq

structure Expression where
  negative : Bool
  first : Atom
  rest : List (Operator × Atom)
deriving DecidableEq

namespace Atom

/-- A word is a symbol if it has a letter and a number if not. Numbers have 63 bits. -/
def ofWord? (letters : List Char) : Option Atom :=
  if letters.all Char.isDigit then
    if Text.numeral letters < 0x8000000000000000 then some (number (Text.numeral letters)) else none
  else some (symbol (String.ofList letters))

def ofToken? : Token → Option Atom
  | .word letters => ofWord? letters
  | .mark '*' => some here
  | _ => none

end Atom

namespace Operator

def ofToken? : Token → Option Operator
  | .doubleSlash => some divideFraction
  | .mark '+' => some add
  | .mark '-' => some subtract
  | .mark '*' => some multiply
  | .mark '/' => some divide
  | .mark ':' => some field
  | _ => none

def text : Operator → String
  | add => "+"
  | subtract => "-"
  | multiply => "*"
  | divide => "/"
  | divideFraction => "//"
  | field => ":"

end Operator

namespace Expression

/-- The symbol and the sign of an expression that is nothing else. Only such an expression may
name a symbol that is not defined yet. -/
def loneSymbol? (e : Expression) : Option (String × Bool) :=
  match e.first, e.rest with
  | .symbol name, [] => some (name, e.negative)
  | _, _ => none

def readOperations : List Token → List (Operator × Atom) × List Token
  | t :: u :: ts =>
    match Operator.ofToken? t, Atom.ofToken? u with
    | some op, some atom =>
      let (operations, rest) := readOperations ts
      ((op, atom) :: operations, rest)
    | _, _ => ([], t :: u :: ts)
  | ts => ([], ts)

def readUnsigned? (negative : Bool) : List Token → Option (Expression × List Token)
  | [] => none
  | t :: ts =>
    (Atom.ofToken? t).map fun first =>
      let (operations, rest) := readOperations ts
      (⟨negative, first, operations⟩, rest)

def read? : List Token → Option (Expression × List Token)
  | .mark '+' :: ts => readUnsigned? false ts
  | .mark '-' :: ts => readUnsigned? true ts
  | ts => readUnsigned? false ts

end Expression

end MixComputer.Source
