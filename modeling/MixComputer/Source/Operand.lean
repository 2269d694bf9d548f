import MixComputer.Source.Expression

/-!
Operands. An instruction has an address, an index and a field, each of which may be missing:

    operand := a-part [ "," expression ] [ "(" expression ")" ]
    a-part  := "=" w-value "=" | expression | nothing
    w-value := expression [ "(" expression ")" ] { "," expression [ "(" expression ")" ] }

Directives have a w-value alone, or nothing.
-/
namespace MixComputer.Source

structure WPart where
  value : Expression
  field : Option Expression
deriving DecidableEq

abbrev WValue := List WPart

inductive AddressPart where
  | empty
  | expression (e : Expression)
  /-- `=W=`, a constant that the assembler places itself. -/
  | literal (w : WValue)
deriving DecidableEq

structure Operand where
  address : AddressPart
  index : Option Expression
  field : Option Expression
deriving DecidableEq

/-- Reads an expression in parentheses to the end of the tokens; no tokens at all mean that it is
missing. -/
def closeField? : List Token → Option (Option Expression)
  | [] => some none
  | .mark '(' :: ts =>
    match Expression.read? ts with
    | some (e, [.mark ')']) => some (some e)
    | _ => none
  | _ => none

namespace WPart

def ofTokens? (ts : List Token) : Option WPart :=
  match Expression.read? ts with
  | some (value, rest) => (closeField? rest).map fun field => ⟨value, field⟩
  | none => none

end WPart

def commaSeparated : List Token → List (List Token)
  | [] => [[]]
  | t :: ts =>
    if t = .mark ',' then [] :: commaSeparated ts
    else match commaSeparated ts with
      | part :: parts => (t :: part) :: parts
      | [] => [[t]]

namespace WValue

def ofTokens? (ts : List Token) : Option WValue := (commaSeparated ts).mapM WPart.ofTokens?

/-- The value of a directive. An empty text is the value without parts. -/
def ofChars? (cs : List Char) : Option WValue :=
  if cs.isEmpty then some [] else ofTokens? (Token.ofChars cs)

end WValue

namespace Operand

def readTail? (address : AddressPart) : List Token → Option Operand
  | .mark ',' :: ts =>
    match Expression.read? ts with
    | some (index, rest) => (closeField? rest).map fun field => ⟨address, some index, field⟩
    | none => none
  | ts => (closeField? ts).map fun field => ⟨address, none, field⟩

def readLiteral? (ts : List Token) : Option Operand :=
  match ts.dropWhile (· != .mark '=') with
  | [] => none
  | _ :: rest =>
    match WValue.ofTokens? (ts.takeWhile (· != .mark '=')) with
    | some w => readTail? (.literal w) rest
    | none => none

def ofTokens? : List Token → Option Operand
  | .mark '=' :: ts => readLiteral? ts
  | ts =>
    match Expression.read? ts with
    | some (e, rest) => readTail? (.expression e) rest
    | none => readTail? .empty ts

def ofChars? (cs : List Char) : Option Operand := ofTokens? (Token.ofChars cs)

end Operand

end MixComputer.Source
