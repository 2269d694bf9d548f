import MixComputer.Field
import MixComputer.Source.Line
import MixComputer.Source.Operand
import MixComputer.SymbolTable

/-!
Values of expressions and of w-values, under the symbols that are defined so far. Operators apply
strictly from the left, and every value on the way has to fit into a word.
-/
namespace MixComputer.Assembly

open Source

structure Scope where
  symbols : SymbolTable
  /-- The location of the line, the value of `*`. -/
  here : Nat
deriving DecidableEq

def checkRange (quantity : Quantity) (v : Int) : Except Error Int :=
  if Word.Fits v then .ok v else .error (.outOfRange quantity v)

/-- The exact result of an operator; a quotient is cut towards zero. There is none for a division
by zero. -/
def exactResult? (op : Operator) (a b : Int) : Option Int :=
  match op with
  | .add => some (a + b)
  | .subtract => some (a - b)
  | .multiply => some (a * b)
  | .divide => if b = 0 then none else some (a.tdiv b)
  | .divideFraction => if b = 0 then none else some ((a * weight 5).tdiv b)
  | .field => some (8 * a + b)

def apply (op : Operator) (a b : Int) : Except Error Int :=
  match exactResult? op a b with
  | some v => checkRange .expression v
  | none => .error .divisionByZero

namespace Scope

def atom (s : Scope) : Atom → Except Error Int
  | .number n => checkRange .number n
  | .here => .ok s.here
  | .symbol name =>
    match s.symbols.get? name with
    | some v => .ok v
    | none => .error (.futureReference name)

def continueFrom (s : Scope) (v : Int) : List (Operator × Atom) → Except Error Int
  | [] => .ok v
  | (op, right) :: rest => do
    let b ← s.atom right
    let v ← apply op v b
    s.continueFrom v rest

/-- The sign of an expression belongs to its first atom. -/
def evaluate (s : Scope) (e : Expression) : Except Error Int := do
  let v ← s.atom e.first
  s.continueFrom (if e.negative then -v else v) e.rest

/-- The field of a part. A part without a field has the whole word. -/
def fieldOf (s : Scope) : Option Expression → Except Error Field
  | none => .ok Field.whole
  | some e => do
    let code ← s.evaluate e
    match if 0 ≤ code then Field.ofCode? code.toNat else none with
    | some field => .ok field
    | none => .error (.outOfRange .field code)

def storeParts (s : Scope) (w : Word) : WValue → Except Error Word
  | [] => .ok w
  | part :: parts => do
    let v ← s.evaluate part.value
    let field ← s.fieldOf part.field
    let v ← checkRange .wValue v
    s.storeParts (field.insert w (Word.ofInt v)) parts

/-- The parts are stored into a word that starts as plus zero. -/
def word (s : Scope) (w : WValue) : Except Error Word := s.storeParts Word.zero w

def indexOf (s : Scope) : Option Expression → Except Error (Fin 7)
  | none => .ok 0
  | some e => do
    let v ← s.evaluate e
    if h : 0 ≤ v ∧ v ≤ 6 then .ok ⟨v.toNat, by omega⟩ else .error (.outOfRange .index v)

/-- A missing `F` part is the one that the mnemonic stands for. -/
def fieldPartOf (s : Scope) (standard : Byte) : Option Expression → Except Error Byte
  | none => .ok standard
  | some e => do
    let v ← s.evaluate e
    if h : 0 ≤ v ∧ v ≤ 63 then .ok ⟨v.toNat, by omega⟩ else .error (.outOfRange .field v)

end Scope

end MixComputer.Assembly
