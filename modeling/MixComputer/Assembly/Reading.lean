import MixComputer.Alphabet
import MixComputer.Assembly.Draft

/-!
Reading a program line by line into a draft. A line with an error is reported and skipped; its
label may be defined by then. Reading ends with the first `END` that has no error.
-/
namespace MixComputer.Assembly

open Source

def readOperand (text : String) : Except Error Operand :=
  match Operand.ofChars? text.toList with
  | some operand => .ok operand
  | none => .error (.malformed (.addressField text))

def readWValue (text : String) : Except Error WValue :=
  match WValue.ofChars? text.toList with
  | some w => .ok w
  | none => .error (.malformed (.wValue text))

def wholeExpression? : WValue → Option Expression
  | [⟨e, none⟩] => some e
  | _ => none

/-- An address has two bytes. An expression of value zero gives the zero of its sign. -/
def addressOf (s : Scope) (e : Expression) : Except Error Address := do
  let v ← s.evaluate e
  if v = 0 then .ok ⟨e.negative, 0⟩
  else if v.natAbs < weight 2 then .ok (Address.ofInt v)
  else .error (.outOfRange .address v)

def characterWord (cs : List Char) : Except Error Word := do
  let codes ← cs.mapM fun c =>
    match Alphabet.code? c with
    | some code => Except.ok code
    | none => .error (Error.badCharacter c)
  .ok (Word.ofBytes false codes)

namespace Draft

def directiveWord (d : Draft) (operand : String) : Except Error Word := do
  let w ← readWValue operand
  d.scope.word w

def equate (d : Draft) (label : Option String) (operand : String) : Except Error Draft := do
  let w ← d.directiveWord operand
  match label with
  | some name => d.define name w.value
  | none => .ok d

def moveOrigin (d : Draft) (operand : String) : Except Error Draft := do
  let w ← d.directiveWord operand
  let location ← d.checkLocation .location w.value
  .ok { d with location }

/-- The word of a constant, which may be a symbol that has no value yet. -/
def constantWord (d : Draft) (operand : String) (line : Nat) : Except Error (Word × Pending) := do
  let w ← readWValue operand
  match (wholeExpression? w).bind d.openSymbol? with
  | some (name, negative) =>
    .ok (Word.wrap negative 0, .symbol name ⟨d.location, negative, Field.whole, line⟩)
  | none =>
    let v ← d.scope.word w
    .ok (v, .nothing)

def charactersWord (rest : String) : Except Error (Word × Pending) := do
  let w ← characterWord (fiveCharacters rest)
  .ok (w, .nothing)

/-- The word of an instruction. Its address may be a symbol that has no value yet, or a literal. -/
def instructionWord (d : Draft) (op : Operation) (standard : Byte) (text : String) (line : Nat) :
    Except Error (Word × Pending) := do
  let operand ← readOperand text
  let index ← d.scope.indexOf operand.index
  let field ← d.scope.fieldPartOf standard operand.field
  let encode (a : Address) : Word := Instruction.encode ⟨op, index, field, a⟩
  match operand.address with
  | .empty => .ok (encode Address.zero, .nothing)
  | .expression e =>
    match d.openSymbol? e with
    | some (name, negative) =>
      .ok (encode ⟨negative, 0⟩, .symbol name ⟨d.location, negative, Field.address, line⟩)
    | none =>
      let a ← addressOf d.scope e
      .ok (encode a, .nothing)
  | .literal w =>
    let v ← d.scope.word w
    .ok (encode Address.zero, .literal v ⟨d.location, false, Field.address, line⟩)

/-- The entry may be a symbol that has no value yet, without a sign. -/
def setEntry (d : Draft) (operand : String) (line : Nat) : Except Error Draft := do
  let w ← readWValue operand
  match (wholeExpression? w).bind d.openSymbol? with
  | some (name, false) => .ok { d with entrySymbol := some (name, line) }
  | _ =>
    let v ← d.scope.word w
    let entry ← d.checkLocation .entryPoint v.value
    .ok { d with entry := some entry }

/-- The label of the last line must be new, and waits. -/
def deferLabel (d : Draft) (label : Option String) (line : Nat) : Except Error Draft :=
  match label with
  | none => .ok d
  | some name =>
    match d.symbols.get? name with
    | some old => .error (.duplicateSymbol name old)
    | none => .ok { d with endLabel := some (name, line) }

/-- A change that may fail, made to a draft. A failed change leaves the draft as it is. -/
def attempt (d : Draft) : Except Error Draft → Draft × Except Error Unit
  | .ok d' => (d', .ok ())
  | .error error => (d, .error error)

/-- Two changes, one after the other. What the first has done stays if the second fails. -/
def attemptBoth (d : Draft) (first : Except Error Draft) (second : Draft → Except Error Draft) :
    Draft × Except Error Unit :=
  match first with
  | .ok d' => d'.attempt (second d')
  | .error error => (d, .error error)

/-- What a line does. The label of an `EQU` line is its own affair; other labels come first. -/
def obey (d : Draft) (mnemonic : Mnemonic) (l : Line) (line : Nat) : Draft × Except Error Unit :=
  match mnemonic with
  | .directive .equate => d.attempt (d.equate l.label l.operand)
  | .directive .origin => d.attemptBoth (d.defineLabel l.label) (·.moveOrigin l.operand)
  | .directive .constant =>
    d.attemptBoth (d.defineLabel l.label) fun d => d.constantWord l.operand line >>= d.put
  | .directive .characters =>
    d.attemptBoth (d.defineLabel l.label) fun d => charactersWord l.rest >>= d.put
  | .directive .finish => d.attemptBoth (d.deferLabel l.label line) (·.setEntry l.operand line)
  | .instruction op standard =>
    d.attemptBoth (d.defineLabel l.label) fun d =>
      d.instructionWord op standard l.operand line >>= d.put

def parseLine (text : String) : Except Error (Line × Mnemonic) :=
  match Line.ofText? text with
  | .error cause => .error (.malformed cause)
  | .ok l =>
    match Mnemonic.ofName? l.operation with
    | some mnemonic => .ok (l, mnemonic)
    | none => .error (.unknownOperation l.operation)

def readLine (d : Draft) (text : String) (line : Nat) : Draft × Except Error Bool :=
  match parseLine text with
  | .error error => (d, .error error)
  | .ok (l, mnemonic) =>
    match d.obey mnemonic l line with
    | (d', .ok _) => (d', .ok (mnemonic == .directive .finish))
    | (d', .error error) => (d', .error error)

def takeLine (d : Draft) (text : String) (line : Nat) : Draft × Bool :=
  if isComment text then (d, false)
  else match d.readLine text line with
    | (d', .ok last) => (d', last)
    | (d', .error error) => (d'.report line .error error, false)

def readLines (d : Draft) (line : Nat) : List String → Draft
  | [] => d
  | text :: rest =>
    match d.takeLine text line with
    | (d', true) => d'
    | (d', false) => d'.readLines (line + 1) rest

end Draft

end MixComputer.Assembly
