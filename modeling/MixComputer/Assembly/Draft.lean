import MixComputer.Assembly.Evaluation
import MixComputer.Instruction
import MixComputer.Memory

/-!
A program under assembly: the memory image so far, the symbols, and what waits for a value. A
future reference is a use of a symbol before its definition; it leaves a zero behind and is
patched when all lines have been read. So is the address of a literal.
-/
namespace MixComputer.Assembly

open Source

/-- A place in memory that waits for a value. -/
structure Patch where
  location : Nat
  /-- Whether the value is to be negated. -/
  negative : Bool
  field : Field
  line : Nat
deriving DecidableEq

/-- The uses of a symbol before its definition. There is at least one. -/
structure Future where
  name : String
  first : Patch
  others : List Patch
deriving DecidableEq

/-- What a word waits for when it is put into memory. -/
inductive Pending where
  | nothing
  | symbol (name : String) (patch : Patch)
  | literal (w : Word) (patch : Patch)
deriving DecidableEq

inductive Severity where
  | error
  | warning
deriving DecidableEq

def Severity.name : Severity → String
  | error => "error"
  | warning => "warning"

/-- What was found about a line. Lines are counted from 1. -/
structure Report where
  line : Nat
  severity : Severity
  error : Error
deriving DecidableEq

structure Draft where
  /-- Where the next word goes. -/
  location : Nat
  memory : Memory
  symbols : SymbolTable
  /-- Future references in the order in which their symbols were first used. -/
  futures : List Future
  /-- Constants that still need a place, with the addresses that will point to them. -/
  literals : List (Word × Patch)
  entry : Option Nat
  /-- The symbol that names the entry, if it was not defined yet, and its line. -/
  entrySymbol : Option (String × Nat)
  /-- The label of the last line, which is defined after all else. -/
  endLabel : Option (String × Nat)
  reports : List Report
deriving DecidableEq

namespace Draft

def start (size : Nat) : Draft where
  location := 0
  memory := Memory.blank size
  symbols := SymbolTable.empty
  futures := []
  literals := []
  entry := none
  entrySymbol := none
  endLabel := none
  reports := []

def scope (d : Draft) : Scope := ⟨d.symbols, d.location⟩

def report (d : Draft) (line : Nat) (severity : Severity) (error : Error) : Draft :=
  { d with reports := d.reports ++ [⟨line, severity, error⟩] }

def define (d : Draft) (name : String) (value : Int) : Except Error Draft :=
  match d.symbols.insert name value with
  | .ok symbols => .ok { d with symbols }
  | .error old => .error (.duplicateSymbol name old)

def defineLabel (d : Draft) : Option String → Except Error Draft
  | some label => d.define label d.location
  | none => .ok d

def emit (d : Draft) (w : Word) : Except Error Draft :=
  if d.location < d.memory.size then
    .ok { d with memory := d.memory.write d.location w, location := d.location + 1 }
  else .error (.outOfRange .location d.location)

def addFuture (name : String) (patch : Patch) : List Future → List Future
  | [] => [⟨name, patch, []⟩]
  | f :: fs =>
    if f.name = name then { f with others := f.others ++ [patch] } :: fs
    else f :: addFuture name patch fs

def remember (d : Draft) (name : String) (patch : Patch) : Draft :=
  { d with futures := addFuture name patch d.futures }

def addLiteral (d : Draft) (w : Word) (patch : Patch) : Draft :=
  { d with literals := d.literals ++ [(w, patch)] }

def await (d : Draft) : Pending → Draft
  | .nothing => d
  | .symbol name patch => d.remember name patch
  | .literal w patch => d.addLiteral w patch

def put (d : Draft) (entry : Word × Pending) : Except Error Draft := do
  let d' ← d.emit entry.1
  .ok (d'.await entry.2)

def checkLocation (d : Draft) (quantity : Quantity) (v : Int) : Except Error Nat :=
  if 0 ≤ v ∧ v.toNat < d.memory.size then .ok v.toNat else .error (.outOfRange quantity v)

/-- The symbol and the sign of an expression that may stay open: a lone symbol without a value. -/
def openSymbol? (d : Draft) (e : Expression) : Option (String × Bool) :=
  e.loneSymbol?.filter fun s => !d.symbols.contains s.1

end Draft

end MixComputer.Assembly
