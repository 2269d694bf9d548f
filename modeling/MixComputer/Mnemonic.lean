import MixComputer.Operation

/-!
The mnemonics of the assembly language. Several mnemonics may share an operation and differ in
the `F` part that they stand for, so a mnemonic names an operation together with an `F` part, or
one of the five directives to the assembler. No two mnemonics stand for the same thing.
-/
namespace MixComputer

inductive Directive where
  | equate
  | constant
  | characters
  | origin
  | finish
deriving DecidableEq

namespace Directive

def name : Directive → String
  | equate => "EQU"
  | constant => "CON"
  | characters => "ALF"
  | origin => "ORIG"
  | finish => "END"

def code : Directive → Nat
  | equate => 64
  | constant => 65
  | characters => 66
  | origin => 67
  | finish => 68

def all : List Directive := [equate, constant, characters, origin, finish]

end Directive

namespace Operation

def mnemonic : Operation → String × Nat
  | nop => ("NOP", 0)
  | add => ("ADD", 5)
  | sub => ("SUB", 5)
  | mul => ("MUL", 5)
  | div => ("DIV", 5)
  | special => ("NUM", 0)
  | shift => ("SLA", 0)
  | move => ("MOVE", 1)
  | load r => ("LD" ++ r.letter, 5)
  | loadNegative r => ("LD" ++ r.letter ++ "N", 5)
  | store r => ("ST" ++ r.letter, 5)
  | storeJ => ("STJ", 2)
  | storeZero => ("STZ", 5)
  | jumpBusy => ("JBUS", 0)
  | control => ("IOC", 0)
  | input => ("IN", 0)
  | output => ("OUT", 0)
  | jumpReady => ("JRED", 0)
  | jump => ("JMP", 0)
  | registerJump r => ("J" ++ r.letter ++ "N", 0)
  | addressTransfer r => ("INC" ++ r.letter, 0)
  | compare r => ("CMP" ++ r.letter, 5)

def otherMnemonics : Operation → List (String × Nat)
  | special => [("CHAR", 1), ("HLT", 2)]
  | shift => [("SRA", 1), ("SLAX", 2), ("SRAX", 3), ("SLC", 4), ("SRC", 5)]
  | jump =>
    [("JSJ", 1), ("JOV", 2), ("JNOV", 3), ("JL", 4), ("JE", 5), ("JG", 6), ("JGE", 7),
     ("JNE", 8), ("JLE", 9)]
  | registerJump r =>
    [("J" ++ r.letter ++ "Z", 1), ("J" ++ r.letter ++ "P", 2), ("J" ++ r.letter ++ "NN", 3),
     ("J" ++ r.letter ++ "NZ", 4), ("J" ++ r.letter ++ "NP", 5)]
  | addressTransfer r =>
    [("DEC" ++ r.letter, 1), ("ENT" ++ r.letter, 2), ("ENN" ++ r.letter, 3)]
  | _ => []

def mnemonics (op : Operation) : List (String × Nat) := op.mnemonic :: op.otherMnemonics

/-- The mnemonic to write for an operation and an `F` part, and whether the `F` part has to be
written beside it. -/
def nameFor (op : Operation) (field : Nat) : String × Bool :=
  match op.mnemonics.find? (fun m => m.2 == field) with
  | some m => (m.1, false)
  | none => (op.mnemonic.1, op.usage != .ignored)

end Operation

/-- What a mnemonic stands for. The `F` part holds where the source gives none. -/
inductive Mnemonic where
  | instruction (operation : Operation) (field : Byte)
  | directive (directive : Directive)
deriving DecidableEq

namespace Mnemonic

def table : List (String × Mnemonic) :=
  Operation.all.flatMap (fun op => op.mnemonics.map fun m => (m.1, instruction op (Byte.ofNat m.2)))
    ++ Directive.all.map fun d => (d.name, directive d)

def ofName? (name : String) : Option Mnemonic := table.lookup name

def code : Mnemonic → Nat
  | instruction op _ => op.code
  | directive d => d.code

def field : Mnemonic → Nat
  | instruction _ f => f.val
  | directive _ => 0

end Mnemonic

end MixComputer
