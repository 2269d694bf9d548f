import MixComputer.Machine.Basic
import MixComputer.Text.Table

/-!
The display of a machine: its state, its registers, and the memory around the next instruction.
-/
namespace MixComputer.Machine

open Text

variable {σ : Type}

def registerTable (s : Registers) : Table where
  frame := .ruled
  title := [.right "Register", .left "Contents"]
  rows :=
    (Register.all.map fun (r : Register) => [.right (Register.name r), .left (s.get r).text])
      ++ [[.right "rJ", .left (zeroPadded 4 s.j)],
          [.right "OV", .left s.overflowText],
          [.right "CI", .left (Registers.comparisonName s.comparison)]]

def disassembly (w : Word) : String :=
  match Instruction.decode w with
  | .ok i => i.text
  | .error _ => ""

def memoryRow (m : Machine σ) (location : Nat) : Row :=
  let number := zeroPadded 4 location
  [.right (if location = m.pc then "* --> " ++ number else number),
   .left (m.content location).text, .left (disassembly (m.content location))]

def shownLocations (m : Machine σ) : List Nat :=
  let first := m.pc - 4
  (List.range (min (m.pc + 5) m.memory.size - first)).map (first + ·)

def memoryTable (m : Machine σ) : Table where
  frame := .ruled
  title := [.right "Address", .left "Contents", .left "Instruction"]
  rows := m.shownLocations.map m.memoryRow

def displayTable (m : Machine σ) : Table where
  frame := .ruled
  title := [.left "Registers", .left "Memory"]
  rows := [[⟨(registerTable m.registers).rendered, false⟩, ⟨m.memoryTable.rendered, false⟩]]

def display (m : Machine σ) : String :=
  (if m.halted then "Halted." else "Running.") ++ "\tpc: " ++ zeroPadded 4 m.pc
    ++ "\tclock: " ++ toString m.clock ++ "\n" ++ m.displayTable.render

end MixComputer.Machine
