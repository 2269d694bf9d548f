import MixComputer.Configuration
import MixComputer.Fault
import MixComputer.Memory
import MixComputer.Registers

/-!
The state of the machine, and how instructions reach its registers and its memory. What an
instruction does is given as the machine that it leaves together with the fault that stopped it,
if one did.
-/
namespace MixComputer

inductive Flow where
  | proceed
  | halt
deriving DecidableEq

structure Machine (σ : Type) where
  config : Configuration
  registers : Registers
  memory : Memory
  /-- The location of the next instruction. -/
  pc : Nat
  /-- The time since the start, in units. -/
  clock : Nat
  /-- The number of instructions since the start. -/
  steps : Nat
  halted : Bool
  /-- The faults that did not stop the machine, in the order in which they happened. -/
  anomalies : Array Fault
  devices : σ

abbrev Outcome (σ : Type) := Machine σ × Except Fault Flow

namespace Machine

variable {σ : Type}

/-- A machine whose memory starts with a copy of `image`. Memory is never smaller than the
configuration says. -/
def ofImage (config : Configuration) (devices : σ) (image : List Word) : Machine σ where
  config := config
  registers := Registers.initial
  memory := Memory.ofImage image config.memorySize
  pc := 0
  clock := 0
  steps := 0
  halted := false
  anomalies := #[]
  devices := devices

def attach {τ : Type} (m : Machine σ) (devices : τ) : Machine τ := { m with devices }

/-- The next instruction is the one at `pc`, also if the machine had halted. -/
def setPc (m : Machine σ) (pc : Nat) : Machine σ := { m with pc, halted := false }

def word? (m : Machine σ) (location : Nat) : Option Word := m.memory[location]?

/-- A location as messages show it, a signed number of 64 bits. -/
def shownLocation (location : Nat) : Int := Int.bmod location 0x10000000000000000

/-- Copies words into memory, unless they would go past its end. -/
def load (m : Machine σ) (start : Nat) (words : List Word) : Except Fault (Machine σ) :=
  if start + words.length ≤ m.memory.size then
    .ok { m with memory := m.memory.writeList start words }
  else .error (.memoryLocation m.pc (shownLocation (start + words.length - 1)))

def setRegisters (m : Machine σ) (registers : Registers) : Machine σ := { m with registers }

def record (m : Machine σ) (anomaly : Fault) : Machine σ :=
  { m with anomalies := m.anomalies.push anomaly }

/-- Index registers keep two bytes of a word; that a word had more is recorded. -/
def setRegister (m : Machine σ) (here : Nat) (r : Register) (w : Word) : Machine σ :=
  if Register.isIndex r && weight 2 ≤ w.magnitude then
    (m.record (.indexAnomaly here r w.value)).setRegisters
      (m.registers.set r (w.withMagnitude (w.magnitude % weight 2)))
  else m.setRegisters (m.registers.set r w)

def location? (m : Machine σ) (a : Address) : Option Nat := a.location? m.memory.size

def content (m : Machine σ) (location : Nat) : Word := m.memory.getD location Word.zero

def write (m : Machine σ) (location : Nat) (w : Word) : Machine σ :=
  { m with memory := m.memory.write location w }

def effectiveAddress (m : Machine σ) (i : Instruction) : Address :=
  i.address.add (m.registers.indexValue i.index)

def proceed (m : Machine σ) : Outcome σ := (m, .ok .proceed)

def fail (m : Machine σ) (fault : Fault) : Outcome σ := (m, .error fault)

/-- Goes on with the location that an address names; if there is none, nothing happens but the
fault. -/
@[inline] def atLocation (m : Machine σ) (here : Nat) (a : Address)
    (next : Nat → Outcome σ) : Outcome σ :=
  match m.location? a with
  | some location => next location
  | none => m.fail (.memoryLocation here a.value)

end Machine

end MixComputer
