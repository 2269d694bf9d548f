import MixComputer.Text.Blank
import MixComputer.Text.Numeral

/-!
Settings of a machine, and how they are read from text. Settings that cannot be read are ignored.
-/
namespace MixComputer

inductive FieldErrorPolicy where
  /-- The fault ends the run. -/
  | halt
  /-- The fault is recorded and the instruction skipped. -/
  | skip
deriving DecidableEq

structure Configuration where
  memorySize : Nat
  fieldErrors : FieldErrorPolicy
  /-- The number of instructions after which a run is stopped. -/
  stepLimit : Option Nat
deriving DecidableEq

namespace Configuration

def standard : Configuration := ⟨4000, .halt, none⟩

/-- A natural number of 64 bits in decimal digits, with or without a plus sign. -/
def natural? (cs : List Char) : Option Nat :=
  let digits := match cs with
    | '+' :: digits => digits
    | digits => digits
  if !digits.isEmpty && digits.all Char.isDigit && Text.numeral digits < 0x10000000000000000 then
    some (Text.numeral digits)
  else none

def policy? (cs : List Char) : Option FieldErrorPolicy :=
  if cs = "halt".toList then some .halt
  else if cs = "skip".toList then some .skip
  else none

/-- A memory has at least the standard size and at most the size that two bytes of address reach. -/
def clampMemory (size : Nat) : Nat := min (max size 4000) 4096

/-- The standard machine changed by the settings that are there and can be read. Blanks around a
setting do not count. -/
def ofSettings (memorySize fieldErrors stepLimit : Option String) : Configuration :=
  let setting (s : Option String) := s.map fun s => Text.trim s.toList
  { memorySize := ((setting memorySize).bind natural?).elim standard.memorySize clampMemory
    fieldErrors := ((setting fieldErrors).bind policy?).getD standard.fieldErrors
    stepLimit := (setting stepLimit).bind natural? }

end Configuration

end MixComputer
