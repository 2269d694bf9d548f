import MixComputer.Listing
import MixComputer.Peripherals

/-!
What can go wrong while a program runs. Every fault but the step limit says where the instruction
is that caused it.
-/
namespace MixComputer

inductive Fault where
  | illegalInstruction (pc : Nat) (cause : DecodeError)
  /-- The `F` part is not one that the operation admits. -/
  | field (pc : Nat) (field : Byte) (operation : Operation)
  | memoryLocation (pc : Nat) (location : Int)
  | negativeShift (pc : Nat) (amount : Address)
  | device (pc : Nat) (unit : Nat) (cause : DeviceError)
  /-- A value of more than two bytes went to an index register. Recorded, and never fatal. -/
  | indexAnomaly (pc : Nat) (register : Register) (value : Int)
  | stepLimit (limit : Nat)
deriving DecidableEq

namespace Fault

def isFieldFault : Fault → Bool
  | field _ _ _ => true
  | _ => false

def fieldReason (field : Byte) (operation : Operation) : String :=
  match operation.usage with
  | .variant count => "expected 0-" ++ toString (count - 1) ++ " for " ++ operation.name
  | .unit => "no unit " ++ toString field.val
  | _ =>
    "(" ++ toString (field.val / 8) ++ ":" ++ toString (field.val % 8) ++ ") is not a field of "
      ++ operation.name

def message : Fault → String
  | illegalInstruction pc cause => "illegal instruction at " ++ toString pc ++ ": " ++ cause.message
  | field pc f operation =>
    "invalid F-specification " ++ toString f.val ++ " at " ++ toString pc ++ ": "
      ++ fieldReason f operation
  | memoryLocation pc location =>
    "memory location " ++ toString location ++ " out of range at " ++ toString pc
  | negativeShift pc amount =>
    "invalid operand at " ++ toString pc ++ ": negative shift amount " ++ amount.text
  | device pc unit cause =>
    "unit " ++ toString unit ++ " failed at " ++ toString pc ++ ": " ++ cause.message
  | indexAnomaly pc register value =>
    "index register " ++ toString register.val ++ " given out-of-range value " ++ toString value
      ++ " at " ++ toString pc
  | stepLimit limit => "step limit of " ++ toString limit ++ " reached"

end Fault

end MixComputer
