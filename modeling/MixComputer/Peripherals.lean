import MixComputer.Word

/-!
Peripheral units. The machine has none of its own: it asks whatever is attached, and each request
leaves the devices in a new state. Units 0 to 15 are tapes, disks and drums, 16 and 17 the card
reader and the card punch, 18 the line printer, 19 the typewriter and 20 the paper tape.
-/
namespace MixComputer

inductive DeviceError where
  | notAttached (unit : Nat)
  | noSuchUnit (unit : Nat)
  | failed (reason : String)
deriving DecidableEq

def DeviceError.message : DeviceError → String
  | .notAttached unit => s!"no device attached to unit {unit}"
  | .noSuchUnit unit => s!"unit {unit} does not exist"
  | .failed reason => reason

def lastUnit : Nat := 20

def blockSize? (unit : Nat) : Option Nat :=
  if unit ≤ 15 then some 100
  else if unit ≤ 17 then some 16
  else if unit = 18 then some 24
  else if unit ≤ 20 then some 14
  else none

/-- What can be attached to a machine. A block that is read keeps its length. -/
class Peripherals (σ : Type) where
  /-- Whether the unit is still at work on an earlier request. -/
  busy (devices : σ) (unit : Nat) : Bool × σ
  /-- A request that moves no data, with the effective address and rX. -/
  control (devices : σ) (unit : Nat) (m : Int) (x : Word) : Except DeviceError Unit × σ
  /-- A new content for a block of memory, also where the request fails. -/
  input {n : Nat} (devices : σ) (unit : Nat) (block : Vector Word n) (x : Word) :
    Except DeviceError Unit × Vector Word n × σ
  output {n : Nat} (devices : σ) (unit : Nat) (block : Vector Word n) (x : Word) :
    Except DeviceError Unit × σ

/-- No devices at all: no unit is busy and every request fails. -/
structure Unattached where
deriving DecidableEq

instance : Peripherals Unattached where
  busy d _ := (false, d)
  control d unit _ _ := (.error (.notAttached unit), d)
  input d unit block _ := (.error (.notAttached unit), block, d)
  output d unit _ _ := (.error (.notAttached unit), d)

instance {σ : Type} [Peripherals σ] : Peripherals (Option σ) where
  busy
    | none, _ => (false, none)
    | some d, unit => (Peripherals.busy d unit).map id some
  control
    | none, unit, _, _ => (.error (.notAttached unit), none)
    | some d, unit, m, x => (Peripherals.control d unit m x).map id some
  input
    | none, unit, block, _ => (.error (.notAttached unit), block, none)
    | some d, unit, block, x => (Peripherals.input d unit block x).map id (Prod.map id some)
  output
    | none, unit, _, _ => (.error (.notAttached unit), none)
    | some d, unit, block, x => (Peripherals.output d unit block x).map id some

end MixComputer
