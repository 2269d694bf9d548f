import MixComputer.Peripherals

/-!
Devices with a record of all requests that were made to them.
-/
namespace MixComputer

/-- A request to a unit, with what the machine sent along. How it was answered is written down too,
also what a block was before it was read and what it was afterwards. -/
inductive DeviceCall where
  | busy (unit : Nat) (answer : Bool)
  | control (unit : Nat) (m : Int) (x : Word) {result : Except DeviceError Unit}
  | input (unit : Nat) (size : Nat) (x : Word) {before after : Vector Word size}
      {result : Except DeviceError Unit}
  | output (unit : Nat) (block : List Word) (x : Word) {result : Except DeviceError Unit}

namespace DeviceCall

def unit : DeviceCall → Nat
  | busy unit _ => unit
  | control unit _ _ => unit
  | input unit _ _ => unit
  | output unit _ _ => unit

/-- How the unit answered what it was asked to do. Whether it is busy is no such answer. -/
def answer? : DeviceCall → Option (Except DeviceError Unit)
  | busy _ _ => none
  | @control _ _ _ result => some result
  | @input _ _ _ _ _ result => some result
  | @output _ _ _ result => some result

end DeviceCall

structure Recorded (σ : Type) where
  devices : σ
  /-- The requests in the order in which they were made. -/
  calls : List DeviceCall

namespace Recorded

def start {σ : Type} (devices : σ) : Recorded σ := ⟨devices, []⟩

def note {σ : Type} (r : Recorded σ) (devices : σ) (call : DeviceCall) : Recorded σ :=
  ⟨devices, r.calls ++ [call]⟩

instance {σ : Type} [Peripherals σ] : Peripherals (Recorded σ) where
  busy r unit :=
    let (answer, devices) := Peripherals.busy r.devices unit
    (answer, r.note devices (.busy unit answer))
  control r unit m x :=
    let (result, devices) := Peripherals.control r.devices unit m x
    (result, r.note devices (@DeviceCall.control unit m x result))
  input {size} r unit before x :=
    let (result, after, devices) := Peripherals.input r.devices unit before x
    (result, after, r.note devices (@DeviceCall.input unit size x before after result))
  output r unit block x :=
    let (result, devices) := Peripherals.output r.devices unit block x
    (result, r.note devices (@DeviceCall.output unit block.toList x result))

end Recorded

end MixComputer
