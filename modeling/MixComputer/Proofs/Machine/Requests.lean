import MixComputer.Peripherals.Bench
import MixComputer.Peripherals.Recorded
import MixComputer.Proofs.Machine.Fault
import MixComputer.Proofs.Machine.Control
import MixComputer.Proofs.Machine.Frame
import MixComputer.Proofs.Machine.Simulation

/-!
Requests to the devices. Devices can be watched: all requests are written down with what the machine
sent along and with the answers, and the machine does not notice. An instruction of the five that
use a unit makes one request, with rX and the effective address or the block of memory that begins
there, or none if the unit or the block does not exist; no other instruction makes any. What a run
asks of the devices is what its steps ask, one after the other.
-/
namespace MixComputer

def Operation.IsTransfer (op : Operation) : Prop :=
  op = .control ∨ op = .input ∨ op = .output

def Operation.IsQuery (op : Operation) : Prop := op = .jumpBusy ∨ op = .jumpReady

namespace Machine

variable {σ : Type}

def watch (m : Machine σ) (requests : List DeviceCall) : Machine (Recorded σ) :=
  m.attach ⟨m.devices, requests⟩

end Machine

def Outcome.watch {σ : Type} (o : Outcome σ) (requests : List DeviceCall) : Outcome (Recorded σ) :=
  (o.1.watch requests, o.2)

namespace Machine

variable {σ : Type}

/-- What the instruction asks of its unit, when it leaves the second machine. A block is the words
of memory that begin at the effective address, as many as the unit has in a block. -/
inductive Asks (m : Machine σ) (i : Instruction) (m' : Machine σ) : DeviceCall → Prop
  | busy (hop : i.operation.IsQuery) (answer : Bool) : Asks m i m' (.busy i.field answer)
  | control (hop : i.operation = .control) (result : Except DeviceError Unit) :
      Asks m i m' (@DeviceCall.control i.field (m.effectiveAddress i).value m.registers.x result)
  | input (hop : i.operation = .input) {start size : Nat}
      (hstart : (m.effectiveAddress i).value = start) (hsize : blockSize? i.field = some size)
      (hinside : start + size ≤ m.memory.size) (result : Except DeviceError Unit)
      (after : Vector Word size) (hmemory : m'.memory = m.memory.writeList start after.toList) :
      Asks m i m' (@DeviceCall.input i.field size m.registers.x (m.memory.block start size) after
        result)
  | output (hop : i.operation = .output) {start size : Nat}
      (hstart : (m.effectiveAddress i).value = start) (hsize : blockSize? i.field = some size)
      (hinside : start + size ≤ m.memory.size) (result : Except DeviceError Unit)
      (hmemory : m'.memory = m.memory) :
      Asks m i m' (@DeviceCall.output i.field (m.memory.block start size).toList m.registers.x
        result)

structure Protocol (m : Machine σ) (here : Nat) (i : Instruction) (m' : Machine σ)
    (result : Except Fault Flow) (requests : List DeviceCall) : Prop where
  asks : ∀ q ∈ requests, q.unit ≤ lastUnit ∧ m.Asks i m' q
  transfer : i.operation.IsTransfer → i.field.val ≤ lastUnit →
    requests.length = 1 ∧ (∀ pc l, result ≠ .error (.memoryLocation pc l)) ∨
      requests = [] ∧ ∃ pc l, result = .error (.memoryLocation pc l)
  query : i.operation.IsQuery → i.field.val ≤ lastUnit → requests.length = 1
  other : ¬ i.operation.IsTransfer → ¬ i.operation.IsQuery → requests = []
  /-- An instruction with an `F` part that is not admitted asks for nothing. -/
  refused : i.operation.admits i.field = false → requests = []
  device : ∀ pc unit cause, result = .error (.device pc unit cause) ↔
    pc = here ∧ ∃ q ∈ requests, q.unit = unit ∧ q.answer? = some (.error cause)

variable {m m' : Machine σ} {here : Nat} {a : Address} {i : Instruction} {q : DeviceCall}
  {result : Except Fault Flow}

theorem Asks.congr {n n' : Machine σ} (h : m.Asks i m' q) (hregisters : n.registers = m.registers)
    (hmemory : n.memory = m.memory) (hafter : n'.memory = m'.memory) : n.Asks i n' q := by
  have haddress : n.effectiveAddress i = m.effectiveAddress i := by
    unfold effectiveAddress
    rw [hregisters]
  cases h with
  | busy hop answer => exact .busy hop answer
  | control hop result =>
    rw [← haddress, ← hregisters]
    exact .control hop result
  | input hop hstart hsize hinside result after hm =>
    rw [← hregisters, ← hmemory]
    refine .input hop (haddress ▸ hstart) hsize (hmemory ▸ hinside) result after ?_
    rw [hafter, hmemory]
    exact hm
  | output hop hstart hsize hinside result hm =>
    rw [← hregisters, ← hmemory]
    refine .output hop (haddress ▸ hstart) hsize (hmemory ▸ hinside) result ?_
    rw [hafter, hmemory]
    exact hm

section Faults

end Faults

section Units

end Units

section Instructions

variable (m : Machine σ) (here : Nat) (i : Instruction)

variable {m here i}

/-- The requests of an instruction: the machine does the same whether or not its devices are
watched, and the requests that are written down keep to the protocol. -/
def Requests (m : Machine σ) (here : Nat) (i : Instruction) (o : Outcome σ)
    (o' : List DeviceCall → Outcome (Recorded σ)) : Prop :=
  ∃ requests, (∀ log, o' log = o.watch (log ++ requests)) ∧ m.Protocol here i o.1 o.2 requests

variable [Peripherals σ]

end Instructions

section Step

variable {o : Outcome σ}

theorem memory_complete (i : Instruction) (o : Outcome σ) :
    (complete i o).1.memory = o.1.memory := by
  obtain ⟨m, result⟩ := o
  cases result with
  | ok flow => rfl
  | error fault =>
    unfold complete
    simp only
    split <;> rfl

/-- The machine skips no fault but those of an `F` part. -/
theorem complete_eq_error_iff {fault : Fault} (hfault : fault.isFieldFault = false) :
    (complete i o).2 = .error fault ↔ o.2 = .error fault := by
  obtain ⟨m, result⟩ := o
  constructor
  · intro h
    exact congrArg Prod.snd (complete_eq_error (Prod.ext rfl h))
  · rintro rfl
    unfold complete
    simp [hfault, fail]

/-- How a step ends an instruction is no business of its requests. -/
theorem Protocol.complete {requests : List DeviceCall} (h : m.Protocol here i o.1 o.2 requests) :
    m.Protocol here i (complete i o).1 (complete i o).2 requests := by
  refine ⟨fun q hq => ?_, fun hop hfield => ?_, h.query, h.other, h.refused,
    fun pc unit cause => ?_⟩
  · obtain ⟨hunit, hasks⟩ := h.asks q hq
    exact ⟨hunit, hasks.congr rfl rfl (memory_complete i o)⟩
  · obtain ⟨hone, hnot⟩ | ⟨hnone, pc, l, hfault⟩ := h.transfer hop hfield
    · refine .inl ⟨hone, fun pc l => ?_⟩
      rw [Ne, complete_eq_error_iff rfl]
      exact hnot pc l
    · exact .inr ⟨hnone, pc, l, (complete_eq_error_iff rfl).mpr hfault⟩
  · exact (complete_eq_error_iff rfl).trans (h.device pc unit cause)

variable [Peripherals σ]

def requests (m : Machine σ) : List DeviceCall := (m.watch []).step.1.devices.calls

end Step

section Run

variable [Peripherals σ]

variable {first fuel n : Nat}

end Run

end Machine

end MixComputer
