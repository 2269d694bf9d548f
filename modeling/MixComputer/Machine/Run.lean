import MixComputer.Machine.Execute

/-!
Fetching instructions, and running until the machine halts. A word is decoded at the moment at
which it is executed, since programs may change themselves.
-/
namespace MixComputer.Machine

variable {σ : Type}

def spend (m : Machine σ) (i : Instruction) : Machine σ :=
  { m with clock := m.clock + i.operation.time i.field }

def advance (m : Machine σ) : Machine σ := { m with pc := m.pc + 1, steps := m.steps + 1 }

def fetch (m : Machine σ) : Except Fault Instruction :=
  match m.word? m.pc with
  | none => .error (.memoryLocation m.pc (shownLocation m.pc))
  | some w =>
    match Instruction.decode w with
    | .ok i => .ok i
    | .error cause => .error (.illegalInstruction m.pc cause)

/-- The end of an instruction. A fault ends it before any time is spent, unless it is one that the
machine skips. -/
def complete (i : Instruction) : Outcome σ → Outcome σ
  | (m, .ok flow) => ({ m.spend i with halted := m.halted || flow == .halt }, .ok flow)
  | (m, .error fault) =>
    if fault.isFieldFault && m.config.fieldErrors == .skip then
      ((m.record fault).spend i).proceed
    else m.fail fault

variable [Peripherals σ]

def step (m : Machine σ) : Outcome σ :=
  match m.fetch with
  | .error fault => m.fail fault
  | .ok i => complete i (m.advance.execute m.pc i)

def limitReached? (m : Machine σ) (first : Nat) : Option Nat :=
  m.config.stepLimit.filter fun limit => limit ≤ m.steps - first

/-- Steps until the machine halts, and gives the number of steps since `first`; a fault or the
limit ends it too. There is no result if `fuel` steps do not suffice. -/
def resume (first : Nat) : (fuel : Nat) → Machine σ → Machine σ × Option (Except Fault Nat)
  | fuel, m =>
    if m.halted then (m, some (.ok (m.steps - first)))
    else match m.limitReached? first with
      | some limit => (m, some (.error (.stepLimit limit)))
      | none =>
        match fuel with
        | 0 => (m, none)
        | fuel + 1 =>
          match m.step with
          | (m, .ok _) => resume first fuel m
          | (m, .error fault) => (m, some (.error fault))

def run (m : Machine σ) (start fuel : Nat) : Machine σ × Option (Except Fault Nat) :=
  (m.setPc start).resume m.steps fuel

end MixComputer.Machine
