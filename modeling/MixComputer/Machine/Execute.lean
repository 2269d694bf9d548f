import MixComputer.Arithmetic
import MixComputer.Machine.Basic

/-!
What each operation does. The `F` part is judged before anything else, and an instruction looks
for its memory before it changes anything, so most faults leave the machine as it was. The
exceptions: a jump on overflow clears the toggle before it looks at its target, `MOVE` keeps the
words that it has copied, and a device may have changed its block and itself.
-/
namespace MixComputer

def Operation.admits (op : Operation) (field : Byte) : Bool :=
  match op.usage with
  | .bytes => (Field.ofCode? field).isSome
  | .variant count => field.val < count
  | .unit => field.val ≤ lastUnit
  | .count | .ignored => true

def Instruction.spec (i : Instruction) : Field := i.spec?.getD Field.whole

namespace Machine

variable {σ : Type}

/-- Adds to rA or rX. An inexact sum sets the overflow toggle; nothing here clears it. -/
def addTo (m : Machine σ) (r : Register) (n : Int) : Machine σ :=
  let w := m.registers.get r
  m.setRegisters
    { m.registers.set r (Arithmetic.add w n) with
      overflow := m.registers.overflow || Arithmetic.overflows w n }

def setPair (m : Machine σ) (words : Word × Word) : Machine σ :=
  m.setRegisters ((m.registers.setA words.1).setX words.2)

def divide (m : Machine σ) (v : Word) : Machine σ :=
  match Arithmetic.divide? m.registers.a m.registers.x v with
  | some words => m.setPair words
  | none => m.setRegisters { m.registers with overflow := true }

def increase (m : Machine σ) (here : Nat) (r : Register) (n : Int) : Machine σ :=
  if Register.isIndex r then m.setRegister here r (Arithmetic.add (m.registers.get r) n)
  else m.addTo r n

/-- Increases, decreases, enters or enters negated, by the `F` part. -/
def transferAddress (m : Machine σ) (here : Nat) (r : Register) (a : Address) (variant : Nat) :
    Machine σ :=
  match variant with
  | 0 => m.increase here r a.value
  | 1 => m.increase here r (-a.value)
  | 2 => m.setRegister here r a.toWord
  | _ => m.setRegister here r a.toWord.negated

def compareWith (m : Machine σ) (r : Register) (f : Field) (w : Word) : Machine σ :=
  m.setRegisters
    { m.registers with comparison := compare (f.extract (m.registers.get r)) (f.extract w) }

def shift (m : Machine σ) (here : Nat) (a : Address) (variant : Nat) : Outcome σ :=
  if a.value < 0 then m.fail (.negativeShift here a)
  else
    (m.setPair (Arithmetic.shift variant m.registers.a m.registers.x a.value.toNat)).proceed

/-- Copies `count` words one by one from `a + k` on to where rI1 points, which moves along. -/
def moveWords (m : Machine σ) (here : Nat) (a : Address) (k : Nat) : (count : Nat) → Outcome σ
  | 0 => m.proceed
  | count + 1 =>
    m.atLocation here (a.add k) fun source =>
      m.atLocation here (Address.ofWord (m.registers.get 1)) fun target =>
        ((m.write target (m.content source)).increase here 1 1).moveWords here a (k + 1) count

/-- A jump remembers in rJ where it came from, taken or not. A jump that is taken needs a target
inside memory. -/
def jumpIf (m : Machine σ) (here : Nat) (condition : Bool) (a : Address) : Outcome σ :=
  let linked := { m.registers with j := m.pc % weight 2 }
  if condition then
    m.atLocation here a fun target => { m with registers := linked, pc := target }.proceed
  else (m.setRegisters linked).proceed

/-- The jumps that depend on no register, by the `F` part. The second leaves rJ alone, the next
two ask for the overflow toggle and clear it. -/
def jump (m : Machine σ) (here : Nat) (a : Address) (variant : Nat) : Outcome σ :=
  let cleared := m.setRegisters { m.registers with overflow := false }
  match variant with
  | 0 => m.jumpIf here true a
  | 1 => m.atLocation here a fun target => { m with pc := target }.proceed
  | 2 => cleared.jumpIf here m.registers.overflow a
  | 3 => cleared.jumpIf here (!m.registers.overflow) a
  | 4 => m.jumpIf here (m.registers.comparison == .lt) a
  | 5 => m.jumpIf here (m.registers.comparison == .eq) a
  | 6 => m.jumpIf here (m.registers.comparison == .gt) a
  | 7 => m.jumpIf here (m.registers.comparison != .lt) a
  | 8 => m.jumpIf here (m.registers.comparison != .eq) a
  | _ => m.jumpIf here (m.registers.comparison != .gt) a

def registerCondition (v : Int) (variant : Nat) : Bool :=
  match variant with
  | 0 => v < 0
  | 1 => v == 0
  | 2 => v > 0
  | 3 => v ≥ 0
  | 4 => v != 0
  | _ => v ≤ 0

variable [Peripherals σ]

def jumpOnUnit (m : Machine σ) (here : Nat) (a : Address) (unit : Nat) (busy : Bool) :
    Outcome σ :=
  let (answer, devices) := Peripherals.busy m.devices unit
  { m with devices }.jumpIf here (answer == busy) a

def finishRequest (m : Machine σ) (here unit : Nat) : Except DeviceError Unit → Outcome σ
  | .ok _ => m.proceed
  | .error cause => m.fail (.device here unit cause)

def controlUnit (m : Machine σ) (here : Nat) (a : Address) (unit : Nat) : Outcome σ :=
  let (result, devices) := Peripherals.control m.devices unit a.value m.registers.x
  { m with devices }.finishRequest here unit result

@[inline] def atBlock (m : Machine σ) (here : Nat) (a : Address) (unit : Nat)
    (next : Nat → Nat → Outcome σ) : Outcome σ :=
  m.atLocation here a fun start =>
    let size := (blockSize? unit).getD 0
    if start + size ≤ m.memory.size then next start size
    else m.fail (.memoryLocation here ((start + size : Nat) - 1))

def readUnit (m : Machine σ) (here : Nat) (a : Address) (unit : Nat) : Outcome σ :=
  m.atBlock here a unit fun start size =>
    let (result, block, devices) :=
      Peripherals.input m.devices unit (m.memory.block start size) m.registers.x
    { m with memory := m.memory.writeList start block.toList, devices }.finishRequest here unit
      result

def writeUnit (m : Machine σ) (here : Nat) (a : Address) (unit : Nat) : Outcome σ :=
  m.atBlock here a unit fun start size =>
    let (result, devices) :=
      Peripherals.output m.devices unit (m.memory.block start size) m.registers.x
    { m with devices }.finishRequest here unit result

def perform (m : Machine σ) (here : Nat) (i : Instruction) : Outcome σ :=
  let a := m.effectiveAddress i
  let f := i.spec
  match i.operation with
  | .nop => m.proceed
  | .add => m.atLocation here a fun l => (m.addTo .a (f.extract (m.content l)).value).proceed
  | .sub =>
    m.atLocation here a fun l => (m.addTo .a (f.extract (m.content l)).negated.value).proceed
  | .mul =>
    m.atLocation here a fun l =>
      (m.setPair (Arithmetic.multiply m.registers.a (f.extract (m.content l)))).proceed
  | .div => m.atLocation here a fun l => (m.divide (f.extract (m.content l))).proceed
  | .special =>
    match i.field.val with
    | 0 =>
      (m.setRegisters (m.registers.setA (Arithmetic.number m.registers.a m.registers.x))).proceed
    | 1 => (m.setPair (Arithmetic.characters m.registers.a m.registers.x)).proceed
    | _ => (m, .ok .halt)
  | .shift => m.shift here a i.field
  | .move => m.moveWords here a 0 i.field
  | .load r =>
    m.atLocation here a fun l => (m.setRegister here r (f.extract (m.content l))).proceed
  | .loadNegative r =>
    m.atLocation here a fun l => (m.setRegister here r (f.extract (m.content l)).negated).proceed
  | .store r =>
    m.atLocation here a fun l =>
      (m.write l (f.insert (m.content l) (m.registers.get r))).proceed
  | .storeJ =>
    m.atLocation here a fun l => (m.write l (f.insert (m.content l) m.registers.jWord)).proceed
  | .storeZero =>
    m.atLocation here a fun l => (m.write l (f.insert (m.content l) Word.zero)).proceed
  | .jumpBusy => m.jumpOnUnit here a i.field true
  | .control => m.controlUnit here a i.field
  | .input => m.readUnit here a i.field
  | .output => m.writeUnit here a i.field
  | .jumpReady => m.jumpOnUnit here a i.field false
  | .jump => m.jump here a i.field
  | .registerJump r => m.jumpIf here (registerCondition (m.registers.get r).value i.field) a
  | .addressTransfer r => (m.transferAddress here r a i.field).proceed
  | .compare r => m.atLocation here a fun l => (m.compareWith r f (m.content l)).proceed

def execute (m : Machine σ) (here : Nat) (i : Instruction) : Outcome σ :=
  if i.operation.admits i.field then m.perform here i
  else m.fail (.field here i.field i.operation)

end Machine

end MixComputer
