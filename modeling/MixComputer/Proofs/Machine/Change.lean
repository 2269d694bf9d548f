import MixComputer.Machine.Run
import Mathlib.Logic.Relation

/-!
What instructions are made of. An instruction with an `F` part that its operation admits changes a
machine in small steps, each of which concerns one part of the machine, and it fails for one of
three reasons. What holds of the small steps holds of every instruction: the memory keeps its size,
and all that is recorded is that too much has gone to an index register.
-/
namespace MixComputer

inductive Fault.RaisedAt (here : Nat) : Fault → Prop
  | memoryLocation (location : Int) : RaisedAt here (.memoryLocation here location)
  | negativeShift (amount : Address) : RaisedAt here (.negativeShift here amount)
  | device (unit : Nat) (cause : DeviceError) : RaisedAt here (.device here unit cause)

namespace Machine

variable {σ : Type}

/-- A change of one part of a machine by the instruction at `here`. -/
inductive Change (here : Nat) : Machine σ → Machine σ → Prop
  | registers (m : Machine σ) (registers : Registers) : Change here m (m.setRegisters registers)
  | anomaly (m : Machine σ) (r : Register) (value : Int) :
      Change here m (m.record (.indexAnomaly here r value))
  | word (m : Machine σ) (location : Nat) (w : Word) : Change here m (m.write location w)
  | block (m : Machine σ) (start : Nat) (words : List Word) :
      Change here m { m with memory := m.memory.writeList start words }
  | pc (m : Machine σ) (pc : Nat) : Change here m { m with pc }
  | devices (m : Machine σ) (devices : σ) : Change here m { m with devices }

def Changes (here : Nat) : Machine σ → Machine σ → Prop := Relation.ReflTransGen (Change here)

end Machine

structure Outcome.Arises {σ : Type} (m : Machine σ) (here : Nat) (o : Outcome σ) : Prop where
  changes : m.Changes here o.1
  fault : ∀ fault, o.2 = .error fault → fault.RaisedAt here

namespace Machine

variable {σ : Type} {m m' : Machine σ} {here : Nat} {a : Address}

section Parts

theorem Changes.refl (m : Machine σ) : m.Changes here m := Relation.ReflTransGen.refl

theorem Change.changes (h : m.Change here m') : m.Changes here m' := Relation.ReflTransGen.single h

theorem Changes.trans {m'' : Machine σ} (h : m.Changes here m') (h' : m'.Changes here m'') :
    m.Changes here m'' := Relation.ReflTransGen.trans h h'

theorem arises_ok (h : m.Changes here m') (flow : Flow) : Outcome.Arises m here (m', .ok flow) :=
  ⟨h, fun _ hfault => by cases hfault⟩

theorem arises_fail {fault : Fault} (h : fault.RaisedAt here) :
    Outcome.Arises m here (m.fail fault) := by
  refine ⟨Changes.refl m, fun other hother => ?_⟩
  cases hother
  exact h

/-- What arises after some changes. -/
theorem Changes.arises {o : Outcome σ} (h : m.Changes here m') (ho : Outcome.Arises m' here o) :
    Outcome.Arises m here o := ⟨h.trans ho.changes, ho.fault⟩

theorem arises_atLocation {next : Nat → Outcome σ} (h : ∀ l, Outcome.Arises m here (next l)) :
    Outcome.Arises m here (m.atLocation here a next) := by
  unfold atLocation
  split
  · exact h _
  · exact arises_fail (.memoryLocation a.value)

theorem changes_setRegisters (m : Machine σ) (registers : Registers) :
    m.Changes here (m.setRegisters registers) := (Change.registers m registers).changes

theorem changes_setRegister (m : Machine σ) (r : Register) (w : Word) :
    m.Changes here (m.setRegister here r w) := by
  unfold setRegister
  split
  · exact (Change.anomaly m r w.value).changes.trans (changes_setRegisters _ _)
  · exact changes_setRegisters m _

end Parts

section Arithmetic

theorem changes_divide (m : Machine σ) (v : Word) : m.Changes here (m.divide v) := by
  unfold divide
  split <;> exact changes_setRegisters m _

theorem changes_increase (m : Machine σ) (r : Register) (n : Int) :
    m.Changes here (m.increase here r n) := by
  unfold increase
  split
  · exact changes_setRegister m r _
  · exact changes_setRegisters m _

theorem changes_transferAddress (m : Machine σ) (r : Register) (a : Address) (variant : Nat) :
    m.Changes here (m.transferAddress here r a variant) := by
  unfold transferAddress
  split
  · exact changes_increase m r _
  · exact changes_increase m r _
  · exact changes_setRegister m r _
  · exact changes_setRegister m r _

theorem arises_shift (m : Machine σ) (a : Address) (variant : Nat) :
    Outcome.Arises m here (m.shift here a variant) := by
  unfold shift
  split
  · exact arises_fail (.negativeShift a)
  · exact arises_ok (changes_setRegisters m _) .proceed

theorem arises_moveWords (m : Machine σ) (a : Address) (k count : Nat) :
    Outcome.Arises m here (m.moveWords here a k count) := by
  induction count generalizing m k with
  | zero => exact arises_ok (Changes.refl m) .proceed
  | succ count ih =>
    refine arises_atLocation fun source => arises_atLocation fun target => ?_
    have hword : m.Changes here (m.write target (m.content source)) := (Change.word m _ _).changes
    exact (hword.trans (changes_increase _ 1 1)).arises (ih _ (k + 1))

end Arithmetic

section Jumps

theorem arises_jumpIf (m : Machine σ) (condition : Bool) (a : Address) :
    Outcome.Arises m here (m.jumpIf here condition a) := by
  have hlinked : m.Changes here (m.setRegisters { m.registers with j := m.pc % weight 2 }) :=
    changes_setRegisters m _
  unfold jumpIf
  cases condition with
  | true =>
    exact arises_atLocation fun target => arises_ok (hlinked.trans (Change.pc _ target).changes) _
  | false => exact arises_ok hlinked .proceed

theorem arises_jump (m : Machine σ) (a : Address) (variant : Nat) :
    Outcome.Arises m here (m.jump here a variant) := by
  have hcleared : m.Changes here (m.setRegisters { m.registers with overflow := false }) :=
    changes_setRegisters m _
  unfold jump
  split
  case h_2 => exact arises_atLocation fun target => arises_ok (Change.pc m target).changes _
  case h_3 | h_4 => exact hcleared.arises (arises_jumpIf _ _ a)
  all_goals exact arises_jumpIf m _ a

end Jumps

section Units

theorem arises_finishRequest (m : Machine σ) (unit : Nat) (result : Except DeviceError Unit) :
    Outcome.Arises m here (m.finishRequest here unit result) := by
  cases result with
  | ok done => exact arises_ok (Changes.refl m) .proceed
  | error cause => exact arises_fail (.device unit cause)

theorem arises_atBlock {unit : Nat} {next : Nat → Nat → Outcome σ}
    (h : ∀ start size, Outcome.Arises m here (next start size)) :
    Outcome.Arises m here (m.atBlock here a unit next) := by
  refine arises_atLocation fun start => ?_
  simp only
  split
  · exact h start _
  · exact arises_fail (.memoryLocation _)

variable [Peripherals σ]

theorem arises_jumpOnUnit (m : Machine σ) (a : Address) (unit : Nat) (busy : Bool) :
    Outcome.Arises m here (m.jumpOnUnit here a unit busy) :=
  (Change.devices m _).changes.arises (arises_jumpIf _ _ a)

theorem arises_controlUnit (m : Machine σ) (a : Address) (unit : Nat) :
    Outcome.Arises m here (m.controlUnit here a unit) :=
  (Change.devices m _).changes.arises (arises_finishRequest _ unit _)

theorem arises_readUnit (m : Machine σ) (a : Address) (unit : Nat) :
    Outcome.Arises m here (m.readUnit here a unit) := by
  refine arises_atBlock fun start size => ?_
  have hblock (words : List Word) (devices : σ) :
      m.Changes here { m with memory := m.memory.writeList start words, devices } :=
    (Change.block m start words).changes.trans (Change.devices _ devices).changes
  exact (hblock _ _).arises (arises_finishRequest _ unit _)

theorem arises_writeUnit (m : Machine σ) (a : Address) (unit : Nat) :
    Outcome.Arises m here (m.writeUnit here a unit) :=
  arises_atBlock fun _ _ => (Change.devices m _).changes.arises (arises_finishRequest _ unit _)

/-- Every operation changes the machine in small steps, and fails for one of the reasons. -/
theorem arises_perform (m : Machine σ) (here : Nat) (i : Instruction) :
    Outcome.Arises m here (m.perform here i) := by
  have hregisters (registers : Registers) (flow : Flow) :
      Outcome.Arises m here (m.setRegisters registers, .ok flow) :=
    arises_ok (changes_setRegisters m registers) flow
  unfold perform
  cases i.operation with
  | nop => exact arises_ok (Changes.refl m) .proceed
  | add | sub | mul => exact arises_atLocation fun _ => hregisters _ .proceed
  | compare r => exact arises_atLocation fun _ => hregisters _ .proceed
  | div => exact arises_atLocation fun _ => arises_ok (changes_divide m _) .proceed
  | special =>
    simp only
    split
    · exact hregisters _ .proceed
    · exact hregisters _ .proceed
    · exact arises_ok (Changes.refl m) .halt
  | shift => exact arises_shift m _ _
  | move => exact arises_moveWords m _ 0 _
  | load r | loadNegative r =>
    exact arises_atLocation fun _ => arises_ok (changes_setRegister m r _) .proceed
  | store r | storeJ | storeZero =>
    exact arises_atLocation fun l => arises_ok (Change.word m l _).changes .proceed
  | jumpBusy | jumpReady => exact arises_jumpOnUnit m _ _ _
  | control => exact arises_controlUnit m _ _
  | input => exact arises_readUnit m _ _
  | output => exact arises_writeUnit m _ _
  | jump => exact arises_jump m _ _
  | registerJump r => exact arises_jumpIf m _ _
  | addressTransfer r => exact arises_ok (changes_transferAddress m r _ _) .proceed

end Units

section Kept

theorem Change.size_memory (h : m.Change here m') : m'.memory.size = m.memory.size := by
  cases h with
  | registers | anomaly | pc | devices => rfl
  | word l w => exact Memory.size_write m.memory l w
  | block start words => exact Memory.size_writeList m.memory start words

theorem Changes.size_memory (h : m.Changes here m') : m'.memory.size = m.memory.size := by
  induction h with
  | refl => rfl
  | tail _ hlast ih => exact hlast.size_memory.trans ih

/-- The second machine has recorded all that the first has, and after it no field faults. -/
def Gains (m m' : Machine σ) : Prop :=
  ∃ gained : Array Fault, m'.anomalies = m.anomalies ++ gained ∧
    ∀ fault ∈ gained, fault.isFieldFault = false

theorem Gains.of_eq (h : m'.anomalies = m.anomalies) : m.Gains m' :=
  ⟨#[], h.trans Array.append_empty.symm, fun _ hmem => absurd hmem (Array.not_mem_empty _)⟩

theorem Gains.trans {m'' : Machine σ} (h : m.Gains m') (h' : m'.Gains m'') : m.Gains m'' := by
  obtain ⟨gained, heq, hnone⟩ := h
  obtain ⟨gained', heq', hnone'⟩ := h'
  refine ⟨gained ++ gained', ?_, fun fault hmem => ?_⟩
  · rw [heq', heq, Array.append_assoc]
  · exact (Array.mem_append.mp hmem).elim (hnone fault) (hnone' fault)

theorem Change.gains (h : m.Change here m') : m.Gains m' := by
  cases h with
  | registers | word | block | pc | devices => exact Gains.of_eq rfl
  | anomaly r value =>
    refine ⟨#[.indexAnomaly here r value], Array.push_eq_append, fun fault hmem => ?_⟩
    rw [Array.mem_singleton.mp hmem]
    rfl

theorem Changes.gains (h : m.Changes here m') : m.Gains m' := by
  induction h with
  | refl => exact Gains.of_eq rfl
  | tail _ hlast ih => exact ih.trans hlast.gains

end Kept

section Step

theorem size_memory_complete (i : Instruction) (o : Outcome σ) :
    (complete i o).1.memory.size = o.1.memory.size := by
  obtain ⟨m, result⟩ := o
  cases result with
  | ok flow => rfl
  | error fault =>
    simp only [complete]
    split <;> rfl

variable [Peripherals σ]

theorem changes_execute (m : Machine σ) (here : Nat) (i : Instruction) :
    m.Changes here (m.execute here i).1 := by
  unfold execute
  split
  · exact (arises_perform m here i).changes
  · exact Changes.refl m

/-- No step changes the size of memory. -/
theorem size_memory_step (m : Machine σ) : m.step.1.memory.size = m.memory.size := by
  unfold step
  split
  · rfl
  · rename_i i _
    exact (size_memory_complete i _).trans (changes_execute m.advance m.pc i).size_memory

end Step

end Machine

end MixComputer
