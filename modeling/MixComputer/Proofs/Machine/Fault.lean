import MixComputer.Peripherals.Bench
import MixComputer.Proofs.Machine.Change
import MixComputer.Proofs.Machine.Jump
import MixComputer.Proofs.Memory

/-!
Instructions that fail. Whatever goes wrong, the fault names the location of the instruction. An
instruction that is neither a jump nor `MOVE` looks for all it needs before it changes anything,
so its fault leaves the machine as it was; only a device that fails may have changed itself, and
the block that it was to read.
-/
namespace MixComputer

/-- The location of the instruction that caused the fault. The step limit has no such cause. -/
def Fault.pc? : Fault → Option Nat
  | .illegalInstruction pc _ => some pc
  | .field pc _ _ => some pc
  | .memoryLocation pc _ => some pc
  | .negativeShift pc _ => some pc
  | .device pc _ _ => some pc
  | .indexAnomaly pc _ _ => some pc
  | .stepLimit _ => none

theorem Fault.RaisedAt.pc?_eq {here : Nat} {fault : Fault} (h : fault.RaisedAt here) :
    fault.pc? = some here := by
  cases h <;> rfl

/-- A unit that exists has blocks of some size. -/
theorem blockSize?_eq_some {unit : Nat} (h : unit ≤ lastUnit) :
    ∃ size, blockSize? unit = some size := by
  unfold lastUnit at h
  unfold blockSize?
  split
  · exact ⟨100, rfl⟩
  · split
    · exact ⟨16, rfl⟩
    · split
      · exact ⟨24, rfl⟩
      · exact ⟨14, rfl⟩

/-- Jumps and `MOVE` may have changed the machine by the time they fail; no other operation has. -/
def Operation.isCautious : Operation → Bool
  | move | jumpBusy | jumpReady | jump | registerJump _ => false
  | _ => true

/-- The operations with other codes than 7, 34, 38, 39 and 40 to 47. -/
theorem Operation.isCautious_of_code {op : Operation}
    (h : ¬ (op.code = 7 ∨ op.code = 34 ∨ 38 ≤ op.code ∧ op.code ≤ 47)) :
    op.isCautious = true := by
  cases op with
  | move | jumpBusy | jumpReady | jump => exact absurd (by decide) h
  | registerJump r =>
    simp only [code] at h
    omega
  | _ => rfl

def Outcome.FaultsAt {σ : Type} (o : Outcome σ) (here : Nat) : Prop :=
  ∀ fault, o.2 = .error fault → fault.pc? = some here

namespace Machine

variable {σ : Type} {m m' : Machine σ} {here : Nat} {a : Address} {fault : Fault}

section Location

theorem pc?_of_fetch_error (h : m.fetch = .error fault) : fault.pc? = some m.pc := by
  unfold fetch at h
  split at h
  · cases h
    rfl
  · split at h
    · cases h
    · cases h
      rfl

variable [Peripherals σ]

theorem faultsAt_execute (m : Machine σ) (here : Nat) (i : Instruction) :
    (m.execute here i).FaultsAt here := by
  intro fault hfault
  unfold execute at hfault
  split at hfault
  · exact ((arises_perform m here i).fault fault hfault).pc?_eq
  · cases hfault
    rfl

/-- The fault of a step is at the location where the step began. -/
theorem pc?_of_step_error (h : m.step = (m', .error fault)) : fault.pc? = some m.pc := by
  unfold step at h
  split at h
  · rename_i cause hfetch
    cases h
    exact pc?_of_fetch_error hfetch
  · exact faultsAt_execute _ m.pc _ fault (congrArg Prod.snd (complete_eq_error h))

end Location

section Intact

/-- What an instruction leaves when it fails: all as it was, or what a device has changed that did
not do what it was asked to do. -/
inductive Leaves (m : Machine σ) (here : Nat) (i : Instruction) : Machine σ → Fault → Prop
  | intact (fault : Fault) : Leaves m here i m fault
  | requested (devices : σ) (cause : DeviceError) :
      Leaves m here i { m with devices } (.device here i.field cause)
  | read {start size : Nat} (hop : i.operation = .input)
      (hstart : m.location? (m.effectiveAddress i) = some start)
      (hsize : blockSize? i.field = some size) (hfits : start + size ≤ m.memory.size)
      (block : Vector Word size) (devices : σ) (cause : DeviceError) :
      Leaves m here i { m with memory := m.memory.writeList start block.toList, devices }
        (.device here i.field cause)

/-- An instruction that goes on without a fault once it has found its location. -/
theorem Leaves.of_atLocation {i : Instruction} {next : Nat → Outcome σ}
    (hnext : ∀ l, ∃ flow, (next l).2 = .ok flow)
    (h : m.atLocation here a next = (m', .error fault)) : m.Leaves here i m' fault := by
  rw [atLocation_eq_error hnext h]
  exact .intact fault

theorem shift_eq_error {variant : Nat} (h : m.shift here a variant = (m', .error fault)) :
    m' = m := by
  unfold shift at h
  split at h
  · exact (Prod.mk.inj h).1.symm
  · cases h

theorem finishRequest_eq_error {unit : Nat} {result : Except DeviceError Unit}
    (h : m.finishRequest here unit result = (m', .error fault)) :
    m' = m ∧ ∃ cause, fault = .device here unit cause := by
  cases result with
  | ok done => cases h
  | error cause =>
    cases h
    exact ⟨rfl, cause, rfl⟩

/-- Without a whole block in memory there is no request. -/
theorem atBlock_eq_error {unit : Nat} {next : Nat → Nat → Outcome σ} (hunit : unit ≤ lastUnit)
    (h : m.atBlock here a unit next = (m', .error fault)) :
    m' = m ∨ ∃ start size, m.location? a = some start ∧ blockSize? unit = some size ∧
      start + size ≤ m.memory.size ∧ next start size = (m', .error fault) := by
  obtain ⟨size, hsize⟩ := blockSize?_eq_some hunit
  unfold atBlock atLocation at h
  split at h
  · rename_i start hstart
    simp only [hsize, Option.getD_some] at h
    split at h
    · rename_i hfits
      exact .inr ⟨start, size, hstart, hsize, hfits, h⟩
    · exact .inl (Prod.mk.inj h).1.symm
  · exact .inl (Prod.mk.inj h).1.symm

variable [Peripherals σ]

theorem Leaves.of_controlUnit {i : Instruction}
    (h : m.controlUnit here a i.field = (m', .error fault)) : m.Leaves here i m' fault := by
  unfold controlUnit at h
  obtain ⟨rfl, cause, rfl⟩ := finishRequest_eq_error h
  exact .requested _ cause

theorem Leaves.of_writeUnit {i : Instruction} (hunit : i.field.val ≤ lastUnit)
    (h : m.writeUnit here a i.field = (m', .error fault)) : m.Leaves here i m' fault := by
  unfold writeUnit at h
  rcases atBlock_eq_error hunit h with rfl | ⟨start, size, -, -, -, h⟩
  · exact .intact fault
  · obtain ⟨rfl, cause, rfl⟩ := finishRequest_eq_error h
    exact .requested _ cause

theorem Leaves.of_readUnit {i : Instruction} (hop : i.operation = .input)
    (hunit : i.field.val ≤ lastUnit)
    (h : m.readUnit here (m.effectiveAddress i) i.field = (m', .error fault)) :
    m.Leaves here i m' fault := by
  unfold readUnit at h
  rcases atBlock_eq_error hunit h with rfl | ⟨start, size, hstart, hsize, hfits, h⟩
  · exact .intact fault
  · obtain ⟨rfl, cause, rfl⟩ := finishRequest_eq_error h
    exact .read hop hstart hsize hfits _ _ cause

/-- Every operation other than the jumps and `MOVE` is done in one go or not at all. -/
theorem Leaves.of_perform {i : Instruction} (hcautious : i.operation.isCautious = true)
    (hadmits : i.operation.admits i.field = true)
    (h : m.perform here i = (m', .error fault)) : m.Leaves here i m' fault := by
  obtain ⟨operation, index, field, address⟩ := i
  cases operation with
  | nop | addressTransfer r => cases h
  | special =>
    unfold perform at h
    simp only at h
    split at h <;> cases h
  | add | sub | mul | div | storeJ | storeZero => exact .of_atLocation (fun _ => ⟨_, rfl⟩) h
  | load r | loadNegative r | store r | compare r => exact .of_atLocation (fun _ => ⟨_, rfl⟩) h
  | shift =>
    rw [shift_eq_error h]
    exact .intact fault
  | control => exact .of_controlUnit h
  | input => exact .of_readUnit rfl (of_decide_eq_true hadmits) h
  | output => exact .of_writeUnit (of_decide_eq_true hadmits) h
  | move | jumpBusy | jumpReady | jump | registerJump r => cases hcautious

theorem Leaves.of_execute {i : Instruction} (hcautious : i.operation.isCautious = true)
    (h : m.execute here i = (m', .error fault)) : m.Leaves here i m' fault := by
  unfold execute at h
  by_cases hadmits : i.operation.admits i.field = true
  · rw [if_pos hadmits] at h
    exact .of_perform hcautious hadmits h
  · rw [if_neg hadmits] at h
    cases h
    exact .intact _

end Intact

/-- An instruction that is found at a location has the code of the word there. -/
theorem code_of_fetch {i : Instruction} (h : m.fetch = .ok i) :
    ∃ w, m.word? m.pc = some w ∧ i.operation.code = (w.byte 5).val := by
  obtain ⟨-, w, hword, hdecode⟩ := fetch_eq_ok h
  obtain ⟨hop, -⟩ := (Instruction.decode_eq_ok_iff w i).mp hdecode
  obtain ⟨op, hop', hcode⟩ := Operation.exists_ofCode? (w.byte 5)
  have heq : op = i.operation := Option.some.inj (hop'.symm.trans hop)
  exact ⟨w, hword, heq ▸ hcode⟩

/-- A step that fails with an instruction other than a jump or `MOVE` is as good as not made. If
there is no instruction, nothing has changed. If there is one, the machine has gone on to the next
location and counted the step, and only a device that failed may have done more: it may have
changed itself and, if it was to read, words of its own block. -/
theorem step_of_cautious_error [Peripherals σ]
    (hcode : ∀ w, m.word? m.pc = some w →
      ¬ ((w.byte 5).val = 7 ∨ (w.byte 5).val = 34 ∨ 38 ≤ (w.byte 5).val ∧ (w.byte 5).val ≤ 47))
    (hstep : m.step = (m', .error fault)) :
    fault.pc? = some m.pc ∧
      (m.fetch = .error fault ∧ m' = m ∨
        ∃ i, m.fetch = .ok i ∧
          m' = { m with
            pc := m.pc + 1
            steps := m.steps + 1
            memory := m'.memory
            devices := m'.devices } ∧
          (m'.devices = m.devices ∨ ∃ cause, fault = .device m.pc i.field cause) ∧
          (m'.memory = m.memory ∨
            ∃ cause start size, i.operation = .input ∧ fault = .device m.pc i.field cause ∧
              m.location? (m.effectiveAddress i) = some start ∧
              blockSize? i.field = some size ∧ start + size ≤ m.memory.size ∧
              m'.memory.size = m.memory.size ∧
              ∀ l, ¬ (start ≤ l ∧ l < start + size) → m'.memory[l]? = m.memory[l]?)) := by
  refine ⟨pc?_of_step_error hstep, ?_⟩
  cases hfetch : m.fetch with
  | error cause =>
    rw [step_of_fetch_error hfetch] at hstep
    cases hstep
    exact .inl ⟨rfl, rfl⟩
  | ok i =>
    obtain ⟨w, hword, hop⟩ := code_of_fetch hfetch
    have hcautious : i.operation.isCautious = true :=
      Operation.isCautious_of_code (hop ▸ hcode w hword)
    unfold step at hstep
    simp only [hfetch] at hstep
    refine .inr ⟨i, rfl, ?_⟩
    cases Leaves.of_execute hcautious (complete_eq_error hstep) with
    | intact => exact ⟨rfl, .inl rfl, .inl rfl⟩
    | requested devices cause => exact ⟨rfl, .inr ⟨cause, rfl⟩, .inl rfl⟩
    | @read start size hinput hstart hsize hfits block devices cause =>
      refine ⟨rfl, .inr ⟨cause, rfl⟩, .inr ?_⟩
      refine ⟨cause, start, size, hinput, rfl, hstart, hsize, hfits, ?_, ?_⟩
      · exact Memory.size_writeList _ _ _
      · intro l hl
        refine Memory.getElem?_writeList_outside _ _ ?_
        rwa [Vector.length_toList]

def beforeFailedRead : Machine Bench :=
  ofImage ⟨16, .halt, none⟩ ⟨[], [(19, [Word.wrap false 5])], [(19, "jam")], []⟩
    [Word.wrap false 263396]

theorem step_beforeFailedRead :
    beforeFailedRead.step =
      (beforeFailedRead.step.1, .error (.device 0 19 (.failed "jam"))) := Prod.ext rfl rfl

theorem step_of_cautious_error_read :
    (∀ w, beforeFailedRead.word? beforeFailedRead.pc = some w →
      ¬ ((w.byte 5).val = 7 ∨ (w.byte 5).val = 34 ∨
        38 ≤ (w.byte 5).val ∧ (w.byte 5).val ≤ 47)) ∧
      beforeFailedRead.step =
        (beforeFailedRead.step.1, .error (.device 0 19 (.failed "jam"))) ∧
      beforeFailedRead.step.1.registers = beforeFailedRead.registers ∧
      beforeFailedRead.step.1.clock = 0 ∧
      beforeFailedRead.step.1.memory[15]? = some Word.zero ∧
      beforeFailedRead.step.1.memory[1]? = some (Word.wrap false 5) := by
  have hcode : ∀ w, beforeFailedRead.word? beforeFailedRead.pc = some w →
      ¬ ((w.byte 5).val = 7 ∨ (w.byte 5).val = 34 ∨
        38 ≤ (w.byte 5).val ∧ (w.byte 5).val ≤ 47) := by
    intro w hw
    have heq : w = Word.wrap false 263396 := (Option.some.inj hw).symm
    subst heq
    decide
  obtain ⟨-, ⟨hfetch, -⟩ | ⟨i, -, hafter, -, -⟩⟩ :=
    step_of_cautious_error hcode step_beforeFailedRead
  · cases hfetch
  · have hregisters := congrArg Machine.registers hafter
    have hclock := congrArg Machine.clock hafter
    exact ⟨hcode, step_beforeFailedRead, hregisters, hclock, by decide +kernel, by decide +kernel⟩

end Machine

end MixComputer
