import MixComputer.Proofs.Machine.Invariant

/-!
Jumps that fail. A jump looks for its target before it changes anything else, so a jump without a
target leaves the machine as it was, but for the location and the count of steps. The exception is
the jump on overflow: it has cleared the toggle by the time it looks for its target.
-/
namespace MixComputer

/-- The operations with the codes 34, 38, 39 and 40 to 47. -/
theorem Operation.jump_cases {op : Operation}
    (h : op.code = 34 ∨ 38 ≤ op.code ∧ op.code ≤ 47) :
    op = jumpBusy ∨ op = jumpReady ∨ op = jump ∨ ∃ r, op = registerJump r := by
  cases op
  case jumpBusy => exact .inl rfl
  case jumpReady => exact .inr (.inl rfl)
  case jump => exact .inr (.inr (.inl rfl))
  case registerJump r => exact .inr (.inr (.inr ⟨r, rfl⟩))
  all_goals
    simp only [code] at h
    omega

def Instruction.isOverflowJump (i : Instruction) : Bool :=
  i.operation == .jump && i.field.val == 2

namespace Machine

variable {σ : Type} {m m' : Machine σ} {here : Nat} {a : Address} {fault : Fault}

/-- What goes on without a fault once there is a location changes nothing where there is none. -/
theorem atLocation_eq_error {next : Nat → Outcome σ} (hnext : ∀ l, ∃ flow, (next l).2 = .ok flow)
    (h : m.atLocation here a next = (m', .error fault)) : m' = m := by
  unfold atLocation at h
  split at h
  · rename_i l _
    obtain ⟨flow, hflow⟩ := hnext l
    rw [h] at hflow
    cases hflow
  · exact (Prod.mk.inj h).1.symm

theorem jumpIf_eq_error {condition : Bool} (h : m.jumpIf here condition a = (m', .error fault)) :
    condition = true ∧ m' = m := by
  unfold jumpIf at h
  cases condition with
  | true => exact ⟨rfl, atLocation_eq_error (fun _ => ⟨_, rfl⟩) h⟩
  | false => cases h

def keptOverflow (m : Machine σ) (variant : Nat) : Bool := m.registers.overflow && variant != 2

theorem jump_eq_error {variant : Nat} (h : m.jump here a variant = (m', .error fault)) :
    m' = m.setRegisters { m.registers with overflow := m.keptOverflow variant } := by
  have hsame (hvariant : (variant != 2) = true) (heq : m' = m) :
      m' = m.setRegisters { m.registers with overflow := m.keptOverflow variant } := by
    rw [heq, keptOverflow, hvariant, Bool.and_true]
    rfl
  unfold jump at h
  split at h
  · exact hsame rfl (jumpIf_eq_error h).2
  · exact hsame rfl (atLocation_eq_error (fun _ => ⟨_, rfl⟩) h)
  · rw [(jumpIf_eq_error h).2, keptOverflow, bne_self_eq_false, Bool.and_false]
  · -- The toggle was off already, or there would have been no jump.
    obtain ⟨hoff, heq⟩ := jumpIf_eq_error h
    have hoverflow : m.registers.overflow = false := by simpa using hoff
    rw [heq, keptOverflow, hoverflow, Bool.false_and]
  · exact hsame rfl (jumpIf_eq_error h).2
  · exact hsame rfl (jumpIf_eq_error h).2
  · exact hsame rfl (jumpIf_eq_error h).2
  · exact hsame rfl (jumpIf_eq_error h).2
  · exact hsame rfl (jumpIf_eq_error h).2
  · rename_i hne _ _ _ _ _ _
    exact hsame (by simpa using hne) (jumpIf_eq_error h).2

/-- A step fails only by a fault of its instruction. -/
theorem complete_eq_error {i : Instruction} {o : Outcome σ}
    (h : complete i o = (m', .error fault)) : o = (m', .error fault) := by
  obtain ⟨m, result⟩ := o
  cases result with
  | ok flow => cases h
  | error cause =>
    simp only [complete] at h
    split at h
    · cases h
    · exact h

section Step

variable [Peripherals σ]

theorem jumpOnUnit_eq_error {unit : Nat} {busy : Bool}
    (h : m.jumpOnUnit here a unit busy = (m', .error fault)) :
    m' = { m with devices := m'.devices } := by
  unfold jumpOnUnit at h
  rw [(jumpIf_eq_error h).2]

/-- What a jump leaves when it fails. -/
theorem execute_jump_eq_error {i : Instruction}
    (hcode : i.operation.code = 34 ∨ 38 ≤ i.operation.code ∧ i.operation.code ≤ 47)
    (h : m.execute here i = (m', .error fault)) :
    m' = { m with
      devices := m'.devices
      registers := { m.registers with
        overflow := m.registers.overflow && !i.isOverflowJump } } := by
  obtain ⟨operation, index, field, address⟩ := i
  have hsame (hnot : Instruction.isOverflowJump ⟨operation, index, field, address⟩ = false)
      (heq : m' = { m with devices := m'.devices }) :
      m' = { m with
        devices := m'.devices
        registers := { m.registers with
          overflow := m.registers.overflow &&
            !Instruction.isOverflowJump ⟨operation, index, field, address⟩ } } := by
    rw [hnot, Bool.not_false, Bool.and_true]
    exact heq
  unfold execute at h
  by_cases hadmits : operation.admits field = true
  · rw [if_pos hadmits] at h
    rcases Operation.jump_cases hcode with hop | hop | hop | ⟨r, hop⟩
    · simp only at hop
      subst hop
      exact hsame rfl (jumpOnUnit_eq_error h)
    · simp only at hop
      subst hop
      exact hsame rfl (jumpOnUnit_eq_error h)
    · simp only at hop
      subst hop
      have heq : m' = m.setRegisters { m.registers with overflow := m.keptOverflow field.val } :=
        jump_eq_error h
      have hvariant : (field.val != 2) =
          !Instruction.isOverflowJump ⟨.jump, index, field, address⟩ := by
        simp only [Instruction.isOverflowJump, beq_self_eq_true, Bool.true_and, bne]
      rw [heq, keptOverflow, hvariant]
      rfl
    · simp only at hop
      subst hop
      refine hsame rfl ?_
      rw [(jumpIf_eq_error h).2]
  · rw [if_neg hadmits] at h
    have heq : m' = m := (Prod.mk.inj h).1.symm
    refine hsame (Bool.eq_false_iff.mpr ?_) (by rw [heq])
    intro hoverflow
    obtain ⟨hop, hfield⟩ := Bool.and_eq_true_iff.mp hoverflow
    have hop' : operation = .jump := eq_of_beq hop
    have hfield' : field = Byte.ofNat 2 := Fin.ext (eq_of_beq hfield)
    rw [hop', hfield'] at hadmits
    exact hadmits rfl

/-- A step with a jump that fails changes nothing but the location and the count of steps, and
whatever a device does when it is asked; and it leaves the registers as they were, unless it is a
jump on overflow that finds the toggle on. -/
theorem step_of_jump_error {i : Instruction} (hfetch : m.fetch = .ok i)
    (hcode : i.operation.code = 34 ∨ 38 ≤ i.operation.code ∧ i.operation.code ≤ 47)
    (hstep : m.step = (m', .error fault)) :
    m' = { m with
        pc := m.pc + 1
        steps := m.steps + 1
        devices := m'.devices
        registers := { m.registers with
          overflow := m.registers.overflow && !i.isOverflowJump } } ∧
      (m'.registers = m.registers ↔
        ¬ (i.isOverflowJump = true ∧ m.registers.overflow = true)) := by
  unfold step at hstep
  simp only [hfetch] at hstep
  have hexecute := execute_jump_eq_error hcode (complete_eq_error hstep)
  refine ⟨hexecute, ?_⟩
  have hregisters : m'.registers = { m.registers with
      overflow := m.registers.overflow && !i.isOverflowJump } := by
    rw [hexecute]
    rfl
  rw [hregisters]
  constructor
  · rintro heq ⟨hjump, hon⟩
    have hoff : (m.registers.overflow && !i.isOverflowJump) = m.registers.overflow :=
      congrArg Registers.overflow heq
    rw [hjump, hon] at hoff
    cases hoff
  · intro hnot
    have hkept : (m.registers.overflow && !i.isOverflowJump) = m.registers.overflow := by
      cases hjump : i.isOverflowJump with
      | false => rw [Bool.not_false, Bool.and_true]
      | true =>
        have hoff : m.registers.overflow = false :=
          Bool.eq_false_iff.mpr fun hon => hnot ⟨hjump, hon⟩
        rw [hoff, Bool.false_and]
    rw [hkept]

end Step

def beforeOverflowJump : Machine Unattached :=
  (ofImage ⟨2, .halt, none⟩ Unattached.mk [Word.wrap false 1835175]).setRegisters
    { Registers.initial with overflow := true }

theorem fetch_beforeOverflowJump :
    beforeOverflowJump.fetch = .ok ⟨.jump, 0, 2, ⟨false, 7⟩⟩ := rfl

theorem step_beforeOverflowJump :
    beforeOverflowJump.step = (beforeOverflowJump.step.1, .error (.memoryLocation 0 7)) :=
  Prod.ext rfl rfl

theorem step_of_jump_error_cleared :
    beforeOverflowJump.fetch = .ok ⟨.jump, 0, 2, ⟨false, 7⟩⟩ ∧
      beforeOverflowJump.step = (beforeOverflowJump.step.1, .error (.memoryLocation 0 7)) ∧
      beforeOverflowJump.step.1.registers = { beforeOverflowJump.registers with
        overflow := false } := by
  have hjump := step_of_jump_error fetch_beforeOverflowJump (by simp [Operation.code])
    step_beforeOverflowJump
  refine ⟨fetch_beforeOverflowJump, step_beforeOverflowJump, ?_⟩
  exact congrArg Machine.registers hjump.1

/-- So not every jump that fails leaves the toggle as it was. -/
theorem not_jump_error_keeps_overflow :
    ¬ ∀ (m m' : Machine Unattached) (i : Instruction) (fault : Fault), m.fetch = .ok i →
      (i.operation.code = 34 ∨ 38 ≤ i.operation.code ∧ i.operation.code ≤ 47) →
      m.step = (m', .error fault) → m'.registers.overflow = m.registers.overflow := by
  intro h
  have hkept := h _ _ _ _ fetch_beforeOverflowJump (by simp [Operation.code])
    step_beforeOverflowJump
  revert hkept
  decide +kernel

end Machine

end MixComputer
