import MixComputer.Proofs.Address
import MixComputer.Proofs.Machine.Invariant

/-!
Instructions with an operand. An operation on a field of a location looks at its field, then at its
location, and then does its work, so a step with a good field and a location in memory does nothing
but that. An operation on an effective address finds it without looking anywhere else: it is the sum
of the address of the instruction and an index, and no such sum is too large.
-/
namespace MixComputer.Machine

variable {σ : Type} {m : Machine σ} {operation : Operation} {f : Field} {l : Nat} {i : Instruction}
  {r : Register} {variant : Nat}

section Addresses

def exactAddress (m : Machine σ) (i : Instruction) : Int :=
  i.address.value + m.registers.indexValue i.index

/-- An instruction from memory has an address of two bytes. -/
theorem natAbs_exactAddress_lt (hfetch : m.fetch = .ok i) :
    (m.exactAddress i).natAbs < 0x80000000 := by
  obtain ⟨-, w, -, hdecode⟩ := fetch_eq_ok hfetch
  have haddress := Instruction.address_lt_of_decode hdecode
  have hvalue := i.address.natAbs_value
  have hindex := m.registers.natAbs_indexValue_lt i.index
  rw [weight_two] at haddress
  unfold exactAddress
  omega

theorem value_effectiveAddress (hfetch : m.fetch = .ok i) :
    (m.effectiveAddress i).value = m.exactAddress i := by
  have hlt := natAbs_exactAddress_lt hfetch
  apply Address.value_add
  unfold exactAddress at hlt
  omega

theorem natAbs_effectiveAddress_lt (hfetch : m.fetch = .ok i) :
    (m.effectiveAddress i).value.natAbs < 0x80000000 := by
  rw [value_effectiveAddress hfetch]
  exact natAbs_exactAddress_lt hfetch

/-- A sum of zero has the sign that the instruction gives to its address. -/
theorem negative_effectiveAddress (m : Machine σ) (i : Instruction) :
    (m.effectiveAddress i).negative =
      if m.exactAddress i = 0 then i.address.negative else decide (m.exactAddress i < 0) := by
  unfold effectiveAddress Address.add exactAddress
  split <;> rfl

end Addresses

section Step

/-- The end of an instruction that went through. -/
theorem complete_proceed (i : Instruction) (m : Machine σ) :
    complete i m.proceed = (m.spend i).proceed := by
  have hgoes : (m.halted || Flow.proceed == Flow.halt) = m.halted := Bool.or_false m.halted
  simp only [complete, proceed, hgoes]
  rfl

/-- The next instruction is `operation`, with the field `f` and the location `l`. -/
def AppliesAt (m : Machine σ) (operation : Operation) (f : Field) (l : Nat) : Prop :=
  ∃ i : Instruction, m.fetch = .ok i ∧ i.operation = operation ∧ i.spec? = some f ∧
    m.location? (m.effectiveAddress i) = some l

theorem AppliesAt.lt (h : m.AppliesAt operation f l) : l < m.memory.size := by
  obtain ⟨i, -, -, -, hlocation⟩ := h
  exact (location?_eq_some hlocation).1

/-- The next instruction depends on the word at its location, on the index registers and on the size
of memory. -/
theorem AppliesAt.congr {m' : Machine σ} (h : m.AppliesAt operation f l) (hpc : m'.pc = m.pc)
    (hword : m'.memory[m.pc]? = m.memory[m.pc]?) (hsize : m'.memory.size = m.memory.size)
    (hregisters : m'.registers = m.registers) : m'.AppliesAt operation f l := by
  obtain ⟨i, hfetch, hop, hspec, hlocation⟩ := h
  refine ⟨i, ?_, hop, hspec, ?_⟩
  · rw [← hfetch, fetch, fetch, word?, word?, hpc, hword]
  · rw [← hlocation, location?, location?, effectiveAddress, effectiveAddress, hsize, hregisters]

def Transfers (m : Machine σ) (i : Instruction) (r : Register) (variant : Nat) : Prop :=
  m.fetch = .ok i ∧ i.operation = .addressTransfer r ∧ i.field.val = variant

variable [Peripherals σ]

/-- Such a step goes through as far as the work of the operation does. -/
theorem AppliesAt.exists_step (h : m.AppliesAt operation f l) (hbytes : operation.usage = .bytes)
    (next : Field → Nat → Outcome σ)
    (hperform : ∀ i : Instruction, i.operation = operation →
      m.advance.perform m.pc i = m.advance.atLocation m.pc (m.effectiveAddress i) (next i.spec)) :
    ∃ i : Instruction, m.fetch = .ok i ∧ i.operation = operation ∧
      m.step = complete i (next f l) := by
  obtain ⟨i, hfetch, hop, hspec, hlocation⟩ := h
  have hadmits : i.operation.admits i.field = true := by
    have hfound : (Field.ofCode? i.field).isSome = true := Option.isSome_of_eq_some hspec
    simp only [Operation.admits, hop, hbytes, hfound]
  have hfield : i.spec = f := by rw [Instruction.spec, hspec, Option.getD_some]
  have hlocation' : m.advance.location? (m.effectiveAddress i) = some l := hlocation
  refine ⟨i, hfetch, hop, ?_⟩
  rw [step_of_fetch_ok hfetch, execute, if_pos hadmits, hperform i hop,
    atLocation_of_some hlocation', hfield]

/-- A transfer of an address cannot fail. -/
theorem Transfers.step_eq (h : m.Transfers i r variant) (hvariant : variant < 4) :
    m.step = complete i
      (m.advance.transferAddress m.pc r (m.effectiveAddress i) variant).proceed := by
  obtain ⟨hfetch, hop, rfl⟩ := h
  have hadmits : i.operation.admits i.field = true := by
    rw [hop]
    exact decide_eq_true hvariant
  rw [step_of_fetch_ok hfetch, execute, if_pos hadmits, perform, hop]
  rfl

end Step

end MixComputer.Machine
