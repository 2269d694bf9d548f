import MixComputer.Proofs.Address
import MixComputer.Proofs.Instruction
import MixComputer.Proofs.Machine.Frame
import MixComputer.Proofs.Memory

/-!
Subroutines. A jump leaves in rJ where it came from, a subroutine begins by storing rJ into the
address of the jump at its end, and so that jump leads back. What is stored is an instruction that
is decoded only when it is executed, after any number of other steps.
-/
namespace MixComputer

def Registers.allowsJump (s : Registers) (variant : Nat) : Bool :=
  match variant with
  | 0 | 1 => true
  | 2 => s.overflow
  | 3 => !s.overflow
  | 4 => s.comparison == .lt
  | 5 => s.comparison == .eq
  | 6 => s.comparison == .gt
  | 7 => s.comparison != .lt
  | 8 => s.comparison != .eq
  | _ => s.comparison != .gt

namespace Machine

variable {σ : Type} {m m' : Machine σ} {i : Instruction} {a : Address} {here l : Nat}

def Holds (m : Machine σ) (l : Nat) (i : Instruction) : Prop :=
  ∃ w, m.word? l = some w ∧ Instruction.decode w = .ok i

theorem Holds.fetch (h : m.Holds m.pc i) : m.fetch = .ok i := by
  obtain ⟨w, hword, hdecode⟩ := h
  exact fetch_of_word hword hdecode

theorem Holds.congr (h : m.Holds l i) (hmemory : m'.memory[l]? = m.memory[l]?) : m'.Holds l i := by
  obtain ⟨w, hword, hdecode⟩ := h
  exact ⟨w, hmemory.trans hword, hdecode⟩

/-- Every jump but the one that leaves rJ alone is a jump under a condition. It may have cleared
the overflow toggle. -/
theorem jump_eq_jumpIf (m : Machine σ) (here : Nat) (a : Address) {variant : Nat}
    (hvariant : variant ≠ 1) : ∃ overflow, m.jump here a variant =
      (m.setRegisters { m.registers with overflow }).jumpIf here
        (m.registers.allowsJump variant) a := by
  match variant with
  | 1 => exact absurd rfl hvariant
  | 2 | 3 => exact ⟨false, rfl⟩
  | 0 | 4 | 5 | 6 | 7 | 8 | _ + 9 => exact ⟨m.registers.overflow, rfl⟩

structure Jumped (m : Machine σ) (target : Nat) (m' : Machine σ) : Prop where
  pc : m'.pc = target
  j : m'.registers.j = (m.pc + 1) % weight 2
  general : m'.registers.general = m.registers.general
  memory : m'.memory = m.memory

/-- rJ as it is stored: in a memory of this size every location fits. -/
theorem Jumped.jWord {target : Nat} (h : m.Jumped target m') (hsize : m.memory.size ≤ 4096)
    (hnext : m.pc + 1 < m.memory.size) : m'.registers.jWord = Word.wrap false (m.pc + 1) := by
  have hlt : m.pc + 1 < weight 2 := by
    rw [weight_two]
    omega
  rw [Registers.jWord, h.j, Nat.mod_mod, Nat.mod_eq_of_lt hlt]

/-- The index registers are as before the jump. -/
theorem Jumped.location?_effectiveAddress {target : Nat} (h : m.Jumped target m')
    (i : Instruction) :
    m'.location? (m'.effectiveAddress i) = m.location? (m.effectiveAddress i) := by
  have hindex : m'.registers.indexValue i.index = m.registers.indexValue i.index := by
    simp only [Registers.indexValue, Registers.get, h.general]
  rw [location?, location?, effectiveAddress, effectiveAddress, hindex, h.memory]

/-- The jump at the end of a subroutine, with the address that has been stored. -/
def backTo (back : Instruction) (l : Nat) : Instruction := { back with address := ⟨false, l⟩ }

theorem holds_backTo {back : Instruction} {j : Nat} (hback : m.Holds l back) (hj : j < 4096)
    (hmemory : m'.memory =
      m.memory.write l (Field.address.insert (m.content l) (Word.wrap false j))) :
    m'.Holds l (backTo back j) := by
  obtain ⟨w, hword, hdecode⟩ := hback
  have hl : l < m.memory.size := (Array.getElem?_eq_some_iff.mp hword).1
  have hcontent : m.content l = w := by
    rw [content, Array.getD_eq_getD_getElem?]
    exact congrArg (·.getD Word.zero) hword
  have hwritten := Instruction.decode_insert_address back
    (Instruction.address_lt_of_decode hdecode) (Word.wrap false j)
  have hkept : j % 1073741824 % 4096 = j := by omega
  rw [Instruction.encode_of_decode hdecode, Word.negative_wrap, Word.magnitude_wrap, weight_five,
    weight_two, hkept] at hwritten
  refine ⟨Field.address.insert w (Word.wrap false j), ?_, hwritten⟩
  rw [word?, hmemory, hcontent]
  exact Memory.getElem?_write_self m.memory _ hl

theorem effectiveAddress_backTo {back : Instruction} {j : Nat} (hdirect : back.index.val = 0)
    (hj : j < 4096) : (m.effectiveAddress (backTo back j)).value = j := by
  have hzero : m.registers.indexValue (backTo back j).index = 0 := if_pos hdirect
  have hvalue : (backTo back j).address.value = j := rfl
  rw [effectiveAddress, hzero, Address.value_add (by omega), hvalue, Int.add_zero]

section Step

variable [Peripherals σ]

def allowsJump (m : Machine σ) (i : Instruction) : Bool :=
  match i.operation with
  | .jumpBusy => (Peripherals.busy m.devices i.field).1
  | .jumpReady => !(Peripherals.busy m.devices i.field).1
  | .jump => m.registers.allowsJump i.field
  | .registerJump r => registerCondition (m.registers.get r).value i.field
  | _ => false

/-- The instruction is a jump, not `JSJ`, that is taken to a location. -/
structure TakesJump (m : Machine σ) (i : Instruction) (target : Nat) : Prop where
  links : i.Links
  admits : i.operation.admits i.field = true
  allows : m.allowsJump i = true
  location : m.location? (m.effectiveAddress i) = some target

/-- The jumps share one action, and what they do before it concerns the toggle and the devices. -/
theorem execute_eq_jumpIf (m : Machine σ) (here : Nat) (hlinks : i.Links)
    (hadmits : i.operation.admits i.field = true) :
    ∃ devices overflow, m.execute here i =
      ({ m with devices, registers := { m.registers with overflow } }).jumpIf here
        (m.allowsJump i) (m.effectiveAddress i) := by
  obtain ⟨operation, index, field, address⟩ := i
  obtain ⟨hjump, hlinks⟩ := hlinks
  rw [execute, if_pos hadmits]
  obtain rfl | rfl | rfl | ⟨r, rfl⟩ := Operation.jump_cases hjump
  · refine ⟨(Peripherals.busy m.devices field).2, m.registers.overflow, ?_⟩
    exact congrArg (jumpIf _ here · _) (beq_true (Peripherals.busy m.devices field).1)
  · refine ⟨(Peripherals.busy m.devices field).2, m.registers.overflow, ?_⟩
    exact congrArg (jumpIf _ here · _) (beq_false (Peripherals.busy m.devices field).1)
  · obtain ⟨overflow, heq⟩ := m.jump_eq_jumpIf here
      (m.effectiveAddress ⟨.jump, index, field, address⟩) fun hfield => hlinks ⟨rfl, hfield⟩
    exact ⟨m.devices, overflow, heq⟩
  · exact ⟨m.devices, m.registers.overflow, rfl⟩

theorem step_of_takesJump {target : Nat} (hfetch : m.fetch = .ok i)
    (h : m.TakesJump i target) : ∃ m', m.step = (m', .ok .proceed) ∧ m.Jumped target m' := by
  obtain ⟨devices, overflow, heq⟩ :=
    m.advance.execute_eq_jumpIf m.pc h.links h.admits
  have hlocation : location? { m.advance with
      devices, registers := { m.registers with overflow } } (m.effectiveAddress i) = some target :=
    h.location
  have hallows : m.advance.allowsJump i = true := h.allows
  rw [step_of_fetch_ok hfetch, heq, hallows]
  exact ⟨_, congrArg (complete i) (atLocation_of_some hlocation), rfl, rfl, rfl, rfl⟩

/-- `STJ`, where only the address part is stored. -/
theorem step_of_storeJ (hfetch : m.fetch = .ok i) (hop : i.operation = .storeJ)
    (hfield : i.field.val = 2) (hlocation : m.location? (m.effectiveAddress i) = some l) :
    ∃ m', m.step = (m', .ok .proceed) ∧
      m'.memory = m.memory.write l (Field.address.insert (m.content l) m.registers.jWord) := by
  have hspec : i.spec = Field.address := by
    rw [Instruction.spec, Instruction.spec?, hfield]
    rfl
  have hadmits : i.operation.admits i.field = true := by
    rw [hop]
    change (Field.ofCode? i.field).isSome = true
    rw [hfield]
    rfl
  have hperform : m.advance.execute m.pc i =
      m.advance.atLocation m.pc (m.effectiveAddress i) fun l =>
        (m.advance.write l (Field.address.insert (m.content l) m.registers.jWord)).proceed := by
    rw [execute, if_pos hadmits, perform, hop, hspec]
    rfl
  have hlocation' : m.advance.location? (m.effectiveAddress i) = some l := hlocation
  rw [step_of_fetch_ok hfetch, hperform, atLocation_of_some hlocation']
  exact ⟨_, rfl, rfl⟩

/-- A direct jump to a location of memory is taken. -/
theorem takesJump_backTo {back : Instruction}
    (hjumps : back.operation = .jump ∧ back.field.val = 0) (hdirect : back.index.val = 0)
    (hl : l < m.memory.size) (hsize : m.memory.size ≤ 4096) :
    m.TakesJump (backTo back l) l := by
  obtain ⟨hop, hfield⟩ := hjumps
  have hop' : (backTo back l).operation = .jump := hop
  have hfield' : (backTo back l).field.val = 0 := hfield
  refine ⟨⟨?_, ?_⟩, ?_, ?_, ?_⟩
  · rw [hop']
    exact .inr (by decide)
  · rw [hfield']
    exact fun h => absurd h.2 (by decide)
  · have hfew : (backTo back l).field.val < 10 := by omega
    rw [hop']
    exact decide_eq_true hfew
  · rw [allowsJump, hop', hfield']
    rfl
  · exact location?_of_value (effectiveAddress_backTo hdirect (by omega)) hl

end Step

section Run

variable [Peripherals σ]

/-- One step that goes through and leaves the content of a location as it is. -/
def SparingStep (l : Nat) (m m' : Machine σ) : Prop :=
  (∃ flow, m.step = (m', .ok flow)) ∧ m'.memory[l]? = m.memory[l]?

def Spares (l : Nat) : Machine σ → Machine σ → Prop := Relation.ReflTransGen (SparingStep l)

theorem Spares.memory (h : m.Spares l m') :
    m'.memory[l]? = m.memory[l]? ∧ m'.memory.size = m.memory.size := by
  induction h with
  | refl => exact ⟨rfl, rfl⟩
  | @tail m' m'' _ hstep ih =>
    obtain ⟨⟨flow, hstep⟩, hspared⟩ := hstep
    have hsize := m'.size_memory_step
    rw [hstep] at hsize
    exact ⟨hspared.trans ih.1, hsize.trans ih.2⟩

/-- The machine is at a jump to a subroutine, which begins at `entry` by storing rJ into the address
of the jump at `exit`. -/
structure Linkage (m : Machine σ) (call store back : Instruction) (entry exit : Nat) : Prop where
  size : m.memory.size ≤ 4096
  next : m.pc + 1 < m.memory.size
  call_at : m.Holds m.pc call
  taken : m.TakesJump call entry
  store_at : m.Holds entry store
  stores_j : store.operation = .storeJ
  stores_address : store.field.val = 2
  target : m.location? (m.effectiveAddress store) = some exit
  apart : exit ≠ entry
  back_at : m.Holds exit back
  back_jumps : back.operation = .jump ∧ back.field.val = 0
  back_direct : back.index.val = 0

/-- A subroutine that is called leads back. The jump and the store go through and change nothing in
memory but the address of the jump at the end; and once the machine comes to that jump, by steps
that leave it alone, it goes on after the call. -/
theorem linkage_returns {m : Machine σ} {call store back : Instruction} {entry exit : Nat}
    (h : m.Linkage call store back entry exit) :
    ∃ m₁ m₂, m.step = (m₁, .ok .proceed) ∧ m₁.pc = entry ∧ m₁.step = (m₂, .ok .proceed) ∧
      m₂.Holds exit { back with address := ⟨false, m.pc + 1⟩ } ∧
      (∀ l, l ≠ exit → m₂.memory[l]? = m.memory[l]?) ∧
      ∀ m₃, m₂.Spares exit m₃ → m₃.pc = exit →
        ∃ m₄, m₃.step = (m₄, .ok .proceed) ∧ m₄.pc = m.pc + 1 := by
  obtain ⟨m₁, hcall, hjumped⟩ := step_of_takesJump h.call_at.fetch h.taken
  have hmemory := hjumped.memory
  have hstoreAt : m₁.Holds m₁.pc store := by
    rw [hjumped.pc]
    exact h.store_at.congr (by rw [hmemory])
  have htarget := (hjumped.location?_effectiveAddress store).trans h.target
  obtain ⟨m₂, hstore, hstored⟩ :=
    step_of_storeJ hstoreAt.fetch h.stores_j h.stores_address htarget
  rw [hjumped.jWord h.size h.next] at hstored
  have hsize₂ : m₂.memory.size = m.memory.size := by
    rw [hstored, Memory.size_write, hmemory]
  have hback₁ : m₁.Holds exit back := h.back_at.congr (by rw [hmemory])
  have hback₂ : m₂.Holds exit (backTo back (m.pc + 1)) :=
    holds_backTo hback₁ (Nat.lt_of_lt_of_le h.next h.size) hstored
  refine ⟨m₁, m₂, hcall, hjumped.pc, hstore, hback₂, fun l hl => ?_, fun m₃ hspares hpc => ?_⟩
  · rw [hstored, Memory.getElem?_write_ne _ _ hl.symm, hmemory]
  · -- The jump at the end is still the one that was stored.
    obtain ⟨hspared, hsize₃⟩ := hspares.memory
    have hback₃ : m₃.Holds m₃.pc (backTo back (m.pc + 1)) := hpc ▸ hback₂.congr hspared
    have hsize : m₃.memory.size = m.memory.size := hsize₃.trans hsize₂
    have htaken : m₃.TakesJump (backTo back (m.pc + 1)) (m.pc + 1) :=
      takesJump_backTo h.back_jumps h.back_direct (hsize ▸ h.next) (hsize ▸ h.size)
    obtain ⟨m₄, hreturn, hreturned⟩ := step_of_takesJump hback₃.fetch htaken
    exact ⟨m₄, hreturn, hreturned.pc⟩

end Run

/-- A machine with the program `JMP 2`, `HLT`, and the subroutine `STJ 4`, `NOP`, `JMP -7` at 2. -/
def beforeCall : Machine Unattached :=
  ofImage ⟨5, .halt, none⟩ Unattached.mk
    [Word.wrap false 524327, Word.wrap false 133, Word.wrap false 1048736, Word.wrap false 0,
      Word.wrap true 1835047]

theorem linkage_beforeCall :
    beforeCall.Linkage ⟨.jump, 0, 0, ⟨false, 2⟩⟩ ⟨.storeJ, 0, 2, ⟨false, 4⟩⟩
      ⟨.jump, 0, 0, ⟨true, 7⟩⟩ 2 4 where
  size := by decide +kernel
  next := by decide +kernel
  call_at := ⟨_, rfl, rfl⟩
  taken := ⟨⟨.inr (by decide), fun h => absurd h.2 (by decide)⟩, rfl, rfl, rfl⟩
  store_at := ⟨_, rfl, rfl⟩
  stores_j := rfl
  stores_address := rfl
  target := rfl
  apart := by decide
  back_at := ⟨_, rfl, rfl⟩
  back_jumps := ⟨rfl, rfl⟩
  back_direct := rfl

/-- After the call the subroutine makes one step, and its last jump goes on at location 1. -/
theorem linkage_returns_one :
    beforeCall.Linkage ⟨.jump, 0, 0, ⟨false, 2⟩⟩ ⟨.storeJ, 0, 2, ⟨false, 4⟩⟩
      ⟨.jump, 0, 0, ⟨true, 7⟩⟩ 2 4 ∧
      (beforeCall.afterSteps 2).Holds 4 ⟨.jump, 0, 0, ⟨false, 1⟩⟩ ∧
      (beforeCall.afterSteps 2).Spares 4 (beforeCall.afterSteps 3) ∧
      (beforeCall.afterSteps 3).pc = 4 ∧ (beforeCall.afterSteps 4).pc = 1 := by
  obtain ⟨m₁, m₂, hcall, -, hstore, hback, -, hreturns⟩ := linkage_returns linkage_beforeCall
  have hafter : beforeCall.afterSteps 2 = m₂ := by
    change beforeCall.step.1.step.1 = m₂
    rw [hcall, hstore]
  have hspares : (beforeCall.afterSteps 2).Spares 4 (beforeCall.afterSteps 3) :=
    Relation.ReflTransGen.single ⟨⟨.proceed, Prod.ext rfl rfl⟩, rfl⟩
  have hpc : (beforeCall.afterSteps 3).pc = 4 := rfl
  obtain ⟨m₄, hreturn, hreturned⟩ := hreturns _ (hafter ▸ hspares) hpc
  refine ⟨linkage_beforeCall, hafter ▸ hback, hspares, hpc, ?_⟩
  change (beforeCall.afterSteps 3).step.1.pc = 1
  rw [hreturn]
  exact hreturned

end Machine

end MixComputer
