import MixComputer.Machine.Run
import MixComputer.Proofs.Instruction
import MixComputer.Proofs.Registers

/-!
The limits of the machine. No instruction changes the size of memory or gives more than two bytes
to an index register or to rJ, and none leaves the next location further than right after memory.
Each operation keeps these limits by itself; a step keeps them because it is one of the operations.
-/
namespace MixComputer.Machine

structure Sound {σ : Type} (m : Machine σ) (size : Nat) : Prop where
  memorySize : m.memory.size = size
  registers : m.registers.Bounded

/-- The next location, moreover, is in memory or right after it. -/
structure Placed {σ : Type} (m : Machine σ) (size : Nat) : Prop extends m.Sound size where
  pc : m.pc ≤ size

variable {σ : Type} {size : Nat} {m : Machine σ}

section Parts

theorem location?_eq_some {a : Address} {l : Nat} (h : m.location? a = some l) :
    l < m.memory.size ∧ a.value = l := by
  unfold location? Address.location? at h
  split at h
  · rename_i hrange
    obtain rfl := Option.some.inj h
    exact ⟨hrange.2, (Int.toNat_of_nonneg hrange.1).symm⟩
  · cases h

theorem location?_of_value {a : Address} {l : Nat} (hvalue : a.value = l)
    (hl : l < m.memory.size) : m.location? a = some l := by
  have hplace : a.value.toNat = l := by omega
  rw [location?, Address.location?, if_pos ⟨by omega, by omega⟩, hplace]

theorem atLocation_of_some {here : Nat} {a : Address} {next : Nat → Outcome σ} {l : Nat}
    (h : m.location? a = some l) : m.atLocation here a next = next l := by
  rw [atLocation, h]

theorem atLocation_of_none {here : Nat} {a : Address} {next : Nat → Outcome σ}
    (h : m.location? a = none) :
    m.atLocation here a next = m.fail (.memoryLocation here a.value) := by
  rw [atLocation, h]

theorem Placed.withDevices (h : m.Placed size) {τ : Type} (devices : τ) :
    ({ m with devices } : Machine τ).Placed size := ⟨⟨h.memorySize, h.registers⟩, h.pc⟩

theorem Placed.setRegisters (h : m.Placed size) {registers : Registers}
    (hr : registers.Bounded) : (m.setRegisters registers).Placed size :=
  ⟨⟨h.memorySize, hr⟩, h.pc⟩

theorem Placed.record (h : m.Placed size) (fault : Fault) : (m.record fault).Placed size :=
  ⟨⟨h.memorySize, h.registers⟩, h.pc⟩

theorem Placed.write (h : m.Placed size) (l : Nat) (w : Word) : (m.write l w).Placed size :=
  ⟨⟨(Memory.size_write m.memory l w).trans h.memorySize, h.registers⟩, h.pc⟩

/-- Going on with a location of memory. -/
theorem Placed.atLocation (h : m.Placed size) {here : Nat} {a : Address}
    {next : Nat → Outcome σ} (hnext : ∀ l < size, (next l).1.Placed size) :
    (m.atLocation here a next).1.Placed size := by
  unfold Machine.atLocation
  split
  · rename_i l hl
    exact hnext l (h.memorySize ▸ (location?_eq_some hl).1)
  · exact h

/-- Whatever goes to an index register, two bytes of it arrive. -/
theorem Placed.setRegister (h : m.Placed size) (here : Nat) (r : Register) (w : Word) :
    (m.setRegister here r w).Placed size := by
  unfold Machine.setRegister
  by_cases hlarge : (Register.isIndex r && weight 2 ≤ w.magnitude) = true
  · rw [if_pos hlarge]
    refine (h.record _).setRegisters (h.registers.set ?_)
    intro _
    have hmod : w.magnitude % weight 2 < weight 2 := Nat.mod_lt _ (weight_pos 2)
    exact Nat.lt_of_le_of_lt (Nat.mod_le _ _) hmod
  · rw [if_neg hlarge]
    refine h.setRegisters (h.registers.set ?_)
    intro hindex
    simpa [hindex] using hlarge

end Parts

section Arithmetic

/-- Adding is for rA and rX alone. -/
theorem Placed.addTo (h : m.Placed size) {r : Register} (hr : Register.isIndex r = false)
    (n : Int) : (m.addTo r n).Placed size := by
  have hset : (m.registers.set r (Arithmetic.add (m.registers.get r) n)).Bounded :=
    h.registers.set fun hindex => by simp [hr] at hindex
  exact h.setRegisters (hset.congr rfl rfl)

theorem Placed.setPair (h : m.Placed size) (words : Word × Word) :
    (m.setPair words).Placed size := h.setRegisters h.registers.setA.setX

theorem Placed.divide (h : m.Placed size) (v : Word) : (m.divide v).Placed size := by
  unfold Machine.divide
  split
  · exact h.setPair _
  · exact h.setRegisters (h.registers.congr rfl rfl)

theorem Placed.increase (h : m.Placed size) (here : Nat) (r : Register) (n : Int) :
    (m.increase here r n).Placed size := by
  unfold Machine.increase
  by_cases hr : Register.isIndex r = true
  · rw [if_pos hr]
    exact h.setRegister here r _
  · rw [if_neg hr]
    exact h.addTo (Bool.eq_false_iff.mpr hr) n

theorem Placed.transferAddress (h : m.Placed size) (here : Nat) (r : Register) (a : Address)
    (variant : Nat) : (m.transferAddress here r a variant).Placed size := by
  unfold Machine.transferAddress
  split
  · exact h.increase here r _
  · exact h.increase here r _
  · exact h.setRegister here r _
  · exact h.setRegister here r _

theorem Placed.compareWith (h : m.Placed size) (r : Register) (f : Field) (w : Word) :
    (m.compareWith r f w).Placed size := h.setRegisters (h.registers.congr rfl rfl)

theorem Placed.shift (h : m.Placed size) (here : Nat) (a : Address) (variant : Nat) :
    (m.shift here a variant).1.Placed size := by
  unfold Machine.shift
  split
  · exact h
  · exact h.setPair _

/-- Words are moved into memory, and rI1 is increased like any other index register. -/
theorem Placed.moveWords (h : m.Placed size) (here : Nat) (a : Address) (k count : Nat) :
    (m.moveWords here a k count).1.Placed size := by
  induction count generalizing m k with
  | zero => exact h
  | succ count ih =>
    refine h.atLocation fun source _ => ?_
    refine h.atLocation fun target _ => ?_
    exact ih ((h.write target _).increase here 1 1) (k + 1)

end Arithmetic

section Jumps

theorem Placed.jumpIf (h : m.Placed size) (here : Nat) (condition : Bool) (a : Address) :
    (m.jumpIf here condition a).1.Placed size := by
  have hlinked : ({ m.registers with j := m.pc % weight 2 } : Registers).Bounded :=
    ⟨h.registers.index, Nat.mod_lt _ (weight_pos 2)⟩
  unfold Machine.jumpIf
  cases condition with
  | true =>
    refine h.atLocation fun target htarget => ?_
    exact ⟨⟨h.memorySize, hlinked⟩, Nat.le_of_lt htarget⟩
  | false => exact h.setRegisters hlinked

theorem Placed.jump (h : m.Placed size) (here : Nat) (a : Address) (variant : Nat) :
    (m.jump here a variant).1.Placed size := by
  have hcleared : (m.setRegisters { m.registers with overflow := false }).Placed size :=
    h.setRegisters (h.registers.congr rfl rfl)
  unfold Machine.jump
  split
  · exact h.jumpIf here true a
  · refine h.atLocation fun target htarget => ?_
    exact ⟨⟨h.memorySize, h.registers⟩, Nat.le_of_lt htarget⟩
  · exact hcleared.jumpIf here _ a
  · exact hcleared.jumpIf here _ a
  · exact h.jumpIf here _ a
  · exact h.jumpIf here _ a
  · exact h.jumpIf here _ a
  · exact h.jumpIf here _ a
  · exact h.jumpIf here _ a
  · exact h.jumpIf here _ a

end Jumps

section Units

theorem Placed.finishRequest (h : m.Placed size) (here unit : Nat)
    (result : Except DeviceError Unit) : (m.finishRequest here unit result).1.Placed size := by
  cases result <;> exact h

theorem Placed.atBlock (h : m.Placed size) {here : Nat} {a : Address} {unit : Nat}
    {next : Nat → Nat → Outcome σ} (hnext : ∀ start n, (next start n).1.Placed size) :
    (m.atBlock here a unit next).1.Placed size := by
  refine h.atLocation fun start _ => ?_
  simp only
  split
  · exact hnext start _
  · exact h

variable [Peripherals σ]

theorem Placed.jumpOnUnit (h : m.Placed size) (here : Nat) (a : Address) (unit : Nat)
    (busy : Bool) : (m.jumpOnUnit here a unit busy).1.Placed size :=
  (h.withDevices _).jumpIf here _ a

theorem Placed.readUnit (h : m.Placed size) (here : Nat) (a : Address) (unit : Nat) :
    (m.readUnit here a unit).1.Placed size := by
  refine h.atBlock fun start n => ?_
  have hblock (block : Vector Word n) (devices : σ) :
      ({ m with
        memory := m.memory.writeList start block.toList
        devices } : Machine σ).Placed size :=
    ⟨⟨(Memory.size_writeList _ _ _).trans h.memorySize, h.registers⟩, h.pc⟩
  exact (hblock _ _).finishRequest here unit _

theorem Placed.writeUnit (h : m.Placed size) (here : Nat) (a : Address) (unit : Nat) :
    (m.writeUnit here a unit).1.Placed size :=
  h.atBlock fun _ _ => (h.withDevices _).finishRequest here unit _

theorem Placed.controlUnit (h : m.Placed size) (here : Nat) (a : Address) (unit : Nat) :
    (m.controlUnit here a unit).1.Placed size := (h.withDevices _).finishRequest here unit _

/-- Every operation keeps the limits. -/
theorem Placed.perform (h : m.Placed size) (here : Nat) (i : Instruction) :
    (m.perform here i).1.Placed size := by
  unfold Machine.perform
  cases i.operation with
  | nop => exact h
  | add => exact h.atLocation fun l _ => h.addTo rfl _
  | sub => exact h.atLocation fun l _ => h.addTo rfl _
  | mul => exact h.atLocation fun l _ => h.setPair _
  | div => exact h.atLocation fun l _ => h.divide _
  | special =>
    simp only
    split
    · exact h.setRegisters h.registers.setA
    · exact h.setPair _
    · exact h
  | shift => exact h.shift here _ _
  | move => exact h.moveWords here _ 0 _
  | load r => exact h.atLocation fun l _ => h.setRegister here r _
  | loadNegative r => exact h.atLocation fun l _ => h.setRegister here r _
  | store r => exact h.atLocation fun l _ => h.write l _
  | storeJ => exact h.atLocation fun l _ => h.write l _
  | storeZero => exact h.atLocation fun l _ => h.write l _
  | jumpBusy => exact h.jumpOnUnit here _ _ true
  | control => exact h.controlUnit here _ _
  | input => exact h.readUnit here _ _
  | output => exact h.writeUnit here _ _
  | jumpReady => exact h.jumpOnUnit here _ _ false
  | jump => exact h.jump here _ _
  | registerJump r => exact h.jumpIf here _ _
  | addressTransfer r => exact h.transferAddress here r _ _
  | compare r => exact h.atLocation fun l _ => h.compareWith r _ _

theorem Placed.execute (h : m.Placed size) (here : Nat) (i : Instruction) :
    (m.execute here i).1.Placed size := by
  unfold Machine.execute
  split
  · exact h.perform here i
  · exact h

end Units

section Step

theorem Placed.complete {i : Instruction} {o : Outcome σ} (h : o.1.Placed size) :
    (complete i o).1.Placed size := by
  obtain ⟨m, result⟩ := o
  cases result with
  | ok flow => exact ⟨⟨h.memorySize, h.registers⟩, h.pc⟩
  | error fault =>
    simp only [Machine.complete]
    split
    · exact ⟨⟨h.memorySize, h.registers⟩, h.pc⟩
    · exact h

theorem fetch_eq_ok {i : Instruction} (h : m.fetch = .ok i) :
    m.pc < m.memory.size ∧ ∃ w, m.word? m.pc = some w ∧ Instruction.decode w = .ok i := by
  unfold fetch at h
  cases hword : m.word? m.pc with
  | none => simp [hword] at h
  | some w =>
    simp only [hword] at h
    cases hdecode : Instruction.decode w with
    | error cause => simp [hdecode] at h
    | ok i' =>
      simp only [hdecode, Except.ok.injEq] at h
      exact ⟨(Array.getElem?_eq_some_iff.mp hword).1, w, rfl, h ▸ hdecode⟩

theorem fetch_of_word {w : Word} {i : Instruction} (hword : m.word? m.pc = some w)
    (hdecode : Instruction.decode w = .ok i) : m.fetch = .ok i := by
  simp only [fetch, hword, hdecode]

variable [Peripherals σ]

theorem step_of_fetch_ok {i : Instruction} (hfetch : m.fetch = .ok i) :
    m.step = Machine.complete i (m.advance.execute m.pc i) := by
  simp only [step, hfetch]

/-- A step that finds no instruction changes nothing. -/
theorem step_of_fetch_error {fault : Fault} (hfetch : m.fetch = .error fault) :
    m.step = (m, .error fault) := by
  simp only [step, hfetch, fail]

/-- The location after an instruction is in memory or right after it. -/
theorem Sound.step_of_fetch (h : m.Sound size) {i : Instruction} (hfetch : m.fetch = .ok i) :
    m.step.1.Placed size := by
  have hpc := (fetch_eq_ok hfetch).1
  have hadvance : m.advance.Placed size := by
    refine ⟨⟨h.memorySize, h.registers⟩, ?_⟩
    change m.pc + 1 ≤ size
    rw [← h.memorySize]
    omega
  rw [step_of_fetch_ok hfetch]
  exact (hadvance.execute m.pc i).complete

theorem Sound.step (h : m.Sound size) : m.step.1.Sound size := by
  cases hfetch : m.fetch with
  | ok i => exact (h.step_of_fetch hfetch).toSound
  | error fault =>
    rw [step_of_fetch_error hfetch]
    exact h

end Step

end MixComputer.Machine
