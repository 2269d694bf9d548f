import MixComputer.Proofs.Machine.Invariant

/-!
The machines that can be brought about: a machine is made from an image, and then it is loaded,
given other devices, set to a location, stepped and run, in any order and whether or not the
requests succeed. All of them keep the limits of the machine.
-/
namespace MixComputer.Machine

inductive Reachable (config : Configuration) (image : List Word) :
    {σ : Type} → Machine σ → Prop
  | ofImage {σ : Type} (devices : σ) : Reachable config image (ofImage config devices image)
  | attach {σ τ : Type} {m : Machine σ} (h : Reachable config image m) (devices : τ) :
      Reachable config image (m.attach devices)
  | setPc {σ : Type} {m : Machine σ} (h : Reachable config image m) (pc : Nat) :
      Reachable config image (m.setPc pc)
  | load {σ : Type} {m m' : Machine σ} (h : Reachable config image m) {start : Nat}
      {words : List Word} (hload : m.load start words = .ok m') : Reachable config image m'
  | step {σ : Type} [Peripherals σ] {m : Machine σ} (h : Reachable config image m) :
      Reachable config image m.step.1
  | run {σ : Type} [Peripherals σ] {m : Machine σ} (h : Reachable config image m)
      (start fuel : Nat) : Reachable config image (m.run start fuel).1

section Run

variable {σ : Type} [Peripherals σ]

/-- What every step keeps, a run keeps. -/
theorem resume_induction {P : Machine σ → Prop} (hstep : ∀ m : Machine σ, P m → P m.step.1)
    (first fuel : Nat) {m : Machine σ} (hm : P m) : P (m.resume first fuel).1 := by
  induction fuel generalizing m with
  | zero =>
    rw [resume]
    split
    · exact hm
    · split <;> exact hm
  | succ fuel ih =>
    have hnext := hstep m hm
    rw [resume]
    split
    · exact hm
    · split
      · exact hm
      · split
        · rename_i m' flow heq
          rw [heq] at hnext
          exact ih hnext
        · rename_i m' fault heq
          rw [heq] at hnext
          exact hnext

/-- What is true of the faults of all steps is true of the fault that ends a run. -/
theorem resume_error {P : Machine σ → Prop} {Q : Fault → Prop}
    (hstep : ∀ m : Machine σ, P m → P m.step.1)
    (hfault : ∀ m : Machine σ, P m → ∀ fault, m.step.2 = .error fault → Q fault)
    (hlimit : ∀ limit, Q (.stepLimit limit)) {first fuel : Nat} {m : Machine σ} (hm : P m)
    {fault : Fault} (h : (m.resume first fuel).2 = some (.error fault)) : Q fault := by
  induction fuel generalizing m with
  | zero =>
    rw [resume] at h
    split at h
    · cases h
    · split at h
      · cases h
        exact hlimit _
      · cases h
  | succ fuel ih =>
    have hnext := hstep m hm
    rw [resume] at h
    split at h
    · cases h
    · split at h
      · cases h
        exact hlimit _
      · split at h
        · rename_i m' flow heq
          rw [heq] at hnext
          exact ih hnext h
        · rename_i m' cause heq
          cases h
          exact hfault m hm fault (congrArg Prod.snd heq)

end Run

section Sound

variable {σ : Type} {m : Machine σ} {size : Nat}

theorem sound_ofImage (config : Configuration) (devices : σ) (image : List Word) :
    (ofImage config devices image).Sound (max config.memorySize image.length) := by
  refine ⟨?_, Registers.bounded_initial⟩
  change (Memory.ofImage image config.memorySize).size = _
  rw [Memory.ofImage, Memory.size_writeList, Memory.blank, Array.size_replicate]

theorem Sound.load (h : m.Sound size) {m' : Machine σ} {start : Nat} {words : List Word}
    (hload : m.load start words = .ok m') : m'.Sound size := by
  unfold Machine.load at hload
  split at hload
  · cases hload
    exact ⟨(Memory.size_writeList _ _ _).trans h.memorySize, h.registers⟩
  · cases hload

theorem Sound.run [Peripherals σ] (h : m.Sound size) (start fuel : Nat) :
    (m.run start fuel).1.Sound size :=
  resume_induction (P := fun m => m.Sound size) (fun _ hm => hm.step) m.steps fuel
    ⟨h.memorySize, h.registers⟩

/-- All requests keep to the limits. -/
theorem Reachable.sound {config : Configuration} {image : List Word}
    (h : Reachable config image m) : m.Sound (max config.memorySize image.length) := by
  induction h with
  | ofImage devices => exact sound_ofImage config devices image
  | attach _ devices ih => exact ⟨ih.memorySize, ih.registers⟩
  | setPc _ pc ih => exact ⟨ih.memorySize, ih.registers⟩
  | load _ hload ih => exact ih.load hload
  | step _ ih => exact ih.step
  | run _ start fuel ih => exact ih.run start fuel

/-- An address of two bytes with an index of two bytes. -/
theorem Sound.effectiveAddress_le (h : m.Sound size) {i : Instruction}
    (hi : i.address.magnitude < weight 2) : (m.effectiveAddress i).magnitude ≤ 8190 := by
  have hindex := h.registers.natAbs_indexValue i.index
  rw [weight_two] at hi hindex
  have haddress : i.address.value.natAbs < 4096 := by
    unfold Address.value
    split <;> omega
  unfold effectiveAddress Address.add
  split
  · exact Nat.zero_le _
  · simp only [Address.ofInt]
    omega

end Sound

/-- The limits of a machine with the given size of memory. An instruction that is executed leaves
the next location in memory or right after it. -/
structure WithinLimits {σ : Type} [Peripherals σ] (m : Machine σ) (size : Nat) : Prop where
  memorySize : m.memory.size = size
  memory : ∀ w ∈ m.memory, w.bits < 0x80000000
  registers : ∀ r, (m.registers.get r).bits < 0x80000000
  index : ∀ r : Register, Register.isIndex r = true → (m.registers.get r).magnitude ≤ 4095
  j : m.registers.j ≤ 4095
  pc : ∀ i, m.fetch = .ok i → m.step.1.pc ≤ m.step.1.memory.size
  address : ∀ w i, Instruction.decode w = .ok i → (m.effectiveAddress i).magnitude ≤ 8190

/-- A machine never leaves its limits, whatever is requested of it and whatever its devices do. -/
theorem withinLimits_of_reachable {σ : Type} [Peripherals σ] {m : Machine σ}
    {config : Configuration} {image : List Word} (h : Reachable config image m) :
    m.WithinLimits (max config.memorySize image.length) where
  memorySize := h.sound.memorySize
  memory := fun w _ => w.bits_lt
  registers := fun r => (m.registers.get r).bits_lt
  index := by
    intro r hr
    have hlt := h.sound.registers.index r hr
    rw [weight_two] at hlt
    omega
  j := by
    have hlt := h.sound.registers.j
    rw [weight_two] at hlt
    omega
  pc := by
    intro i hfetch
    have hplaced := h.sound.step_of_fetch hfetch
    rw [hplaced.memorySize]
    exact hplaced.pc
  address := fun w _ hdecode =>
    h.sound.effectiveAddress_le (Instruction.address_lt_of_decode hdecode)

/-- `LD1 1` where the next word has five bytes and is no instruction. -/
theorem withinLimits_of_run :
    ((ofImage ⟨4, .halt, none⟩ Unattached.mk
      [Word.wrap false 262473, Word.wrap true 1073741823]).run 0 2).1.WithinLimits 4 := by
  have hmade : Reachable ⟨4, .halt, none⟩ [Word.wrap false 262473, Word.wrap true 1073741823]
      (ofImage ⟨4, .halt, none⟩ Unattached.mk
        [Word.wrap false 262473, Word.wrap true 1073741823]) := .ofImage Unattached.mk
  exact withinLimits_of_reachable (hmade.run 0 2)

end MixComputer.Machine
