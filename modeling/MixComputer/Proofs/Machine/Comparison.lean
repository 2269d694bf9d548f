import MixComputer.Proofs.Field
import MixComputer.Proofs.Machine.Linkage
import MixComputer.Proofs.Machine.Sum
import MixComputer.Proofs.Listing

/-!
Comparisons, and the jumps that ask for them. A comparison looks at the same field of a register and
of a word in memory, and the jump after it goes by the order of the two numbers that it finds there.
Nothing but the comparison indicator is changed. It says what a subtraction would say that has room
for the difference.
-/
namespace MixComputer

namespace Field

variable {f : Field} {w : Word}

/-- The number that the bytes of a field write. It has the sign of the word if the field begins with
byte 0. -/
def number (f : Field) (w : Word) : Int :=
  Word.signed (f.left == 0 && w.negative) (Word.magnitudeOfBytes (f.select w.bytes))

theorem value_extract (f : Field) (w : Word) : (f.extract w).value = f.number w := by
  obtain ⟨-, hselect, -⟩ := (f.cuts w).eq_lastBytes
  have hlt : w.magnitude / f.unit % f.span < weight 5 :=
    Nat.lt_of_le_of_lt (Nat.le_trans (Nat.mod_le _ _) (Nat.div_le_self _ _)) w.magnitude_lt
  have hmagnitude : (f.extract w).magnitude = Word.magnitudeOfBytes (f.select w.bytes) := by
    rw [hselect, Word.magnitudeOfBytes_lastBytes, extract, Word.magnitude_wrap,
      Nat.mod_eq_of_lt hlt]
    rfl
  rw [Word.value_eq_signed, hmagnitude]
  rfl

theorem number_whole (w : Word) : whole.number w = w.value := by
  have hself : whole.insert w (whole.extract w) = w := whole.insert_extract w
  rw [insert_whole] at hself
  rw [← value_extract, hself]

/-- The sign of a field without a magnitude says nothing. -/
theorem number_of_zeros (h : ∀ b ∈ f.select w.bytes, b.val = 0) : f.number w = 0 := by
  have hzeros : f.select w.bytes = zeroBytes (f.select w.bytes).length :=
    List.eq_replicate_of_mem fun b hb => Fin.ext (h b hb)
  have hnone : Word.magnitudeOfBytes (f.select w.bytes) = 0 := by
    rw [hzeros, ← lastBytes_zero, Word.magnitudeOfBytes_lastBytes, Nat.zero_mod]
  rw [number, hnone]
  cases f.left == 0 && w.negative <;> rfl

end Field

inductive Relation where
  | less
  | equal
  | greater
  | greaterOrEqual
  | notEqual
  | lessOrEqual
deriving DecidableEq

namespace Relation

def Holds : Relation → Int → Int → Prop
  | less, a, b => a < b
  | equal, a, b => a = b
  | greater, a, b => a > b
  | greaterOrEqual, a, b => a ≥ b
  | notEqual, a, b => a ≠ b
  | lessOrEqual, a, b => a ≤ b

instance (relation : Relation) (a b : Int) : Decidable (relation.Holds a b) :=
  match relation with
  | less => inferInstanceAs (Decidable (a < b))
  | equal => inferInstanceAs (Decidable (a = b))
  | greater => inferInstanceAs (Decidable (a > b))
  | greaterOrEqual => inferInstanceAs (Decidable (a ≥ b))
  | notEqual => inferInstanceAs (Decidable (a ≠ b))
  | lessOrEqual => inferInstanceAs (Decidable (a ≤ b))

def mnemonic : Relation → String
  | less => "JL"
  | equal => "JE"
  | greater => "JG"
  | greaterOrEqual => "JGE"
  | notEqual => "JNE"
  | lessOrEqual => "JLE"

def variant : Relation → Nat
  | less => 4
  | equal => 5
  | greater => 6
  | greaterOrEqual => 7
  | notEqual => 8
  | lessOrEqual => 9

theorem ofName?_mnemonic (relation : Relation) :
    Mnemonic.ofName? relation.mnemonic =
      some (.instruction .jump (Byte.ofNat relation.variant)) := by
  have hmem : (relation.mnemonic, relation.variant) ∈ Operation.jump.mnemonics := by
    cases relation <;> decide
  exact (Mnemonic.ofName?_of_mem hmem).1

/-- The jump asks the indicator for the relation of the numbers that were compared. -/
theorem allowsJump_iff (relation : Relation) {s : Registers} {a b : Int}
    (h : s.comparison = compare a b) :
    s.allowsJump relation.variant = true ↔ relation.Holds a b := by
  have hlt : compare a b = .lt ↔ a < b := Int.compare_eq_lt
  have heq : compare a b = .eq ↔ a = b := Int.compare_eq_eq
  have hgt : compare a b = .gt ↔ a > b := Int.compare_eq_gt
  cases relation with
  | less => simp [Registers.allowsJump, variant, Holds, h, hlt]
  | equal => simp [Registers.allowsJump, variant, Holds, h, heq]
  | greater => simp [Registers.allowsJump, variant, Holds, h, hgt]
  | greaterOrEqual => simp [Registers.allowsJump, variant, Holds, h, hlt]
  | notEqual => simp [Registers.allowsJump, variant, Holds, h, heq]
  | lessOrEqual => simp [Registers.allowsJump, variant, Holds, h, hgt]

end Relation

namespace Machine

variable {σ : Type} {m m' : Machine σ} {r r' : Register} {f : Field} {l l' target : Nat}
  {relation : Relation}

/-- The next instruction is the jump for a relation, and its target is in memory. -/
def JumpsBy (m : Machine σ) (relation : Relation) (target : Nat) : Prop :=
  ∃ i : Instruction, m.fetch = .ok i ∧
    Mnemonic.ofName? relation.mnemonic = some (.instruction i.operation i.field) ∧
    m.location? (m.effectiveAddress i) = some target

/-- Neither the index registers nor memory have to be the same for a jump that is to come. -/
theorem JumpsBy.congr (h : m.JumpsBy relation target) (hpc : m'.pc = m.pc)
    (hmemory : m'.memory = m.memory) (hgeneral : m'.registers.general = m.registers.general) :
    m'.JumpsBy relation target := by
  obtain ⟨i, hfetch, hname, hlocation⟩ := h
  have hindex : m'.registers.indexValue i.index = m.registers.indexValue i.index := by
    simp only [Registers.indexValue, Registers.get, hgeneral]
  refine ⟨i, ?_, hname, ?_⟩
  · rw [← hfetch, fetch, fetch, word?, word?, hpc, hmemory]
  · rw [← hlocation, location?, location?, effectiveAddress, effectiveAddress, hindex, hmemory]

variable [Peripherals σ]

/-- The jump goes to its target if the indicator allows it, and to the next location if not. -/
theorem JumpsBy.step (h : m.JumpsBy relation target) :
    m.step.2 = .ok .proceed ∧ m.step.1.pc =
      if m.registers.allowsJump relation.variant = true then target else m.pc + 1 := by
  obtain ⟨⟨operation, index, field, address⟩, hfetch, hname, hlocation⟩ := h
  rw [relation.ofName?_mnemonic] at hname
  obtain ⟨rfl, rfl⟩ : .jump = operation ∧ Byte.ofNat relation.variant = field := by
    simpa using hname
  have hvariant : (Byte.ofNat relation.variant).val = relation.variant := by
    cases relation <;> rfl
  have hadmits : Operation.jump.admits (Byte.ofNat relation.variant) = true := by
    cases relation <;> rfl
  have hne : (Byte.ofNat relation.variant).val ≠ 1 := by
    cases relation <;> decide
  obtain ⟨overflow, hjump⟩ := m.advance.jump_eq_jumpIf m.pc
    (m.effectiveAddress ⟨.jump, index, Byte.ofNat relation.variant, address⟩) hne
  have hexecute : m.advance.execute m.pc ⟨.jump, index, Byte.ofNat relation.variant, address⟩ =
      m.advance.jump m.pc (m.effectiveAddress ⟨.jump, index, Byte.ofNat relation.variant, address⟩)
        (Byte.ofNat relation.variant) := by
    rw [execute, if_pos hadmits]
    rfl
  rw [step_of_fetch_ok hfetch, hexecute, hjump, hvariant]
  change (complete _ (jumpIf _ _ (m.registers.allowsJump relation.variant) _)).2 = _ ∧
    (complete _ (jumpIf _ _ (m.registers.allowsJump relation.variant) _)).1.pc = _
  cases m.registers.allowsJump relation.variant with
  | true =>
    have hlocation' : (m.advance.setRegisters { m.advance.registers with overflow }).location?
        (m.effectiveAddress ⟨.jump, index, Byte.ofNat relation.variant, address⟩) = some target :=
      hlocation
    rw [jumpIf, if_pos rfl, atLocation_of_some hlocation']
    exact ⟨rfl, rfl⟩
  | false => exact ⟨rfl, rfl⟩

structure Compares (m : Machine σ) (r : Register) (f : Field) (l : Nat) : Prop where
  ok : m.step.2 = .ok .proceed
  comparison : m.step.1.registers.comparison =
    compare (f.number (m.registers.get r)) (f.number (m.content l))
  registers : m.step.1.registers =
    { m.registers with comparison := m.step.1.registers.comparison }
  memory : m.step.1.memory = m.memory
  pc : m.step.1.pc = m.pc + 1

theorem AppliesAt.compares (h : m.AppliesAt (.compare r) f l) : m.Compares r f l := by
  obtain ⟨i, -, -, hstep⟩ := h.exists_step rfl
    (fun f l => (m.advance.compareWith r f (m.content l)).proceed)
    (fun i hi => by
      rw [perform, hi]
      rfl)
  rw [complete_proceed] at hstep
  have hcomparison : m.step.1.registers.comparison =
      compare (f.extract (m.registers.get r)).value (f.extract (m.content l)).value := by
    rw [hstep]
    rfl
  rw [Field.value_extract, Field.value_extract] at hcomparison
  refine ⟨?_, hcomparison, ?_, ?_, ?_⟩ <;> rw [hstep] <;> rfl

/-- The jump after a comparison. -/
theorem Compares.jump (h : m.Compares r f l)
    (hnext : (m.setPc (m.pc + 1)).JumpsBy relation target) :
    m.step.1.step.2 = .ok .proceed ∧ m.step.1.step.1.pc =
      if relation.Holds (f.number (m.registers.get r)) (f.number (m.content l)) then target
      else m.pc + 2 := by
  have hgeneral : m.step.1.registers.general = m.registers.general := by
    rw [h.registers]
  have hnext' : m.step.1.JumpsBy relation target := hnext.congr h.pc h.memory hgeneral
  obtain ⟨hok, hpc⟩ := hnext'.step
  simp only [relation.allowsJump_iff h.comparison, h.pc] at hpc
  exact ⟨hok, hpc⟩

/-- Numbers that have changed places have the opposite order. -/
theorem Compares.swap (h : m.Compares r f l) (h' : m'.Compares r' f l')
    (hregister : m'.registers.get r' = m.content l) (hcell : m'.content l' = m.registers.get r) :
    m'.step.1.registers.comparison = m.step.1.registers.comparison.swap := by
  rw [h.comparison, h'.comparison, hregister, hcell]
  exact Std.OrientedCmp.eq_swap

/-- The order of two numbers is the sign of their difference. -/
theorem compare_eq_compare_sub (a b : Int) : compare a b = compare (a - b) 0 := by
  cases h : compare (a - b) 0 with
  | lt =>
    have hlt := Int.compare_eq_lt.mp h
    exact Int.compare_eq_lt.mpr (by omega)
  | eq =>
    have heq := Int.compare_eq_eq.mp h
    exact Int.compare_eq_eq.mpr (by omega)
  | gt =>
    have hgt := Int.compare_eq_gt.mp h
    exact Int.compare_eq_gt.mpr (by omega)

/-- A subtraction of the whole word that does not overflow leaves the exact difference in rA. -/
theorem AppliesAt.value_sub (h : m.AppliesAt .sub Field.whole l)
    (hfits : Word.Fits (m.registers.a.value - (m.content l).value)) :
    m.step.1.registers.a.value = m.registers.a.value - (m.content l).value := by
  have hsum : m.exactSum .a (-(Field.whole.extract (m.content l)).value) =
      m.registers.a.value - (m.content l).value := by
    rw [exactSum, Field.value_extract, Field.number_whole]
    rfl
  rw [← hsum] at hfits ⊢
  exact (Adds.subtract h).addsTo.value hfits

/-- After a comparison a jump knows how the numbers in the field of the register and in the field of
the location are related. The comparison changes nothing but the indicator; it has the opposite
result if the two words change places; zeros are equal whatever their signs; and for rA and whole
words it gives the sign of the difference, which a subtraction leaves in rA if there is room. -/
theorem step_compare {m : Machine σ} {r : Register} {f : Field} {l : Nat}
    (h : m.AppliesAt (.compare r) f l) :
    m.Compares r f l ∧
      (∀ (relation : Relation) (target : Nat), (m.setPc (m.pc + 1)).JumpsBy relation target →
        m.step.1.step.2 = .ok .proceed ∧ m.step.1.step.1.pc =
          if relation.Holds (f.number (m.registers.get r)) (f.number (m.content l)) then target
          else m.pc + 2) ∧
      (∀ (m' : Machine σ) (r' : Register) (l' : Nat), m'.AppliesAt (.compare r') f l' →
        m'.registers.get r' = m.content l → m'.content l' = m.registers.get r →
          m'.step.1.registers.comparison = m.step.1.registers.comparison.swap) ∧
      ((∀ b ∈ f.select (m.registers.get r).bytes, b.val = 0) →
        (∀ b ∈ f.select (m.content l).bytes, b.val = 0) →
          m.step.1.registers.comparison = .eq) ∧
      (r = .a → f = Field.whole →
        m.step.1.registers.comparison = compare (m.registers.a.value - (m.content l).value) 0 ∧
          ∀ (m' : Machine σ) (l' : Nat), m'.AppliesAt .sub Field.whole l' →
            m'.registers.a = m.registers.a → m'.content l' = m.content l →
              Word.Fits (m.registers.a.value - (m.content l).value) →
                m'.step.1.registers.a.value = m.registers.a.value - (m.content l).value) := by
  have hcompares := h.compares
  refine ⟨hcompares, fun relation target hnext => hcompares.jump hnext, ?_, ?_, ?_⟩
  · intro m' r' l' h' hregister hcell
    exact hcompares.swap h'.compares hregister hcell
  · intro hregister hcell
    rw [hcompares.comparison, Field.number_of_zeros hregister, Field.number_of_zeros hcell]
    rfl
  · rintro rfl rfl
    refine ⟨?_, fun m' l' hsub ha hcell hfits => ?_⟩
    · rw [hcompares.comparison, Field.number_whole, Field.number_whole]
      exact compare_eq_compare_sub _ _
    · rw [← ha, ← hcell] at hfits ⊢
      exact hsub.value_sub hfits

def beforeComparison (first a cell : Word) : Machine Unattached :=
  (ofImage ⟨4, .halt, none⟩ Unattached.mk
    [first, Word.wrap false 524711, Word.wrap false 133, cell]).setRegisters
    (Registers.initial.setA a)

def compareWhole : Word := Word.wrap false 786808

/-- `5` is greater than `-7`, `-7` is less than `5`, minus zero is zero, and `SUB 3` leaves `12`. -/
theorem step_compare_greater :
    (beforeComparison compareWhole (Word.ofInt 5) (Word.ofInt (-7))).AppliesAt (.compare .a)
        Field.whole 3 ∧
      ((beforeComparison compareWhole (Word.ofInt 5) (Word.ofInt (-7))).setPc 1).JumpsBy
        .greater 2 ∧
      (beforeComparison compareWhole (Word.ofInt 5) (Word.ofInt (-7))).step.1.step.1.pc = 2 ∧
      (beforeComparison compareWhole (Word.ofInt (-7)) (Word.ofInt 5)).step.1.registers.comparison =
        .lt ∧
      (beforeComparison compareWhole (Word.wrap true 0) Word.zero).step.1.registers.comparison =
        .eq ∧
      (beforeComparison (Word.wrap false 786754) (Word.ofInt 5)
        (Word.ofInt (-7))).step.1.registers.a.value = 12 := by
  have happlies : (beforeComparison compareWhole (Word.ofInt 5) (Word.ofInt (-7))).AppliesAt
      (.compare .a) Field.whole 3 := ⟨⟨.compare .a, 0, 5, ⟨false, 3⟩⟩, rfl, rfl, rfl, rfl⟩
  have hswapped : (beforeComparison compareWhole (Word.ofInt (-7)) (Word.ofInt 5)).AppliesAt
      (.compare .a) Field.whole 3 := ⟨⟨.compare .a, 0, 5, ⟨false, 3⟩⟩, rfl, rfl, rfl, rfl⟩
  have hnothing : (beforeComparison compareWhole (Word.wrap true 0) Word.zero).AppliesAt
      (.compare .a) Field.whole 3 := ⟨⟨.compare .a, 0, 5, ⟨false, 3⟩⟩, rfl, rfl, rfl, rfl⟩
  have hjump : ((beforeComparison compareWhole (Word.ofInt 5) (Word.ofInt (-7))).setPc 1).JumpsBy
      .greater 2 :=
    ⟨⟨.jump, 0, 6, ⟨false, 2⟩⟩, rfl, Relation.greater.ofName?_mnemonic, rfl⟩
  have hsub : (beforeComparison (Word.wrap false 786754) (Word.ofInt 5)
      (Word.ofInt (-7))).AppliesAt .sub Field.whole 3 :=
    ⟨⟨.sub, 0, 5, ⟨false, 3⟩⟩, rfl, rfl, rfl, rfl⟩
  obtain ⟨-, hjumps, hswap, -, hwhole⟩ := step_compare happlies
  obtain ⟨-, -, -, hzeros, -⟩ := step_compare hnothing
  refine ⟨happlies, hjump, (hjumps .greater 2 hjump).2, ?_, ?_, ?_⟩
  · exact hswap _ _ _ hswapped rfl rfl
  · exact hzeros (by decide +kernel) (by decide +kernel)
  · exact (hwhole rfl rfl).2 _ _ hsub rfl rfl (by decide +kernel)

end Machine

end MixComputer
