import MixComputer.Proofs.Conversion
import MixComputer.Proofs.Guarded.Arithmetic
import MixComputer.Proofs.Machine.Operand

/-!
Steps that convert rA. `CHAR` writes the numeral of rA in character codes into rA and rX, and `NUM`
reads a number from the ten bytes of rA and rX. `NUM` undoes every `CHAR`. `CHAR` undoes a `NUM` of
bytes that show a number with room in rA, up to what a byte has besides its digit.
-/
namespace MixComputer.Machine

open Arithmetic (numeral decimalValue)

variable {σ : Type} {m : Machine σ} {variant : Nat}

def pairBytes (m : Machine σ) : List Byte := m.registers.a.bytes ++ m.registers.x.bytes

def Converts (m : Machine σ) (variant : Nat) : Prop :=
  ∃ i : Instruction, m.fetch = .ok i ∧ i.operation = .special ∧ i.field.val = variant

variable [Peripherals σ]

structure ReadsDigits (m : Machine σ) : Prop where
  ok : m.step.2 = .ok .proceed
  magnitude : m.step.1.registers.a.magnitude = decimalValue m.pairBytes % weight 5
  negative : m.step.1.registers.a.negative = m.registers.a.negative
  x : m.step.1.registers.x = m.registers.x
  /-- Numbers of 64 bits compute the same. -/
  bits : Guarded.fromDigits m.registers.a m.registers.x = .ok m.step.1.registers.a

structure WritesDigits (m : Machine σ) : Prop where
  ok : m.step.2 = .ok .proceed
  bytes : m.step.1.pairBytes.map Fin.val = (numeral m.registers.a.magnitude).map (30 + ·)
  negative_a : m.step.1.registers.a.negative = m.registers.a.negative
  negative_x : m.step.1.registers.x.negative = m.registers.x.negative
  /-- Numbers of 64 bits compute the same, with ten codes in an array. -/
  bits : Guarded.toDigits m.registers.a m.registers.x =
    .ok (m.step.1.registers.a, m.step.1.registers.x)

/-- Two steps that leave each byte of rA and rX with the code of its digit. -/
structure Normalizes (m : Machine σ) : Prop where
  ok : m.step.1.step.2 = .ok .proceed
  bytes : m.step.1.step.1.pairBytes.map Fin.val = m.pairBytes.map fun b => 30 + b.val % 10
  negative_a : m.step.1.step.1.registers.a.negative = m.registers.a.negative
  negative_x : m.step.1.step.1.registers.x.negative = m.registers.x.negative

section Step

theorem Converts.exists_step (h : m.Converts variant) (hvariant : variant < 3) (next : Outcome σ)
    (hperform : ∀ i : Instruction, i.operation = .special → i.field.val = variant →
      m.advance.perform m.pc i = next) :
    ∃ i : Instruction, m.step = complete i next := by
  obtain ⟨i, hfetch, hop, hfield⟩ := h
  have hadmits : i.operation.admits i.field = true := by
    rw [hop]
    exact decide_eq_true (hfield ▸ hvariant)
  exact ⟨i, by rw [step_of_fetch_ok hfetch, execute, if_pos hadmits, hperform i hop hfield]⟩

theorem Converts.step_number (h : m.Converts 0) :
    m.step.2 = .ok .proceed ∧ m.step.1.registers =
      m.registers.setA (Arithmetic.number m.registers.a m.registers.x) := by
  obtain ⟨i, hstep⟩ := h.exists_step (by decide)
    (m.advance.setRegisters
      (m.registers.setA (Arithmetic.number m.registers.a m.registers.x))).proceed
    (fun i hop hfield => by
      simp only [perform, hop, hfield]
      rfl)
  rw [hstep]
  exact ⟨rfl, rfl⟩

theorem Converts.step_characters (h : m.Converts 1) :
    m.step.2 = .ok .proceed ∧ m.step.1.registers =
      m.registers.withPair (Arithmetic.characters m.registers.a m.registers.x) := by
  obtain ⟨i, hstep⟩ := h.exists_step (by decide)
    (m.advance.setPair (Arithmetic.characters m.registers.a m.registers.x)).proceed
    (fun i hop hfield => by
      simp only [perform, hop, hfield]
      rfl)
  rw [hstep]
  exact ⟨rfl, rfl⟩

theorem Converts.readsDigits (h : m.Converts 0) : m.ReadsDigits := by
  obtain ⟨hok, hregisters⟩ := h.step_number
  refine ⟨hok, ?_, ?_, ?_, ?_⟩
  · rw [hregisters, Registers.a_setA, Arithmetic.number_eq]
    rfl
  · rw [hregisters, Registers.a_setA]
    rfl
  · rw [hregisters, Registers.x_setA]
  · rw [hregisters, Registers.a_setA]
    exact Guarded.fromDigits_eq _ _

theorem Converts.writesDigits (h : m.Converts 1) : m.WritesDigits := by
  obtain ⟨hok, hregisters⟩ := h.step_characters
  refine ⟨hok, ?_, ?_, ?_, ?_⟩
  · rw [pairBytes, hregisters, Registers.a_withPair, Registers.x_withPair,
      Arithmetic.bytes_characters]
    exact Arithmetic.map_val_code fun _ => Arithmetic.lt_of_mem_numeral
  · rw [hregisters, Registers.a_withPair]
    rfl
  · rw [hregisters, Registers.x_withPair]
    rfl
  · rw [hregisters, Registers.a_withPair, Registers.x_withPair]
    exact Guarded.toDigits_eq _ _

/-- What has been written is read back. -/
theorem Converts.restores (h : m.Converts 1) (hnext : m.step.1.Converts 0) :
    m.step.1.step.1.registers.a = m.registers.a := by
  rw [hnext.step_number.2, h.step_characters.2, Registers.a_setA, Registers.a_withPair,
    Registers.x_withPair, Arithmetic.number_characters]

/-- What has been read is written again. -/
theorem Converts.normalizes (h : m.Converts 0) (hnext : m.step.1.Converts 1)
    (hroom : decimalValue m.pairBytes < weight 5) : m.Normalizes := by
  have hread := h.readsDigits
  have hwritten := hnext.writesDigits
  have hbytes : m.step.1.step.1.pairBytes =
      (m.pairBytes.map Arithmetic.digit).map Arithmetic.code := by
    rw [pairBytes, hnext.step_characters.2, h.step_number.2, Registers.a_withPair,
      Registers.x_withPair, Registers.a_setA, Registers.x_setA]
    exact Arithmetic.bytes_characters_number hroom
  refine ⟨hwritten.ok, ?_, ?_, ?_⟩
  · rw [hbytes,
      Arithmetic.map_val_code (List.forall_mem_map.mpr fun b _ => Arithmetic.digit_lt b),
      List.map_map]
    rfl
  · rw [hwritten.negative_a, hread.negative]
  · rw [hwritten.negative_x, hread.x]

/-- `NUM` and `CHAR` are inverse, as far as rA has room for a number of ten digits. -/
theorem step_conversion (m : Machine σ) :
    (m.Converts 0 → m.ReadsDigits) ∧ (m.Converts 1 → m.WritesDigits) ∧
      (m.Converts 1 → m.step.1.Converts 0 →
        m.step.1.step.2 = .ok .proceed ∧ m.step.1.step.1.registers.a = m.registers.a) ∧
      (m.Converts 0 → m.step.1.Converts 1 → decimalValue m.pairBytes < weight 5 →
        m.Normalizes) := by
  refine ⟨fun h => h.readsDigits, fun h => h.writesDigits, ?_, ?_⟩
  · intro h hnext
    exact ⟨hnext.step_number.1, h.restores hnext⟩
  · intro h hnext hroom
    exact h.normalizes hnext hroom

end Step

/-- A machine about to read the number `12977700` from the bytes `0 0 31 32 39 37 57 47 30 30` and
to write it again. -/
def beforeConversions : Machine Unattached :=
  (ofImage ⟨4, .halt, none⟩ Unattached.mk
    [Word.wrap false 5, Word.wrap false 69, Word.wrap false 5]).setRegisters
    ((Registers.initial.setA (Word.wrap true 129063)).setX (Word.wrap false 635893662))

theorem step_conversion_twice :
    beforeConversions.Converts 0 ∧ beforeConversions.step.1.Converts 1 ∧
      beforeConversions.step.1.step.1.Converts 0 ∧ beforeConversions.ReadsDigits ∧
      beforeConversions.step.1.registers.a = Word.wrap true 12977700 ∧
      beforeConversions.step.1.WritesDigits ∧ beforeConversions.Normalizes ∧
      beforeConversions.step.1.step.1.step.1.registers.a = Word.wrap true 12977700 := by
  have hread : beforeConversions.Converts 0 := ⟨⟨.special, 0, 0, ⟨false, 0⟩⟩, rfl, rfl, rfl⟩
  have hwrite : beforeConversions.step.1.Converts 1 :=
    ⟨⟨.special, 0, 1, ⟨false, 0⟩⟩, rfl, rfl, rfl⟩
  have hagain : beforeConversions.step.1.step.1.Converts 0 :=
    ⟨⟨.special, 0, 0, ⟨false, 0⟩⟩, rfl, rfl, rfl⟩
  have hnumber : beforeConversions.step.1.registers.a = Word.wrap true 12977700 := by
    decide +kernel
  have hroom : decimalValue beforeConversions.pairBytes < weight 5 := by decide +kernel
  exact ⟨hread, hwrite, hagain, (step_conversion _).1 hread, hnumber,
    (step_conversion _).2.1 hwrite, (step_conversion _).2.2.2 hread hwrite hroom,
    ((step_conversion _).2.2.1 hwrite hagain).2.trans hnumber⟩

end MixComputer.Machine
