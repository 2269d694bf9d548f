import MixComputer.Proofs.Guarded.Arithmetic
import MixComputer.Proofs.Machine.Operand

/-!
Steps that multiply and divide. The product of rA and a field has up to ten bytes, and rA and rX
hold all of them. They are the dividend of a division, which leaves a quotient and a remainder or,
if there is no quotient of five bytes, sets the overflow toggle. So a division by the same field
takes a multiplication back.
-/
namespace MixComputer

namespace Machine

variable {σ : Type} {m : Machine σ} {f : Field} {l : Nat} {v : Word}

def HasNoQuotient (m : Machine σ) (v : Word) : Prop :=
  Arithmetic.Undivided m.registers.a m.registers.x v

theorem registers_divide_of_hasNoQuotient (h : m.HasNoQuotient v) :
    (m.divide v).registers = { m.registers with overflow := true } := by
  have hnone : Arithmetic.divide? m.registers.a m.registers.x v = none :=
    Arithmetic.divide?_of_undivided h
  rw [divide, hnone]
  rfl

/-- A division does not look at where the machine is. -/
theorem registers_divide_advance (m : Machine σ) (v : Word) :
    (m.advance.divide v).registers = (m.divide v).registers := by
  have hsame : m.advance.registers = m.registers := rfl
  cases hresult : Arithmetic.divide? m.registers.a m.registers.x v with
  | none =>
    simp only [divide, hsame, hresult]
    rfl
  | some words =>
    simp only [divide, hsame, hresult]
    rfl

variable [Peripherals σ]

structure MultipliesBy (m : Machine σ) (v : Word) : Prop where
  ok : m.step.2 = .ok .proceed
  product : m.step.1.registers.a.magnitude * weight 5 + m.step.1.registers.x.magnitude =
    m.registers.a.magnitude * v.magnitude
  negative_a : m.step.1.registers.a.negative = (m.registers.a.negative != v.negative)
  negative_x : m.step.1.registers.x.negative = (m.registers.a.negative != v.negative)
  /-- Numbers of 64 bits compute the same. -/
  bits : Guarded.multiply m.registers.a v = .ok (m.step.1.registers.a, m.step.1.registers.x)

/-- A step that divides rA and rX by `v`. It sets the overflow toggle if there is no quotient, and
changes nothing else then; if there is one, the toggle stays as it is. -/
structure DividesBy (m : Machine σ) (v : Word) : Prop where
  ok : m.step.2 = .ok .proceed
  overflow : m.step.1.registers.overflow = true ↔
    m.registers.overflow = true ∨ m.HasNoQuotient v
  lost : m.HasNoQuotient v →
    m.step.1.registers.a = m.registers.a ∧ m.step.1.registers.x = m.registers.x
  bits_lost : m.HasNoQuotient v → Guarded.divide? m.registers.a m.registers.x v = .ok none
  quotient : ¬ m.HasNoQuotient v →
    m.step.1.registers.a.magnitude * v.magnitude + m.step.1.registers.x.magnitude =
      m.registers.a.magnitude * weight 5 + m.registers.x.magnitude
  remainder : ¬ m.HasNoQuotient v → m.step.1.registers.x.magnitude < v.magnitude
  negative_a : ¬ m.HasNoQuotient v →
    m.step.1.registers.a.negative = (m.registers.a.negative != v.negative)
  negative_x : ¬ m.HasNoQuotient v → m.step.1.registers.x.negative = m.registers.a.negative
  /-- Numbers of 64 bits compute the same. -/
  bits : ¬ m.HasNoQuotient v → Guarded.divide? m.registers.a m.registers.x v =
    .ok (some (m.step.1.registers.a, m.step.1.registers.x))

/-- What a multiplication leaves. -/
theorem AppliesAt.step_mul (h : m.AppliesAt .mul f l) :
    m.step.2 = .ok .proceed ∧ m.step.1.memory = m.memory ∧
      m.step.1.registers = m.registers.withPair
        (Arithmetic.multiply m.registers.a (f.extract (m.content l))) := by
  obtain ⟨i, -, -, hstep⟩ := h.exists_step rfl
    (fun f l => (m.advance.setPair
      (Arithmetic.multiply m.registers.a (f.extract (m.content l)))).proceed)
    (fun i hi => by
      rw [perform, hi]
      rfl)
  rw [hstep]
  exact ⟨rfl, rfl, rfl⟩

/-- What a division leaves. -/
theorem AppliesAt.step_div (h : m.AppliesAt .div f l) :
    m.step.2 = .ok .proceed ∧
      m.step.1.registers = (m.divide (f.extract (m.content l))).registers := by
  obtain ⟨i, -, -, hstep⟩ := h.exists_step rfl
    (fun f l => (m.advance.divide (f.extract (m.content l))).proceed)
    (fun i hi => by
      rw [perform, hi]
      rfl)
  rw [hstep]
  exact ⟨rfl, registers_divide_advance m _⟩

theorem multipliesBy (h : m.AppliesAt .mul f l) :
    m.MultipliesBy (f.extract (m.content l)) := by
  obtain ⟨hok, -, hregisters⟩ := h.step_mul
  have hpair := Arithmetic.pair_multiply m.registers.a (f.extract (m.content l))
  refine ⟨hok, ?_, ?_, ?_, ?_⟩
  · rw [hregisters, Registers.a_withPair, Registers.x_withPair]
    exact hpair
  · rw [hregisters, Registers.a_withPair]
    exact Word.negative_wrap _ _
  · rw [hregisters, Registers.x_withPair]
    exact Word.negative_wrap _ _
  · rw [hregisters, Registers.a_withPair, Registers.x_withPair]
    exact Guarded.multiply_eq _ _

theorem dividesBy (h : m.AppliesAt .div f l) : m.DividesBy (f.extract (m.content l)) := by
  obtain ⟨hok, hregisters⟩ := h.step_div
  by_cases hlost : m.HasNoQuotient (f.extract (m.content l))
  · have hnone : Arithmetic.divide? m.registers.a m.registers.x (f.extract (m.content l)) = none :=
      Arithmetic.divide?_of_undivided hlost
    rw [registers_divide_of_hasNoQuotient hlost] at hregisters
    refine ⟨hok, ?_, fun _ => ?_, fun _ => ?_, ?_, ?_, ?_, ?_, ?_⟩
    · rw [hregisters]
      exact iff_of_true rfl (.inr hlost)
    · rw [hregisters]
      exact ⟨rfl, rfl⟩
    · rw [Guarded.divide?_eq, hnone]
    all_goals exact fun hnot => absurd hlost hnot
  · obtain ⟨words, hdivide, hquotient, hremainder, ha, hx⟩ :=
      Arithmetic.divide?_of_not_undivided (a := m.registers.a) (x := m.registers.x) hlost
    have hwords : m.step.1.registers = m.registers.withPair words := by
      rw [hregisters, divide, hdivide]
      rfl
    refine ⟨hok, ?_, fun hnot => absurd hnot hlost, fun hnot => absurd hnot hlost, fun _ => ?_,
      fun _ => ?_, fun _ => ?_, fun _ => ?_, fun _ => ?_⟩
    · rw [hwords]
      exact (or_iff_left hlost).symm
    · rw [hwords, Registers.a_withPair, Registers.x_withPair]
      exact hquotient
    · rw [hwords, Registers.x_withPair]
      exact hremainder
    · rw [hwords, Registers.a_withPair]
      exact ha
    · rw [hwords, Registers.x_withPair]
      exact hx
    · rw [Guarded.divide?_eq, hdivide, hwords, Registers.a_withPair, Registers.x_withPair]

/-- A division by the same field of the same location takes a multiplication back. -/
theorem registers_step_step (hmul : m.AppliesAt .mul f l) (hdiv : m.step.1.AppliesAt .div f l)
    (hnonzero : (f.extract (m.content l)).magnitude ≠ 0) :
    m.step.1.step.2 = .ok .proceed ∧ m.step.1.step.1.registers.a = m.registers.a ∧
      m.step.1.step.1.registers.x.magnitude = 0 ∧
      m.step.1.step.1.registers.overflow = m.registers.overflow := by
  obtain ⟨-, hmemory, hregisters⟩ := hmul.step_mul
  have hproduct := multipliesBy hmul
  have hquotient := dividesBy hdiv
  have hcontent : m.step.1.content l = m.content l := by rw [content, content, hmemory]
  rw [hcontent] at hquotient
  generalize f.extract (m.content l) = v at hproduct hquotient hnonzero
  have hpositive : 0 < v.magnitude := Nat.pos_of_ne_zero hnonzero
  -- The dividend is the product, so the quotient is what rA was, and rA has five bytes.
  have hfits : ¬ m.step.1.HasNoQuotient v := by
    rintro (hzero | hlarge)
    · exact hnonzero hzero
    · rw [Arithmetic.pair, hproduct.product, Nat.mul_div_cancel _ hpositive] at hlarge
      exact absurd m.registers.a.magnitude_lt (Nat.not_lt.mpr hlarge)
  have hdivision := (hquotient.quotient hfits).trans hproduct.product
  rw [Nat.add_comm, Nat.mul_comm _ v.magnitude] at hdivision
  obtain ⟨ha, hx⟩ :=
    (Nat.div_mod_unique hpositive).mpr ⟨hdivision, hquotient.remainder hfits⟩
  rw [Nat.mul_div_cancel _ hpositive] at ha
  rw [Nat.mul_mod_left] at hx
  have hsign : m.step.1.step.1.registers.a.negative = m.registers.a.negative := by
    rw [hquotient.negative_a hfits, hproduct.negative_a, Bool.bne_assoc, bne_self_eq_false,
      Bool.bne_false]
  refine ⟨hquotient.ok, Word.ext hsign ha.symm, hx.symm, ?_⟩
  have hoverflow : m.step.1.registers.overflow = m.registers.overflow := by
    rw [hregisters]
    rfl
  rw [← hoverflow, Bool.eq_iff_iff, hquotient.overflow, or_iff_left hfits]

/-- Multiplications and divisions are exact, and a division takes a multiplication back. -/
theorem step_product (m : Machine σ) (f : Field) (l : Nat) :
    (m.AppliesAt .mul f l → m.MultipliesBy (f.extract (m.content l))) ∧
      (m.AppliesAt .div f l → m.DividesBy (f.extract (m.content l))) ∧
      (m.AppliesAt .mul f l → m.step.1.AppliesAt .div f l →
        (f.extract (m.content l)).magnitude ≠ 0 →
          m.step.1.step.2 = .ok .proceed ∧ m.step.1.step.1.registers.a = m.registers.a ∧
            m.step.1.step.1.registers.x.magnitude = 0 ∧
            m.step.1.step.1.registers.overflow = m.registers.overflow) :=
  ⟨multipliesBy, dividesBy, registers_step_step⟩

def beforeProduct : Machine Unattached :=
  (ofImage ⟨4, .halt, none⟩ Unattached.mk
    [Word.wrap false 524419, Word.wrap false 524420, Word.wrap true 1835017]).setRegisters
    (Registers.initial.setA (Word.wrap false 1000000000))

theorem step_product_minus_seven :
    beforeProduct.AppliesAt .mul .address 2 ∧ beforeProduct.step.1.AppliesAt .div .address 2 ∧
      Field.address.extract (beforeProduct.content 2) = Word.wrap true 7 ∧
      beforeProduct.MultipliesBy (Word.wrap true 7) ∧
      beforeProduct.step.1.registers.a = Word.wrap true 6 ∧
      beforeProduct.step.1.registers.x = Word.wrap true 557549056 ∧
      beforeProduct.step.1.DividesBy (Word.wrap true 7) ∧
      beforeProduct.step.1.step.1.registers.a = Word.wrap false 1000000000 := by
  have hmul : beforeProduct.AppliesAt .mul .address 2 :=
    ⟨⟨.mul, 0, 2, ⟨false, 2⟩⟩, rfl, rfl, rfl, rfl⟩
  have hdiv : beforeProduct.step.1.AppliesAt .div .address 2 :=
    ⟨⟨.div, 0, 2, ⟨false, 2⟩⟩, rfl, rfl, rfl, rfl⟩
  have hproduct := (step_product beforeProduct .address 2).1 hmul
  have hquotient := (step_product beforeProduct.step.1 .address 2).2.1 hdiv
  obtain ⟨-, hback, -⟩ := (step_product beforeProduct .address 2).2.2 hmul hdiv (by decide)
  exact ⟨hmul, hdiv, rfl, hproduct, rfl, rfl, hquotient, hback⟩

end Machine

end MixComputer
