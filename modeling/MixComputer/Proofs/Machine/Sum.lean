import MixComputer.Proofs.Guarded.Machine
import MixComputer.Proofs.Machine.Operand

/-!
Steps that add to rA or rX. The register gets the sum if it has five bytes. Of a larger sum it keeps
the sign and the low five bytes, and the overflow toggle is set; no sum clears it. A sum that was
not too large is taken back by the opposite step.
-/
namespace MixComputer.Machine

variable {σ : Type} {m : Machine σ} {r : Register} {n : Int}

/-- The next instruction adds `n` to rA or rX: the field of a word, or the effective address. -/
inductive Adds (m : Machine σ) : Register → Int → Prop
  | add {f : Field} {l : Nat} (h : m.AppliesAt .add f l) :
      m.Adds .a (f.extract (m.content l)).value
  | subtract {f : Field} {l : Nat} (h : m.AppliesAt .sub f l) :
      m.Adds .a (-(f.extract (m.content l)).value)
  | increase {i : Instruction} {r : Register} (h : m.Transfers i r 0)
      (hr : Register.isIndex r = false) : m.Adds r (m.effectiveAddress i).value
  | decrease {i : Instruction} {r : Register} (h : m.Transfers i r 1)
      (hr : Register.isIndex r = false) : m.Adds r (-(m.effectiveAddress i).value)

def exactSum (m : Machine σ) (r : Register) (n : Int) : Int := (m.registers.get r).value + n

theorem get_addTo (m : Machine σ) (r : Register) (n : Int) :
    (m.addTo r n).registers.get r = Arithmetic.add (m.registers.get r) n :=
  (Registers.get_set m.registers r r _).trans (if_pos rfl)

theorem overflow_addTo (m : Machine σ) (r : Register) (n : Int) :
    (m.addTo r n).registers.overflow = true ↔
      m.registers.overflow = true ∨ ¬ Word.Fits (m.exactSum r n) := by
  change (m.registers.overflow || !decide (Word.Fits (m.exactSum r n))) = true ↔ _
  simp

variable [Peripherals σ]

structure AddsTo (m : Machine σ) (r : Register) (n : Int) : Prop where
  ok : m.step.2 = .ok .proceed
  /-- A sum of zero has the sign of the register. -/
  zero : m.exactSum r n = 0 →
    m.step.1.registers.get r = Word.wrap (m.registers.get r).negative 0
  fits : m.exactSum r n ≠ 0 → Word.Fits (m.exactSum r n) →
    (m.step.1.registers.get r).value = m.exactSum r n
  too_large : ¬ Word.Fits (m.exactSum r n) →
    (m.step.1.registers.get r).negative = decide (m.exactSum r n < 0) ∧
      (m.step.1.registers.get r).magnitude = (m.exactSum r n).natAbs % weight 5
  overflow : m.step.1.registers.overflow = true ↔
    m.registers.overflow = true ∨ ¬ Word.Fits (m.exactSum r n)
  /-- Numbers of 64 bits compute the same. -/
  bits : Guarded.addTo m r.val n = .ok (m.setRegisters m.step.1.registers)

/-- The second of two steps takes back the `n` that the first has added to the register `r`. Its sum
is not too large, and the overflow toggle is as it was before both. -/
structure TakesBack (m : Machine σ) (r : Register) (n : Int) : Prop where
  ok : m.step.1.step.2 = .ok .proceed
  fits : Word.Fits (m.step.1.exactSum r (-n))
  value : (m.step.1.step.1.registers.get r).value = (m.registers.get r).value
  overflow : m.step.1.step.1.registers.overflow = m.registers.overflow

section Step

theorem Adds.exists_step (h : m.Adds r n) :
    ∃ i : Instruction, m.step = complete i (m.advance.addTo r n).proceed := by
  cases h with
  | add h =>
    obtain ⟨i, -, -, hstep⟩ := h.exists_step rfl
      (fun f l => (m.advance.addTo .a (f.extract (m.content l)).value).proceed)
      (fun i hi => by
        rw [perform, hi]
        rfl)
    exact ⟨i, hstep⟩
  | subtract h =>
    obtain ⟨i, -, -, hstep⟩ := h.exists_step rfl
      (fun f l => (m.advance.addTo .a (-(f.extract (m.content l)).value)).proceed)
      (fun i hi => by
        simp only [perform, hi, Word.value_negated]
        rfl)
    exact ⟨i, hstep⟩
  | @increase i r h hr =>
    refine ⟨i, (h.step_eq (by decide)).trans ?_⟩
    simp only [transferAddress, Machine.increase, hr, Bool.false_eq_true, if_false]
  | @decrease i r h hr =>
    refine ⟨i, (h.step_eq (by decide)).trans ?_⟩
    simp only [transferAddress, Machine.increase, hr, Bool.false_eq_true, if_false]

/-- Nothing but the registers and the counters is changed. -/
theorem Adds.step (h : m.Adds r n) :
    m.step.2 = .ok .proceed ∧ m.step.1.registers = (m.addTo r n).registers ∧
      m.step.1.memory = m.memory := by
  obtain ⟨i, hstep⟩ := h.exists_step
  rw [hstep]
  exact ⟨rfl, rfl, rfl⟩

omit [Peripherals σ] in
/-- What is added comes from a word or from an address. -/
theorem Adds.natAbs_le (h : m.Adds r n) : n.natAbs ≤ 0x100000000 := by
  cases h with
  | add h => exact Guarded.natAbs_extract_le _ _
  | subtract h =>
    rw [Int.natAbs_neg]
    exact Guarded.natAbs_extract_le _ _
  | increase h hr =>
    have hlt := natAbs_effectiveAddress_lt h.1
    omega
  | decrease h hr =>
    have hlt := natAbs_effectiveAddress_lt h.1
    omega

theorem Adds.addsTo (h : m.Adds r n) : m.AddsTo r n := by
  obtain ⟨hok, hregisters, -⟩ := h.step
  have hget : m.step.1.registers.get r = Arithmetic.add (m.registers.get r) n := by
    rw [hregisters, get_addTo]
  refine ⟨hok, ?_, ?_, ?_, ?_, ?_⟩
  · intro hzero
    rw [hget]
    exact Arithmetic.add_of_zero hzero
  · intro _ hfits
    rw [hget]
    exact Arithmetic.value_add hfits
  · intro hlarge
    have hne : m.exactSum r n ≠ 0 := by
      intro hzero
      rw [hzero] at hlarge
      exact hlarge (weight_pos 5)
    rw [hget]
    exact ⟨Arithmetic.negative_add hne, Arithmetic.magnitude_add _ _⟩
  · rw [hregisters]
    exact overflow_addTo m r n
  · rw [hregisters]
    exact Guarded.addTo_eq m r h.natAbs_le

/-- A sum that is not too large is the value of the register. -/
theorem AddsTo.value (h : m.AddsTo r n) (hfits : Word.Fits (m.exactSum r n)) :
    (m.step.1.registers.get r).value = m.exactSum r n := by
  by_cases hzero : m.exactSum r n = 0
  · rw [h.zero hzero, hzero, Word.value_eq_zero_iff]
    rfl
  · exact h.fits hzero hfits

theorem AddsTo.takesBack (h : m.AddsTo r n) (hback : m.step.1.AddsTo r (-n))
    (hfits : Word.Fits (m.exactSum r n)) : m.TakesBack r n := by
  have hvalue := h.value hfits
  have hsum : m.step.1.exactSum r (-n) = (m.registers.get r).value := by
    unfold exactSum at hvalue ⊢
    omega
  have hfits' : Word.Fits (m.step.1.exactSum r (-n)) := by
    rw [hsum, Word.Fits, Word.natAbs_value]
    exact (m.registers.get r).magnitude_lt
  refine ⟨hback.ok, hfits', ?_, ?_⟩
  · rw [hback.value hfits', hsum]
  · -- Neither of the two sums is too large.
    rw [Bool.eq_iff_iff, hback.overflow, h.overflow]
    simp only [hfits, hfits', not_true_eq_false, or_false]

/-- Sums in rA and rX are exact as far as they have room, and overflow is noted where they have not.
`SUB` takes back an `ADD` of the same field of the same location that did not overflow, and `DEC`
takes back an `INC` by the same address. -/
theorem step_sum (m : Machine σ) :
    (∀ (r : Register) (n : Int), m.Adds r n → m.AddsTo r n) ∧
      (∀ (f : Field) (l : Nat), m.AppliesAt .add f l → m.step.1.AppliesAt .sub f l →
        Word.Fits (m.exactSum .a (f.extract (m.content l)).value) →
          m.TakesBack .a (f.extract (m.content l)).value) ∧
      ∀ (r : Register) (i j : Instruction), Register.isIndex r = false →
        m.Transfers i r 0 → m.step.1.Transfers j r 1 →
          (m.step.1.effectiveAddress j).value = (m.effectiveAddress i).value →
            Word.Fits (m.exactSum r (m.effectiveAddress i).value) →
              m.TakesBack r (m.effectiveAddress i).value := by
  refine ⟨fun r n h => h.addsTo, ?_, ?_⟩
  · intro f l hadd hsub hfits
    have hsum := Adds.add hadd
    have hback := (Adds.subtract hsub).addsTo
    have hcontent : m.step.1.content l = m.content l := by
      rw [content, content, hsum.step.2.2]
    rw [hcontent] at hback
    exact hsum.addsTo.takesBack hback hfits
  · intro r i j hr hinc hdec hsame hfits
    have hback := (Adds.decrease hdec hr).addsTo
    rw [hsame] at hback
    exact (Adds.increase hinc hr).addsTo.takesBack hback hfits

end Step

def beforeSums : Machine Unattached :=
  (ofImage ⟨4, .halt, none⟩ Unattached.mk
    [Word.wrap false 787265, Word.wrap false 787266, Word.wrap false 262199,
      Word.wrap true 7]).setRegisters
    ((Registers.initial.setA (Word.wrap false 1073741816)).setX (Word.wrap false 1073741823))

/-- The first sum has just enough room, and the last has not. -/
theorem step_sum_largest :
    beforeSums.Adds .a 7 ∧ beforeSums.AddsTo .a 7 ∧ beforeSums.TakesBack .a 7 ∧
      beforeSums.step.1.registers.a = Word.wrap false 1073741823 ∧
      beforeSums.step.1.step.1.Adds .x 1 ∧ beforeSums.step.1.step.1.AddsTo .x 1 ∧
      beforeSums.step.1.step.1.step.1.registers.x = Word.wrap false 0 ∧
      beforeSums.step.1.step.1.step.1.registers.overflow = true := by
  have hadd : beforeSums.AppliesAt .add ⟨1, 5, by decide, by decide⟩ 3 :=
    ⟨⟨.add, 0, 13, ⟨false, 3⟩⟩, rfl, rfl, rfl, rfl⟩
  have hsub : beforeSums.step.1.AppliesAt .sub ⟨1, 5, by decide, by decide⟩ 3 :=
    ⟨⟨.sub, 0, 13, ⟨false, 3⟩⟩, rfl, rfl, rfl, rfl⟩
  have hinc : beforeSums.step.1.step.1.Transfers ⟨.addressTransfer .x, 0, 0, ⟨false, 1⟩⟩ .x 0 :=
    ⟨rfl, rfl, rfl⟩
  have hsum : beforeSums.Adds .a 7 := Adds.add hadd
  have hlarge : beforeSums.step.1.step.1.Adds .x 1 := Adds.increase hinc rfl
  exact ⟨hsum, (step_sum _).1 _ _ hsum, (step_sum _).2.1 _ _ hadd hsub (by decide), rfl, hlarge,
    (step_sum _).1 _ _ hlarge, rfl, rfl⟩

end MixComputer.Machine
