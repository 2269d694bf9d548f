import MixComputer.Proofs.Guarded.Arithmetic
import MixComputer.Proofs.Machine.Operand
import MixComputer.Proofs.Shift

/-!
Steps that shift. A shift by an address that is not negative gives rA and rX the bytes that they
should have, keeps their signs and touches nothing else, however large the address is. A shift by a
negative address is refused.
-/
namespace MixComputer

namespace Registers

variable {s : Registers} {bytes : List Byte × List Byte}

/-- The registers with other bytes in rA and rX. The signs stay. -/
def withBytes (s : Registers) (bytes : List Byte × List Byte) : Registers :=
  s.withPair (Word.ofBytes s.a.negative bytes.1, Word.ofBytes s.x.negative bytes.2)

def shifted (s : Registers) (variant k : Nat) : Registers :=
  s.withBytes (shiftedBytes variant k s.a.bytes s.x.bytes)

theorem withBytes_self (s : Registers) : s.withBytes (s.a.bytes, s.x.bytes) = s := by
  rw [withBytes, Word.ofBytes_bytes, Word.ofBytes_bytes, withPair_self]

/-- A second shift depends on the first through the bytes that it left. -/
theorem shifted_withBytes (h : bytes.1.length = 5 ∧ bytes.2.length = 5) (variant k : Nat) :
    (s.withBytes bytes).shifted variant k =
      s.withBytes (shiftedBytes variant k bytes.1 bytes.2) := by
  have ha : (s.withBytes bytes).a = Word.ofBytes s.a.negative bytes.1 := s.a_withPair _
  have hx : (s.withBytes bytes).x = Word.ofBytes s.x.negative bytes.2 := s.x_withPair _
  rw [shifted, withBytes, ha, hx, Word.bytes_ofBytes _ h.1, Word.bytes_ofBytes _ h.2]
  exact s.withPair_withPair _ _

/-- Two shifts in a row are one. -/
theorem shifted_shifted (s : Registers) (variant p q : Nat) :
    (s.shifted variant p).shifted variant q = s.shifted variant (p + q) := by
  have hlength := length_shiftedBytes s.a.length_bytes s.x.length_bytes variant p
  have hboth := shiftedBytes_shiftedBytes s.a.length_bytes s.x.length_bytes variant p q
  calc (s.shifted variant p).shifted variant q
      = s.withBytes (shiftedBytes variant q (shiftedBytes variant p s.a.bytes s.x.bytes).1
          (shiftedBytes variant p s.a.bytes s.x.bytes).2) := shifted_withBytes hlength variant q
    _ = s.shifted variant (p + q) := congrArg s.withBytes hboth

/-- `SRC` undoes `SLC`. -/
theorem shifted_rotated (s : Registers) (k : Nat) : (s.shifted 4 k).shifted 5 k = s := by
  have hlength := length_shiftedBytes s.a.length_bytes s.x.length_bytes 4 k
  have hback := shiftedBytes_rotated s.a.length_bytes s.x.length_bytes k
  calc (s.shifted 4 k).shifted 5 k
      = s.withBytes (shiftedBytes 5 k (shiftedBytes 4 k s.a.bytes s.x.bytes).1
          (shiftedBytes 4 k s.a.bytes s.x.bytes).2) := shifted_withBytes hlength 5 k
    _ = s.withBytes (s.a.bytes, s.x.bytes) := congrArg s.withBytes hback
    _ = s := s.withBytes_self

theorem shifted_eq_shift (s : Registers) (variant k : Nat) :
    s.shifted variant k = s.withPair (Arithmetic.shift variant s.a s.x k) := by
  rw [Arithmetic.shift_eq_ofBytes, shifted, withBytes]

end Registers

namespace Machine

variable {σ : Type} [Peripherals σ] {m : Machine σ} {i : Instruction}

section Step

structure ShiftsBytes (m : Machine σ) (i : Instruction) : Prop where
  shifted : 0 ≤ (m.effectiveAddress i).value →
    m.step =
      ({ m with
        registers := m.registers.shifted i.field.val (m.effectiveAddress i).value.toNat
        pc := m.pc + 1
        clock := m.clock + 2
        steps := m.steps + 1 }, .ok .proceed)
  /-- Shifts and masks of 32 and 64 bits compute the same. -/
  bits : 0 ≤ (m.effectiveAddress i).value →
    Guarded.shift i.field.val m.registers.a m.registers.x (m.effectiveAddress i).value.toNat =
      .ok (m.step.1.registers.a, m.step.1.registers.x)
  refused : (m.effectiveAddress i).value < 0 →
    m.step.2 = .error (.negativeShift m.pc (m.effectiveAddress i)) ∧
      m.step.1.registers = m.registers
  /-- The same shift once more. -/
  repeated : ∀ j : Instruction, m.step.1.fetch = .ok j → j.operation = .shift →
    j.field = i.field → 0 ≤ (m.effectiveAddress i).value →
    0 ≤ (m.step.1.effectiveAddress j).value →
    m.step.1.step.1.registers = m.registers.shifted i.field.val
      ((m.effectiveAddress i).value + (m.step.1.effectiveAddress j).value).toNat
  /-- `SLC`, and then `SRC` by as many places. -/
  undone : ∀ j : Instruction, m.step.1.fetch = .ok j → j.operation = .shift →
    i.field.val = 4 → j.field.val = 5 → 0 ≤ (m.effectiveAddress i).value →
    (m.step.1.effectiveAddress j).value = (m.effectiveAddress i).value →
    m.step.1.step.1.registers = m.registers

theorem step_eq_shift (hfetch : m.fetch = .ok i) (hop : i.operation = .shift)
    (hvariant : i.field.val < 6) :
    m.step = complete i (m.advance.shift m.pc (m.effectiveAddress i) i.field.val) := by
  have hadmits : i.operation.admits i.field = true := by
    rw [hop]
    exact decide_eq_true hvariant
  rw [step_of_fetch_ok hfetch, execute, if_pos hadmits, perform, hop]
  rfl

theorem step_eq_shifted (hfetch : m.fetch = .ok i) (hop : i.operation = .shift)
    (hvariant : i.field.val < 6) (hamount : 0 ≤ (m.effectiveAddress i).value) :
    m.step =
      ({ m with
        registers := m.registers.shifted i.field.val (m.effectiveAddress i).value.toNat
        pc := m.pc + 1
        clock := m.clock + 2
        steps := m.steps + 1 }, .ok .proceed) := by
  have hshift : m.advance.shift m.pc (m.effectiveAddress i) i.field.val =
      (m.advance.setRegisters
        (m.registers.shifted i.field.val (m.effectiveAddress i).value.toNat)).proceed := by
    rw [shift, if_neg (Int.not_lt.mpr hamount), Registers.shifted_eq_shift]
    rfl
  have htime : i.operation.time i.field = 2 := by
    rw [hop]
    rfl
  rw [step_eq_shift hfetch hop hvariant, hshift, complete_proceed]
  simp only [proceed, spend, htime, setRegisters, advance]

theorem step_of_negative_shift (hfetch : m.fetch = .ok i) (hop : i.operation = .shift)
    (hvariant : i.field.val < 6) (hamount : (m.effectiveAddress i).value < 0) :
    m.step = (m.advance, .error (.negativeShift m.pc (m.effectiveAddress i))) := by
  rw [step_eq_shift hfetch hop hvariant, shift, if_pos hamount]
  rfl

/-- A shift is a shift of the bytes of its registers, by any address that is not negative. -/
theorem step_shift {m : Machine σ} {i : Instruction} (hfetch : m.fetch = .ok i)
    (hop : i.operation = .shift) (hvariant : i.field.val < 6) : m.ShiftsBytes i where
  shifted := step_eq_shifted hfetch hop hvariant
  bits := fun hamount => by
    have hregisters : m.step.1.registers = _ :=
      congrArg (·.1.registers) (step_eq_shifted hfetch hop hvariant hamount)
    rw [hregisters, Registers.shifted_eq_shift, Registers.a_withPair, Registers.x_withPair]
    exact Guarded.shift_eq _ _ _ _
  refused := fun hamount => by
    rw [step_of_negative_shift hfetch hop hvariant hamount]
    exact ⟨rfl, rfl⟩
  repeated := fun j hfetch' hop' hfield hamount hamount' => by
    have hregisters : m.step.1.registers = _ :=
      congrArg (·.1.registers) (step_eq_shifted hfetch hop hvariant hamount)
    rw [step_eq_shifted hfetch' hop' (hfield ▸ hvariant) hamount', Int.toNat_add hamount hamount',
      ← Registers.shifted_shifted, hfield, hregisters]
  undone := fun j hfetch' hop' hleft hright hamount heq => by
    have hregisters : m.step.1.registers = _ :=
      congrArg (·.1.registers) (step_eq_shifted hfetch hop hvariant hamount)
    rw [step_eq_shifted hfetch' hop' (by omega) (heq ▸ hamount), heq, hright, hregisters, hleft]
    exact Registers.shifted_rotated _ _

end Step

def beforeRotation : Machine Unattached :=
  (ofImage ⟨4, .halt, none⟩ Unattached.mk
    [Word.wrap false 3408134, Word.wrap false 3408198]).setRegisters
    ((Registers.initial.setA (Word.ofBytes true ([1, 2, 3, 4, 5].map Byte.ofNat))).setX
      (Word.ofBytes false ([6, 7, 8, 9, 10].map Byte.ofNat)))

theorem step_shift_rotated :
    beforeRotation.fetch = .ok ⟨.shift, 0, 4, ⟨false, 13⟩⟩ ∧
      beforeRotation.ShiftsBytes ⟨.shift, 0, 4, ⟨false, 13⟩⟩ ∧
      beforeRotation.step.2 = .ok .proceed ∧
      beforeRotation.step.1.registers.a.bytes = [4, 5, 6, 7, 8].map Byte.ofNat ∧
      beforeRotation.step.1.registers.x.bytes = [9, 10, 1, 2, 3].map Byte.ofNat ∧
      beforeRotation.step.1.step.1.registers = beforeRotation.registers := by
  have hfetch : beforeRotation.fetch = .ok ⟨.shift, 0, 4, ⟨false, 13⟩⟩ := rfl
  have hnext : beforeRotation.step.1.fetch = .ok ⟨.shift, 0, 5, ⟨false, 13⟩⟩ := rfl
  have hshift := step_shift hfetch rfl (by decide)
  have hback := hshift.undone _ hnext rfl rfl rfl (by decide) rfl
  exact ⟨hfetch, hshift, rfl, rfl, rfl, hback⟩

end Machine

end MixComputer
