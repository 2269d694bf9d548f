import MixComputer.Arithmetic
import MixComputer.Proofs.Memory
import MixComputer.Proofs.Registers

/-!
Words that differ at most in the sign of zero. They have the same value, so nothing that is decided
by a value tells them apart, and sums, products and partial fields of such words again differ at
most in the sign of zero.
-/
namespace MixComputer

namespace Word

def Alike (v w : Word) : Prop :=
  w.magnitude = v.magnitude ∧ (w.negative = v.negative ∨ v.magnitude = 0)

variable {v w : Word}

theorem Alike.refl (v : Word) : v.Alike v := ⟨rfl, .inl rfl⟩

theorem Alike.eq_of_ne_zero (h : v.Alike w) (hne : v.magnitude ≠ 0) : w = v :=
  Word.ext (h.2.resolve_right hne) h.1

theorem alike_of_zero (hv : v.magnitude = 0) (hw : w.magnitude = 0) : v.Alike w :=
  ⟨hw.trans hv.symm, .inr hv⟩

/-- The two cases: the words are the same, or both are zero. -/
theorem Alike.eq_or_zero (h : v.Alike w) : w = v ∨ v.magnitude = 0 ∧ w.magnitude = 0 :=
  h.2.imp (fun hsign => Word.ext hsign h.1) fun hzero => ⟨hzero, h.1.trans hzero⟩

theorem value_of_zero (h : v.magnitude = 0) : v.value = 0 := by
  unfold value
  rw [h]
  split <;> rfl

theorem Alike.value_eq (h : v.Alike w) : w.value = v.value := by
  rcases h.eq_or_zero with rfl | ⟨hv, hw⟩
  · rfl
  · rw [value_of_zero hv, value_of_zero hw]

/-- To be alike is to have the same value. -/
theorem alike_iff (v w : Word) : v.Alike w ↔ w.value = v.value := by
  refine ⟨Alike.value_eq, fun h => ?_⟩
  unfold value at h
  have hsign : w.negative = v.negative ∨ v.negative = true ∧ w.negative = false ∨
      v.negative = false ∧ w.negative = true := by
    cases v.negative <;> cases w.negative <;> simp
  rcases hsign with hsame | ⟨hv, hw⟩ | ⟨hv, hw⟩
  · rw [hsame] at h
    refine ⟨?_, .inl hsame⟩
    split at h <;> omega
  · simp only [hv, hw, if_true, Bool.false_eq_true, if_false] at h
    exact alike_of_zero (by omega) (by omega)
  · simp only [hv, hw, if_true, Bool.false_eq_true, if_false] at h
    exact alike_of_zero (by omega) (by omega)

theorem Alike.negated (h : v.Alike w) : v.negated.Alike w.negated := by
  rcases h.eq_or_zero with rfl | ⟨hv, hw⟩
  · exact Alike.refl _
  · exact alike_of_zero hv hw

/-- The low part of a word, with the sign of the word. -/
theorem Alike.withMagnitude (h : v.Alike w) (n : Nat) :
    (v.withMagnitude (v.magnitude % n)).Alike (w.withMagnitude (w.magnitude % n)) := by
  rcases h.eq_or_zero with rfl | ⟨hv, hw⟩
  · exact Alike.refl _
  · rw [hv, hw, Nat.zero_mod]
    exact alike_of_zero (Nat.zero_mod _) (Nat.zero_mod _)

end Word

theorem Field.alike_extract {v w : Word} (h : v.Alike w) (f : Field) :
    (f.extract v).Alike (f.extract w) := by
  rcases h.eq_or_zero with rfl | ⟨hv, hw⟩
  · exact Word.Alike.refl _
  · refine Word.alike_of_zero ?_ ?_ <;>
      simp only [extract, Word.magnitude_wrap, hv, hw, Nat.zero_div, Nat.zero_mod]

namespace Arithmetic

variable {v w v' w' : Word}

/-- A sum of zero keeps the sign of the register, but it is zero. -/
theorem alike_add (h : v.Alike w) (n : Int) : (add v n).Alike (add w n) := by
  unfold add
  rw [h.value_eq]
  split
  · exact Word.alike_of_zero (Nat.zero_mod _) (Nat.zero_mod _)
  · exact Word.Alike.refl _

theorem overflows_alike (h : v.Alike w) (n : Int) : overflows w n = overflows v n := by
  unfold overflows
  rw [h.value_eq]

/-- The sign of a product is that of its factors, and a product with zero is zero. -/
theorem alike_multiply (h : v.Alike w) (h' : v'.Alike w') :
    (multiply v v').1.Alike (multiply w w').1 ∧ (multiply v v').2.Alike (multiply w w').2 := by
  have hzero (a b : Word) (hproduct : a.magnitude * b.magnitude = 0) :
      (multiply a b).1.magnitude = 0 ∧ (multiply a b).2.magnitude = 0 := by
    simp only [multiply, hproduct, Word.magnitude_wrap, Nat.zero_div, Nat.zero_mod, and_self]
  by_cases hproduct : v.magnitude * v'.magnitude = 0
  · have hv := hzero v v' hproduct
    have hw := hzero w w' (by rwa [h.1, h'.1])
    exact ⟨Word.alike_of_zero hv.1 hw.1, Word.alike_of_zero hv.2 hw.2⟩
  · rw [h.eq_of_ne_zero (Nat.ne_zero_of_mul_ne_zero_left hproduct),
      h'.eq_of_ne_zero (Nat.ne_zero_of_mul_ne_zero_right hproduct)]
    exact ⟨Word.Alike.refl _, Word.Alike.refl _⟩

end Arithmetic

structure Registers.Alike (s t : Registers) : Prop where
  general : ∀ r, (s.get r).Alike (t.get r)
  j : t.j = s.j
  overflow : t.overflow = s.overflow
  comparison : t.comparison = s.comparison

namespace Registers

variable {s t : Registers}

theorem Alike.refl (s : Registers) : s.Alike s := ⟨fun _ => Word.Alike.refl _, rfl, rfl, rfl⟩

theorem Alike.set (h : s.Alike t) (r : Register) {v w : Word} (hw : v.Alike w) :
    (s.set r v).Alike (t.set r w) := by
  refine ⟨fun other => ?_, h.j, h.overflow, h.comparison⟩
  rw [get_set, get_set]
  split
  · exact hw
  · exact h.general other

/-- An index is a value. -/
theorem Alike.indexValue_eq (h : s.Alike t) (i : Fin 7) : t.indexValue i = s.indexValue i := by
  unfold indexValue
  rw [(h.general _).value_eq]

end Registers

namespace Memory

structure Alike (memory memory' : Memory) : Prop where
  size : memory'.size = memory.size
  words : ∀ l, (memory.getD l Word.zero).Alike (memory'.getD l Word.zero)

variable {memory memory' : Memory}

theorem Alike.refl (memory : Memory) : memory.Alike memory := ⟨rfl, fun _ => Word.Alike.refl _⟩

theorem Alike.write (h : memory.Alike memory') (l : Nat) {v w : Word} (hw : v.Alike w) :
    (memory.write l v).Alike (memory'.write l w) := by
  refine ⟨by rw [size_write, size_write, h.size], fun other => ?_⟩
  rw [getD_write, getD_write, h.size]
  split
  · exact hw
  · exact h.words other

end Memory

end MixComputer
