import MixComputer.Arithmetic
import MixComputer.Proofs.Word

/-!
Arithmetic on words as arithmetic on numbers. A word is a sign and a magnitude; sums, products and
quotients of words have the values that they should have, as far as these fit into a word, and each
operation shows whether they do.
-/
namespace MixComputer

namespace Arithmetic

variable {r v a x : Word} {n : Int}

theorem overflows_eq_false_iff : overflows r n = false ↔ Word.Fits (r.value + n) := by
  simp [overflows]

theorem value_add (h : Word.Fits (r.value + n)) : (add r n).value = r.value + n := by
  unfold add
  split
  · rename_i hzero
    rw [hzero, Word.value_eq_zero_iff, Word.magnitude_wrap]
    rfl
  · exact Word.value_ofInt h

theorem add_of_zero (h : r.value + n = 0) : add r n = Word.wrap r.negative 0 := if_pos h

theorem negative_add (h : r.value + n ≠ 0) :
    (add r n).negative = decide (r.value + n < 0) := by
  unfold add
  rw [if_neg h]
  rfl

theorem magnitude_add (r : Word) (n : Int) :
    (add r n).magnitude = (r.value + n).natAbs % weight 5 := by
  unfold add
  split
  · rename_i hzero
    simp [hzero]
  · rfl

/-- The high half of a product is empty if the product fits into a word. -/
theorem isZero_multiply_iff :
    (multiply a v).1.isZero = true ↔ Word.Fits (a.value * v.value) := by
  have hproduct : a.magnitude * v.magnitude / weight 5 < weight 5 :=
    Nat.div_lt_of_lt_mul (Nat.mul_lt_mul'' a.magnitude_lt v.magnitude_lt)
  rw [Word.value_eq_signed, Word.value_eq_signed, Word.signed_mul, Word.fits_signed_iff]
  simp only [multiply, Word.isZero, Word.magnitude_wrap, Nat.mod_eq_of_lt hproduct, beq_iff_eq]
  rw [Nat.div_eq_zero_iff_lt (weight_pos 5)]

theorem value_multiply (h : Word.Fits (a.value * v.value)) :
    (multiply a v).2.value = a.value * v.value := by
  rw [Word.value_eq_signed a, Word.value_eq_signed v, Word.signed_mul] at h ⊢
  exact Word.value_wrap _ ((Word.fits_signed_iff _ _).mp h)

/-- The pair of rA and rX has ten bytes. -/
theorem pair_lt (a x : Word) : pair a x < weight 10 := by
  have ha := a.magnitude_lt_numeral
  have hx := x.magnitude_lt_numeral
  rw [pair, weight_five, weight_ten]
  omega

def dividend (a x : Word) : Int := Word.signed a.negative (pair a x)

theorem tdiv_dividend :
    (dividend a x).tdiv v.value =
      Word.signed (a.negative != v.negative) (pair a x / v.magnitude) := by
  rw [dividend, Word.value_eq_signed v, Word.signed_tdiv]

/-- A quotient has five bytes if the high half of the dividend is less than the divisor. -/
theorem quotient_lt_iff (hv : v.magnitude ≠ 0) :
    pair a x / v.magnitude < weight 5 ↔ a.magnitude < v.magnitude := by
  have hx := x.magnitude_lt
  rw [Nat.div_lt_iff_lt_mul (Nat.pos_of_ne_zero hv), pair, Nat.mul_comm (weight 5)]
  constructor
  · intro h
    exact Nat.lt_of_mul_lt_mul_right (Nat.lt_of_le_of_lt (Nat.le_add_right _ _) h)
  · intro h
    calc a.magnitude * weight 5 + x.magnitude < (a.magnitude + 1) * weight 5 := by
          rw [Nat.add_mul, Nat.one_mul]
          omega
      _ ≤ v.magnitude * weight 5 := Nat.mul_le_mul_right _ h

theorem fits_quotient_iff (hv : v.value ≠ 0) :
    Word.Fits ((dividend a x).tdiv v.value) ↔ a.magnitude < v.magnitude := by
  rw [tdiv_dividend, Word.fits_signed_iff, quotient_lt_iff (mt v.value_eq_zero_iff.mpr hv)]

theorem divide?_eq_none (h : ¬ a.magnitude < v.magnitude) : divide? a x v = none :=
  if_pos (.inr (Nat.not_lt.mp h))

theorem divide?_eq_some (h : a.magnitude < v.magnitude) :
    ∃ remainder, divide? a x v =
      some (Word.wrap (a.negative != v.negative) (pair a x / v.magnitude), remainder) :=
  ⟨_, if_neg (by omega)⟩

/-- The magnitude of a product is all there. -/
theorem pair_multiply (a v : Word) :
    pair (multiply a v).1 (multiply a v).2 = a.magnitude * v.magnitude := by
  have hhigh : a.magnitude * v.magnitude / weight 5 < weight 5 :=
    Nat.div_lt_of_lt_mul (Nat.mul_lt_mul'' a.magnitude_lt v.magnitude_lt)
  have hkept : (multiply a v).1.magnitude = a.magnitude * v.magnitude / weight 5 :=
    Nat.mod_eq_of_lt hhigh
  have hlow : (multiply a v).2.magnitude = a.magnitude * v.magnitude % weight 5 := rfl
  rw [pair, hkept, hlow, Nat.div_add_mod']

/-- Whether a division by `v` has no result: by zero, or with a quotient of more than five bytes. -/
def Undivided (a x v : Word) : Prop := v.magnitude = 0 ∨ weight 5 ≤ pair a x / v.magnitude

theorem divide?_of_undivided (h : Undivided a x v) : divide? a x v = none := by
  refine divide?_eq_none fun hless => ?_
  have hv : v.magnitude ≠ 0 := by omega
  have hlt := (quotient_lt_iff (x := x) hv).mpr hless
  obtain hzero | hlarge := h <;> omega

/-- A division has a quotient and a remainder. -/
theorem divide?_of_not_undivided (h : ¬ Undivided a x v) :
    ∃ words, divide? a x v = some words ∧
      words.1.magnitude * v.magnitude + words.2.magnitude = pair a x ∧
      words.2.magnitude < v.magnitude ∧ words.1.negative = (a.negative != v.negative) ∧
      words.2.negative = a.negative := by
  obtain ⟨hv, hlarge⟩ := not_or.mp h
  have hquotient : pair a x / v.magnitude < weight 5 := Nat.not_le.mp hlarge
  have hremainder : pair a x % v.magnitude < v.magnitude := Nat.mod_lt _ (Nat.pos_of_ne_zero hv)
  have hdivide : ¬ (v.magnitude = 0 ∨ v.magnitude ≤ a.magnitude) :=
    not_or.mpr ⟨hv, Nat.not_le.mpr ((quotient_lt_iff hv).mp hquotient)⟩
  have hhigh : (Word.wrap (a.negative != v.negative) (pair a x / v.magnitude)).magnitude =
      pair a x / v.magnitude := Nat.mod_eq_of_lt hquotient
  have hlow : (Word.wrap a.negative (pair a x % v.magnitude)).magnitude =
      pair a x % v.magnitude := Nat.mod_eq_of_lt (Nat.lt_trans hremainder v.magnitude_lt)
  refine ⟨_, if_neg hdivide, ?_, ?_, Word.negative_wrap _ _, Word.negative_wrap _ _⟩
  · rw [hhigh, hlow, Nat.div_add_mod']
  · rwa [hlow]

@[simp]
theorem length_digits (count n : Nat) : (digits count n).length = count := by
  induction count generalizing n with
  | zero => rfl
  | succ count ih => rw [digits, List.length_append, ih, List.length_singleton]

end Arithmetic

end MixComputer
