import MixComputer.Field

/-!
Words as numbers, a sign and a magnitude, and the two fields that the assembler writes: the whole
word and the address part. A value that fits into a word is read back, and the address part is
replaced without touching the three bytes to its right.
-/
namespace MixComputer

theorem weight_two : weight 2 = 4096 := by simp only [weight]

theorem weight_three : weight 3 = 262144 := by simp only [weight]

theorem weight_five : weight 5 = 1073741824 := by simp only [weight]

theorem weight_ten : weight 10 = 1152921504606846976 := by simp only [weight]

namespace Byte

@[simp]
theorem val_ofNat (n : Nat) : (Byte.ofNat n).val = n % 64 := rfl

theorem ofNat_val (b : Byte) : Byte.ofNat b.val = b := by
  apply Fin.ext
  rw [val_ofNat]
  exact Nat.mod_eq_of_lt b.isLt

end Byte

namespace Word

theorem magnitude_lt_numeral (w : Word) : w.magnitude < 1073741824 := by
  rw [← weight_five]
  exact w.magnitude_lt

/-- A packed word has 31 bits. -/
theorem bits_lt (w : Word) : w.bits < 0x80000000 := by
  have h := w.magnitude_lt_numeral
  unfold bits
  rw [weight_five]
  split <;> omega

/-- Any 31 bits are a packed word. -/
theorem bits_ofBits {n : Nat} (h : n < 0x80000000) : (ofBits n).bits = n := by
  rw [bits, ofBits, negative_wrap, magnitude_wrap, weight_five]
  by_cases hsign : n / 1073741824 % 2 = 1
  · rw [if_pos (by simpa using hsign)]
    omega
  · rw [if_neg (by simpa using hsign)]
    omega

theorem value_ofInt {v : Int} (h : Fits v) : (ofInt v).value = v := by
  have hm : (ofInt v).magnitude = v.natAbs := Nat.mod_eq_of_lt h
  unfold value
  rw [hm]
  by_cases hv : v < 0
  · simp only [ofInt, negative_wrap, hv, decide_true, if_true]
    omega
  · simp only [ofInt, negative_wrap, hv, decide_false, Bool.false_eq_true, if_false]
    omega

def signed (negative : Bool) (n : Nat) : Int := if negative then -(n : Int) else n

theorem value_eq_signed (w : Word) : w.value = signed w.negative w.magnitude := rfl

@[simp]
theorem natAbs_signed (negative : Bool) (n : Nat) : (signed negative n).natAbs = n := by
  unfold signed
  split <;> omega

theorem fits_signed_iff (negative : Bool) (n : Nat) : Fits (signed negative n) ↔ n < weight 5 := by
  rw [Fits, natAbs_signed]

theorem value_wrap (negative : Bool) {n : Nat} (h : n < weight 5) :
    (wrap negative n).value = signed negative n := by
  rw [value_eq_signed, negative_wrap, magnitude_wrap, Nat.mod_eq_of_lt h]

theorem natAbs_value (w : Word) : w.value.natAbs = w.magnitude := natAbs_signed _ _

theorem natAbs_value_lt (w : Word) : w.value.natAbs < 1073741824 := by
  rw [natAbs_value]
  exact w.magnitude_lt_numeral

theorem value_eq_zero_iff (w : Word) : w.value = 0 ↔ w.magnitude = 0 := by
  rw [← natAbs_value, Int.natAbs_eq_zero]

theorem value_negated (w : Word) : w.negated.value = -w.value := by
  cases hsign : w.negative <;> simp [value, negated, hsign]

/-- The sign of a product says whether the signs of its factors differ. -/
theorem signed_mul (p q : Bool) (n k : Nat) :
    signed p n * signed q k = signed (p != q) (n * k) := by
  have hproduct := (Int.natCast_mul n k).symm
  cases p
  · cases q
    · exact hproduct
    · exact (Int.mul_neg (n : Int) k).trans (congrArg Neg.neg hproduct)
  · cases q
    · exact (Int.neg_mul (n : Int) k).trans (congrArg Neg.neg hproduct)
    · exact (Int.neg_mul_neg (n : Int) k).trans hproduct

theorem signed_tdiv (p q : Bool) (n k : Nat) :
    (signed p n).tdiv (signed q k) = signed (p != q) (n / k) := by
  cases p <;> cases q <;> simp [signed, Int.neg_tdiv, Int.tdiv_neg]

end Word

namespace Field

theorem code_of_ofCode? {code : Nat} {f : Field} (h : ofCode? code = some f) : f.code = code := by
  unfold ofCode? ofBounds? at h
  split at h
  · obtain rfl := Option.some.inj h
    change 8 * (code / 8) + code % 8 = code
    omega
  · cases h

theorem unit_whole : Field.whole.unit = 1 := rfl

theorem span_whole : Field.whole.span = weight 5 := rfl

theorem unit_address : Field.address.unit = weight 3 := rfl

theorem span_address : Field.address.span = weight 2 := rfl

@[simp]
theorem insert_whole (w source : Word) : Field.whole.insert w source = source := by
  have hs := source.magnitude_lt_numeral
  have hw := w.magnitude_lt_numeral
  apply Word.ext
  · rw [insert, Word.negative_wrap]
    rfl
  · rw [insert, Word.magnitude_wrap, unit_whole, span_whole, weight_five]
    omega

/-- Replacing the address part keeps the index, the `F` part and the operation code. -/
theorem magnitude_insert_address (w source : Word) :
    (Field.address.insert w source).magnitude =
      source.magnitude % weight 2 * weight 3 + w.magnitude % weight 3 := by
  have hw := w.magnitude_lt_numeral
  rw [insert, Word.magnitude_wrap, unit_address, span_address, weight_two, weight_three,
    weight_five]
  omega

@[simp]
theorem negative_insert_address (w source : Word) :
    (Field.address.insert w source).negative = source.negative := by
  rw [insert, Word.negative_wrap]
  rfl

end Field

end MixComputer
