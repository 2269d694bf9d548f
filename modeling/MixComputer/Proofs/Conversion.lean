import Mathlib.Data.Nat.Digits.Lemmas
import MixComputer.Proofs.Arithmetic
import MixComputer.Proofs.Bytes

/-!
Decimal numerals. A magnitude has less than ten digits, so its numeral of ten digits writes all of
it, and ten bytes, each taken for a digit, show a number of ten digits. A word that is turned into
character codes is read back from them. The other way around each byte becomes the code of its
digit, if the number has room in a word.
-/
namespace MixComputer.Arithmetic

variable {a x : Word} {count n : Nat} {bytes : List Byte}

def numeral (n : Nat) : List Nat := (Nat.digitsAppend 10 10 n).reverse

def digit (b : Byte) : Nat := b.val % 10

/-- The number whose decimal digits the bytes show, the high digit first. -/
def decimalValue (bytes : List Byte) : Nat := Nat.ofDigits 10 (bytes.map digit).reverse

section Digits

theorem digit_lt (b : Byte) : digit b < 10 := Nat.mod_lt _ (by decide)

theorem lt_of_mem_digits {d : Nat} (h : d ∈ digits count n) : d < 10 := by
  induction count generalizing n with
  | zero => cases h
  | succ count ih =>
    rw [digits, List.mem_append, List.mem_singleton] at h
    rcases h with hhigh | rfl
    · exact ih hhigh
    · exact Nat.mod_lt _ (by decide)

/-- The digits that are there write the number modulo a power of ten. -/
theorem ofDigits_digits (count n : Nat) :
    Nat.ofDigits 10 (digits count n).reverse = n % 10 ^ count := by
  induction count generalizing n with
  | zero => exact (Nat.mod_one n).symm
  | succ count ih =>
    rw [digits, List.reverse_append, List.reverse_singleton, List.singleton_append,
      Nat.ofDigits_cons, ih, Nat.pow_succ', Nat.mod_mul]

/-- Ten digits are the numeral of the number that they write. -/
theorem numeral_ofDigits {L : List Nat} (hlength : L.length = 10) (hdigit : ∀ d ∈ L, d < 10) :
    numeral (Nat.ofDigits 10 L.reverse) = L := by
  have hinverse := (Nat.setInvOn_digitsAppend_ofDigits (by decide : 1 < 10) 10).1
  have hreverse : Nat.digitsAppend 10 10 (Nat.ofDigits 10 L.reverse) = L.reverse := by
    apply hinverse
    constructor
    · rw [List.length_reverse, hlength]
    · intro d hd
      exact hdigit d (List.mem_reverse.mp hd)
  rw [numeral, hreverse, List.reverse_reverse]

example : numeral 12977700 = [0, 0, 1, 2, 9, 7, 7, 7, 0, 0] := by decide +kernel

theorem digits_eq_numeral (h : n < 10 ^ 10) : digits 10 n = numeral n := by
  have hnumeral := numeral_ofDigits (length_digits 10 n) (fun _ => lt_of_mem_digits)
  rw [ofDigits_digits, Nat.mod_eq_of_lt h] at hnumeral
  exact hnumeral.symm

theorem length_numeral (h : n < 10 ^ 10) : (numeral n).length = 10 := by
  rw [← digits_eq_numeral h, length_digits]

theorem lt_of_mem_numeral {d : Nat} (h : d ∈ numeral n) : d < 10 :=
  Nat.lt_of_mem_digitsAppend (by decide) 10 d (List.mem_reverse.mp h)

theorem ofDigits_numeral (n : Nat) : Nat.ofDigits 10 (numeral n).reverse = n := by
  rw [numeral, List.reverse_reverse, Nat.digitsAppend, Nat.ofDigits_append_replicate_zero,
    Nat.ofDigits_digits]

theorem magnitude_lt_ten_pow (a : Word) : a.magnitude < 10 ^ 10 :=
  Nat.lt_trans a.magnitude_lt_numeral (by decide)

end Digits

section Bytes

theorem decimalValue_eq_foldl (bytes : List Byte) :
    decimalValue bytes = bytes.foldl (fun n b => 10 * n + b.val % 10) 0 := by
  rw [decimalValue, Nat.ofDigits_eq_foldr, List.foldr_reverse, List.foldl_map]
  refine congrArg (fun step => bytes.foldl step 0) ?_
  funext n b
  exact Nat.add_comm _ _

/-- Ten bytes show the numeral of their value. -/
theorem numeral_decimalValue (h : bytes.length = 10) :
    numeral (decimalValue bytes) = bytes.map digit := by
  apply numeral_ofDigits
  · rw [List.length_map, h]
  · exact List.forall_mem_map.mpr fun b _ => digit_lt b

def code (d : Nat) : Byte := Byte.ofNat (Alphabet.digitZero + d)

theorem val_code {d : Nat} (h : d < 10) : (code d).val = 30 + d := by
  have hsix : Alphabet.digitZero + d < 64 := by
    rw [Alphabet.digitZero]
    omega
  exact Nat.mod_eq_of_lt hsix

theorem digit_code {d : Nat} (h : d < 10) : digit (code d) = d := by
  rw [digit, val_code h]
  omega

/-- The codes of digits show the digits. -/
theorem map_digit_code {L : List Nat} (h : ∀ d ∈ L, d < 10) : (L.map code).map digit = L := by
  have hid : L.map (digit ∘ code) = L.map id := by
    apply List.map_congr_left
    intro d hd
    exact digit_code (h d hd)
  rw [List.map_map, hid, List.map_id]

theorem map_val_code {L : List Nat} (h : ∀ d ∈ L, d < 10) :
    (L.map code).map Fin.val = L.map (30 + ·) := by
  rw [List.map_map]
  apply List.map_congr_left
  intro d hd
  exact val_code (h d hd)

end Bytes

section Words

theorem number_eq (a x : Word) :
    number a x = a.withMagnitude (decimalValue (a.bytes ++ x.bytes)) := by
  rw [decimalValue_eq_foldl]
  rfl

theorem characters_eq (a x : Word) :
    characters a x =
      (Word.ofBytes a.negative (((numeral a.magnitude).map code).take 5),
        Word.ofBytes x.negative (((numeral a.magnitude).map code).drop 5)) := by
  rw [← digits_eq_numeral (magnitude_lt_ten_pow a)]
  rfl

/-- The ten bytes of both words are the codes of the numeral. -/
theorem bytes_characters (a x : Word) :
    (characters a x).1.bytes ++ (characters a x).2.bytes = (numeral a.magnitude).map code := by
  have hlength : ((numeral a.magnitude).map code).length = 10 := by
    rw [List.length_map, length_numeral (magnitude_lt_ten_pow a)]
  rw [characters_eq]
  rw [Word.bytes_ofBytes _ (by rw [List.length_take]; omega),
    Word.bytes_ofBytes _ (by rw [List.length_drop]; omega), List.take_append_drop]

/-- A word that has been turned into codes is read back. -/
theorem number_characters (a x : Word) : number (characters a x).1 (characters a x).2 = a := by
  have hdigits : ∀ d ∈ numeral a.magnitude, d < 10 := fun _ => lt_of_mem_numeral
  have hvalue : decimalValue ((characters a x).1.bytes ++ (characters a x).2.bytes) =
      a.magnitude := by
    rw [bytes_characters, decimalValue, map_digit_code hdigits, ofDigits_numeral]
  rw [number_eq, hvalue, characters_eq]
  exact Word.ext rfl (Nat.mod_eq_of_lt a.magnitude_lt)

/-- A number that has room in a word is turned back into the codes of the digits that it was read
from. -/
theorem bytes_characters_number (h : decimalValue (a.bytes ++ x.bytes) < weight 5) :
    (characters (number a x) x).1.bytes ++ (characters (number a x) x).2.bytes =
      ((a.bytes ++ x.bytes).map digit).map code := by
  have hmagnitude : (number a x).magnitude = decimalValue (a.bytes ++ x.bytes) := by
    rw [number_eq]
    exact Nat.mod_eq_of_lt h
  have hlength : (a.bytes ++ x.bytes).length = 10 := by
    rw [List.length_append, Word.length_bytes, Word.length_bytes]
  rw [bytes_characters, hmagnitude, numeral_decimalValue hlength]

end Words

end MixComputer.Arithmetic
