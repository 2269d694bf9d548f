import MixComputer.Proofs.Arithmetic
import MixComputer.Proofs.Guarded.Word

/-!
Products, quotients, shifts and conversions in numbers of fixed width. The pair of rA and rX has
60 bits, which leaves room in 64: no product overflows, no division lacks a divisor, and no shift
is by the whole width.
-/
namespace MixComputer.Guarded

def wordBits : Guarded Nat := mul .w32 6 5

theorem wordBits_eq : wordBits = .ok (5 * 6) := rfl

def pair (a x : Word) : Guarded Nat := do
  return (← shiftLeft .w64 a.magnitude (← wordBits)) ||| x.magnitude

theorem pair_eq (a x : Word) : pair a x = .ok (Arithmetic.pair a x) := by
  have ha := a.magnitude_lt_numeral
  have hshift : shiftLeft .w64 a.magnitude (5 * 6) = .ok (a.magnitude * weight 5) := by
    rw [shiftLeft_eq (by decide), shiftLeft_bytes, weight_five,
      Nat.mod_eq_of_lt (by simp only [Width.limit]; omega)]
  simp only [pair, wordBits_eq, hshift, or_bytes x.magnitude_lt, ok_bind, pure_eq, Arithmetic.pair]

section Words

/-- A word keeps the low five bytes, also of a number that has been cut to 32 bits. -/
theorem wrap_cast (negative : Bool) (n : Nat) :
    Word.wrap negative (cast .w32 n) = Word.wrap negative n := by
  apply Word.ext
  · rfl
  · simp only [Word.magnitude_wrap, cast, Width.limit, weight_five]
    omega

theorem wrap_and (negative : Bool) (n : Nat) :
    Word.wrap negative (n &&& 0x3fffffff) = Word.wrap negative n := by
  apply Word.ext
  · rfl
  · rw [and_five_bytes, Word.magnitude_wrap, Word.magnitude_wrap, Nat.mod_mod]

theorem shiftRight_word (n : Nat) : shiftRight .w64 n (5 * 6) = .ok (n / weight 5) := by
  rw [shiftRight_eq (by decide), shiftRight_bytes]

end Words

section Division

def multiply (a v : Word) : Guarded (Word × Word) := do
  let negative := a.negative != v.negative
  let product ← mul .w64 a.magnitude v.magnitude
  let high ← shiftRight .w64 product (← wordBits)
  return (Word.wrap negative (cast .w32 high),
    Word.wrap negative (cast .w32 (product &&& 0x3fffffff)))

def divide? (a x v : Word) : Guarded (Option (Word × Word)) :=
  if v.magnitude = 0 ∨ v.magnitude ≤ a.magnitude then .ok none
  else do
    let dividend ← pair a x
    let quotient ← div dividend v.magnitude
    let remainder ← mod dividend v.magnitude
    return some (Word.wrap (a.negative != v.negative) (cast .w32 quotient),
      Word.wrap a.negative (cast .w32 remainder))

theorem multiply_eq (a v : Word) : multiply a v = .ok (Arithmetic.multiply a v) := by
  have hproduct : a.magnitude * v.magnitude < Width.w64.limit := by
    have hle := Nat.mul_le_mul (Nat.le_of_lt a.magnitude_lt_numeral)
      (Nat.le_of_lt v.magnitude_lt_numeral)
    exact Nat.lt_of_le_of_lt hle (by decide)
  simp only [multiply, mul_eq hproduct, wordBits_eq, shiftRight_word, ok_bind, pure_eq, wrap_cast,
    wrap_and, Arithmetic.multiply]

/-- Where there is a division there is a divisor. -/
theorem divide?_eq (a x v : Word) : divide? a x v = .ok (Arithmetic.divide? a x v) := by
  unfold divide? Arithmetic.divide?
  split
  · rfl
  · rename_i hdivides
    have hv : v.magnitude ≠ 0 := fun hzero => hdivides (.inl hzero)
    simp only [pair_eq, div_eq hv, mod_eq hv, ok_bind, pure_eq, wrap_cast]

end Division

section Shifts

def pairMask : Guarded Nat := do sub (← shiftLeft .w64 1 (← mul .w32 2 (← wordBits))) 1

def shiftWord (variant : Nat) (a : Word) (count : Nat) : Guarded Nat :=
  if 5 ≤ count then .ok 0
  else do
    let amount ← mul .w32 (cast .w32 count) 6
    if variant = 0 then return (← shiftLeft .w32 a.magnitude amount) &&& 0x3fffffff
    else shiftRight .w32 a.magnitude amount

/-- Both registers rotated to the left or right. A shift by all 60 bits is avoided. -/
def rotate (ones variant n count : Nat) : Guarded Nat := do
  let amount ← mul .w32 (cast .w32 (← mod count 10)) 6
  if amount = 0 then return n
  else
    let back ← sub (← mul .w32 2 (← wordBits)) amount
    if variant = 4 then
      return ((← shiftLeft .w64 n amount) ||| (← shiftRight .w64 n back)) &&& ones
    else return ((← shiftRight .w64 n amount) ||| (← shiftLeft .w64 n back)) &&& ones

def shiftPair (ones variant n count : Nat) : Guarded Nat :=
  if (variant = 2 ∨ variant = 3) ∧ 10 ≤ count then .ok 0
  else if variant = 2 then do
    return (← shiftLeft .w64 n (← mul .w32 (cast .w32 count) 6)) &&& ones
  else if variant = 3 then do shiftRight .w64 n (← mul .w32 (cast .w32 count) 6)
  else rotate ones variant n count

def shift (variant : Nat) (a x : Word) (count : Nat) : Guarded (Word × Word) := do
  let ones ← pairMask
  let n ← pair a x
  if variant ≤ 1 then return (a.withMagnitude (← shiftWord variant a count), x)
  else
    let shifted ← shiftPair ones variant n count
    let high ← shiftRight .w64 shifted (← wordBits)
    return (a.withMagnitude (cast .w32 high),
      x.withMagnitude (cast .w32 (shifted &&& 0x3fffffff)))

variable {n k count : Nat}

theorem pairMask_eq : pairMask = .ok (weight 10 - 1) := by
  rw [weight_ten]
  rfl

/-- The number of bits that so many bytes have. -/
theorem amount_eq (hk : k < 10) : mul .w32 (cast .w32 k) 6 = .ok (k * 6) := by
  rw [cast_eq (by simp only [Width.limit]; omega), mul_eq (by simp only [Width.limit]; omega)]

theorem shiftWord_left (a : Word) (count : Nat) :
    shiftWord 0 a count = .ok (Arithmetic.shiftLeft 5 a.magnitude count) := by
  unfold shiftWord Arithmetic.shiftLeft
  split
  · rfl
  · rename_i hcount
    rw [amount_eq (by omega), ok_bind, if_pos rfl, shiftLeft_eq (by simp only [Width.bits]; omega),
      ok_bind, shiftLeft_bytes, and_five_bytes, pure_eq]
    simp only [Width.limit, weight_five]
    congr 1
    omega

theorem shiftWord_right (a : Word) (count : Nat) :
    shiftWord 1 a count = .ok (Arithmetic.shiftRight 5 a.magnitude count) := by
  unfold shiftWord Arithmetic.shiftRight
  split
  · rfl
  · rename_i hcount
    rw [amount_eq (by omega), ok_bind, if_neg Nat.one_ne_zero]
    exact shiftRight_magnitude a rfl (by omega)

/-- The bytes that leave one end come in at the other. -/
theorem rotate_bytes (hn : n < weight 10) (hk : k ≤ 10) :
    (n * weight k % Width.w64.limit ||| n / weight (10 - k)) &&& (weight 10 - 1) =
      n * weight k % weight 10 + n / weight (10 - k) := by
  have hwhole : weight 10 = weight (10 - k) * weight k := by
    rw [← weight_add, Nat.sub_add_cancel hk]
  have hcut : n * weight k % Width.w64.limit % weight 10 = n * weight k % weight 10 := by
    rw [weight_ten]
    simp only [Width.limit]
    omega
  have hlow : n / weight (10 - k) < weight k := Nat.div_lt_of_lt_mul (hwhole ▸ hn)
  have hfits : n / weight (10 - k) % weight 10 = n / weight (10 - k) :=
    Nat.mod_eq_of_lt (Nat.lt_of_lt_of_le hlow (weight_le hk))
  have hhigh : n * weight k % weight 10 = n % weight (10 - k) * weight k := by
    rw [hwhole, Nat.mul_mod_mul_right]
  rw [Nat.and_or_distrib_right, and_bytes, and_bytes, hcut, hfits, hhigh, or_bytes hlow]

/-- A number of ten bytes that is moved within 64 bits. -/
theorem shiftLeft_pair (hk : k ≤ 10) :
    shiftLeft .w64 n (k * 6) = .ok (n * weight k % Width.w64.limit) := by
  rw [shiftLeft_eq (by simp only [Width.bits]; omega), shiftLeft_bytes]

theorem shiftRight_pair (hk : k ≤ 10) : shiftRight .w64 n (k * 6) = .ok (n / weight k) := by
  rw [shiftRight_eq (by simp only [Width.bits]; omega), shiftRight_bytes]

theorem rotate_eq (hn : n < weight 10) (variant count : Nat) :
    rotate (weight 10 - 1) variant n count =
      .ok (if variant = 4 then Arithmetic.rotateLeft n count
        else Arithmetic.rotateRight n count) := by
  have hk : count % 10 < 10 := Nat.mod_lt count (by decide)
  have hback : sub (2 * (5 * 6)) (count % 10 * 6) = .ok ((10 - count % 10) * 6) := by
    rw [sub_eq (by omega), Nat.sub_mul]
  have hfull : mul .w32 2 (5 * 6) = .ok (2 * (5 * 6)) := rfl
  have hpair (k : Nat) (hle : k ≤ 10) := rotate_bytes hn hle
  unfold rotate Arithmetic.rotateLeft Arithmetic.rotateRight
  rw [mod_eq (by decide), ok_bind, amount_eq hk, ok_bind]
  by_cases hnone : count % 10 = 0
  · have hzero : n / weight 10 = 0 := Nat.div_eq_of_lt hn
    have hsame : n % weight 10 = n := Nat.mod_eq_of_lt hn
    have hnothing : n * weight 10 % weight 10 = 0 := Nat.mul_mod_left n (weight 10)
    rw [hnone, if_pos (Nat.zero_mul 6), Nat.sub_zero, hzero, hnothing, weight, Nat.mul_one, hsame,
      Nat.div_one, Nat.add_zero, ite_self, pure_eq]
  · have hmoved : ¬ count % 10 * 6 = 0 := by omega
    rw [if_neg hmoved, wordBits_eq, ok_bind, hfull, ok_bind, hback, ok_bind,
      shiftLeft_pair (by omega), shiftRight_pair (by omega), shiftLeft_pair (by omega),
      shiftRight_pair (by omega)]
    split
    · exact congrArg _ (hpair (count % 10) (by omega))
    · have hright := hpair (10 - count % 10) (by omega)
      rw [Nat.sub_sub_self (by omega)] at hright
      rw [ok_bind, ok_bind, Nat.or_comm, hright, Nat.add_comm, pure_eq]

theorem shiftPair_eq (hn : n < weight 10) (variant count : Nat) :
    shiftPair (weight 10 - 1) variant n count =
      .ok (if variant = 2 then Arithmetic.shiftLeft 10 n count
        else if variant = 3 then Arithmetic.shiftRight 10 n count
        else if variant = 4 then Arithmetic.rotateLeft n count
        else Arithmetic.rotateRight n count) := by
  unfold shiftPair Arithmetic.shiftLeft Arithmetic.shiftRight
  by_cases hmoves : variant = 2 ∨ variant = 3
  · by_cases hall : 10 ≤ count
    · rw [if_pos ⟨hmoves, hall⟩, if_pos hall, if_pos hall]
      rcases hmoves with rfl | rfl <;> rfl
    · have hcut :
          n * weight count % Width.w64.limit % weight 10 = n * weight count % weight 10 := by
        rw [weight_ten]
        simp only [Width.limit]
        omega
      rw [if_neg fun h => hall h.2, if_neg hall, if_neg hall, amount_eq (by omega), ok_bind,
        ok_bind, shiftLeft_pair (by omega), shiftRight_pair (by omega), ok_bind, and_bytes, hcut]
      rcases hmoves with rfl | rfl <;> rfl
  · have hleft : ¬ variant = 2 := fun h => hmoves (.inl h)
    have hright : ¬ variant = 3 := fun h => hmoves (.inr h)
    rw [if_neg fun h => hmoves h.1, if_neg hleft, if_neg hright, if_neg hleft, if_neg hright]
    exact rotate_eq hn variant count

theorem shift_eq_split {variant : Nat} (h : ¬ variant ≤ 1) (a x : Word) (count : Nat) :
    Arithmetic.shift variant a x count =
      Arithmetic.split a x
        (if variant = 2 then Arithmetic.shiftLeft 10 (Arithmetic.pair a x) count
        else if variant = 3 then Arithmetic.shiftRight 10 (Arithmetic.pair a x) count
        else if variant = 4 then Arithmetic.rotateLeft (Arithmetic.pair a x) count
        else Arithmetic.rotateRight (Arithmetic.pair a x) count) := by
  unfold Arithmetic.shift
  split
  case h_1 | h_2 => exact absurd (by decide) h
  case h_3 => rw [if_pos rfl]
  case h_4 => rw [if_neg (by decide), if_pos rfl]
  case h_5 => rw [if_neg (by decide), if_neg (by decide), if_pos rfl]
  case h_6 hleft hright hrotate => rw [if_neg hleft, if_neg hright, if_neg hrotate]

/-- No shift is by more than nine bytes. -/
theorem shift_eq (variant : Nat) (a x : Word) (count : Nat) :
    shift variant a x count = .ok (Arithmetic.shift variant a x count) := by
  unfold shift
  rw [pairMask_eq, ok_bind, pair_eq, ok_bind]
  by_cases hword : variant ≤ 1
  · rw [if_pos hword]
    obtain rfl | rfl : variant = 0 ∨ variant = 1 := by omega
    · rw [shiftWord_left]
      rfl
    · rw [shiftWord_right]
      rfl
  · rw [if_neg hword, shiftPair_eq (Arithmetic.pair_lt a x), ok_bind, wordBits_eq, ok_bind,
      shiftRight_word, ok_bind, pure_eq, shift_eq_split hword, Arithmetic.split,
      Word.withMagnitude, Word.withMagnitude, Word.withMagnitude, Word.withMagnitude, wrap_cast,
      wrap_cast, wrap_and]

end Shifts

section Conversions

def fromDigits (a x : Word) : Guarded Word := do
  let n ← ((← bytes a) ++ (← bytes x)).foldlM
    (fun n b => do add .w64 (← mul .w64 n 10) (← mod b 10)) 0
  return a.withMagnitude (cast .w32 (← mod n (← add .w64 0x3fffffff 1)))

def digitCodes : (count : Nat) → Nat → Guarded (List Nat)
  | 0, _ => .ok []
  | count + 1, n => do
    let code ← add .w8 Alphabet.digitZero (cast .w8 (← mod n 10))
    return (← digitCodes count (← div n 10)) ++ [code]

/-- A part of an array that is copied to another array of `count` places. -/
def part (xs : List Nat) (start stop count : Nat) : Guarded (List Nat) :=
  if start ≤ stop ∧ stop ≤ xs.length ∧ stop - start = count then
    .ok ((xs.take stop).drop start)
  else .error .index

def toDigits (a x : Word) : Guarded (Word × Word) := do
  let all ← digitCodes 10 a.magnitude
  let high ← part all 0 5 5
  let low ← part all 5 10 5
  return (← ofBytes a.negative high, ← ofBytes x.negative low)

/-- Ten digits have room in 64 bits, even if each of them had six. -/
theorem foldlM_digits {j n : Nat} (digits : List Byte) (hn : n < weight j)
    (hroom : j + digits.length ≤ 10) :
    (digits.map Fin.val).foldlM
        (fun n b => do add .w64 (← mul .w64 n 10) (← mod b 10) : Nat → Nat → Guarded Nat) n =
      .ok (digits.foldl (fun n b => 10 * n + b.val % 10) n) := by
  induction digits generalizing n j with
  | nil => rfl
  | cons b digits ih =>
    rw [List.length_cons] at hroom
    have hdigit : b.val % 10 < 10 := Nat.mod_lt _ (by decide)
    have hnext : 10 * n + b.val % 10 < weight (j + 1) := by
      rw [weight]
      omega
    have hlimit : weight (j + 1) ≤ weight 10 := weight_le (by omega)
    rw [weight_ten] at hlimit
    have hmul : mul .w64 n 10 = .ok (n * 10) := mul_eq (by simp only [Width.limit]; omega)
    have hadd : add .w64 (n * 10) (b.val % 10) = .ok (10 * n + b.val % 10) := by
      rw [add_eq (by simp only [Width.limit]; omega), Nat.mul_comm]
    rw [List.map_cons, List.foldlM_cons, List.foldl_cons, hmul, ok_bind, mod_eq (by decide),
      ok_bind, hadd, ok_bind]
    exact ih hnext (by omega)

theorem fromDigits_eq (a x : Word) : fromDigits a x = .ok (Arithmetic.number a x) := by
  have hfold := foldlM_digits (a.bytes ++ x.bytes) (n := 0) (j := 0) (by decide)
    (Nat.le_refl 10)
  have hlow (n : Nat) : a.withMagnitude (n % 0x40000000) = a.withMagnitude n := by
    apply Word.ext
    · rfl
    · simp only [Word.withMagnitude, Word.magnitude_wrap, weight_five, Nat.mod_mod]
  have hsize : add .w64 0x3fffffff 1 = .ok 0x40000000 := rfl
  rw [List.map_append] at hfold
  unfold fromDigits
  rw [bytes_eq, ok_bind, bytes_eq, ok_bind, hfold, ok_bind, hsize, ok_bind, mod_eq (by decide),
    ok_bind, pure_eq, Word.withMagnitude, wrap_cast]
  exact congrArg _ (hlow _)

theorem digitCodes_eq (count n : Nat) :
    digitCodes count n =
      .ok (((Arithmetic.digits count n).map fun d => Byte.ofNat (Alphabet.digitZero + d)).map
        Fin.val) := by
  induction count generalizing n with
  | zero => rfl
  | succ count ih =>
    have hdigit : n % 10 < 10 := Nat.mod_lt n (by decide)
    have hcast : cast .w8 (n % 10) = n % 10 := cast_eq (Nat.lt_trans hdigit (by decide))
    have hsix : (Alphabet.digitZero + n % 10) % 64 = Alphabet.digitZero + n % 10 :=
      Nat.mod_eq_of_lt (by simp only [Alphabet.digitZero]; omega)
    have hcode : add .w8 Alphabet.digitZero (cast .w8 (n % 10)) =
        .ok (Byte.ofNat (Alphabet.digitZero + n % 10)).val := by
      rw [hcast, add_eq (by simp only [Width.limit, Alphabet.digitZero]; omega), Byte.val_ofNat,
        hsix]
    rw [digitCodes, mod_eq (by decide), ok_bind, hcode, ok_bind, div_eq (by decide), ok_bind, ih,
      ok_bind, pure_eq, Arithmetic.digits, List.map_append, List.map_append]
    rfl

theorem toDigits_eq (a x : Word) : toDigits a x = .ok (Arithmetic.characters a x) := by
  have hlength := Arithmetic.length_digits 10 a.magnitude
  unfold toDigits Arithmetic.characters
  simp only [digitCodes_eq, ok_bind]
  generalize hcodes : (Arithmetic.digits 10 a.magnitude).map
    (fun d => Byte.ofNat (Alphabet.digitZero + d)) = codes
  have hten : codes.length = 10 := by rw [← hcodes, List.length_map, hlength]
  have hhigh : part (codes.map Fin.val) 0 5 5 = .ok ((codes.take 5).map Fin.val) := by
    unfold part
    rw [List.length_map, if_pos (by omega), List.drop_zero, List.map_take]
  have hlow : part (codes.map Fin.val) 5 10 5 = .ok ((codes.drop 5).map Fin.val) := by
    unfold part
    rw [List.length_map, if_pos (by omega), List.take_of_length_le (by rw [List.length_map]; omega),
      List.map_drop]
  rw [hhigh, ok_bind, hlow, ok_bind, ofBytes_eq _ _ (by rw [List.length_take]; omega), ok_bind,
    ofBytes_eq _ _ (by rw [List.length_drop]; omega), ok_bind, pure_eq]

end Conversions

end MixComputer.Guarded
