import MixComputer.Proofs.Word

/-!
Numbers of fixed width. Each operation says when it traps: a sum, product or difference that is out
of range, a shift by the whole width or more, a division by zero, a place outside an array. An
operation that does not trap has the result that it has without a width, so a computation that
never traps may be replaced by one with numbers of any size.
-/
namespace MixComputer

/-- What can go wrong with numbers of fixed width and arrays of fixed length. -/
inductive Trap where
  | overflow
  | shift
  | division
  | index
  /-- Something that was asserted does not hold. -/
  | assertion
  /-- A case that was not to occur. -/
  | unreachable
deriving DecidableEq

/-- A computation that a trap may end. -/
abbrev Guarded := Except Trap

inductive Width where
  | w8
  | w32
  | w64
deriving DecidableEq

namespace Width

def bits : Width → Nat
  | w8 => 8
  | w32 => 32
  | w64 => 64

def limit : Width → Nat
  | w8 => 0x100
  | w32 => 0x100000000
  | w64 => 0x10000000000000000

end Width

namespace Guarded

variable {α β : Type} {w : Width} {a b n k : Nat}

/-- A number that must fit into a width. -/
def number (w : Width) (n : Nat) : Guarded Nat := if n < w.limit then .ok n else .error .overflow

def add (w : Width) (a b : Nat) : Guarded Nat := number w (a + b)

def mul (w : Width) (a b : Nat) : Guarded Nat := number w (a * b)

def sub (a b : Nat) : Guarded Nat := if b ≤ a then .ok (a - b) else .error .overflow

def div (a b : Nat) : Guarded Nat := if b = 0 then .error .division else .ok (a / b)

def mod (a b : Nat) : Guarded Nat := if b = 0 then .error .division else .ok (a % b)

/-- The bits that leave the width are lost. -/
def shiftLeft (w : Width) (n k : Nat) : Guarded Nat :=
  if k < w.bits then .ok (n <<< k % w.limit) else .error .shift

def shiftRight (w : Width) (n k : Nat) : Guarded Nat :=
  if k < w.bits then .ok (n >>> k) else .error .shift

def cast (w : Width) (n : Nat) : Nat := n % w.limit

/-- A signed number must fit into 64 bits. -/
def integer (v : Int) : Guarded Int :=
  if -0x8000000000000000 ≤ v ∧ v < 0x8000000000000000 then .ok v else .error .overflow

def item (xs : Array α) (k : Nat) : Guarded α :=
  match xs[k]? with
  | some x => .ok x
  | none => .error .index

def require (p : Prop) [Decidable p] : Guarded Unit := if p then .ok () else .error .assertion

section Results

@[simp]
theorem ok_bind (x : α) (f : α → Guarded β) : ((.ok x : Guarded α) >>= f) = f x := rfl

@[simp]
theorem pure_eq (x : α) : (pure x : Guarded α) = .ok x := rfl

theorem add_eq (h : a + b < w.limit) : add w a b = .ok (a + b) := if_pos h

theorem mul_eq (h : a * b < w.limit) : mul w a b = .ok (a * b) := if_pos h

theorem sub_eq (h : b ≤ a) : sub a b = .ok (a - b) := if_pos h

theorem div_eq (h : b ≠ 0) : div a b = .ok (a / b) := if_neg h

theorem mod_eq (h : b ≠ 0) : mod a b = .ok (a % b) := if_neg h

theorem shiftLeft_eq (h : k < w.bits) : shiftLeft w n k = .ok (n <<< k % w.limit) := if_pos h

theorem shiftRight_eq (h : k < w.bits) : shiftRight w n k = .ok (n >>> k) := if_pos h

theorem cast_eq (h : n < w.limit) : cast w n = n := Nat.mod_eq_of_lt h

theorem integer_eq {v : Int} (h : v.natAbs < 0x8000000000000000) : integer v = .ok v :=
  if_pos (by omega)

theorem item_eq {xs : Array α} (h : k < xs.size) : item xs k = .ok xs[k] := by
  unfold item
  rw [Array.getElem?_eq_getElem h]

theorem require_eq {p : Prop} [Decidable p] (h : p) : require p = .ok () := if_pos h

end Results

end Guarded

section Bytes

/-- A byte has six bits. -/
theorem weight_eq_shiftLeft (k : Nat) : weight k = 1 <<< (k * 6) := by
  induction k with
  | zero => rfl
  | succ k ih =>
    have hnext : (k + 1) * 6 = k * 6 + 6 := by omega
    rw [weight, ih, hnext, Nat.shiftLeft_add, Nat.shiftLeft_eq (1 <<< (k * 6)) 6]
    omega

theorem shiftRight_bytes (n k : Nat) : n >>> (k * 6) = n / weight k := by
  rw [Nat.shiftRight_eq_div_pow, ← Nat.one_shiftLeft, weight_eq_shiftLeft]

theorem shiftLeft_bytes (n k : Nat) : n <<< (k * 6) = n * weight k := by
  rw [Nat.shiftLeft_eq, ← Nat.one_shiftLeft, weight_eq_shiftLeft]

/-- The low `k` bytes. -/
theorem and_bytes (n k : Nat) : n &&& (weight k - 1) = n % weight k := by
  rw [weight_eq_shiftLeft, Nat.one_shiftLeft, Nat.and_two_pow_sub_one_eq_mod]

theorem and_byte (n : Nat) : n &&& 63 = n % weight 1 := and_bytes n 1

theorem and_two_bytes (n : Nat) : n &&& 4095 = n % weight 2 := and_bytes n 2

theorem and_five_bytes (n : Nat) : n &&& 0x3fffffff = n % weight 5 := and_bytes n 5

/-- Nothing is lost where the low bytes of one number are zero and the other has no more. -/
theorem or_bytes {x y k : Nat} (h : y < weight k) : x * weight k ||| y = x * weight k + y := by
  rw [weight_eq_shiftLeft, Nat.one_shiftLeft] at h ⊢
  rw [Nat.mul_comm, Nat.two_pow_add_eq_or_of_lt h]

/-- Bytes are replaced by clearing them with a mask and putting the new ones in their place. -/
theorem replace_bytes {n y c j : Nat} (hn : n < 0x100000000) (hy : y < weight c) :
    (n &&& (((weight c - 1) * weight j) ^^^ 0xffffffff)) ||| y * weight j =
      n / (weight j * weight c) * (weight j * weight c) + y * weight j + n % weight j := by
  have hsum (q : Nat) : q * (weight j * weight c) + y * weight j + n % weight j =
      weight j * (weight c * q + y) + n % weight j := by
    rw [Nat.mul_add, Nat.mul_comm q, Nat.mul_assoc, Nat.mul_comm y]
  rw [hsum, show (0xffffffff : Nat) = 1 <<< 32 - 1 from rfl]
  simp only [weight_eq_shiftLeft, Nat.one_shiftLeft] at hy ⊢
  apply Nat.eq_of_testBit_eq
  intro i
  have hrest := Nat.mod_lt n (Nat.two_pow_pos (j * 6))
  rw [Nat.testBit_two_pow_mul_add _ hrest, Nat.testBit_two_pow_mul_add _ hy, Nat.testBit_or,
    Nat.testBit_and, Nat.testBit_xor, Nat.testBit_mul_two_pow, Nat.testBit_mul_two_pow,
    Nat.testBit_two_pow_sub_one, Nat.testBit_two_pow_sub_one, Nat.testBit_mod_two_pow,
    ← Nat.pow_add, Nat.testBit_div_two_pow]
  have hwidth : (n.testBit i && decide (i < 32)) = n.testBit i ∧
      (n.testBit i && !decide (i < 32)) = false := by
    by_cases hi : i < 32
    · simp only [hi, decide_true, Bool.not_true, Bool.and_true, Bool.and_false, and_self]
    · have hlimit : n < 1 <<< i := by
        rw [show (0x100000000 : Nat) = 1 <<< 32 from rfl, Nat.one_shiftLeft] at hn
        rw [Nat.one_shiftLeft]
        exact Nat.lt_of_lt_of_le hn (Nat.pow_le_pow_right (by decide) (by omega))
      rw [Nat.testBit_lt_two_pow (by rwa [Nat.one_shiftLeft] at hlimit)]
      exact ⟨rfl, rfl⟩
  -- A bit is below the new bytes, among them or above them.
  by_cases hlow : i < j * 6
  · have hle : ¬ j * 6 ≤ i := by omega
    simp only [hlow, hle, decide_false, decide_true, Bool.false_and, Bool.false_xor, Bool.true_and,
      Bool.or_false, if_true, hwidth.1]
  · have hle : j * 6 ≤ i := by omega
    by_cases hmid : i - j * 6 < c * 6
    · simp only [hlow, hle, hmid, decide_true, Bool.true_and, Bool.true_xor, if_true, if_false,
        hwidth.2, Bool.false_or]
    · have hy' : y.testBit (i - j * 6) = false :=
        Nat.testBit_lt_two_pow (Nat.lt_of_lt_of_le hy (Nat.pow_le_pow_right (by decide) (by omega)))
      have hi : i - j * 6 - c * 6 + (j * 6 + c * 6) = i := by omega
      simp only [hlow, hle, hmid, decide_false, decide_true, Bool.true_and, Bool.false_xor,
        if_false, hy', Bool.or_false, hi, hwidth.1]

theorem weight_le {j k : Nat} (h : j ≤ k) : weight j ≤ weight k := by
  obtain ⟨d, rfl⟩ := Nat.exists_eq_add_of_le h
  rw [weight_add]
  exact Nat.le_mul_of_pos_right _ (weight_pos d)

end Bytes

end MixComputer
