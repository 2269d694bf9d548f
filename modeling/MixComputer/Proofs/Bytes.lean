import MixComputer.Proofs.Word

/-!
Numbers as lists of bytes, the high byte first. Dividing a number by a weight cuts its list in two,
and a number that is put together from a quotient and a remainder has their lists one after the
other. A word is its sign and its five bytes.
-/
namespace MixComputer

def lastBytes : (count : Nat) → Nat → List Byte
  | 0, _ => []
  | count + 1, n => lastBytes count (n / 64) ++ [Byte.ofNat n]

def zeroBytes (count : Nat) : List Byte := List.replicate count (Byte.ofNat 0)

@[simp]
theorem length_zeroBytes (count : Nat) : (zeroBytes count).length = count := List.length_replicate

theorem zeroBytes_append (j k : Nat) : zeroBytes j ++ zeroBytes k = zeroBytes (j + k) :=
  List.replicate_append_replicate

theorem Byte.ofNat_congr {n n' : Nat} (h : n % 64 = n' % 64) : Byte.ofNat n = Byte.ofNat n' :=
  Fin.ext h

section Numbers

variable {j k n : Nat}

@[simp]
theorem length_lastBytes (count n : Nat) : (lastBytes count n).length = count := by
  induction count generalizing n with
  | zero => rfl
  | succ count ih => rw [lastBytes, List.length_append, ih, List.length_singleton]

/-- The list of a number is cut where the number is divided. -/
theorem lastBytes_add (j k n : Nat) :
    lastBytes (j + k) n = lastBytes j (n / weight k) ++ lastBytes k n := by
  induction k generalizing n with
  | zero => rw [weight, Nat.div_one, lastBytes, List.append_nil, Nat.add_zero]
  | succ k ih =>
    rw [← Nat.add_assoc, lastBytes, ih, Nat.div_div_eq_div_mul, List.append_assoc]
    rfl

theorem take_lastBytes (j k n : Nat) :
    (lastBytes (j + k) n).take j = lastBytes j (n / weight k) := by
  rw [lastBytes_add, List.take_left' (length_lastBytes j _)]

theorem drop_lastBytes (j k n : Nat) : (lastBytes (j + k) n).drop j = lastBytes k n := by
  rw [lastBytes_add, List.drop_left' (length_lastBytes j _)]

/-- The last bytes depend on no others. -/
theorem lastBytes_mod (k n : Nat) : lastBytes k (n % weight k) = lastBytes k n := by
  induction k generalizing n with
  | zero => rfl
  | succ k ih =>
    have hlast : Byte.ofNat (n % (64 * weight k)) = Byte.ofNat n :=
      Byte.ofNat_congr (Nat.mod_mul_right_mod n 64 (weight k))
    rw [lastBytes, weight, Nat.mod_mul_right_div_self, ih, hlast]
    rfl

theorem lastBytes_zero (k : Nat) : lastBytes k 0 = zeroBytes k := by
  induction k with
  | zero => rfl
  | succ k ih => rw [lastBytes, Nat.zero_div, ih, zeroBytes, zeroBytes, List.replicate_succ']

theorem lastBytes_of_mod_eq_zero (h : n % weight k = 0) : lastBytes k n = zeroBytes k := by
  rw [← lastBytes_mod, h, lastBytes_zero]

/-- A quotient and a remainder are put together. -/
theorem lastBytes_join (j high : Nat) {low : Nat} (h : low < weight k) :
    lastBytes (j + k) (high * weight k + low) = lastBytes j high ++ lastBytes k low := by
  have hhigh : (high * weight k + low) / weight k = high := by
    rw [Nat.mul_comm, Nat.mul_add_div (weight_pos k), Nat.div_eq_of_lt h, Nat.add_zero]
  have hlow : (high * weight k + low) % weight k = low := by
    rw [Nat.mul_comm, Nat.mul_add_mod, Nat.mod_eq_of_lt h]
  rw [lastBytes_add, hhigh, ← lastBytes_mod k, hlow]

/-- A small number has zeros in front. -/
theorem lastBytes_of_lt (j : Nat) (h : n < weight k) :
    lastBytes (j + k) n = zeroBytes j ++ lastBytes k n := by
  have hjoin := lastBytes_join j 0 h
  rwa [Nat.zero_mul, Nat.zero_add, lastBytes_zero] at hjoin

end Numbers

namespace Word

theorem lastBytes_foldl (k n : Nat) (bytes : List Byte) :
    lastBytes (k + bytes.length) (bytes.foldl (fun n b => 64 * n + b.val) n) =
      lastBytes k n ++ bytes := by
  induction bytes generalizing k n with
  | nil => rw [List.foldl_nil, List.length_nil, Nat.add_zero, List.append_nil]
  | cons b bytes ih =>
    have hb := b.isLt
    have hhigh : (64 * n + b.val) / 64 = n := by omega
    have hlow : Byte.ofNat (64 * n + b.val) = b := by
      apply Fin.ext
      rw [Byte.val_ofNat]
      omega
    rw [List.foldl_cons, List.length_cons, ← Nat.add_assoc, Nat.add_right_comm, ih, lastBytes,
      hhigh, hlow, List.append_assoc]
    rfl

/-- A list of bytes is read back from the number that it writes. -/
theorem lastBytes_magnitudeOfBytes (bytes : List Byte) :
    lastBytes bytes.length (magnitudeOfBytes bytes) = bytes := by
  have hfold := lastBytes_foldl 0 0 bytes
  rwa [Nat.zero_add] at hfold

theorem magnitudeOfBytes_lastBytes (k n : Nat) :
    magnitudeOfBytes (lastBytes k n) = n % weight k := by
  induction k generalizing n with
  | zero => exact (Nat.mod_one n).symm
  | succ k ih =>
    have hstep : magnitudeOfBytes (lastBytes k (n / 64) ++ [Byte.ofNat n]) =
        64 * magnitudeOfBytes (lastBytes k (n / 64)) + n % 64 := by
      rw [magnitudeOfBytes, List.foldl_append]
      rfl
    rw [lastBytes, hstep, ih, weight, Nat.mod_mul, Nat.add_comm]

theorem bytes_eq_lastBytes (w : Word) : w.bytes = lastBytes 5 w.magnitude := by
  simp only [bytes, byte, lastBytes, Nat.reduceSub, weight, Nat.div_div_eq_div_mul,
    Nat.reduceMul, Nat.div_one, List.nil_append, List.cons_append]

@[simp]
theorem length_bytes (w : Word) : w.bytes.length = 5 := rfl

theorem bytes_wrap (negative : Bool) (n : Nat) : (wrap negative n).bytes = lastBytes 5 n := by
  rw [bytes_eq_lastBytes, magnitude_wrap, lastBytes_mod]

theorem ofBytes_lastBytes (negative : Bool) (n : Nat) :
    ofBytes negative (lastBytes 5 n) = wrap negative n := by
  apply Word.ext
  · rfl
  · rw [ofBytes, magnitude_wrap, magnitude_wrap, magnitudeOfBytes_lastBytes, Nat.mod_mod]

/-- A word is its sign and its bytes. -/
theorem ofBytes_bytes (w : Word) : ofBytes w.negative w.bytes = w := by
  rw [bytes_eq_lastBytes, ofBytes_lastBytes]
  exact Word.ext rfl (Nat.mod_eq_of_lt w.magnitude_lt)

theorem bytes_ofBytes (negative : Bool) {bytes : List Byte} (h : bytes.length = 5) :
    (ofBytes negative bytes).bytes = bytes := by
  rw [ofBytes, bytes_wrap, ← h, lastBytes_magnitudeOfBytes]

theorem eq_of_bytes_eq {v w : Word} (hnegative : v.negative = w.negative)
    (hbytes : v.bytes = w.bytes) : v = w := by
  rw [← ofBytes_bytes v, ← ofBytes_bytes w, hnegative, hbytes]

end Word

end MixComputer
