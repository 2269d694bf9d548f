import Mathlib.Data.List.Rotate
import MixComputer.Proofs.Arithmetic
import MixComputer.Proofs.Bytes

/-!
Shifts as operations on lists of bytes. Moving a number left or right by some bytes moves its list
and fills in zeros, also if nothing of it is left, and a rotation of ten bytes rotates their list.
Two shifts in a row are one shift by both amounts, and a rotation is undone by the other.
-/
namespace MixComputer

def movedLeft (k : Nat) (bytes : List Byte) : List Byte := (bytes ++ zeroBytes k).drop k

def movedRight (k : Nat) (bytes : List Byte) : List Byte :=
  (zeroBytes k ++ bytes).take bytes.length

/-- The bytes of rA and rX after a shift by `k` places, by the `F` part: rA is moved to the left or
to the right, then both of them, and both are rotated. -/
def shiftedBytes (variant k : Nat) (a x : List Byte) : List Byte × List Byte :=
  match variant with
  | 0 => (movedLeft k a, x)
  | 1 => (movedRight k a, x)
  | 2 => (movedLeft k (a ++ x)).splitAt 5
  | 3 => (movedRight k (a ++ x)).splitAt 5
  | 4 => ((a ++ x).rotateLeft (k % 10)).splitAt 5
  | _ => ((a ++ x).rotateRight (k % 10)).splitAt 5

section Lists

variable {bytes : List Byte}

@[simp]
theorem length_movedLeft (k : Nat) (bytes : List Byte) :
    (movedLeft k bytes).length = bytes.length := by
  rw [movedLeft, List.length_drop, List.length_append, length_zeroBytes, Nat.add_sub_cancel]

@[simp]
theorem length_movedRight (k : Nat) (bytes : List Byte) :
    (movedRight k bytes).length = bytes.length := by
  rw [movedRight, List.length_take, List.length_append]
  omega

theorem movedLeft_movedLeft (p q : Nat) (bytes : List Byte) :
    movedLeft q (movedLeft p bytes) = movedLeft (p + q) bytes := by
  have hroom : p ≤ (bytes ++ zeroBytes p).length := by
    rw [List.length_append, length_zeroBytes]
    omega
  rw [movedLeft, movedLeft, movedLeft, ← List.drop_append_of_le_length hroom, List.drop_drop,
    List.append_assoc, zeroBytes_append]

theorem movedRight_movedRight (p q : Nat) (bytes : List Byte) :
    movedRight q (movedRight p bytes) = movedRight (p + q) bytes := by
  have hcut (n : Nat) (l : List Byte) :
      (zeroBytes q ++ l.take n).take n = (zeroBytes q ++ l).take n := by
    rw [List.take_append, List.take_append, List.take_take, Nat.min_eq_left (Nat.sub_le _ _)]
  rw [movedRight, length_movedRight, movedRight, movedRight, hcut, ← List.append_assoc,
    zeroBytes_append, Nat.add_comm]

theorem splitAt_append (bytes : List Byte) :
    (bytes.splitAt 5).1 ++ (bytes.splitAt 5).2 = bytes := by
  rw [List.splitAt_eq, List.take_append_drop]

theorem length_splitAt (h : bytes.length = 10) :
    (bytes.splitAt 5).1.length = 5 ∧ (bytes.splitAt 5).2.length = 5 := by
  rw [List.splitAt_eq, List.length_take, List.length_drop, h]
  decide

end Lists

section Rotations

variable {α : Type} {l : List α} {p q : Nat}

theorem rotate_congr (h : l.length = 10) (hpq : p % 10 = q % 10) : l.rotate p = l.rotate q := by
  rw [← List.rotate_mod, h, hpq, ← h, List.rotate_mod]

theorem rotateLeft_eq_rotate (h : l.length = 10) (k : Nat) : l.rotateLeft k = l.rotate k := by
  rw [List.rotate_eq_drop_append_take_mod]
  exact if_neg (by omega)

/-- A rotation to the right goes on to the left until the list is where it was. -/
theorem rotateRight_eq_rotate (h : l.length = 10) (k : Nat) :
    l.rotateRight k = l.rotate (10 - k % 10) := by
  rw [← h, List.rotate_eq_drop_append_take (Nat.sub_le _ _)]
  exact if_neg (by omega)

theorem rotateLeft_rotateLeft (h : l.length = 10) (p q : Nat) :
    (l.rotateLeft (p % 10)).rotateLeft (q % 10) = l.rotateLeft ((p + q) % 10) := by
  have hrotated : (l.rotate (p % 10)).length = 10 := (List.length_rotate _ _).trans h
  rw [rotateLeft_eq_rotate h, rotateLeft_eq_rotate hrotated, rotateLeft_eq_rotate h,
    List.rotate_rotate]
  exact rotate_congr h (by omega)

theorem rotateRight_rotateRight (h : l.length = 10) (p q : Nat) :
    (l.rotateRight (p % 10)).rotateRight (q % 10) = l.rotateRight ((p + q) % 10) := by
  have hrotated : (l.rotate (10 - p % 10 % 10)).length = 10 := (List.length_rotate _ _).trans h
  rw [rotateRight_eq_rotate h, rotateRight_eq_rotate hrotated, rotateRight_eq_rotate h,
    List.rotate_rotate]
  exact rotate_congr h (by omega)

theorem rotateRight_rotateLeft (h : l.length = 10) (k : Nat) :
    (l.rotateLeft (k % 10)).rotateRight (k % 10) = l := by
  have hrotated : (l.rotate (k % 10)).length = 10 := (List.length_rotate _ _).trans h
  rw [rotateLeft_eq_rotate h, rotateRight_eq_rotate hrotated, List.rotate_rotate]
  exact (rotate_congr h (by omega)).trans (List.rotate_zero l)

end Rotations

section Shifts

variable {a x : List Byte}

theorem length_shiftedBytes (ha : a.length = 5) (hx : x.length = 5) (variant k : Nat) :
    (shiftedBytes variant k a x).1.length = 5 ∧ (shiftedBytes variant k a x).2.length = 5 := by
  have hboth : (a ++ x).length = 10 := by rw [List.length_append, ha, hx]
  match variant with
  | 0 => exact ⟨(length_movedLeft k a).trans ha, hx⟩
  | 1 => exact ⟨(length_movedRight k a).trans ha, hx⟩
  | 2 => exact length_splitAt ((length_movedLeft k _).trans hboth)
  | 3 => exact length_splitAt ((length_movedRight k _).trans hboth)
  | 4 =>
    refine length_splitAt ?_
    rw [rotateLeft_eq_rotate hboth, List.length_rotate, hboth]
  | _ + 5 =>
    refine length_splitAt ?_
    rw [rotateRight_eq_rotate hboth, List.length_rotate, hboth]

/-- Two shifts in a row are one. -/
theorem shiftedBytes_shiftedBytes (ha : a.length = 5) (hx : x.length = 5) (variant p q : Nat) :
    shiftedBytes variant q (shiftedBytes variant p a x).1 (shiftedBytes variant p a x).2 =
      shiftedBytes variant (p + q) a x := by
  have hboth : (a ++ x).length = 10 := by rw [List.length_append, ha, hx]
  -- A pair of registers is put together again before it is shifted.
  have hpair (next : List Byte → List Byte) {bytes bytes' : List Byte} (h : next bytes = bytes') :
      (next ((bytes.splitAt 5).1 ++ (bytes.splitAt 5).2)).splitAt 5 = bytes'.splitAt 5 := by
    rw [splitAt_append, h]
  match variant with
  | 0 => exact congrArg (·, x) (movedLeft_movedLeft p q a)
  | 1 => exact congrArg (·, x) (movedRight_movedRight p q a)
  | 2 => exact hpair (movedLeft q) (movedLeft_movedLeft p q (a ++ x))
  | 3 => exact hpair (movedRight q) (movedRight_movedRight p q (a ++ x))
  | 4 => exact hpair (·.rotateLeft (q % 10)) (rotateLeft_rotateLeft hboth p q)
  | _ + 5 => exact hpair (·.rotateRight (q % 10)) (rotateRight_rotateRight hboth p q)

/-- A rotation to the left is undone by one to the right. -/
theorem shiftedBytes_rotated (ha : a.length = 5) (hx : x.length = 5) (k : Nat) :
    shiftedBytes 5 k (shiftedBytes 4 k a x).1 (shiftedBytes 4 k a x).2 = (a, x) := by
  have hboth : (a ++ x).length = 10 := by rw [List.length_append, ha, hx]
  change (List.rotateRight (_ ++ _) (k % 10)).splitAt 5 = (a, x)
  rw [shiftedBytes, splitAt_append, rotateRight_rotateLeft hboth, List.splitAt_eq, ← ha,
    List.take_left, List.drop_left]

end Shifts

namespace Arithmetic

section Numbers

variable {width n k : Nat}

theorem lastBytes_shiftLeft (width n k : Nat) :
    lastBytes width (shiftLeft width n k) = movedLeft k (lastBytes width n) := by
  unfold shiftLeft movedLeft
  by_cases hall : width ≤ k
  · have hzeros : k - (k - width) = width := by omega
    have hnone : (lastBytes width n).length ≤ k := by rwa [length_lastBytes]
    rw [if_pos hall, lastBytes_zero, List.drop_append, List.drop_of_length_le hnone,
      length_lastBytes, List.nil_append, zeroBytes, zeroBytes, List.drop_replicate, hzeros]
  · obtain ⟨j, rfl⟩ := Nat.exists_eq_add_of_le (Nat.le_of_lt (Nat.not_le.mp hall))
    have hmoved : n * weight k / weight k = n := Nat.mul_div_cancel n (weight_pos k)
    have hfilled : n * weight k % weight k = 0 := Nat.mul_mod_left n (weight k)
    have hroom : k ≤ (lastBytes (k + j) n).length := by
      rw [length_lastBytes]
      omega
    rw [if_neg hall, lastBytes_mod, List.drop_append_of_le_length hroom, drop_lastBytes,
      Nat.add_comm k j, lastBytes_add, hmoved, lastBytes_of_mod_eq_zero hfilled]

theorem lastBytes_shiftRight (hn : n < weight width) (k : Nat) :
    lastBytes width (shiftRight width n k) = movedRight k (lastBytes width n) := by
  unfold shiftRight movedRight
  rw [length_lastBytes]
  by_cases hall : width ≤ k
  · have hroom : width ≤ (zeroBytes k).length := by rwa [length_zeroBytes]
    rw [if_pos hall, lastBytes_zero, List.take_append_of_le_length hroom, zeroBytes, zeroBytes,
      List.take_replicate, Nat.min_eq_left hall]
  · obtain ⟨j, rfl⟩ := Nat.exists_eq_add_of_le (Nat.le_of_lt (Nat.not_le.mp hall))
    have hmoved : n / weight k < weight j := by
      refine Nat.div_lt_of_lt_mul ?_
      rwa [← weight_add]
    have hkept : (lastBytes (k + j) n).take j = lastBytes j (n / weight k) := by
      rw [Nat.add_comm k j, take_lastBytes]
    have hfilled : (zeroBytes k).length ≤ k + j := by
      rw [length_zeroBytes]
      omega
    rw [if_neg hall, lastBytes_of_lt k hmoved, ← hkept, List.take_append,
      List.take_of_length_le hfilled, length_zeroBytes, Nat.add_sub_cancel_left]

/-- The bytes that leave one end come in at the other. -/
theorem lastBytes_rotated {j r : Nat} (hn : n < weight (r + j)) :
    lastBytes (j + r) (n * weight r % weight (j + r) + n / weight j) =
      (lastBytes (r + j) n).rotate r := by
  have hhigh : n / weight j < weight r := by
    refine Nat.div_lt_of_lt_mul ?_
    rwa [← weight_add, Nat.add_comm j r]
  have hroom : r ≤ (lastBytes (r + j) n).length := by
    rw [length_lastBytes]
    omega
  rw [weight_add, Nat.mul_mod_mul_right, lastBytes_join j _ hhigh, lastBytes_mod,
    List.rotate_eq_drop_append_take hroom, take_lastBytes, drop_lastBytes]

theorem lastBytes_rotateLeft (hn : n < weight 10) (k : Nat) :
    lastBytes 10 (rotateLeft n k) = (lastBytes 10 n).rotateLeft (k % 10) := by
  have hten : 10 = 10 - k % 10 + k % 10 := by omega
  have hten' : 10 = k % 10 + (10 - k % 10) := by omega
  have hrotated := lastBytes_rotated (hten' ▸ hn : n < weight (k % 10 + (10 - k % 10)))
  rw [← hten, ← hten'] at hrotated
  rw [rotateLeft_eq_rotate (length_lastBytes 10 n)]
  exact hrotated

theorem lastBytes_rotateRight (hn : n < weight 10) (k : Nat) :
    lastBytes 10 (rotateRight n k) = (lastBytes 10 n).rotateRight (k % 10) := by
  have hten : 10 = 10 - k % 10 + k % 10 := by omega
  have hten' : 10 = k % 10 + (10 - k % 10) := by omega
  have hrotated := lastBytes_rotated (hten ▸ hn : n < weight (10 - k % 10 + k % 10))
  rw [← hten, ← hten'] at hrotated
  rw [rotateRight_eq_rotate (length_lastBytes 10 n), Nat.mod_mod, ← hrotated, rotateRight,
    Nat.add_comm]

end Numbers

section Words

variable (a x : Word)

theorem bytes_append : a.bytes ++ x.bytes = lastBytes 10 (pair a x) := by
  rw [Word.bytes_eq_lastBytes, Word.bytes_eq_lastBytes]
  exact (lastBytes_join 5 a.magnitude x.magnitude_lt).symm

/-- The bytes of a number are dealt out to the two registers. -/
theorem split_eq_ofBytes (n : Nat) :
    split a x n = (Word.ofBytes a.negative ((lastBytes 10 n).splitAt 5).1,
      Word.ofBytes x.negative ((lastBytes 10 n).splitAt 5).2) := by
  have hhigh : (lastBytes 10 n).take 5 = lastBytes 5 (n / weight 5) := take_lastBytes 5 5 n
  have hlow : (lastBytes 10 n).drop 5 = lastBytes 5 n := drop_lastBytes 5 5 n
  rw [List.splitAt_eq, hhigh, hlow, Word.ofBytes_lastBytes, Word.ofBytes_lastBytes]
  rfl

/-- A shift of words is a shift of their bytes. -/
theorem shift_eq_ofBytes (variant k : Nat) :
    shift variant a x k =
      (Word.ofBytes a.negative (shiftedBytes variant k a.bytes x.bytes).1,
        Word.ofBytes x.negative (shiftedBytes variant k a.bytes x.bytes).2) := by
  have hpair := pair_lt a x
  have hx := x.ofBytes_bytes
  match variant with
  | 0 =>
    change (Word.wrap a.negative (shiftLeft 5 a.magnitude k), x) =
      (Word.ofBytes a.negative (movedLeft k a.bytes), Word.ofBytes x.negative x.bytes)
    rw [hx, ← Word.ofBytes_lastBytes, lastBytes_shiftLeft, Word.bytes_eq_lastBytes]
  | 1 =>
    change (Word.wrap a.negative (shiftRight 5 a.magnitude k), x) =
      (Word.ofBytes a.negative (movedRight k a.bytes), Word.ofBytes x.negative x.bytes)
    rw [hx, ← Word.ofBytes_lastBytes, lastBytes_shiftRight a.magnitude_lt, Word.bytes_eq_lastBytes]
  | 2 =>
    change split a x (shiftLeft 10 (pair a x) k) = _
    rw [split_eq_ofBytes, lastBytes_shiftLeft, ← bytes_append]
    rfl
  | 3 =>
    change split a x (shiftRight 10 (pair a x) k) = _
    rw [split_eq_ofBytes, lastBytes_shiftRight hpair, ← bytes_append]
    rfl
  | 4 =>
    change split a x (rotateLeft (pair a x) k) = _
    rw [split_eq_ofBytes, lastBytes_rotateLeft hpair, ← bytes_append]
    rfl
  | _ + 5 =>
    change split a x (rotateRight (pair a x) k) = _
    rw [split_eq_ofBytes, lastBytes_rotateRight hpair, ← bytes_append]
    rfl

end Words

end Arithmetic

end MixComputer
