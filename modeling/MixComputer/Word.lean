/-!
The word of the machine: a sign and five bytes of six bits. A word keeps its sign when its
magnitude is zero, so there are two zeros; `=` tells them apart and `value` does not.
-/
namespace MixComputer

abbrev Byte := Fin 64

def Byte.ofNat (n : Nat) : Byte := Fin.ofNat 64 n

/-- The weight of a byte that has `k` bytes to its right, 64 to the power of `k`. -/
def weight : Nat → Nat
  | 0 => 1
  | k + 1 => 64 * weight k

theorem weight_pos (k : Nat) : 0 < weight k := by
  induction k with
  | zero => decide
  | succ k ih => simp only [weight]; omega

theorem weight_add (j k : Nat) : weight (j + k) = weight j * weight k := by
  induction k with
  | zero => simp [weight]
  | succ k ih => rw [← Nat.add_assoc, weight, weight, ih, Nat.mul_left_comm]

@[ext]
structure Word where
  negative : Bool
  magnitude : Nat
  magnitude_lt : magnitude < weight 5
deriving DecidableEq

namespace Word

/-- A word takes the low five bytes of a magnitude of any size. -/
def wrap (negative : Bool) (magnitude : Nat) : Word :=
  ⟨negative, magnitude % weight 5, Nat.mod_lt _ (weight_pos 5)⟩

@[simp]
theorem negative_wrap (negative : Bool) (n : Nat) : (wrap negative n).negative = negative := rfl

@[simp]
theorem magnitude_wrap (negative : Bool) (n : Nat) :
    (wrap negative n).magnitude = n % weight 5 := rfl

def zero : Word := wrap false 0

instance : Inhabited Word := ⟨zero⟩

/-- The signed value. Both zeros have value `0`. -/
def value (w : Word) : Int := if w.negative then -(w.magnitude : Int) else w.magnitude

/-- The packed form has the sign in bit 30 and the magnitude below it. -/
def bits (w : Word) : Nat := if w.negative then weight 5 + w.magnitude else w.magnitude

def ofBits (bits : Nat) : Word := wrap (bits / weight 5 % 2 == 1) bits

def Fits (v : Int) : Prop := v.natAbs < weight 5

instance (v : Int) : Decidable (Fits v) := inferInstanceAs (Decidable (_ < _))

/-- The sign of a value and the low five bytes of its magnitude; `0` is positive. -/
def ofInt (v : Int) : Word := wrap (decide (v < 0)) v.natAbs

def ofInt? (v : Int) : Option Word := if Fits v then some (ofInt v) else none

def isZero (w : Word) : Bool := w.magnitude == 0

/-- Byte `k`, counted from 1 at the high end. -/
def byte (w : Word) (k : Nat) : Byte := Byte.ofNat (w.magnitude / weight (5 - k))

def bytes (w : Word) : List Byte := [w.byte 1, w.byte 2, w.byte 3, w.byte 4, w.byte 5]

def magnitudeOfBytes (bytes : List Byte) : Nat := bytes.foldl (fun n b => 64 * n + b.val) 0

def ofBytes (negative : Bool) (bytes : List Byte) : Word := wrap negative (magnitudeOfBytes bytes)

def withSign (w : Word) (negative : Bool) : Word := { w with negative }

def withMagnitude (w : Word) (magnitude : Nat) : Word := wrap w.negative magnitude

def negated (w : Word) : Word := { w with negative := !w.negative }

/-- Words are ordered by value, so the two zeros compare equal. -/
instance : Ord Word := ⟨fun v w => compare v.value w.value⟩

def sameValue (v w : Word) : Bool := v.value == w.value

end Word

end MixComputer
