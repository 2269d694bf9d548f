import MixComputer.Alphabet

/-!
What the arithmetic, shift and conversion operations compute from the words in rA and rX. The two
registers together hold ten bytes, rA the high five.
-/
namespace MixComputer.Arithmetic

/-- The sum of a register and a number: the exact sum if it fits, its low five bytes if not. A sum
of zero keeps the sign of the register. -/
def add (r : Word) (n : Int) : Word :=
  if r.value + n = 0 then Word.wrap r.negative 0 else Word.ofInt (r.value + n)

def overflows (r : Word) (n : Int) : Bool := !decide (Word.Fits (r.value + n))

def pair (a x : Word) : Nat := a.magnitude * weight 5 + x.magnitude

/-- The two words whose pair has magnitude `n`; the signs stay. -/
def split (a x : Word) (n : Nat) : Word × Word :=
  (a.withMagnitude (n / weight 5), x.withMagnitude n)

/-- The product as the new rA and rX, both with its sign. -/
def multiply (a v : Word) : Word × Word :=
  let negative := a.negative != v.negative
  let product := a.magnitude * v.magnitude
  (Word.wrap negative (product / weight 5), Word.wrap negative product)

/-- The quotient and the remainder as the new rA and rX. There are none if the divisor is zero or
the quotient has more than five bytes. -/
def divide? (a x v : Word) : Option (Word × Word) :=
  if v.magnitude = 0 ∨ v.magnitude ≤ a.magnitude then none
  else some
    (Word.wrap (a.negative != v.negative) (pair a x / v.magnitude),
     Word.wrap a.negative (pair a x % v.magnitude))

def shiftLeft (width n k : Nat) : Nat := if width ≤ k then 0 else n * weight k % weight width

def shiftRight (width n k : Nat) : Nat := if width ≤ k then 0 else n / weight k

def rotateLeft (n k : Nat) : Nat :=
  n * weight (k % 10) % weight 10 + n / weight (10 - k % 10)

def rotateRight (n k : Nat) : Nat :=
  n / weight (k % 10) + n * weight (10 - k % 10) % weight 10

/-- The six shifts, by the `F` part: one register or both to the left or right, and both rotated. -/
def shift (variant : Nat) (a x : Word) (k : Nat) : Word × Word :=
  match variant with
  | 0 => (a.withMagnitude (shiftLeft 5 a.magnitude k), x)
  | 1 => (a.withMagnitude (shiftRight 5 a.magnitude k), x)
  | 2 => split a x (shiftLeft 10 (pair a x) k)
  | 3 => split a x (shiftRight 10 (pair a x) k)
  | 4 => split a x (rotateLeft (pair a x) k)
  | _ => split a x (rotateRight (pair a x) k)

/-- The number whose ten decimal digits the bytes of rA and rX show, each byte modulo 10, as the
new rA. -/
def number (a x : Word) : Word :=
  a.withMagnitude ((a.bytes ++ x.bytes).foldl (fun n b => 10 * n + b.val % 10) 0)

def digits : (count : Nat) → Nat → List Nat
  | 0, _ => []
  | count + 1, n => digits count (n / 10) ++ [n % 10]

/-- The ten decimal digits of the magnitude of rA as character codes in rA and rX. -/
def characters (a x : Word) : Word × Word :=
  let codes := (digits 10 a.magnitude).map fun d => Byte.ofNat (Alphabet.digitZero + d)
  (Word.ofBytes a.negative (codes.take 5), Word.ofBytes x.negative (codes.drop 5))

end MixComputer.Arithmetic
