import MixComputer.Word

/-!
Partial fields. The field `(L:R)` selects bytes `L` to `R` of a word, where byte 0 is the sign.
Loads, stores, arithmetic and comparisons reach a word through `extract` and `insert` alone.
-/
namespace MixComputer

structure Field where
  left : Nat
  right : Nat
  left_le : left ≤ right
  right_le : right ≤ 5
deriving DecidableEq

namespace Field

def whole : Field := ⟨0, 5, by decide, by decide⟩

def address : Field := ⟨0, 2, by decide, by decide⟩

instance : Inhabited Field := ⟨whole⟩

def ofBounds? (left right : Nat) : Option Field :=
  if h : left ≤ right ∧ right ≤ 5 then some ⟨left, right, h.1, h.2⟩ else none

/-- An instruction writes the field `(L:R)` as `8L + R`. -/
def code (f : Field) : Nat := 8 * f.left + f.right

def ofCode? (code : Nat) : Option Field := ofBounds? (code / 8) (code % 8)

def includesSign (f : Field) : Bool := f.left == 0

/-- The number of magnitude bytes in the field. `(0:0)` has none. -/
def byteCount (f : Field) : Nat := f.right + 1 - max f.left 1

def unit (f : Field) : Nat := weight (5 - f.right)

def span (f : Field) : Nat := weight f.byteCount

/-- The field of `w` moved to the right end of a word. The sign is the sign of `w` if the field
includes it and plus if not. -/
def extract (f : Field) (w : Word) : Word :=
  Word.wrap (f.includesSign && w.negative) (w.magnitude / f.unit % f.span)

/-- `w` with the field replaced by the rightmost bytes of `source`, and by its sign if the field
includes the sign. All else in `w` stays. -/
def insert (f : Field) (w source : Word) : Word :=
  Word.wrap (if f.includesSign then source.negative else w.negative)
    (w.magnitude / (f.unit * f.span) * (f.unit * f.span)
      + source.magnitude % f.span * f.unit + w.magnitude % f.unit)

end Field

end MixComputer
