import MixComputer.Text.Width.Zero

/-!
Letters that are drawn as one with letters before them. Marks that are not drawn do not come
between the two, and in some scripts the letters are drawn as one only if a joiner stands between
them.
-/
namespace MixComputer.Text

/-- The later part of a sequence that is drawn as one. -/
inductive Ligature where
  | arabicAlef
  | hebrewLamed
  | bugineseYa
  /-- The vowel that comes before a joined `bugineseYa`. -/
  | bugineseVowel
  | khmerLetter
  | lisuTone
  | oldTurkicI
  | tifinaghConsonant
  /-- The sign that comes before a `tifinaghConsonant` to stack it. -/
  | tifinaghStack
deriving DecidableEq

def alefRanges : Ranges :=
  [(0x622, 0x623), (0x625, 0x625), (0x627, 0x627), (0x671, 0x673), (0x675, 0x675),
   (0x773, 0x774), (0x870, 0x882)]

def lamRanges : Ranges :=
  [(0x644, 0x644), (0x6B5, 0x6B8), (0x76A, 0x76A), (0x8A6, 0x8A6), (0x8C7, 0x8C7)]

def khmerRanges : Ranges :=
  [(0x1780, 0x1782), (0x1784, 0x1787), (0x1789, 0x178C), (0x178E, 0x1793), (0x1795, 0x1798),
   (0x179B, 0x179D), (0x17A0, 0x17A0), (0x17A2, 0x17A2), (0x17A7, 0x17A7), (0x17AB, 0x17AC),
   (0x17AF, 0x17AF)]

def tifinaghRanges : Ranges := [(0x2D31, 0x2D65), (0x2D6F, 0x2D6F)]

def invisibleMarkRanges : Ranges :=
  [(0x34F, 0x34F), (0x17B4, 0x17B5), (0x180B, 0x180D), (0x180F, 0x180F), (0x200D, 0x200D),
   (0xFE00, 0xFE0F), (0xE0100, 0xE01EF)]

namespace Ligature

def ofChar? (c : Char) : Option Ligature :=
  if alefRanges.contain c then some arabicAlef
  else if c.toNat = 0x5DC then some hebrewLamed
  else if c.toNat = 0x1A10 then some bugineseYa
  else if khmerRanges.contain c then some khmerLetter
  else if c.toNat = 0xA4FC || c.toNat = 0xA4FD then some lisuTone
  else if c.toNat = 0x10C03 then some oldTurkicI
  else if tifinaghRanges.contain c then some tifinaghConsonant
  else none

/-- Whether a character in front of the part does not come between it and what is before. -/
def passes (l : Ligature) (c : Char) : Bool :=
  match l with
  | arabicAlef => isJoiningTransparent c
  | _ => invisibleMarkRanges.contain c

/-- What a character in front of the part adds to the width of the two, if it is drawn as one with
it, and the part that the two are together, if they are one. `linked` says that a joiner stands
between them. -/
def before? (l : Ligature) (linked : Bool) (c : Char) : Option (Int × Option Ligature) :=
  let n := c.toNat
  match l with
  | arabicAlef => if lamRanges.contain c then some (0, none) else none
  | hebrewLamed => if linked && n = 0x5D0 then some (0, none) else none
  | bugineseYa => if linked && n = 0x1A17 then some (0, some bugineseVowel) else none
  | bugineseVowel => if n = 0x1A15 then some (0, none) else none
  | khmerLetter => if n = 0x17D2 then some (-1, none) else none
  | lisuTone => if 0xA4F8 ≤ n && n ≤ 0xA4FB then some (0, none) else none
  | oldTurkicI => if linked && n = 0x10C32 then some (0, none) else none
  | tifinaghConsonant =>
    if n = 0x2D7F then some (1, some tifinaghStack)
    else if linked && tifinaghRanges.contain c then some (0, none)
    else none
  | tifinaghStack => if tifinaghRanges.contain c then some (-1, none) else none

end Ligature

end MixComputer.Text
