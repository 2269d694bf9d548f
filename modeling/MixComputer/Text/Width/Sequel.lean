import MixComputer.Text.Width.Emoji
import MixComputer.Text.Width.Ligature
import MixComputer.Text.Width.Wide

/-!
How the width of a character depends on what comes after it. Some sequences of characters are
drawn as one, so a line is measured from its end, and a `Sequel` keeps what matters of the part
that has been measured.
-/
namespace MixComputer.Text

def charWidth (c : Char) : Nat :=
  if c.toNat ≤ 0xA0 then 1
  else if isZeroWidth c then 0
  else if c.toNat = 0x17D8 then 3
  else if isWide c then 2
  else 1

inductive Beginning where
  /-- Nothing that changes the width of what comes before. -/
  | plain
  | emoji
  | modifier
  | indicator
  /-- Two regional indicators or more. -/
  | indicators
  /-- A joiner with an emoji after it; so the next four, which have something before the joiner. -/
  | joined
  | joinedKeycap
  | joinedIndicator
  | joinedIndicators (even : Bool)
  /-- The end of a tag sequence, with the number of its letters and digits so far. -/
  | joinedTags (letters digits : Nat)
  | ligature (last : Ligature) (linked : Bool)
deriving DecidableEq

namespace Beginning

def ofChar (c : Char) : Beginning :=
  if isEmoji c then emoji
  else if isModifier c then modifier
  else if isRegionalIndicator c then indicator
  else match Ligature.ofChar? c with
    | some l => ligature l false
    | none => plain

def isLigature : Beginning → Bool
  | ligature _ _ => true
  | _ => false

def isJoined : Beginning → Bool
  | joined | joinedKeycap => true
  | _ => false

/-- A regional subdivision has three to six letters, or letters after three digits. -/
def isSubdivision (letters digits : Nat) : Bool :=
  digits == 3 || (digits == 0 && 3 ≤ letters)

/-- What a character in front of a text adds to its width, and what the text then begins with, if
the beginning of the text matters for it. -/
def before? (b : Beginning) (c : Char) : Option (Int × Beginning) :=
  let n := c.toNat
  let join := if n = joiner then some (0, joined) else none
  match b with
  | plain => none
  | emoji => join
  | modifier => if isModifierBase c then some (0, emoji) else join
  | indicator => if isRegionalIndicator c then some (1, indicators) else none
  | indicators => if isRegionalIndicator c then some (1, indicators) else join
  | joined =>
    if n = keycap then some (0, joinedKeycap)
    else if isRegionalIndicator c then some (1, joinedIndicator)
    else if isModifier c then some (0, modifier)
    else if n = cancelTag then some (0, joinedTags 0 0)
    else if isEmoji c then some (0, emoji)
    else none
  | joinedKeycap => none
  | joinedIndicator => if isRegionalIndicator c then some (-1, joinedIndicators true) else none
  | joinedIndicators even =>
    if isRegionalIndicator c then some (if even then 3 else -1, joinedIndicators (!even)) else join
  | joinedTags letters digits =>
    if isTagLetter c && digits == 0 && letters < 6 then some (0, joinedTags (letters + 1) 0)
    else if isTagDigit c && digits < 3 && (digits != 0 || letters ≤ 4) then
      some (0, joinedTags letters (digits + 1))
    else if n = blackFlag && isSubdivision letters digits then some (0, emoji)
    else none
  | ligature l linked =>
    if n = joiner && l != .arabicAlef then some (0, ligature l true)
    else if l.passes c then some (0, ligature l linked)
    else (l.before? linked c).map fun r => (r.1, r.2.elim plain (ligature · false))

end Beginning

inductive Form where
  | text
  | emoji
deriving DecidableEq

/-- What follows a character: a text with a selector in front of it, or with none. -/
structure Sequel where
  beginning : Beginning
  selector : Option Form
deriving DecidableEq

namespace Sequel

def plain : Sequel := ⟨.plain, none⟩

def before (s : Sequel) (c : Char) : Int × Sequel :=
  let n := c.toNat
  if s.selector = some .emoji ∧ hasEmojiForm c then
    (if s.beginning.isJoined then 0 else 2, ⟨.emoji, none⟩)
  else
    let b := if s.selector = some .emoji ∧ !s.beginning.isLigature then .plain else s.beginning
    if n ≤ 0xA0 then (1, plain)
    else if n = emojiSelector then
      (0, ⟨if b.isLigature || b.isJoined then b else .plain, some .emoji⟩)
    else if n = textSelector then (0, ⟨if b.isLigature then b else .plain, some .text⟩)
    else if s.selector = some .text ∧ hasNarrowForm c then (1, plain)
    else match b.before? c with
      | some (width, b) => (width, ⟨b, none⟩)
      | none => (charWidth c, ⟨Beginning.ofChar c, none⟩)

end Sequel

end MixComputer.Text
