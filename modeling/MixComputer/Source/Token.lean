/-!
Tokens of operands. A run of letters and digits is one token, a pair of slashes is one, and any
other character stands for itself. The tokens of a text concatenate to the text.
-/
namespace MixComputer.Source

inductive Token where
  /-- A run of ASCII letters and digits as long as possible. -/
  | word (letters : List Char)
  | doubleSlash
  | mark (c : Char)
deriving DecidableEq

namespace Token

def chars : Token → List Char
  | word letters => letters
  | doubleSlash => ['/', '/']
  | mark c => [c]

def consLetter (c : Char) : List Token → List Token
  | word letters :: ts => word (c :: letters) :: ts
  | ts => word [c] :: ts

def ofChars : List Char → List Token
  | [] => []
  | '/' :: '/' :: cs => doubleSlash :: ofChars cs
  | c :: cs => if c.isAlphanum then consLetter c (ofChars cs) else mark c :: ofChars cs

def text (ts : List Token) : String := String.ofList (ts.flatMap chars)

end Token

end MixComputer.Source
