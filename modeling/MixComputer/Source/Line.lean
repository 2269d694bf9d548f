import MixComputer.Source.Error
import MixComputer.Text.Blank

/-!
Lines of a program. A line has a label, an operation and an operand, kept apart by blanks; what
follows the operand is a comment. The label is missing if the line starts with a blank.
-/
namespace MixComputer.Source

structure Line where
  label : Option String
  operation : String
  operand : String
  /-- All that follows the operation, untouched. -/
  rest : String
deriving DecidableEq

/-- Lines that start with an asterisk, and lines of blanks. -/
def isComment (line : String) : Bool :=
  line.toList.head? == some '*' || line.toList.all Text.isBlank

/-- The characters up to the first blank, after those at the front, and what follows them. -/
def nextField (cs : List Char) : List Char × List Char :=
  let cs := Text.dropBlanks cs
  (cs.takeWhile (!Text.isBlank ·), cs.dropWhile (!Text.isBlank ·))

/-- What keeps a text from being a symbol: one to ten letters and digits with a letter among
them. -/
def symbolProblem? (name : String) : Option Malformation :=
  let cs := name.toList
  if cs.all Char.isAlphanum && cs.any Char.isAlpha then
    if maxSymbolLength < cs.length then some (.symbolTooLong name) else none
  else some (.notASymbol name)

namespace Line

def ofFields (label : Option String) (cs : List Char) : Except Malformation Line :=
  let (operation, rest) := nextField cs
  if operation.isEmpty then .error .missingOperation
  else .ok ⟨label, String.ofList operation, String.ofList (nextField rest).1, String.ofList rest⟩

def ofText? (text : String) : Except Malformation Line :=
  let cs := text.toList
  if (cs.head?.map Text.isBlank).getD false then ofFields none cs
  else
    let (label, rest) := nextField cs
    match symbolProblem? (String.ofList label) with
    | some problem => .error problem
    | none => ofFields (some (String.ofList label)) rest

end Line

/-- The five characters that follow an operation. They are kept apart from it by two spaces, or by
one blank; missing characters are spaces. -/
def fiveCharacters (rest : String) : List Char :=
  let cs := match rest.toList with
    | ' ' :: ' ' :: cs => cs
    | c :: cs => if Text.isBlank c then cs else c :: cs
    | [] => []
  (cs ++ List.replicate 5 ' ').take 5

end MixComputer.Source
