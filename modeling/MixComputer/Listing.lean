import MixComputer.Instruction
import MixComputer.Text.Layout

/-!
The written forms of words, fields, addresses and instructions. An instruction is written in the
assembly language, as in `LDA 2000,2(1:3)`.
-/
namespace MixComputer

def Word.text (w : Word) : String :=
  w.bytes.foldl (fun s b => s ++ " " ++ Text.zeroPadded 2 b.val) (if w.negative then "-" else "+")

def Field.text (f : Field) : String := "(" ++ toString f.left ++ ":" ++ toString f.right ++ ")"

/-- Minus zero is written `-0`. -/
def Address.text (a : Address) : String :=
  (if a.negative then "-" else "") ++ toString a.magnitude

namespace Instruction

def indexText (i : Instruction) : String :=
  if i.index.val = 0 then "" else "," ++ toString i.index.val

/-- The `F` part as it follows the index: a partial field where the operation takes one and `F`
is one, and a number where not. -/
def fieldText (i : Instruction) : String :=
  match i.operation.usage, i.spec? with
  | .bytes, some spec => spec.text
  | _, _ => "(" ++ toString i.field.val ++ ")"

def text (i : Instruction) : String :=
  let (name, showsField) := i.operation.nameFor i.field
  name ++ " " ++ i.address.text ++ i.indexText ++ (if showsField then i.fieldText else "")

end Instruction

end MixComputer
