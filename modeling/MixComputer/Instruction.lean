import MixComputer.Address
import MixComputer.Field
import MixComputer.Mnemonic

/-!
Instructions as words. From the left a word holds the sign and two bytes of the address, one byte
of index, one of the `F` part and one of the operation code. Any word splits into these parts; it
is an instruction if the index is at most 6.
-/
namespace MixComputer

structure Parts where
  code : Byte
  index : Byte
  field : Byte
  address : Address
deriving DecidableEq

namespace Parts

/-- The word with the given parts. Of the address only two bytes are kept. -/
def pack (p : Parts) : Word :=
  Word.wrap p.address.negative
    (((p.address.magnitude % weight 2 * 64 + p.index.val) * 64 + p.field.val) * 64 + p.code.val)

def unpack (w : Word) : Parts where
  code := w.byte 5
  index := w.byte 3
  field := w.byte 4
  address := ⟨w.negative, w.magnitude / weight 3⟩

end Parts

inductive DecodeError where
  | operationCode (code : Byte)
  | index (index : Byte)
deriving DecidableEq

def DecodeError.message : DecodeError → String
  | .operationCode c => s!"operation code {c.val} out of range"
  | .index i => s!"index modifier {i.val} out of range"

/-- An index of zero means no indexing; the others name an index register. -/
structure Instruction where
  operation : Operation
  index : Fin 7
  field : Byte
  address : Address
deriving DecidableEq

namespace Instruction

def decode (w : Word) : Except DecodeError Instruction :=
  let parts := Parts.unpack w
  match Operation.ofCode? parts.code with
  | none => .error (.operationCode parts.code)
  | some operation =>
    if h : parts.index.val < 7 then
      .ok ⟨operation, ⟨parts.index, h⟩, parts.field, parts.address⟩
    else .error (.index parts.index)

def encode (i : Instruction) : Word :=
  Parts.pack ⟨Byte.ofNat i.operation.code, Byte.ofNat i.index, i.field, i.address⟩

def spec? (i : Instruction) : Option Field := Field.ofCode? i.field

end Instruction

end MixComputer
