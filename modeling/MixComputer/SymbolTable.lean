import MixComputer.Text.Table

/-!
Symbol tables. A symbol is defined at most once and keeps its first value; the table lists its
symbols in the order of their definitions.
-/
namespace MixComputer

structure SymbolTable where
  entries : List (String × Int)
deriving DecidableEq

namespace SymbolTable

def empty : SymbolTable := ⟨[]⟩

def get? (t : SymbolTable) (name : String) : Option Int := t.entries.lookup name

def contains (t : SymbolTable) (name : String) : Bool := (t.get? name).isSome

/-- Defines a symbol. If it has a value already, that value is the error. -/
def insert (t : SymbolTable) (name : String) (value : Int) : Except Int SymbolTable :=
  match t.get? name with
  | some old => .error old
  | none => .ok ⟨t.entries ++ [(name, value)]⟩

def size (t : SymbolTable) : Nat := t.entries.length

def isEmpty (t : SymbolTable) : Bool := t.entries.isEmpty

def display (t : SymbolTable) : String :=
  Text.Table.render
    { frame := .plain
      title := [.left "Symbol", .right "Value"]
      rows := t.entries.map fun e => [.left e.1, .right (toString e.2)] }

end SymbolTable

end MixComputer
