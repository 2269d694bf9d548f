import MixComputer.Assembly.Draft

/-!
What happens to a draft when all its lines are read. Symbols that no line defines get a word each,
then literals do, and then every place that waits for a value is patched.
-/
namespace MixComputer.Assembly

open Source

namespace Draft

/-- The symbols that were used and never defined, with the line of their first use. The symbol
that names the entry comes last. -/
def undefinedSymbols (d : Draft) : List (String × Nat) :=
  let used := (d.futures.filter fun f => !d.symbols.contains f.name).map fun f =>
    (f.name, f.first.line)
  match d.entrySymbol with
  | some (name, line) =>
    if d.symbols.contains name || used.any fun u => u.1 == name then used
    else used ++ [(name, line)]
  | none => used

/-- Gives an undefined symbol a word that holds zero, with a warning. -/
def allocateSymbol (d : Draft) (name : String) (line : Nat) : Draft :=
  match d.emit Word.zero >>= (·.define name d.location) with
  | .ok d' => d'.report line .warning (.undefinedSymbol name d.location)
  | .error error => d.report line .error error

/-- The value to be stored for a patch. A value of zero has the sign of the reference. -/
def patchWord (patch : Patch) (v : Int) : Word :=
  if v = 0 then Word.wrap patch.negative 0 else Word.ofInt v

def patchFits (patch : Patch) (v : Int) : Bool :=
  decide (Word.Fits v) && (patch.field != Field.address || v.natAbs < weight 2)

def applyPatch (d : Draft) (patch : Patch) (value : Int) : Draft :=
  let v := if patch.negative then -value else value
  if patchFits patch v then
    let w := d.memory.getD patch.location Word.zero
    { d with memory := d.memory.write patch.location (patch.field.insert w (patchWord patch v)) }
  else d.report patch.line .error (.outOfRange .address v)

def placeLiteral (d : Draft) (w : Word) (patch : Patch) : Draft :=
  match d.emit w with
  | .ok d' => d'.applyPatch patch d.location
  | .error error => d.report patch.line .error error

def patchFuture (d : Draft) (f : Future) : Draft :=
  match d.symbols.get? f.name with
  | some value => (f.first :: f.others).foldl (fun d patch => d.applyPatch patch value) d
  | none => d

def settleEntry (d : Draft) : Draft :=
  match d.entrySymbol with
  | none => d
  | some (name, line) =>
    match d.symbols.get? name with
    | none => d
    | some value =>
      match d.checkLocation .entryPoint value with
      | .ok entry => { d with entry := some entry }
      | .error error => d.report line .error error

/-- The label of the last line names the location after all words. -/
def settleEndLabel (d : Draft) : Draft :=
  match d.endLabel with
  | none => d
  | some (name, line) =>
    match d.define name d.location with
    | .ok d' => d'
    | .error error => d.report line .error error

def resolve (d : Draft) : Draft :=
  let d := d.undefinedSymbols.foldl (fun d u => d.allocateSymbol u.1 u.2) d
  let d := d.literals.foldl (fun d l => d.placeLiteral l.1 l.2) d
  let d := d.futures.foldl patchFuture d
  d.settleEntry.settleEndLabel

end Draft

end MixComputer.Assembly
