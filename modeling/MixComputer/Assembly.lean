import MixComputer.Assembly.Reading
import MixComputer.Assembly.Resolution
import MixComputer.Text.Lines

/-!
Assembling a program: its lines are read one after the other into a draft, and what they left open
is resolved at the end.
-/
namespace MixComputer

open Assembly

structure Diagnostic where
  line : Nat
  text : String
  severity : Severity
  error : Source.Error
deriving DecidableEq

def Diagnostic.message (g : Diagnostic) : String :=
  "line " ++ toString g.line ++ ": " ++ g.severity.name ++ ": " ++ g.error.message ++ "\n    "
    ++ g.text

structure Assembly where
  memory : Memory
  symbols : SymbolTable
  /-- The location that the last line names. -/
  entry : Option Nat
  diagnostics : List Diagnostic
deriving DecidableEq

namespace Assembly

def errors (a : Assembly) : List Diagnostic := a.diagnostics.filter (·.severity == .error)

def warnings (a : Assembly) : List Diagnostic := a.diagnostics.filter (·.severity == .warning)

/-- Warnings do not count against a program. -/
def succeeded (a : Assembly) : Bool := a.diagnostics.all (·.severity != .error)

end Assembly

def Assembly.Draft.ofLines (size : Nat) (lines : List String) : Draft :=
  ((Draft.start size).readLines 1 lines).resolve

def assemble (size : Nat) (text : String) : Assembly :=
  let lines := Text.lines text
  let d := Draft.ofLines size lines
  { memory := d.memory
    symbols := d.symbols
    entry := d.entry
    diagnostics := d.reports.map fun r =>
      ⟨r.line, lines.getD (r.line - 1) "", r.severity, r.error⟩ }

end MixComputer
