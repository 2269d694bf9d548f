import MixComputer.Assembly
import MixComputer.Machine.Display
import MixComputer.Machine.Run

/-!
The command line: a program is read from a file, assembled and run, and the machine is shown when
it stops. What is to be printed is computed here; printing it is the business of `Main`.
-/
namespace MixComputer.CommandLine

structure Report where
  status : Nat
  output : String
  errors : String
deriving DecidableEq, Inhabited

inductive Input where
  | nothing
  | unreadable (path reason : String)
  | file (path : String) (content : ByteArray)

def usage : Report := ⟨2, "", "Usage: mix <file.mixal>\n"⟩

def noSuchFile : String := "No such file or directory (os error 2)"

def notText : String := "stream did not contain valid UTF-8"

def unreadable (path reason : String) : Report := ⟨2, "", path ++ ": " ++ reason ++ "\n"⟩

/-- Where a program begins: the location that it names itself, the symbol `START`, or zero. -/
def entryOf (a : Assembly) : Nat :=
  match a.entry with
  | some entry => entry
  | none => ((a.symbols.get? "START").filter (0 ≤ ·)).elim 0 Int.toNat

def diagnosticLines (path : String) (a : Assembly) : String :=
  String.join (a.diagnostics.map fun g => path ++ ": " ++ g.message ++ "\n")

def anomalyLines {σ : Type} (m : Machine σ) : String :=
  String.join (m.anomalies.toList.map fun f => "warning: " ++ f.message ++ "\n")

def finished {σ : Type} (diagnostics : String) (m : Machine σ) : Except Fault Nat → Report
  | .ok _ => ⟨0, m.display ++ "\n", diagnostics ++ anomalyLines m⟩
  | .error f =>
    ⟨1, m.display ++ "\n", diagnostics ++ anomalyLines m ++ "error: " ++ f.message ++ "\n"⟩

/-- Assembles and runs a program. A program with errors is not run. There is no report if the run
takes more than `fuel` steps. -/
def runText (config : Configuration) (fuel : Nat) (path text : String) : Option Report :=
  let a := assemble Configuration.standard.memorySize text
  if a.succeeded then
    let (m, result) := (Machine.ofImage config Unattached.mk a.memory.toList).run (entryOf a) fuel
    result.map (finished (diagnosticLines path a) m)
  else some ⟨1, "", diagnosticLines path a⟩

def run (config : Configuration) (fuel : Nat) : Input → Option Report
  | .nothing => some usage
  | .unreadable path reason => some (unreadable path reason)
  | .file path content =>
    match String.fromUTF8? content with
    | some text => runText config fuel path text
    | none => some (unreadable path notText)

end MixComputer.CommandLine
