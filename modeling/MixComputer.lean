import MixComputer.Machine.Display
import MixComputer.Main
import MixComputer.Peripherals.Bench
import MixComputer.Peripherals.Recorded
import MixComputer.Text.Ranges
import MixComputer.Text.Width
import MixComputer.Proofs.Instruction
import MixComputer.Proofs.Assembly.Evaluation
import MixComputer.Proofs.Address
import MixComputer.Proofs.Arithmetic
import MixComputer.Proofs.Bytes
import MixComputer.Proofs.Field
import MixComputer.Proofs.Shift
import MixComputer.Proofs.Memory
import MixComputer.Proofs.Assembly.Draft
import MixComputer.Proofs.Assembly.Emission
import MixComputer.Proofs.Assembly.Reading
import MixComputer.Proofs.Assembly.Resolution
import MixComputer.Proofs.Assembly.Settlement
import MixComputer.Proofs.Assembly.Denotation
import MixComputer.Proofs.Assembly.Entry
import MixComputer.Proofs.Assembly.Program
import MixComputer.Proofs.Source.Token
import MixComputer.Proofs.Source.Expression
import MixComputer.Proofs.Source.Operand
import MixComputer.Proofs.Source.Line
import MixComputer.Proofs.Source.Symbol
import MixComputer.Proofs.Source.Grammar
import MixComputer.Proofs.Source.Completeness
import MixComputer.Proofs.Source.Soundness
import MixComputer.Proofs.Source.Recognition
import MixComputer.Proofs.Listing
import MixComputer.Proofs.Machine.Invariant
import MixComputer.Proofs.Machine.Change
import MixComputer.Proofs.Machine.Reachable
import MixComputer.Proofs.Machine.Requests
import MixComputer.Proofs.Machine.Operand
import MixComputer.Proofs.Machine.Calculation
import MixComputer.Proofs.Machine.Product
import MixComputer.Proofs.Machine.Shift
import MixComputer.Proofs.Machine.Jump
import MixComputer.Proofs.Machine.Fault
import MixComputer.Proofs.Machine.Control
import MixComputer.Proofs.Machine.Limit
import MixComputer.Proofs.Machine.Move
import MixComputer.Proofs.Machine.Copy
import MixComputer.Proofs.Machine.Linkage
import MixComputer.Proofs.Machine.Simulation
import MixComputer.Proofs.Machine.Extension
import MixComputer.Proofs.Machine.FieldPolicy
import MixComputer.Proofs.Guarded.Step
import MixComputer.Proofs.ZeroSign
import MixComputer.Proofs.Machine.ZeroSign
import MixComputer.Proofs.Machine.Frame
import MixComputer.Proofs.Assembly.Constant
import MixComputer.Proofs.Assembly.EndLabel
import MixComputer.Proofs.Assembly.SkippedLine
import MixComputer.Proofs.Assembly.Reports
import MixComputer.Proofs.Assembly.Numbering
import MixComputer.Proofs.Assembly.Omission
import MixComputer.Proofs.Assembly.Names
import MixComputer.Proofs.Assembly.Layout
import MixComputer.Proofs.Assembly.Overwriting
import MixComputer.Proofs.Guarded.Assembly
import MixComputer.Proofs.Machine.Sum
import MixComputer.Proofs.Machine.Index
import MixComputer.Proofs.Conversion
import MixComputer.Proofs.Machine.Conversion
import MixComputer.Proofs.Machine.LoadStore
import MixComputer.Proofs.Machine.Comparison
import MixComputer.Proofs.Assembly.ExactValue
import MixComputer.Proofs.Assembly.Parts
import MixComputer.Proofs.Source.Proper
import MixComputer.Proofs.Source.Renumbering
import MixComputer.Proofs.Assembly.Renumbering
import MixComputer.Proofs.Source.Splitting
import MixComputer.Proofs.Assembly.Spacing
import MixComputer.Proofs.Assembly.Refusal
import MixComputer.Proofs.Assembly.Diagnostics
import MixComputer.Proofs.Assembly.Characters
import MixComputer.Proofs.SymbolTable
