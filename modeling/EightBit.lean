import EightBit.Main
import EightBit.Proofs.Outcome
import EightBit.Proofs.Token.Extent
import EightBit.Proofs.Line.Operands
import EightBit.Proofs.Layout.Lines
import EightBit.Proofs.SymbolTable.Growth
import EightBit.Proofs.Expr.Whole
import EightBit.Proofs.Expr.Evaluation
import EightBit.Proofs.Image.Writes
import EightBit.Proofs.Layout.Advance
import EightBit.Proofs.Layout.Extent
import EightBit.Proofs.Assembly.Encoding
import EightBit.Proofs.Assembly.Halves
import EightBit.Proofs.Layout.Sizes
import EightBit.Proofs.Assembly.Reserved
import EightBit.Proofs.Layout.Growth
import EightBit.Proofs.Layout.Modes
import EightBit.Proofs.Layout.Counter
import EightBit.Proofs.Assembly.Emission
import EightBit.Proofs.Memory.Cells
import EightBit.Proofs.Memory.History
import EightBit.Proofs.Cpu.Operations
import EightBit.Proofs.Cpu.Invariant
import EightBit.Proofs.Cpu.Stepping
import EightBit.Proofs.Assembly.Disjoint
import EightBit.Proofs.Image.Segments
import EightBit.Proofs.Cpu.Loading
import EightBit.Proofs.Cpu.Fetch
import EightBit.Proofs.Token.Words
import EightBit.Proofs.Disassembly.Listing
import EightBit.Proofs.Disassembly.Reassembly
import EightBit.Proofs.SymbolTable.Missing
import EightBit.Proofs.Assembly.Distance
import EightBit.Proofs.Assembly.Faults
import EightBit.Proofs.Cpu.Rounds
import EightBit.Proofs.Cpu.LifeCycle
import EightBit.Proofs.Text.Capitals
import EightBit.Proofs.Text.ByteOrder
import EightBit.Proofs.Line.Alike
import EightBit.Proofs.Layout.Alike
import EightBit.Proofs.Assembly.Alike
import EightBit.Proofs.Text.Positional
import EightBit.Proofs.Line.Grammar
import EightBit.Proofs.Line.Derivation
import EightBit.Proofs.Text.Escaped
import EightBit.Proofs.Token.Spacing
import EightBit.Proofs.Line.Printing
import EightBit.Proofs.Line.RoundTrip
import EightBit.Proofs.Assembly.Data
import EightBit.Proofs.Line.Places
import EightBit.Proofs.Layout.Places
import EightBit.Proofs.Assembly.Places
import EightBit.Proofs.Image.Log
import EightBit.Proofs.Image.Runs
import EightBit.Proofs.Assembly.Values
import EightBit.Proofs.Assembly.Log
import EightBit.Proofs.Layout.Appended
import EightBit.Proofs.Assembly.Appended
import EightBit.Proofs.Cpu.Loader
import EightBit.Proofs.Cpu.GuardedLoad
import EightBit.Proofs.Cpu.Lockstep
import EightBit.Proofs.Cpu.Same
import EightBit.Proofs.Cpu.Binary
import EightBit.Proofs.Cpu.Client
import EightBit.Proofs.Token.Joined
import EightBit.Proofs.Token.Partition
import EightBit.Proofs.Line.Joined
import EightBit.Proofs.Line.Checked
import EightBit.Proofs.Line.InRange
import EightBit.Proofs.Layout.ByteLines
import EightBit.Proofs.SymbolTable.Meanings
import EightBit.Proofs.Assembly.Replaced
import EightBit.Proofs.Assembly.Splitting
import EightBit.Proofs.SymbolTable.Names
import EightBit.Proofs.SymbolTable.History
import EightBit.Proofs.Layout.Definitions
import EightBit.Proofs.Assembly.Namespace
import EightBit.Proofs.Layout.Constants
import EightBit.Proofs.Cpu.Addresses
import EightBit.Proofs.Cpu.ProgramCounter
import EightBit.Proofs.Cpu.Frame
import EightBit.Proofs.Cpu.Flags
import EightBit.Proofs.Cpu.Cycles
import EightBit.Proofs.Cpu.Calls
import EightBit.Proofs.Cpu.Stack
import EightBit.Proofs.Cpu.Addition
import EightBit.Proofs.Report.Screen
import EightBit.Proofs.Cpu.Execution
