import Wordlang.Syntax.Printer
import Wordlang.Code.Assembly
import Wordlang.Semantics.Eval
import Wordlang.Main
import Wordlang.Proofs.Compiler.Landing
import Wordlang.Proofs.Compiler.Steps
import Wordlang.Proofs.Compiler.Variables
import Wordlang.Proofs.Compiler.Layout
import Wordlang.Proofs.Compiler.Returns
import Wordlang.Proofs.Compiler.Simulation
import Wordlang.Proofs.Compiler.Refinement
import Wordlang.Proofs.Compiler.Safety
import Wordlang.Proofs.Machine.Moves
import Wordlang.Proofs.Machine.Frames
import Wordlang.Proofs.Compiler.Jumps
import Wordlang.Proofs.Compiler.Termination
import Wordlang.Proofs.Compiler.Scoping
import Wordlang.Proofs.Parser.Grammar
import Wordlang.Proofs.Parser.Tokens
import Wordlang.Proofs.Parser.Soundness
import Wordlang.Proofs.Parser.Completeness
import Wordlang.Proofs.Parser.Acceptance
import Wordlang.Proofs.Printer.Lexing
import Wordlang.Proofs.Printer.Spelling
import Wordlang.Proofs.Printer.Limits
import Wordlang.Proofs.Printer.RoundTrip
import Wordlang.Proofs.Check.Paths
import Wordlang.Proofs.Check.Verdict
import Wordlang.Proofs.Compiler.Order
import Wordlang.Proofs.Compiler.Output
import Wordlang.Proofs.Parser.Laziness
import Wordlang.Proofs.Compiler.Fallback
import Wordlang.Proofs.Lexer.Partition
import Wordlang.Proofs.Lexer.Rendering
import Wordlang.Proofs.Parser.Languages
import Wordlang.Proofs.Parser.Blame
import Wordlang.Proofs.Machine.CallDepth
import Wordlang.Proofs.Code.Assembly
import Wordlang.Proofs.Code.Listing
import Wordlang.Proofs.Environment.Registration
import Wordlang.Proofs.Machine.Slots
import Wordlang.Proofs.Printer.Tokenizing
import Wordlang.Proofs.Compiler.Extension
import Wordlang.Proofs.CommandLine.Globals
import Wordlang.Proofs.Machine.Reuse
import Wordlang.Proofs.Parser.Descent
import Wordlang.Proofs.Compiler.Labels
import Wordlang.Proofs.Environment.Registry
import Wordlang.Proofs.Machine.SlotHost
