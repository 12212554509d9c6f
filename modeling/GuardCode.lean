import GuardCode.Assembly
import GuardCode.Binary.Arithmetic
import GuardCode.Binary.Basic
import GuardCode.Binary.Decimal
import GuardCode.Binary.Shortest
import GuardCode.Code.Basic
import GuardCode.Code.Listing
import GuardCode.Code.Relaxation
import GuardCode.CommandLine
import GuardCode.CompileError
import GuardCode.Diagnostic
import GuardCode.Directive
import GuardCode.Drawing
import GuardCode.Emission
import GuardCode.ExecutionError
import GuardCode.Expr.Basic
import GuardCode.Expr.Printer
import GuardCode.Failure
import GuardCode.Grammar.Matcher
import GuardCode.Grammar.Phrase
import GuardCode.Grammar.Rule
import GuardCode.Grammar.Span
import GuardCode.Grammar.Token
import GuardCode.IfBlock
import GuardCode.Instruction
import GuardCode.Literal
import GuardCode.Machine.Basic
import GuardCode.Machine.Build
import GuardCode.Machine.Host
import GuardCode.Machine.Operation
import GuardCode.Main
import GuardCode.MethodBody
import GuardCode.Nesting
import GuardCode.Operator
import GuardCode.ParseError
import GuardCode.Predicate
import GuardCode.Proofs.Acceptance
import GuardCode.Proofs.Answering
import GuardCode.Proofs.Assembly.Performs
import GuardCode.Proofs.Assembly.Tracking
import GuardCode.Proofs.Blocks.Depth
import GuardCode.Proofs.Blocks.Execution
import GuardCode.Proofs.Blocks.Opening
import GuardCode.Proofs.Blocks.Structured
import GuardCode.Proofs.ChainValues
import GuardCode.Proofs.Code.Forms
import GuardCode.Proofs.Code.Offsets
import GuardCode.Proofs.Code.Placed
import GuardCode.Proofs.Correctness
import GuardCode.Proofs.Defences
import GuardCode.Proofs.Emission.Comparisons
import GuardCode.Proofs.Emission.Depths
import GuardCode.Proofs.Emission.Drafts
import GuardCode.Proofs.Emission.Safety
import GuardCode.Proofs.Emission.Shape
import GuardCode.Proofs.Emission.Simulation
import GuardCode.Proofs.Emission.Success
import GuardCode.Proofs.ErrorSpans
import GuardCode.Proofs.Expr.Admissible
import GuardCode.Proofs.Expr.Evaluation
import GuardCode.Proofs.Expr.Parts
import GuardCode.Proofs.Expr.Spelling
import GuardCode.Proofs.Expr.Typing
import GuardCode.Proofs.Grammar.Accepting
import GuardCode.Proofs.Grammar.Completeness
import GuardCode.Proofs.Grammar.Language
import GuardCode.Proofs.Grammar.Located
import GuardCode.Proofs.Grammar.Matching
import GuardCode.Proofs.Grammar.Openings
import GuardCode.Proofs.Grammar.Patterns
import GuardCode.Proofs.Grammar.Phrases
import GuardCode.Proofs.Grammar.Places
import GuardCode.Proofs.Grammar.Positions
import GuardCode.Proofs.Grammar.Scanning
import GuardCode.Proofs.Grammar.Soundness
import GuardCode.Proofs.Grammar.Tokens
import GuardCode.Proofs.Grammar.Unambiguous
import GuardCode.Proofs.Grammar.Written
import GuardCode.Proofs.KindSafety
import GuardCode.Proofs.Latching
import GuardCode.Proofs.Layout
import GuardCode.Proofs.Listing
import GuardCode.Proofs.LiteralValues
import GuardCode.Proofs.Locals
import GuardCode.Proofs.Lowering.Agreement
import GuardCode.Proofs.Lowering.Alongside
import GuardCode.Proofs.Lowering.Climbing
import GuardCode.Proofs.Lowering.Pairs
import GuardCode.Proofs.Lowering.Steps
import GuardCode.Proofs.Machine.Agreement
import GuardCode.Proofs.Machine.Builds
import GuardCode.Proofs.Machine.Calls
import GuardCode.Proofs.Machine.Delivery
import GuardCode.Proofs.Machine.Effects
import GuardCode.Proofs.Machine.Frame
import GuardCode.Proofs.Machine.Likeness
import GuardCode.Proofs.Machine.Progress
import GuardCode.Proofs.Machine.Run
import GuardCode.Proofs.Nesting
import GuardCode.Proofs.NestingLimit
import GuardCode.Proofs.Precedence
import GuardCode.Proofs.Purity
import GuardCode.Proofs.Reading.Blame
import GuardCode.Proofs.Reading.Checked
import GuardCode.Proofs.Reading.Faults
import GuardCode.Proofs.Reading.Following
import GuardCode.Proofs.Reading.Integers
import GuardCode.Proofs.Reading.Kinds
import GuardCode.Proofs.Reading.Looseness
import GuardCode.Proofs.Reading.Meaning
import GuardCode.Proofs.Reading.Parsed
import GuardCode.Proofs.Reading.Readable
import GuardCode.Proofs.Reading.Scanned
import GuardCode.Proofs.Relaxation
import GuardCode.Proofs.Reruns
import GuardCode.Proofs.RoundTrip
import GuardCode.Proofs.Scope
import GuardCode.Proofs.StackSafety
import GuardCode.Proofs.StepLimit
import GuardCode.Proofs.Stepping
import GuardCode.Proofs.Termination
import GuardCode.Proofs.Text.Lines
import GuardCode.Proofs.Text.ReadBack
import GuardCode.Proofs.ZeroFields
import GuardCode.Reading
import GuardCode.Scope
import GuardCode.Signature
import GuardCode.Staging
import GuardCode.Text.Blank
import GuardCode.Text.Hidden
import GuardCode.Text.Mark
import GuardCode.Text.Numeral
import GuardCode.Text.Quoted
import GuardCode.Text.Ranges
import GuardCode.Text.Width
import GuardCode.Types
import GuardCode.Value
