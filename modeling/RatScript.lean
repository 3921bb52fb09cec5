import RatScript.Token.Listing
import RatScript.Code.Encoding
import RatScript.Code.Listing
import RatScript.Compile.Statement
import RatScript.Command.Run
import RatScript.Main
import RatScript.Proofs.Code.Directive
import RatScript.Proofs.Code.Encoding
import RatScript.Proofs.Code.Exploration
import RatScript.Proofs.Code.Phrase
import RatScript.Proofs.Code.Carrying
import RatScript.Proofs.Compile.Reports
import RatScript.Proofs.Compile.Growth
import RatScript.Proofs.Compile.Writing
import RatScript.Proofs.Compile.Distinct
import RatScript.Proofs.Compile.Emission
import RatScript.Proofs.Compile.Expression
import RatScript.Proofs.Compile.Scope
import RatScript.Proofs.Compile.Statement
import RatScript.Proofs.Compile.Runnable
import RatScript.Proofs.Compile.Acceptance
import RatScript.Proofs.Syntax.Tree
import RatScript.Proofs.Syntax.Code
import RatScript.Proofs.Syntax.Reading
import RatScript.Proofs.Machine.Heap
import RatScript.Proofs.Machine.Handles
import RatScript.Proofs.Machine.Counted
import RatScript.Proofs.Machine.Variables
import RatScript.Proofs.Machine.Execution
import RatScript.Proofs.Machine.Loading
import RatScript.Proofs.Machine.Session
import RatScript.Proofs.Code.Verified
import RatScript.Proofs.Code.HeightRule
import RatScript.Proofs.Machine.Shape
import RatScript.Proofs.Machine.Poised
import RatScript.Proofs.Machine.Simulation
import RatScript.Proofs.Machine.Instruction
import RatScript.Proofs.Machine.Turn
import RatScript.Proofs.Machine.Cells
import RatScript.Proofs.Machine.Opening
import RatScript.Proofs.Machine.Reload
import RatScript.Proofs.Machine.Survival
import RatScript.Proofs.Machine.Legacy
import RatScript.Proofs.Machine.Heights
import RatScript.Proofs.Machine.Entry
import RatScript.Proofs.Syntax.Operand
import RatScript.Proofs.Syntax.Statement
import RatScript.Proofs.Syntax.Control
import RatScript.Proofs.Syntax.Script
import RatScript.Proofs.Syntax.Lines
import RatScript.Proofs.Token.Scan
import RatScript.Proofs.Machine.Pointers
import RatScript.Proofs.Machine.Callers
import RatScript.Proofs.Syntax.SourceLine
import RatScript.Proofs.Meaning.Content
import RatScript.Proofs.Meaning.Interpreter
import RatScript.Proofs.Number.Counting
import RatScript.Proofs.Meaning.Shows
import RatScript.Proofs.Meaning.Effect
import RatScript.Proofs.Meaning.Natives
import RatScript.Proofs.Meaning.Instruction
import RatScript.Proofs.Meaning.Variables
import RatScript.Proofs.Meaning.Jumps
import RatScript.Proofs.Meaning.Progress
import RatScript.Proofs.Meaning.Passing
import RatScript.Proofs.Meaning.Expression
import RatScript.Proofs.Meaning.Blocks
import RatScript.Proofs.Meaning.Statement
import RatScript.Proofs.Meaning.Routine
import RatScript.Proofs.Meaning.Script
import RatScript.Proofs.Syntax.Unique
import RatScript.Proofs.Meaning.Run
import RatScript.Proofs.Machine.Liveness
import RatScript.Proofs.Machine.SelfJoin
import RatScript.Proofs.Machine.Boundaries
import RatScript.Proofs.Machine.Intact
import RatScript.Proofs.Machine.Limits
import RatScript.Proofs.Meaning.Anywhere
import RatScript.Proofs.Syntax.Completeness
import RatScript.Proofs.Command.Entry
import RatScript.Proofs.Compile.Depth
import RatScript.Proofs.Compile.LineByLine
import RatScript.Proofs.Syntax.Scoping
import RatScript.Proofs.Token.Spelling
import RatScript.Proofs.Token.Layout
import RatScript.Proofs.Token.Writing
import RatScript.Proofs.Token.Joined
import RatScript.Proofs.Compile.Context
import RatScript.Proofs.Syntax.Stages
import RatScript.Proofs.Syntax.Staging
import RatScript.Proofs.Syntax.Callees
import RatScript.Proofs.Machine.Course
import RatScript.Proofs.Machine.Activation
import RatScript.Proofs.Machine.Bindings
import RatScript.Proofs.Machine.Callees
import RatScript.Proofs.Meaning.Lexical
import RatScript.Proofs.Meaning.Calls
import RatScript.Proofs.Code.Truncation
import RatScript.Proofs.Code.Shortest
import RatScript.Proofs.Meaning.Compound
import RatScript.Proofs.Syntax.Naming
import RatScript.Proofs.Meaning.Labels
import RatScript.Proofs.Meaning.Entries
import RatScript.Proofs.Compile.Pool
import RatScript.Proofs.Compile.Landing
import RatScript.Proofs.Compile.Termination
