import RatScript.Code.Chunk
import RatScript.Token.Scan

/-!
What the compiler reports: a complaint, the place it is about and the token found there.
-/

namespace RatScript

/-- Kinds of complaints, by which exit codes are given. -/
inductive ComplaintKind where
  | unexpectedToken
  | unrecognizedToken
  | unclosedBlock
  | constantsOverflow
  | numericOverflow
  | redeclaredIdentifier
  | undefinedRunnable
  | nestedRunnable
  | jumpOverflow
  | internal
  | nestingTooDeep
  deriving DecidableEq, Inhabited

namespace ComplaintKind

def all : List ComplaintKind :=
  [unexpectedToken, unrecognizedToken, unclosedBlock, constantsOverflow, numericOverflow,
    redeclaredIdentifier, undefinedRunnable, nestedRunnable, jumpOverflow, internal,
    nestingTooDeep]

def label : ComplaintKind → String
  | unexpectedToken => "UnexpectedToken"
  | unrecognizedToken => "UnrecognizedToken"
  | unclosedBlock => "UnclosedBlock"
  | constantsOverflow => "ConstantsOverflow"
  | numericOverflow => "NumericOverflow"
  | redeclaredIdentifier => "RedeclaredIdentifier"
  | undefinedRunnable => "UndefinedRunnable"
  | nestedRunnable => "NestedRunnable"
  | jumpOverflow => "JumpOverflow"
  | internal => "Internal"
  | nestingTooDeep => "NestingTooDeep"

def code : ComplaintKind → Nat
  | unexpectedToken => 101
  | unrecognizedToken => 102
  | unclosedBlock => 103
  | constantsOverflow => 104
  | numericOverflow => 105
  | redeclaredIdentifier => 106
  | undefinedRunnable => 107
  | nestedRunnable => 108
  | jumpOverflow => 109
  | internal => 110
  | nestingTooDeep => 111

end ComplaintKind

/-- Deepest nesting of statements and subexpressions. -/
def maxNesting : Nat := 256

inductive Complaint where
  | expected (what : String)
  | strayCloser (closer : Keyword)
  | assignmentTarget
  | returnFromScript
  | unscannable (fault : ScanFault)
  | unclosed (opener closer : Keyword)
  | pool (fault : PoolFault)
  | redeclaredLocal (name : String)
  | redeclaredRunnable (name : String)
  | duplicateParameter (name : String)
  | undeclaredRunnable (name : String)
  | argumentCount (name : String) (arity count : Nat)
  | nestedRunnable
  | jumpTooLong
  | loopTooLong
  | bodyTooLong
  | tooManyLocals
  | tooDeep
  deriving DecidableEq

namespace Complaint

def kind : Complaint → ComplaintKind
  | expected _ | strayCloser _ | assignmentTarget | returnFromScript => .unexpectedToken
  | unscannable _ => .unrecognizedToken
  | unclosed _ _ => .unclosedBlock
  | pool .full => .constantsOverflow
  | pool (.unrepresentable _) => .numericOverflow
  | redeclaredLocal _ | redeclaredRunnable _ | duplicateParameter _ => .redeclaredIdentifier
  | undeclaredRunnable _ | argumentCount _ _ _ => .undefinedRunnable
  | nestedRunnable => .nestedRunnable
  | jumpTooLong | loopTooLong | bodyTooLong => .jumpOverflow
  | tooManyLocals => .internal
  | tooDeep => .nestingTooDeep

def message : Complaint → String
  | expected what => "Expected "++what
  | strayCloser closer => "'"++closer.spelling++"' without an open block"
  | assignmentTarget => "Invalid assignment target"
  | returnFromScript => "Can't return from top-level code"
  | unscannable fault => fault.message
  | unclosed opener _ => "'"++opener.spelling++"' block is never closed"
  | pool fault => fault.message
  | redeclaredLocal name => "'"++name++"' is already declared in this scope"
  | redeclaredRunnable name => "'"++name++"' is already declared"
  | duplicateParameter name => "duplicate parameter '"++name++"'"
  | undeclaredRunnable name => "'"++name++"' is not a declared runnable"
  | argumentCount name arity count =>
    "'"++name++"' expects "++toString arity++" argument(s) but got "++toString count
  | nestedRunnable => "runnables can't be declared inside other runnables"
  | jumpTooLong => "too much code to jump over"
  | loopTooLong => "loop body is too large"
  | bodyTooLong => "runnable body has too many lines"
  | tooManyLocals => "too many local variables in one runnable"
  | tooDeep => "nesting deeper than "++toString maxNesting++" levels"

def hint? : Complaint → Option String
  | unclosed _ closer => some ("add '"++closer.spelling++"'")
  | _ => none

end Complaint

structure Diagnostic where
  complaint : Complaint
  pos : Position
  /-- The token found, as it is spelled. -/
  lexeme : String
  deriving DecidableEq

namespace Diagnostic

def ofScanError (e : ScanError) : Diagnostic := ⟨.unscannable e.fault, e.pos, ""⟩

def kind (d : Diagnostic) : ComplaintKind := d.complaint.kind

def text (d : Diagnostic) : String :=
  "[Compilation error in line "++toString d.pos.line++", at '"++d.lexeme++"']: "++
    d.complaint.message++
    match d.complaint.hint? with
    | some hint => "\n  hint: "++hint
    | none => ""

/-- The code of the first of several diagnostics. -/
def exitCode : List Diagnostic → Nat
  | [] => 0
  | d :: _ => d.kind.code

def report (ds : List Diagnostic) : String := "\n".intercalate (ds.map text)

end Diagnostic
end RatScript
