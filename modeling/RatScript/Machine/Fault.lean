import RatScript.Machine.Streams
import RatScript.Machine.Value
import RatScript.Code.Opcode
import RatScript.Text.Columns

/-!
What can go wrong in a running script.
-/

namespace RatScript

/-- How a run ends, by which exit codes are given. -/
inductive ExitKind where
  | ok
  | unrecognizedOpcode
  | stackUnderflow
  | stackOverflow
  | typeError
  | undefinedIdentifier
  | redeclaredIdentifier
  | returnFromScript
  | internalError
  deriving DecidableEq, Inhabited

namespace ExitKind

def all : List ExitKind :=
  [ok, unrecognizedOpcode, stackUnderflow, stackOverflow, typeError, undefinedIdentifier,
    redeclaredIdentifier, returnFromScript, internalError]

def label : ExitKind → String
  | ok => "Ok"
  | unrecognizedOpcode => "UnrecognizedOpcode"
  | stackUnderflow => "StackUnderflow"
  | stackOverflow => "StackOverflow"
  | typeError => "TypeError"
  | undefinedIdentifier => "UndefinedIdentifier"
  | redeclaredIdentifier => "RedeclaredIdentifier"
  | returnFromScript => "ReturnFromScript"
  | internalError => "InternalError"

def code : ExitKind → Nat
  | ok => 0
  | unrecognizedOpcode => 201
  | stackUnderflow => 202
  | stackOverflow => 203
  | typeError => 204
  | undefinedIdentifier => 205
  | redeclaredIdentifier => 206
  | returnFromScript => 207
  | internalError => 208

end ExitKind

/-- Largest count of a `repeat`: numbers above it no longer count down by one. -/
def maxRepeat : Nat := 16777216

/-- Operand values appear in faults as they are described. -/
inductive Fault where
  | unrecognizedOpcode (byte : UInt8)
  | stackUnderflow
  | stackOverflow (capacity : Nat)
  | callDepth (limit : Nat)
  | undefined (name : String)
  | redeclared (name : String)
  | reserved (name : String)
  | returnFromScript
  | negate (operand : String)
  | complement (operand : String)
  | operands (symbol left right : String)
  | integralOperands (symbol left right : String)
  | shiftAmount (amount : Int32)
  | repeatCount (operand : String)
  | repeatLimit (count : Int32)
  | notRunnable (name : String)
  | notNative (name : String)
  | argumentCount (name : String) (arity count : Nat)
  | assignRunnable (name : String)
  | notCountable (operand : String)
  | textExpected (native : Native) (kind : String)
  | textToNumber (content : String)
  | kindToNumber (kind : String)
  | heap (fault : HeapFault)
  | noFrame
  | missingFunction (function : Nat)
  | missingConstant (function : Nat)
  | pastEnd (name : String)
  | truncated
  | constantOutOfRange (index : UInt8)
  | notIdentifier (index : UInt8)
  | localOutOfRange (slot : UInt8)
  | loopBeforeStart
  | repeatCounter
  | defineOperand
  | output
  | trace
  | input
  | readFile (path : String) (error : FileError)
  | openFile (path : String) (error : FileError)
  | emptyFile (path : String) (error : FileError)
  deriving DecidableEq

namespace Fault

def kind : Fault → ExitKind
  | unrecognizedOpcode _ => .unrecognizedOpcode
  | stackUnderflow => .stackUnderflow
  | stackOverflow _ | callDepth _ => .stackOverflow
  | undefined _ => .undefinedIdentifier
  | redeclared _ | reserved _ => .redeclaredIdentifier
  | returnFromScript => .returnFromScript
  | negate _ | complement _ | operands _ _ _ | integralOperands _ _ _ | shiftAmount _
  | repeatCount _ | repeatLimit _ | notRunnable _ | notNative _ | argumentCount _ _ _
  | assignRunnable _ | notCountable _ | textExpected _ _ | textToNumber _ | kindToNumber _ => .typeError
  | heap _ | noFrame | missingFunction _ | missingConstant _ | pastEnd _ | truncated
  | constantOutOfRange _ | notIdentifier _ | localOutOfRange _ | loopBeforeStart | repeatCounter
  | defineOperand | output | trace | input | readFile _ _ | openFile _ _ | emptyFile _ _ =>
    .internalError

def message : Fault → String
  | unrecognizedOpcode byte => "unrecognized opcode 0x"++Text.hexByte byte
  | stackUnderflow => "stack underflow"
  | stackOverflow capacity => "stack overflow (capacity "++toString capacity++")"
  | callDepth limit => "call depth limit of "++toString limit++" exceeded"
  | undefined name => "undefined identifier '"++name++"'"
  | redeclared name => "identifier '"++name++"' is already declared"
  | reserved name => "'"++name++"' is reserved for a native function"
  | returnFromScript => "can't return from top-level code"
  | negate operand => "cannot negate "++operand
  | complement operand => "operand of '~' must be integral, got "++operand
  | operands symbol left right =>
    "operands of '"++symbol++"' must be numbers, got "++left++" and "++right
  | integralOperands symbol left right =>
    "operands of '"++symbol++"' must be integral numbers, got "++left++" and "++right
  | shiftAmount amount => "shift amount "++toString amount.toInt++" is outside 0..32"
  | repeatCount operand => "repeat count must be a positive whole number, got "++operand
  | repeatLimit count =>
    "repeat count "++toString count.toInt++" is above the limit of "++toString maxRepeat
  | notRunnable name => "'"++name++"' is not a runnable"
  | notNative name => "'"++name++"' is not a native runnable"
  | argumentCount name arity count =>
    "'"++name++"' expects "++toString arity++" argument(s) but got "++toString count
  | assignRunnable name => "cannot assign to runnable '"++name++"'"
  | notCountable operand => "cannot increment or decrement "++operand
  | textExpected native kind => native.name++" expects a string, got "++kind
  | textToNumber content => "cannot convert \""++content++"\" to a number"
  | kindToNumber kind => "cannot convert "++kind++" to a number"
  | heap fault => fault.message
  | noFrame => "no active frame"
  | missingFunction function => "missing function "++toString function
  | missingConstant function => "constant refers to missing function "++toString function
  | pastEnd name => "runnable '"++name++"' ran past its end"
  | truncated => "instruction runs past the end of the chunk"
  | constantOutOfRange index => "constant "++toString index++" is out of range"
  | notIdentifier index => "constant "++toString index++" is not an identifier"
  | localOutOfRange slot => "local slot "++toString slot++" is out of range"
  | loopBeforeStart => "loop jumps before the start of the chunk"
  | repeatCounter => "repeat counter is not a number"
  | defineOperand => "DEFINE_RUNNABLE operand is not a runnable"
  | output => "could not write output: "++Sink.refusal
  | trace => "could not write trace: "++Sink.refusal
  | input => "could not read input: "++FileError.notText.message
  | readFile path error => "could not read '"++path++"': "++error.message
  | openFile path error => "could not open '"++path++"': "++error.message
  | emptyFile path error => "could not empty '"++path++"': "++error.message

def help? : Fault → Option String
  | callDepth _ => some "check that recursive runnables have a base case"
  | complement _ | integralOperands _ _ _ => some "bitwise operators work on whole numbers"
  | repeatLimit _ => some "use a while loop for longer counts"
  | _ => none

end Fault

/-- A fault and the source line it arose on; zero where there is none. -/
structure Failure where
  fault : Fault
  line : Nat
  deriving DecidableEq

def Failure.text (f : Failure) : String :=
  "[Runtime error in line "++toString f.line++"]: "++f.fault.message++
    match f.fault.help? with
    | some help => "\n  help: "++help
    | none => ""

end RatScript
