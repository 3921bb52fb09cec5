import RatScript.Operator

/-!
Operation codes: what each instruction does, the byte that stands for it, its mnemonic and the
layout of its operand.
-/

namespace RatScript

/-- Where a variable lives. -/
inductive Scope where
  | global
  | frame
  deriving DecidableEq, Inhabited

/-- Tests that leave a truth value. -/
inductive Test where
  | equals
  | greater
  | less
  deriving DecidableEq, Inhabited

inductive Opcode where
  | newline
  | ret
  | constant
  | literal (value : Option Bool)
  | pop
  | operator (op : Operator)
  | negate
  | complement
  | not
  | test (t : Test)
  | define
  | get (scope : Scope)
  | set (scope : Scope)
  | count (scope : Scope) (up : Bool)
  | compound (scope : Scope) (op : Operator)
  | jump
  | jumpIf (truth : Bool)
  | loop
  | repeat_
  | endRepeat
  | defineRunnable
  | call
  | callNative
  deriving DecidableEq, Inhabited

/-- What the bytes behind an operation code mean. -/
inductive Layout where
  | none
  | constant
  | slot
  | jump
  | loop
  | runnable
  | native
  deriving DecidableEq, Inhabited

namespace Layout

def length : Layout → Nat
  | none => 0
  | constant | slot => 1
  | jump | loop | native => 2
  | runnable => 3

def label : Layout → String
  | none => "None"
  | constant => "Constant"
  | slot => "Slot"
  | jump => "Jump"
  | loop => "Loop"
  | runnable => "Runnable"
  | native => "Native"

end Layout

namespace Opcode

/-- All operations, in the order of their bytes. -/
def table : Array Opcode := #[
  newline, ret, constant, literal (some true), literal (some false), literal none, pop,
  operator .add, operator .sub, operator .multiply, operator .divide, negate,
  operator .shiftLeft, operator .shiftRight, operator .bitAnd, operator .bitOr, operator .bitXor,
  complement, not, test .equals, test .greater, test .less,
  define, get .global, set .global, get .frame, set .frame,
  count .global true, count .global false, count .frame true, count .frame false,
  compound .global .add, compound .global .sub, compound .global .multiply,
  compound .global .divide, compound .global .bitAnd, compound .global .bitOr,
  compound .global .bitXor, compound .global .shiftLeft, compound .global .shiftRight,
  compound .frame .add, compound .frame .sub, compound .frame .multiply,
  compound .frame .divide, compound .frame .bitAnd, compound .frame .bitOr,
  compound .frame .bitXor, compound .frame .shiftLeft, compound .frame .shiftRight,
  jump, jumpIf false, jumpIf true, loop, repeat_, endRepeat, defineRunnable, call, callNative]

def ofByte? (b : UInt8) : Option Opcode := table[b.toNat]?

def toByte : Opcode → UInt8
  | newline => 0
  | ret => 1
  | constant => 2
  | literal (some true) => 3
  | literal (some false) => 4
  | literal none => 5
  | pop => 6
  | operator .add => 7
  | operator .sub => 8
  | operator .multiply => 9
  | operator .divide => 10
  | negate => 11
  | operator .shiftLeft => 12
  | operator .shiftRight => 13
  | operator .bitAnd => 14
  | operator .bitOr => 15
  | operator .bitXor => 16
  | complement => 17
  | not => 18
  | test .equals => 19
  | test .greater => 20
  | test .less => 21
  | define => 22
  | get .global => 23
  | set .global => 24
  | get .frame => 25
  | set .frame => 26
  | count .global true => 27
  | count .global false => 28
  | count .frame true => 29
  | count .frame false => 30
  | compound .global .add => 31
  | compound .global .sub => 32
  | compound .global .multiply => 33
  | compound .global .divide => 34
  | compound .global .bitAnd => 35
  | compound .global .bitOr => 36
  | compound .global .bitXor => 37
  | compound .global .shiftLeft => 38
  | compound .global .shiftRight => 39
  | compound .frame .add => 40
  | compound .frame .sub => 41
  | compound .frame .multiply => 42
  | compound .frame .divide => 43
  | compound .frame .bitAnd => 44
  | compound .frame .bitOr => 45
  | compound .frame .bitXor => 46
  | compound .frame .shiftLeft => 47
  | compound .frame .shiftRight => 48
  | jump => 49
  | jumpIf false => 50
  | jumpIf true => 51
  | loop => 52
  | repeat_ => 53
  | endRepeat => 54
  | defineRunnable => 55
  | call => 56
  | callNative => 57

theorem ofByte?_toByte (op : Opcode) : ofByte? op.toByte = some op := by
  rcases op with
    _|_|_|v|_|o|_|_|_|t|_|s|s|⟨s,up⟩|⟨s,o⟩|_|b|_|_|_|_|_|_
  case literal => rcases v with _|_|_ <;> rfl
  case operator => cases o <;> rfl
  case test => cases t <;> rfl
  case get => cases s <;> rfl
  case set => cases s <;> rfl
  case count => cases s <;> cases up <;> rfl
  case compound => cases s <;> cases o <;> rfl
  case jumpIf => cases b <;> rfl
  all_goals rfl

def layout : Opcode → Layout
  | constant | define | get .global | set .global | count .global _ | compound .global _ | call =>
    .constant
  | get .frame | set .frame | count .frame _ | compound .frame _ => .slot
  | jump | jumpIf _ => .jump
  | loop => .loop
  | defineRunnable => .runnable
  | callNative => .native
  | _ => .none

/-- Bytes of the whole instruction. -/
def width (op : Opcode) : Nat := 1+op.layout.length

/-- The operation a compound assignment applies. -/
def base? : Opcode → Option Opcode
  | compound _ op => some (operator op)
  | _ => none

end Opcode

def Operator.mnemonic : Operator → String
  | add => "ADD"
  | sub => "SUB"
  | multiply => "MULTIPLY"
  | divide => "DIVIDE"
  | bitAnd => "BIT_AND"
  | bitOr => "BIT_OR"
  | bitXor => "BIT_XOR"
  | shiftLeft => "SHIFT_LEFT"
  | shiftRight => "SHIFT_RIGHT"

def Scope.mnemonic : Scope → String
  | global => "GLOBAL"
  | frame => "LOCAL"

def Opcode.mnemonic : Opcode → String
  | newline => "NEWLINE"
  | ret => "RETURN"
  | constant => "CONSTANT"
  | literal (some true) => "TRUE"
  | literal (some false) => "FALSE"
  | literal none => "NONE"
  | pop => "POP"
  | operator op => op.mnemonic
  | negate => "NEGATE"
  | complement => "BIT_NOT"
  | not => "NOT"
  | test .equals => "EQUALS"
  | test .greater => "GREATER"
  | test .less => "LESS"
  | define => "DEFINE_GLOBAL"
  | get scope => "GET_"++scope.mnemonic
  | set scope => "SET_"++scope.mnemonic
  | count scope up => (if up then "INC_" else "DEC_")++scope.mnemonic
  | compound scope op => op.mnemonic++"_ASSIGN_"++scope.mnemonic
  | jump => "JUMP"
  | jumpIf false => "JUMP_IF_FALSE"
  | jumpIf true => "JUMP_IF_TRUE"
  | loop => "LOOP"
  | repeat_ => "REPEAT"
  | endRepeat => "END_REPEAT"
  | defineRunnable => "DEFINE_RUNNABLE"
  | call => "CALL"
  | callNative => "CALL_NATIVE"

end RatScript
