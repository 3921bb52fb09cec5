import RatScript.Compile.Builder
import RatScript.Native

/-!
Expressions to code. An operand is compiled by what its first token calls for and then extended by
operators as long as they bind at least as strongly as asked; subexpressions are one level deeper.
-/

namespace RatScript

/-- Binding strength, weakest first. -/
inductive Precedence where
  | assign
  | or
  | and
  | compare
  | term
  | factor
  | bit
  | unary
  deriving DecidableEq, Inhabited

namespace Precedence

def rank : Precedence → Nat
  | assign => 1
  | or => 2
  | and => 3
  | compare => 4
  | term => 5
  | factor => 6
  | bit => 7
  | unary => 8

end Precedence

/-- Operators between two operands. -/
inductive Infix where
  | operator (op : Operator)
  | comparison (c : Comparison)
  | and
  | or
  deriving DecidableEq

namespace Infix

def ofToken? : Token → Option Infix
  | .symbol (.operator op) => some (operator op)
  | .symbol (.comparison c) => some (comparison c)
  | .keyword .and => some and
  | .keyword .or => some or
  | _ => none

def precedence : Infix → Precedence
  | operator op => match op with
    | .add | .sub => .term
    | .multiply | .divide => .factor
    | .bitAnd | .bitOr | .bitXor | .shiftLeft | .shiftRight => .bit
  | comparison _ => .compare
  | and => .and
  | or => .or

/-- How strongly the right operand has to bind: `and` and `or` group to the right, all else to the
left. -/
def rightPrecedence : Infix → Precedence
  | operator op => match op with
    | .add | .sub => .factor
    | .multiply | .divide => .bit
    | .bitAnd | .bitOr | .bitXor | .shiftLeft | .shiftRight => .unary
  | comparison _ => .term
  | and => .and
  | or => .or

end Infix

/-- Ways to assign to a variable. -/
inductive Assignment where
  | plain
  | count (up : Bool)
  | compound (op : Operator)
  deriving DecidableEq

namespace Assignment

def ofToken? : Token → Option Assignment
  | .symbol .assign => some plain
  | .symbol .increment => some (count true)
  | .symbol .decrement => some (count false)
  | .symbol (.compound op) => some (compound op)
  | _ => none

def opcode (scope : Scope) : Assignment → Opcode
  | plain => .set scope
  | count up => .count scope up
  | compound op => .compound scope op

def hasOperand : Assignment → Bool
  | count _ => false
  | _ => true

end Assignment

namespace Comparison

def opcodes : Comparison → List Opcode
  | equal => [.test .equals]
  | notEqual => [.test .equals, .not]
  | less => [.test .less]
  | greater => [.test .greater]
  | lessEqual => [.test .greater, .not]
  | greaterEqual => [.test .less, .not]

end Comparison

namespace Compile

/-- A variable with the byte that names it. -/
structure Variable where
  scope : Scope
  operand : UInt8

def resolve (name : String) : Compile Variable := do
  match (← get).slot? name with
  | some slot => return ⟨.frame, slot⟩
  | none => return ⟨.global, ← textConstant name⟩

section
variable (inner : Precedence → Compile Unit)

/-- Arguments up to the last one, and how many there are; `budget` bounds their number. -/
def arguments : (budget : List Located) → Nat → Compile Nat
  | [], n => do
    inner .assign
    return n+1
  | _ :: budget, n => do
    inner .assign
    if ← accept (.symbol .comma) then arguments budget (n+1) else return n+1

/-- The argument list of a call of a runnable or native with the given count of parameters. -/
def callWith (t : Located) (name : String) (arity : Nat) : Compile UInt8 := do
  let index ← textConstant name
  emitWith (.get .global) index
  consume (.symbol .leftParen) "'(' after runnable name"
  let count ← if ← check (.symbol .rightParen) then pure 0
    else arguments inner (← get).rest 0
  consume (.symbol .rightParen) "')' after arguments"
  if count = arity then return index
  else complain t (.argumentCount name arity count)

def call (t : Located) (name : String) : Compile Unit := do
  match (← get).runnable? name with
  | some f => emitWith .call (← callWith inner t name f.arity)
  | none =>
    match Native.ofName? name with
    | some native =>
      let index ← callWith inner t name native.arity
      emitBytes [Opcode.callNative.toByte, index, UInt8.ofNat native.arity]
    | none => complain t (.undeclaredRunnable name)

def variable_ (t : Located) (name : String) (canAssign : Bool) : Compile Unit := do
  if ← check (.symbol .leftParen) then call inner t name
  else
    let v ← resolve name
    let t ← peek
    match (if canAssign then Assignment.ofToken? t.token else none) with
    | none => emitWith (.get v.scope) v.operand
    | some assignment =>
      advance
      if assignment.hasOperand then inner .assign
      emitWith (assignment.opcode v.scope) v.operand

/-- The operand that starts with the token read last. -/
def leading (t : Located) (canAssign : Bool) : Compile Unit := do
  match t.token with
  | .symbol .leftParen =>
    inner .assign
    consume (.symbol .rightParen) "')' after expression"
  | .symbol (.operator .sub) =>
    inner .unary
    emit .negate
  | .symbol .not =>
    inner .unary
    emit .not
  | .symbol .complement =>
    inner .unary
    emit .complement
  | .number digits => emitWith .constant (← enter (·.addNumber digits))
  | .text content => emitWith .constant (← textConstant content)
  | .keyword .litTrue => emit (.literal (some true))
  | .keyword .litFalse => emit (.literal (some false))
  | .keyword .litNone => emit (.literal none)
  | .name name => variable_ inner t name canAssign
  | _ => complain t (.expected "expression")

/-- The right operand of an operator, with the code that joins it to the left one. -/
def joined (i : Infix) : Compile Unit := do
  match i with
  | .operator op =>
    inner i.rightPrecedence
    emit (.operator op)
  | .comparison c =>
    inner i.rightPrecedence
    emitBytes (c.opcodes.map Opcode.toByte)
  | .and =>
    let jump ← emitJump (.jumpIf false)
    emit .pop
    inner i.rightPrecedence
    patchJump jump
  | .or =>
    let jump ← emitJump (.jumpIf true)
    emit .pop
    inner i.rightPrecedence
    patchJump jump

/-- Operators that bind at least as strongly as `p`, with their right operands; each takes a token,
so `budget` bounds their number. -/
def following (p : Precedence) : (budget : List Located) → Compile Unit
  | [] => return
  | _ :: budget => do
    match Infix.ofToken? (← peek).token with
    | none => return
    | some i =>
      if p.rank ≤ i.precedence.rank then
        advance
        joined inner i
        following p budget
      else return

def operand (p : Precedence) : Compile Unit := do
  advance
  leading inner (← last) (p == .assign)
  following inner p (← get).rest
  let t ← peek
  if (Assignment.ofToken? t.token).isSome then complain t .assignmentTarget

end

/-- An operand with so many levels of nesting left. -/
def operandAt : Nat → Precedence → Compile Unit
  | 0, _ => tooDeep
  | levels+1, p => operand (operandAt levels) p

end Compile
end RatScript
