/-!
The nine operators that compute a value from two and that an assignment can be compounded with.
-/

namespace RatScript

inductive Operator where
  | add
  | sub
  | multiply
  | divide
  | bitAnd
  | bitOr
  | bitXor
  | shiftLeft
  | shiftRight
  deriving DecidableEq, Inhabited

namespace Operator

def all : List Operator :=
  [add, sub, multiply, divide, bitAnd, bitOr, bitXor, shiftLeft, shiftRight]

def chars : Operator → List Char
  | add => ['+']
  | sub => ['-']
  | multiply => ['*']
  | divide => ['/']
  | bitAnd => ['&']
  | bitOr => ['|']
  | bitXor => ['^']
  | shiftLeft => ['<', '<']
  | shiftRight => ['>', '>']

def spelling (op : Operator) : String := String.ofList op.chars

end Operator
end RatScript
