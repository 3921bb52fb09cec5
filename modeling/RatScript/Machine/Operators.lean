import RatScript.Machine.Basic

/-!
What operators do with values.
-/

namespace RatScript

namespace Operator

/-- The arithmetic operators; the others have no such function. -/
def arithmetic? : Operator → Option (Number → Number → Number)
  | add => some Number.add
  | sub => some Number.sub
  | multiply => some Number.mul
  | divide => some Number.div
  | _ => none

end Operator

namespace Exec

/-- Operators on the bits of 32-bit integers. -/
def bitwise (op : Operator) (x y : Int32) : Exec Int32 :=
  let shift (f : Int32 → Int32 → Int32) : Exec Int32 :=
    if 0 ≤ y ∧ y < 32 then return f x y else throw (.shiftAmount y)
  match op with
  | .bitAnd => return x &&& y
  | .bitOr => return x ||| y
  | .bitXor => return x ^^^ y
  | .shiftLeft => shift (· <<< ·)
  | .shiftRight => shift (· >>> ·)
  | _ => return 0

/-- Numbers are computed with, texts can be joined. -/
def apply (op : Operator) (a b : Value) : Exec Value := do
  match op.arithmetic? with
  | none =>
    match a.integral?, b.integral? with
    | some x, some y => return .number (.ofInt (← bitwise op x y).toInt)
    | _, _ => throw (.integralOperands op.spelling (← describe a) (← describe b))
  | some f =>
    match a, b with
    | .number x, .number y => return .number (f x y)
    | _, _ =>
      if op == .add then
        let left ← text? a
        let right ← text? b
        match left, right with
        | some s, some t => newText (s++t)
        | _, _ => throw (.operands op.spelling (← describe a) (← describe b))
      else throw (.operands op.spelling (← describe a) (← describe b))

def compare (t : Test) (a b : Value) : Exec Value := do
  match t, a, b with
  | .equals, _, _ => return .bool (← ask (·.equal a b))
  | .greater, .number x, .number y => return .bool (y.less x)
  | .less, .number x, .number y => return .bool (x.less y)
  | .greater, _, _ => throw (.operands ">" (← describe a) (← describe b))
  | .less, _, _ => throw (.operands "<" (← describe a) (← describe b))

def counted (up : Bool) (v : Value) : Exec Value := do
  match v with
  | .number n => return .number (if up then n.add (.ofInt 1) else n.sub (.ofInt 1))
  | _ => throw (.notCountable (← describe v))

end Exec
end RatScript
