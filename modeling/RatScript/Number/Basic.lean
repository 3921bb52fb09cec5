/-!
Binary32 numbers. A number is its bit pattern; a finite one is a whole multiple of the unit 2^-149,
so every operation is exact integer arithmetic on units followed by one rounding.
-/

namespace RatScript

structure Number where
  bits : UInt32
  deriving DecidableEq, Inhabited

namespace Number

/-- Units of 2^-149 in the number one. -/
def one : Nat := 0x20000000000000000000000000000000000000

/-- The pattern above every finite magnitude. -/
def infiniteMagnitude : Nat := 0x7f800000

def negative (x : Number) : Bool := 0x80000000 ≤ x.bits.toNat

/-- Exponent and fraction fields together; their order is the order of absolute values. -/
def magnitude (x : Number) : Nat := x.bits.toNat % 0x80000000

def ofMagnitude (negative : Bool) (magnitude : Nat) : Number :=
  ⟨UInt32.ofNat (if negative then magnitude+0x80000000 else magnitude)⟩

def zero : Number := ⟨0⟩
def nan : Number := ⟨0x7fc00000⟩
def infinity (negative : Bool) : Number := ofMagnitude negative infiniteMagnitude

def isNaN (x : Number) : Bool := infiniteMagnitude < x.magnitude
def isInfinite (x : Number) : Bool := x.magnitude = infiniteMagnitude
def isFinite (x : Number) : Bool := x.magnitude < infiniteMagnitude
def isZero (x : Number) : Bool := x.magnitude = 0

/-- Fraction with its leading bit, of a finite number. -/
def significand (x : Number) : Nat :=
  if x.magnitude < 0x800000 then x.magnitude else x.magnitude%0x800000+0x800000

/-- The last place of a finite number is worth 2^scale units. -/
def scale (x : Number) : Nat := x.magnitude/0x800000-1

/-- Absolute value of a finite number in units. -/
def units (x : Number) : Nat := x.significand <<< x.scale

def signedUnits (x : Number) : Int := if x.negative then -(x.units : Int) else x.units

/-- Nearest whole quotient, a half going to the even neighbour. -/
def roundDiv (num den : Nat) : Nat :=
  let q := num/den
  let r := num%den
  if 2*r < den ∨ (2*r = den ∧ q%2 = 0) then q else q+1

/-- The number nearest to num/den units. The significand takes 24 bits when it can; a carry out of
them runs into the exponent field, which is what the next scale up asks for. -/
def ofRatio (negative : Bool) (num den : Nat) : Number :=
  let scale := (num/den).log2-23
  ofMagnitude negative
    (min (scale*0x800000+roundDiv num (den <<< scale)) infiniteMagnitude)

def neg (x : Number) : Number := ⟨x.bits ^^^ 0x80000000⟩

def add (x y : Number) : Number :=
  if x.isNaN || y.isNaN then nan
  else if x.isInfinite then
    if y.isInfinite && x.negative != y.negative then nan else x
  else if y.isInfinite then y
  else
    let sum := x.signedUnits+y.signedUnits
    if sum = 0 then ofMagnitude (x.negative && y.negative) 0
    else ofRatio (sum < 0) sum.natAbs 1

def sub (x y : Number) : Number := add x y.neg

def mul (x y : Number) : Number :=
  let sign := x.negative != y.negative
  if x.isNaN || y.isNaN then nan
  else if x.isInfinite then if y.isZero then nan else infinity sign
  else if y.isInfinite then if x.isZero then nan else infinity sign
  else ofRatio sign (x.units*y.units) one

def div (x y : Number) : Number :=
  let sign := x.negative != y.negative
  if x.isNaN || y.isNaN then nan
  else if x.isInfinite then if y.isInfinite then nan else infinity sign
  else if y.isInfinite then ofMagnitude sign 0
  else if y.isZero then if x.isZero then nan else infinity sign
  else ofRatio sign (x.units*one) y.units

/-- Position on the number line; both zeros are at 0. -/
def order (x : Number) : Int := if x.negative then -(x.magnitude : Int) else x.magnitude

def less (x y : Number) : Bool := !x.isNaN && !y.isNaN && x.order < y.order

/-- Equality of numbers: no NaN equals anything and the two zeros are equal. -/
def same (x y : Number) : Bool := !x.isNaN && !y.isNaN && x.order = y.order

def ofInt (i : Int) : Number := ofRatio (i < 0) (i.natAbs*one) 1

/-- The number as a 32-bit integer, when it is a whole one in range. -/
def integral? (x : Number) : Option Int32 :=
  if x.isFinite && x.units%one = 0 then
    let i : Int := if x.negative then -(x.units/one : Nat) else (x.units/one : Nat)
    if -0x80000000 ≤ i ∧ i < 0x80000000 then some (Int32.ofInt i) else none
  else none

end Number
end RatScript
