import RatScript.Number.Basic

/-!
Numbers to decimal text: the fewest digits that read back as the same number, written without an
exponent.
-/

namespace RatScript.Number

/-- Quarter units below and above a finite nonzero number within which decimals read back as it.
Under a power of two the numbers lie twice as dense. -/
def gapBelow (x : Number) : Nat :=
  if x.significand = 0x800000 ∧ 0 < x.scale then 1 <<< x.scale else 2 <<< x.scale

def gapAbove (x : Number) : Nat := 2 <<< x.scale

/-- The ends of the interval read back only as an even significand. -/
def within (x : Number) (distance gap : Nat) : Bool :=
  distance < gap || (distance == gap && x.significand%2 = 0)

/-- The multiple of 10^k nearest to a finite nonzero number, if one reads back as it; of two equally
near the larger. -/
def onGrid? (x : Number) (k : Int) : Option Nat :=
  let fine : Nat := match k with | .ofNat _ => 1 | .negSucc j => Nat.pow 10 (j+1)
  let grid : Nat := match k with | .ofNat j => 4*one*Nat.pow 10 j | .negSucc _ => 4*one
  let v := 4*x.units*fine
  let c := v/grid
  let r := v%grid
  let down := x.within r (x.gapBelow*fine)
  let up := x.within (grid-r) (x.gapAbove*fine)
  if up && (!down || grid ≤ 2*r) then some (c+1) else if down then some c else none

/-- The first grid 10^(n-45), 10^(n-46), … with a decimal that reads back. -/
def coarsest (x : Number) : Nat → Nat × Int
  | 0 => ((x.onGrid? (-45)).getD 0, -45)
  | n+1 =>
    let k : Int := (n+1 : Nat)-45
    match x.onGrid? k with
    | some c => (c, k)
    | none => x.coarsest n

/-- Digits with the last one worth 10^k. -/
def positional (c : Nat) (k : Int) : String :=
  let digits := Nat.toDigits 10 c
  match k with
  | .ofNat j => String.ofList (digits++List.replicate j '0')
  | .negSucc j =>
    let padded := List.replicate (j+2-digits.length) '0'++digits
    String.ofList
      (padded.take (padded.length-(j+1)) ++ '.' :: padded.drop (padded.length-(j+1)))

def text (x : Number) : String :=
  if x.isNaN then "NaN"
  else
    let body :=
      if x.isInfinite then "inf"
      else if x.isZero then "0"
      else
        let (c, k) := x.coarsest 83
        positional c k
    if x.negative then "-"++body else body

end RatScript.Number
