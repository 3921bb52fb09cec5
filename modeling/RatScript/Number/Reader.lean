import RatScript.Number.Basic

/-!
Decimal text to numbers: a sign, digits with a point among them, an exponent; or an infinity or NaN
by name. The number nearest to the decimal is taken.
-/

namespace RatScript.Number

def digitsValue (cs : List Char) : Nat :=
  cs.foldl (fun n c => 10*n+(c.toNat-48)) 0

/-- The number nearest to n·10^e. Exponents that cannot matter are settled by the count of digits,
before any power is formed. -/
def ofDecimal (digits : List Char) (e : Int) : Number :=
  let digits := digits.dropWhile (· == '0')
  let top := e+digits.length
  if digits.isEmpty || top < -45 then zero
  else if 39 < top then infinity false
  else match e with
    | .ofNat k => ofRatio false (digitsValue digits*Nat.pow 10 k*one) 1
    | .negSucc k => ofRatio false (digitsValue digits*one) (Nat.pow 10 (k+1))

/-- Exponent digits are read only until the exponent reaches 2^16. -/
def exponentValue (cs : List Char) : Nat :=
  cs.foldl (fun n c => if n < 0x10000 then 10*n+(c.toNat-48) else n) 0

def signed? (cs : List Char) : Option Int :=
  let read (ds : List Char) : Option Nat :=
    if ds.isEmpty || !ds.all Char.isDigit then none else some (exponentValue ds)
  match cs with
  | '-' :: ds => (read ds).map fun n => -(n : Int)
  | '+' :: ds => (read ds).map Int.ofNat
  | ds => (read ds).map Int.ofNat

def exponent? : List Char → Option Int
  | [] => some 0
  | c :: cs => if c == 'e' || c == 'E' then signed? cs else none

def decimal? (cs : List Char) : Option Number :=
  let whole := cs.takeWhile Char.isDigit
  let rest := cs.dropWhile Char.isDigit
  let (fraction, rest) := match rest with
    | '.' :: r => (r.takeWhile Char.isDigit, r.dropWhile Char.isDigit)
    | r => ([], r)
  if whole.isEmpty && fraction.isEmpty then none
  else (exponent? rest).map fun e => ofDecimal (whole++fraction) (e-fraction.length)

def named? (cs : List Char) : Option Number :=
  match cs.map Char.toLower with
  | ['i', 'n', 'f'] => some (infinity false)
  | ['i', 'n', 'f', 'i', 'n', 'i', 't', 'y'] => some (infinity false)
  | ['n', 'a', 'n'] => some nan
  | _ => none

def unsigned? (cs : List Char) : Option Number := decimal? cs <|> named? cs

def parse? (text : String) : Option Number :=
  match text.toList with
  | '-' :: cs => (unsigned? cs).map neg
  | '+' :: cs => unsigned? cs
  | cs => unsigned? cs

/-- Reads the text of a finite number. -/
def parseFinite? (text : String) : Option Number := (parse? text).filter isFinite

end RatScript.Number
