/-!
Numbers and words set in columns of a least width.
-/

namespace RatScript.Text

def padLeft (fill : Char) (width : Nat) (text : String) : String :=
  String.ofList (List.replicate (width-text.length) fill)++text

def padRight (width : Nat) (text : String) : String :=
  text++String.ofList (List.replicate (width-text.length) ' ')

def zeroPadded (width n : Nat) : String := padLeft '0' width (toString n)

/-- Two lower-case hexadecimal digits. -/
def hexByte (b : UInt8) : String :=
  padLeft '0' 2 (String.ofList (Nat.toDigits 16 b.toNat))

end RatScript.Text
