import RatScript.Text.Extender
import RatScript.Text.Printable

/-!
Quoted texts for listings: between double quotes, with escapes for what cannot be shown.
-/

namespace RatScript.Text

/-- Escape by code point, in lower-case hexadecimal between braces. -/
def escapeCodePoint (c : Char) : String :=
  "\\u\x7b"++String.ofList (Nat.toDigits 16 c.toNat)++"\x7d"

/-- The two halfwidth voicing signs extend the letter before them and are letters themselves. -/
def isVoicingSign (c : Char) : Bool := c == '\uff9e' || c == '\uff9f'

/-- Marks that are shown on the character before them and cannot stand alone. -/
def isCombining (c : Char) : Bool := isExtender c && !isVoicingSign c

def escape (c : Char) : String :=
  if c == '\x00' then "\\0"
  else if c == '\t' then "\\t"
  else if c == '\r' then "\\r"
  else if c == '\n' then "\\n"
  else if c == '\\' then "\\\\"
  else if c == '"' then "\\\""
  else if isCombining c || !isPrintable c then escapeCodePoint c
  else c.toString

def quote (text : String) : String :=
  "\""++String.join (text.toList.map escape)++"\""

end RatScript.Text
