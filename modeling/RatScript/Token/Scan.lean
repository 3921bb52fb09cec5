import RatScript.Token.Basic
import RatScript.Text.Blank
import RatScript.Text.Numeric

/-!
Script text to tokens. Each token is read by its own rule from the characters at its start, always
as long as possible; the scan goes on behind it.
-/

namespace RatScript

inductive ScanFault where
  | unknownEscape (c : Char)
  | endInEscape
  | unterminatedText
  | unexpected (c : Char)
  deriving DecidableEq

namespace ScanFault

def message : ScanFault → String
  | unknownEscape c => "unknown escape sequence: \\"++c.toString
  | endInEscape => "unexpected EOF in escape sequence"
  | unterminatedText => "unterminated string literal"
  | unexpected c => "unexpected character: '"++c.toString++"'"

end ScanFault

structure ScanError where
  fault : ScanFault
  pos : Position
  deriving DecidableEq

namespace ScanError

def message (e : ScanError) : String := e.fault.message

def text (e : ScanError) : String :=
  toString e.pos.line++":"++toString e.pos.col++": "++e.message

end ScanError

namespace Scan

/-- Characters skipped between tokens. -/
def isGap (c : Char) : Bool := c == ' ' || c == '\t' || c == '\r'

def isNameStart (c : Char) : Bool := Text.isAlphabetic c || c == '_'
def isNamePart (c : Char) : Bool := Text.isAlphanumeric c || c == '_'

/-- A token and the number of characters it takes beyond its first. -/
structure Lexeme where
  token : Token
  more : Nat

/-- A fault and the number of characters between the token's start and its place. -/
structure Stop where
  fault : ScanFault
  offset : Nat

/-- The character an escape stands for. -/
def unescape? : Char → Option Char
  | 'n' => some '\n'
  | 't' => some '\t'
  | 'r' => some '\r'
  | '\\' => some '\\'
  | '"' => some '"'
  | '\x27' => some '\x27'
  | '0' => some '\x00'
  | _ => none

/-- The rest of a text behind its opening quote, of which `n` characters are read and `content` is
what they stand for, last first. -/
def quoted (quote : Char) (n : Nat) (content : List Char) : List Char → Except Stop Lexeme
  | [] => .error ⟨.unterminatedText, 0⟩
  | c :: cs =>
    if c == quote then .ok ⟨.text (String.ofList content.reverse), n+1⟩
    else if c == '\n' then .error ⟨.unterminatedText, 0⟩
    else if c == '\\' then
      match cs with
      | [] => .error ⟨.endInEscape, n+2⟩
      | e :: cs =>
        match unescape? e with
        | some d => quoted quote (n+2) (d :: content) cs
        | none => .error ⟨.unknownEscape e, n+2⟩
    else quoted quote (n+1) (c :: content) cs

/-- A number starting with the digit `c`; a point belongs to it only before a digit. -/
def number (c : Char) (cs : List Char) : Lexeme :=
  let whole := cs.takeWhile Char.isDigit
  let digits := match cs.dropWhile Char.isDigit with
    | '.' :: d :: rest =>
      if d.isDigit then whole ++ '.' :: d :: rest.takeWhile Char.isDigit else whole
    | _ => whole
  ⟨.number (String.ofList (c :: digits)), digits.length⟩

def word (c : Char) (cs : List Char) : Lexeme :=
  let part := cs.takeWhile isNamePart
  let word := String.ofList (c :: part)
  ⟨match Keyword.ofSpelling? word with | some k => .keyword k | none => .name word, part.length⟩

def comment (cs : List Char) : Lexeme :=
  let line := cs.takeWhile (· != '\n')
  ⟨.comment (String.ofList (Text.trim line)), line.length⟩

/-- Spellings of all symbols, longest first. -/
def symbolTable : List (List Char × Symbol) :=
  [3, 2, 1].flatMap fun n => (Symbol.all.filter (·.chars.length == n)).map fun s => (s.chars, s)

/-- The longest symbol at the start of the characters. -/
def symbol? (cs : List Char) : Option Lexeme :=
  (symbolTable.find? fun (chars, _) => chars.isPrefixOf cs).map fun (chars, s) =>
    ⟨.symbol s, chars.length-1⟩

/-- The token that starts with `c`, which is no gap. -/
def lexeme (c : Char) (cs : List Char) : Except Stop Lexeme :=
  if c == '\n' then .ok ⟨.newline, 0⟩
  else if c == '#' then .ok (comment cs)
  else if c == '"' || c == '\x27' then quoted c 0 [] cs
  else if c.isDigit then .ok (number c cs)
  else if isNameStart c then .ok (word c cs)
  else match symbol? (c :: cs) with
    | some l => .ok l
    | none => .error ⟨.unexpected c, 0⟩

/-- Scans the characters at `pos`, behind the tokens in `found`. -/
def tokensFrom (pos : Position) (found : Array Located) : List Char → Except ScanError (Array Located)
  | [] => .ok (found.push ⟨.eof, pos⟩)
  | c :: cs =>
    if isGap c then tokensFrom (pos.advance c) found cs
    else match lexeme c cs with
      | .ok l =>
        tokensFrom (pos.after (c :: cs.take l.more)) (found.push ⟨l.token, pos⟩) (cs.drop l.more)
      | .error stop => .error ⟨stop.fault, pos.after ((c :: cs).take stop.offset)⟩
termination_by cs => cs.length
decreasing_by all_goals simp_wf; try omega

end Scan

/-- All tokens of a script, comments included; the last one is the only end of file. -/
def scan (source : String) : Except ScanError (List Located) :=
  (Scan.tokensFrom .start #[] source.toList).map Array.toList

def Located.isComment (t : Located) : Bool :=
  match t.token with
  | .comment _ => true
  | _ => false

/-- The tokens of a script that mean something. -/
def scanCode (source : String) : Except ScanError (List Located) :=
  (scan source).map (·.filter (!·.isComment))

end RatScript
