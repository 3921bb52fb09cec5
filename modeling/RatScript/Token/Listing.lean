import RatScript.Token.Basic
import RatScript.Text.Columns
import RatScript.Text.Quoted

/-!
Token listings: one line for each token with its place, class and text.
-/

namespace RatScript

namespace Operator

def label : Operator → String
  | add => "Plus"
  | sub => "Minus"
  | multiply => "Star"
  | divide => "Slash"
  | bitAnd => "Amp"
  | bitOr => "Pipe"
  | bitXor => "Caret"
  | shiftLeft => "ShiftLeft"
  | shiftRight => "ShiftRight"

end Operator

namespace Keyword

def label : Keyword → String
  | litTrue => "True"
  | litFalse => "False"
  | litNone => "None"
  | declare => "Rat"
  | runnable => "Runnable"
  | endRunnable => "EndRunnable"
  | return_ => "Return"
  | if_ => "If"
  | else_ => "Else"
  | endIf => "EndIf"
  | while_ => "While"
  | endWhile => "EndWhile"
  | repeat_ => "Repeat"
  | endRepeat => "EndRepeat"
  | and => "And"
  | or => "Or"

end Keyword

namespace Comparison

def label : Comparison → String
  | equal => "EqEq"
  | notEqual => "NotEq"
  | less => "Lt"
  | greater => "Gt"
  | lessEqual => "LtEq"
  | greaterEqual => "GtEq"

end Comparison

namespace Symbol

def label : Symbol → String
  | operator op => op.label
  | compound op => op.label++"Assign"
  | comparison c => c.label
  | assign => "Assign"
  | increment => "PlusPlus"
  | decrement => "MinusMinus"
  | not => "Bang"
  | complement => "Tilde"
  | leftParen => "LParen"
  | rightParen => "RParen"
  | comma => "Comma"
  | colon => "Colon"

end Symbol

/-- Classes of tokens in a listing. -/
inductive TokenClass where
  | newline
  | comment
  | eof
  | number
  | text
  | literal
  | name
  | punctuation
  | operator
  | comparison
  | assignment
  | keyword
  deriving DecidableEq

namespace TokenClass

def label : TokenClass → String
  | newline => "NEWLINE"
  | comment => "COMMENT"
  | eof => "EOF"
  | number => "NUMBER"
  | text => "STRING"
  | literal => "LITERAL"
  | name => "IDENT"
  | punctuation => "PUNCT"
  | operator => "OP"
  | comparison => "CMP"
  | assignment => "ASSIGN"
  | keyword => "KEYWORD"

def resetColor : String := "\x1b[0m"

/-- Terminal sequence that starts the colour of a class. -/
def color : TokenClass → String
  | newline | comment | eof => "\x1b[2m"
  | text => "\x1b[32m"
  | number | literal => "\x1b[36m"
  | name => "\x1b[33m"
  | operator | comparison | assignment => "\x1b[35m"
  | keyword => "\x1b[34m"
  | punctuation => resetColor

end TokenClass

namespace Token

def label : Token → String
  | number _ => "Number"
  | text _ => "String"
  | name _ => "Ident"
  | comment _ => "Comment"
  | keyword k => k.label
  | symbol s => s.label
  | newline => "Newline"
  | eof => "Eof"

/-- What a token holds beyond its label. -/
def payload? : Token → Option String
  | number s | text s | name s | comment s => some s
  | _ => none

/-- Label and quoted payload. -/
def describe (t : Token) : String :=
  match t.payload? with
  | some s => t.label++"("++Text.quote s++")"
  | none => t.label

def tokenClass : Token → TokenClass
  | number _ => .number
  | text _ => .text
  | name _ => .name
  | comment _ => .comment
  | keyword .litTrue | keyword .litFalse | keyword .litNone => .literal
  | keyword _ => .keyword
  | symbol s => match s with
    | .operator _ | .not | .complement => .operator
    | .comparison _ => .comparison
    | .compound _ | .assign | .increment | .decrement => .assignment
    | .leftParen | .rightParen | .comma | .colon => .punctuation
  | newline => .newline
  | eof => .eof

end Token

structure ListingStyle where
  color : Bool
  /-- Shows tokens as they are spelled rather than by label and payload. -/
  spelled : Bool

namespace ListingStyle

def entry (style : ListingStyle) (token : Token) : String :=
  if style.spelled then
    match token with
    | .comment remark => "COMMENT: "++remark
    | _ => token.spelling
  else token.describe

def line (style : ListingStyle) (t : Located) : String :=
  let kind := t.token.tokenClass
  let place := Text.zeroPadded 2 t.pos.line++":"++Text.zeroPadded 2 t.pos.col
  let body := Text.padRight 8 kind.label++" "++style.entry t.token
  "["++place++"] "++
    (if style.color then kind.color++body++TokenClass.resetColor else body)++"\n"

def render (style : ListingStyle) (tokens : List Located) : String :=
  tokens.foldl (fun text t => text++style.line t) ""

end ListingStyle
end RatScript
