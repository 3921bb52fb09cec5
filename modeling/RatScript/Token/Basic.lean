import RatScript.Operator

/-!
Tokens of a script and their places in it.
-/

namespace RatScript

inductive Keyword where
  | litTrue
  | litFalse
  | litNone
  | declare
  | runnable
  | endRunnable
  | return_
  | if_
  | else_
  | endIf
  | while_
  | endWhile
  | repeat_
  | endRepeat
  | and
  | or
  deriving DecidableEq, Inhabited

namespace Keyword

def all : List Keyword :=
  [litTrue, litFalse, litNone, declare, runnable, endRunnable, return_, if_, else_, endIf,
    while_, endWhile, repeat_, endRepeat, and, or]

def spelling : Keyword → String
  | litTrue => "true"
  | litFalse => "false"
  | litNone => "none"
  | declare => "rat"
  | runnable => "runnable"
  | endRunnable => "endrunnable"
  | return_ => "return"
  | if_ => "if"
  | else_ => "else"
  | endIf => "endif"
  | while_ => "while"
  | endWhile => "endwhile"
  | repeat_ => "repeat"
  | endRepeat => "endrepeat"
  | and => "and"
  | or => "or"

def ofSpelling? (word : String) : Option Keyword := all.find? (·.spelling == word)

/-- Keywords that close a block. -/
def closes : Keyword → Bool
  | else_ | endIf | endWhile | endRepeat | endRunnable => true
  | _ => false

end Keyword

inductive Comparison where
  | equal
  | notEqual
  | less
  | greater
  | lessEqual
  | greaterEqual
  deriving DecidableEq, Inhabited

namespace Comparison

def all : List Comparison := [equal, notEqual, less, greater, lessEqual, greaterEqual]

def chars : Comparison → List Char
  | equal => ['=', '=']
  | notEqual => ['!', '=']
  | less => ['<']
  | greater => ['>']
  | lessEqual => ['<', '=']
  | greaterEqual => ['>', '=']

end Comparison

/-- Operators and punctuation. -/
inductive Symbol where
  | operator (op : Operator)
  | compound (op : Operator)
  | comparison (c : Comparison)
  | assign
  | increment
  | decrement
  | not
  | complement
  | leftParen
  | rightParen
  | comma
  | colon
  deriving DecidableEq, Inhabited

namespace Symbol

def chars : Symbol → List Char
  | operator op => op.chars
  | compound op => op.chars++['=']
  | comparison c => c.chars
  | assign => ['=']
  | increment => ['+', '+']
  | decrement => ['-', '-']
  | not => ['!']
  | complement => ['~']
  | leftParen => ['(']
  | rightParen => [')']
  | comma => [',']
  | colon => [':']

def spelling (s : Symbol) : String := String.ofList s.chars

def all : List Symbol :=
  Operator.all.map operator++Operator.all.map compound++Comparison.all.map comparison++
    [assign, increment, decrement, not, complement, leftParen, rightParen, comma, colon]

end Symbol

inductive Token where
  | number (digits : String)
  | text (content : String)
  | name (word : String)
  | comment (remark : String)
  | keyword (k : Keyword)
  | symbol (s : Symbol)
  | newline
  | eof
  deriving DecidableEq, Inhabited

namespace Token

/-- The token as it is shown in messages. -/
def spelling : Token → String
  | number digits => digits
  | text content => "\""++content++"\""
  | name word => word
  | comment remark => "# "++remark
  | keyword k => k.spelling
  | symbol s => s.spelling
  | newline => "\\n"
  | eof => "EOF"

end Token

/-- Line and column, both from one; columns count characters. -/
structure Position where
  line : Nat
  col : Nat
  deriving DecidableEq, Inhabited

namespace Position

def start : Position := ⟨1, 1⟩

/-- The position after one character. -/
def advance (p : Position) (c : Char) : Position :=
  if c == '\n' then ⟨p.line+1, 1⟩ else ⟨p.line, p.col+1⟩

def after (p : Position) (cs : List Char) : Position := cs.foldl advance p

end Position

/-- A token and where its first character stands. -/
structure Located where
  token : Token
  pos : Position
  deriving DecidableEq, Inhabited

end RatScript
