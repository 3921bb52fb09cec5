import RatScript.Proofs.Meaning.Content
import RatScript.Proofs.Syntax.Tree

/-!
What scripts mean, told by their syntax trees: values are kept by name and by content, blocks are run
as they are written, and there is at most one runnable, called in statements of their own. There is
no stack and there are no jumps.
-/

namespace RatScript

structure Store where
  globals : String → Option Content
  /-- Parameters of the runnable being run, the last one first. -/
  locals : List (String × Content)
  input : List UInt8
  output : Sink
  files : Files
  /-- Lines and values of the expression statements that were evaluated, in order. -/
  visited : List (Nat × Content)

/-- Gives another value to the first of the variables with a name. -/
def Store.rebind (x : String) (c : Content) : List (String × Content) → List (String × Content)
  | [] => []
  | (y, d) :: rest => if y = x then (y, c) :: rest else (y, d) :: rebind x c rest

/-- Why a walk through a tree ends early: a fault, or a loop with more passes than were allowed. -/
inductive Stop where
  | failed (f : Failure)
  | tired

abbrev Walk := EStateM Stop Store

namespace Walk

variable {α : Type}

/-- Fails on a line. -/
def raise (line : Nat) (f : Fault) : Walk α := throw (.failed ⟨f, line⟩)

/-- A result that is a fault on a line if there is none. -/
def lift (line : Nat) : Except Fault α → Walk α
  | .ok a => return a
  | .error f => raise line f

def global (line : Nat) (x : String) : Walk Content := do
  match (← get).globals x with
  | some c => return c
  | none => raise line (.undefined x)

def read (line : Nat) (x : String) : Walk Content := do
  match (← get).locals.lookup x with
  | some c => return c
  | none => global line x

/-- The value of a variable that may be assigned to; a runnable may not. -/
def assignable (line : Nat) (x : String) : Walk Content := do
  match (← get).locals.lookup x with
  | some c => return c
  | none =>
    let c ← global line x
    if c.isCallable then raise line (.assignRunnable x) else return c

def write (x : String) (c : Content) : Walk Unit :=
  modify fun s =>
    match s.locals.lookup x with
    | some _ => {s with locals := Store.rebind x c s.locals}
    | none => {s with globals := Function.update s.globals x (some c)}

/-- Declares a global; a name is declared once. -/
def define (line : Nat) (x : String) (c : Content) : Walk Unit := do
  match (← get).globals x with
  | some old => raise line (if old.isNative then .reserved x else .redeclared x)
  | none => modify fun s => {s with globals := Function.update s.globals x (some c)}

def printLine (line : Nat) (text : String) : Walk Unit := do
  let ok ← modifyGet fun s =>
    let (sink, ok) := s.output.write (text++"\n")
    (ok, {s with output := sink})
  unless ok do raise line .output

def readLine (line : Nat) : Walk String := do
  let bytes ← modifyGet fun s =>
    let (bytes, rest) := Input.splitLine s.input
    (bytes, {s with input := rest})
  match textOfBytes? bytes with
  | some text => return String.ofList (Text.trimEnd Exec.isLineEnd text.toList)
  | none => raise line .input

def setFiles (files : Files) : Walk Unit :=
  modify fun s => {s with files := files}

/-- Runs a built-in runnable, called by a name. -/
def native (line : Nat) (x : String) : Native → List Content → Walk Content
  | .input, [] => return .text (← readLine line)
  | .print, [c] => do
    printLine line c.render
    return .none
  | .readFile, [c] => do
    let path ← lift line (c.spelling .readFile)
    match (← get).files.readText path with
    | .error e => raise line (.readFile path e)
    | .ok content => return .text content
  | .writeFile, [c, d] => do
    let path ← lift line (c.spelling .writeFile)
    match (← get).files.append path d.render.toUTF8.toList with
    | .error e => raise line (.openFile path e)
    | .ok files =>
      setFiles files
      return .none
  | .emptyFile, [c] => do
    let path ← lift line (c.spelling .emptyFile)
    match (← get).files.truncate path with
    | .error e => raise line (.emptyFile path e)
    | .ok files =>
      setFiles files
      return .none
  | .toNumber, [c] => return .number (← lift line c.toNumber)
  | .toBool, [c] => return .bool c.isTruthy
  | .toText, [c] => return .text c.render
  | .typeOf, [c] => return .text c.kind
  | n, cs => raise line (.argumentCount x n.arity cs.length)

def callNative (line : Nat) (x : String) (cs : List Content) : Walk Content := do
  match ← global line x with
  | .native _ n => native line x n cs
  | _ => raise line (.notNative x)

/-- Finds a declared runnable by its name. -/
def runnable (line : Nat) (x : String) : Walk Unit := do
  match ← global line x with
  | .runnable _ _ _ => return
  | _ => raise line (.notRunnable x)

/-- As many passes as the test is true before, up to a limit. -/
def loop (test : Walk Bool) (body : Walk Unit) : (limit : Nat) → Walk Unit
  | 0 => throw .tired
  | limit+1 => do
    if ← test then
      body
      loop test body limit
    else return

def iterate (body : Walk Unit) : Nat → Walk Unit
  | 0 => return
  | n+1 => do
    body
    iterate body n

def visit (line : Nat) (c : Content) : Walk Unit :=
  modify fun s => {s with visited := s.visited++[(line, c)]}

def bindLocals (locals : List (String × Content)) : Walk Unit :=
  modify fun s => {s with locals := locals}

end Walk

/-- What a part of an expression is evaluated to. -/
def ExprKind.Result : ExprKind → Type
  | leading | operand => Content
  | arguments => List Content

namespace Expr

def literalContent : Option Bool → Content
  | some b => .bool b
  | none => .none

def applyUnary : Unary → Content → Except Fault Content
  | .negate, c => c.negate
  | .not, c => .ok (.bool (!c.isTruthy))
  | .complement, c => c.complement

/-- Evaluates a part of an expression on a line, from left to right. -/
def eval (line : Nat) : {k : ExprKind} → Expr k → Walk k.Result
  | _, number digits => return Content.number ((Number.parseFinite? digits).getD .zero)
  | _, text content => return Content.text content
  | _, literal value => return literalContent value
  | _, group inside => inside.eval line
  | _, unary u inside => do Walk.lift line (applyUnary u (← inside.eval line))
  | _, name x => Walk.read line x
  | _, count x up => do
    let c ← Walk.lift line ((← Walk.assignable line x).counted up)
    Walk.write x c
    return c
  | _, assign x none value => do
    let c ← value.eval line
    let _ ← Walk.assignable line x
    Walk.write x c
    return c
  | _, assign x (some op) value => do
    let c ← value.eval line
    let d ← Walk.lift line ((← Walk.assignable line x).apply op c)
    Walk.write x d
    return d
  | _, call x arguments => do
    let _ ← Walk.global line x
    Walk.callNative line x (← arguments.eval line)
  | _, head first => first.eval line
  | _, join left (.operator op) right => do
    let a ← left.eval line
    let b ← right.eval line
    Walk.lift line (Content.apply op a b)
  | _, join left (.comparison t) right => do
    let a ← left.eval line
    let b ← right.eval line
    return Content.bool (← Walk.lift line (Content.compare t a b))
  | _, join left .and right => do
    let a : Content ← left.eval line
    if a.isTruthy then right.eval line else return a
  | _, join left .or right => do
    let a : Content ← left.eval line
    if a.isTruthy then return a else right.eval line
  | _, nil => return ([] : List Content)
  | _, cons first rest => do
    let c ← first.eval line
    let cs ← rest.eval line
    return (c :: cs : List Content)

/-- Names that are called. -/
def calls : {k : ExprKind} → Expr k → List String
  | _, group inside => inside.calls
  | _, unary _ inside => inside.calls
  | _, assign _ _ value => value.calls
  | _, call x arguments => x :: arguments.calls
  | _, head first => first.calls
  | _, join left _ right => left.calls++right.calls
  | _, cons first rest => first.calls++rest.calls
  | _, _ => []

end Expr

namespace Stmt

/-- Ends of lines inside a statement. -/
def breaks {k : StmtKind} (t : Stmt k) : Nat := t.tokens.count .newline

/-- Statements that are no blocks have `B`, tests and counts of the others have `A`. -/
def Each (A : Expr .operand → Prop) (B : Stmt .statement → Prop) : {k : StmtKind} → Stmt k → Prop
  | _, expression e => B (.expression e)
  | _, declare x value => B (.declare x value)
  | _, return_ value => B (.return_ value)
  | _, runnable name params body => B (.runnable name params body)
  | _, if_ test yes => A test ∧ yes.Each A B
  | _, ifElse test yes no => A test ∧ yes.Each A B ∧ no.Each A B
  | _, while_ test body => A test ∧ body.Each A B
  | _, repeat_ count body => A count ∧ body.Each A B
  | _, line first rest => first.Each A B ∧ rest.Each A B
  | _, scope lines => lines.Each A B
  | _, blank | _, nil => True

/-- Runs a statement that begins on a line. What is no block is left to `act`; no `while` may make
more than so many passes. -/
def run (act : Nat → Stmt .statement → Walk Unit) (limit : Nat) :
    {k : StmtKind} → (row : Nat) → Stmt k → Walk Unit
  | _, row, expression e => act row (.expression e)
  | _, row, declare x value => act row (.declare x value)
  | _, row, return_ value => act row (.return_ value)
  | _, row, runnable name params body => act row (.runnable name params body)
  | _, row, if_ test yes => do
    let c : Content ← test.eval row
    if c.isTruthy then yes.run act limit (row+1)
  | _, row, ifElse test yes no => do
    let c : Content ← test.eval row
    if c.isTruthy then yes.run act limit (row+1) else no.run act limit (row+yes.breaks+2)
  | _, row, while_ test body =>
    Walk.loop (do let c : Content ← test.eval row; return c.isTruthy)
      (body.run act limit (row+1)) limit
  | _, row, repeat_ count body => do
    let c : Content ← count.eval row
    Walk.iterate (body.run act limit (row+1)) (← Walk.lift row c.passes)
  | _, row, line first rest => do
    first.run act limit row
    rest.run act limit (row+first.breaks+1)
  | _, row, scope lines => lines.run act limit row
  | _, _, blank | _, _, nil => return

/-- Evaluates an expression for what it does. -/
def perform (row : Nat) : Stmt .statement → Walk Unit
  | expression e => do
    let c : Content ← e.eval row
    Walk.visit row c
  | _ => return

end Stmt

/-- A runnable of a script, with the line its body begins on. -/
structure Routine where
  name : String
  params : List String
  body : Stmt .block
  row : Nat

namespace Stmt

def routines : {k : StmtKind} → (row : Nat) → Stmt k → List Routine
  | _, row, runnable name params body => [⟨name, params, body, row+1⟩]
  | _, row, if_ _ yes => yes.routines (row+1)
  | _, row, ifElse _ yes no => yes.routines (row+1)++no.routines (row+yes.breaks+2)
  | _, row, while_ _ body | _, row, repeat_ _ body => body.routines (row+1)
  | _, row, line first rest => first.routines row++rest.routines (row+first.breaks+1)
  | _, row, scope lines => lines.routines row
  | _, _, _ => []

end Stmt

namespace Routine

/-- Runs the body with values for the parameters. -/
def enter (r : Routine) (limit : Nat) (cs : List Content) : Walk Unit := do
  let outside := (← get).locals
  Walk.bindLocals (r.params.zip cs).reverse
  r.body.run Stmt.perform limit r.row
  Walk.bindLocals outside

/-- A call of the runnable as a statement; its result is nothing. -/
def call (r : Routine) (limit row : Nat) (arguments : Expr .arguments) : Walk Unit := do
  let _ ← Walk.global row r.name
  let cs : List Content ← arguments.eval row
  Walk.runnable row r.name
  r.enter limit cs
  Walk.visit row .none

end Routine

namespace Stmt

/-- Statements of a script: they may also declare, and call its runnable. The runnable's name is
bound to a value given from outside. -/
def enact (routine : Option Routine) (value : Content) (limit row : Nat) :
    Stmt .statement → Walk Unit
  | declare x none => Walk.define row x .none
  | declare x (some e) => do
    let c : Content ← e.eval row
    Walk.define row x c
  | runnable name _ _ => Walk.define row name value
  | expression (.head (.call x arguments)) =>
    match routine.filter (·.name = x) with
    | some r => r.call limit row arguments
    | none => perform row (.expression (.head (.call x arguments)))
  | s => perform row s

end Stmt

namespace Script

def routines (t : Script) : List Routine :=
  t.lines.routines 1++(match t.last with
    | some s => s.routines (t.lines.breaks+1)
    | none => [])

def run (t : Script) (value : Content) (limit : Nat) : Walk Unit := do
  let act := Stmt.enact t.routines.head? value limit
  t.lines.run act limit 1
  match t.last with
  | some s => s.run act limit (t.lines.breaks+1)
  | none => return

end Script
end RatScript
