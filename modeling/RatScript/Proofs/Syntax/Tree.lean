import Mathlib
import RatScript.Compile.Statement

/-!
Syntax trees of scripts and the tokens that spell them. Trees keep brackets; operators are grouped
as binding strength says, and where every right operand has all it can take, in one way only.
-/

namespace RatScript

/-- Operators before an operand. -/
inductive Unary where
  | negate
  | not
  | complement
  deriving DecidableEq

namespace Unary

def token : Unary → Token
  | negate => .symbol (.operator .sub)
  | not => .symbol .not
  | complement => .symbol .complement

def opcode : Unary → Opcode
  | negate => .negate
  | not => .not
  | complement => .complement

end Unary

namespace Infix

def token : Infix → Token
  | operator op => .symbol (.operator op)
  | comparison c => .symbol (.comparison c)
  | and => .keyword .and
  | or => .keyword .or

theorem ofToken?_eq_some {t : Token} {i : Infix} (h : ofToken? t = some i) : t = i.token := by
  unfold ofToken? at h
  split at h <;> cases h <;> rfl

end Infix

namespace Assignment

def token : Assignment → Token
  | plain => .symbol .assign
  | count up => .symbol (if up then .increment else .decrement)
  | compound op => .symbol (.compound op)

theorem ofToken?_eq_some {t : Token} {a : Assignment} (h : ofToken? t = some a) : t = a.token := by
  unfold ofToken? at h
  split at h <;> cases h <;> rfl

end Assignment

def literalToken : Option Bool → Token
  | some true => .keyword .litTrue
  | some false => .keyword .litFalse
  | none => .keyword .litNone

/-- Parts of expressions: what an operand starts with, an operand with the operators behind it, and
the arguments of a call. -/
inductive ExprKind where
  | leading
  | operand
  | arguments

inductive Expr : ExprKind → Type where
  | number (digits : String) : Expr .leading
  | text (content : String) : Expr .leading
  | literal (value : Option Bool) : Expr .leading
  | group (inside : Expr .operand) : Expr .leading
  | unary (u : Unary) (inside : Expr .operand) : Expr .leading
  | name (x : String) : Expr .leading
  | count (x : String) (up : Bool) : Expr .leading
  /-- An assignment, compound if it has an operator. -/
  | assign (x : String) (op : Option Operator) (value : Expr .operand) : Expr .leading
  | call (x : String) (arguments : Expr .arguments) : Expr .leading
  | head (first : Expr .leading) : Expr .operand
  | join (left : Expr .operand) (i : Infix) (right : Expr .operand) : Expr .operand
  | nil : Expr .arguments
  | cons (first : Expr .operand) (rest : Expr .arguments) : Expr .arguments

namespace Expr

/-- What stands between an argument and the arguments behind it. -/
def separator : Expr .arguments → List Token
  | nil => []
  | cons _ _ => [.symbol .comma]

def assignment : Option Operator → Assignment
  | some op => .compound op
  | none => .plain

def tokens : {k : ExprKind} → Expr k → List Token
  | _, number digits => [.number digits]
  | _, text content => [.text content]
  | _, literal value => [literalToken value]
  | _, group inside => .symbol .leftParen :: inside.tokens++[.symbol .rightParen]
  | _, unary u inside => u.token :: inside.tokens
  | _, name x => [.name x]
  | _, count x up => [.name x, (Assignment.count up).token]
  | _, assign x op value => .name x :: (assignment op).token :: value.tokens
  | _, call x arguments =>
    .name x :: .symbol .leftParen :: arguments.tokens++[.symbol .rightParen]
  | _, head first => first.tokens
  | _, join left i right => left.tokens++i.token :: right.tokens
  | _, nil => []
  | _, cons first rest => first.tokens++rest.separator++rest.tokens

def length : Expr .arguments → Nat
  | nil => 0
  | cons _ rest => rest.length+1

/-- Whether the operand is an assignment, whose value reaches as far as any operand can. -/
def isAssignment : Expr .operand → Bool
  | head (assign _ _ _) => true
  | _ => false

/-- The tree groups its operators as an operand of some binding strength does. -/
def Fits : {k : ExprKind} → Precedence → Expr k → Prop
  | _, p, head first => first.Fits p
  | _, p, join left i right =>
    left.Fits p ∧ left.isAssignment = false ∧ p.rank ≤ i.precedence.rank ∧
      right.Fits i.rightPrecedence
  | _, _, group inside => inside.Fits .assign
  | _, _, unary _ inside => inside.Fits .unary
  | _, p, count _ _ => p = .assign
  | _, p, assign _ _ value => p = .assign ∧ value.Fits .assign
  | _, _, call _ arguments => arguments.Fits .assign
  | _, p, cons first rest => first.Fits p ∧ rest.Fits p
  | _, _, _ => True

/-- The operator binds less strongly than the last right operand in the tree asks for, which would
have taken it otherwise. -/
def Leaves (i : Infix) : Expr .operand → Prop
  | join _ j _ => i.precedence.rank < j.rightPrecedence.rank
  | head _ => True

/-- Every right operand has taken all the operators it could. -/
def Grouped : {k : ExprKind} → Expr k → Prop
  | _, head first => first.Grouped
  | _, join left i right => left.Leaves i ∧ left.Grouped ∧ right.Grouped
  | _, group inside => inside.Grouped
  | _, unary _ inside => inside.Grouped
  | _, assign _ _ value => value.Grouped
  | _, call _ arguments => arguments.Grouped
  | _, cons first rest => first.Grouped ∧ rest.Grouped
  | _, _ => True

/-- The only way to group the tokens as an operand of some binding strength. -/
structure Binds {k : ExprKind} (p : Precedence) (e : Expr k) : Prop where
  fits : e.Fits p
  grouped : e.Grouped

end Expr

/-- Parts of scripts: a statement without the end of its line, lines of statements, and lines with a
scope of their own. -/
inductive StmtKind where
  | statement
  | block
  | scope

inductive Stmt : StmtKind → Type where
  | blank : Stmt .statement
  | expression (e : Expr .operand) : Stmt .statement
  | declare (x : String) (value : Option (Expr .operand)) : Stmt .statement
  | if_ (test : Expr .operand) (yes : Stmt .scope) : Stmt .statement
  | ifElse (test : Expr .operand) (yes no : Stmt .scope) : Stmt .statement
  | while_ (test : Expr .operand) (body : Stmt .scope) : Stmt .statement
  | repeat_ (count : Expr .operand) (body : Stmt .scope) : Stmt .statement
  | return_ (value : Option (Expr .operand)) : Stmt .statement
  | runnable (name : String) (params : List String) (body : Stmt .block) : Stmt .statement
  | nil : Stmt .block
  | line (first : Stmt .statement) (rest : Stmt .block) : Stmt .block
  | scope (lines : Stmt .block) : Stmt .scope

namespace Stmt

/-- Parameters with commas between them. -/
def paramTokens : List String → List Token
  | [] => []
  | [x] => [.name x]
  | x :: rest => .name x :: .symbol .comma :: paramTokens rest

/-- What ends the header of a block. -/
def opening : List Token := [.symbol .colon, .newline]

def tokens : {k : StmtKind} → Stmt k → List Token
  | _, blank => []
  | _, expression e => e.tokens
  | _, declare x none => [.keyword .declare, .name x]
  | _, declare x (some e) => .keyword .declare :: .name x :: .symbol .assign :: e.tokens
  | _, if_ test yes =>
    .keyword .if_ :: test.tokens++opening++yes.tokens++[.keyword .endIf]
  | _, ifElse test yes no =>
    .keyword .if_ :: test.tokens++opening++yes.tokens++.keyword .else_ :: opening++no.tokens++
      [.keyword .endIf]
  | _, while_ test body =>
    .keyword .while_ :: test.tokens++opening++body.tokens++[.keyword .endWhile]
  | _, repeat_ count body =>
    .keyword .repeat_ :: count.tokens++opening++body.tokens++[.keyword .endRepeat]
  | _, return_ none => [.keyword .return_]
  | _, return_ (some e) => .keyword .return_ :: e.tokens
  | _, runnable name params body =>
    .keyword .runnable :: .name name :: .symbol .leftParen :: paramTokens params++
      .symbol .rightParen :: opening++body.tokens++[.keyword .endRunnable]
  | _, nil => []
  | _, line first rest => first.tokens++.newline :: rest.tokens
  | _, scope lines => lines.tokens

/-- All expressions of the tree are grouped as binding strength says. -/
def Fits : {k : StmtKind} → Stmt k → Prop
  | _, expression e => e.Fits .assign
  | _, declare _ value => ∀ e ∈ value, e.Fits .assign
  | _, if_ test yes => test.Fits .assign ∧ yes.Fits
  | _, ifElse test yes no => test.Fits .assign ∧ yes.Fits ∧ no.Fits
  | _, while_ test body => test.Fits .assign ∧ body.Fits
  | _, repeat_ count body => count.Fits .assign ∧ body.Fits
  | _, return_ value => ∀ e ∈ value, e.Fits .assign
  | _, runnable _ _ body => body.Fits
  | _, line first rest => first.Fits ∧ rest.Fits
  | _, scope lines => lines.Fits
  | _, _ => True

def expressions : {k : StmtKind} → Stmt k → List (Expr .operand)
  | _, expression e => [e]
  | _, declare _ value => value.toList
  | _, if_ test yes => test :: yes.expressions
  | _, ifElse test yes no => test :: (yes.expressions++no.expressions)
  | _, while_ test body => test :: body.expressions
  | _, repeat_ count body => count :: body.expressions
  | _, return_ value => value.toList
  | _, runnable _ _ body => body.expressions
  | _, line first rest => first.expressions++rest.expressions
  | _, scope lines => lines.expressions
  | _, _ => []

theorem fits_iff {k : StmtKind} (t : Stmt k) : t.Fits ↔ ∀ e ∈ t.expressions, e.Fits .assign := by
  induction t with
  | blank | nil => simp [Fits, expressions]
  | expression => simp [Fits, expressions]
  | declare _ value | return_ value => simp [Fits, expressions]
  | if_ _ _ ih | while_ _ _ ih | repeat_ _ _ ih =>
    simp only [Fits, expressions, List.forall_mem_cons, ih]
  | ifElse _ _ _ ihyes ihno =>
    simp only [Fits, expressions, List.forall_mem_cons, List.forall_mem_append, ihyes, ihno]
  | runnable _ _ _ ih | scope _ ih => exact ih
  | line _ _ ihfirst ihrest =>
    simp only [Fits, expressions, List.forall_mem_append, ihfirst, ihrest]

/-- All expressions of the tree are grouped in the only way there is. -/
def Binds {k : StmtKind} (t : Stmt k) : Prop := ∀ e ∈ t.expressions, e.Binds .assign

theorem Binds.fits {k : StmtKind} {t : Stmt k} (h : t.Binds) : t.Fits :=
  t.fits_iff.mpr fun e he => (h e he).fits

end Stmt

/-- Lines and perhaps a last one without its end. -/
structure Script where
  lines : Stmt .block
  last : Option (Stmt .statement)

namespace Script

def tokens (t : Script) : List Token :=
  t.lines.tokens++(match t.last with
    | some s => s.tokens
    | none => [])

structure Fits (t : Script) : Prop where
  lines : t.lines.Fits
  last : ∀ s ∈ t.last, s.Fits ∧ s ≠ .blank

/-- As `Fits`, with all expressions grouped in the only way there is. -/
structure Binds (t : Script) : Prop where
  lines : t.lines.Binds
  last : ∀ s ∈ t.last, s.Binds ∧ s ≠ .blank

theorem Binds.fits {t : Script} (h : t.Binds) : t.Fits :=
  ⟨h.lines.fits, fun s hs => ⟨(h.last s hs).1.fits, (h.last s hs).2⟩⟩

end Script
end RatScript
