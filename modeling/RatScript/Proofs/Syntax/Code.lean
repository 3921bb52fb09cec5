import RatScript.Proofs.Compile.Scope
import RatScript.Proofs.Syntax.Tree

/-!
What code a syntax tree has: which phrase stands for each of its parts, and where in the source each
instruction was written. The rules say nothing of how the compiler finds a tree or of the order in
which it fills its tables.
-/

namespace RatScript

open Directive (size encode place)

/-- The constant of a function at an index. -/
def Program.constant? (p : Program) (id : Nat) (index : UInt8) : Option Constant :=
  p.functions[id]?.bind (·.chunk.constant? index)

theorem Program.Grows.constant? {p q : Program} (h : p.Grows q) {id : Nat} {index : UInt8}
    {c : Constant} (hc : p.constant? id index = some c) : q.constant? id index = some c := by
  obtain ⟨f, hf, hc⟩ := Option.bind_eq_some_iff.mp hc
  obtain ⟨g, hg, hgrows⟩ := h id f hf
  exact Option.bind_eq_some_iff.mpr ⟨g, hg, hgrows.constant? hc⟩

/-- The function being written and the locals in view, newest first; a counter has no name. -/
structure View where
  function : Nat
  locals : List (Option String)

namespace View

def slotIn (x : String) : List (Option String) → Option Nat
  | [] => none
  | l :: older => if l = some x then some older.length else slotIn x older

theorem slotIn_lt {x : String} {locals : List (Option String)} {k : Nat} (h : slotIn x locals = some k) :
    k < locals.length := by
  induction locals with
  | nil => cases h
  | cons l older ih =>
    rw [slotIn] at h
    rw [List.length_cons]
    split at h
    · cases h
      exact Nat.lt_succ_self _
    · exact Nat.lt_succ_of_lt (ih h)

/-- The slot of a name inside a runnable; the script has none. -/
def slot? (v : View) (x : String) : Option UInt8 :=
  if v.function ≠ 0 then (slotIn x v.locals).map UInt8.ofNat else none

/-- The byte that names a variable: its slot, or the index of its name. -/
inductive Refers (p : Program) (v : View) (x : String) : Scope → UInt8 → Prop
  | frame {slot : UInt8} (hs : v.slot? x = some slot) : Refers p v x .frame slot
  | global {index : UInt8} (hs : v.slot? x = none)
    (hc : p.constant? v.function index = some (.text x)) : Refers p v x .global index

theorem Refers.mono {p q : Program} (hp : p.Grows q) {v : View} {x : String} {scope : Scope}
    {i : UInt8} (h : v.Refers p x scope i) : v.Refers q x scope i := by
  cases h with
  | frame hs => exact .frame hs
  | global hs hc => exact .global hs (hp.constant? hc)

end View

namespace Directive

def newline : Directive := plain .newline rfl

@[simp] theorem width_newline : newline.width = 1 := rfl

def constant (index : UInt8) : Directive := ⟨.constant, .constant index, rfl⟩

def literal (value : Option Bool) : Directive := plain (.literal value) rfl

def unary (u : Unary) : Directive := plain u.opcode (by cases u <;> rfl)

/-- An operation on a variable. -/
def access (op : Scope → Opcode) (hg : (op .global).layout = .constant)
    (hf : (op .frame).layout = .slot) : Scope → UInt8 → Directive
  | .global, index => ⟨op .global, .constant index, hg.symm⟩
  | .frame, slot => ⟨op .frame, .slot slot, hf.symm⟩

def get : Scope → UInt8 → Directive := access .get rfl rfl

def assign (a : Assignment) : Scope → UInt8 → Directive :=
  access (Assignment.opcode · a) (by cases a <;> rfl) (by cases a <;> rfl)

theorem op_get (scope : Scope) (i : UInt8) : (get scope i).op = .get scope := by cases scope <;> rfl

theorem op_assign (a : Assignment) (scope : Scope) (i : UInt8) :
    (assign a scope i).op = a.opcode scope := by cases scope <;> rfl

theorem bytes_get (scope : Scope) (i : UInt8) : (get scope i).bytes = [(Opcode.get scope).toByte, i] := by
  cases scope <;> rfl

theorem bytes_assign (a : Assignment) (scope : Scope) (i : UInt8) :
    (assign a scope i).bytes = [(a.opcode scope).toByte, i] := by
  cases scope <;> rfl

def define (index : UInt8) : Directive := ⟨.define, .constant index, rfl⟩

def call (index : UInt8) : Directive := ⟨.call, .constant index, rfl⟩

def callNative (index : UInt8) (n : Native) : Directive :=
  ⟨.callNative, .native index (.ofNat n.arity), rfl⟩

def defineRunnable (index : UInt8) (lines : UInt16) : Directive :=
  ⟨.defineRunnable, .runnable index lines, rfl⟩

end Directive

namespace Phrase

def newline : Phrase := .one .newline

/-- A test, and its denial where the comparison is one. -/
def comparison (c : Comparison) : Phrase :=
  match c with
  | .equal => .one (.plain (.test .equals) rfl)
  | .less => .one (.plain (.test .less) rfl)
  | .greater => .one (.plain (.test .greater) rfl)
  | .notEqual => .seq (.one (.plain (.test .equals) rfl)) (.one (.plain .not rfl))
  | .lessEqual => .seq (.one (.plain (.test .greater) rfl)) (.one (.plain .not rfl))
  | .greaterEqual => .seq (.one (.plain (.test .less) rfl)) (.one (.plain .not rfl))

end Phrase

namespace Expr

/-- The phrase stands for the expression at a site of the program. -/
inductive Codes (p : Program) (v : View) : {k : ExprKind} → Expr k → Phrase → Prop
  | number {digits : String} {value : Number} {index : UInt8}
    (hv : Number.parseFinite? digits = some value)
    (hc : p.constant? v.function index = some (.number value)) :
    Codes p v (.number digits) (.one (.constant index))
  | text {content : String} {index : UInt8}
    (hc : p.constant? v.function index = some (.text content)) :
    Codes p v (.text content) (.one (.constant index))
  | literal (value : Option Bool) : Codes p v (.literal value) (.one (.literal value))
  | group {e : Expr .operand} {c : Phrase} (he : Codes p v e c) : Codes p v (.group e) c
  | unary {u : Unary} {e : Expr .operand} {c : Phrase} (he : Codes p v e c) :
    Codes p v (.unary u e) (.seq c (.one (.unary u)))
  | name {x : String} {scope : Scope} {i : UInt8} (hx : v.Refers p x scope i) :
    Codes p v (.name x) (.one (.get scope i))
  | count {x : String} {up : Bool} {scope : Scope} {i : UInt8} (hx : v.Refers p x scope i) :
    Codes p v (.count x up) (.one (.assign (.count up) scope i))
  | assign {x : String} {op : Option Operator} {e : Expr .operand} {scope : Scope} {i : UInt8}
    {c : Phrase} (hx : v.Refers p x scope i) (he : Codes p v e c) :
    Codes p v (.assign x op e) (.seq c (.one (.assign (assignment op) scope i)))
  | call {x : String} {args : Expr .arguments} {index : UInt8} {callee : Function} {c : Phrase}
    (hx : p.constant? v.function index = some (.text x)) (hcallee : p.runnable? x = some callee)
    (hcount : args.length = callee.arity) (hargs : Codes p v args c) :
    Codes p v (.call x args) (.seq (.seq (.one (.get .global index)) c) (.one (.call index)))
  | callNative {x : String} {args : Expr .arguments} {index : UInt8} {native : Native} {c : Phrase}
    (hx : p.constant? v.function index = some (.text x)) (hnative : Native.ofName? x = some native)
    (hcount : args.length = native.arity) (hargs : Codes p v args c) :
    Codes p v (.call x args)
      (.seq (.seq (.one (.get .global index)) c) (.one (.callNative index native)))
  | head {e : Expr .leading} {c : Phrase} (he : Codes p v e c) : Codes p v (.head e) c
  | operator {l r : Expr .operand} {op : Operator} {c d : Phrase} (hl : Codes p v l c)
    (hr : Codes p v r d) :
    Codes p v (.join l (.operator op) r) (.seq c (.seq d (.one (.plain (.operator op) rfl))))
  | comparison {l r : Expr .operand} {t : Comparison} {c d : Phrase} (hl : Codes p v l c)
    (hr : Codes p v r d) : Codes p v (.join l (.comparison t) r) (.seq c (.seq d (.comparison t)))
  | and {l r : Expr .operand} {c d : Phrase} (hl : Codes p v l c) (hr : Codes p v r d)
    (hfit : size d.directives+1 < 0x10000) : Codes p v (.join l .and r) (.seq c (.either false d))
  | or {l r : Expr .operand} {c d : Phrase} (hl : Codes p v l c) (hr : Codes p v r d)
    (hfit : size d.directives+1 < 0x10000) : Codes p v (.join l .or r) (.seq c (.either true d))
  | nil : Codes p v .nil .empty
  | cons {e : Expr .operand} {rest : Expr .arguments} {c d : Phrase} (he : Codes p v e c)
    (hrest : Codes p v rest d) : Codes p v (.cons e rest) (.seq c d)

theorem Codes.mono {p q : Program} (hp : p.Grows q) {v : View} {k : ExprKind} {e : Expr k}
    {c : Phrase} (h : e.Codes p v c) : e.Codes q v c := by
  induction h with
  | number hv hc => exact .number hv (hp.constant? hc)
  | text hc => exact .text (hp.constant? hc)
  | literal value => exact .literal value
  | group _ ih => exact .group ih
  | unary _ ih => exact .unary ih
  | name hx => exact .name (hx.mono hp)
  | count hx => exact .count (hx.mono hp)
  | assign hx _ ih => exact .assign (hx.mono hp) ih
  | call hx hcallee hcount _ ih =>
    obtain ⟨callee', hcallee', harity⟩ := hp.runnable? hcallee
    exact .call (hp.constant? hx) hcallee' (hcount.trans harity.symm) ih
  | callNative hx hnative hcount _ ih => exact .callNative (hp.constant? hx) hnative hcount ih
  | head _ ih => exact .head ih
  | operator _ _ ihl ihr => exact .operator ihl ihr
  | comparison _ _ ihl ihr => exact .comparison ihl ihr
  | and _ _ hfit ihl ihr => exact .and ihl ihr hfit
  | or _ _ hfit ihl ihr => exact .or ihl ihr hfit
  | nil => exact .nil
  | cons _ _ ihe ihrest => exact .cons ihe ihrest

/-- The phrase stands for a value that may be left out. -/
inductive ValueCodes (p : Program) (v : View) : Option (Expr .operand) → Phrase → Prop
  | none : ValueCodes p v none (.one (.literal none))
  | some {e : Expr .operand} {c : Phrase} (he : e.Codes p v c) : ValueCodes p v (some e) c

theorem ValueCodes.mono {p q : Program} (hp : p.Grows q) {v : View} {value : Option (Expr .operand)}
    {c : Phrase} (h : ValueCodes p v value c) : ValueCodes q v value c := by
  cases h with
  | none => exact .none
  | some he => exact .some (he.mono hp)

end Expr

/-- A place in a program being written. -/
@[ext] structure Site extends View where
  /-- Functions so far. -/
  functions : Nat
  offset : Nat
  /-- Ends of lines read so far. -/
  read : Nat

/-- An instruction, by its place, with the ends of lines read when it was written. The marker of an
end of line counts those before it, the definition of a runnable those before its header. -/
structure Note where
  function : Nat
  offset : Nat
  read : Nat
  deriving DecidableEq

namespace Site

def forward (s : Site) (n : Nat) : Site := {s with offset := s.offset+n}

/-- Behind a phrase. -/
def past (s : Site) (c : Phrase) : Site := s.forward (size c.directives)

/-- Behind the end of a line and its marker. -/
def ended (s : Site) : Site := {s with offset := s.offset+1, read := s.read+1}

def withLocals (s : Site) (locals : List (Option String)) : Site := {s with locals := locals}

/-- Inside a runnable the counter of a loop takes a slot. -/
def counting (s : Site) : Site :=
  if s.function = 0 then s else s.withLocals (none :: s.locals)

/-- Where the body of the next runnable begins. -/
def inside (s : Site) (params : List String) : Site :=
  ⟨⟨s.functions, (params.map some).reverse⟩, s.functions+1, 0, s.read⟩

/-- Directives written one after another, with no end of line between them. -/
def notes (s : Site) (ds : List Directive) : List Note :=
  (place s.offset ds).map fun i => ⟨s.function, i.offset, s.read⟩

end Site

namespace Stmt

/-- The phrase stands for the statement between two sites of the program; the entries tell when its
instructions, and those of the runnables in it, were written. -/
inductive Codes (p : Program) : {k : StmtKind} → Site → Stmt k → Site → Phrase → List Note → Prop
  | blank {s : Site} : Codes p s .blank s .empty []
  | expression {s : Site} {e : Expr .operand} {c : Phrase} (he : e.Codes p s.toView c) :
    Codes p s (.expression e) (s.past (.seq c (.one .pop))) (.seq c (.one .pop))
      (s.notes (c.directives++[.pop]))
  | declare {s : Site} {x : String} {value : Option (Expr .operand)} {c : Phrase} {index : UInt8}
    (hs : s.function = 0) (hv : Expr.ValueCodes p s.toView value c)
    (hx : p.constant? s.function index = some (.text x)) :
    Codes p s (.declare x value) (s.past (.seq c (.one (.define index))))
      (.seq c (.one (.define index))) (s.notes (c.directives++[.define index]))
  | declareLocal {s : Site} {x : String} {value : Option (Expr .operand)} {c : Phrase}
    (hs : s.function ≠ 0) (hv : Expr.ValueCodes p s.toView value c) :
    Codes p s (.declare x value) ((s.past c).withLocals (some x :: s.locals)) c
      (s.notes c.directives)
  | if_ {s s' : Site} {test : Expr .operand} {yes : Stmt .scope} {c d : Phrase} {l : List Note}
    (htest : test.Codes p s.toView c) (hyes : Codes p ((s.past c).ended.forward 4) yes s' d l)
    (hfit : size d.directives+4 < 0x10000) :
    Codes p s (.if_ test yes) (s'.forward 4) (.seq (.seq c .newline) (.branch d .empty))
      (s.notes (c.directives++[.newline])++
        (s.past c).ended.notes [.jumpIf false (size d.directives+4), .pop]++l++
        s'.notes [.jump 1, .pop])
  | ifElse {s s' s'' : Site} {test : Expr .operand} {yes no : Stmt .scope} {c d e : Phrase}
    {l m : List Note} (htest : test.Codes p s.toView c)
    (hyes : Codes p ((s.past c).ended.forward 4) yes s' d l)
    (hno : Codes p (s'.forward 4).ended no s'' e m) (hfit : size d.directives+4 < 0x10000)
    (hfit' : size e.directives+2 < 0x10000) :
    Codes p s (.ifElse test yes no) s''
      (.seq (.seq c .newline) (.branch d (.seq .newline e)))
      (s.notes (c.directives++[.newline])++
        (s.past c).ended.notes [.jumpIf false (size d.directives+4), .pop]++l++
        s'.notes [.jump (size e.directives+2), .pop, .newline]++m)
  | while_ {s s' : Site} {test : Expr .operand} {body : Stmt .scope} {c d : Phrase} {l : List Note}
    (htest : test.Codes p s.toView c) (hbody : Codes p ((s.past c).forward 4).ended body s' d l)
    (hfit : size c.directives+size d.directives+8 < 0x10000) :
    Codes p s (.while_ test body) (s'.forward 4) (.loop c (.seq .newline d))
      (s.notes (c.directives++[.jumpIf false (size d.directives+5), .pop, .newline])++l++
        s'.notes [.back (size c.directives+size d.directives+8), .pop])
  | repeat_ {s s' : Site} {count : Expr .operand} {body : Stmt .scope} {c d : Phrase}
    {l : List Note} (hcount : count.Codes p s.toView c)
    (hbody : Codes p ((s.past c).forward 1).ended.counting body s' d l)
    (hfit : size d.directives+4 < 0x10000) :
    Codes p s (.repeat_ count body) ((s'.forward 4).withLocals s.locals)
      (.seq (.seq (.seq c (.one (.plain .repeat_ rfl))) .newline) (.counted d))
      (s.notes (c.directives++[.plain .repeat_ rfl, .newline])++l++
        s'.notes [.endRepeat, .back (size d.directives+4)])
  | return_ {s : Site} {value : Option (Expr .operand)} {c : Phrase} (hs : s.function ≠ 0)
    (hv : Expr.ValueCodes p s.toView value c) :
    Codes p s (.return_ value) (s.past (.seq c (.one (.plain .ret rfl))))
      (.seq c (.one (.plain .ret rfl))) (s.notes (c.directives++[.plain .ret rfl]))
  | runnable {s s' : Site} {name : String} {params : List String} {body : Stmt .block} {c : Phrase}
    {f : Function} {index : UInt8} {lines : UInt16} {l : List Note} (hs : s.function = 0)
    (hlater : 0 < s.functions) (hf : p.functions[s.functions]? = some f) (hname : f.name = name)
    (harity : f.arity = params.length) (henclosing : f.enclosing = some 0)
    (hbody : Codes p (s.inside params).ended body s' c l)
    (hcode : f.chunk.code.toList = encode (.newline :: c.directives++Program.epilogue))
    (hlines : lines.toNat = Compile.lineMarkers f.chunk)
    (hindex : p.constant? s.function index = some (.runnable s.functions)) :
    Codes p s (.runnable name params body)
      {s.forward 4 with functions := s'.functions, read := s'.read}
      (.one (.defineRunnable index lines))
      ((s.inside params).notes [.newline]++l++s'.notes Program.epilogue++
        s.notes [.defineRunnable index lines])
  | nil {s : Site} : Codes p s .nil s .empty []
  | line {s s' s'' : Site} {first : Stmt .statement} {rest : Stmt .block} {c d : Phrase}
    {l m : List Note} (hfirst : Codes p s first s' c l) (hrest : Codes p s'.ended rest s'' d m) :
    Codes p s (.line first rest) s'' (.seq (.seq c .newline) d) (l++s'.notes [.newline]++m)
  | scope {s s' : Site} {lines : Stmt .block} {c : Phrase} {l : List Note}
    (hlines : Codes p s lines s' c l) :
    Codes p s (.scope lines)
      ((s'.past (.pops (s'.locals.length-s.locals.length))).withLocals s.locals)
      (.seq c (.pops (s'.locals.length-s.locals.length)))
      (l++s'.notes (Phrase.pops (s'.locals.length-s.locals.length)).directives)

end Stmt

/-- Where every script begins. -/
def Site.start : Site := ⟨⟨0, []⟩, 1, 0, 0⟩

/-- What a script has for code, up to a site at its end. -/
inductive Script.Codes (p : Program) : Script → Site → Phrase → List Note → Prop
  | whole {lines : Stmt .block} {s : Site} {c : Phrase} {l : List Note}
    (hlines : lines.Codes p .start s c l) : Codes p ⟨lines, none⟩ s c l
  | cut {lines : Stmt .block} {last : Stmt .statement} {s s' : Site} {c d : Phrase}
    {l m : List Note} (hlines : lines.Codes p .start s c l) (hlast : last.Codes p s s' d m) :
    Codes p ⟨lines, some last⟩ s' (.seq c d) (l++m)

/-- The program grows, and functions behind a place in it stay as they are. -/
structure Program.Extends (p q : Program) (place : Nat) : Prop where
  grows : p.Grows q
  kept : ∀ (id : Nat) (f : Function), place < id → p.functions[id]? = some f →
    q.functions[id]? = some f

theorem Program.Extends.trans {p q r : Program} {place : Nat} (h : p.Extends q place)
    (k : q.Extends r place) : p.Extends r place :=
  ⟨h.grows.trans k.grows, fun id f hid hf => k.kept id f hid (h.kept id f hid hf)⟩

theorem Program.Extends.weaken {p q : Program} {place more : Nat} (h : p.Extends q place)
    (hle : place ≤ more) : p.Extends q more :=
  ⟨h.grows, fun id f hid hf => h.kept id f (by omega) hf⟩

namespace Stmt.Codes

theorem function_eq {p : Program} {k : StmtKind} {s s' : Site} {t : Stmt k} {c : Phrase}
    {l : List Note} (h : t.Codes p s s' c l) : s'.function = s.function := by
  have hcounting (s : Site) : s.counting.function = s.function := by
    unfold Site.counting
    split <;> rfl
  induction h with
  | blank | expression | declare | declareLocal | return_ | nil | runnable => rfl
  | if_ _ _ _ ih => exact ih
  | ifElse _ _ _ _ _ ihyes ihno => exact ihno.trans ihyes
  | while_ _ _ _ ih => exact ih
  | repeat_ _ _ _ ih => exact ih.trans (hcounting _)
  | line _ _ ihfirst ihrest => exact ihrest.trans ihfirst
  | scope _ ih => exact ih

/-- A tree keeps its code while functions behind the one it stands in stay as they are. -/
theorem mono {p q : Program} {place : Nat} (hp : p.Extends q place) {k : StmtKind} {s s' : Site}
    {t : Stmt k} {c : Phrase} {l : List Note} (h : t.Codes p s s' c l)
    (hplace : place ≤ s.function) : t.Codes q s s' c l := by
  induction h with
  | blank => exact .blank
  | expression he => exact .expression (he.mono hp.grows)
  | declare hs hv hx => exact .declare hs (hv.mono hp.grows) (hp.grows.constant? hx)
  | declareLocal hs hv => exact .declareLocal hs (hv.mono hp.grows)
  | if_ htest _ hfit ih => exact .if_ (htest.mono hp.grows) (ih hplace) hfit
  | ifElse htest hyes _ hfit hfit' ihyes ihno =>
    refine .ifElse (htest.mono hp.grows) (ihyes hplace) (ihno ?_) hfit hfit'
    exact hplace.trans (Nat.le_of_eq hyes.function_eq.symm)
  | while_ htest _ hfit ih => exact .while_ (htest.mono hp.grows) (ih hplace) hfit
  | repeat_ hcount _ hfit ih =>
    refine .repeat_ (hcount.mono hp.grows) (ih ?_) hfit
    unfold Site.counting
    split <;> exact hplace
  | return_ hs hv => exact .return_ hs (hv.mono hp.grows)
  | runnable hs hlater hf hname harity henclosing _ hcode hlines hindex ih =>
    rw [hs, Nat.le_zero] at hplace
    subst hplace
    exact .runnable hs hlater (hp.kept _ _ hlater hf) hname harity henclosing (ih (Nat.zero_le _))
      hcode hlines (hp.grows.constant? hindex)
  | nil => exact .nil
  | line hfirst _ ihfirst ihrest =>
    exact .line (ihfirst hplace) (ihrest (hplace.trans (Nat.le_of_eq hfirst.function_eq.symm)))
  | scope _ ih => exact .scope (ih hplace)

end Stmt.Codes

/-! How many locals there are. Only inside a runnable does a declaration make one. -/

namespace Stmt

/-- Locals behind a part of a script that has so many in front of it. -/
def localsBehind (inside : Bool) : {k : StmtKind} → Stmt k → Nat → Nat
  | _, declare _ _, n => if inside then n+1 else n
  | _, line first rest, n => rest.localsBehind inside (first.localsBehind inside n)
  | _, _, n => n

/-- There is room for every local that is declared. -/
def Roomy (inside : Bool) : {k : StmtKind} → Stmt k → Nat → Prop
  | _, declare _ _, n => inside = true → n < Compile.maxLocals
  | _, if_ _ yes, n => yes.Roomy inside n
  | _, ifElse _ yes no, n => yes.Roomy inside n ∧ no.Roomy inside n
  | _, while_ _ body, n => body.Roomy inside n
  | _, repeat_ _ body, n => body.Roomy inside (if inside then n+1 else n)
  | _, runnable _ params body, _ => body.Roomy true params.length
  | _, line first rest, n => first.Roomy inside n ∧ rest.Roomy inside (first.localsBehind inside n)
  | _, scope lines, n => lines.Roomy inside n
  | _, _, _ => True

theorem localsBehind_scope (inside : Bool) (t : Stmt .scope) (n : Nat) :
    t.localsBehind inside n = n := by
  cases t
  rfl

theorem localsBehind_script {k : StmtKind} (t : Stmt k) (n : Nat) : t.localsBehind false n = n := by
  induction t generalizing n with
  | line _ _ ihfirst ihrest => rw [localsBehind, ihfirst, ihrest]
  | _ => rfl

theorem Codes.length_locals {p : Program} {k : StmtKind} {s s' : Site} {t : Stmt k} {c : Phrase}
    {l : List Note} (h : t.Codes p s s' c l) :
    s'.locals.length = t.localsBehind (s.function != 0) s.locals.length := by
  induction h with
  | blank | expression | return_ | runnable | nil | repeat_ | scope => rfl
  | declare hs => simp [localsBehind, hs, Site.past, Site.forward]
  | declareLocal hs => simp [localsBehind, hs, Site.withLocals]
  | if_ _ _ _ ih | while_ _ _ _ ih => exact ih.trans (localsBehind_scope _ _ _)
  | ifElse _ _ _ _ _ ihyes ihno =>
    refine ihno.trans ((localsBehind_scope _ _ _).trans ?_)
    exact ihyes.trans (localsBehind_scope _ _ _)
  | line hfirst _ ihfirst ihrest =>
    rw [localsBehind, ← ihfirst, ← hfirst.function_eq]
    exact ihrest

end Stmt

/-- There is room for the locals of every runnable. -/
structure Script.Roomy (t : Script) : Prop where
  lines : t.lines.Roomy false 0
  last : ∀ s ∈ t.last, s.Roomy false 0

end RatScript
