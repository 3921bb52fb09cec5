import RatScript.Proofs.Meaning.Instruction
import RatScript.Proofs.Syntax.Lines

/-!
Deeds: what the directives of a script do, with the values and names that they find in its tables.
A tree that declares no runnable has one list of deeds, in whatever program it is compiled.
-/

namespace RatScript

open Directive (size)

/-- A directive of a script, told without the tables of its program. -/
inductive Deed where
  | newline
  | pop
  | constant (c : Content)
  | literal (value : Option Bool)
  | operator (op : Operator)
  | test (t : Test)
  | unary (u : Unary)
  | define (x : String)
  | get (x : String)
  | assign (a : Assignment) (x : String)
  | callNative (x : String) (count : Nat)
  | jump (distance : Nat)
  | jumpIf (truth : Bool) (distance : Nat)
  | back (distance : Nat)
  | repeat_
  | endRepeat

namespace Deed

def op : Deed → Opcode
  | newline => .newline
  | pop => .pop
  | constant _ => .constant
  | literal value => .literal value
  | operator op => .operator op
  | test t => .test t
  | unary u => u.opcode
  | define _ => .define
  | get _ => .get .global
  | assign a _ => a.opcode .global
  | callNative _ _ => .callNative
  | jump _ => .jump
  | jumpIf truth _ => .jumpIf truth
  | back _ => .loop
  | repeat_ => .repeat_
  | endRepeat => .endRepeat

def width (d : Deed) : Nat := d.op.width

/-- Bytes that the directives take. -/
def size (ds : List Deed) : Nat := (ds.map width).sum

@[simp] theorem size_nil : size [] = 0 := rfl
@[simp] theorem size_cons (d : Deed) (ds : List Deed) : size (d :: ds) = d.width+size ds := rfl
@[simp] theorem size_append (ds es : List Deed) : size (ds++es) = size ds+size es := by
  simp [size]

/-- Ends of lines that the directive stands for. -/
def lines : Deed → Nat
  | newline => 1
  | _ => 0

def total (ds : List Deed) : Nat := (ds.map lines).sum

@[simp] theorem total_nil : total [] = 0 := rfl
@[simp] theorem total_cons (d : Deed) (ds : List Deed) : total (d :: ds) = d.lines+total ds := rfl
@[simp] theorem total_append (ds es : List Deed) : total (ds++es) = total ds+total es := by
  simp [total]

def either (truth : Bool) (right : List Deed) : List Deed :=
  .jumpIf truth (size right+1) :: .pop :: right

def branch (yes no : List Deed) : List Deed :=
  .jumpIf false (size yes+4) :: .pop :: yes++.jump (size no+1) :: .pop :: no

def loop (test body : List Deed) : List Deed :=
  test++.jumpIf false (size body+4) :: .pop :: body++[.back (size test+size body+7), .pop]

def counted (body : List Deed) : List Deed := body++[.endRepeat, .back (size body+4)]

def comparison : Comparison → List Deed
  | .equal => [.test .equals]
  | .less => [.test .less]
  | .greater => [.test .greater]
  | .notEqual => [.test .equals, .unary .not]
  | .lessEqual => [.test .greater, .unary .not]
  | .greaterEqual => [.test .less, .unary .not]

end Deed

/-- A directive of the script does the deed. -/
inductive Program.Says (p : Program) : Directive → Deed → Prop
  | newline : Says p .newline .newline
  | pop : Says p .pop .pop
  | constant {i : UInt8} {k : Constant} {c : Content} (hk : p.constant? 0 i = some k)
    (hc : k.content? = some c) : Says p (.constant i) (.constant c)
  | literal (value : Option Bool) : Says p (.literal value) (.literal value)
  | operator (op : Operator) : Says p (.plain (.operator op) rfl) (.operator op)
  | test (t : Test) : Says p (.plain (.test t) rfl) (.test t)
  | unary (u : Unary) : Says p (.unary u) (.unary u)
  | define {i : UInt8} {x : String} (hk : p.constant? 0 i = some (.text x)) :
    Says p (.define i) (.define x)
  | get {i : UInt8} {x : String} (hk : p.constant? 0 i = some (.text x)) :
    Says p (.get .global i) (.get x)
  | assign (a : Assignment) {i : UInt8} {x : String} (hk : p.constant? 0 i = some (.text x)) :
    Says p (.assign a .global i) (.assign a x)
  | callNative {i : UInt8} {x : String} (n : Native) (hk : p.constant? 0 i = some (.text x)) :
    Says p (.callNative i n) (.callNative x n.arity)
  | jump {n : Nat} (hn : n < 0x10000) : Says p (.jump n) (.jump n)
  | jumpIf (truth : Bool) {n : Nat} (hn : n < 0x10000) : Says p (.jumpIf truth n) (.jumpIf truth n)
  | back {n : Nat} (hn : n < 0x10000) : Says p (.back n) (.back n)
  | repeat_ : Says p (.plain .repeat_ rfl) .repeat_
  | endRepeat : Says p .endRepeat .endRepeat


namespace Program.Says

variable {p : Program} {d : Directive} {e : Deed}

theorem op_eq (h : p.Says d e) : d.op = e.op := by
  cases h <;> rfl

theorem width_eq (h : p.Says d e) : d.width = e.width := congrArg Opcode.width h.op_eq

theorem lines_eq (h : p.Says d e) : d.lines = e.lines := by
  cases h with
  | unary u => cases u <;> rfl
  | assign a => cases a <;> rfl
  | _ => rfl

end Program.Says

/-- Directives of the script do the deeds, in order. -/
def Program.Tells (p : Program) (ds : List Directive) (es : List Deed) : Prop :=
  List.Forall₂ p.Says ds es

namespace Program.Tells

variable {p : Program} {ds ds' : List Directive} {d : Directive} {e : Deed} {es es' : List Deed}
  {c c' : Phrase}

theorem nil : p.Tells [] [] := List.Forall₂.nil

theorem cons (h : p.Says d e) (hrest : p.Tells ds es) : p.Tells (d :: ds) (e :: es) :=
  List.Forall₂.cons h hrest

theorem one (h : p.Says d e) : p.Tells [d] [e] := cons h nil

theorem append (h : p.Tells ds es) (h' : p.Tells ds' es') : p.Tells (ds++ds') (es++es') :=
  List.rel_append h h'

theorem size_eq (h : p.Tells ds es) : size ds = Deed.size es := by
  induction h with
  | nil => rfl
  | cons h _ ih => rw [Directive.size_cons, Deed.size_cons, h.width_eq, ih]

theorem total_eq (h : p.Tells ds es) : Directive.total ds = Deed.total es := by
  induction h with
  | nil => rfl
  | cons h _ ih => rw [Directive.total_cons, Deed.total_cons, h.lines_eq, ih]

/-- The directives of a part of the deeds. -/
theorem split (h : p.Tells ds (es++es')) :
    ∃ before after, ds = before++after ∧ p.Tells before es ∧ p.Tells after es' :=
  ⟨_, _, (List.take_append_drop es.length ds).symm, List.forall₂_take_append _ _ _ h,
    List.forall₂_drop_append _ _ _ h⟩

theorem split_directives (h : p.Tells (ds++ds') es) :
    ∃ before after, es = before++after ∧ p.Tells ds before ∧ p.Tells ds' after := by
  have hflip := List.Forall₂.flip h
  exact ⟨_, _, (List.take_append_drop ds.length es).symm,
    (List.forall₂_take_append _ _ _ hflip).flip, (List.forall₂_drop_append _ _ _ hflip).flip⟩

/-! Phrases. -/

theorem either {truth : Bool} (h : p.Tells c.directives es) (hfit : size c.directives+1 < 0x10000) :
    p.Tells (Phrase.either truth c).directives (Deed.either truth es) := by
  rw [Phrase.directives, Deed.either, ← h.size_eq]
  exact .cons (.jumpIf truth hfit) (.cons .pop h)

theorem branch (h : p.Tells c.directives es) (h' : p.Tells c'.directives es')
    (hfit : size c.directives+4 < 0x10000) (hfit' : size c'.directives+1 < 0x10000) :
    p.Tells (Phrase.branch c c').directives (Deed.branch es es') := by
  rw [Phrase.directives, Deed.branch, ← h.size_eq, ← h'.size_eq]
  exact .cons (.jumpIf false hfit) (.cons .pop (h.append (.cons (.jump hfit') (.cons .pop h'))))

theorem loop (h : p.Tells c.directives es) (h' : p.Tells c'.directives es')
    (hfit : size c.directives+size c'.directives+7 < 0x10000) :
    p.Tells (Phrase.loop c c').directives (Deed.loop es es') := by
  rw [Phrase.directives, Deed.loop, ← h.size_eq, ← h'.size_eq]
  refine (h.append (.cons (.jumpIf false (by omega)) (.cons .pop h'))).append ?_
  exact .cons (.back hfit) (one .pop)

theorem counted (h : p.Tells c.directives es) (hfit : size c.directives+4 < 0x10000) :
    p.Tells (Phrase.counted c).directives (Deed.counted es) := by
  rw [Phrase.directives, Deed.counted, ← h.size_eq]
  exact h.append (.cons .endRepeat (one (.back hfit)))

theorem comparison (t : Comparison) :
    p.Tells (Phrase.comparison t).directives (Deed.comparison t) := by
  cases t with
  | equal | less | greater => exact one (.test _)
  | notEqual | lessEqual | greaterEqual => exact .cons (.test _) (one (.unary .not))

end Program.Tells

/-! Trees. -/

namespace Expr

/-- The deeds of a part of an expression outside all runnables. -/
def deeds : {k : ExprKind} → Expr k → List Deed
  | _, number digits => [.constant (.number ((Number.parseFinite? digits).getD .zero))]
  | _, text content => [.constant (.text content)]
  | _, literal value => [.literal value]
  | _, group inside => inside.deeds
  | _, unary u inside => inside.deeds++[.unary u]
  | _, name x => [.get x]
  | _, count x up => [.assign (.count up) x]
  | _, assign x op value => value.deeds++[.assign (assignment op) x]
  | _, call x arguments => .get x :: arguments.deeds++[.callNative x arguments.length]
  | _, head first => first.deeds
  | _, join left (.operator op) right => left.deeds++(right.deeds++[.operator op])
  | _, join left (.comparison t) right => left.deeds++(right.deeds++Deed.comparison t)
  | _, join left .and right => left.deeds++Deed.either false right.deeds
  | _, join left .or right => left.deeds++Deed.either true right.deeds
  | _, nil => []
  | _, cons first rest => first.deeds++rest.deeds

variable {p : Program} {v : View}

theorem refers_script {x : String} {scope : Scope} {i : UInt8} (hv : v.function = 0)
    (h : v.Refers p x scope i) : scope = .global ∧ p.constant? 0 i = some (.text x) := by
  cases h with
  | global _ hk => exact ⟨rfl, hv ▸ hk⟩
  | frame hs => simp [View.slot?, hv] at hs

theorem Codes.tells (hv : v.function = 0) (honly : ∀ x, p.runnable? x = none) {k : ExprKind}
    {e : Expr k} {c : Phrase} (h : e.Codes p v c) : p.Tells c.directives e.deeds := by
  induction h with
  | number hvalue hc =>
    refine .one (.constant (hv ▸ hc) ?_)
    rw [hvalue]
    rfl
  | text hc => exact .one (.constant (hv ▸ hc) rfl)
  | literal value => exact .one (.literal value)
  | group _ ih => exact ih
  | unary _ ih => exact ih.append (.one (.unary _))
  | name hx =>
    obtain ⟨rfl, hk⟩ := refers_script hv hx
    exact .one (.get hk)
  | count hx =>
    obtain ⟨rfl, hk⟩ := refers_script hv hx
    exact .one (.assign _ hk)
  | assign hx _ ih =>
    obtain ⟨rfl, hk⟩ := refers_script hv hx
    exact ih.append (.one (.assign _ hk))
  | call _ hcallee =>
    rw [honly] at hcallee
    cases hcallee
  | @callNative x args index native c hx _ hcount _ ih =>
    have hk : p.constant? 0 index = some (.text x) := hv ▸ hx
    rw [deeds, hcount]
    exact Program.Tells.append (.cons (.get hk) ih) (.one (.callNative native hk))
  | head _ ih => exact ih
  | operator _ _ ihl ihr => exact ihl.append (ihr.append (.one (.operator _)))
  | comparison _ _ ihl ihr => exact ihl.append (ihr.append (.comparison _))
  | and _ _ hfit ihl ihr => exact ihl.append (ihr.either hfit)
  | or _ _ hfit ihl ihr => exact ihl.append (ihr.either hfit)
  | nil => exact .nil
  | cons _ _ ihe ihrest => exact ihe.append ihrest

/-- The deeds of a value that may be left out. -/
def valueDeeds : Option (Expr .operand) → List Deed
  | none => [.literal none]
  | some e => e.deeds

theorem ValueCodes.tells (hv : v.function = 0) (honly : ∀ x, p.runnable? x = Option.none)
    {value : Option (Expr .operand)} {c : Phrase} (h : ValueCodes p v value c) :
    p.Tells c.directives (valueDeeds value) := by
  cases h with
  | none => exact .one (.literal Option.none)
  | some he => exact he.tells hv honly

end Expr

namespace Stmt

/-- The deeds of a part of a script that declares no runnable. -/
def deeds : {k : StmtKind} → Stmt k → List Deed
  | _, expression e => e.deeds++[.pop]
  | _, declare x value => Expr.valueDeeds value++[.define x]
  | _, if_ test yes => test.deeds++[.newline]++Deed.branch yes.deeds []
  | _, ifElse test yes no => test.deeds++[.newline]++Deed.branch yes.deeds (.newline :: no.deeds)
  | _, while_ test body => Deed.loop test.deeds (.newline :: body.deeds)
  | _, repeat_ count body => count.deeds++[.repeat_]++[.newline]++Deed.counted body.deeds
  | _, line first rest => first.deeds++[.newline]++rest.deeds
  | _, scope lines => lines.deeds
  | _, blank | _, return_ _ | _, runnable _ _ _ | _, nil => []

theorem Codes.tells {p : Program} (honly : p.functions.size = 1) {k : StmtKind} {s s' : Site}
    {t : Stmt k} {c : Phrase} {l : List Note} (h : t.Codes p s s' c l) (hs : s.function = 0) :
    p.Tells c.directives t.deeds := by
  have hnone (x : String) : p.runnable? x = none := by
    have hdrop : p.functions.toList.drop 1 = [] := List.drop_eq_nil_of_le (by simp [honly])
    simp [Program.runnable?, hdrop]
  have hcounting (s : Site) : s.counting.function = s.function := by
    unfold Site.counting
    split <;> rfl
  induction h with
  | blank | nil => exact .nil
  | expression he => exact (he.tells hs hnone).append (.one .pop)
  | declare _ hv hx => exact (hv.tells hs hnone).append (.one (.define (hs ▸ hx)))
  | declareLocal hlocal | return_ hlocal => exact absurd hs hlocal
  | if_ htest _ hfit ih =>
    exact ((htest.tells hs hnone).append (.one .newline)).append
      ((ih hs).branch .nil hfit (by decide))
  | ifElse htest hyes _ hfit hfit' ihyes ihno =>
    have hno := Program.Tells.cons .newline (ihno (hyes.function_eq.trans hs))
    refine ((htest.tells hs hnone).append (.one .newline)).append ((ihyes hs).branch hno hfit ?_)
    simp only [Phrase.directives, Phrase.newline, Directive.size_append, Directive.size_cons,
      Directive.size_nil, Directive.width_newline]
    omega
  | while_ htest _ hfit ih =>
    refine (htest.tells hs hnone).loop (.cons .newline (ih hs)) ?_
    simp only [Phrase.directives, Phrase.newline, Directive.size_append, Directive.size_cons,
      Directive.size_nil, Directive.width_newline]
    omega
  | repeat_ hcount _ hfit ih =>
    have hbody := ih ((hcounting _).trans hs)
    exact (((hcount.tells hs hnone).append (.one .repeat_)).append (.one .newline)).append
      (hbody.counted hfit)
  | runnable _ hlater hf =>
    have hlt := (Array.getElem?_eq_some_iff.mp hf).1
    omega
  | line hfirst _ ihfirst ihrest =>
    exact ((ihfirst hs).append (.one .newline)).append (ihrest (hfirst.function_eq.trans hs))
  | scope hlines ih =>
    -- outside all runnables there are no locals to drop
    have hlocals := hlines.length_locals
    rw [hs] at hlocals
    rw [show (0 != 0) = false from rfl, localsBehind_script] at hlocals
    rw [hlocals, Nat.sub_self, deeds, ← List.append_nil (deeds _)]
    exact (ih hs).append .nil

end Stmt

namespace Script

/-- The deeds of a script that declares no runnable. -/
def deeds (t : Script) : List Deed :=
  t.lines.deeds++(match t.last with
    | some s => s.deeds
    | none => [])

theorem Codes.tells {p : Program} (honly : p.functions.size = 1) {t : Script} {s : Site} {c : Phrase}
    {l : List Note} (h : t.Codes p s c l) : p.Tells c.directives t.deeds := by
  cases h with
  | whole hlines =>
    rw [deeds, List.append_nil]
    exact hlines.tells honly rfl
  | cut hlines hlast => exact (hlines.tells honly rfl).append (hlast.tells honly hlines.function_eq)

end Script

end RatScript
