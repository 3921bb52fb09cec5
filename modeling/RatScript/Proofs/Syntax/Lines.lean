import RatScript.Proofs.Syntax.Code

/-!
Where the code of a script was written. Replaying the markers of a function tells the line of each of
its instructions, and the definition of a runnable stands for all lines of its body.
-/

namespace RatScript

open Directive (size encode place)

namespace Directive

/-- Ends of lines that a directive stands for. -/
def lines (d : Directive) : Nat := (d.at_ 0).lines

@[simp] theorem lines_at (d : Directive) (offset : Nat) : (d.at_ offset).lines = d.lines := rfl

@[simp] theorem lines_newline : newline.lines = 1 := rfl

@[simp] theorem lines_defineRunnable (index : UInt8) (n : UInt16) :
    (defineRunnable index n).lines = n.toNat := rfl

def total (ds : List Directive) : Nat := (ds.map lines).sum

@[simp] theorem total_nil : total [] = 0 := rfl

@[simp] theorem total_cons (d : Directive) (ds : List Directive) :
    total (d :: ds) = d.lines+total ds := rfl

@[simp] theorem total_append (ds es : List Directive) : total (ds++es) = total ds+total es := by
  simp [total]

/-- Constants that directives define runnables with. -/
def definitions (ds : List Directive) : List UInt8 :=
  ds.filterMap fun d => match d.operand with
    | .runnable index _ => some index
    | _ => none

@[simp] theorem definitions_nil : definitions [] = [] := rfl

@[simp] theorem definitions_append (ds es : List Directive) :
    definitions (ds++es) = definitions ds++definitions es := by
  simp [definitions]

/-- A directive inside a line: no marker, and no definition of a runnable. -/
def isInner (d : Directive) : Bool := d.op != .newline && d.op != .defineRunnable

@[simp] theorem isInner_constant (index : UInt8) : (constant index).isInner = true := rfl

@[simp] theorem isInner_literal (value : Option Bool) : (literal value).isInner = true := rfl

@[simp] theorem isInner_unary (u : Unary) : (unary u).isInner = true := by cases u <;> rfl

@[simp] theorem isInner_get (scope : Scope) (i : UInt8) : (get scope i).isInner = true := by
  cases scope <;> rfl

@[simp] theorem isInner_assign (a : Assignment) (scope : Scope) (i : UInt8) :
    (assign a scope i).isInner = true := by
  cases a <;> cases scope <;> rfl

@[simp] theorem isInner_define (index : UInt8) : (define index).isInner = true := rfl

@[simp] theorem isInner_call (index : UInt8) : (call index).isInner = true := rfl

@[simp] theorem isInner_callNative (index : UInt8) (n : Native) :
    (callNative index n).isInner = true := rfl

@[simp] theorem isInner_operator (op : Operator) :
    (plain (.operator op) rfl).isInner = true := rfl

@[simp] theorem isInner_pop : pop.isInner = true := rfl

@[simp] theorem isInner_jump (n : Nat) : (jump n).isInner = true := rfl

@[simp] theorem isInner_back (n : Nat) : (back n).isInner = true := rfl

@[simp] theorem isInner_endRepeat : endRepeat.isInner = true := rfl

@[simp] theorem isInner_jumpIf (truth : Bool) (n : Nat) : (jumpIf truth n).isInner = true := rfl

theorem lines_of_inner {d : Directive} (h : d.isInner = true) : d.lines = 0 := by
  simp only [isInner, Bool.and_eq_true, bne_iff_ne] at h
  simp only [lines, at_, Instruction.lines]
  split
  · next hop => exact absurd hop h.1
  · next hop _ => exact absurd hop h.2
  · rfl

theorem total_of_inner {ds : List Directive} (h : ∀ d ∈ ds, d.isInner = true) : total ds = 0 := by
  induction ds with
  | nil => rfl
  | cons d ds ih =>
    rw [total_cons, lines_of_inner (h d (by simp)), ih fun e he => h e (List.mem_cons_of_mem _ he)]

theorem op_of_runnable {d : Directive} {index : UInt8} {n : UInt16}
    (h : d.operand = .runnable index n) : d.op = .defineRunnable := by
  have hlayout : d.op.layout = .runnable := by rw [← d.laid, h]; rfl
  generalize d.op = op at hlayout
  cases op with
  | defineRunnable => rfl
  | get scope | set scope | count scope | compound scope => cases scope <;> cases hlayout
  | _ => cases hlayout

theorem operand_of_defineRunnable {d : Directive} (h : d.op = .defineRunnable) :
    ∃ index lines, d.operand = .runnable index lines := by
  have hlaid := d.laid
  rw [h] at hlaid
  cases hoperand : d.operand with
  | runnable index lines => exact ⟨index, lines, rfl⟩
  | _ => rw [hoperand] at hlaid; cases hlaid

theorem definitions_eq_nil_iff {ds : List Directive} :
    definitions ds = [] ↔ ∀ d ∈ ds, d.op ≠ .defineRunnable := by
  rw [definitions, List.filterMap_eq_nil_iff]
  refine forall₂_congr fun d hd => ⟨fun h hop => ?_, fun h => ?_⟩
  · obtain ⟨index, lines, hoperand⟩ := operand_of_defineRunnable hop
    simp [hoperand] at h
  · split
    · next hoperand => exact absurd (op_of_runnable hoperand) h
    · rfl

theorem countP_place (offset : Nat) (ds : List Directive) (q : Opcode → Bool) :
    (place offset ds).countP (fun i => q i.op) = ds.countP fun d => q d.op := by
  induction ds generalizing offset with
  | nil => rfl
  | cons d ds ih => simp [place, List.countP_cons, ih, at_]

/-- Where no runnable is defined, the markers are all that stands for lines. -/
theorem total_eq_countP {ds : List Directive} (h : ∀ d ∈ ds, d.op ≠ .defineRunnable) :
    total ds = ds.countP (·.op == .newline) := by
  induction ds with
  | nil => rfl
  | cons d ds ih =>
    have hlines : d.lines = if d.op == .newline then 1 else 0 := by
      by_cases hop : d.op = .newline
      · simp [lines, at_, Instruction.lines, hop]
      · rw [lines_of_inner (by simpa [isInner] using ⟨hop, h d (by simp)⟩)]
        simp [hop]
    rw [total_cons, List.countP_cons, ih fun e he => h e (List.mem_cons_of_mem _ he), hlines]
    omega

/-- Notes of directives written one after another, each with the lines that those before it stand
for. -/
def ledger (function : Nat) : (offset read : Nat) → List Directive → List Note
  | _, _, [] => []
  | offset, read, d :: ds =>
    ⟨function, offset, read⟩ :: ledger function (offset+d.width) (read+d.lines) ds

theorem ledger_append (function offset read : Nat) (ds es : List Directive) :
    ledger function offset read (ds++es) =
      ledger function offset read ds++
        ledger function (offset+size ds) (read+total ds) es := by
  induction ds generalizing offset read with
  | nil => rfl
  | cons d ds ih => simp [ledger, ih, Nat.add_assoc]

theorem function_of_ledger {function offset read : Nat} {ds : List Directive} {n : Note}
    (h : n ∈ ledger function offset read ds) : n.function = function := by
  induction ds generalizing offset read with
  | nil => simp [ledger] at h
  | cons d ds ih =>
    rcases List.mem_cons.mp h with rfl | h
    · rfl
    · exact ih h

theorem filter_ledger (function offset read : Nat) (ds : List Directive) :
    (ledger function offset read ds).filter (·.function = function) =
      ledger function offset read ds := by
  rw [List.filter_eq_self]
  intro n hn
  simp [function_of_ledger hn]

theorem filter_ledger_of_ne {function id : Nat} (h : id ≠ function) (offset read : Nat)
    (ds : List Directive) : (ledger function offset read ds).filter (·.function = id) = [] := by
  rw [List.filter_eq_nil_iff]
  intro n hn
  simp [function_of_ledger hn, Ne.symm h]

end Directive

/-- Inside a line all notes count the same ends of lines. -/
theorem Site.notes_inner {s : Site} {ds : List Directive} (h : ∀ d ∈ ds, d.isInner = true) :
    s.notes ds = Directive.ledger s.function s.offset s.read ds := by
  obtain ⟨⟨function, locals⟩, functions, offset, read⟩ := s
  unfold notes
  simp only
  induction ds generalizing offset with
  | nil => rfl
  | cons d ds ih =>
    have hd := Directive.lines_of_inner (h d (by simp))
    simp only [place, List.map_cons, Directive.ledger, hd, Nat.add_zero]
    rw [ih (fun e he => h e (List.mem_cons_of_mem _ he))]
    rfl

theorem Site.notes_append (s : Site) (ds es : List Directive) :
    s.notes (ds++es) = s.notes ds++(s.forward (size ds)).notes es := by
  simp [notes, Directive.place_append, forward]

/-- A function whose code is a list of directives, defined by one of the directives of the function
around it. -/
def Note.Body (p : Program) (outer read id : Nat) (ds : List Directive) (l : List Note) : Prop :=
  ∃ (f : Function) (body : List Directive) (index : UInt8) (lines : UInt16)
      (before after : List Directive), p.functions[id]? = some f ∧ f.enclosing = some outer ∧
    f.chunk.code.toList = encode body ∧ ds = before++.defineRunnable index lines :: after ∧
    p.constant? outer index = some (.runnable id) ∧
    l.filter (·.function = id) = Directive.ledger id 0 (read+Directive.total before) body

/-- The notes between two sites account for all directives there and for the runnables in between. -/
structure Note.Account (p : Program) (s s' : Site) (ds : List Directive) (l : List Note) : Prop where
  function : s'.function = s.function
  offset : s'.offset = s.offset+size ds
  read : s'.read = s.read+Directive.total ds
  functions : s.functions ≤ s'.functions
  own : l.filter (·.function = s.function) = Directive.ledger s.function s.offset s.read ds
  others : ∀ n ∈ l, n.function = s.function ∨ s.functions ≤ n.function ∧ n.function < s'.functions
  defines : (Directive.definitions ds).map (p.constant? s.function) =
    (List.range' s.functions (s'.functions-s.functions)).map fun id => some (.runnable id)
  bodies : ∀ id, s.functions ≤ id → id < s'.functions → Note.Body p s.function s.read id ds l

namespace Note.Account

variable {p : Program} {s s' s'' : Site} {ds es : List Directive} {l m : List Note}

/-- Directives inside a line. -/
theorem inner (p : Program) (s : Site) (ds : List Directive) (h : ∀ d ∈ ds, d.isInner = true) :
    Account p s (s.forward (size ds)) ds (s.notes ds) where
  function := rfl
  offset := rfl
  read := by rw [Directive.total_of_inner h]; rfl
  functions := Nat.le_refl _
  own := by rw [Site.notes_inner h, Directive.filter_ledger]
  others n hn := by
    rw [Site.notes_inner h] at hn
    exact .inl (Directive.function_of_ledger hn)
  defines := by
    have hnone : Directive.definitions ds = [] := by
      rw [Directive.definitions_eq_nil_iff]
      intro d hd
      have hinner := h d hd
      simp only [Directive.isInner, Bool.and_eq_true, bne_iff_ne] at hinner
      exact hinner.2
    simp [hnone, Site.forward]
  bodies id hle hlt := absurd hlt (Nat.not_lt.mpr hle)

/-- The marker of an end of line. -/
theorem newline (p : Program) (s : Site) : Account p s s.ended [.newline] (s.notes [.newline]) where
  function := rfl
  offset := rfl
  read := rfl
  functions := Nat.le_refl _
  own := by simp [Site.notes, place, Directive.ledger, Directive.at_]
  others n hn := by
    simp only [Site.notes, place, List.map_cons, List.map_nil, List.mem_singleton] at hn
    exact .inl (by rw [hn])
  defines := by simp [Directive.definitions, Directive.newline, Directive.plain, Site.ended]
  bodies id hle hlt := absurd hlt (Nat.not_lt.mpr hle)

theorem seq (h : Account p s s' ds l) (k : Account p s' s'' es m) (hs : s.function < s.functions) :
    Account p s s'' (ds++es) (l++m) where
  function := k.function.trans h.function
  offset := by rw [k.offset, h.offset, Directive.size_append, Nat.add_assoc]
  read := by rw [k.read, h.read, Directive.total_append, Nat.add_assoc]
  functions := h.functions.trans k.functions
  own := by
    have hown := k.own
    rw [h.function, h.offset, h.read] at hown
    rw [List.filter_append, h.own, hown, Directive.ledger_append]
  others n hn := by
    have hfunctions := h.functions
    have hfunctions' := k.functions
    rcases List.mem_append.mp hn with hn | hn
    · rcases h.others n hn with h' | h'
      · exact .inl h'
      · exact .inr ⟨h'.1, by omega⟩
    · rcases k.others n hn with h' | h'
      · exact .inl (h'.trans h.function)
      · exact .inr ⟨by omega, h'.2⟩
  defines := by
    have hfunctions := h.functions
    have hfunctions' := k.functions
    have hk := k.defines
    rw [h.function] at hk
    rw [Directive.definitions_append, List.map_append, h.defines, hk, ← List.map_append]
    congr 1
    rw [show s''.functions-s.functions =
      (s'.functions-s.functions)+(s''.functions-s'.functions) by omega]
    rw [← List.range'_append_1, show s.functions+(s'.functions-s.functions) = s'.functions by omega]
  bodies id hle hlt := by
    have hfunctions := h.functions
    by_cases hid : id < s'.functions
    · obtain ⟨f, body, index, lines, before, after, hf, henc, hcode, hsplit, hconst, hnotes⟩ :=
        h.bodies id hle hid
      refine ⟨f, body, index, lines, before, after++es, hf, henc, hcode, ?_, hconst, ?_⟩
      · rw [hsplit]
        simp
      · have hnone : m.filter (·.function = id) = [] := by
          rw [List.filter_eq_nil_iff]
          intro n hn
          have hother := k.others n hn
          have hfunction := h.function
          simp only [decide_eq_true_eq]
          omega
        rw [List.filter_append, hnone, List.append_nil, hnotes]
    · obtain ⟨f, body, index, lines, before, after, hf, henc, hcode, hsplit, hconst, hnotes⟩ :=
        k.bodies id (by omega) hlt
      rw [h.function] at henc hconst
      refine ⟨f, body, index, lines, ds++before, after, hf, henc, hcode, ?_, hconst, ?_⟩
      · rw [hsplit]
        simp
      · have hnone : l.filter (·.function = id) = [] := by
          rw [List.filter_eq_nil_iff]
          intro n hn
          have hother := h.others n hn
          simp only [decide_eq_true_eq]
          omega
        rw [h.read] at hnotes
        rw [List.filter_append, hnone, List.nil_append, hnotes, Directive.total_append,
          Nat.add_assoc]

/-- A runnable, which no other is declared in, and its definition behind it. -/
theorem runnable {f : Function} {locals : List (Option String)} {index : UInt8} {lines : UInt16}
    (h : Account p ⟨⟨s.functions, locals⟩, s.functions+1, 0, s.read⟩ s' ds l)
    (hs : s.function < s.functions) (hlast : s'.functions = s.functions+1)
    (hf : p.functions[s.functions]? = some f) (henclosing : f.enclosing = some s.function)
    (hcode : f.chunk.code.toList = encode ds) (hlines : lines.toNat = Compile.lineMarkers f.chunk)
    (hindex : p.constant? s.function index = some (.runnable s.functions)) :
    Account p s {s.forward 4 with functions := s'.functions, read := s'.read}
      [.defineRunnable index lines] (l++s.notes [.defineRunnable index lines]) where
  function := rfl
  offset := rfl
  read := by
    have hnone : Directive.definitions ds = [] := by
      have hdefines := h.defines
      rw [hlast] at hdefines
      simpa using hdefines
    have htotal : Directive.total ds = lines.toNat := by
      rw [Directive.total_eq_countP (Directive.definitions_eq_nil_iff.mp hnone), hlines,
        Compile.lineMarkers, Chunk.instructions, Directive.decode_encode hcode,
        ← Directive.countP_place 0 ds (· == .newline)]
    change s'.read = s.read+(lines.toNat+0)
    rw [h.read, htotal]
    rfl
  functions := by
    change s.functions ≤ s'.functions
    omega
  own := by
    have hnone : l.filter (·.function = s.function) = [] := by
      rw [List.filter_eq_nil_iff]
      intro n hn
      have hother := h.others n hn
      simp only [decide_eq_true_eq] at hother ⊢
      omega
    rw [List.filter_append, hnone]
    simp [Site.notes, place, Directive.ledger, Directive.at_]
  others n hn := by
    rcases List.mem_append.mp hn with hn | hn
    · have hother := h.others n hn
      simp only at hother ⊢
      omega
    · simp only [Site.notes, place, List.map_cons, List.map_nil, List.mem_singleton] at hn
      exact .inl (by rw [hn])
  defines := by
    simp [Directive.definitions, Directive.defineRunnable, hlast, hindex]
  bodies id hle hlt := by
    obtain rfl : id = s.functions := by
      simp only at hlt
      omega
    refine ⟨f, ds, index, lines, [], [], hf, henclosing, hcode, rfl, hindex, ?_⟩
    have hnone : (s.notes [.defineRunnable index lines]).filter (·.function = s.functions) = [] := by
      simp [Site.notes, place, Nat.ne_of_lt hs]
    rw [List.filter_append, hnone, List.append_nil]
    exact h.own

/-- Locals play no part in it. -/
theorem withLocals (h : Account p s s' ds l) (before after : List (Option String)) :
    Account p (s.withLocals before) (s'.withLocals after) ds l :=
  ⟨h.function, h.offset, h.read, h.functions, h.own, h.others, h.defines, h.bodies⟩

end Note.Account

theorem Phrase.inner_pops (n : Nat) : ∀ d ∈ (pops n).directives, d.isInner = true := by
  induction n with
  | zero => simp [pops, directives]
  | succ n ih =>
    intro d hd
    rcases List.mem_cons.mp hd with rfl | hd
    · rfl
    · exact ih d hd

theorem Phrase.inner_comparison (t : Comparison) :
    ∀ d ∈ (comparison t).directives, d.isInner = true := by
  cases t <;> simp [comparison, directives] <;> decide

/-- An expression stands in one line. -/
theorem Expr.Codes.inner {p : Program} {v : View} {k : ExprKind} {e : Expr k} {c : Phrase}
    (h : e.Codes p v c) : ∀ d ∈ c.directives, d.isInner = true := by
  induction h with
  | @comparison _ _ t _ _ _ _ ihl ihr =>
    have ht := Phrase.inner_comparison t
    simp only [Phrase.directives, List.forall_mem_append]
    exact ⟨ihl, ihr, ht⟩
  | _ => simp_all [Phrase.directives, or_imp]

theorem Expr.ValueCodes.inner {p : Program} {v : View} {value : Option (Expr .operand)} {c : Phrase}
    (h : Expr.ValueCodes p v value c) : ∀ d ∈ c.directives, d.isInner = true := by
  cases h with
  | none => simp [Phrase.directives]
  | some he => exact he.inner

namespace Stmt.Codes

open Note (Account)

/-- In a runnable no runnable is declared. -/
theorem functions_eq {p : Program} {k : StmtKind} {s s' : Site} {t : Stmt k} {c : Phrase}
    {l : List Note} (h : t.Codes p s s' c l) (hs : s.function ≠ 0) :
    s'.functions = s.functions := by
  induction h with
  | blank | nil | expression | declare | declareLocal | return_ => rfl
  | if_ _ _ _ ih => exact ih hs
  | ifElse _ hyes _ _ _ ihyes ihno =>
    exact (ihno (fun hzero => hs (hyes.function_eq.symm.trans hzero))).trans (ihyes hs)
  | while_ _ _ _ ih => exact ih hs
  | @repeat_ s _ _ _ c _ _ _ _ _ ih =>
    have hcounting : ((s.past c).forward 1).ended.counting =
        ((s.past c).forward 1).ended.withLocals (none :: s.locals) := if_neg hs
    rw [hcounting] at ih
    exact ih hs
  | runnable hzero => exact absurd hzero hs
  | line hfirst _ ihfirst ihrest =>
    exact (ihrest (fun hzero => hs (hfirst.function_eq.symm.trans hzero))).trans (ihfirst hs)
  | scope _ ih => exact ih hs

theorem account {p : Program} {k : StmtKind} {s s' : Site} {t : Stmt k} {c : Phrase}
    {l : List Note} (h : t.Codes p s s' c l) (hs : s.function < s.functions) :
    Account p s s' c.directives l := by
  induction h with
  | @blank s | @nil s => exact .inner p s [] (by simp)
  | @expression s _ c he =>
    refine .inner p s (c.directives++[Directive.pop]) ?_
    simpa [or_imp, forall_and] using he.inner
  | @declare s _ _ c index _ hv _ =>
    refine .inner p s (c.directives++[Directive.define index]) ?_
    simpa [or_imp, forall_and] using hv.inner
  | @declareLocal s _ _ c _ hv =>
    exact (Account.inner p s c.directives hv.inner).withLocals s.locals _
  | @return_ s _ c _ hv =>
    refine .inner p s (c.directives++[Directive.plain .ret rfl]) ?_
    simpa [or_imp, forall_and] using ⟨hv.inner, rfl⟩
  | @if_ s s' _ _ c d l htest _ _ ih =>
    have hjump := Account.inner p (s.past c).ended [.jumpIf false (size d.directives+4), .pop]
      (by simp)
    have hskip := Account.inner p s' [.jump 1, .pop] (by simp)
    have hall := ((((Account.inner p s c.directives htest.inner).seq (.newline p _) hs).seq hjump
      hs).seq (ih hs) hs).seq hskip hs
    simpa [Phrase.directives, Phrase.newline, Site.notes_append] using hall
  | @ifElse s s' s'' _ _ _ c d e l m htest _ _ _ _ ihyes ihno =>
    have hyes := ihyes hs
    have hs' : s'.function < s'.functions :=
      Nat.lt_of_le_of_lt (Nat.le_of_eq hyes.function) (Nat.lt_of_lt_of_le hs hyes.functions)
    have hjump := Account.inner p (s.past c).ended [.jumpIf false (size d.directives+4), .pop]
      (by simp)
    have hskip := Account.inner p s' [.jump (size e.directives+2), .pop] (by simp)
    have hall := ((((((Account.inner p s c.directives htest.inner).seq (.newline p _) hs).seq hjump
      hs).seq hyes hs).seq hskip hs).seq (.newline p _) hs).seq (ihno hs') hs
    have hnotes : s'.notes [.jump (size e.directives+2), .pop, .newline] =
        s'.notes [Directive.jump (size e.directives+2), .pop]++(s'.forward 4).notes [.newline] :=
      s'.notes_append [_, _] [_]
    have hdistance : 1+size e.directives+1 = size e.directives+2 := by omega
    simpa [Phrase.directives, Phrase.newline, Site.notes_append, hnotes, hdistance] using hall
  | @while_ s s' _ _ c d l htest _ _ ih =>
    have hjump := Account.inner p (s.past c) [.jumpIf false (size d.directives+5), .pop] (by simp)
    have hback := Account.inner p s' [.back (size c.directives+size d.directives+8), .pop] (by simp)
    have hall := ((((Account.inner p s c.directives htest.inner).seq hjump hs).seq (.newline p _)
      hs).seq (ih hs) hs).seq hback hs
    have hnotes : (s.past c).notes [.jumpIf false (size d.directives+5), .pop, .newline] =
        (s.past c).notes [Directive.jumpIf false (size d.directives+5), .pop]++
          ((s.past c).forward 4).notes [.newline] :=
      (s.past c).notes_append [_, _] [_]
    have hdistance : 1+size d.directives+4 = size d.directives+5 ∧
        size c.directives+(1+size d.directives)+7 = size c.directives+size d.directives+8 := by omega
    have hnotes' : s.notes (c.directives++[Directive.jumpIf false (size d.directives+5), .pop, .newline]) =
        s.notes c.directives++(s.past c).notes [.jumpIf false (size d.directives+5), .pop, .newline] :=
      s.notes_append _ _
    simpa [Phrase.directives, Phrase.newline, hnotes', hnotes, hdistance] using hall
  | @repeat_ s s' _ _ c d l hcount _ _ ih =>
    have hchecked := Account.inner p s (c.directives++[Directive.plain .repeat_ rfl])
      (by simpa [or_imp, forall_and] using ⟨hcount.inner, rfl⟩)
    have hback := Account.inner p s' [.endRepeat, .back (size d.directives+4)] (by simp)
    have hcounting : ((s.past c).forward 1).ended.counting =
        ((s.past c).forward 1).ended.withLocals
          ((s.past c).forward 1).ended.counting.locals := by
      unfold Site.counting
      split <;> rfl
    have hbody := ih (by rw [hcounting]; exact hs)
    have hbody : Account p ((s.past c).forward 1).ended s' d.directives l := by
      rw [hcounting] at hbody
      exact hbody.withLocals s.locals s'.locals
    have hforward : s.forward (size (c.directives++[Directive.plain .repeat_ rfl])) =
        (s.past c).forward 1 := by
      simp [Site.past, Site.forward, Directive.plain, Directive.width, Opcode.width, Opcode.layout,
        Layout.length, Nat.add_assoc]
    rw [hforward] at hchecked
    have hall := ((hchecked.seq (.newline p _) hs).seq hbody hs).seq hback hs
    have hnotes : s.notes (c.directives++[Directive.plain .repeat_ rfl, .newline]) =
        s.notes (c.directives++[Directive.plain .repeat_ rfl])++
          ((s.past c).forward 1).notes [.newline] := by
      rw [← hforward, ← Site.notes_append]
      simp
    have hall : Account p s ((s'.forward 4).withLocals s.locals) _ _ :=
      hall.withLocals s.locals s.locals
    rw [hnotes]
    simpa [Phrase.directives, Phrase.newline] using hall
  | @scope s s' lines c l _ ih =>
    have hpops := Account.inner p s' _ (Phrase.inner_pops (s'.locals.length-s.locals.length))
    exact ((ih hs).seq hpops hs).withLocals s.locals _
  | @line s s' s'' _ _ c d l m _ _ ihfirst ihrest =>
    have hfirst := ihfirst hs
    have hs' : s'.function < s'.functions :=
      Nat.lt_of_le_of_lt (Nat.le_of_eq hfirst.function) (Nat.lt_of_lt_of_le hs hfirst.functions)
    have hall := (hfirst.seq (.newline p _) hs).seq (ihrest hs') hs
    simpa [Phrase.directives, Phrase.newline] using hall
  | @runnable s s' _ params _ c _ _ _ _ hzero hlater hf _ _ henclosing hbody hcode hlines hindex ih =>
    have hbegin : (s.inside params).function < (s.inside params).functions := Nat.lt_succ_self _
    have hend := Account.inner p s' Program.epilogue (by simp [Program.epilogue]; decide)
    have hall := ((Account.newline p (s.inside params)).seq (ih hbegin) hbegin).seq hend hbegin
    refine hall.runnable hs ?_ hf (by rw [hzero]; exact henclosing) hcode hlines hindex
    exact hbody.functions_eq (Nat.ne_of_gt hlater)

end Stmt.Codes
end RatScript
