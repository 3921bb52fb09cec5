import RatScript.Proofs.Meaning.Routine
import RatScript.Proofs.Syntax.Stages

/-!
The code of expressions and statements has stages. Behind an expression its results stand over the
cells in scope; behind a statement nothing does.
-/

namespace RatScript

open Directive (size place)

namespace Expr

/-- Values left on the stack. -/
def results : {k : ExprKind} → Expr k → Nat
  | .arguments, e => e.length
  | .leading, _ | .operand, _ => 1

@[simp] theorem results_operand (e : Expr .operand) : e.results = 1 := rfl

@[simp] theorem results_leading (e : Expr .leading) : e.results = 1 := rfl

@[simp] theorem results_arguments (e : Expr .arguments) : e.results = e.length := rfl

theorem width_call (x : String) (arguments : Expr .arguments) :
    2+arguments.width+2 ≤ (call x arguments).width := by
  rw [width]
  split <;> omega

theorem results_le_width {k : ExprKind} (e : Expr k) : e.results ≤ e.width := by
  induction e with
  | number | text | literal | name | count | call | nil => simp [results, width, length] <;> omega
  | group _ ih | head _ ih => exact ih
  | unary _ _ ih | assign _ _ _ ih => exact Nat.le_add_left 1 _
  | join _ _ _ ihl => exact Nat.le_add_right_of_le ihl
  | cons _ _ ihfirst ihrest =>
    simp only [results, length, width] at *
    omega

end Expr

/-- No runnable has the name of a native. -/
def Program.Apart (p : Program) : Prop :=
  ∀ x callee, p.runnable? x = some callee → Native.ofName? x = none

@[simp] theorem Directive.width_get (scope : Scope) (i : UInt8) : (get scope i).width = 2 := by
  cases scope <;> rfl

@[simp] theorem Directive.width_assign (a : Assignment) (scope : Scope) (i : UInt8) :
    (assign a scope i).width = 2 := by
  cases scope <;> cases a <;> rfl

/-- The compiler names a variable by the newest cell of its name. -/
theorem View.Refers.names {p : Program} {v : View} {f : Function} {x : String} {scope : Scope}
    {i : UInt8} {cells : List Cell} (h : v.Refers p x scope i) (hid : v.function ≠ 0)
    (hf : p.functions[v.function]? = some f) (hcells : v.locals = cells.map Cell.name?)
    (target : Option Assignment) (offset : Nat) :
    Use.Names f ⟨x, target, offset, cells⟩
      ((Use.directive ⟨x, target, offset, cells⟩ scope i).at_ offset) := by
  have hslot : v.slot? x = (Cell.slotIn x cells).map UInt8.ofNat := by
    rw [View.slot?, if_pos hid, hcells, Cell.slotIn_eq]
  cases h with
  | frame hs =>
    obtain ⟨slot, hslot, rfl⟩ := Option.map_eq_some_iff.mp (hslot.symm.trans hs)
    exact .slot hslot
  | global hs hc =>
    refine .global (Option.map_eq_none_iff.mp (hslot.symm.trans hs)) ?_
    simpa [Program.constant?, hf] using hc

namespace Expr.Codes

variable {p : Program} {v : View} {k : ExprKind} {e : Expr k} {c : Phrase}

theorem size_eq (hp : p.Apart) (h : e.Codes p v c) : size c.directives = e.width := by
  induction h with
  | number | text | literal | nil => rfl
  | name => simp [Phrase.directives, width]
  | count => simp [Phrase.directives, width]
  | group _ ih | head _ ih => exact ih
  | @unary u _ _ _ ih =>
    have hu : (Directive.unary u).width = 1 := by cases u <;> rfl
    simp [Phrase.directives, width, ih, hu]
  | assign _ _ ih => simp [Phrase.directives, width, ih]
  | @call x _ index _ _ _ hcallee _ _ ih =>
    have hcall : (Directive.call index).width = 2 := rfl
    simp [Phrase.directives, width, ih, hp x _ hcallee, hcall, Nat.add_assoc]
  | @callNative x _ index native _ _ hnative _ _ ih =>
    have hcall : (Directive.callNative index native).width = 3 := rfl
    simp [Phrase.directives, width, ih, hnative, hcall, Nat.add_assoc]
  | @operator _ _ op _ _ _ _ ihl ihr =>
    have hop : (Directive.plain (.operator op) rfl).width = 1 := rfl
    simp [Phrase.directives, width, Infix.lead, Infix.trail, ihl, ihr, hop]
  | comparison _ _ ihl ihr =>
    simp [Phrase.directives, width, Infix.lead, Infix.trail, ihl, ihr]
  | and _ _ _ ihl ihr | or _ _ _ ihl ihr =>
    simp [Phrase.directives, width, Infix.lead, Infix.trail, ihl, ihr]
    omega
  | cons _ _ ihe ihrest => simp [Phrase.directives, width, ihe, ihrest]

variable {f : Function} {g : Stage} {a : Nat}

/-- A call has its callee, its arguments and the directive that makes it. -/
theorem called {arguments : Expr .arguments} {i : UInt8} {d : Directive} {us : List Use}
    (hop : d.op.straight = true)
    (hcharge : ∀ t, p.Charges f (d.at_ (a+2+arguments.width)) t → t = ⟨arguments.length+1, 1⟩)
    (harguments : Tour.Closed p f (a+2) c.directives (g.raise 1) ((g.raise 1).raise arguments.length) us)
    (hsize : size c.directives = arguments.width) (hslot : (d.operand.layout == .slot) = false)
    (hserves : g.Serves a (a+2+arguments.width+1)) (hroom : g.cells.length ≤ g.height) :
    Tour.Closed p f a (.get .global i :: (c.directives++[d])) g (g.raise 1) us := by
  have hlength : arguments.length ≤ arguments.width := arguments.results_le_width
  have hname : Tour.Closed p f a [.get .global i] g (g.raise 1) [] :=
    Tour.silent (n := 0) rfl rfl (hserves.first (by omega)) hroom (Nat.zero_le _)
  have hthere := hserves.behind (n := 1+arguments.length) (w := 2+arguments.width) (by omega)
    (Nat.le_refl _)
  rw [← Nat.add_assoc] at hthere
  have hlast := Tour.straight (X := fun _ _ => False) hop hcharge hthere hroom
    (Nat.le_of_eq (Nat.add_comm _ 1)) (.nothing (beq_eq_false_iff_ne.mp hslot))
  simp only [show 1+arguments.length-(arguments.length+1)+1 = 1 by omega] at hlast
  rw [Stage.raise_raise] at harguments
  have hwhole := hname.then rfl (harguments.then (by rw [hsize]) hlast)
  rwa [List.append_nil, List.nil_append] at hwhole

theorem compared (t : Comparison) (hroom : g.cells.length ≤ g.height)
    (hserves : ∀ n b, a ≤ b → b < a+size (Phrase.comparison t).directives →
      (g.raise n).Serves b (b+1)) :
    Tour.Closed p f a (Phrase.comparison t).directives (g.raise 2) (g.raise 1) [] := by
  have htest {t' : Test} : Tour.Closed p f a [.plain (.test t') rfl] (g.raise 2) (g.raise 1) [] := by
    have hthere := hserves 2 a (Nat.le_refl a) (by cases t <;> exact Nat.lt_add_of_pos_right (by decide))
    exact Tour.silent rfl rfl hthere hroom (Nat.le_refl 2)
  have hnot (hlt : 1 < size (Phrase.comparison t).directives) :
      Tour.Closed p f (a+1) [.plain .not rfl] (g.raise 1) (g.raise 1) [] :=
    Tour.silent rfl rfl (hserves 1 (a+1) (by omega) (by omega)) hroom (Nat.le_refl 1)
  cases t with
  | equal | less | greater => exact htest
  | notEqual | lessEqual | greaterEqual => exact htest.then rfl (hnot (by decide))

/-- The results come over the cells of the stage in front of an expression. -/
theorem tour (hp : p.Apart) (hf : p.functions[v.function]? = some f) (h : e.Codes p v c)
    (hid : v.function ≠ 0) (hserves : g.Serves a (a+e.width)) (hroom : g.cells.length ≤ g.height)
    (hcells : v.locals = g.cells.map Cell.name?) :
    Tour.Closed p f a c.directives g (g.raise e.results) (e.uses g.cells a) := by
  have hconstant {index : UInt8} {k : Constant} (hc : p.constant? v.function index = some k) :
      f.chunk.constant? index = some k := by
    simpa [Program.constant?, hf] using hc
  induction h generalizing g a with
  | number | text | literal =>
    exact Tour.silent (n := 0) rfl rfl (hserves.first (by simp [width])) hroom (Nat.zero_le _)
  | nil => exact Tour.nil (by simpa [results, length] using Relation.ReflTransGen.refl)
  | @name x scope i hx =>
    have hus := hx.names hid hf hcells none a
    cases scope <;> exact Tour.usual (n := 0) rfl (hserves.first (by simp [width])) hroom
      (Nat.zero_le _) (.name hus rfl)
  | @count x up scope i hx =>
    have hus := hx.names hid hf hcells (some (.count up)) a
    cases scope <;> exact Tour.usual (n := 0) rfl (hserves.first (by simp [width])) hroom
      (Nat.zero_le _) (.name hus rfl)
  | group _ ih | head _ ih => exact ih hserves hroom hcells
  | @unary u e _ he ih =>
    have hone := e.results_le_width
    have hinside := ih (hserves.first (by simp [width])) hroom hcells
    have hlast : Tour.Closed p f (a+e.width) [.unary u] (g.raise 1) (g.raise 1) [] := by
      have hthere := hserves.behind hone (Nat.le_refl _)
      cases u <;> exact Tour.silent rfl rfl hthere hroom (Nat.le_refl 1)
    have hwhole := hinside.then (by rw [he.size_eq hp]) hlast
    rwa [List.append_nil] at hwhole
  | @assign x op e scope i _ hx he ih =>
    have hone := e.results_le_width
    have hvalue := ih (hserves.first (by simp [width])) hroom hcells
    have hus := hx.names hid hf hcells (some (assignment op)) (a+e.width)
    have hlast : Tour.Closed p f (a+e.width) [.assign (assignment op) scope i] (g.raise 1) (g.raise 1)
        [⟨x, some (assignment op), a+e.width, g.cells⟩] := by
      have hthere := hserves.behind (c := a+e.width+1) hone (by simp [width])
      cases op <;> cases scope <;> exact Tour.usual rfl hthere hroom (Nat.le_refl 1)
        (.name hus rfl)
    exact hvalue.then (by rw [he.size_eq hp]) hlast
  | @call x arguments index callee _ hx hcallee hcount hargs ih =>
    have hwidth := width_call x arguments
    have harguments := ih (g := g.raise 1) (a := a+2) (hserves.later 1 (by omega) (by omega))
      (Nat.le_succ_of_le hroom) hcells
    have hwhole := called (d := .call index) (i := index) rfl ?_ harguments (hargs.size_eq hp) rfl
      (hserves.first (by omega)) hroom
    · simpa [Phrase.directives, uses] using hwhole
    intro t ht
    cases ht with
    | call _ hoperand hname hcallee' =>
      cases hoperand
      rw [hconstant hx] at hname
      cases hname
      rw [hcallee] at hcallee'
      cases hcallee'
      rw [hcount]
    | native hop => cases hop
    | other hop => exact absurd rfl hop
  | @callNative x arguments index native _ hx hnative hcount hargs ih =>
    have hwidth := width_call x arguments
    have harguments := ih (g := g.raise 1) (a := a+2) (hserves.later 1 (by omega) (by omega))
      (Nat.le_succ_of_le hroom) hcells
    have hwhole := called (d := .callNative index native) (i := index) rfl ?_ harguments (hargs.size_eq hp) rfl
      (hserves.first (by omega)) hroom
    · simpa [Phrase.directives, uses] using hwhole
    intro t ht
    cases ht with
    | call hop => cases hop
    | native _ hoperand =>
      cases hoperand
      rw [hcount]
      cases native <;> rfl
    | other _ hop => exact absurd rfl hop
  | @operator l r op _ _ hl hr ihl ihr =>
    have hwidth : (join l (.operator op) r).width = l.width+r.width+1 := by
      simp [width, Infix.lead, Infix.trail, Nat.add_assoc]
    have hleft := ihl (hserves.first (by omega)) hroom hcells
    have hright := ihr (hserves.behind (c := a+l.width+r.width) l.results_le_width (by omega))
      (Nat.le_succ_of_le hroom) hcells
    have hthere := hserves.behind (w := l.width+r.width) (c := a+(l.width+r.width)+1)
      (Nat.add_le_add l.results_le_width r.results_le_width) (by omega)
    have hlast : Tour.Closed p f (a+(l.width+r.width)) [.plain (.operator op) rfl] (g.raise (1+1))
        (g.raise 1) [] :=
      Tour.silent rfl rfl hthere hroom (Nat.le_refl 2)
    have hwhole := hleft.then (by rw [hl.size_eq hp])
      (hright.then (by rw [hr.size_eq hp, Nat.add_assoc]) hlast)
    simpa [Phrase.directives, uses, Infix.lead] using hwhole
  | @comparison l r t _ _ hl hr ihl ihr =>
    have hwidth : (join l (.comparison t) r).width =
        l.width+r.width+size (Phrase.comparison t).directives := by
      simp [width, Infix.lead, Infix.trail, Nat.add_assoc]
    have hleft := ihl (hserves.first (by omega)) hroom hcells
    have hright := ihr (hserves.behind (c := a+l.width+r.width) l.results_le_width (by omega))
      (Nat.le_succ_of_le hroom) hcells
    have hpos : 1 ≤ l.width := l.results_le_width
    have hlast := compared (p := p) (f := f) (a := a+(l.width+r.width)) t hroom fun n b hb hlt =>
      hserves.later n (by omega) (by omega)
    have hwhole := hleft.then (by rw [hl.size_eq hp])
      (hright.then (by rw [hr.size_eq hp, Nat.add_assoc]) hlast)
    simpa [Phrase.directives, uses, Infix.lead] using hwhole
  | @and l r _ _ hl hr hfit ihl ihr | @or l r _ _ hl hr hfit ihl ihr =>
    have hpos : 1 ≤ l.width := l.results_le_width
    have hleft := ihl (hserves.first (by simp [width])) hroom hcells
    have hright := ihr (a := a+l.width+4) (hserves.later 0 (by omega)
      (by simp [width, Infix.lead, Infix.trail]; omega)) hroom hcells
    have hlast (truth : Bool) := Tour.either truth hright (hserves.later 1 (by omega)
      (by simp [width, Infix.lead, Infix.trail]; omega)) hroom hfit
    exact hleft.then (by rw [hl.size_eq hp]) (hlast _)
  | @cons e rest _ _ he hrest ihe ihrest =>
    have hfirst := ihe (hserves.first (by simp [width])) hroom hcells
    have hothers := ihrest (hserves.behind (c := a+e.width+rest.width) e.results_le_width
      (by simp [width, Nat.add_assoc])) (Nat.le_succ_of_le hroom) hcells
    rw [Stage.raise_raise, results_operand, results_arguments, Nat.add_comm 1] at hothers
    have hwhole := hfirst.then (by rw [he.size_eq hp]) hothers
    simpa [Phrase.directives, uses, length] using hwhole

end Expr.Codes

namespace Expr

variable {p : Program} {v : View} {value : Option (Expr .operand)} {c : Phrase}

theorem ValueCodes.size_eq (hp : p.Apart) (h : ValueCodes p v value c) :
    size c.directives = valueWidth value := by
  cases h with
  | none => rfl
  | some he => exact he.size_eq hp

theorem valueWidth_pos (value : Option (Expr .operand)) : 0 < valueWidth value := by
  cases value with
  | none => exact Nat.one_pos
  | some e => exact e.results_le_width

variable {f : Function} {g : Stage} {a : Nat}

theorem ValueCodes.tour (hp : p.Apart) (hf : p.functions[v.function]? = Option.some f) (h : ValueCodes p v value c)
    (hid : v.function ≠ 0) (hserves : g.Serves a (a+valueWidth value))
    (hroom : g.cells.length ≤ g.height) (hcells : v.locals = g.cells.map Cell.name?) :
    Tour.Closed p f a c.directives g (g.raise 1) (valueUses g.cells value a) := by
  cases h with
  | none => exact Tour.silent (n := 0) rfl rfl hserves hroom (Nat.zero_le _)
  | some he => exact he.tour hp hf hid hserves hroom hcells

end Expr

/-! Places in a body. -/

/-- The declarations in scope have their code in front of a place. -/
def Sight.Behind (v : Sight) : Prop :=
  ∀ d, .declared d ∈ v.cells → d.start < d.finish ∧ d.finish ≤ v.offset

@[simp] theorem Sight.cells_forward (v : Sight) (n : Nat) : (v.forward n).cells = v.cells := rfl

@[simp] theorem Sight.offset_forward (v : Sight) (n : Nat) : (v.forward n).offset = v.offset+n := rfl

theorem Sight.Behind.serves {v : Sight} (h : v.Behind) (n : Nat) {b : Nat} (hb : v.offset ≤ b)
    (e : Nat) : ((Stage.plain v.cells).raise n).Serves b e :=
  ⟨fun d hd => ⟨(h d hd).1, (h d hd).2.trans hb⟩, nofun⟩

theorem Sight.Behind.forward {v : Sight} (h : v.Behind) (n : Nat) : (v.forward n).Behind :=
  fun d hd => ⟨(h d hd).1, Nat.le_add_right_of_le (h d hd).2⟩

namespace Stmt

/-- What is in scope stays so up to the end of its block, and code goes forward. -/
theorem after_spec {k : StmtKind} (t : Stmt k) {v : Sight} (hv : v.Behind) :
    (t.after v).Behind ∧ v.offset ≤ (t.after v).offset ∧
      ∃ added, (t.after v).cells = added++v.cells := by
  induction t generalizing v with
  | blank | nil => exact ⟨hv, Nat.le_refl _, [], rfl⟩
  | expression | return_ | runnable => exact ⟨hv.forward _, Nat.le_add_right _ _, [], rfl⟩
  | declare x value =>
    have hpos := Expr.valueWidth_pos value
    refine ⟨fun d hd => ?_, Nat.le_add_right _ _, [_], rfl⟩
    rcases List.mem_cons.mp hd with heq | hd
    · cases heq
      exact ⟨Nat.lt_add_of_pos_right hpos, Nat.le_refl _⟩
    · exact hv.forward _ d hd
  | if_ _ _ ih | while_ _ _ ih =>
    obtain ⟨hbehind, hle, hcells⟩ := ih (hv.forward _)
    exact ⟨hbehind.forward 4, (Nat.le_add_right _ _).trans (hle.trans (Nat.le_add_right _ 4)), hcells⟩
  | ifElse _ yes _ ihyes ihno =>
    obtain ⟨hbehind, hle, added, hcells⟩ := ihyes (hv.forward _)
    obtain ⟨hbehind', hle', more, hcells'⟩ := ihno (hbehind.forward 5)
    refine ⟨hbehind', (Nat.le_add_right _ _).trans (hle.trans ((Nat.le_add_right _ 5).trans hle')),
      more++added, ?_⟩
    rw [List.append_assoc]
    exact hcells'.trans (congrArg _ hcells)
  | repeat_ count body ih =>
    have hcounting : ((v.forward (count.width+2)).counting).Behind := by
      intro d hd
      rcases List.mem_cons.mp hd with heq | hd
      · cases heq
      · exact hv.forward _ d hd
    have hle := (Nat.le_add_right _ _).trans ((ih hcounting).2.1.trans (Nat.le_add_right _ 4))
    exact ⟨fun d hd => ⟨(hv d hd).1, (hv d hd).2.trans hle⟩, hle, [], rfl⟩
  | line first rest ihfirst ihrest =>
    obtain ⟨hbehind, hle, added, hcells⟩ := ihfirst hv
    obtain ⟨hbehind', hle', more, hcells'⟩ := ihrest (hbehind.forward 1)
    refine ⟨hbehind', hle.trans ((Nat.le_add_right _ 1).trans hle'), more++added, ?_⟩
    rw [List.append_assoc]
    exact hcells'.trans (congrArg _ hcells)
  | scope lines ih =>
    have hle : v.offset ≤ ((lines.after v).closing v).offset :=
      (ih hv).2.1.trans (Nat.le_add_right _ _)
    exact ⟨fun d hd => ⟨(hv d hd).1, (hv d hd).2.trans hle⟩, hle, [], rfl⟩

end Stmt

theorem Stmt.cells_after_scope (t : Stmt .scope) (v : Sight) : (t.after v).cells = v.cells := by
  cases t
  rfl

theorem Phrase.size_pops (n : Nat) : size (pops n).directives = n := by
  induction n with
  | zero => rfl
  | succ n ih => simp [pops, directives, ih, Nat.add_comm]

/-- Cells that go out of scope are taken off one by one. -/
theorem Tour.pops {p : Program} {f : Function} {a : Nat} {added cells : List Cell}
    (h : ∀ d, .declared d ∈ added++cells → d.start < d.finish ∧ d.finish ≤ a) :
    Tour.Closed p f a (Phrase.pops added.length).directives (.plain (added++cells)) (.plain cells)
      [] := by
  induction added generalizing a with
  | nil => exact Tour.nil .refl
  | cons c added ih =>
    have hrest (d : Declaration) (hd : .declared d ∈ added++cells) := h d (List.mem_cons_of_mem _ hd)
    have hpop : Tour.Closed p f a [.pop] ((Stage.plain (added++cells)).raise 1)
        (.plain (added++cells)) [] :=
      Tour.pop ⟨hrest, nofun⟩ (Nat.le_refl _)
    have hothers := ih (a := a+1) fun d hd => ⟨(hrest d hd).1, Nat.le_succ_of_le (hrest d hd).2⟩
    exact Tour.Closed.then (hpop.start (.single .forgets)) rfl hothers

/-- A part of some directives stands in a part of their place. -/
theorem place_part {is : List Instruction} {a b : Nat} {all : List Directive} (h : place a all ⊆ is)
    (before ds after : List Directive)
    (hall : all = before++(ds++after)) (hb : b = a+size before) :
    place b ds ⊆ is := by
  subst hall hb
  rw [Directive.place_append, Directive.place_append] at h
  exact fun i hi => h (List.mem_append_right _ (List.mem_append_left _ hi))

/-- The test of a block, up to the end of its line. -/
theorem Expr.Codes.tested {p : Program} {u : View} {e : Expr .operand} {c : Phrase} {f : Function}
    {v : Sight} (hp : p.Apart) (he : e.Codes p u c) (hf : p.functions[u.function]? = some f)
    (hid : u.function ≠ 0) (hlocals : u.locals = v.cells.map Cell.name?) (hv : v.Behind) :
    Tour.Closed p f v.offset (c.directives++[Directive.newline]) (.plain v.cells)
      ((Stage.plain v.cells).raise 1) (e.uses v.cells v.offset) := by
  have hvalue := he.tour hp hf hid (hv.serves 0 (Nat.le_refl v.offset) _) (Nat.le_refl _) hlocals
  have hnewline : Tour.Closed p f (v.offset+e.width) [.newline] ((Stage.plain v.cells).raise 1)
      ((Stage.plain v.cells).raise 1) [] :=
    Tour.newline (hv.serves 1 (Nat.le_add_right _ _) _) (Nat.le_succ _)
  have hwhole := hvalue.then (by rw [he.size_eq hp]) hnewline
  rwa [List.append_nil] at hwhole

/-- A place in a body is the site at which the compiler is there. -/
structure Sight.Fits (v : Sight) (s : Site) : Prop where
  offset : s.offset = v.offset
  locals : s.locals = v.cells.map Cell.name?

theorem Site.counting_inside (s : Site) (hs : s.function ≠ 0) :
    s.counting = s.withLocals (none :: s.locals) :=
  if_neg hs

theorem Sight.Fits.move {v : Sight} {s s' : Site} {n : Nat} (h : v.Fits s)
    (hoffset : s'.offset = s.offset+n) (hlocals : s'.locals = s.locals) : (v.forward n).Fits s' :=
  ⟨hoffset.trans (congrArg (·+n) h.offset), hlocals.trans h.locals⟩

namespace Stmt.Codes

variable {p : Program} {k : StmtKind} {s s' : Site} {t : Stmt k} {c : Phrase} {l : List Note}
  {v : Sight}

/-- The compiler knows the cells in scope by their names. -/
theorem fits (hp : p.Apart) (h : t.Codes p s s' c l) (hs : s.function ≠ 0) (hv : v.Fits s) :
    (t.after v).Fits s' := by
  induction h generalizing v with
  | blank | nil => exact hv
  | declare hscript => exact absurd hscript hs
  | runnable hscript => exact absurd hscript hs
  | expression he =>
    exact hv.move (by simp [Site.past, Site.forward, Phrase.directives, he.size_eq hp]) rfl
  | return_ _ hvalue =>
    have hret : (Directive.plain .ret rfl).width = 1 := rfl
    exact hv.move (by simp [Site.past, Site.forward, Phrase.directives, hvalue.size_eq hp, hret]) rfl
  | declareLocal _ hvalue =>
    refine ⟨?_, congrArg _ hv.locals⟩
    simp [Site.past, Site.forward, Site.withLocals, hvalue.size_eq hp, hv.offset, after,
      Sight.declaring]
  | if_ htest _ _ ih =>
    refine (ih hs (hv.move ?_ rfl)).move rfl rfl
    simp [Site.past, Site.forward, Site.ended, htest.size_eq hp, Nat.add_assoc]
  | ifElse htest hyes _ _ _ ihyes ihno =>
    refine ihno (hyes.function_eq ▸ hs) ((ihyes hs (hv.move ?_ rfl)).move rfl rfl)
    simp [Site.past, Site.forward, Site.ended, htest.size_eq hp, Nat.add_assoc]
  | while_ htest _ _ ih =>
    refine (ih hs (hv.move ?_ rfl)).move rfl rfl
    simp [Site.past, Site.forward, Site.ended, htest.size_eq hp, Nat.add_assoc]
  | @repeat_ s _ count body c _ _ hcount _ _ ih =>
    have hmoved : (v.forward (count.width+2)).Fits ((s.past c).forward 1).ended :=
      hv.move (by simp [Site.past, Site.forward, Site.ended, hcount.size_eq hp, Nat.add_assoc]) rfl
    rw [Site.counting_inside ((s.past c).forward 1).ended hs] at ih
    have hbody := ih (v := (v.forward (count.width+2)).counting) hs
      ⟨hmoved.offset, congrArg _ hv.locals⟩
    exact ⟨congrArg (·+4) hbody.offset, hv.locals⟩
  | line hfirst _ ihfirst ihrest =>
    exact ihrest (hfirst.function_eq ▸ hs) ((ihfirst hs hv).move rfl rfl)
  | scope _ ih =>
    have hlines := ih hs hv
    refine ⟨?_, hv.locals⟩
    simp [Site.past, Site.forward, Site.withLocals, Phrase.size_pops, hlines.offset, hlines.locals,
      hv.locals, after, Sight.closing]

variable {f : Function}

theorem offset_after (hp : p.Apart) (h : t.Codes p s s' c l) (hs : s.function ≠ 0) (hv : v.Fits s) :
    (t.after v).offset = v.offset+size c.directives := by
  rw [← (h.fits hp hs hv).offset, h.offset_eq, hv.offset]

/-- Between statements nothing stands over the cells in scope. -/
theorem tour (hp : p.Apart) (hf : p.functions[s.function]? = some f) (h : t.Codes p s s' c l)
    (hs : s.function ≠ 0) (hv : v.Fits s) (hbehind : v.Behind)
    (hplace : place v.offset c.directives ⊆ f.chunk.instructions) :
    Tour.Closed p f v.offset c.directives (.plain v.cells) (.plain (t.after v).cells) (t.uses v) := by
  have hroom {cells : List Cell} : cells.length ≤ (Stage.plain cells).height := Nat.le_refl _
  induction h generalizing v with
  | blank | nil => exact Tour.nil .refl
  | declare hscript => exact absurd hscript hs
  | runnable hscript => exact absurd hscript hs
  | @expression s e c he =>
    have hvalue := he.tour hp hf hs (hbehind.serves 0 (Nat.le_refl v.offset) _) hroom hv.locals
    have hpop : Tour.Closed p f (v.offset+e.width) [.pop] ((Stage.plain v.cells).raise 1)
        (.plain v.cells) [] :=
      Tour.pop (hbehind.serves 1 (Nat.le_add_right _ _) _) hroom
    have hwhole := hvalue.then (by rw [he.size_eq hp]) hpop
    rwa [List.append_nil] at hwhole
  | @return_ s value c _ hvalue =>
    have hmade := hvalue.tour hp hf hs (hbehind.serves 0 (Nat.le_refl v.offset) _) hroom hv.locals
    have hret : Tour.Closed p f (v.offset+Expr.valueWidth value) [.plain .ret rfl]
        ((Stage.plain v.cells).raise 1) (.plain v.cells) [] :=
      Tour.ret (hbehind.serves 1 (Nat.le_add_right _ _) _) hroom
    have hwhole := hmade.then (by rw [hvalue.size_eq hp]) hret
    rwa [List.append_nil] at hwhole
  | @declareLocal s x value c _ hvalue =>
    have hpos := Expr.valueWidth_pos value
    have hserves : Stage.Serves ⟨v.cells, some ⟨x, v.offset, v.offset+Expr.valueWidth value⟩,
        v.cells.length⟩ v.offset (v.offset+Expr.valueWidth value) :=
      ⟨hbehind, fun d hd => by cases hd; exact ⟨Nat.le_refl _, Nat.le_refl _, fun _ => rfl⟩⟩
    have hmade := hvalue.tour hp hf hs hserves (Nat.le_refl _) hv.locals
    refine (hmade.start (.single (.begins rfl))).finish (.single ?_)
    rw [hvalue.size_eq hp]
    exact .ends rfl (Nat.lt_add_of_pos_right hpos)
  | @if_ s s' test yes c d l htest hyes hfit ih =>
    have hmoved : (v.forward (test.width+5)).Fits ((s.past c).ended.forward 4) := hv.move (by
      simp [Site.past, Site.forward, Site.ended, htest.size_eq hp, Nat.add_assoc]) rfl
    have hinside := ih hf hs hmoved (hbehind.forward _) (place_part hplace
      (c.directives++[Directive.newline, .jumpIf false (size d.directives+4), .pop]) _ [.jump 1, .pop]
      (by simp [Phrase.directives, Phrase.newline]) (by simp [htest.size_eq hp]))
    rw [Stmt.cells_after_scope] at hinside
    have hempty (a : Nat) : Tour.Closed p f a Phrase.empty.directives (.plain v.cells)
        (.plain v.cells) [] :=
      Tour.nil .refl
    have hbranch := Tour.branch (a := v.offset+(test.width+1))
      (fun n b hb => hbehind.serves n (by omega) _) hroom hinside (hempty _) hfit (by decide)
    rw [List.append_nil] at hbranch
    have hwhole := (htest.tested hp hf hs hv.locals hbehind).then (by simp [htest.size_eq hp]) hbranch
    simpa [Phrase.directives, Phrase.newline, after, uses, Stmt.cells_after_scope] using hwhole
  | @ifElse s s' s'' test yes no c d e l m htest hyes hno hfit hfit' ihyes ihno =>
    have hmoved : (v.forward (test.width+5)).Fits ((s.past c).ended.forward 4) := hv.move (by
      simp [Site.past, Site.forward, Site.ended, htest.size_eq hp, Nat.add_assoc]) rfl
    have hbehind' := (yes.after_spec (hbehind.forward (test.width+5))).1
    have hoffset := hyes.offset_after hp hs hmoved
    have hfirst := ihyes hf hs hmoved (hbehind.forward _) (place_part hplace
      (c.directives++[Directive.newline, .jumpIf false (size d.directives+4), .pop]) _
      (.jump (size (.newline :: e.directives)+1) :: .pop :: .newline :: e.directives)
      (by simp [Phrase.directives, Phrase.newline]) (by simp [htest.size_eq hp]))
    have hsecond := ihno (hyes.function_eq ▸ hf) (hyes.function_eq ▸ hs)
      ((hyes.fits hp hs hmoved).move (n := 5) rfl rfl) (hbehind'.forward 5) (place_part hplace
      (c.directives++[Directive.newline, .jumpIf false (size d.directives+4), .pop]++d.directives++
        [Directive.jump (size (.newline :: e.directives)+1), .pop, .newline]) _ []
      (by simp [Phrase.directives, Phrase.newline]) (by simp [htest.size_eq hp, hoffset]; omega))
    rw [Stmt.cells_after_scope] at hfirst hsecond
    rw [Sight.cells_forward, Stmt.cells_after_scope, Sight.offset_forward, hoffset] at hsecond
    have hnewline (a : Nat) (ha : v.offset ≤ a) :
        Tour.Closed p f a [.newline] (.plain v.cells) (.plain v.cells) [] :=
      Tour.newline (hbehind.serves 0 ha _) hroom
    have hno : Tour.Closed p f (v.offset+(test.width+1)+size d.directives+8)
        (Phrase.seq .newline e).directives (.plain v.cells) (.plain v.cells)
        (no.uses ((yes.after (v.forward (test.width+5))).forward 5)) :=
      (hnewline _ (by omega)).then (by simp; omega) hsecond
    have hbranch := Tour.branch (a := v.offset+(test.width+1))
      (fun n b hb => hbehind.serves n (by omega) _) hroom hfirst hno hfit
      (by simp [Phrase.directives, Phrase.newline]; omega)
    have hwhole := (htest.tested hp hf hs hv.locals hbehind).then (by simp [htest.size_eq hp]) hbranch
    simpa [Phrase.directives, Phrase.newline, after, uses, Stmt.cells_after_scope] using hwhole
  | @while_ s s' test body c d l htest hbody hfit ih =>
    have hmoved : (v.forward (test.width+5)).Fits ((s.past c).forward 4).ended := hv.move (by
      simp [Site.past, Site.forward, Site.ended, htest.size_eq hp, Nat.add_assoc]) rfl
    have hinside := ih hf hs hmoved (hbehind.forward _) (place_part hplace
      (c.directives++[Directive.jumpIf false (size (.newline :: d.directives)+4), .pop, .newline]) _
      [.back (size c.directives+size (.newline :: d.directives)+7), .pop]
      (by simp [Phrase.directives, Phrase.newline]) (by simp [htest.size_eq hp]))
    rw [Stmt.cells_after_scope] at hinside
    have hnewline (a : Nat) (ha : v.offset ≤ a) :
        Tour.Closed p f a [.newline] (.plain v.cells) (.plain v.cells) [] :=
      Tour.newline (hbehind.serves 0 ha _) hroom
    have hpass : Tour.Closed p f (v.offset+size c.directives+4) (Phrase.seq .newline d).directives
        (.plain v.cells) (.plain v.cells) (body.uses (v.forward (test.width+5))) :=
      (hnewline _ (by omega)).then (by simp [htest.size_eq hp]; omega) hinside
    have htested := htest.tour hp hf hs (hbehind.serves 0 (Nat.le_refl v.offset) _) hroom hv.locals
    have hwhole := Tour.loop (fun n b hb => hbehind.serves n (by omega) _) hroom htested hpass
      (by simp [Phrase.directives, Phrase.newline]; omega)
    simpa [Phrase.directives, Phrase.newline, after, uses, Stmt.cells_after_scope] using hwhole
  | @repeat_ s s' count body c d l hcount hbody hfit ih =>
    have hmoved : (v.forward (count.width+2)).Fits ((s.past c).forward 1).ended :=
      hv.move (by simp [Site.past, Site.forward, Site.ended, hcount.size_eq hp, Nat.add_assoc]) rfl
    rw [Site.counting_inside ((s.past c).forward 1).ended hs] at ih
    have hbehind' : ((v.forward (count.width+2)).counting).Behind := by
      intro d hd
      rcases List.mem_cons.mp hd with heq | hd
      · cases heq
      · exact hbehind.forward _ d hd
    have hrepeat : (Directive.plain .repeat_ rfl).width = 1 := rfl
    have hinside := ih (v := (v.forward (count.width+2)).counting) hf hs
      ⟨hmoved.offset, congrArg _ hv.locals⟩ hbehind' (place_part hplace
        (c.directives++[Directive.plain .repeat_ rfl, .newline]) _ [.endRepeat, .back (size d.directives+4)]
        (by simp [Phrase.directives, Phrase.newline])
        (by simp [Sight.counting, hcount.size_eq hp, hrepeat]))
    rw [Stmt.cells_after_scope] at hinside
    have hback := place_part hplace
      (c.directives++[Directive.plain .repeat_ rfl, .newline]++d.directives++[Directive.endRepeat])
      [.back (size d.directives+4)] [] (by simp [Phrase.directives, Phrase.newline]) rfl
    have hcounted := Tour.counted (a := v.offset+(count.width+2)) hinside
      (fun n b hb => hbehind.serves n (by omega) _) (by
        have h := hback (List.mem_singleton_self _)
        simp only [Directive.size_append, hcount.size_eq hp] at h
        convert h using 2
        simp [hrepeat]
        omega) hfit
    have hmade := hcount.tour hp hf hs (hbehind.serves 0 (Nat.le_refl v.offset) _) hroom hv.locals
    have hchecked : Tour.Closed p f (v.offset+count.width) [.plain .repeat_ rfl]
        ((Stage.plain v.cells).raise 1) ((Stage.plain v.cells).raise 1) [] :=
      Tour.silent rfl rfl (hbehind.serves 1 (by omega) _) hroom (Nat.le_refl 1)
    have hnewline : Tour.Closed p f (v.offset+(count.width+1)) [.newline]
        ((Stage.plain v.cells).raise 1) ((Stage.plain v.cells).raise 1) [] :=
      Tour.newline (hbehind.serves 1 (by omega) _) (Nat.le_succ _)
    have hwhole := ((hmade.then (by rw [hcount.size_eq hp]) hchecked).then
      (by simp [hcount.size_eq hp, hrepeat]) hnewline).then
      (by simp [hcount.size_eq hp, hrepeat]) hcounted
    simpa [Phrase.directives, Phrase.newline, after, uses] using hwhole
  | @line s s' s'' first rest c d l m hfirst hrest ihfirst ihrest =>
    have hbehind' := (first.after_spec hbehind).1
    have hoffset := hfirst.offset_after hp hs hv
    have htop := ihfirst hf hs hv hbehind (place_part hplace [] _ (.newline :: d.directives)
      (by simp [Phrase.directives, Phrase.newline]) rfl)
    have hnewline : Tour.Closed p f (first.after v).offset [.newline] (.plain (first.after v).cells)
        (.plain (first.after v).cells) [] :=
      Tour.newline (hbehind'.serves 0 (Nat.le_refl _) _) hroom
    have hothers := ihrest (hfirst.function_eq ▸ hf) (hfirst.function_eq ▸ hs)
      ((hfirst.fits hp hs hv).move (n := 1) rfl rfl) (hbehind'.forward 1) (place_part hplace
      (c.directives++[Directive.newline]) _ [] (by simp [Phrase.directives, Phrase.newline])
      (by simp [hoffset, Nat.add_assoc]))
    have hwhole := (htop.then hoffset hnewline).then (by simp [hoffset, Nat.add_assoc]) hothers
    simpa [Phrase.directives, Phrase.newline, after, uses] using hwhole
  | @scope s s' lines c l hlines ih =>
    obtain ⟨hbehind', _, added, hcells⟩ := lines.after_spec hbehind
    have hinside := ih hf hs hv hbehind (place_part hplace [] _
      (Phrase.pops (s'.locals.length-s.locals.length)).directives (by simp [Phrase.directives]) rfl)
    have hfits := hlines.fits hp hs hv
    have hcount : s'.locals.length-s.locals.length = added.length := by
      rw [hfits.locals, hv.locals, hcells]
      simp
    have hpops : Tour.Closed p f (lines.after v).offset (Phrase.pops added.length).directives
        (.plain (added++v.cells)) (.plain v.cells) [] :=
      Tour.pops fun d hd => hbehind' d (hcells ▸ hd)
    rw [hcells] at hinside
    have hwhole := hinside.then (hlines.offset_after hp hs hv) hpops
    rw [List.append_nil] at hwhole
    rw [hcount]
    exact hwhole

end Stmt.Codes

/-! Every name in a body is used, called or declared. -/

def Token.name? : Token → Option String
  | name x => some x
  | _ => none

namespace Token

@[simp] theorem name?_name (x : String) : (name x).name? = some x := rfl

@[simp] theorem name?_number (digits : String) : (number digits).name? = none := rfl

@[simp] theorem name?_text (content : String) : (text content).name? = none := rfl

@[simp] theorem name?_keyword (k : Keyword) : (keyword k).name? = none := rfl

@[simp] theorem name?_symbol (s : Symbol) : (symbol s).name? = none := rfl

@[simp] theorem name?_newline : newline.name? = none := rfl

end Token

/-- Names that are declared. -/
def Stmt.declares : {k : StmtKind} → Stmt k → List String
  | _, declare x _ => [x]
  | _, if_ _ yes => yes.declares
  | _, ifElse _ yes no => yes.declares++no.declares
  | _, while_ _ body | _, repeat_ _ body => body.declares
  | _, line first rest => first.declares++rest.declares
  | _, scope lines => lines.declares
  | _, _ => []

/-- How often a name is among tokens. -/
def namings (x : String) : List Token → Nat
  | [] => 0
  | t :: ts => (if t.name? = some x then 1 else 0)+namings x ts

theorem namings_append (x : String) (ts us : List Token) :
    namings x (ts++us) = namings x ts+namings x us := by
  induction ts with
  | nil => simp [namings]
  | cons t ts ih => simp [namings, ih, Nat.add_assoc]

theorem Expr.count_uses {k : ExprKind} (e : Expr k) (cells : List Cell) (offset : Nat) (x : String) :
    namings x e.tokens = ((e.uses cells offset).map Use.name).count x+e.calls.count x := by
  induction e generalizing offset with
  | number | text | nil => simp [namings, tokens, uses, calls]
  | literal value =>
    rcases value with _ | _ | _ <;> simp [namings, tokens, literalToken, uses, calls]
  | name y => simp [namings, tokens, uses, calls, List.count_singleton]
  | count y up => simp [namings, tokens, uses, calls, List.count_singleton, Assignment.token]
  | group _ ih => simp [namings, namings_append, tokens, uses, calls, ih offset]
  | unary u _ ih =>
    cases u <;> simp [namings, tokens, uses, calls, Unary.token, ih offset]
  | assign y op _ ih =>
    have hop : (assignment op).token.name? = none := by cases op <;> rfl
    simp [namings, tokens, uses, calls, hop, List.count_singleton, ih offset]
    omega
  | call y _ ih =>
    simp [namings, namings_append, tokens, uses, calls, List.count_cons, ih (offset+2)]
    omega
  | head _ ih => exact ih offset
  | join l i r ihl ihr =>
    have hi : i.token.name? = none := by cases i <;> rfl
    simp [namings, namings_append, tokens, uses, calls, hi, ihl offset, ihr (offset+l.width+i.lead)]
    omega
  | cons first rest ihfirst ihrest =>
    have hseparator : namings x rest.separator = 0 := by cases rest <;> rfl
    simp [namings_append, tokens, uses, calls, hseparator, ihfirst offset, ihrest (offset+first.width)]
    omega

theorem Expr.count_valueUses (value : Option (Expr .operand)) (cells : List Cell) (offset : Nat)
    (x : String) : namings x ((value.map Expr.tokens).getD []) =
      ((valueUses cells value offset).map Use.name).count x+
        (value.toList.flatMap Expr.calls).count x := by
  cases value with
  | none => rfl
  | some e => simpa [valueUses] using e.count_uses cells offset x

/-- In a body every name is used, called or declared, and as often as it is written. -/
theorem Stmt.Codes.count_uses {p : Program} {k : StmtKind} {s s' : Site} {t : Stmt k} {c : Phrase}
    {l : List Note} (h : t.Codes p s s' c l) (hs : s.function ≠ 0) (v : Sight) (x : String) :
    namings x t.tokens = ((t.uses v).map Use.name).count x+
      (t.expressions.flatMap Expr.calls).count x+t.declares.count x := by
  induction h generalizing v with
  | blank | nil => rfl
  | declare hscript => exact absurd hscript hs
  | runnable hscript => exact absurd hscript hs
  | @expression _ e => simpa [tokens, uses, expressions, declares] using e.count_uses v.cells v.offset x
  | @declareLocal _ y value =>
    have h := Expr.count_valueUses value v.cells v.offset x
    cases value <;> simp [tokens, uses, expressions, declares, namings,
      List.count_singleton] at h ⊢ <;> omega
  | @return_ _ value =>
    have h := Expr.count_valueUses value v.cells v.offset x
    cases value <;> simp [tokens, uses, expressions, declares, namings] at h ⊢ <;> omega
  | @if_ _ _ test yes _ _ _ _ _ _ ih =>
    have htest := test.count_uses v.cells v.offset x
    have hyes := ih hs (v.forward (test.width+5))
    simp [tokens, opening, uses, expressions, declares, namings, namings_append]
    omega
  | @ifElse _ _ _ test yes no _ _ _ _ _ _ hyes _ _ _ ihyes ihno =>
    have htest := test.count_uses v.cells v.offset x
    have hyes' := ihyes hs (v.forward (test.width+5))
    have hno := ihno (hyes.function_eq ▸ hs) ((yes.after (v.forward (test.width+5))).forward 5)
    simp [tokens, opening, uses, expressions, declares, namings, namings_append]
    omega
  | @while_ _ _ test body _ _ _ _ _ _ ih =>
    have htest := test.count_uses v.cells v.offset x
    have hbody := ih hs (v.forward (test.width+5))
    simp [tokens, opening, uses, expressions, declares, namings, namings_append]
    omega
  | @repeat_ s _ count body c _ _ _ _ _ ih =>
    rw [Site.counting_inside ((s.past c).forward 1).ended hs] at ih
    have hcount := count.count_uses v.cells v.offset x
    have hbody := ih hs (v.forward (count.width+2)).counting
    simp [tokens, opening, uses, expressions, declares, namings, namings_append]
    omega
  | @line _ _ _ first rest _ _ _ _ hfirst _ ihfirst ihrest =>
    have hfirst' := ihfirst hs v
    have hrest := ihrest (hfirst.function_eq ▸ hs) ((first.after v).forward 1)
    simp [tokens, uses, expressions, declares, namings, namings_append]
    omega
  | scope _ ih => exact ih hs v

/-! The code of a whole runnable. -/

/-- The code of a function has stages, from the one at its start on, and names in it are looked up by
their scope. -/
structure Function.Staged (p : Program) (f : Function) (cells : List Cell) (us : List Use)
    (marks : List (Instruction × Stage)) : Prop where
  code : marks.map Prod.fst = f.chunk.instructions
  passes : ∀ x ∈ marks, p.Passes f x fun o q => Finds marks o q ∨ o = f.chunk.code.size
  entry : Finds marks 0 (.plain cells)
  uses : ∀ u ∈ us, ∃ x ∈ marks, u.Names f x.1 ∧ x.2.cells = u.cells
  slots : ∀ x ∈ marks, x.1.operand.layout = .slot → ∃ u ∈ us, u.Names f x.1

theorem Tour.Closed.staged {p : Program} {f : Function} {ds : List Directive} {cells : List Cell}
    {g : Stage} {us : List Use} (h : Closed p f 0 ds (.plain cells) g us) (hds : ds ≠ [])
    (hcode : f.chunk.code.toList = Directive.encode ds) : ∃ marks, f.Staged p cells us marks := by
  obtain ⟨marks, hplace, hpasses, hentry, huses, hslots⟩ := h
  have hinstructions : f.chunk.instructions = place 0 ds := by
    rw [Chunk.instructions, Directive.decode_encode hcode]
  have hsize : f.chunk.code.size = size ds := by
    rw [← Array.length_toList, hcode, Directive.length_encode]
  refine ⟨marks, hplace.trans hinstructions.symm, fun x hx => (hpasses x hx).mono ?_,
    hentry.resolve_right fun h => hds h.1, huses, hslots⟩
  rintro o q (hq | ⟨rfl, _⟩ | hq)
  · exact .inl hq
  · exact .inr (by rw [hsize, Nat.zero_add])
  · exact hq.elim

namespace Routine

/-- Cells that a call has from the start. -/
def cells (r : Routine) : List Cell := (r.params.map Cell.parameter).reverse

/-- Names of variables in the body. -/
def uses (r : Routine) : List Use := r.body.uses ⟨1, r.cells⟩

theorem Written.staged {r : Routine} {p : Program} {id : Nat} {g : Function} (h : r.Written p id g)
    (hp : p.Apart) : ∃ marks, g.Staged p r.cells r.uses marks := by
  obtain ⟨s, s', c, l, hview, hoffset, _, hbody, hcode, _⟩ := h.body
  have hfunction : s.function = id := congrArg View.function hview
  have hs : s.function ≠ 0 := hfunction ▸ Nat.ne_of_gt h.later
  have hf : p.functions[s.function]? = some g := hfunction ▸ h.function
  have hinstructions : g.chunk.instructions =
      place 0 (.newline :: c.directives++Program.epilogue) := by
    rw [Chunk.instructions, Directive.decode_encode hcode]
  have hbehind : Sight.Behind ⟨1, r.cells⟩ := by
    intro d hd
    simp [cells] at hd
  have hfits : Sight.Fits ⟨1, r.cells⟩ s :=
    ⟨hoffset, by rw [show s.locals = _ from congrArg View.locals hview]; simp [cells, Cell.name?]⟩
  have hinside := hbody.tour hp hf hs hfits hbehind (place_part (a := 0)
    (fun i hi => hinstructions ▸ hi) [.newline] _ Program.epilogue rfl rfl)
  have hafter := (r.body.after_spec hbehind).1
  have hend := hbody.offset_after hp hs hfits
  have hnewline : Tour.Closed p g 0 [.newline] (.plain r.cells) (.plain r.cells) [] :=
    Tour.newline (Stage.plain_serves (fun d hd => by simp [cells] at hd) _) (Nat.le_refl _)
  have hnone : Tour.Closed p g (1+size c.directives) [.plain (.literal none) rfl]
      (.plain (r.body.after ⟨1, r.cells⟩).cells) ((Stage.plain (r.body.after ⟨1, r.cells⟩).cells).raise 1)
      [] :=
    Tour.silent (n := 0) rfl rfl (hafter.serves 0 (Nat.le_of_eq hend) _) (Nat.le_refl _)
      (Nat.zero_le _)
  have hret : Tour.Closed p g (1+size c.directives+1) [.plain .ret rfl]
      ((Stage.plain (r.body.after ⟨1, r.cells⟩).cells).raise 1) (.plain r.cells) [] :=
    Tour.ret (hafter.serves 1 (Nat.le_succ_of_le (Nat.le_of_eq hend)) _) (Nat.le_refl _)
  have hwhole := (hnewline.then rfl hinside).then (by simp) (hnone.then rfl hret)
  rw [List.append_nil, List.nil_append, List.append_nil] at hwhole
  exact hwhole.staged (List.cons_ne_nil _ _) hcode

end Routine
end RatScript
