import RatScript.Proofs.Meaning.Blocks
import RatScript.Proofs.Syntax.Script

/-!
The code of a statement does what the statement means, for blocks nested in any way. What is no block
is left open: a body of a runnable has only expressions there, a script also declarations and calls.
-/

namespace RatScript

open Stateful Machine
open Directive (size encode place)

variable {p : Program} {P : Array (Array Value)} {z : Setting} {m₀ : Machine} {q : Spot}
  {least limit line offset : Nat} {upper : List Content} {f : Function}

/-! Expression statements. -/

/-- The last directive goes on to the one behind it. -/
def Directive.Ends (ds : List Directive) : Prop :=
  ∃ before d, ds = before++[d] ∧ d.op.straight = true

theorem Directive.Ends.append {es : List Directive} (h : Ends es) (ds : List Directive) :
    Ends (ds++es) := by
  obtain ⟨before, d, rfl, hd⟩ := h
  exact ⟨ds++before, d, (List.append_assoc ..).symm, hd⟩

theorem Directive.ends_singleton {d : Directive} (hd : d.op.straight = true) : Ends [d] :=
  ⟨[], d, rfl, hd⟩

/-- The code of a value ends with the instruction that makes it. -/
theorem Expr.Codes.ends {v : View} {k : ExprKind} {e : Expr k} {c : Phrase} (he : e.Codes p v c)
    (hk : k ≠ .arguments) : Directive.Ends c.directives := by
  induction he with
  | number | text | literal => exact Directive.ends_singleton rfl
  | @name _ scope => exact Directive.ends_singleton (by cases scope <;> rfl)
  | @count _ _ scope => exact Directive.ends_singleton (by cases scope <;> rfl)
  | group _ ih => exact ih (by simp)
  | head _ ih => exact ih (by simp)
  | @unary u => exact (Directive.ends_singleton (by cases u <;> rfl)).append _
  | @assign _ op _ scope =>
    exact (Directive.ends_singleton (by cases op <;> cases scope <;> rfl)).append _
  | call | callNative => exact (Directive.ends_singleton rfl).append _
  | operator => exact ((Directive.ends_singleton rfl).append _).append _
  | @comparison _ _ t =>
    have hlast : Directive.Ends (Phrase.comparison t).directives := by
      cases t with
      | equal | less | greater => exact Directive.ends_singleton rfl
      | notEqual | lessEqual | greaterEqual => exact (Directive.ends_singleton rfl).append [_]
    exact (hlast.append _).append _
  | and _ _ _ _ ihr | or _ _ _ _ ihr => exact ((ihr (by simp)).append [_, _]).append _
  | nil | cons => exact absurd rfl hk

/-- The value of an expression statement is dropped, and the statement is over. -/
theorem drop_passes {d : Directive} {c : Content}
    (h : p.Lies q.function f line offset [d, .pop]) (hd : d.op.straight = true) :
    Yields (At p P z m₀ q least (offset+d.width) (upper++[c])) (Walk.visit line c)
      (fun _ => At p P z m₀ q least (offset+d.width+1) upper) (Breaks p m₀ limit) := by
  have hlast := h.cons.2
  have hdrops : f.chunk.drops (offset+d.width) = true := by
    rw [h.drops_eq, hd]
    rfl
  refine Yields.mono (yields_of_turns (Q := fun _ => q.Shown p P z (offset+d.width+1) upper) ?_)
    (fun _ h => h) (fun _ _ h => h.fewer) fun _ _ h => h
  intro σ m hm
  constructor
  · refine Exec.turns_of_follows hm.2.frames hlast.function hlast.holds
      (fun _ => q.lasts_shown _ upper) ?_
    obtain ⟨m', hpop, hm'⟩ := (hm.goto (offset+d.width+1)).pop
    refine ⟨_, m', hpop, hm'.1, ?_⟩
    exact Exec.restore hm'.2 ⟨hm'.2.globals, hm'.2.input, hm'.2.output, hm'.2.files⟩
  · rw [hm.statement?_some hlast.function hdrops, hlast.line_eq]
    rfl

/-- An expression is evaluated and its value dropped. -/
theorem expression_passes {v : View} {e : Expr .operand} {c : Phrase} (he : e.Codes p v c)
    (hq : q.Sees v) (hcalls : ∀ x ∈ e.calls, p.runnable? x = none)
    (hlies : p.Lies q.function f line offset (c.directives++[Directive.pop]))
    (hroom : q.Room z upper e.cells) :
    Yields (At p P z m₀ q least offset upper) (Stmt.perform line (.expression e))
      (fun _ => At p P z m₀ q least (offset+size c.directives+1) upper) (Breaks p m₀ limit) := by
  obtain ⟨ds, d, hds, hd⟩ := he.ends (by simp)
  refine Yields.bind (he.passes hq hcalls hlies.append.1 hroom) fun (a : Content) => ?_
  rw [hds, List.append_assoc] at hlies
  have hsize : offset+size c.directives = offset+size ds+d.width := by
    simp [hds, Nat.add_assoc]
  rw [hsize]
  exact drop_passes (Program.Lies.append (D := ds) (E := [d, .pop]) hlies).2 hd

/-! Places of statements. -/

/-- The code of a statement stands where its site says, with lines as noted. -/
structure Placed (p : Program) (q : Spot) (f : Function) (s : Site) (ds : List Directive)
    (l : List Note) : Prop where
  function : p.function? q.function = some f
  code : ∃ before after, f.chunk.code.toList = encode (before++ds++after) ∧ size before = s.offset
  lines : ∀ n ∈ l, p.sourceLine n.function n.offset = 1+n.read
  sees : q.Sees s.toView

namespace Placed

variable {s s' : Site} {ds es : List Directive} {l l' : List Note}

theorem regroup (h : Placed p q f s ds l) (es : List Directive) (hds : ds = es) (hl : l = l') : Placed p q f s es l' := by
  subst hds hl
  exact h

/-- Code in two parts, with the notes of each. -/
theorem append (h : Placed p q f s (ds++es) (l++l')) (s' : Site) (hoffset : s'.offset = s.offset+size ds)
    (hsees : q.Sees s'.toView) : Placed p q f s ds l ∧ Placed p q f s' es l' := by
  obtain ⟨before, after, hcode, hsize⟩ := h.code
  refine ⟨⟨h.function, ⟨before, es++after, by simpa using hcode, hsize⟩, ?_, h.sees⟩,
    ⟨h.function, ⟨before++ds, after, by simpa using hcode, by simp [hoffset, hsize]⟩, ?_, hsees⟩⟩
  · exact fun n hn => h.lines n (List.mem_append_left _ hn)
  · exact fun n hn => h.lines n (List.mem_append_right _ hn)

/-- Directives on one line. -/
theorem lies (h : Placed p q f s ds (s.notes ds)) : p.Lies q.function f (1+s.read) s.offset ds where
  function := h.function
  code := h.code
  lines i hi := by
    rw [← h.sees.function]
    exact h.lines ⟨s.function, i.offset, s.read⟩ (List.mem_map.mpr ⟨i, hi, rfl⟩)

end Placed

namespace Site

@[simp] theorem offset_counting (s : Site) : s.counting.offset = s.offset := by
  unfold counting
  split <;> rfl

@[simp] theorem read_counting (s : Site) : s.counting.read = s.read := by
  unfold counting
  split <;> rfl

end Site

namespace Stmt

namespace Codes

variable {k : StmtKind} {s s' : Site} {t : Stmt k} {c : Phrase} {l : List Note}

theorem offset_eq (h : t.Codes p s s' c l) : s'.offset = s.offset+size c.directives := by
  have hrepeat : (Directive.plain .repeat_ rfl).width = 1 := rfl
  induction h with
  | blank | nil | expression | declare | declareLocal | return_ | runnable => rfl
  | if_ _ _ _ ih | while_ _ _ _ ih =>
    simp [Site.forward, Site.past, Site.ended, Phrase.directives, Phrase.newline] at ih ⊢
    omega
  | ifElse _ _ _ _ _ ihyes ihno =>
    simp [Site.forward, Site.past, Site.ended, Phrase.directives, Phrase.newline] at ihyes ihno ⊢
    omega
  | repeat_ _ _ _ ih =>
    simp [Site.forward, Site.past, Site.ended, Site.withLocals, Phrase.directives, Phrase.newline,
      hrepeat] at ih ⊢
    omega
  | line _ _ ihfirst ihrest =>
    simp [Site.ended, Phrase.directives, Phrase.newline] at ihfirst ihrest ⊢
    omega
  | scope _ ih =>
    simp [Site.past, Site.forward, Site.withLocals, Phrase.directives] at ih ⊢
    omega

theorem read_eq (h : t.Codes p s s' c l) : s'.read = s.read+t.breaks := by
  unfold breaks
  induction h with
  | blank | nil => simp [tokens]
  | expression => simp [tokens, Site.past, Site.forward, Expr.count_newline]
  | @declare _ _ value | @declareLocal _ _ value | @return_ _ value =>
    cases value <;> simp [tokens, Site.past, Site.forward, Site.withLocals, Expr.count_newline]
  | if_ _ _ _ ih | while_ _ _ _ ih =>
    simp [tokens, opening, Site.forward, Site.past, Site.ended, Expr.count_newline] at ih ⊢
    omega
  | ifElse _ _ _ _ _ ihyes ihno =>
    simp [tokens, opening, Site.forward, Site.past, Site.ended, Expr.count_newline] at ihyes ihno ⊢
    omega
  | repeat_ _ _ _ ih =>
    simp [tokens, opening, Site.forward, Site.past, Site.ended, Site.withLocals,
      Expr.count_newline] at ih ⊢
    omega
  | runnable _ _ _ _ _ _ _ _ _ _ ih =>
    simp [tokens, opening, Site.inside, Site.ended, count_newline_paramTokens] at ih ⊢
    omega
  | line _ _ ihfirst ihrest =>
    simp [tokens, Site.ended] at ihfirst ihrest ⊢
    omega
  | scope _ ih => exact ih

/-- A statement that declares no local leaves the locals as they are. -/
theorem locals_eq {A : Expr .operand → Prop} {B : Stmt .statement → Prop} (h : t.Codes p s s' c l)
    (heach : t.Each A B) (hB : s.function ≠ 0 → ∀ x value, ¬ B (.declare x value)) :
    s'.locals = s.locals := by
  induction h with
  | blank | nil | expression | declare | return_ | runnable | repeat_ | scope => rfl
  | declareLocal hs => exact absurd heach (hB hs _ _)
  | if_ _ _ _ ih => exact ih heach.2 hB
  | ifElse _ hyes _ _ _ ihyes ihno =>
    have hno := ihno heach.2.2 (fun hs => hB (hyes.function_eq ▸ hs))
    exact hno.trans (ihyes heach.2.1 hB)
  | while_ _ _ _ ih => exact ih heach.2 hB
  | line hfirst _ ihfirst ihrest =>
    have hrest := ihrest heach.2 (fun hs => hB (hfirst.function_eq ▸ hs))
    exact hrest.trans (ihfirst heach.1 hB)

end Codes

end Stmt

theorem Spot.Sees.site {s s' : Site} (h : q.Sees s.toView) (hfunction : s'.function = s.function)
    (hlocals : s'.locals = s.locals) : q.Sees s'.toView := by
  have heq : s'.toView = s.toView := by
    cases hs : s.toView
    cases hs' : s'.toView
    simp_all
  rwa [heq]

theorem Spot.Sees.counting {s : Site} (h : q.Sees s.toView) : q.Sees s.counting.toView := by
  unfold Site.counting
  split
  · exact h
  · next hzero =>
    refine ⟨h.function, h.script, h.base, fun hq => ?_, h.few⟩
    obtain ⟨n, hn⟩ := h.locals hq
    exact ⟨n+1, by simp [Site.withLocals, hn, List.replicate_succ]⟩

/-- Statements that are no blocks pass, as `act` says what they do. -/
def LeavesPass (p : Program) (P : Array (Array Value)) (z : Setting) (m₀ : Machine) (q : Spot)
    (f : Function) (limit : Nat) (act : Nat → Stmt .statement → Walk Unit)
    (leaf : Stmt .statement → Nat) (B : Stmt .statement → Prop) : Prop :=
  ∀ (t : Stmt .statement) (s s' : Site) (c : Phrase) (l : List Note) (upper : List Content)
    (least : Nat), B t → t.Codes p s s' c l → Placed p q f s c.directives l →
    q.Room z upper (leaf t) →
    Yields (At p P z m₀ q least s.offset upper) (act (1+s.read) t)
      (fun _ => At p P z m₀ q least s'.offset upper) (Breaks p m₀ limit)

/-- The code of a statement passes as the statement is run. -/
theorem Stmt.Codes.passes {k : StmtKind} {t : Stmt k} {s s' : Site} {c : Phrase} {l : List Note}
    {act : Nat → Stmt .statement → Walk Unit} {leaf : Stmt .statement → Nat}
    {A : Expr .operand → Prop} {B : Stmt .statement → Prop} (h : t.Codes p s s' c l)
    (hleaf : LeavesPass p P z m₀ q f limit act leaf B)
    (hA : ∀ e, A e → ∀ x ∈ e.calls, p.runnable? x = none)
    (hB : q.function ≠ 0 → ∀ x value, ¬ B (.declare x value)) (heach : t.Each A B)
    (hplaced : Placed p q f s c.directives l) (hroom : q.Room z upper (t.cells leaf)) :
    Yields (At p P z m₀ q least s.offset upper) (t.run act limit (1+s.read))
      (fun _ => At p P z m₀ q least s'.offset upper) (Breaks p m₀ limit) := by
  induction h generalizing upper least with
  | blank | nil => exact Yields.pure fun _ h => h
  | expression he => exact hleaf _ _ _ _ _ _ _ heach (.expression he) hplaced hroom
  | declare hs hv hx => exact hleaf _ _ _ _ _ _ _ heach (.declare hs hv hx) hplaced hroom
  | declareLocal hs hv => exact hleaf _ _ _ _ _ _ _ heach (.declareLocal hs hv) hplaced hroom
  | return_ hs hv => exact hleaf _ _ _ _ _ _ _ heach (.return_ hs hv) hplaced hroom
  | runnable hs hlater hf hname harity henclosing hbody hcode hlines hindex =>
    exact hleaf _ _ _ _ _ _ _ heach
      (.runnable hs hlater hf hname harity henclosing hbody hcode hlines hindex) hplaced hroom
  | @if_ s s' test yes c d l htest hyes hfit ih =>
    have hsees := hplaced.sees
    have hoffset : s'.offset = s.offset+size c.directives+1+4+size d.directives := hyes.offset_eq
    have hlocals := hyes.locals_eq heach.2 (hsees.function ▸ hB)
    replace hplaced := hplaced.regroup ((c.directives++[Directive.newline])++
      ([Directive.jumpIf false (size d.directives+4), .pop]++(d.directives++[Directive.jump 1, .pop])))
      (by simp [Phrase.directives, Phrase.newline]) (by simp only [List.append_assoc]; rfl)
    obtain ⟨hheader, hplaced⟩ := hplaced.append ((s.past c).ended)
      (by simp [Site.past, Site.ended, Site.forward, Nat.add_assoc]) (hsees.site rfl rfl)
    obtain ⟨hjump, hplaced⟩ := hplaced.append ((s.past c).ended.forward 4) rfl
      (hsees.site rfl rfl)
    obtain ⟨hinside, hskip⟩ := hplaced.append _ hyes.offset_eq (hsees.site hyes.function_eq hlocals)
    obtain ⟨hvalue, hnewline⟩ := hheader.lies.append
    have hskip := hskip.lies
    have hyes := @ih least upper heach.2 hinside (hroom.mono (le_max_right _ _))
    rw [hoffset] at hskip hyes
    refine Yields.bind (htest.passes hsees (hA test heach.1) hvalue
      (hroom.mono (le_max_left _ _))) fun (a : Content) => ?_
    refine (branch_passes (a := a) (e := 0) hjump.lies hskip hfit (by norm_num) hyes
      (Yields.pure fun _ h => h)).mono (fun σ hσ => At.newline hnewline hσ) ?_ fun _ _ h => h
    intro _ σ hσ
    have hend : (s'.forward 4).offset = s.offset+size c.directives+1+8+size d.directives+0 := by
      simp only [Site.forward, hoffset]
      omega
    rw [hend]
    exact hσ
  | @ifElse s s' s'' test yes no c d e l m htest hyes hno hfit hfit' ihyes ihno =>
    have hsees := hplaced.sees
    have hoffset : s'.offset = s.offset+size c.directives+1+4+size d.directives := hyes.offset_eq
    have hoffset' : s''.offset = s'.offset+4+1+size e.directives := hno.offset_eq
    have hread : s'.read = s.read+1+yes.breaks := hyes.read_eq
    have hlocals := hyes.locals_eq heach.2.1 (hsees.function ▸ hB)
    have hsees' : q.Sees s'.toView := hsees.site hyes.function_eq hlocals
    replace hplaced := hplaced.regroup ((c.directives++[Directive.newline])++
      ([Directive.jumpIf false (size d.directives+4), .pop]++(d.directives++
        ([Directive.jump (size e.directives+2), .pop, .newline]++e.directives))))
      (by simp [Phrase.directives, Phrase.newline, Nat.add_comm 1, Nat.add_assoc])
      (by simp only [List.append_assoc]; rfl)
    obtain ⟨hheader, hplaced⟩ := hplaced.append ((s.past c).ended)
      (by simp [Site.past, Site.ended, Site.forward, Nat.add_assoc]) (hsees.site rfl rfl)
    obtain ⟨hjump, hplaced⟩ := hplaced.append ((s.past c).ended.forward 4) rfl
      (hsees.site rfl rfl)
    obtain ⟨hinside, hplaced⟩ := hplaced.append _ hyes.offset_eq hsees'
    obtain ⟨hskip, hinside'⟩ := hplaced.append ((s'.forward 4).ended) rfl (hsees'.site rfl rfl)
    obtain ⟨hvalue, hnewline⟩ := hheader.lies.append
    obtain ⟨hskip, hnewline'⟩ := Program.Lies.append (D := [.jump (size e.directives+2), .pop])
      (E := [.newline]) hskip.lies
    have hyes := @ihyes least upper heach.2.1 hinside
      (hroom.mono ((le_max_left _ _).trans (le_max_right _ _)))
    have hno := @ihno least upper heach.2.2 hinside'
      (hroom.mono ((le_max_right _ _).trans (le_max_right _ _)))
    have hbehind : s'.offset+4 = (s.past c).ended.offset+8+size d.directives := by
      simp only [Site.past, Site.ended, Site.forward]
      omega
    have hend : s''.offset = s.offset+size c.directives+1+8+size d.directives+(size e.directives+1) := by
      omega
    have hrow : 1+s.read+yes.breaks+2 = 1+(s'.forward 4).ended.read := by
      simp only [Site.forward, Site.ended, hread]
      omega
    rw [run, hend, hrow]
    rw [hend] at hno
    rw [hoffset] at hskip hyes
    refine Yields.bind (htest.passes hsees (hA test heach.1) hvalue
      (hroom.mono (le_max_left _ _))) fun (a : Content) => ?_
    refine (branch_passes (a := a) hjump.lies hskip hfit hfit' hyes
      (hno.mono ?_ (fun _ _ h => h) fun _ _ h => h)).mono (fun σ hσ => At.newline hnewline hσ)
      (fun _ _ h => h) fun _ _ h => h
    intro σ hσ
    rw [← hbehind] at hσ
    exact At.newline hnewline' hσ
  | @while_ s s' test body c d l htest hbody hfit ih =>
    have hsees := hplaced.sees
    have hoffset : s'.offset = s.offset+size c.directives+4+1+size d.directives := hbody.offset_eq
    have hlocals := hbody.locals_eq heach.2 (hsees.function ▸ hB)
    replace hplaced := hplaced.regroup
      ((c.directives++[Directive.jumpIf false (size d.directives+5), .pop, .newline])++(d.directives++
        [Directive.back (size c.directives+size d.directives+8), .pop]))
      (by simp [Phrase.directives, Phrase.newline, Nat.add_comm 1, Nat.add_assoc])
      (by simp only [List.append_assoc]; rfl)
    obtain ⟨hheader, hplaced⟩ := hplaced.append (((s.past c).forward 4).ended)
      (by simp [Site.past, Site.ended, Site.forward, Nat.add_assoc]) (hsees.site rfl rfl)
    obtain ⟨hinside, hback⟩ := hplaced.append _ hbody.offset_eq (hsees.site hbody.function_eq hlocals)
    obtain ⟨hvalue, hjump⟩ := hheader.lies.append
    obtain ⟨hjump, hnewline⟩ := Program.Lies.append
      (D := [.jumpIf false (size d.directives+5), .pop]) (E := [.newline]) hjump
    have hend : s'.offset = s.offset+size c.directives+4+(size d.directives+1) := by omega
    have hback := hback.lies
    rw [hend] at hback
    rw [run, show (s'.forward 4).offset = s.offset+size c.directives+8+(size d.directives+1) by
      simp only [Site.forward]; omega]
    refine loop_passes hjump hback hfit (fun _ => htest.passes hsees (hA test heach.1) hvalue
      (hroom.mono (le_max_left _ _))) (fun _ => ?_) limit least (by omega)
    refine (ih heach.2 hinside (hroom.mono (le_max_right _ _))).mono
      (fun σ hσ => At.newline hnewline hσ) ?_ fun _ _ h => h
    intro _ σ hσ
    rwa [hend] at hσ
  | @repeat_ s s' count body c d l hcount hbody hfit ih =>
    have hsees := hplaced.sees
    have hoffset : s'.offset = s.offset+size c.directives+1+1+size d.directives := by
      rw [hbody.offset_eq, Site.offset_counting]
      rfl
    have hread : ((s.past c).forward 1).ended.counting.read = s.read+1 := Site.read_counting _
    have hcounting : q.Sees ((s.past c).forward 1).ended.counting.toView :=
      Spot.Sees.counting (hsees.site rfl rfl)
    have hlocals := hbody.locals_eq heach.2 (hcounting.function ▸ hB)
    replace hplaced := hplaced.regroup ((c.directives++[Directive.plain .repeat_ rfl, .newline])++
      (d.directives++[Directive.endRepeat, .back (size d.directives+4)]))
      (by simp [Phrase.directives, Phrase.newline]) (by simp only [List.append_assoc]; rfl)
    obtain ⟨hheader, hplaced⟩ := hplaced.append (((s.past c).forward 1).ended.counting)
      (by rw [Site.offset_counting]; simp [Site.past, Site.ended, Site.forward, Nat.add_assoc]; rfl)
      hcounting
    obtain ⟨hinside, hlast⟩ := hplaced.append _ hbody.offset_eq
      (hcounting.site hbody.function_eq hlocals)
    obtain ⟨hvalue, hrepeat⟩ := hheader.lies.append
    have hlast := hlast.lies
    have hbody (x : Number) (least : Nat) := @ih least (upper++[Content.number x])
      heach.2 hinside (Spot.Room.above (hroom.mono (le_max_right _ _)))
    rw [hoffset] at hlast
    rw [hread, hoffset, Site.offset_counting] at hbody
    rw [show ((s'.forward 4).withLocals s.locals).offset =
      s.offset+size c.directives+2+size d.directives+4 by
        simp only [Site.withLocals, Site.forward]; omega]
    exact Yields.bind (hcount.passes hsees (hA count heach.1) hvalue
      (hroom.mono (le_max_left _ _))) fun (a : Content) => repeat_passes hrepeat hlast hfit hbody
  | @line s s' s'' first rest c d l m hfirst hrest ihfirst ihrest =>
    have hsees := hplaced.sees
    have hlocals := hfirst.locals_eq heach.1 (hsees.function ▸ hB)
    have hsees' := hsees.site hfirst.function_eq hlocals
    replace hplaced := hplaced.regroup (c.directives++([Directive.newline]++d.directives))
      (by simp [Phrase.directives, Phrase.newline]) (by simp only [List.append_assoc]; rfl)
    obtain ⟨hinside, hplaced⟩ := hplaced.append _ hfirst.offset_eq hsees'
    obtain ⟨hnewline, hinside'⟩ := hplaced.append (s'.ended) rfl (hsees'.site rfl rfl)
    have hrow : 1+s.read+first.breaks+1 = 1+s'.ended.read := by
      simp only [Site.ended, hfirst.read_eq]
      omega
    rw [run, hrow]
    refine Yields.bind (ihfirst heach.1 hinside (hroom.mono (le_max_left _ _))) fun _ => ?_
    exact (ihrest heach.2 hinside' (hroom.mono (le_max_right _ _))).mono
      (fun σ hσ => At.newline hnewline.lies hσ) (fun _ _ h => h) fun _ _ h => h
  | @scope s s' lines c l hlines ih =>
    have hlocals := hlines.locals_eq heach (hplaced.sees.function ▸ hB)
    have hlength : s'.locals.length-s.locals.length = 0 := by rw [hlocals, Nat.sub_self]
    have hplaced := (hplaced.append _ hlines.offset_eq (hplaced.sees.site hlines.function_eq hlocals)).1
    rw [show ((s'.past (.pops (s'.locals.length-s.locals.length))).withLocals s.locals).offset =
      s'.offset by rw [hlength]; rfl]
    exact ih heach hplaced hroom

end RatScript
