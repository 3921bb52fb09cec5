import RatScript.Code.Listing
import RatScript.Proofs.Meaning.Lexical

/-!
What a listing calls the variables of a runnable. It looks a slot up among the names of all locals,
in the order of their declarations; those of the cells in scope are some of them, in the same order.
Both agree as long as no block has given cells back.
-/

namespace RatScript

namespace Cell

/-- What a listing has for the cell. -/
def label : Cell → String
  | parameter x => x
  | declared d => d.name
  | counter => "(repeat)"

/-- The same of all cells in scope, the oldest first. -/
def labels (cells : List Cell) : List String := (cells.map label).reverse

theorem labels_cons (c : Cell) (cells : List Cell) : labels (c :: cells) = labels cells++[c.label] := by
  simp [labels]

theorem length_labels (cells : List Cell) : (labels cells).length = cells.length := by
  simp [labels]

theorem Newest.label {x : String} {cells : List Cell} {slot : Nat} {c : Cell}
    (h : Newest x cells slot c) : (labels cells)[slot]? = some x := by
  have hcell := h.cell
  obtain ⟨_, _, _, _, hname, _⟩ := h
  rw [labels, ← List.map_reverse, List.getElem?_map, hcell]
  cases c with
  | parameter | declared =>
    cases hname
    rfl
  | counter => cases hname

end Cell

open Cell (labels)

namespace Stmt

variable {k : StmtKind}

/-- What is in scope is some of what has been declared, in the same order. -/
theorem labels_sublist (t : Stmt k) {s : Sight} {before : List String}
    (hs : (labels s.cells).Sublist before) :
    (labels (t.after s).cells).Sublist (before++t.locals) ∧
      ∀ u ∈ t.uses s, (labels u.cells).Sublist (before++t.locals) := by
  have hmore {cells : List Cell} {before : List String} (h : (labels cells).Sublist before)
      (more : List String) : (labels cells).Sublist (before++more) :=
    h.trans (List.sublist_append_left ..)
  have hexpr {e : Expr .operand} {s : Sight} {offset : Nat} {before : List String}
      (hs : (labels s.cells).Sublist before) (more : List String) :
      ∀ u ∈ e.uses s.cells offset, (labels u.cells).Sublist (before++more) :=
    fun u hu => Expr.cells_of_mem_uses hu ▸ hmore hs more
  have hvalue {value : Option (Expr .operand)} {s : Sight} {offset : Nat} {before : List String}
      (hs : (labels s.cells).Sublist before) (more : List String) :
      ∀ u ∈ Expr.valueUses s.cells value offset, (labels u.cells).Sublist (before++more) :=
    fun u hu => Expr.cells_of_mem_valueUses hu ▸ hmore hs more
  induction t generalizing s before with
  | blank | nil | runnable => exact ⟨hmore hs _, nofun⟩
  | expression => exact ⟨hmore hs _, hexpr hs _⟩
  | return_ => exact ⟨hmore hs _, hvalue hs _⟩
  | declare x value =>
    refine ⟨?_, hvalue hs _⟩
    rw [after, Sight.declaring, Cell.labels_cons]
    exact hs.append (List.Sublist.refl _)
  | if_ test yes ih | while_ test yes ih =>
    obtain ⟨hafter, huses⟩ := ih (s := s.forward (test.width+5)) hs
    exact ⟨hafter, List.forall_mem_append.mpr ⟨hexpr hs _, huses⟩⟩
  | ifElse test yes no ihyes ihno =>
    obtain ⟨hafter, huses⟩ := ihyes (s := s.forward (test.width+5)) hs
    obtain ⟨hafter', huses'⟩ := ihno (s := (yes.after (s.forward (test.width+5))).forward 5) hafter
    rw [List.append_assoc] at hafter' huses'
    refine ⟨hafter', List.forall_mem_append.mpr ⟨List.forall_mem_append.mpr ⟨hexpr hs _, ?_⟩, huses'⟩⟩
    intro u hu
    exact (huses u hu).trans (by simp [locals])
  | repeat_ count body ih =>
    have hcounting : (labels (s.forward (count.width+2)).counting.cells).Sublist
        (before++["(repeat)"]) := by
      rw [Sight.counting, Cell.labels_cons]
      exact hs.append (List.Sublist.refl _)
    obtain ⟨_, huses⟩ := ih hcounting
    rw [List.append_assoc] at huses
    exact ⟨hmore hs _, List.forall_mem_append.mpr ⟨hexpr hs _, huses⟩⟩
  | line first rest ihfirst ihrest =>
    obtain ⟨hafter, huses⟩ := ihfirst hs
    obtain ⟨hafter', huses'⟩ := ihrest (s := (first.after s).forward 1) hafter
    rw [List.append_assoc] at hafter' huses'
    refine ⟨hafter', List.forall_mem_append.mpr ⟨fun u hu => ?_, huses'⟩⟩
    exact (huses u hu).trans (by simp [locals])
  | scope lines ih => exact ⟨hmore hs _, (ih hs).2⟩

/-- What is in scope stays so. -/
theorem length_cells_le (t : Stmt k) (s : Sight) : s.cells.length ≤ (t.after s).cells.length := by
  induction t generalizing s with
  | declare => exact Nat.le_succ _
  | if_ test _ ih | while_ test _ ih => exact ih (s.forward (test.width+5))
  | ifElse test yes _ ihyes ihno =>
    exact (ihyes (s.forward (test.width+5))).trans
      (ihno ((yes.after (s.forward (test.width+5))).forward 5))
  | line first _ ihfirst ihrest => exact (ihfirst s).trans (ihrest ((first.after s).forward 1))
  | _ => exact Nat.le_refl _

/-- Behind a part of a body in which no cell has been given back, what has been declared is in scope,
in the order of the slots. -/
theorem labels_after (t : Stmt k) {s : Sight}
    (hall : (t.after s).cells.length = s.cells.length+t.locals.length) :
    labels (t.after s).cells = labels s.cells++t.locals := by
  refine (t.labels_sublist (List.Sublist.refl _)).1.eq_of_length ?_
  rw [Cell.length_labels, List.length_append, Cell.length_labels, hall]

theorem length_after_le (t : Stmt k) (s : Sight) :
    (t.after s).cells.length ≤ s.cells.length+t.locals.length := by
  have h := (t.labels_sublist (List.Sublist.refl (labels s.cells))).1.length_le
  rwa [List.length_append, Cell.length_labels, Cell.length_labels] at h

/-- The same is so wherever a name is used in it. -/
theorem labels_isPrefix (t : Stmt k) {s : Sight}
    (hall : (t.after s).cells.length = s.cells.length+t.locals.length) :
    ∀ u ∈ t.uses s, labels u.cells <+: labels s.cells++t.locals := by
  have hexpr {e : Expr .operand} {s : Sight} {offset : Nat} (more : List String) :
      ∀ u ∈ e.uses s.cells offset, labels u.cells <+: labels s.cells++more :=
    fun u hu => Expr.cells_of_mem_uses hu ▸ List.prefix_append ..
  have hvalue {value : Option (Expr .operand)} {s : Sight} {offset : Nat} (more : List String) :
      ∀ u ∈ Expr.valueUses s.cells value offset, labels u.cells <+: labels s.cells++more :=
    fun u hu => Expr.cells_of_mem_valueUses hu ▸ List.prefix_append ..
  induction t generalizing s with
  | blank | nil | runnable => exact nofun
  | expression => exact hexpr _
  | declare | return_ => exact hvalue _
  | if_ test _ ih | while_ test _ ih =>
    exact List.forall_mem_append.mpr ⟨hexpr _, ih (s := s.forward (test.width+5)) hall⟩
  | ifElse test yes no ihyes ihno =>
    have hle := yes.length_after_le (s.forward (test.width+5))
    have hle' := no.length_after_le ((yes.after (s.forward (test.width+5))).forward 5)
    simp only [after, locals, List.length_append, Sight.cells_forward] at hall hle hle'
    have hyes : (yes.after (s.forward (test.width+5))).cells.length =
      (s.forward (test.width+5)).cells.length+yes.locals.length := by
        rw [Sight.cells_forward]
        omega
    have huses := ihyes hyes
    have huses' := ihno (s := (yes.after (s.forward (test.width+5))).forward 5) (by
      rw [Sight.cells_forward]
      omega)
    rw [Sight.cells_forward, yes.labels_after hyes, Sight.cells_forward, List.append_assoc] at huses'
    rw [Sight.cells_forward] at huses
    refine List.forall_mem_append.mpr
      ⟨List.forall_mem_append.mpr ⟨hexpr _, fun u hu => ?_⟩, huses'⟩
    rw [locals, ← List.append_assoc]
    exact (huses u hu).trans (List.prefix_append ..)
  | repeat_ _ body =>
    have hall : s.cells.length = s.cells.length+(body.locals.length+1) := hall
    omega
  | line first rest ihfirst ihrest =>
    have hle := first.length_after_le s
    have hle' := rest.length_after_le ((first.after s).forward 1)
    simp only [after, locals, List.length_append, Sight.cells_forward] at hall hle'
    have hfirst : (first.after s).cells.length = s.cells.length+first.locals.length := by omega
    have huses := ihrest (s := (first.after s).forward 1) (by rw [Sight.cells_forward]; omega)
    rw [Sight.cells_forward, first.labels_after hfirst, List.append_assoc] at huses
    refine List.forall_mem_append.mpr ⟨fun u hu => ?_, huses⟩
    rw [locals, ← List.append_assoc]
    exact (ihfirst hfirst u hu).trans (List.prefix_append ..)
  | scope lines ih =>
    have hge := lines.length_cells_le s
    have hle := lines.length_after_le s
    have hall : s.cells.length = s.cells.length+lines.locals.length := hall
    exact ih (by omega)

end Stmt
/-- Names of all locals of the runnable, parameters first. -/
def Routine.locals (r : Routine) : List String := r.params++r.body.locals

theorem Routine.labels_cells (r : Routine) : labels r.cells = r.params := by
  rw [labels, cells, List.map_reverse, List.reverse_reverse, List.map_map]
  exact List.map_id _

theorem Stmt.frames_eq {k : StmtKind} (t : Stmt k) (row : Nat) :
    (t.routines row).map Routine.locals = t.frames := by
  induction t generalizing row with
  | blank | expression | declare | return_ | nil | runnable => rfl
  | if_ _ _ ih | while_ _ _ ih | repeat_ _ _ ih => exact ih _
  | scope _ ih => exact ih _
  | ifElse _ _ _ ihyes ihno | line _ _ ihyes ihno =>
    rw [routines, List.map_append, ihyes, ihno]
    rfl

theorem Script.frames_eq (t : Script) : t.routines.map Routine.locals = t.frames := by
  rw [routines, frames, List.map_append, t.lines.frames_eq]
  cases t.last with
  | none => rfl
  | some s => rw [s.frames_eq]

/-- What is known of the runnables of a text that compiles. -/
theorem compile_scoped {source : String} {p : Program} (h : compile source = .ok p) :
    ∃ t : Script, t.Spells source ∧ p.functions.size = 1+t.routines.length ∧
      ∀ n r, t.routines[n]? = some r → ∃ f, p.function? (n+1) = some f ∧ r.Scoped f ∧
        f.locals.toList = r.locals := by
  obtain ⟨t, s, c, l, top, hspells, hroomy, hmakes, _⟩ := compile_makes h
  obtain ⟨marks, _, hroutines⟩ := hmakes.stages
  refine ⟨t, hspells, hmakes.size_eq, fun n r hr => ?_⟩
  obtain ⟨f, hwritten, hstaged⟩ := hroutines n r hr
  have hfew : r.params.length ≤ Compile.maxLocals :=
    hwritten.arity ▸ (hmakes.runnables _ f (Nat.succ_pos n) hwritten.function).1
  refine ⟨f, hwritten.function,
    hwritten.scoped (hroomy.routine (List.mem_of_getElem? hr)) hfew hstaged, ?_⟩
  have hnames : p.functions.toList.map (·.locals.toList) = [] :: t.frames := by
    obtain ⟨tokens, hscan, htokens⟩ := hspells.tokens
    simp only [compile, hscan] at h
    obtain ⟨t', _, _, _, _, hbinds, htokens', _, _, _, _, _, _, _, _, hnames⟩ := compileTokens_roomy h
    obtain rfl := Script.unique hspells.binds hbinds (htokens.trans htokens'.symm)
    exact hnames
  have hat := congrArg (·[n+1]?) hnames
  have hfunction : p.functions[n+1]? = some f := hwritten.function
  simp only [List.getElem?_map, Array.getElem?_toList, hfunction, List.getElem?_cons_succ,
    ← t.frames_eq, hr] at hat
  exact Option.some.inj hat

/-- The line of an instruction that names a slot. -/
theorem Program.instructionLine_slot (p : Program) (f : Function) (u : Use) (slot : UInt8)
    {name : String} (hname : f.locals.toList[slot.toNat]? = some name) (offset : Nat) :
    p.instructionLine f ((u.directive .frame slot).at_ offset) =
      operandLine ((u.directive .frame slot).at_ offset).op slot name := by
  have hname : f.locals[slot.toNat]? = some name := by simpa using hname
  obtain ⟨_, target, _, _⟩ := u
  cases target <;>
    simp only [Use.directive, Directive.get, Directive.assign, Directive.access, Directive.at_,
      instructionLine, hname, Option.getD_some]

/-- The listing of an instruction that names a slot tells the name that the slot's number has among
all locals of the runnable. It is that of the variable, as long as what is in scope is what has been
declared so far, which it is throughout a runnable that gives no cell back. -/
theorem slots_listed (source : String) (p : Program) (h : compile source = .ok p) :
    ∃ t : Script, t.Spells source ∧ p.functions.size = 1+t.routines.length ∧
      ∀ n r, t.routines[n]? = some r → ∃ f, p.function? (n+1) = some f ∧
        (∀ i ∈ f.chunk.instructions, i.operand.layout = .slot →
          ∃ u ∈ r.uses, i.offset = u.offset ∧ ∃ (slot : UInt8) (c : Cell) (name : String),
            Cell.Newest u.name u.cells slot.toNat c ∧ r.locals[slot.toNat]? = some name ∧
            p.instructionLine f i = Program.operandLine i.op slot name ∧
            (labels u.cells <+: r.locals → name = u.name)) ∧
        ((r.body.after ⟨1, r.cells⟩).cells.length = r.locals.length →
          ∀ u ∈ r.uses, labels u.cells <+: r.locals) := by
  obtain ⟨t, hspells, hsize, hroutines⟩ := compile_scoped h
  refine ⟨t, hspells, hsize, fun n r hr => ?_⟩
  obtain ⟨f, hf, hscoped, hlocals⟩ := hroutines n r hr
  refine ⟨f, hf, fun i hi hlayout => ?_, fun hall => ?_⟩
  · obtain ⟨u, hu, hoffset, _, c, hc, _⟩ := hscoped.slots i hi hlayout
    obtain ⟨slot, rfl, hmem⟩ := hscoped.frame u hu _ c hc
    obtain rfl := Instruction.eq_of_offset hi hmem hoffset
    have hlabel := hc.label
    have hsome : (labels r.cells).Sublist r.params := r.labels_cells ▸ List.Sublist.refl _
    have hlt : slot.toNat < r.locals.length :=
      (List.getElem?_eq_some_iff.mp hlabel).1.trans_le
        ((r.body.labels_sublist hsome).2 u hu).length_le
    have hname := List.getElem?_eq_getElem hlt
    refine ⟨u, hu, hoffset, slot, c, _, hc, hname,
      p.instructionLine_slot f u slot (by rw [hlocals]; exact hname) u.offset, fun hprefix => ?_⟩
    obtain ⟨more, hmore⟩ := hprefix
    have hsame : r.locals[slot.toNat]? = some u.name := by
      rw [← hmore, List.getElem?_append_left (List.getElem?_eq_some_iff.mp hlabel).1, hlabel]
    exact Option.some.inj (hname.symm.trans hsame)
  · have hlength : r.cells.length = r.params.length := by simp [Routine.cells]
    have huses := r.body.labels_isPrefix (s := ⟨1, r.cells⟩) (by
      rw [hall, Routine.locals, List.length_append, ← hlength])
    rwa [r.labels_cells] at huses

/-- In a counted loop, with all cells in scope. -/
theorem slots_listed_shadowing :
    ∃ p f slot, compile shadowing = .ok p ∧ p.function? 1 = some f ∧
      p.instructionLine f ⟨8, .get .frame, .slot 2⟩ = Program.operandLine (.get .frame) slot "a" := by
  have hlisted : (compile shadowing).toOption.bind (fun p => (p.function? 1).map fun f =>
      f.chunk.instructions.contains ⟨8, .get .frame, .slot 2⟩) = some true := by
    decide +kernel
  cases hp : compile shadowing with
  | error ds => simp [hp, Except.toOption] at hlisted
  | ok p =>
    obtain ⟨t, hspells, _, hroutines⟩ := slots_listed shadowing p hp
    obtain rfl := hspells.unique shadows_spells
    obtain ⟨f, hf, hslots, hlevel⟩ := hroutines 0 shadow rfl
    simp only [hp, Except.toOption, Option.bind_some, hf, Option.map_some, Option.some.injEq,
      List.contains_iff_mem] at hlisted
    obtain ⟨u, hu, hoffset, slot, _, name, _, _, hline, hname⟩ := hslots _ hlisted rfl
    have hu' : u = shadowed := by
      rw [show shadow.uses = [⟨"a", none, 5, [.counter, .parameter "a"]⟩, shadowed] from rfl] at hu
      rcases List.mem_cons.mp hu with rfl | hu
      · cases hoffset
      · exact List.mem_singleton.mp hu
    subst hu'
    obtain rfl : name = "a" := hname ⟨[], rfl⟩
    exact ⟨p, f, slot, rfl, hf, hline⟩

/-! Slots that are used again. -/

def reusing : String := "runnable f():\nif true:\nrat a = 1\nendif\nrat b = 2\nb\nendrunnable\n"

def reuse : Routine where
  name := "f"
  params := []
  body := .line (.if_ (.head (.literal (some true)))
      (.scope (.line (.declare "a" (some (.head (.number "1")))) .nil))) <|
    .line (.declare "b" (some (.head (.number "2")))) (.line (.expression (.head (.name "b"))) .nil)
  row := 2

def reuses : Script where
  lines := .line (.runnable reuse.name reuse.params reuse.body) .nil
  last := none

theorem reuses_spells : reuses.Spells reusing := by
  have htokens : (scanCode reusing).toOption.map
      (fun tokens => (tokens.takeWhile (·.token != .eof)).map (·.token)) = some reuses.tokens := by
    decide +kernel
  obtain ⟨tokens, hscan, htokens⟩ := Option.map_eq_some_iff.mp htokens
  refine ⟨⟨?_, nofun⟩, tokens, ?_, htokens.symm⟩
  · intro e he
    fin_cases he <;> constructor <;> simp [Expr.Fits, Expr.Grouped]
  · cases h : scanCode reusing with
    | error e => simp [h, Except.toOption] at hscan
    | ok ts => simpa [h, Except.toOption] using hscan

/-- The variable is called by the name of the one that had its slot before. -/
theorem reused_misnamed :
    ∃ (t : Script) (r : Routine) (p : Program) (f : Function) (u : Use) (i : Instruction),
      t.Spells reusing ∧ t.routines = [r] ∧ compile reusing = .ok p ∧ p.function? 1 = some f ∧
      u ∈ r.uses ∧ Cell.Newest "b" u.cells 0 (.declared ⟨"b", 16, 18⟩) ∧ u.name = "b" ∧
      i ∈ f.chunk.instructions ∧ i.offset = u.offset ∧
      p.instructionLine f i = Program.operandLine (.get .frame) 0 "a" := by
  have hlisted : (compile reusing).toOption.bind (fun p => (p.function? 1).map fun f =>
      (f.chunk.instructions.contains ⟨19, .get .frame, .slot 0⟩,
        p.instructionLine f ⟨19, .get .frame, .slot 0⟩)) =
        some (true, Program.operandLine (.get .frame) 0 "a") := by
    decide +kernel
  cases hp : compile reusing with
  | error ds => simp [hp, Except.toOption] at hlisted
  | ok p =>
    simp only [hp, Except.toOption, Option.bind_some, Option.map_eq_some_iff, Prod.mk.injEq,
      List.contains_iff_mem] at hlisted
    obtain ⟨f, hf, hmem, hline⟩ := hlisted
    exact ⟨reuses, reuse, p, f, ⟨"b", none, 19, [.declared ⟨"b", 16, 18⟩]⟩, _, reuses_spells, rfl, rfl,
      hf, List.mem_singleton_self _, ⟨[], [], rfl, rfl, rfl, by simp⟩, rfl, hmem, rfl, hline⟩

end RatScript
