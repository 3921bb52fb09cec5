import RatScript.Proofs.Meaning.Routine

/-!
The code of a script does what the script means: declarations, and calls of its runnable in a frame
of their own.
-/

namespace RatScript

open Stateful Machine
open Directive (size encode)

/-! Cells of the stack that statements take. -/

namespace Stmt

def performCells : Stmt .statement → Nat
  | expression e => e.cells
  | _ => 0

/-- A call of the runnable takes cells for it and its arguments, and those of its body. -/
def enactCells (routine : Option Routine) : Stmt .statement → Nat
  | declare _ none => 1
  | declare _ (some e) => e.cells
  | expression (.head (.call x arguments)) =>
    match routine.filter (·.name = x) with
    | some r => 1+max arguments.cells (arguments.length+max 1 (r.body.cells performCells))
    | none => performCells (.expression (.head (.call x arguments)))
  | s => performCells s

end Stmt

def Script.cells (t : Script) : Nat :=
  let leaf := Stmt.enactCells t.routines.head?
  max (t.lines.cells leaf) (match t.last with
    | some s => s.cells leaf
    | none => 0)

variable {p : Program} {P : Array (Array Value)} {z : Setting} {m₀ : Machine} {q : Spot}
  {least limit line offset : Nat} {upper : List Content} {f : Function} {names : List String}

/-- Expression statements pass, wherever they stand. -/
theorem perform_passes (hnames : ∀ x, x ∉ names → p.runnable? x = none) :
    LeavesPass p P z m₀ q f limit Stmt.perform Stmt.performCells (Stmt.Bare names) := by
  intro t s s' c l upper least hbare hcodes hplaced hroom
  cases hcodes with
  | @expression s e c he =>
    have hend : (s.past (.seq c (.one .pop))).offset = s.offset+size c.directives+1 := by
      simp [Site.past, Site.forward, Phrase.directives, Nat.add_assoc]
    rw [hend]
    exact expression_passes he hplaced.sees (fun x hx => hnames x (hbare x hx)) hplaced.lies hroom
  | _ => exact hbare.elim

/-! Calls of the runnable. -/

namespace Spot

/-- The call that a script is run in. -/
def script : Spot := ⟨0, 0, [], [], []⟩

/-- A call of a runnable from an offset of the script, above some of its values. -/
def inside (id ip : Nat) (below : List Content) (d : Content) (params : List String) : Spot :=
  ⟨id, below.length, [⟨0, ip, 0⟩], below++[d], params.reverse⟩

end Spot

theorem Exec.lasts_shows (st : List Content) (fs : List Frame) :
    Lasts p P z fun σ m => m.Shows p P z σ st fs where
  shows _ _ hm := ⟨_, _, hm⟩
  diagnostics _ _ _ hm hsink := shows_diagnostics hm hsink

theorem Exec.Lasts.with_store {S : Store → Machine → Prop} (h : Lasts p P z S) (φ : Store → Prop) :
    Lasts p P z fun σ m => φ σ ∧ S σ m where
  shows σ m hm := h.shows σ m hm.2
  diagnostics σ m sink hm hsink := ⟨hm.1, h.diagnostics σ m sink hm.2 hsink⟩

/-- A directive on whatever line it is. -/
theorem Program.lies_singleton {id : Nat} {before after : List Directive} {d : Directive}
    (hf : p.function? id = some f) (hcode : f.chunk.code.toList = encode (before++d :: after)) :
    p.Lies id f (p.sourceLine id (size before)) (size before) [d] where
  function := hf
  code := ⟨before, after, by simpa using hcode, rfl⟩
  lines i hi := by
    obtain rfl := List.mem_singleton.mp hi
    rfl

namespace Routine.Written

variable {r : Routine} {id ip : Nat} {g : Function} {cs : List Content} {d : Content}

/-- The parameters get the arguments, in the cells where these are. -/
theorem bind_passes (hlength : cs.length = r.params.length) :
    Yields (Reaches p m₀ least fun σ m => σ.locals = [] ∧
        m.Shows p P z σ (upper++d :: cs) [⟨id, 0, upper.length⟩, ⟨0, ip, 0⟩])
      (Walk.bindLocals (r.params.zip cs).reverse)
      (fun _ => At p P z m₀ (.inside id ip upper d r.params) least 0 []) (Breaks p m₀ limit) := by
  apply Yields.modify
  rintro σ ⟨n, m, hn, hrun, hstatements, _, hm⟩
  refine ⟨n, m, hn, hrun, hstatements, ?_, ?_⟩
  · simp [Spot.inside, List.map_fst_zip, hlength]
  · have hcells : (Spot.inside id ip upper d r.params).under++
        ({σ with locals := (r.params.zip cs).reverse} : Store).cells++[] = upper++d :: cs := by
      simp [Spot.inside, Store.cells, List.map_snd_zip, hlength]
    rw [hcells]
    exact Exec.restore hm ⟨hm.globals, hm.input, hm.output, hm.files⟩

/-- At the end of its code the runnable returns nothing, above what was below its call. -/
theorem epilogue_passes {before : List Directive} {σ : Store} (hg : p.function? id = some g)
    (hcode : g.chunk.code.toList = encode (before++Program.epilogue))
    (hroom : (Spot.inside id ip upper d r.params).Room z [] 1)
    (hσ : At p P z m₀ (.inside id ip upper d r.params) least (size before) [] σ) :
    Reaches p m₀ least (fun σ m => m.Shows p P z σ (upper++[Content.none]) [⟨0, ip, 0⟩]) σ := by
  have hnone : p.Lies id g (p.sourceLine id (size before)) (size before) [.literal none] :=
    p.lies_singleton (d := .literal none) hg (hcode.trans rfl)
  have hcode' : g.chunk.code.toList = encode (before++[Directive.literal none]++[Directive.plain .ret rfl]) := by
    rw [hcode, List.append_assoc]
    rfl
  have hret := p.lies_singleton (d := .plain .ret rfl) hg hcode'
  have hput : Yields (At p P z m₀ (.inside id ip upper d r.params) least (size before) [])
      (pure .none : Walk Content)
      (fun a => At p P z m₀ (.inside id ip upper d r.params) least (size before+1) [a])
      (Breaks p m₀ 0) :=
    passes hnone (hnone.drops_eq_false (by simp [Directive.literal, Directive.plain]))
      fun _ _ hm => Exec.execute_literal hm none hroom
  rw [Directive.size_append] at hret
  have hleave : Yields (At p P z m₀ (.inside id ip upper d r.params) least (size before+1) [.none])
      (pure () : Walk Unit)
      (fun _ => Reaches p m₀ (least+1) fun σ m =>
        m.Shows p P z σ (upper++[Content.none]) [⟨0, ip, 0⟩]) (Breaks p m₀ 0) := by
    refine passes_to hret (hret.drops_eq_false (by simp [Directive.plain]))
      (fun _ => Exec.lasts_shows (upper++[Content.none]) [⟨0, ip, 0⟩]) ?_
    intro σ m hm
    have hstack : (Spot.inside id ip upper d r.params).under++σ.cells++[Content.none] =
        upper++(d :: σ.cells++[Content.none]) := by
      simp [Spot.inside]
    have hshows := hm.2
    rw [hstack] at hshows
    refine (Exec.execute_ret hshows rfl).mono ?_
    rintro _ σ' _ m' ⟨rfl, hm'⟩
    exact hm'
  exact (hleave σ (hput σ hσ)).fewer

/-- The body passes up to its end, where its value is put. -/
theorem body_passes (hr : r.Written p id g) (hnames : ∀ x, x ∉ names → p.runnable? x = none)
    (hbody : r.body.Each (·.Avoids names) (Stmt.Bare names)) (hfew : r.params.length ≤ 256)
    (hroom : upper.length+1+r.params.length+max 1 (r.body.cells Stmt.performCells) ≤
      z.config.stackCapacity) :
    Yields (At p P z m₀ (.inside id ip upper d r.params) least 0 [])
      (r.body.run Stmt.perform limit r.row)
      (fun _ => Reaches p m₀ least fun σ m =>
        m.Shows p P z σ (upper++[Content.none]) [⟨0, ip, 0⟩]) (Breaks p m₀ limit) := by
  obtain ⟨s, s', c, l, hview, hoffset, hrow, hcodes, hcode, hlines⟩ := hr.body
  have hsees : (Spot.inside id ip upper d r.params).Sees s.toView := by
    rw [hview]
    refine ⟨rfl, fun hzero => absurd hzero hr.later.ne', ?_, ?_, by simpa [Spot.inside] using hfew⟩
    · simp [Spot.inside]
    · exact fun _ => ⟨0, by simp [Spot.inside]⟩
  have hplaced : Placed p (.inside id ip upper d r.params) g s c.directives l :=
    ⟨hr.function, ⟨[.newline], Program.epilogue, by simpa using hcode, by simp [hoffset]⟩, hlines,
      hsees⟩
  have hroom : (Spot.inside id ip upper d r.params).Room z []
      (max 1 (r.body.cells Stmt.performCells)) := by
    simp only [Spot.Room, Spot.inside, List.length_append, List.length_singleton,
      List.length_reverse, List.length_nil]
    omega
  have hpasses : Yields (At p P z m₀ (.inside id ip upper d r.params) least s.offset [])
      (r.body.run Stmt.perform limit (1+s.read))
      (fun _ => At p P z m₀ (.inside id ip upper d r.params) least s'.offset [])
      (Breaks p m₀ limit) :=
    hcodes.passes (perform_passes hnames) (fun _ he x hx => hnames x (he x hx)) (fun _ _ _ h => h)
      hbody hplaced (hroom.mono (le_max_right _ _))
  have hfirst : g.chunk.code.toList = encode ([]++Directive.newline :: (c.directives++Program.epilogue)) := hcode
  have hnewline := p.lies_singleton hr.function hfirst
  have hsize : s'.offset = size (.newline :: c.directives) := by
    rw [hcodes.offset_eq, hoffset]
    simp
  rw [hrow]
  refine hpasses.mono ?_ ?_ fun _ _ h => h
  · intro σ hσ
    rw [hoffset]
    exact At.newline hnewline hσ
  · intro _ σ hσ
    rw [hsize] at hσ
    exact epilogue_passes hr.function hcode (hroom.mono (le_max_left _ _)) hσ

/-- A call that has been made passes, and the script goes on with the value of the call. -/
theorem enter_passes (hr : r.Written p id g) (hnames : ∀ x, x ∉ names → p.runnable? x = none)
    (hbody : r.body.Each (·.Avoids names) (Stmt.Bare names)) (hfew : r.params.length ≤ 256)
    (hlength : cs.length = r.params.length)
    (hroom : upper.length+1+r.params.length+max 1 (r.body.cells Stmt.performCells) ≤
      z.config.stackCapacity) :
    Yields (Reaches p m₀ least fun σ m => σ.locals = [] ∧
        m.Shows p P z σ (upper++d :: cs) [⟨id, 0, upper.length⟩, ⟨0, ip, 0⟩])
      (r.enter limit cs) (fun _ => At p P z m₀ .script least ip (upper++[Content.none]))
      (Breaks p m₀ limit) := by
  apply Yields.get_bind
  intro σ hσ
  have houtside : σ.locals = [] := by
    obtain ⟨_, _, _, _, _, h, _⟩ := hσ
    exact h
  rw [houtside]
  refine Yields.start hσ (Yields.bind (bind_passes hlength) fun _ =>
    Yields.bind (hr.body_passes hnames hbody hfew hroom) fun _ => Yields.modify ?_)
  rintro σ ⟨n, m, hn, hrun, hstatements, hm⟩
  exact ⟨n, m, hn, hrun, hstatements, rfl,
    Exec.restore hm ⟨hm.globals, hm.input, hm.output, hm.files⟩⟩

/-- A statement that calls the only runnable. -/
theorem call_passes (hr : r.Written p id g) (hnames : ∀ x, x ∉ names → p.runnable? x = none)
    (hbody : r.body.Each (·.Avoids names) (Stmt.Bare names)) (hfew : r.params.length ≤ 256)
    (honly : ∀ s id' name, z.typed s (.runnable id' name) → id' = id)
    (hdepth : 1 < z.config.maxCallDepth) {v : View} {args : Expr .arguments} {c : Phrase}
    {index : UInt8} (hsees : Spot.script.Sees v) (hargs : args.Codes p v c)
    (havoids : args.Avoids names) (hcount : args.length = r.params.length)
    (hx : p.constant? 0 index = some (.text r.name))
    (hlies : p.Lies 0 f line offset
      (.get .global index :: c.directives++[Directive.call index, .pop]))
    (hroom : Spot.script.Room z upper
      (1+max args.cells (args.length+max 1 (r.body.cells Stmt.performCells)))) :
    Yields (At p P z m₀ .script least offset upper) (r.call limit line args)
      (fun _ => At p P z m₀ .script least (offset+2+size c.directives+3) upper)
      (Breaks p m₀ limit) := by
  have hf := hlies.function
  obtain ⟨hlies, hlast⟩ := hlies.append
  obtain ⟨hget, hvalues⟩ := hlies.cons
  have hlast : p.Lies 0 f line (offset+2+size c.directives) [.call index, .pop] := by
    rw [Directive.size_cons, ← Nat.add_assoc] at hlast
    exact hlast
  have hcall := hlast.cons.1
  refine Yields.bind (RatScript.passes (q := .script) (w := Walk.global line r.name) hget
    (hget.drops_eq_false (by simp [Directive.get, Directive.access])) fun _ _ hm =>
      Exec.execute_get_global hm hf (hget.byte rfl) hx (hroom.mono (by omega))) fun d => ?_
  refine Yields.bind ((hargs.passes (q := .script) hsees (fun x h => hnames x (havoids x h)) hvalues
    (Spot.Room.above (hroom.mono ?_))).with_fact (Expr.length_of_eval args))
    fun (cs : List Content) => ?_
  · exact Nat.add_le_add_left (le_max_left _ _) 1
  · rintro σ ⟨hσ, hlength⟩
    rw [List.append_assoc] at hσ
    have hdrop : Yields (At p P z m₀ .script least (offset+2+size c.directives+2) (upper++[Content.none]))
        (Walk.visit line .none)
        (fun _ => At p P z m₀ .script least (offset+2+size c.directives+3) upper)
        (Breaks p m₀ limit) := drop_passes (q := .script) hlast rfl
    have henter : Yields (Reaches p m₀ least fun σ m => σ.locals = [] ∧ m.Shows p P z σ
          (upper++d :: cs) [⟨id, 0, upper.length⟩, ⟨0, offset+2+size c.directives+2, 0⟩])
        (r.enter limit cs)
        (fun _ => At p P z m₀ .script least (offset+2+size c.directives+2) (upper++[Content.none]))
        (Breaks p m₀ limit) := hr.enter_passes hnames hbody hfew (hlength.trans hcount) ?_
    · refine (Yields.bind ?_ fun _ => Yields.bind henter fun _ => hdrop) σ hσ
      refine (passes_to (q := .script) (w := Walk.runnable line r.name) hcall
        (hcall.drops_eq_false (by simp [Directive.call])) (fun _ => (Exec.lasts_shows _ _).with_store
          (·.locals = [])) ?_).mono (fun _ h => h) (fun _ _ h => h.fewer) fun _ _ h => h
      intro σ m hm
      refine (Exec.execute_call hm hf hx (hcall.byte rfl) honly hr.function
        (hr.arity.trans (hlength.trans hcount).symm) hdepth).mono ?_
      rintro _ σ' _ m' ⟨rfl, hm'⟩
      have hlocals : σ'.locals = [] := List.map_eq_nil_iff.mp hm.1
      have hcells : Spot.script.under++σ'.cells++upper = upper := by
        simp [Spot.script, Store.cells, hlocals]
      rw [hcells] at hm'
      exact ⟨hlocals, hm'⟩
    · have h : 0+0+upper.length+_ ≤ z.config.stackCapacity := hroom
      omega

end Routine.Written

/-! Statements of a script. -/

/-- Constants that the code of a function defines runnables with. -/
def Function.definitions (f : Function) : List UInt8 :=
  f.chunk.instructions.filterMap fun i => match i.operand with
    | .runnable index _ => some index
    | _ => none

theorem Function.definitions_eq {ds : List Directive} (h : f.chunk.code.toList = encode ds) :
    f.definitions = Directive.definitions ds := by
  rw [definitions, Chunk.instructions, Directive.decode_encode h]
  clear h
  generalize 0 = offset
  induction ds generalizing offset with
  | nil => rfl
  | cons d ds ih =>
    simp only [Directive.place, Directive.definitions, List.filterMap_cons, ih (offset+d.width)]
    rfl

/-- What is known of the runnable of a script, if it has one, and of the value it is bound to. -/
structure Cast (p : Program) (P : Array (Array Value)) (z : Setting) (f : Function)
    (routine : Option Routine) (value : Content) : Prop where
  names : ∀ x, x ∉ routine.toList.map (·.name) → p.runnable? x = none
  routine : ∀ r ∈ routine, ∃ id g, r.Written p id g ∧
    r.body.Each (·.Avoids (routine.toList.map (·.name))) (Stmt.Bare (routine.toList.map (·.name))) ∧
    r.params.length ≤ 256 ∧ Native.ofName? r.name = none ∧ p.runnable? r.name = some g ∧
    (∀ s id' name, z.typed s (.runnable id' name) → id' = id) ∧ 1 < z.config.maxCallDepth
  value : ∀ index ∈ f.definitions, ∀ id g, p.constant? 0 index = some (.runnable id) →
    p.function? id = some g → ∃ h, value = .runnable h id g.name ∧ Provides P z 0 index h id g.name

theorem declare_passes {s : Site} {x : String} {e : Option (Expr .operand)} {c : Phrase}
    {index : UInt8} (hnames : ∀ x, x ∉ names → p.runnable? x = none)
    (hv : Expr.ValueCodes p s.toView e c) (hx : p.constant? q.function index = some (.text x))
    (havoids : ∀ e' ∈ e, e'.Avoids names)
    (hplaced : Placed p q f s (c.directives++[Directive.define index])
      (s.notes (c.directives++[Directive.define index]))) {routine : Option Routine} {value : Content}
    (hroom : q.Room z upper (Stmt.enactCells routine (.declare x e))) :
    Yields (At p P z m₀ q least s.offset upper)
      (Stmt.enact routine value limit (1+s.read) (.declare x e))
      (fun _ => At p P z m₀ q least (s.offset+size c.directives+2) upper) (Breaks p m₀ limit) := by
  obtain ⟨hvalue, hlast⟩ := hplaced.lies.append
  have hf := hlast.function
  have hdefine (a : Content) : Yields (At p P z m₀ q least (s.offset+size c.directives) (upper++[a]))
      (Walk.define (1+s.read) x a)
      (fun _ => At p P z m₀ q least (s.offset+size c.directives+2) upper) (Breaks p m₀ limit) :=
    passes hlast (hlast.drops_eq_false (by simp [Directive.define])) fun _ _ hm =>
      Exec.execute_define hm hf hx (hlast.byte rfl)
  cases hv with
  | none =>
    have hput : Yields (At p P z m₀ q least s.offset upper) (pure .none : Walk Content)
        (fun a => At p P z m₀ q least (s.offset+1) (upper++[a])) (Breaks p m₀ limit) :=
      passes hvalue (hvalue.drops_eq_false (by simp [Directive.literal, Directive.plain]))
        fun _ _ hm => Exec.execute_literal hm none hroom
    exact (hdefine .none).mono (fun σ hσ => hput σ hσ) (fun _ _ h => h) fun _ _ h => h
  | some he =>
    exact Yields.bind (he.passes hplaced.sees (fun y hy => hnames y (havoids _ rfl y hy)) hvalue
      hroom) fun (a : Content) => hdefine a

theorem Function.mem_definitions {before after : List Directive} {index : UInt8} {lines : UInt16}
    (h : f.chunk.code.toList = encode (before++.defineRunnable index lines :: after)) :
    index ∈ f.definitions := by
  rw [definitions_eq h, Directive.definitions_append]
  exact List.mem_append_right _ List.mem_cons_self

/-- What a runnable's name is bound to when the script gets to its declaration. -/
theorem runnable_passes {routine : Option Routine} {value : Content} (hcast : Cast p P z f routine value)
    {s : Site} {name : String} {params : List String} {body : Stmt .block} {g : Function}
    {index : UInt8} {lines : UInt16} (hs : q.function = 0) (hg : p.functions[s.functions]? = some g)
    (hname : g.name = name) (hindex : p.constant? 0 index = some (.runnable s.functions))
    (hlies : p.Lies q.function f (1+s.read) s.offset [.defineRunnable index lines]) :
    Yields (At p P z m₀ q least s.offset upper)
      (Stmt.enact routine value limit (1+s.read) (.runnable name params body))
      (fun _ => At p P z m₀ q least (s.offset+4) upper) (Breaks p m₀ limit) := by
  obtain ⟨before, after, hcode, _⟩ := hlies.code
  obtain ⟨h, rfl, hprovides⟩ := hcast.value index
    (Function.mem_definitions (by simpa using hcode)) s.functions g hindex hg
  rw [← hs] at hprovides
  rw [hname] at hprovides ⊢
  have hbytes := hlies.holds
  simp only [Directive.bytes, Directive.defineRunnable, Operand.bytes, holds_cons] at hbytes
  exact passes (w := Walk.define (1+s.read) name (.runnable h s.functions name)) hlies
    (hlies.drops_eq_false (by simp [Directive.defineRunnable])) fun _ _ hm =>
    Exec.execute_defineRunnable hm hprovides hbytes.2.1 hbytes.2.2.1 hbytes.2.2.2.1

/-- An expression statement is performed, or it calls the runnable. -/
theorem enact_expression {routine : Option Routine} {e : Expr .operand}
    (hplain : Stmt.Plain (routine.toList.map (·.name)) (.expression e)) (value : Content)
    (limit row : Nat) :
    (∃ r ∈ routine, ∃ arguments, e = .head (.call r.name arguments) ∧
      arguments.Avoids (routine.toList.map (·.name)) ∧
      Stmt.enact routine value limit row (.expression e) = r.call limit row arguments ∧
      Stmt.enactCells routine (.expression e) =
        1+max arguments.cells (arguments.length+max 1 (r.body.cells Stmt.performCells))) ∨
    (Stmt.Bare (routine.toList.map (·.name)) (.expression e) ∧
      Stmt.enact routine value limit row (.expression e) = Stmt.perform row (.expression e) ∧
      Stmt.enactCells routine (.expression e) = Stmt.performCells (.expression e)) := by
  cases e with
  | join => exact .inr ⟨hplain, rfl, rfl⟩
  | head first =>
    cases first with
    | call x arguments =>
      cases hr : routine.filter (·.name = x) with
      | some r =>
        obtain ⟨hr', hname⟩ := Option.filter_eq_some_iff.mp hr
        obtain rfl : r.name = x := by simpa using hname
        exact .inl ⟨r, hr', arguments, rfl, hplain, by simp only [Stmt.enact, hr],
          by simp only [Stmt.enactCells, hr]⟩
      | none =>
        refine .inr ⟨?_, by simp only [Stmt.enact, hr], by simp only [Stmt.enactCells, hr]⟩
        intro y hy
        rcases List.mem_cons.mp hy with rfl | hy
        · simpa [Option.filter_eq_none_iff] using hr
        · exact hplain y hy
    | _ => exact .inr ⟨hplain, rfl, rfl⟩

/-- Statements of a script pass that are no blocks. -/
theorem enact_passes {routine : Option Routine} {value : Content}
    (hcast : Cast p P z f routine value) :
    LeavesPass p P z m₀ .script f limit (Stmt.enact routine value limit) (Stmt.enactCells routine)
      (Stmt.Plain (routine.toList.map (·.name))) := by
  intro t s s' c l upper least hplain hcodes hplaced hroom
  have hfunction : s.function = 0 := hplaced.sees.function
  cases hcodes with
  | @declare s x value c index hs hv hx =>
    have hend : (s.past (.seq c (.one (.define index)))).offset = s.offset+size c.directives+2 := by
      simp [Site.past, Site.forward, Phrase.directives, Nat.add_assoc]
      rfl
    rw [hs] at hx
    rw [hend]
    exact declare_passes hcast.names hv hx hplain hplaced hroom
  | declareLocal hs => exact absurd hfunction hs
  | @runnable s s' name params body c g index lines l hs hlater hf hname harity henclosing hbody hcode
      hlines hindex =>
    rw [hs] at hindex
    have hplaced : Placed p .script f s [.defineRunnable index lines]
        (s.notes [.defineRunnable index lines]) := ⟨hplaced.function, hplaced.code, fun n hn => hplaced.lines n (by simp [hn]),
        hplaced.sees⟩
    exact runnable_passes hcast rfl hf hname hindex hplaced.lies
  | @expression s e c he =>
    rcases enact_expression hplain value limit (1+s.read) with
      ⟨r, hr, arguments, rfl, havoids, hact, hcells⟩ | ⟨hbare, hact, hcells⟩
    · obtain ⟨id, g, hwritten, hbody, hfew, hnative, hcallee, honly, hdepth⟩ := hcast.routine r hr
      rw [hact]
      rw [hcells] at hroom
      cases he with
      | head he =>
        cases he with
        | callNative _ hfound => simp [hnative] at hfound
        | @call _ _ index callee d hx hfound hcount hargs =>
          rw [hcallee] at hfound
          cases hfound
          rw [hfunction] at hx
          have hlies : p.Lies 0 f (1+s.read) s.offset _ := hplaced.lies
          have hend : (s.past (.seq (.seq (.seq (.one (.get .global index)) d) (.one (.call index)))
              (.one .pop))).offset = s.offset+2+size d.directives+3 := by
            simp [Site.past, Site.forward, Phrase.directives, Nat.add_assoc]
            rfl
          rw [hend]
          exact hwritten.call_passes hcast.names hbody hfew honly hdepth hplaced.sees hargs havoids
            (hcount.trans hwritten.arity) hx (by simpa [Phrase.directives] using hlies) hroom
    · rw [hact]
      rw [hcells] at hroom
      exact perform_passes hcast.names _ _ _ _ _ _ _ hbare (.expression he) hplaced hroom
  | _ => exact hplain.elim

end RatScript
