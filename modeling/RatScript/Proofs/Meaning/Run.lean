import RatScript.Proofs.Meaning.Script
import RatScript.Proofs.Syntax.SourceLine
import RatScript.Proofs.Syntax.Unique

/-!
Runs of whole scripts. A text that compiles spells one script, and its program run on a new machine
does what the script means.
-/

namespace RatScript

open Stateful Machine
open Directive (size encode)

/-! What is known of a program by its script. -/

/-- The program is what a script was compiled to; its code ends at a site. -/
structure Script.Makes (t : Script) (p : Program) (s : Site) (c : Phrase) (l : List Note)
    (top : Function) : Prop extends p.Noted s c.directives l where
  codes : t.Codes p s c l
  first : p.function? 0 = some top
  isScript : top.isScript = true
  code : top.chunk.code.toList = encode c.directives
  declared : ∀ f ∈ p.functions.toList, ∀ id, .runnable id ∈ f.chunk.constants.toList →
    0 < id ∧ id < p.functions.size
  runnables : ∀ id f, 0 < id → p.function? id = some f →
    f.arity ≤ Compile.maxLocals ∧ Native.ofName? f.name = none

/-- The script that tokens spell is the one they are compiled from. -/
theorem compileTokens_makes {tokens : List Located} {p : Program} {t : Script}
    (h : compileTokens tokens = .ok p) (ht : t.Binds)
    (htokens : t.tokens = (tokens.takeWhile (·.token != .eof)).map (·.token)) :
    ∃ s c l top, t.Makes p s c l top := by
  obtain ⟨t', s, c, l, script, hbinds, htokens', hcodes, _, hfunctions, _, hscript, hfirst, hcode⟩ :=
    compileTokens_codes h
  obtain rfl := Script.unique ht hbinds (htokens.trans htokens'.symm)
  obtain ⟨b, _, hcovers, rfl⟩ := compileTokens_eq_ok h
  refine ⟨s, c, l, script, ⟨hcodes.account, hfunctions, script, hscript, ?_, hcode⟩, hcodes, hscript,
    hfirst, hcode, ?_, ?_⟩
  · simpa [Function.isScript] using hfirst
  · intro f hf id hid
    obtain ⟨n, hn⟩ := List.mem_iff_getElem?.mp hf
    exact hcovers.ready.declared n f (by simpa [Builder.program] using hn) id hid
  · intro id f hid hf
    have hfinished := hcovers.fresh id f hid hf
    exact ⟨hfinished.slots, hfinished.named⟩

namespace Script

variable {t : Script} {p : Program} {s : Site} {c : Phrase} {l : List Note} {top : Function}

theorem Makes.resolves (h : t.Makes p s c l top) : p.Resolves := by
  intro f hf k hk
  cases k with
  | runnable id =>
    have hlt := (h.declared f hf id hk).2
    simp [Program.Finds, Program.function?, hlt]
  | number | text => trivial

/-- Every runnable has a function behind the script. -/
theorem Makes.size_eq (h : t.Makes p s c l top) : p.functions.size = 1+t.routines.length := by
  rw [← h.complete]
  cases h.codes with
  | whole hlines =>
    rw [hlines.functions_routines rfl 1]
    simp [routines, Site.start]
  | @cut lines last s₁ _ _ _ _ _ hlines hlast =>
    rw [hlast.functions_routines hlines.function_eq (lines.breaks+1),
      hlines.functions_routines rfl 1]
    simp [routines, Site.start, Nat.add_assoc]

/-- The functions behind the script are those of its runnables, in order. -/
theorem Makes.written (h : t.Makes p s c l top) {r : Routine} {n : Nat} (hr : t.routines[n]? = some r) :
    ∃ g, r.Written p (n+1) g := by
  have hlines (n : Note) (hn : n ∈ l) := h.sourceLine_of_mem hn
  rw [Nat.add_comm]
  cases h.codes with
  | whole hcodes => exact hcodes.written rfl hlines (by simpa [routines, Site.start] using hr)
  | @cut lines last s₁ _ _ _ _ _ hcodes hlast =>
    rw [routines, List.getElem?_append] at hr
    split at hr
    · exact hcodes.written rfl (fun n hn => hlines n (by simp [hn])) hr
    · next hmore =>
      have hle : (lines.routines 1).length ≤ n := Nat.not_lt.mp hmore
      have hwritten := hlast.written hcodes.function_eq (fun n hn => hlines n (by simp [hn])) (by
        rw [hcodes.read_eq, show 1+(Site.start.read+lines.breaks) = lines.breaks+1 by
          simp [Site.start, Nat.add_comm]]
        exact hr)
      rwa [hcodes.functions_routines rfl 1, show Site.start.functions = 1 from rfl, Nat.add_assoc,
        Nat.add_sub_cancel' hle] at hwritten

/-- The only runnable of a script. -/
theorem Makes.only (h : t.Makes p s c l top) {r : Routine} (hr : t.routines = [r]) :
    ∃ g, r.Written p 1 g ∧ p.functions.toList = [top, g] := by
  have hsize : p.functions.size = 2 := by rw [h.size_eq, hr]; rfl
  obtain ⟨g, hwritten⟩ := h.written (r := r) (n := 0) (by simp [hr])
  refine ⟨g, hwritten, ?_⟩
  obtain ⟨f, g', hfunctions⟩ := List.length_eq_two.mp (p.functions.length_toList.trans hsize)
  have hfirst : p.functions.toList[0]? = some top := by
    simpa [Program.function?] using h.first
  have hsecond : p.functions.toList[1]? = some g := by
    simpa [Program.function?] using hwritten.function
  rw [hfunctions] at hfirst hsecond ⊢
  cases hfirst
  cases hsecond
  rfl

/-- What the declaration of the runnable binds its name to. -/
def value (t : Script) (h : Handle) : Content :=
  match t.routines with
  | r :: _ => .runnable h 1 r.name
  | [] => .none

end Script

/-! The run of a script. -/

variable {t : Script} {p : Program} {s : Site} {c : Phrase} {l : List Note} {top : Function}
  {m m₀ : Machine} {h : Handle}

/-- The constant that defines the only runnable is that runnable. -/
theorem Machine.Loaded.provides (hm : m.Loaded p m₀) {f g : Function} {index : UInt8} {id : Nat}
    (hf : p.function? 0 = some f) (hindex : p.constant? 0 index = some (.runnable id))
    (hg : p.function? id = some g) :
    ∃ h, Provides m₀.pools m₀.settled 0 index h id g.name := by
  have hfirst : p.functions[0]? = some f := hf
  have hconstant : f.chunk.constants[index.toNat]? = some (.runnable id) := by
    simpa [Program.constant?, Chunk.constant?, hfirst] using hindex
  obtain ⟨pool, hpool, hmatches⟩ := exists_getElem? hm.pools (i := 0) (by simpa using hfirst)
  obtain ⟨v, hv, hk⟩ := exists_getElem? hmatches (i := index.toNat) (by simpa using hconstant)
  obtain ⟨h, name, rfl, ho⟩ := hk
  rw [Array.getElem?_toList] at hpool hv
  have hname : name = g.name := by
    rcases hm.objects h _ ho with ⟨_, hnot⟩ | ⟨n, hn⟩ | ⟨f', hf', hname⟩
    · exact absurd rfl (hnot id name)
    · cases hn
    · rw [hg] at hf'
      cases hf'
      exact hname.symm
  refine ⟨h, by simp [hpool, hv], fun o htyped => ?_⟩
  have hpinned : .object h ∈ m₀.pools.toList.flatMap Array.toList :=
    List.mem_flatMap.mpr ⟨pool, Array.mem_toList_iff.mpr (Array.mem_of_getElem? hpool),
      Array.mem_toList_iff.mpr (Array.mem_of_getElem? hv)⟩
  have hobject := htyped.1 hpinned
  rw [ho, hname] at hobject
  exact (Option.some.inj hobject).symm

/-- Runnables are told by the constants of the program, of which none is the script. -/
theorem Script.Makes.later (ht : t.Makes p s c l top) (hm : m.Loaded p m₀) {r : Handle} {id : Nat}
    {name : String} (htyped : m₀.settled.typed r (.runnable id name)) :
    0 < id ∧ id < p.functions.size := by
  by_cases hr : .object r ∈ m₀.pools.toList.flatMap Array.toList
  · have ho := htyped.1 hr
    obtain ⟨f, hf, k, hk, hmatches⟩ := constant_of_pools hm.pools hr
    cases k with
    | number x => cases hmatches
    | text content =>
      obtain ⟨_, hs, ho'⟩ := hmatches
      cases hs
      rw [ho] at ho'
      cases ho'
    | runnable id' =>
      obtain ⟨_, _, hs, ho'⟩ := hmatches
      cases hs
      rw [ho] at ho'
      cases ho'
      exact ht.declared f hf id hk
  · exact absurd rfl (htyped.2 hr id name)

/-- There is at most one constant to define runnables with. -/
theorem Script.Makes.defines (ht : t.Makes p s c l top) :
    top.definitions.length = t.routines.length := by
  have hlength := congrArg List.length ht.account.defines
  rw [List.length_map, List.length_map, List.length_range', ht.complete, ht.size_eq] at hlength
  rw [Function.definitions_eq ht.code, hlength]
  simp [Site.start]

theorem Script.Makes.cast_none (ht : t.Makes p s c l top) (hroutines : t.routines = []) (P z value) :
    Cast p P z top t.routines.head? value := by
  have hdefines := ht.defines
  have hsize := ht.size_eq
  rw [hroutines] at hdefines hsize ⊢
  refine ⟨fun x _ => ?_, nofun, fun index hindex => ?_⟩
  · have hdrop : p.functions.toList.drop 1 = [] :=
      List.drop_eq_nil_of_le (by simp [hsize])
    simp [Program.runnable?, hdrop]
  · rw [List.length_eq_zero_iff.mp hdefines] at hindex
    cases hindex

theorem Script.Makes.cast_some (ht : t.Makes p s c l top) (hm : m.Loaded p m₀) {r : Routine}
    (hroutines : t.routines = [r])
    (hbody : r.body.Each (·.Avoids [r.name]) (Stmt.Bare [r.name]))
    (hdepth : 1 < m₀.config.maxCallDepth) :
    ∃ h, Cast p m₀.pools m₀.settled top t.routines.head? (t.value h) := by
  obtain ⟨g, hwritten, hfunctions⟩ := ht.only hroutines
  have hsize : p.functions.size = 2 := by rw [ht.size_eq, hroutines]; rfl
  have hdefines := ht.defines
  rw [hroutines] at hdefines
  obtain ⟨index, hindex⟩ := List.length_eq_one_iff.mp hdefines
  have hconstant := ht.account.defines
  rw [← Function.definitions_eq ht.code, hindex, ht.complete, hsize] at hconstant
  have hconstant : p.constant? 0 index = some (.runnable 1) := by simpa [Site.start] using hconstant
  obtain ⟨h, hprovides⟩ := hm.provides ht.first hconstant hwritten.function
  have hlimits := ht.runnables 1 g Nat.one_pos hwritten.function
  refine ⟨h, ?_⟩
  simp only [Script.value, hroutines, List.head?_cons]
  refine ⟨fun x hx => ?_, fun r' hr' => ?_, fun index' hindex' id' g' hid' hg' => ?_⟩
  · have hne : g.name ≠ x := by
      rw [hwritten.name]
      exact fun heq => hx (by simp [heq])
    simp [Program.runnable?, hfunctions, hne]
  · obtain rfl : r = r' := by simpa using hr'
    refine ⟨1, g, hwritten, hbody, ?_, ?_, ?_, fun _ id' name htyped => ?_, hdepth⟩
    · rw [← hwritten.arity]
      exact hlimits.1
    · rw [← hwritten.name]
      exact hlimits.2
    · simp [Program.runnable?, hfunctions, hwritten.name]
    · have hlater := ht.later hm htyped
      omega
  · rw [hindex] at hindex'
    obtain rfl := List.mem_singleton.mp hindex'
    rw [hconstant] at hid'
    cases hid'
    rw [hwritten.function] at hg'
    cases hg'
    exact ⟨h, by rw [hwritten.name], hprovides⟩

theorem Stmt.Each.routine {A : Expr .operand → Prop} {B : Stmt .statement → Prop} {k : StmtKind}
    {t : Stmt k} {row : Nat} {r : Routine} (h : t.Each A B) (hr : r ∈ t.routines row) :
    B (.runnable r.name r.params r.body) := by
  induction t generalizing row with
  | blank | expression | declare | return_ | nil => simp [routines] at hr
  | runnable =>
    obtain rfl := List.mem_singleton.mp hr
    exact h
  | if_ _ _ ih | while_ _ _ ih | repeat_ _ _ ih => exact ih h.2 hr
  | scope _ ih => exact ih h hr
  | ifElse _ _ _ ihyes ihno =>
    rcases List.mem_append.mp hr with hr | hr
    · exact ihyes h.2.1 hr
    · exact ihno h.2.2 hr
  | line _ _ ihfirst ihrest =>
    rcases List.mem_append.mp hr with hr | hr
    · exact ihfirst h.1 hr
    · exact ihrest h.2 hr

theorem Script.Plain.routine (ht : t.Plain) {r : Routine} (hr : r ∈ t.routines) :
    r.body.Each (·.Avoids (t.routines.map (·.name))) (Stmt.Bare (t.routines.map (·.name))) := by
  have hlast := ht.last
  rcases List.mem_append.mp hr with hr | hr
  · exact ht.lines.routine hr
  · cases hs : t.last with
    | none => simp [hs] at hr
    | some s =>
      rw [hs] at hr
      exact (hlast s hs).routine hr

theorem Script.Makes.cast (ht : t.Makes p s c l top) (hplain : t.Plain) (hm : m.Loaded p m₀)
    (hdepth : t.routines ≠ [] → 1 < m₀.config.maxCallDepth) :
    ∃ h, Cast p m₀.pools m₀.settled top t.routines.head? (t.value h) := by
  have hlength := hplain.routines
  cases hroutines : t.routines with
  | nil =>
    rw [← hroutines]
    exact ⟨default, ht.cast_none hroutines _ _ _⟩
  | cons r rest =>
    rw [hroutines] at hlength
    obtain rfl : rest = [] := List.length_eq_zero_iff.mp (by simpa using hlength)
    have hbody := hplain.routine (r := r) (by simp [hroutines])
    rw [hroutines] at hbody
    rw [← hroutines]
    exact ht.cast_some hm hroutines hbody (hdepth (by simp [hroutines]))

/-- The code of a script passes as the script is run. -/
theorem Script.Makes.passes {P : Array (Array Value)} {z : Setting} {value : Content}
    {least limit : Nat} (ht : t.Makes p s c l top) (hplain : t.Plain)
    (hcast : Cast p P z top t.routines.head? value) (hroom : t.cells ≤ z.config.stackCapacity) :
    Yields (At p P z m₀ .script least 0 []) (t.run value limit)
      (fun _ => At p P z m₀ .script least s.offset []) (Breaks p m₀ limit) := by
  have hnames : t.routines.head?.toList = t.routines := by
    have hlength := hplain.routines
    match t.routines, hlength with
    | [], _ => rfl
    | [r], _ => rfl
  have hleaves : LeavesPass p P z m₀ .script top limit (Stmt.enact t.routines.head? value limit)
      (Stmt.enactCells _) (Stmt.Plain _) := enact_passes hcast
  have hknown := hcast.names
  rw [hnames] at hleaves hknown
  have havoids (e : Expr .operand) (he : e.Avoids (t.routines.map (·.name))) (x : String)
      (hx : x ∈ e.calls) : p.runnable? x = none := hknown x (he x hx)
  have hroom : Spot.script.Room z [] t.cells := by
    change 0+0+0+t.cells ≤ _
    omega
  have hsees : Spot.script.Sees Site.start.toView :=
    ⟨rfl, fun _ => rfl, (absurd rfl ·), (absurd rfl ·), Nat.zero_le _⟩
  have hlines (n : Note) (hn : n ∈ l) := ht.sourceLine_of_mem hn
  have hcode := ht.code
  cases ht.codes with
  | whole hcodes =>
    have hplaced : Placed p .script top .start c.directives l :=
      ⟨ht.first, ⟨[], [], by simpa using hcode, rfl⟩, hlines, hsees⟩
    exact Yields.bind (hcodes.passes hleaves havoids (absurd rfl ·) hplain.lines hplaced
      (hroom.mono (le_max_left _ _))) fun _ => Yields.pure fun _ h => h
  | @cut lines last s₁ _ c d l l' hcodes hlast =>
    have hlocals : s₁.locals = Site.start.locals := hcodes.locals_eq hplain.lines (absurd rfl ·)
    have hsees' : Spot.script.Sees s₁.toView := hsees.site hcodes.function_eq hlocals
    have hplaced : Placed p .script top .start (c.directives++d.directives) (l++l') :=
      ⟨ht.first, ⟨[], [], by simpa [Phrase.directives] using hcode, rfl⟩, hlines, hsees⟩
    obtain ⟨hfirst, hrest⟩ := hplaced.append s₁ hcodes.offset_eq hsees'
    have hread : s₁.read = lines.breaks := hcodes.read_eq.trans (Nat.zero_add _)
    refine Yields.bind (hcodes.passes hleaves havoids (absurd rfl ·) hplain.lines hfirst
      (hroom.mono (le_max_left _ _))) fun _ => ?_
    rw [← hread, Nat.add_comm]
    exact hlast.passes hleaves havoids (absurd rfl ·) (hplain.last last rfl) hrest
      (hroom.mono (le_max_right _ _))

/-! A new machine. -/

/-- Where a native is on a machine that was new when it was bound. -/
def Native.handle (n : Native) : Handle := ⟨n.id, 0⟩

/-- What a script starts with: natives, and the world. -/
def Store.start (world : World) : Store where
  globals x := (Native.ofName? x).map fun n => .native n.handle n
  locals := []
  input := world.input
  output := world.output
  files := world.files
  visited := []

theorem Exec.bindNatives_new (config : Config) (world : World) :
    (match bindNatives (new config world) with
      | .ok _ m => some m.globals.bindings
      | .error _ _ => none) =
        some (Native.all.map fun n => (n.name, Value.object n.handle)).reverse := by
  cbv

theorem Exec.load_bindings {config : Config} {world : World}
    (hload : Exec.load p (new config world) = .ok () m) :
    m.globals.bindings = (Native.all.map fun n => (n.name, Value.object n.handle)).reverse := by
  have hreset : reset (new config world) = .ok () (new config world) := by rfl
  have hnatives := bindNatives_new config world
  simp only [load, bind, EStateM.bind, hreset] at hload
  split at hload
  · next u m₁ hbind =>
    rw [hbind] at hnatives
    split at hload
    · next u m₂ hconstants =>
      cases hload
      have hglobals : SameGlobals m₁ m₂ :=
        (loadConstants_keeps (R := SameGlobals) (fun _ _ => rfl) _).of_ok hconstants
      exact (congrArg Globals.bindings hglobals).trans (Option.some.inj hnatives)
    · cases hload
  · cases hload

/-- The globals of a new machine are the natives. -/
theorem Machine.Loaded.start {config : Config} {world : World}
    (hm : (new config world).Loaded p m) (hload : Exec.load p (new config world) = .ok () m) :
    m.Presents (.start world) := by
  have hworld := hm.world
  refine ⟨fun x => ?_, by rw [hworld]; rfl, by rw [hworld]; rfl, by rw [hworld]; rfl⟩
  have hbindings := Exec.load_bindings hload
  cases hx : Native.ofName? x with
  | none =>
    have hnone : m.globals.get? x = none := by
      rw [Globals.get?, List.lookup_eq_none_iff, hbindings]
      intro b hb
      obtain ⟨n, hn, rfl⟩ := List.mem_map.mp (List.mem_reverse.mp hb)
      have hne : ¬ n.name == x := List.find?_eq_none.mp hx n hn
      simpa using fun heq : x = n.name => hne (by simp [heq])
    simp [Store.start, hx, hnone]
  | some n =>
    obtain rfl : n.name = x := by simpa using List.find?_some hx
    obtain ⟨r, hr, ho⟩ := (hm.natives rfl).1 n
    have hhandle : m.globals.get? n.name = some (.object n.handle) := by
      rw [Globals.get?, hbindings]
      cases n <;> rfl
    rw [hr] at hhandle
    cases hhandle
    simp [Store.start, hx, hr, Heap.content?, ho, Content.ofObject]

namespace Machine

/-- Expression statements of a program that end in at most so many turns, in order. -/
def performed (p : Program) (turns : Nat) (m : Machine) : List (Nat × Content) :=
  match Exec.load p m with
  | .ok () m => m.statements p turns
  | .error _ _ => []

/-- A loaded script is at its start, with what the machine shows. -/
theorem Loaded.shown {start : Machine} {σ : Store} (hm : start.Loaded p m) (hpresents : m.Presents σ) (hlocals : σ.locals = [])
    (htraced : m.config.trace = true → m.world.diagnostics.limit = none) :
    Spot.script.Shown p m.pools m.settled 0 [] σ m := by
  refine ⟨by rw [hlocals]; rfl, hpresents, hm.counted_settled, ?_, nofun, nofun, rfl, hm.pools,
    hm.frames, htraced⟩
  simp [hm.stack, Spot.script, Store.cells, hlocals]

/-- A loaded script is at its start. -/
theorem Loaded.at_start {config : Config} {world : World} (hm : (new config world).Loaded p m)
    (hload : Exec.load p (new config world) = .ok () m)
    (htrace : config.trace = true → world.diagnostics.limit = none) :
    At p m.pools m.settled m .script 0 0 [] (.start world) := by
  refine ⟨0, m, Nat.le_refl 0, rfl, rfl, hm.shown (hm.start hload) rfl ?_⟩
  rw [hm.world, show m.config = config from hm.counted.config]
  exact htrace

/-- The end of the script is noticed. -/
theorem finish {P : Array (Array Value)} {z : Setting} {σ : Store} {least offset : Nat}
    (hσ : At p P z m₀ .script least offset [] σ) (hf : p.function? 0 = some top)
    (hscript : top.isScript = true) (hoffset : offset = top.chunk.code.size) :
    ∃ n m, m₀.runFor p n = (.finished, m) ∧ m₀.statements p n = σ.visited ∧ m.Presents σ := by
  obtain ⟨n, m, _, hrun, hstatements, hlocals, hm⟩ := hσ
  have hlocals : σ.locals = [] := List.map_eq_nil_iff.mp hlocals
  have hstack : m.stack = #[] := by
    simpa [Spot.script, Store.cells, hlocals] using hm.stack
  have hnone : m.statement? p = none := by
    simp [statement?, hstack]
  have hadvance : m.advance p = (.finished, m) := by
    unfold advance
    simp only [hm.frames, Spot.script, hf, hscript, if_pos (Nat.le_of_eq hoffset.symm), if_true]
  obtain ⟨hrun', hstatements'⟩ := runFor_add_one hrun
  refine ⟨n+1, m, hrun'.trans hadvance, ?_, hm.toPresents⟩
  rw [hstatements', hnone, hstatements, Option.toList_none, List.append_nil]

end Machine

/-- A text spells the script, whose expressions are grouped by binding strength. -/
structure Script.Spells (t : Script) (source : String) : Prop where
  binds : t.Binds
  tokens : ∃ tokens, scanCode source = .ok tokens ∧
    t.tokens = (tokens.takeWhile (·.token != .eof)).map (·.token)

theorem Script.Spells.makes {source : String} (ht : t.Spells source) (h : compile source = .ok p) :
    ∃ s c l top, t.Makes p s c l top := by
  obtain ⟨tokens, hscan, htokens⟩ := ht.tokens
  unfold compile at h
  rw [hscan] at h
  exact compileTokens_makes h ht.binds htokens

/-- A script of expressions, declarations and blocks nested in any way, with at most one runnable
that is called in statements of their own, does on a new machine what it means. Where its walk comes
to an end, the program finishes, after the same expression statements with the same values, with the
same world and globals of the same contents; where it fails, the program fails with the same fault on
the same line. Where it is not through in so many passes of a loop, the program still runs after as
many turns. A `repeat` makes as many passes as its count says, which is a whole number from 1 to 2^24;
any other count is a fault of its own. -/
theorem runs_as_written (source : String) (p : Program) (t : Script) (config : Config) (world : World)
    (h : compile source = .ok p) (ht : t.Spells source) (hplain : t.Plain)
    (hroom : t.cells ≤ config.stackCapacity) (hdepth : t.routines ≠ [] → 1 < config.maxCallDepth)
    (htrace : config.trace = true → world.diagnostics.limit = none) :
    (∀ (a : Content) (n : Nat),
      a.passes = .ok n ↔ 0 < n ∧ n ≤ 2^24 ∧ ∃ x : Number, a = .number x ∧ x.Counts n) ∧
    (∀ (a : Content) (f : Fault), a.passes = .error f → f.kind = .typeError) ∧
    ∃ handle : Handle, ∀ limit : Nat,
      match t.run (t.value handle) limit (.start world) with
      | .ok () σ => ∃ n m, (new config world).interpret p n = (.finished, m) ∧
          (new config world).performed p n = σ.visited ∧ m.Presents σ
      | .error (.failed f) σ => ∃ n m, (new config world).interpret p n = (.failed f, m) ∧
          (new config world).performed p n = σ.visited ∧ m.Presents σ
      | .error .tired σ => ∃ n m, limit ≤ n ∧ (new config world).interpret p n = (.running, m) ∧
          (new config world).performed p n = σ.visited ∧ m.Presents σ := by
  obtain ⟨s, c, l, top, hmakes⟩ := ht.makes h
  obtain ⟨m₀, hload, hm₀⟩ := load_ok hmakes.resolves (counted_new config world) fun _ => rfl
  have hconfig : m₀.config = config := hm₀.counted.config
  obtain ⟨handle, hcast⟩ := hmakes.cast hplain hm₀ (hconfig ▸ hdepth)
  refine ⟨fun _ _ => Content.passes_eq_ok, fun _ _ => Content.kind_of_passes, handle, fun limit => ?_⟩
  have hcells : t.cells ≤ m₀.settled.config.stackCapacity := by
    rw [show m₀.settled.config = m₀.config from rfl, hconfig]
    exact hroom
  have hpasses : Yields (At p m₀.pools m₀.settled m₀ .script 0 0 []) (t.run (t.value handle) limit)
      (fun _ => At p m₀.pools m₀.settled m₀ .script 0 s.offset []) (Breaks p m₀ limit) :=
    hmakes.passes hplain hcast hcells
  replace hpasses := hpasses (.start world) (hm₀.at_start hload htrace)
  have hperformed (n : Nat) : (new config world).performed p n = m₀.statements p n := by
    simp only [performed, hload]
  have hinterpret {n : Nat} {o : Outcome} {m : Machine} (hrun : m₀.runFor p n = (o, m))
      (ho : o ≠ .finished) : (new config world).interpret p n = (o, m) := by
    simp only [interpret, hload, hrun]
    cases o with
    | finished => exact absurd rfl ho
    | running | failed => rfl
  cases hw : t.run (t.value handle) limit (.start world) with
  | ok u σ =>
    rw [hw] at hpasses
    have hoffset : s.offset = top.chunk.code.size := by
      rw [← Array.length_toList, hmakes.code, Directive.length_encode, hmakes.account.offset]
      simp [Site.start]
    obtain ⟨n, m, hrun, hstatements, hm⟩ := finish hpasses hmakes.first hmakes.isScript hoffset
    refine ⟨n, {m with frames := []}, ?_, (hperformed n).trans hstatements,
      ⟨hm.globals, hm.input, hm.output, hm.files⟩⟩
    simp only [interpret, hload, hrun]
  | error e σ =>
    rw [hw] at hpasses
    cases e with
    | failed f =>
      obtain ⟨n, m, hrun, hstatements, hm⟩ := hpasses
      exact ⟨n, m, hinterpret hrun (by simp), (hperformed n).trans hstatements, hm⟩
    | tired =>
      obtain ⟨n, m, hn, hrun, hstatements, hm⟩ := hpasses
      exact ⟨n, m, hn, hinterpret hrun (by simp), (hperformed n).trans hstatements, hm⟩

/-- A runnable whose body is blocks in blocks, called once. -/
def echoing : String :=
  "runnable f(x):\nwhile x:\nif x:\nx\nx = false\nelse:\nrepeat 2:\nx\nendrepeat\nendif\nendwhile\n"++
    "endrunnable\nrat n = true\nf(n)\n"

def echo : Routine where
  name := "f"
  params := ["x"]
  body := .line (.while_ (.head (.name "x")) (.scope (.line
    (.ifElse (.head (.name "x"))
      (.scope (.line (.expression (.head (.name "x"))) (.line
        (.expression (.head (.assign "x" none (.head (.literal (some false)))))) .nil)))
      (.scope (.line (.repeat_ (.head (.number "2"))
        (.scope (.line (.expression (.head (.name "x"))) .nil))) .nil)))
    .nil))) .nil
  row := 2

def echoes : Script where
  lines :=
    .line (.runnable echo.name echo.params echo.body) <|
    .line (.declare "n" (some (.head (.literal (some true))))) <|
    .line (.expression (.head (.call "f" (.cons (.head (.name "n")) .nil)))) .nil
  last := none

theorem echoes_spells : echoes.Spells echoing := by
  have htokens : (scanCode echoing).toOption.map
      (fun tokens => (tokens.takeWhile (·.token != .eof)).map (·.token)) = some echoes.tokens := by
    decide +kernel
  obtain ⟨tokens, hscan, htokens⟩ := Option.map_eq_some_iff.mp htokens
  refine ⟨⟨?_, nofun⟩, tokens, ?_, htokens.symm⟩
  · intro e he
    fin_cases he <;> constructor <;> simp [Expr.Fits, Expr.Grouped]
  · cases h : scanCode echoing with
    | error e => simp [h, Except.toOption] at hscan
    | ok ts => simpa [h, Except.toOption] using hscan

theorem echoes_run (h : Handle) :
    (match echoes.run (echoes.value h) 2 (.start quiet) with
      | .ok _ σ => some (σ.visited.map Prod.fst)
      | .error _ _ => none) = some [4, 5, 14] := by
  cbv

theorem echoes_plain : echoes.Plain := by
  refine ⟨by decide, ?_, nofun⟩
  simp [echoes, echo, Stmt.Each, Script.routines, Stmt.routines, Stmt.Plain, Stmt.Bare, Expr.Avoids,
    Expr.calls]

/-- The runnable's two expressions and its call are evaluated. -/
theorem runs_as_written_echoing :
    ∃ p n m, compile echoing = .ok p ∧ (new {} quiet).interpret p n = (.finished, m) ∧
      ((new {} quiet).performed p n).map Prod.fst = [4, 5, 14] := by
  have hcells : echoes.cells = 4 := by cbv
  have hcompiles : (compile echoing).toOption.isSome = true := by decide +kernel
  cases hp : compile echoing with
  | error ds => simp [hp, Except.toOption] at hcompiles
  | ok p =>
    obtain ⟨_, _, h, hruns⟩ := runs_as_written echoing p echoes {} quiet hp echoes_spells
      echoes_plain (hcells ▸ by decide) (fun _ => by decide) (by decide)
    have hrun := echoes_run h
    have hruns := hruns 2
    split at hrun
    · next u σ hσ =>
      rw [hσ] at hruns
      obtain ⟨n, m, hfinished, hperformed, _⟩ := hruns
      exact ⟨p, n, m, rfl, hfinished, by rw [hperformed]; exact Option.some.inj hrun⟩
    · cases hrun
end RatScript
