import RatScript.Proofs.Compile.Distinct
import RatScript.Proofs.Machine.Callees
import RatScript.Proofs.Machine.Legacy
import RatScript.Proofs.Meaning.Lexical
import RatScript.Proofs.Syntax.Callees

/-!
Calls of runnables. A call is compiled for the runnable that is declared under a name, but enters what
the name is bound to when it is made. The two are the same unless a variable or an assignment gives the
name of a runnable to another one.
-/

namespace RatScript

open Machine

namespace Script.Makes

variable {t : Script} {p : Program} {s : Site} {c : Phrase} {l : List Note} {top : Function}

/-- All functions of a program that compiles have tags. -/
theorem marked (h : t.Makes p s c l top) : ∃ marks, Marked p marks := by
  have htagged (id : Nat) : ∃ xs, ∀ f, p.function? id = some f → f.Tagged p xs := by
    cases hf : p.function? id with
    | none => exact ⟨[], nofun⟩
    | some f =>
      suffices hone : ∃ xs, f.Tagged p xs by
        obtain ⟨xs, hxs⟩ := hone
        exact ⟨xs, fun g hg => Option.some.inj hg ▸ hxs⟩
      cases id with
      | zero =>
        have hcode := h.code
        rw [h.first] at hf
        cases hf
        exact h.codes.tagged h.first hcode
      | succ n =>
        have hlt : n+1 < p.functions.size := (Array.getElem?_eq_some_iff.mp hf).1
        rw [h.size_eq] at hlt
        obtain ⟨g, hwritten⟩ := h.written (List.getElem?_eq_getElem (by omega) : t.routines[n]? = some _)
        cases hwritten.function.symm.trans hf
        exact hwritten.tagged
  choose marks hmarks using htagged
  exact ⟨marks, hmarks⟩

end Script.Makes

/-- A call in the next turn enters a runnable at a base. -/
structure Machine.Enters (p : Program) (m : Machine) (name : String) (callee : Function) (base : Nat) :
    Prop where
  /-- It is the one that the call was compiled for. -/
  compiled : p.runnable? name = some callee
  /-- It is in the cell at the base itself. -/
  held : ∃ v, m.globals.get? name = some v ∧ m.stack[base]? = some v
  /-- Its arguments are all that is above. -/
  arguments : m.stack.size = base+1+callee.arity
  /-- The cells of the callers are below. -/
  above : Program.floor m.frames ≤ base
  runs : ∀ m', m.advance p = (.running, m') → m'.stack = m.stack ∧
    ∃ fr ∈ m'.frames.head?, p.function? fr.function = some callee ∧ fr.ip = 0 ∧ fr.base = base
  /-- The turn does not fail for want of a value, a frame, a constant or a byte of code. -/
  fails : ∀ failure m', m.advance p = (.failed failure, m') → failure.fault.isStructural = false

namespace Machine

variable {p : Program} {z : Setting} {pools : Array (Array Value)} {m m' : Machine} {x : String}

/-- When a program begins no name is bound to a runnable. -/
theorem Loaded.not_titles (h : m.Loaded p m') {v : Value} (hv : m'.globals.get? x = some v) (y : String) :
    ¬ m'.settled.Titles v y := by
  rintro ⟨r, id, rfl, htyped⟩
  by_cases hpool : .object r ∈ m'.pools.toList.flatMap Array.toList
  · exact h.unrunnable r id y (List.mem_map_of_mem (Globals.mem_bindings hv)) (htyped.1 hpool)
  · exact htyped.2 hpool id y rfl

/-- The call that the next turn makes. -/
theorem stop_of_nextCall? (hm : m.Obeys z p pools) (h : m.nextCall? p = some x) :
    ∃ fr rest f i height next index, m.frames = fr :: rest ∧ p.function? fr.function = some f ∧
      i ∈ f.chunk.instructions ∧ p.Stop fr.function f fr.ip height i next ∧
      m.stack.size = Program.floor (fr :: rest)+height ∧ i.op = .call ∧ i.operand = .constant index ∧
      f.chunk.constant? index = some (.text x) := by
  obtain ⟨hm, hfits⟩ := hm
  cases hframes : m.frames with
  | nil => simp [nextCall?, hframes] at h
  | cons fr rest =>
    rw [hframes] at hfits
    obtain ⟨f, hf⟩ := Program.function?_of_fits hfits
    obtain ⟨height, hmeets, htop⟩ | ⟨_, hend⟩ := Program.meets_of_fits hfits hf
    · obtain ⟨i, next, hstop⟩ := Program.stop_of_meets hf hmeets
      obtain ⟨byte, hbyte, hdecode⟩ := hstop.byte
      simp only [nextCall?, hframes, List.head?_cons, hf, hbyte, hdecode, Option.bind_eq_bind,
        Option.bind_some] at h
      split at h
      · next index heq =>
        cases heq
        refine ⟨fr, rest, f, _, height, next, index, rfl, hf, hstop.mem hf hmeets, hstop, htop, rfl, rfl, ?_⟩
        unfold Function.identifier? at h
        split at h
        · next hconstant =>
          cases h
          exact hconstant
        · cases h
      · cases h
    · simp [nextCall?, hframes, hf, hend] at h

namespace Trail

variable {turns : Nat} {run : Nat → Machine} (ht : Trail p z pools turns run)
include ht

/-- What a call finds was there all the time that its arguments took. -/
theorem enters {marks : Nat → Tagging} (hmarked : Marked p marks) (hcharged : (run turns).Charged p)
    (hname : (run turns).nextCall? p = some x) {callee : Function}
    (hcallee : (run turns).callee? p x = some callee) (hx : p.runnable? x = some callee) {v : Value}
    (hv : (run turns).globals.get? x = some v)
    (hbefore : ∀ k ≤ turns, (run k).globals.get? x = none ∨ (run k).globals.get? x = some v) :
    ∃ base, (run turns).Enters p x callee base := by
  have hm := ht.obeys turns (Nat.le_refl turns)
  obtain ⟨fr, rest, f, i, height, next, index, hframes, hf, hi, hstop, hsize, hop, hoperand, hconstant⟩ :=
    stop_of_nextCall? hm hname
  obtain ⟨base, hcell, harguments, hfloor⟩ := ht.callee_cell hmarked (Nat.le_refl turns)
    (fun k hk w hw => by simpa [hw] using hbefore k (Nat.le_of_lt hk)) hframes hf hi hstop hsize
    hop hoperand hconstant hx
  refine ⟨base, hx, ⟨v, hv, hcell⟩, harguments, hframes ▸ hfloor, fun m' hm' => ?_,
    fun failure m' hm' => ?_⟩
  · obtain ⟨function, hfunction, hto, hstack⟩ :=
      advance_enters hframes hf hstop hoperand hconstant hop hcallee hm'
    have hbase : (run turns).stack.size-(callee.arity+1) = base := by omega
    rw [hbase] at hto
    exact ⟨hstack, ⟨function, 0, base⟩, by rw [hto]; rfl, hfunction, rfl, rfl⟩
  · have hupholds := advance_upholds ht.loads ht.verified hm hcharged
    rw [hm'] at hupholds
    exact hupholds

variable (hfirm : z.Firm)
  (hstart : ∀ x v, (run 0).globals.get? x = some v → ∀ y, ¬ z.Titles v y)
  (hnot : ∀ k < turns, ¬ (run k).Renames p)
include hfirm hstart hnot

/-- The name of a runnable is bound to no other runnable, and was bound to no other value before. -/
theorem bound (hx : (p.runnable? x).isSome) {v : Value} (hv : (run turns).globals.get? x = some v)
    {y : String} (hy : z.Titles v y) :
    y = x ∧ ∀ k ≤ turns, (run k).globals.get? x = none ∨ (run k).globals.get? x = some v :=
  bound_before (fun k hk => advance_rebinds ht.loads hfirm (ht.obeys k (Nat.le_of_lt hk)).1.1 (hnot k hk) hx
    (ht.advance k hk)) (hstart x) hv hy

/-- A call enters the runnable that it was compiled for. -/
theorem compiled (hnamed : ∀ r id name, (run turns).heap.object? r = some (.runnable id name) →
      ∃ f, p.function? id = some f ∧ f.name = name)
    (hapart : ((p.functions.toList.drop 1).map (·.name)).Nodup)
    (hname : (run turns).nextCall? p = some x) {callee : Function}
    (hcallee : (run turns).callee? p x = some callee) :
    p.runnable? x = some callee ∧ ∃ v, (run turns).globals.get? x = some v ∧
      ∀ k ≤ turns, (run k).globals.get? x = none ∨ (run k).globals.get? x = some v := by
  have hm := ht.obeys turns (Nat.le_refl turns)
  obtain ⟨fr, rest, f, i, height, next, index, _, _, _, hstop, _, hop, hoperand, hconstant⟩ :=
    stop_of_nextCall? hm hname
  have hx : (p.runnable? x).isSome := by
    obtain ⟨index', name, charged, _, hoperand', hidentifier, hcharged, _⟩ := Exec.call_stop hstop hop
    cases hoperand.symm.trans hoperand'
    obtain rfl : x = name := by simpa [Function.identifier?, hconstant] using hidentifier
    simp [hcharged]
  obtain ⟨v, id, y, hv, hobject, hfunction⟩ := callee?_eq_some hcallee
  obtain ⟨rfl, hbefore⟩ := ht.bound hfirm hstart hnot hx hv (titles_of_object hm.1.1 hobject)
  refine ⟨?_, v, hv, hbefore⟩
  obtain ⟨r, l, rfl, hl, ho⟩ := Exec.live_of_object hobject
  obtain ⟨g, hg, hname⟩ := hnamed r id y (by simp [Heap.object?, hl, ho])
  rw [hfunction] at hg
  cases hg
  have hlater : 0 < id := by
    refine Nat.pos_of_ne_zero fun hzero => ?_
    have hfree := hm.1.2.globals _ (List.mem_map_of_mem (Globals.mem_bindings hv)) r y rfl
    exact hfree (hzero ▸ ho ▸ hm.1.1.typed r l hl)
  rw [← hname]
  exact Program.runnable?_eq_some hapart hfunction hlater

end Trail

/-- Arities that were checked by the compiler hold in every run in which no variable or assignment gives
the name of a runnable to another one: whenever a call finds a runnable under its name, it is the one
that the call was compiled for, and it is on the stack right below the arguments for it. -/
theorem calls_enter_compiled (source : String) (p : Program) (h : compile source = .ok p) (config : Config)
    (world : World) (turns : Nat) (m : Machine)
    (hnot : ∀ k < turns, ∀ m, (new config world).interpret p k = (.running, m) → ¬ m.Renames p)
    (hm : (new config world).interpret p turns = (.running, m)) :
    ∀ name ∈ m.nextCall? p, ∀ callee ∈ m.callee? p name, ∃ base, m.Enters p name callee base := by
  obtain ⟨t, s, c, l, top, _, _, hmakes, hverify, harity⟩ := compile_makes h
  obtain ⟨marks, hmarked⟩ := hmakes.marked
  have hscript (top' : Function) (hfirst : p.function? 0 = some top') : top'.arity = 0 := by
    rw [hmakes.first] at hfirst
    cases hfirst
    exact harity
  have hwaits := waits_new config world
  generalize new config world = start at hnot hm hwaits
  obtain ⟨loaded, hload, hloaded⟩ := hwaits.loads hmakes.resolves
  have hloads := settled_loads hmakes.resolves hloaded.pools
  let run := fun k => (start.interpret p k).2
  have hrun {k : Nat} (hk : k ≤ turns) : start.interpret p k = (.running, run k) := by
    obtain ⟨m₁, hm₁⟩ := runFor_of_le hk ((interpret_eq_running hload).mp hm)
    have hturns := (interpret_eq_running hload).mpr hm₁
    rw [hturns, show run k = m₁ by simp only [run, hturns]]
  have hbare (x : String) (v : Value) (hv : (run 0).globals.get? x = some v) (y : String) :
      ¬ loaded.settled.Titles v y := by
    rw [show run 0 = loaded by simp [run, interpret, hload, runFor]] at hv
    exact hloaded.not_titles hv y
  have hcompiled {i : Nat} (hi : i ≤ turns) (ht : Trail p loaded.settled loaded.pools i run)
      {name : String} (hname : (run i).nextCall? p = some name) {callee : Function}
      (hcallee : (run i).callee? p name = some callee) :=
    ht.compiled (settled_firm loaded) hbare (fun k hk => hnot k (by omega) _ (hrun (by omega)))
      (fun r id name => hwaits.interpret_runnables hmakes.resolves) (compile_apart h) hname hcallee
  have hcharged {i : Nat} (hi : i ≤ turns) (ht : Trail p loaded.settled loaded.pools i run) :
      (run i).Charged p := fun name hname callee hcallee => by
    rw [(hcompiled hi ht hname hcallee).1]
    rfl
  -- the arity is right in each turn, since the names were bound as they should in the turns before
  have htrail (i : Nat) (hi : i ≤ turns) : Trail p loaded.settled loaded.pools i run := by
    induction i with
    | zero =>
      exact trail_of_load hload hloads hloaded.poised hverify hscript (fun k hk => by omega) (hrun hi)
    | succ i ih =>
      have ht := ih (by omega)
      refine trail_of_load hload hloads hloaded.poised hverify hscript (fun k hk m₁ hm₁ => ?_) (hrun hi)
      obtain rfl : run k = m₁ := congrArg Prod.snd hm₁
      by_cases hlast : k = i
      · exact hlast ▸ hcharged (by omega) ht
      · exact ht.charged k (by omega)
  obtain rfl : run turns = m := congrArg Prod.snd hm
  intro name hname callee hcallee
  have ht := htrail turns (Nat.le_refl turns)
  obtain ⟨hrunnable, v, hv, hbefore⟩ := hcompiled (Nat.le_refl turns) ht hname hcallee
  exact ht.enters hmarked (hcharged (Nat.le_refl turns) ht) hname hcallee hrunnable hv hbefore

/-- A call among the arguments of another one, over a cell that waits. -/
def nested : String :=
  "runnable f(x):\nreturn x\nendrunnable\nrunnable g(a, b):\nreturn a+b\nendrunnable\nprint(1+g(f(2), 3))\n"

theorem nested_run : (compile nested).toOption.map (fun p =>
    let run := (new {} quiet).interpret p
    (decide (∀ k : Nat, k < 14 → ¬ (run k).2.Renames p), (run 14).1, (run 14).2.stack.size,
      (run 14).2.nextCall? p, ((run 14).2.callee? p "g").map Function.arity)) =
    some (true, .running, 5, some "g", some 2) := by
  decide +kernel

/-- Below what is called there are the native and its first operand. -/
theorem calls_enter_compiled_nested :
    ∃ p m callee, compile nested = .ok p ∧ (new {} quiet).interpret p 14 = (.running, m) ∧
      m.nextCall? p = some "g" ∧ m.callee? p "g" = some callee ∧ m.Enters p "g" callee 2 := by
  have hrun := nested_run
  cases hp : compile nested with
  | error ds => simp [hp, Except.toOption] at hrun
  | ok p =>
    simp only [hp, Except.toOption, Option.map_some, Option.some.injEq, Prod.mk.injEq,
      decide_eq_true_eq] at hrun
    obtain ⟨hnot, hrunning, hsize, hname, hcallee⟩ := hrun
    obtain ⟨callee, hcallee, harity⟩ := Option.map_eq_some_iff.mp hcallee
    have henters := calls_enter_compiled nested p hp {} quiet 14
    generalize new {} quiet = start at hnot hrunning hsize hname hcallee henters ⊢
    obtain ⟨base, hbase⟩ := henters (start.interpret p 14).2
      (fun k hk m hm => by simpa only [hm] using hnot k hk) (Prod.ext hrunning rfl) "g" hname callee hcallee
    obtain rfl : base = 2 := by
      have harguments := hbase.arguments
      omega
    exact ⟨p, _, callee, rfl, Prod.ext hrunning rfl, hname, hcallee, hbase⟩

/-- A variable that is bound to one runnable has the name of another one, which is declared where the
script never comes. -/
def misnaming : String :=
  "runnable f(x):\nendrunnable\nrat g = f\nif false:\nrunnable g():\nendrunnable\nendif\ng()\n"

theorem misnaming_run : (compile misnaming).toOption.map (fun p =>
    let run := (new {} quiet).interpret p
    ((run 11).1, (run 11).2.nextCall? p, (p.runnable? "g").map Function.arity,
      ((run 11).2.callee? p "g").map Function.arity, (run 12).1)) =
    some (.running, some "g", some 0, some 1, .failed ⟨.stackUnderflow, 8⟩) := by
  decide +kernel

/-- Then a call is compiled without arguments, finds a runnable that has one, and starves. -/
theorem misnaming_starves :
    ∃ p m charged callee, compile misnaming = .ok p ∧ (new {} quiet).interpret p 11 = (.running, m) ∧
      m.nextCall? p = some "g" ∧ p.runnable? "g" = some charged ∧ charged.arity = 0 ∧
      m.callee? p "g" = some callee ∧ callee.arity = 1 ∧
      ((new {} quiet).interpret p 12).1 = .failed ⟨.stackUnderflow, 8⟩ := by
  have hrun := misnaming_run
  cases hp : compile misnaming with
  | error ds => simp [hp, Except.toOption] at hrun
  | ok p =>
    simp only [hp, Except.toOption, Option.map_some, Option.some.injEq, Prod.mk.injEq] at hrun
    obtain ⟨hrunning, hname, hcharged, hcallee, hfails⟩ := hrun
    obtain ⟨charged, hcharged, hnone⟩ := Option.map_eq_some_iff.mp hcharged
    obtain ⟨callee, hcallee, hone⟩ := Option.map_eq_some_iff.mp hcallee
    generalize new {} quiet = start at hrunning hname hcallee hfails ⊢
    exact ⟨p, _, charged, callee, rfl, Prod.ext hrunning rfl, hname, hcharged, hnone, hcallee, hone, hfails⟩

end Machine
end RatScript
