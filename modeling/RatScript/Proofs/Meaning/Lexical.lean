import RatScript.Proofs.Machine.Activation
import RatScript.Proofs.Meaning.Run

/-!
Variables are scoped lexically. Where a name is used in the body of a runnable, its newest declaration
in a block that is still open tells its slot, and in every run the cell of that slot is the one that
the latest execution of this declaration has made in the same call.
-/

namespace RatScript

open Machine

theorem Stmt.Roomy.routine {k : StmtKind} {t : Stmt k} {n row : Nat} {r : Routine}
    (h : t.Roomy false n) (hr : r ∈ t.routines row) : r.body.Roomy true r.params.length := by
  induction t generalizing n row with
  | blank | expression | declare | return_ | nil => simp [routines] at hr
  | runnable =>
    obtain rfl := List.mem_singleton.mp hr
    exact h
  | if_ _ _ ih | while_ _ _ ih | repeat_ _ _ ih => exact ih h hr
  | scope _ ih => exact ih h hr
  | ifElse _ _ _ ihyes ihno =>
    rcases List.mem_append.mp hr with hr | hr
    · exact ihyes h.1 hr
    · exact ihno h.2 hr
  | line _ _ ihfirst ihrest =>
    rcases List.mem_append.mp hr with hr | hr
    · exact ihfirst h.1 hr
    · exact ihrest h.2 hr

theorem Script.Roomy.routine {t : Script} (h : t.Roomy) {r : Routine} (hr : r ∈ t.routines) :
    r.body.Roomy true r.params.length := by
  rcases List.mem_append.mp hr with hr | hr
  · exact h.lines.routine hr
  · split at hr
    · next s hs => exact (h.last s hs).routine hr
    · cases hr

theorem Builder.Covers.script {tokens : List Located} {b : Builder} {c : Phrase}
    (h : (start tokens).Covers b c 0 0) :
    b.program.function? 0 = some b.function ∧ b.function.arity = 0 := by
  have hcurrent : b.current = 0 := h.current
  have hhere := h.ready.here
  rw [hcurrent] at hhere
  exact ⟨hhere, (h.toGrows (ready_start tokens)).function.arity⟩

/-- A text spells at most one script. -/
theorem Script.Spells.unique {source : String} {t t' : Script} (h : t.Spells source)
    (h' : t'.Spells source) : t = t' := by
  obtain ⟨tokens, hscan, htokens⟩ := h.tokens
  obtain ⟨tokens', hscan', htokens'⟩ := h'.tokens
  cases hscan.symm.trans hscan'
  exact Script.unique h.binds h'.binds (htokens.trans htokens'.symm)

/-- What is known of a text that compiles and of its program. -/
theorem compile_makes {source : String} {p : Program} (h : compile source = .ok p) :
    ∃ (t : Script) (s : Site) (c : Phrase) (l : List Note) (top : Function), t.Spells source ∧
      t.Roomy ∧ t.Makes p s c l top ∧ p.verify = .ok () ∧ top.arity = 0 := by
  have hcompile := h
  unfold compile at h
  split at h
  · cases h
  next tokens hscan =>
  obtain ⟨t, _, _, _, _, hbinds, htokens, _, _, _, _, _, _, _, hroomy, _⟩ := compileTokens_roomy h
  have hspells : t.Spells source := ⟨hbinds, tokens, hscan, htokens⟩
  obtain ⟨s, c, l, top, hmakes⟩ := hspells.makes hcompile
  obtain ⟨b, d, hcovers, rfl⟩ := compileTokens_eq_ok h
  obtain ⟨hfirst, harity⟩ := hcovers.script
  rw [hmakes.first] at hfirst
  cases hfirst
  exact ⟨t, s, c, l, _, hspells, hroomy, hmakes, hcovers.verify.1, harity⟩

namespace Script.Makes

variable {t : Script} {p : Program} {s : Site} {c : Phrase} {l : List Note} {top : Function}

theorem apart (h : t.Makes p s c l top) : p.Apart := by
  intro x callee hx
  have hname : callee.name = x := by simpa using List.find?_some hx
  obtain ⟨id, hid⟩ := List.mem_iff_getElem?.mp (List.mem_of_find?_eq_some hx)
  rw [List.getElem?_drop, Array.getElem?_toList] at hid
  exact hname ▸ (h.runnables _ callee (Nat.lt_add_right id Nat.one_pos) hid).2

/-- The functions of the runnables have stages. -/
theorem stages (h : t.Makes p s c l top) : ∃ marks, Stages p marks ∧
    ∀ n (r : Routine), t.routines[n]? = some r → ∃ f : Function, r.Written p (n+1) f ∧
      f.Staged p r.cells r.uses (marks (n+1)) := by
  have hstaged (id : Nat) : ∃ xs, ∀ n (r : Routine), id = n+1 → t.routines[n]? = some r →
      ∃ f : Function, r.Written p id f ∧ f.Staged p r.cells r.uses xs := by
    cases hr : t.routines[id-1]? with
    | none =>
      refine ⟨[], ?_⟩
      rintro n r rfl hr'
      rw [Nat.add_sub_cancel, hr'] at hr
      cases hr
    | some r =>
      obtain ⟨f, hwritten⟩ := h.written hr
      obtain ⟨xs, hxs⟩ := hwritten.staged h.apart
      refine ⟨xs, ?_⟩
      rintro n r' rfl hr'
      rw [Nat.add_sub_cancel, hr'] at hr
      cases hr
      exact ⟨f, hwritten, hxs⟩
  choose marks hmarks using hstaged
  refine ⟨marks, fun id f hid hf => ?_, fun n r => hmarks (n+1) n r rfl⟩
  obtain ⟨n, rfl⟩ := Nat.exists_eq_succ_of_ne_zero hid
  have hlt : n+1 < p.functions.size := (Array.getElem?_eq_some_iff.mp hf).1
  rw [h.size_eq] at hlt
  obtain ⟨f', hwritten, hxs⟩ := hmarks (n+1) n _ rfl (List.getElem?_eq_getElem (by omega))
  rw [hwritten.function] at hf
  cases hf
  exact ⟨_, _, hxs, hwritten.arity.symm⟩

end Script.Makes

/-- How the names in the body of a runnable are looked up by its code. -/
structure Routine.Scoped (r : Routine) (f : Function) : Prop where
  name : f.name = r.name
  arity : f.arity = r.params.length
  /-- Each name in the body is used, called or declared, and as often as it is written. -/
  names : ∀ x, namings x r.body.tokens = (r.uses.map Use.name).count x+
    (r.body.expressions.flatMap Expr.calls).count x+r.body.declares.count x
  /-- The instruction of a name that is in scope names the slot of the newest cell. -/
  frame : ∀ u ∈ r.uses, ∀ slot c, Cell.Newest u.name u.cells slot c →
    ∃ b : UInt8, b.toNat = slot ∧ (u.directive .frame b).at_ u.offset ∈ f.chunk.instructions
  /-- That of any other name has the name itself. -/
  global : ∀ u ∈ r.uses, (∀ c ∈ u.cells, c.name? ≠ some u.name) →
    ∃ index, f.chunk.constant? index = some (.text u.name) ∧
      (u.directive .global index).at_ u.offset ∈ f.chunk.instructions
  /-- There are no other instructions that name slots, and none names that of a loop's count. -/
  slots : ∀ i ∈ f.chunk.instructions, i.operand.layout = .slot →
    ∃ u ∈ r.uses, i.offset = u.offset ∧ ∃ slot c, Cell.Newest u.name u.cells slot c ∧ c ≠ .counter

theorem Use.layout_global (u : Use) (index : UInt8) :
    (u.directive .global index).operand.layout = .constant := by
  obtain ⟨_, target, _, _⟩ := u
  rcases target with _ | a
  · rfl
  · cases a <;> rfl

theorem Cell.Newest.ne_counter {x : String} {cells : List Cell} {slot : Nat} {c : Cell}
    (h : Newest x cells slot c) : c ≠ .counter := by
  obtain ⟨_, _, _, _, hname, _⟩ := h
  rintro rfl
  cases hname

namespace Function.Staged

variable {p : Program} {f : Function} {cells : List Cell} {us : List Use}
  {marks : List (Instruction × Stage)}

/-- Offsets tell stages apart. -/
theorem mark_eq (h : f.Staged p cells us marks) {x y : Instruction × Stage} (hx : x ∈ marks)
    (hy : y ∈ marks) (hoffset : x.1.offset = y.1.offset) : x = y := by
  have hnodup := (Instruction.decode_offsets f.chunk).1
  rw [← h.code, List.map_map] at hnodup
  exact List.inj_on_of_nodup_map hnodup hx hy hoffset

end Function.Staged

namespace Routine

variable {r : Routine} {p : Program} {id : Nat} {f : Function}
  {marks : List (Instruction × Stage)}

theorem told (r : Routine) (hroomy : r.body.Roomy true r.params.length)
    (hfew : r.params.length ≤ Compile.maxLocals) : ∀ u ∈ r.uses, Cell.Told u.cells := by
  have hlength : r.cells.length = r.params.length := by simp [cells]
  refine (Stmt.Roomy.told (v := ⟨1, r.cells⟩) (hlength ▸ hroomy) fun slot c hc _ => ?_).2.2
  have hslot := (List.getElem?_eq_some_iff.mp hc).1
  rw [List.length_reverse, hlength] at hslot
  exact hslot.trans_le hfew

theorem Written.scoped (h : r.Written p id f) (hroomy : r.body.Roomy true r.params.length)
    (hfew : r.params.length ≤ Compile.maxLocals)
    (hstaged : f.Staged p r.cells r.uses marks) : r.Scoped f := by
  have hmem {x : Instruction × Stage} (hx : x ∈ marks) : x.1 ∈ f.chunk.instructions :=
    hstaged.code ▸ List.mem_map_of_mem hx
  refine ⟨h.name, h.arity, fun x => ?_, ?_, ?_, ?_⟩
  · obtain ⟨s, _, _, _, hview, _, _, hbody, _⟩ := h.body
    have hfunction : s.function = id := congrArg View.function hview
    exact hbody.count_uses (hfunction ▸ Nat.ne_of_gt h.later) ⟨1, r.cells⟩ x
  · intro u hu slot c hc
    have hslot := Cell.slotIn_eq_some.mpr ⟨c, hc⟩
    have hlt := r.told hroomy hfew u hu slot c hc.cell hc.ne_counter
    obtain ⟨⟨i, g⟩, hx, hnames, _⟩ := hstaged.uses u hu
    have hi : i ∈ f.chunk.instructions := hmem hx
    cases hnames with
    | slot hslot' =>
      cases hslot.symm.trans hslot'
      exact ⟨_, UInt8.toNat_ofNat_of_lt hlt, hi⟩
    | global hnone => cases hslot.symm.trans hnone
  · intro u hu hc
    have hslot := Cell.slotIn_eq_none.mpr hc
    obtain ⟨⟨i, g⟩, hx, hnames, _⟩ := hstaged.uses u hu
    have hi : i ∈ f.chunk.instructions := hmem hx
    cases hnames with
    | slot hslot' => cases hslot.symm.trans hslot'
    | global _ hindex => exact ⟨_, hindex, hi⟩
  · intro i hi hlayout
    rw [← hstaged.code] at hi
    obtain ⟨x, hx, rfl⟩ := List.mem_map.mp hi
    obtain ⟨u, hu, hnames⟩ := hstaged.slots x hx hlayout
    refine ⟨u, hu, hnames.offset_eq, ?_⟩
    obtain ⟨i, g⟩ := x
    cases hnames with
    | slot hslot =>
      obtain ⟨c, hc⟩ := Cell.slotIn_eq_some.mp hslot
      exact ⟨_, c, hc, hc.ne_counter⟩
    | global => cases (u.layout_global _).symm.trans hlayout

end Routine

namespace Machine

variable {p : Program}

theorem rests_interpretAll (runs : List (Program × Nat)) {S : Handle → Prop} {m : Machine}
    (hm : m.Rests S) (hp : ∀ x ∈ runs, x.1.Resolves) : (m.interpretAll runs).2.Rests S := by
  induction runs generalizing m with
  | nil => exact hm
  | cons x rest ih =>
    exact ih (rests_interpret (hp x (by simp)) x.2 hm) fun y hy => hp y (List.mem_cons_of_mem _ hy)

/-- A run that goes on for some turns went on for fewer. -/
theorem runFor_of_le {m m' : Machine} {k i : Nat} (hk : k ≤ i) (h : m.runFor p i = (.running, m')) :
    ∃ m₁, m.runFor p k = (.running, m₁) := by
  induction i, hk using Nat.le_induction generalizing m' with
  | base => exact ⟨m', h⟩
  | succ i _ ih =>
    obtain ⟨_, hrun, _⟩ := runFor_succ h
    exact ih hrun

/-- The machines before the turns of a run of a program that is loaded. -/
theorem trail_of_load {start loaded m : Machine} {i : Nat} (hload : Exec.load p start = .ok () loaded)
    (hloads : loaded.settled.Loads p loaded.pools)
    (hpoised : loaded.Poised loaded.settled loaded.pools 0 [⟨0, 0, 0⟩]) (hverify : p.verify = .ok ())
    (hscript : ∀ f, p.function? 0 = some f → f.arity = 0)
    (hcharged : ∀ k < i, ∀ m, start.interpret p k = (.running, m) → m.Charged p)
    (hm : start.interpret p i = (.running, m)) :
    Trail p loaded.settled loaded.pools i fun k => (start.interpret p k).2 := by
  simp only [interpret_eq_running hload] at hcharged hm
  have hrun {k : Nat} (hk : k ≤ i) :
      loaded.runFor p k = (.running, (start.interpret p k).2) := by
    obtain ⟨m₁, h⟩ := runFor_of_le hk hm
    rw [(interpret_eq_running hload).mpr h, h]
  have hobeys := obeys_of_poised hpoised (fits_start hverify hscript)
  refine ⟨hloads, hverify, ?_, fun k hk => ?_, fun k hk => ?_, fun k hk => ?_⟩
  · cases hrun (Nat.zero_le i)
    exact hpoised.2.frames
  · obtain ⟨m₁, h, hadvance⟩ := runFor_succ (hrun hk)
    cases (hrun (Nat.le_of_lt hk)).symm.trans h
    exact hadvance
  · have hupholds := runFor_upholds hloads hverify k hobeys fun j hj m' => hcharged j (by omega) m'
    rwa [hrun hk] at hupholds
  · exact hcharged k hk _ (hrun (Nat.le_of_lt hk))

theorem trail_of_runFor {start m : Machine} {i : Nat} (hp : p.Resolves) (hverify : p.verify = .ok ())
    (hscript : ∀ f, p.function? 0 = some f → f.arity = 0) (hstart : start.Rests fun _ => False)
    (hcharged : ∀ k < i, ∀ m, start.interpret p k = (.running, m) → m.Charged p)
    (hm : start.interpret p i = (.running, m)) :
    ∃ z pools, Trail p z pools i fun k => (start.interpret p k).2 := by
  obtain ⟨loaded, hload, hloads, hpoised⟩ := load_rests hp hstart
  exact ⟨_, _, trail_of_load hload hloads hpoised hverify hscript hcharged hm⟩

end Machine

/-- Variables are scoped lexically, and slots stay aligned. In the body of a runnable each name that
is used is looked up in the slot of its newest cell in scope, be it of a parameter or of a declaration
that is complete in a block still open, and among the globals if there is none. In every run whose calls
enter runnables of the arity they were charged with, whatever ran on the machine before: when such an
instruction is the next one, the cell of the slot is on the stack since the call was made, if it is that
of a parameter, or since the latest execution of its declaration in this call made it, and nothing but
this call's own stores to the slot has changed it. -/
theorem variables_scoped (source : String) (p : Program) (h : compile source = .ok p) :
    ∃ t : Script, t.Spells source ∧ p.functions.size = 1+t.routines.length ∧
      ∀ n r, t.routines[n]? = some r → ∃ f, p.function? (n+1) = some f ∧ r.Scoped f ∧
        ∀ config world runs i m base callers, (∀ x ∈ runs, x.1.Resolves) →
          let start := ((new config world).interpretAll runs).2
          let run := fun k => (start.interpret p k).2
          (∀ k < i, ∀ m, start.interpret p k = (.running, m) → m.Charged p) →
          start.interpret p i = (.running, m) →
          ∀ u ∈ r.uses, m.frames = ⟨n+1, u.offset, base⟩ :: callers →
            ∃ made, (⟨n+1, f.arity, base, callers, made⟩ : Activation).Lives run i ∧
              ∀ slot c, Cell.Newest u.name u.cells slot c →
                (⟨n+1, f.arity, base, callers, made⟩ : Activation).Holds run f slot i (i+1) c := by
  obtain ⟨t, s, c, l, top, hspells, hroomy, hmakes, hverify, harity⟩ := compile_makes h
  obtain ⟨marks, hstages, hroutines⟩ := hmakes.stages
  refine ⟨t, hspells, hmakes.size_eq, fun n r hr => ?_⟩
  obtain ⟨f, hwritten, hstaged⟩ := hroutines n r hr
  have hfew : r.params.length ≤ Compile.maxLocals :=
    hwritten.arity ▸ (hmakes.runnables _ f (Nat.succ_pos n) hwritten.function).1
  refine ⟨f, hwritten.function,
    hwritten.scoped (hroomy.routine (List.mem_of_getElem? hr)) hfew hstaged, ?_⟩
  intro config world runs i m base callers hruns start run hcharged hm u hu hframes
  have hscript (top' : Function) (hfirst : p.function? 0 = some top') : top'.arity = 0 := by
    rw [hmakes.first] at hfirst
    cases hfirst
    exact harity
  obtain ⟨z, pools, htrail⟩ := trail_of_runFor hmakes.resolves hverify hscript
    (rests_interpretAll runs (rests_new config world) hruns) hcharged hm
  have hthere : (run i).frames = ⟨n+1, u.offset, base⟩ :: callers := by
    simp only [run, hm]
    exact hframes
  obtain ⟨made, f', hf', hat, hlives, x, hx, hoffset, hknows⟩ :=
    htrail.standing hstages i (Nat.le_refl i) hthere (Nat.succ_ne_zero n)
  rw [hwritten.function] at hf'
  cases hf'
  obtain ⟨y, hy, hnames, hcells⟩ := hstaged.uses u hu
  obtain rfl := hstaged.mark_eq hx hy (hoffset.trans hnames.offset_eq.symm)
  exact ⟨made, hlives, fun slot c hc => hknows.cells slot c (hcells ▸ hc.cell)⟩

/-! A variable that is declared anew in each pass of a loop, and shadows a parameter. -/

def shadowing : String :=
  "runnable f(a):\nrepeat 2:\nrat a = a\na\nendrepeat\nendrunnable\nf(1)\n"

def shadow : Routine where
  name := "f"
  params := ["a"]
  body := .line (.repeat_ (.head (.number "2"))
    (.scope (.line (.declare "a" (some (.head (.name "a"))))
      (.line (.expression (.head (.name "a"))) .nil)))) .nil
  row := 2

/-- The second of its variables that are used. -/
def shadowed : Use := ⟨"a", none, 8, [.declared ⟨"a", 5, 7⟩, .counter, .parameter "a"]⟩

theorem shadowed_mem : shadowed ∈ shadow.uses := by
  rw [show shadow.uses = [⟨"a", none, 5, [.counter, .parameter "a"]⟩, shadowed] from rfl]
  exact List.mem_cons_of_mem _ (List.mem_singleton_self _)

theorem shadowed_newest :
    Cell.Newest shadowed.name shadowed.cells 2 (.declared ⟨"a", 5, 7⟩) :=
  ⟨[], [.counter, .parameter "a"], rfl, rfl, rfl, by simp⟩

def shadows : Script where
  lines := .line (.runnable shadow.name shadow.params shadow.body) <|
    .line (.expression (.head (.call "f" (.cons (.head (.number "1")) .nil)))) .nil
  last := none

theorem shadows_spells : shadows.Spells shadowing := by
  have htokens : (scanCode shadowing).toOption.map
      (fun tokens => (tokens.takeWhile (·.token != .eof)).map (·.token)) = some shadows.tokens := by
    decide +kernel
  obtain ⟨tokens, hscan, htokens⟩ := Option.map_eq_some_iff.mp htokens
  refine ⟨⟨?_, nofun⟩, tokens, ?_, htokens.symm⟩
  · intro e he
    fin_cases he <;> constructor <;> simp [Expr.Fits, Expr.Grouped]
  · cases h : scanCode shadowing with
    | error e => simp [h, Except.toOption] at hscan
    | ok ts => simpa [h, Except.toOption] using hscan

/-- The second pass of the loop comes to the variable. -/
theorem shadowing_run : (compile shadowing).toOption.map (fun p =>
    let run := (new {} quiet).interpret p
    (decide (∀ k : Nat, k < 19 → (run k).2.Charged p), (run 19).1, (run 19).2.frames)) =
    some (true, .running, [⟨1, 8, 0⟩, ⟨0, 11, 0⟩]) := by
  decide +kernel

/-- In the second pass the variable is the one that this pass has declared. -/
theorem variables_scoped_shadowing :
    ∃ p f made, compile shadowing = .ok p ∧ p.function? 1 = some f ∧
      (⟨1, 1, 0, [⟨0, 11, 0⟩], made⟩ : Activation).Holds
        (fun k => ((new {} quiet).interpret p k).2) f 2 19 20 (.declared ⟨"a", 5, 7⟩) := by
  have hrun := shadowing_run
  cases hp : compile shadowing with
  | error ds => simp [hp, Except.toOption] at hrun
  | ok p =>
    simp only [hp, Except.toOption, Option.map_some, Option.some.injEq, Prod.mk.injEq,
      decide_eq_true_eq] at hrun
    obtain ⟨hcharged, hrunning, hframes⟩ := hrun
    obtain ⟨t, hspells, _, hscoped⟩ := variables_scoped shadowing p hp
    obtain rfl := hspells.unique shadows_spells
    obtain ⟨f, hf, hnames, hvariables⟩ := hscoped 0 shadow rfl
    have harity : f.arity = 1 := hnames.arity
    have hholds := hvariables {} quiet [] 19
    simp only [interpretAll] at hholds
    generalize new {} quiet = start at hcharged hrunning hframes hholds ⊢
    rw [harity] at hholds
    obtain ⟨made, _, hcells⟩ := hholds (start.interpret p 19).2 0 [⟨0, 11, 0⟩] (by simp)
      (fun k hk m hm => by simpa only [hm] using hcharged k hk) (Prod.ext hrunning rfl)
      shadowed shadowed_mem hframes
    exact ⟨p, f, made, rfl, hf, hcells 2 _ shadowed_newest⟩

end RatScript
