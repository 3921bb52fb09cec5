import RatScript.Proofs.Machine.Tracing
import RatScript.Proofs.Meaning.Alongside
import RatScript.Proofs.Meaning.Joined

/-!
Entries: a script that is run on the machine another one has left does what it does behind that one in a
single script.
-/

namespace RatScript

open Machine

namespace Machine

/-- The turns of a run after some of them. -/
theorem runFor_add {p : Program} {m m' : Machine} {k : Nat} (h : m.runFor p k = (.running, m'))
    (n : Nat) : m.runFor p (k+n) = m'.runFor p n := by
  induction k generalizing m with
  | zero =>
    cases h
    rw [Nat.zero_add]
  | succ k ih =>
    rw [Nat.succ_add, runFor]
    rw [runFor] at h
    split at h
    · exact ih h
    · next hother => exact absurd h (hother m')

/-- Output, input, files and globals are the same, values compared by content. -/
structure Alike (m m' : Machine) : Prop where
  output : m'.world.output = m.world.output
  input : m'.world.input = m.world.input
  files : m'.world.files = m.world.files
  globals : ∀ x, (m'.globals.get? x).map m'.heap.content? = (m.globals.get? x).map m.heap.content?

variable {p q : Program} {σ : Store} {start m m' : Machine}

theorem Presents.alike (h : m.Presents σ) (h' : m'.Presents σ) : m.Alike m' where
  output := h'.output.trans h.output.symm
  input := h'.input.trans h.input.symm
  files := h'.files.trans h.files.symm
  globals x := (h'.globals x).trans (h.globals x).symm

theorem Alike.frames (h : m.Alike m') (fs fs' : List Frame) :
    ({m with frames := fs} : Machine).Alike {m' with frames := fs'} :=
  ⟨h.output, h.input, h.files, h.globals⟩

theorem Alike.of_under {c : Config} {d : Sink} (h : (m.under c d).Alike (m'.under c d)) : m.Alike m' :=
  ⟨h.output, h.input, h.files, h.globals⟩

theorem under_new (config c : Config) (world : World) (d : Sink) :
    (new config world).under c d = new c {world with diagnostics := d} := rfl

/-- Once a program is loaded, its run is all there is to it but for the frames it leaves. -/
theorem interpret_eq (hload : Exec.load p start = .ok () m) (n : Nat) :
    ∃ fs, start.interpret p n = ((m.runFor p n).1, {(m.runFor p n).2 with frames := fs}) := by
  simp only [interpret, hload]
  split
  · next heq => exact ⟨[], by rw [heq]⟩
  · exact ⟨(m.runFor p n).2.frames, rfl⟩

/-- While a script without runnables runs, nothing is one. -/
theorem Loaded.object?_ne_runnable {t : Script} {s : Site} {c : Phrase} {l : List Note}
    {top : Function} (hm : start.Loaded p m) (ht : t.Makes p s c l top) (hsize : p.functions.size = 1)
    {T : List Value} {S : Handle → Prop} (hm' : m'.Counted m.settled T S) (r : Handle) (id : Nat)
    (name : String) : m'.heap.object? r ≠ some (.runnable id name) := by
  intro ho
  obtain ⟨k, hk, hobject⟩ := Option.map_eq_some_iff.mp ho
  have htyped := hm'.typed r k hk
  rw [hobject] at htyped
  have hlater := ht.later hm htyped
  omega

/-- Where nothing is a runnable, another program is loaded with the globals as they are. -/
theorem Loaded.presents (hm : m.Loaded q m') (hpresents : m.Presents σ) (hbound : m.nativesBound = true)
    (hnamed : (m.globals.bindings.map Prod.fst).Nodup)
    (hnone : ∀ r id name, m.heap.object? r ≠ some (.runnable id name)) : m'.Presents σ := by
  refine ⟨fun x => ?_, by rw [hm.world, hpresents.input], by rw [hm.world, hpresents.output],
    by rw [hm.world, hpresents.files]⟩
  have hkeeps (v : Value) : (!m.heap.isRunnable v) = true := by
    rw [Bool.not_eq_true', ← Bool.not_eq_true, Heap.isRunnable_iff]
    rintro ⟨r, id, name, rfl, ho⟩
    exact hnone r id name ho
  have hget : m'.globals.get? x = m.globals.get? x := by
    rw [hm.get? hbound hnamed, funext hkeeps]
    cases m.globals.get? x <;> rfl
  rw [hget, ← hpresents.globals x]
  cases hx : m.globals.get? x with
  | none => rfl
  | some v =>
    cases v with
    | object r =>
      obtain ⟨before, after, hsplit, _⟩ := List.lookup_eq_some_iff.mp (hget.trans hx)
      have hsame := hm.same hbound (x, .object r) (by simp [hsplit]) r rfl
      simp only [Option.map_some, Heap.content?, hsame]
    | none | number | bool => rfl

end Machine

/-- As many lines further down. -/
def Outcome.lower (n : Nat) : Outcome → Outcome
  | .failed f => .failed {f with line := f.line+n}
  | o => o

section
variable {p q : Program} {f g : Function} {es front back : List Deed} {P Q : Array (Array Value)}
  {y z : Setting} {σ : Store} {st : List Content} {m₁ m₂ : Machine}

/-- Both runs are about to do the first deed. -/
theorem Program.Enacts.beside (hp : p.Enacts f es) (h : Spot.script.Shown p P y 0 [] σ m₁)
    (h' : Spot.script.Shown q Q z (Deed.size front) [] σ m₂) :
    Alongside p P y f q Q z front 0 [] σ m₁ m₂ where
  reaches := by
    have hentry := Survey.Reaches.entry (s := p.surveyOf f)
    rwa [show (p.surveyOf f).function.arity = 0 from hp.arity] at hentry
  first := h
  second := h'

/-- Behind the deeds of one entry an end of line is passed to get to those of the next. -/
theorem Alongside.passes_newline (hq : q.Enacts g (front++es++Deed.newline :: back))
    (h : Alongside p P y f q Q z front (Deed.size es) [] σ m₁ m₂) :
    ∃ m, m₂.advance q = (.running, m) ∧
      Spot.script.Shown q Q z (Deed.size (front++es++[Deed.newline])) [] σ m := by
  have hsecond := h.second
  rw [← Deed.size_append] at hsecond
  obtain ⟨m, hadvance, hm⟩ := hq.turns hsecond (Nat.zero_le _) nofun
  refine ⟨m, hadvance, ?_⟩
  rw [Deed.size_append]
  exact hm

/-- What the run of a script comes to is what the other run comes to in the same time. -/
theorem Alongside.alike (hp : p.Enacts f es) (hq : q.Enacts g (front++es))
    (hroom : z.config.stackCapacity = y.config.stackCapacity)
    (h : Alongside p P y f q Q z front 0 [] σ m₁ m₂) (n : Nat) :
    (m₂.runFor q n).1 = (m₁.runFor p n).1.lower (Deed.total front) ∧
      (m₁.runFor p n).2.Alike (m₂.runFor q n).2 := by
  have hq' : q.Enacts g (front++es++[]) := by rwa [List.append_nil]
  obtain ⟨ip, st, σ', m₁', m₂', hrun, hrun', h'⟩ | ⟨fault, line, σ', m₁', m₂', hrun, hrun', hm₁, hm₂⟩ |
    ⟨k, hk, σ', m₁', m₂', hrun, hrun', h'⟩ := h.runFor hp hq' hroom n
  · rw [hrun, hrun']
    exact ⟨rfl, h'.first.2.toPresents.alike h'.second.2.toPresents⟩
  · rw [hrun, hrun']
    exact ⟨rfl, hm₁.alike hm₂⟩
  · have hend := hq.finishes h'.second (Deed.size_append _ _).symm
    obtain ⟨j, rfl⟩ : ∃ j, n = k+(j+1) := ⟨n-k-1, by omega⟩
    have hfinish : m₂.runFor q (k+(j+1)) = (.finished, m₂') := by
      rw [runFor_add hrun', Machine.runFor, hend]
    rw [hrun, hfinish]
    exact ⟨rfl, h'.first.2.toPresents.alike h'.second.2.toPresents⟩

/-- The script of the first entry, run to its end on a new machine, and one that goes on behind it: an
end of line later this one is where its part of the second entry begins. -/
theorem first_entry {w : Program} {rest : List Deed} {config : Config} {world : World} {w₀ : Machine}
    {turns : Nat} (hf : p.Enacts f es) (hg : w.Enacts g (es++Deed.newline :: rest))
    (hload : Exec.load p (new config world) = .ok () m₁) (hm : (new config world).Loaded p m₁)
    (hloadw : Exec.load w (new config world) = .ok () w₀) (hw : (new config world).Loaded w w₀)
    (htrace : config.trace = true → world.diagnostics.limit = none)
    (hdone : (m₁.runFor p turns).1 = .finished) :
    ∃ k σ w₁, w₀.runFor w k = (.running, w₁) ∧
      Spot.script.Shown p m₁.pools m₁.settled (Deed.size es) [] σ (m₁.runFor p turns).2 ∧
        Spot.script.Shown w w₀.pools w₀.settled (Deed.size (es++[Deed.newline])) [] σ w₁ := by
  have hconfig : m₁.config = config := hm.counted.config
  have hconfigw : w₀.config = config := hw.counted.config
  have hbeside : Alongside p _ _ f w _ _ [] 0 [] _ m₁ w₀ := hf.beside
    (hm.shown (hm.start hload) rfl (by rw [hm.world, hconfig]; exact htrace))
    (hw.shown (hw.start hloadw) rfl (by rw [hw.world, hconfigw]; exact htrace))
  have hroom : w₀.settled.config.stackCapacity = m₁.settled.config.stackCapacity :=
    congrArg Config.stackCapacity (hconfigw.trans hconfig.symm)
  have hg' : w.Enacts g ([]++es++Deed.newline :: rest) := hg
  obtain ⟨_, _, _, _, _, hrun, _⟩ | ⟨_, _, _, _, _, hrun, _⟩ | ⟨k, _, σ, _, _, hrun, hrunw, hend⟩ :=
    hbeside.runFor hf hg' hroom turns
  · rw [hrun] at hdone
    cases hdone
  · rw [hrun] at hdone
    cases hdone
  · obtain ⟨w₁, hadvance, hw₁⟩ := hend.passes_newline hg'
    refine ⟨k+1, σ, w₁, (runFor_add_one hrunw).1.trans hadvance, ?_, hw₁⟩
    rw [hrun]
    exact hend.first

/-- The script of the second entry is loaded, and all that the first one has left is still there. -/
theorem second_entry {start m₀ m : Machine} {t : Script} {s : Site} {c : Phrase} {l : List Note}
    {top : Function} {ip : Nat} {fs : List Frame} (hm₀ : start.Loaded p m₀) (ht : t.Makes p s c l top)
    (hsize : p.functions.size = 1) (hm : Spot.script.Shown p m₀.pools m₀.settled ip [] σ m)
    (hbound : m₀.nativesBound = true) (hq : q.Resolves)
    (hrests : ({m with frames := fs} : Machine).Rests fun _ => False) :
    ∃ m', Exec.load q {m with frames := fs} = .ok () m' ∧ m'.config = m.config ∧
      Spot.script.Shown q m'.pools m'.settled 0 [] σ m' := by
  obtain ⟨_, _, _, hcounted, hunbound⟩ := hrests
  obtain ⟨m', hload, hm'⟩ := load_ok hq hcounted hunbound
  have hconfig : m'.config = m.config := hm'.counted.config
  have hnone := hm₀.object?_ne_runnable ht hsize hm.2.counted
  have hpresents : m'.Presents σ :=
    hm'.presents ⟨hm.2.globals, hm.2.input, hm.2.output, hm.2.files⟩
      (hm.2.counted.bound.trans hbound) hm.2.counted.named hnone
  refine ⟨m', hload, hconfig, hm'.shown hpresents (List.map_eq_nil_iff.mp hm.1) ?_⟩
  rw [hm'.world, hconfig]
  exact hm.2.traced

end

/-- Where traces have room, two texts without runnables may be run one after another on one machine, the
first to its end, or as one text, the second below the first, on another such machine. -/
theorem entries_of_room {first second : String} {p q w : Program} {config : Config} {world : World}
    {turns : Nat} {m : Machine} (hp : compile first = .ok p) (hq : compile second = .ok q)
    (hw : compile (first ++ "\n" ++ second) = .ok w) (hfirst : DeclaresNone first)
    (hsecond : DeclaresNone second)
    (htrace : config.trace = true → world.diagnostics.limit = none)
    (hdone : (new config world).interpret p turns = (.finished, m)) :
    ∃ before, ∀ n,
      ((new config world).interpret w (before+n)).1 =
          (m.interpret q n).1.lower (first.toList.count '\n'+1) ∧
        (m.interpret q n).2.Alike ((new config world).interpret w (before+n)).2 := by
  -- the tree of both texts is that of the second below that of the first
  obtain ⟨t, _, _, _, _, ht, _, hmakes, _⟩ := compile_makes hp
  obtain ⟨t', _, _, _, _, ht', _, hmakes', _⟩ := compile_makes hq
  have hboth := ht.above ht'
  have hnone := ht.declares_none hfirst
  have hnone' := ht'.declares_none hsecond
  obtain ⟨f, hf, hsize, htotal⟩ := ht.enacts hnone hp
  obtain ⟨f', hf', _⟩ := ht'.enacts hnone' hq
  obtain ⟨g, hg, _⟩ := hboth.enacts (by simp [Script.tokens_above, hnone, hnone']) hw
  obtain ⟨_, _, _, _, hwhole⟩ := hboth.makes hw
  rw [Script.deeds_above] at hg
  have hlines : Deed.total (t.deeds++[Deed.newline]) = first.toList.count '\n'+1 := by
    rw [Deed.total_append, htotal, ht.count_newline]
    rfl
  -- both machines start alike, and the first entry comes to its end
  obtain ⟨m₀, hload, hm₀⟩ := load_ok hmakes.resolves (counted_new config world) fun _ => rfl
  obtain ⟨w₀, hloadw, hw₀⟩ := load_ok hwhole.resolves (counted_new config world) fun _ => rfl
  obtain ⟨fs, hinterpret⟩ := interpret_eq hload turns
  have hrests := rests_interpret (S := fun _ => False) hmakes.resolves turns (rests_new config world)
  rw [hdone] at hinterpret hrests
  obtain ⟨hfinished, rfl⟩ := Prod.mk.inj hinterpret
  obtain ⟨k, σ, w₁, hbefore, hfirst, hsecond⟩ :=
    first_entry hf hg hload hm₀ hloadw hw₀ htrace hfinished.symm
  -- from here on the second entry and the rest of the whole go on beside each other
  obtain ⟨m', hload', hconfig, hm'⟩ :=
    second_entry hm₀ hmakes hsize hfirst hm₀.counted.bound hmakes'.resolves hrests
  have hroom : w₀.settled.config.stackCapacity = m'.settled.config.stackCapacity := by
    have hconfigw : w₀.config = config := hw₀.counted.config
    have hconfigm : m₀.config = config := hm₀.counted.config
    have hconfig' : m'.config = m₀.config := hconfig.trans hfirst.2.counted.config
    exact congrArg Config.stackCapacity (hconfigw.trans (hconfig'.trans hconfigm).symm)
  refine ⟨k, fun n => ?_⟩
  obtain ⟨hresult, halike⟩ := (hf'.beside hm' hsecond).alike hf' (by simpa using hg) hroom n
  obtain ⟨_, hentry⟩ := interpret_eq hload' n
  obtain ⟨_, hall⟩ := interpret_eq hloadw (k+n)
  rw [hentry, hall, runFor_add hbefore, hresult, hlines]
  exact ⟨rfl, halike.frames _ _⟩

/-- Entry by entry is as good as all at once. Two texts without runnables are run one after another on
one machine, the first to its end; both are also run as one text, the second below the first, on another
such machine. After some turns, the same however long the second run goes on, this one is where the
second entry is, unless one of them fails because its trace cannot be written: it still goes on, has
ended or has failed with the same fault on a line as many lines further down as the first text has, with
the same output, input left, files, and globals of the same contents. -/
theorem entries_agree (first second : String) (p q w : Program) (config : Config) (world : World)
    (turns : Nat) (m : Machine) (hp : compile first = .ok p) (hq : compile second = .ok q)
    (hw : compile (first ++ "\n" ++ second) = .ok w) (hfirst : DeclaresNone first)
    (hsecond : DeclaresNone second)
    (hdone : (new config world).interpret p turns = (.finished, m)) :
    ∃ before, ∀ n, (config.trace = true → (m.interpret q n).1 ≠ .failed ⟨.trace, 0⟩ ∧
        ((new config world).interpret w (before+n)).1 ≠ .failed ⟨.trace, 0⟩) →
      ((new config world).interpret w (before+n)).1 =
          (m.interpret q n).1.lower (first.toList.count '\n'+1) ∧
        (m.interpret q n).2.Alike ((new config world).interpret w (before+n)).2 := by
  cases htrace : config.trace with
  | false =>
    obtain ⟨before, hagree⟩ := entries_of_room hp hq hw hfirst hsecond (by simp [htrace]) hdone
    exact ⟨before, fun n _ => hagree n⟩
  | true =>
    obtain ⟨_, _, _, _, _, _, _, hmakes, _⟩ := compile_makes hp
    obtain ⟨_, _, _, _, _, _, _, hmakes', _⟩ := compile_makes hq
    obtain ⟨_, _, _, _, _, _, _, hwhole, _⟩ := compile_makes hw
    have hnew : (new config world).Rests fun _ => False := rests_new config world
    have hconfig : (new config world).config = config := rfl
    have hrests := rests_interpret hmakes.resolves turns hnew
    have hconfined := interpret_confined (c := config) hmakes.resolves turns hnew
      ⟨rfl, Nat.zero_le _, Nat.zero_le _⟩
    -- without a trace each of the runs does the same, and none can fail for it
    have hfirst_run := interpret_untraced hmakes.resolves turns hnew hconfig (by simp [hdone]) .empty
    rw [hdone] at hrests hconfined hfirst_run
    obtain ⟨before, hagree⟩ := entries_of_room hp hq hw hfirst hsecond
      (fun h => absurd h Bool.false_ne_true) (under_new config _ world _ ▸ hfirst_run)
    refine ⟨before, fun n hroom => ?_⟩
    obtain ⟨hroom, hroom'⟩ := hroom rfl
    have hsecond_run := interpret_untraced hmakes'.resolves n hrests hconfined.config hroom .empty
    have hwhole_run := interpret_untraced hwhole.resolves (before+n) hnew hconfig hroom' .empty
    rw [under_new] at hwhole_run
    obtain ⟨hresult, halike⟩ := hagree n
    rw [hwhole_run, hsecond_run] at hresult halike
    dsimp only at hresult halike
    exact ⟨hresult, halike.of_under⟩

/-! Entries of which the second one fails, and entries that are traced. -/

def assignedOne : String := "rat x = 1\nprint(x)"

def increasing : String := "x += 1\nprint(x)\ny"

theorem increasing_run : (compile assignedOne).toOption.bind (fun p => (compile increasing).toOption.bind
    fun q => (compile (assignedOne ++ "\n" ++ increasing)).toOption.map fun _ =>
      let entered := (new {} quiet).interpret p 12
      (entered.1, (entered.2.interpret q 12).1)) =
    some (.finished, .failed ⟨.undefined "y", 3⟩) := by
  decide +kernel

/-- The fault is two lines further down in the whole. -/
theorem entries_agree_increasing :
    ∃ p q w m before, compile assignedOne = .ok p ∧ compile increasing = .ok q ∧
      compile (assignedOne ++ "\n" ++ increasing) = .ok w ∧
      (new {} quiet).interpret p 12 = (.finished, m) ∧
      (m.interpret q 12).1 = .failed ⟨.undefined "y", 3⟩ ∧
      ((new {} quiet).interpret w (before+12)).1 = .failed ⟨.undefined "y", 5⟩ := by
  have hrun := increasing_run
  cases hp : compile assignedOne with
  | error ds => simp [hp, Except.toOption] at hrun
  | ok p =>
    cases hq : compile increasing with
    | error ds => simp [hp, hq, Except.toOption] at hrun
    | ok q =>
      cases hw : compile (assignedOne ++ "\n" ++ increasing) with
      | error ds => simp [hp, hq, hw, Except.toOption] at hrun
      | ok w =>
        simp only [hp, hq, hw, Except.toOption, Option.bind_some, Option.map_some, Option.some.injEq,
          Prod.mk.injEq] at hrun
        obtain ⟨hfinished, hfailed⟩ := hrun
        have hpair {start : Machine} (h : (start.interpret p 12).1 = .finished) :
            start.interpret p 12 = (.finished, (start.interpret p 12).2) := Prod.ext h rfl
        have hdone := hpair hfinished
        have hagree := entries_agree assignedOne increasing p q w {} quiet 12 _ hp hq hw
          (by decide +kernel) (by decide +kernel) hdone
        generalize new {} quiet = start at hdone hfailed hagree
        obtain ⟨before, hagree⟩ := hagree
        refine ⟨p, q, w, _, before, rfl, rfl, rfl, hdone, hfailed, ?_⟩
        rw [(hagree 12 (by simp)).1, hfailed]
        rfl

def cramped : World := {quiet with diagnostics := .limited (some 0)}

/-- A trace shows the end of line between the entries as an instruction of its own. Where the trace has
no room, two empty entries are run to their ends, and the whole fails. -/
theorem entries_differ_traced :
    ∃ p w, compile "" = .ok p ∧ compile ("" ++ "\n" ++ "") = .ok w ∧ DeclaresNone "" ∧
      let start := new {trace := true} cramped
      (start.interpret p 1).1 = .finished ∧ ((start.interpret p 1).2.interpret p 1).1 = .finished ∧
        (start.interpret w 1).1 = .failed ⟨.trace, 0⟩ := by
  have hrun : (compile "").toOption.bind (fun p => (compile ("" ++ "\n" ++ "")).toOption.map fun w =>
      let start := new {trace := true} cramped
      let entered := start.interpret p 1
      (entered.1, (entered.2.interpret p 1).1, (start.interpret w 1).1)) =
      some (.finished, .finished, .failed ⟨.trace, 0⟩) := by
    decide +kernel
  cases hp : compile "" with
  | error ds => simp [hp, Except.toOption] at hrun
  | ok p =>
    cases hw : compile ("" ++ "\n" ++ "") with
    | error ds =>
      simp only [hp, hw, Except.toOption, Option.bind_some, Option.map_none, reduceCtorEq] at hrun
    | ok w =>
      simp only [hp, hw, Except.toOption, Option.bind_some, Option.map_some, Option.some.injEq,
        Prod.mk.injEq] at hrun
      exact ⟨p, w, rfl, rfl, by decide +kernel, hrun⟩

end RatScript
