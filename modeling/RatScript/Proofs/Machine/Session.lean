import RatScript.Proofs.Machine.Loading

/-!
Whole sessions on one machine: counts stay exact through runs of programs, values pushed and popped
from outside and teardowns, and a teardown after runs that loaded leaves balanced totals.
-/

namespace RatScript

open Stateful

namespace Machine

variable {z : Setting} {X : List Value} {S : Handle → Prop} {m : Machine} {v : Value}

theorem trace_keeps (offset : Nat) :
    Keeps (Invariant (Counted z X S)) (Exec.trace offset) :=
  Keeps.seq inferInstance fun _ => Keeps.seq inferInstance fun _ =>
    Keeps.seq (Keeps.modifyGet fun _ hm => Exec.counted_world hm _) fun _ => inferInstance

/-- A turn keeps the counts, also one that fails. -/
theorem advance_counted (p : Program) (hm : m.Counted z X S) :
    (m.advance p).2.Counted z X S := by
  unfold advance
  split
  · exact hm
  · next frame _ _ =>
    split
    · exact hm
    · next f _ =>
      split
      · split <;> exact hm
      · have hstep : Keeps (Invariant (Counted z X S)) (Exec.step p frame.function f) := inferInstance
        split
        · next hs => exact hstep.of_error hs hm
        · next hs =>
          have hm' := hstep.of_ok hs hm
          split
          · split
            · next ht => exact (trace_keeps frame.ip).of_error ht hm'
            · next ht => exact (trace_keeps frame.ip).of_ok ht hm'
          · exact hm'

theorem runFor_counted (p : Program) (turns : Nat) (hm : m.Counted z X S) :
    (m.runFor p turns).2.Counted z X S := by
  induction turns generalizing m with
  | zero => exact hm
  | succ turns ih =>
    have hnext := advance_counted p hm
    unfold runFor
    split
    · next m' ha =>
      rw [ha] at hnext
      exact ih hnext
    · exact hnext

/-- An outcome of a program that could not be loaded. -/
def Unloaded (o : Outcome) : Prop := ∃ id line, o = .failed ⟨.missingConstant id, line⟩

/-- A run keeps the counts if the program loads; otherwise some holds are left over. -/
theorem interpret_counted {c : Config} {b : Bool} {n : Nat} (p : Program) (turns : Nat)
    (hm : m.Counted (.basic c b n) X S) (hunbound : Exec.Unbound b m) :
    (m.interpret p turns).2.Counted (.basic c true n) X S ∨
      Unloaded (m.interpret p turns).1 ∧ ¬ p.Resolves ∧
        ∃ Y, (m.interpret p turns).2.Counted (.basic c true n) Y S := by
  have hload := Exec.load_yields p m ⟨hm, hunbound⟩
  unfold interpret
  cases hl : Exec.load p m with
  | error e m' =>
    rw [hl] at hload
    obtain ⟨hcounted, hresolves, id, rfl⟩ := hload
    exact .inr ⟨⟨id, 0, rfl⟩, hresolves, hcounted⟩
  | ok u m' =>
    rw [hl] at hload
    have hrun := runFor_counted p turns hload
    refine .inl ?_
    dsimp only
    split
    · next m'' hr =>
      rw [hr] at hrun
      exact Exec.counted_frames hrun (by simp)
    · exact hrun

/-- Everything in transit can be given up. -/
theorem releaseEach_counted (vs : List Value) (hm : m.Counted z (vs++X) S) :
    ({m with heap := releaseEach m.heap vs} : Machine).Counted z X S := by
  induction vs generalizing m with
  | nil => exact hm
  | cons v rest ih =>
    obtain ⟨h, hok, hh⟩ := Exec.release_ok hm
    have hrest := ih hh
    simpa only [releaseEach, hok] using hrest

/-- The machine without its stack, globals, constants and calls. -/
def stripped (m : Machine) : Machine :=
  {m with stack := #[], globals := .empty, pools := #[], frames := []}

theorem stripped_counted {c : Config} {b : Bool} {n : Nat} (hm : m.Counted (.basic c b n) X S) :
    m.stripped.Counted (.basic c b n) (m.held++X) S := by
  refine hm.move rfl rfl (fun _ h => h.elim) rfl ?_ (by simp [stripped, Globals.empty]) (by simp [stripped])
    (by simp [stripped])
  intro r
  simp only [List.count_append, count_held, stripped, Globals.empty, List.map_nil,
    List.flatMap_nil, List.count_nil]
  omega

/-- A teardown gives up all holds and then reclaims what is left. -/
theorem teardown_counted {c : Config} {b : Bool} {n : Nat} (hm : m.Counted (.basic c b n) X S) :
    ∃ h : Heap, ({m.stripped with heap := h} : Machine).Counted (.basic c b n) X S ∧
      m.teardown.heap.Sound ∧ m.teardown.heap.Dead ∧
      m.teardown.heap.stats = {h.stats with swept := n+h.liveCount} := by
  have hreleased := releaseEach_counted m.held (stripped_counted hm)
  refine ⟨_, hreleased, ?_⟩
  obtain ⟨reclaimed, h, hok, hsound, hdead, hstats⟩ := Heap.sweep_ok hreleased.sound
  have hteardown : m.teardown.heap = h := by
    have hswept : Heap.sweep (releaseEach m.heap (m.stack.toList++
        m.globals.bindings.map Prod.snd++m.pools.toList.flatMap Array.toList)) =
      .ok reclaimed h := hok
    simp only [teardown, hswept]
  have hswept : (releaseEach m.heap m.held).stats.swept = n := hreleased.swept
  rw [hteardown, hstats]
  exact ⟨hsound, hdead, by rw [← hswept]; rfl⟩

/-- After a teardown the machine is as good as new. -/
theorem teardown_fresh {c : Config} {b : Bool} {n : Nat} (hm : m.Counted (.basic c b n) X S) :
    m.teardown.Counted (.basic c false m.teardown.heap.stats.swept) [] S := by
  obtain ⟨_, _, hsound, hdead, _⟩ := teardown_counted hm
  refine ⟨hm.config, rfl, rfl, fun _ h => h.elim, fun _ _ _ => trivial, hsound, ?_, ?_,
    by simp [teardown, Globals.empty], by simp [teardown], by simp [teardown]⟩
  · intro r
    rw [Heap.refs_of_dead (hdead.live? r)]
    simp [held, teardown, Globals.empty]
  · intro r l hl
    simp [hdead.live? r] at hl

end Machine

/-- What can be done with a machine from outside. -/
inductive Call where
  | interpret (p : Program) (turns : Nat)
  | push (v : Value)
  | pop
  | pushText (content : String)
  | newText (content : String)
  | teardown

namespace Call

/-- The machine after a call, whether the call fails or not. -/
def run (m : Machine) : Call → Machine
  | interpret p turns => (m.interpret p turns).2
  | push v => after (Exec.push v) m
  | pop => after Exec.pop m
  | pushText content => after (Exec.pushText content) m
  | newText content => after (Exec.newText content) m
  | teardown => m.teardown

end Call

namespace Exec

/-- The globals are the same. -/
def SameGlobals (m m' : Machine) : Prop := m'.globals = m.globals

instance : Std.Refl SameGlobals := ⟨fun _ => rfl⟩

instance : Trans SameGlobals SameGlobals SameGlobals := ⟨fun h k => Eq.trans k h⟩

instance {α : Type} (x : HeapM α) : Keeps SameGlobals (onHeap x) where
  keeps m := by
    cases hx : x m.heap with
    | ok a h =>
      rw [after_of_ok (onHeap_ok hx)]
      rfl
    | error e h =>
      rw [after_of_error (onHeap_error hx)]
      rfl

instance : Lenient SameGlobals where
  retain _ := inferInstanceAs (Keeps SameGlobals (onHeap _))
  release _ := inferInstanceAs (Keeps SameGlobals (onHeap _))
  alloc _ := inferInstance
  stack _ _ := rfl
  world _ _ := rfl

instance : Roaming SameGlobals := ⟨fun _ _ => rfl⟩

end Exec

namespace Machine

variable {S : Handle → Prop} {m : Machine}

/-- Between calls: counts are exact, and there are no globals before natives are bound. -/
def Rests (S : Handle → Prop) (m : Machine) : Prop :=
  ∃ c b n, m.Counted (.basic c b n) [] S ∧ Exec.Unbound b m

theorem rests_new (config : Config) (world : World) : (new config world).Rests S :=
  ⟨config, false, 0, counted_new config world, fun _ => rfl⟩

theorem rests_teardown (hm : m.Rests S) : m.teardown.Rests S := by
  obtain ⟨c, b, n, hm, _⟩ := hm
  exact ⟨c, false, _, teardown_fresh hm, fun _ => rfl⟩

theorem rests_interpret {p : Program} (hp : p.Resolves) (turns : Nat) (hm : m.Rests S) :
    (m.interpret p turns).2.Rests S := by
  obtain ⟨c, b, n, hm, hunbound⟩ := hm
  rcases interpret_counted p turns hm hunbound with h | ⟨_, hnot, _⟩
  · exact ⟨c, true, n, h, fun hb => by cases hb⟩
  · exact absurd hp hnot

/-- A step that leaves the globals alone. -/
theorem rests_of_keeps {α : Type} {x : Exec α}
    (hx : ∀ z, Yields (Counted z [] S) x (fun _ => Counted z [] S) (fun _ => Counted z [] S))
    (hglobals : Keeps Exec.SameGlobals x) (hm : m.Rests S) : (after x m).Rests S := by
  obtain ⟨c, b, n, hm, hunbound⟩ := hm
  have hsame : (after x m).globals = m.globals := hglobals.keeps m
  refine ⟨c, b, n, (hx _).after hm, ?_⟩
  intro hb
  rw [hsame, hunbound hb]

/-- Calls from outside may leave new texts unheld, so nothing is said of unheld objects here. -/
theorem rests_call (call : Call) (hm : m.Rests fun _ => True)
    (hp : ∀ p turns, call = .interpret p turns → p.Resolves) :
    (call.run m).Rests fun _ => True := by
  cases call with
  | interpret p turns => exact rests_interpret (hp p turns rfl) turns hm
  | push v => exact rests_of_keeps (fun _ => Yields.of_keeps inferInstance) inferInstance hm
  | pop => exact rests_of_keeps (fun _ => Yields.of_keeps inferInstance) inferInstance hm
  | pushText content =>
    exact rests_of_keeps (fun _ => Yields.of_keeps inferInstance) inferInstance hm
  | newText content =>
    refine rests_of_keeps (fun z => ?_) inferInstance hm
    exact (Exec.newText_yields (F := fun _ => True) (fun _ _ h => h) content).mono
      (fun _ h => ⟨h, trivial⟩) (fun _ _ h => h.1.mono fun _ _ => trivial) fun _ _ h => h
  | teardown => exact rests_teardown hm

theorem rests_calls (calls : List Call) (hm : m.Rests fun _ => True)
    (hp : ∀ p turns, .interpret p turns ∈ calls → p.Resolves) :
    (calls.foldl Call.run m).Rests fun _ => True := by
  induction calls generalizing m with
  | nil => exact hm
  | cons call rest ih =>
    refine ih (rests_call call hm ?_) ?_
    · intro p turns hcall
      exact hp p turns (by simp [hcall])
    · intro p turns hmem
      exact hp p turns (List.mem_cons_of_mem _ hmem)

end Machine

/-- Declares a runnable, joins two texts and fails to negate the result. -/
def joining : Program :=
  ⟨#[⟨"<script>", 0, #[], ⟨#[55, 2, 0, 0, 2, 0, 2, 1, 7, 11], #[.text "rat", .text "s", .runnable 1]⟩,
      none, 0⟩,
    ⟨"f", 0, #[], ⟨#[5, 1], #[]⟩, some 0, 0⟩]⟩

namespace Machine

/-- A world without input and files. -/
def quiet : World := ⟨[], .empty, .empty, .empty⟩

/-- Programs run one after another, each for at most so many turns, with their outcomes. -/
def interpretAll : List (Program × Nat) → Machine → List Outcome × Machine
  | [], m => ([], m)
  | (p, turns) :: rest, m =>
    let (outcome, m) := m.interpret p turns
    let (outcomes, m) := interpretAll rest m
    (outcome :: outcomes, m)

variable {S : Handle → Prop} {m : Machine}

/-- Holds are left over only by programs that could not be loaded. -/
theorem interpretAll_counted (runs : List (Program × Nat)) {c : Config} {b : Bool} {n : Nat}
    {X : List Value} (hm : m.Counted (.basic c b n) X S) (hunbound : Exec.Unbound b m) :
    ∃ b' Y, (m.interpretAll runs).2.Counted (.basic c b' n) Y S ∧
      ((∀ o ∈ (m.interpretAll runs).1, ¬ Unloaded o) → Y = X) := by
  induction runs generalizing m b X with
  | nil => exact ⟨b, X, hm, fun _ => rfl⟩
  | cons run rest ih =>
    obtain ⟨p, turns⟩ := run
    have hnext {Y : List Value} (h : (m.interpret p turns).2.Counted (.basic c true n) Y S) :=
      ih h (fun hb => by cases hb)
    rcases interpret_counted p turns hm hunbound with h | ⟨hunloaded, _, Y, h⟩
    · obtain ⟨b', W, hw, heq⟩ := hnext h
      exact ⟨b', W, hw, fun hall => heq fun o ho => hall o (List.mem_cons_of_mem _ ho)⟩
    · obtain ⟨b', W, hw, _⟩ := hnext h
      refine ⟨b', W, hw, fun hall => ?_⟩
      exact absurd hunloaded (hall _ (List.mem_cons_self ..))

/-- Two runs of it, one to its fault and one that is stopped before. -/
def joiningRuns : List (Program × Nat) := [(joining, 9), (joining, 3)]

theorem joiningRuns_outcomes : ((new {} quiet).interpretAll joiningRuns).1 =
    [.failed ⟨.negate "STRING \"rats\"", 1⟩, .running] := by
  decide +kernel

end Machine
end RatScript
