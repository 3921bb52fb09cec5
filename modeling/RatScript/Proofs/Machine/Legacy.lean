import RatScript.Proofs.Machine.Survival

/-!
What one program leaves to the next on the same machine. Its globals stay, unless they hold its
runnables; runnables are always those of the program that is run, and natives keep their names.
-/

namespace RatScript

open Stateful

namespace Exec

open Machine

/-! Handles outlive a program. -/

/-- Objects stay what they are, whatever becomes of the rest. -/
abbrev Lets : Machine → Machine → Prop := Spares fun _ => False

theorem modify_lets {f : Machine → Machine} (hf : ∀ m, (f m).heap = m.heap) :
    Keeps Lets (modify f : Exec PUnit) :=
  Keeps.modify fun m => ⟨(hf m).symm ▸ Std.Refl.refl (r := Heap.Ages) m.heap, nofun⟩

instance (vs : List Value) : Keeps Lets (releaseAll vs) := by
  induction vs with
  | nil => exact inferInstanceAs (Keeps _ (pure ()))
  | cons v rest ih => exact Keeps.seq inferInstance fun _ => ih

instance (dropped : List (String × Value)) : Keeps Lets (dropGlobals dropped) := by
  induction dropped with
  | nil => exact inferInstanceAs (Keeps _ (pure ()))
  | cons b rest ih =>
    exact Keeps.seq (modify_lets fun _ => rfl) fun _ => Keeps.seq inferInstance fun _ => ih

instance : Keeps Lets reset := by
  refine Keeps.seq inferInstance fun _ => Keeps.seq (modify_lets fun _ => rfl) fun _ =>
    Keeps.seq inferInstance fun _ => Keeps.seq (modify_lets fun _ => rfl) fun _ =>
      Keeps.seq inferInstance fun _ => Keeps.seq (modify_lets fun _ => rfl) fun _ => inferInstance

instance (natives : List Native) : Keeps Lets (bindAll natives) := by
  induction natives with
  | nil => exact inferInstanceAs (Keeps _ (pure ()))
  | cons n rest ih =>
    exact Keeps.seq inferInstance fun _ => Keeps.seq inferInstance fun _ => ih

instance : Keeps Lets bindNatives := by
  refine Keeps.seq inferInstance fun m => ?_
  split
  · infer_instance
  · exact Keeps.seq inferInstance fun _ => modify_lets fun _ => rfl

instance (p : Program) (k : Constant) : Keeps Lets (newConstant p k) := by
  cases k with
  | number x => exact inferInstanceAs (Keeps _ (pure _))
  | text content => exact inferInstanceAs (Keeps _ (newText _))
  | runnable id =>
    cases hid : p.function? id with
    | none =>
      simp only [newConstant, hid]
      infer_instance
    | some f =>
      simp only [newConstant, hid]
      infer_instance

instance (p : Program) : Keeps Lets (load p) :=
  Keeps.seq inferInstance fun _ => Keeps.seq inferInstance fun _ =>
    Keeps.seq (loadConstants_keeps (fun m _ => ⟨Std.Refl.refl m.heap, nofun⟩) _) fun _ =>
      modify_lets fun _ => rfl

end Exec

namespace Machine

open Exec

variable {p : Program} {z : Setting} {S : Handle → Prop} {m m' : Machine}

theorem interpret_ages (p : Program) (turns : Nat) (m : Machine) :
    m.heap.Ages (m.interpret p turns).2.heap := by
  have hload : Keeps Lets (load p) := inferInstance
  unfold interpret
  split
  · next hl => exact (hload.of_error hl).heap
  · next m' hl =>
    have hrun := runFor_ages p turns m'
    split
    · next hr =>
      rw [hr] at hrun
      exact Trans.trans (hload.of_ok hl).heap hrun
    · exact Trans.trans (hload.of_ok hl).heap hrun

theorem interpretAll_ages (runs : List (Program × Nat)) (m : Machine) :
    m.heap.Ages (m.interpretAll runs).2.heap := by
  induction runs generalizing m with
  | nil => exact Std.Refl.refl m.heap
  | cons run rest ih => exact Trans.trans (interpret_ages run.1 run.2 m) (ih _)

/-! Natives keep their names. -/

theorem guards_of_names (hm : ∀ n, Names m n) : Guards (fun x => ∃ n : Native, x = n.name) m := by
  rintro _ ⟨n, rfl⟩
  obtain ⟨r, hr, ho⟩ := hm n
  refine ⟨.object r, hr, ?_⟩
  simp [Heap.isNative, Heap.object, Heap.get, ho, Except.map]

theorem advance_names (hm : m.Counted z [] S) (hgiven : m.heap.Outlives [])
    (hnames : ∀ n, Names m n) (hfew : (m.advance p).2.heap.stats.allocations < 2^32) (n : Native) :
    Names (m.advance p).2 n := by
  have hspares := advance_spares p (guards_of_names hnames)
  obtain ⟨r, hr, ho⟩ := hnames n
  obtain ⟨l, hl, hobject⟩ := Option.map_eq_some_iff.mp ho
  have hr' := hspares.names n.name (.object r) ⟨n, rfl⟩ hr
  have hheld : .object r ∈ ([] : List Value)++(m.advance p).2.held :=
    mem_held_of_binding (Globals.mem_bindings hr')
  obtain ⟨l', hl'⟩ := (advance_counted p hm).live_of_held hheld
  obtain ⟨_, hsame⟩ := (hspares.heap.keeps hfew hm.sound).2 [r] (hgiven.live hl)
  obtain ⟨k, hk, hsame⟩ := hsame r (by simp) l' hl'
  rw [hl] at hk
  cases hk
  exact ⟨r, hr', by simp [Heap.object?, hl', ← hsame, hobject]⟩

theorem runFor_names {turns : Nat} (hm : m.Counted z [] S) (hgiven : m.heap.Outlives [])
    (hnames : ∀ n, Names m n) (hfew : (m.runFor p turns).2.heap.stats.allocations < 2^32) :
    ∀ n, Names (m.runFor p turns).2 n := by
  induction turns generalizing m with
  | zero => exact hnames
  | succ turns ih =>
    have hcounted := advance_counted p hm
    have hages := (advance_spares p (N := fun _ => False) (m := m) nofun).heap
    have hnext := advance_names (p := p) hm hgiven hnames
    unfold runFor at hfew ⊢
    split at hfew
    · next m' ha =>
      rw [ha] at hcounted hages hnext
      have hfew' := Nat.lt_of_le_of_lt (runFor_ages p turns m').allocations hfew
      exact ih hcounted ((hages.keeps hfew' hm.sound).2 [] hgiven).1 (hnext hfew') hfew
    · exact hnext hfew

/-! Runnables are those of the program. -/

/-- As long as the program is run, a runnable has the name of the function it is. -/
def naming (m : Machine) (p : Program) : Setting where
  config := m.config
  bound := m.nativesBound
  swept := m.heap.stats.swept
  pinned _ := False
  typed _ o := ∀ id name, o = .runnable id name → ∃ f, p.function? id = some f ∧ f.name = name
  texts _ _ _ _ _ h := by cases h

theorem Loaded.counted_naming (h : m.Loaded p m') :
    m'.Counted (m'.naming p) [] fun _ => False where
  config := rfl
  bound := rfl
  swept := rfl
  pinned _ h := h.elim
  typed r l hl id name ho := by
    have hobject : m'.heap.object? r = some (.runnable id name) := by simp [Heap.object?, hl, ho]
    rcases h.objects r _ hobject with ⟨_, hnot⟩ | ⟨n, hn⟩ | hmade
    · exact absurd rfl (hnot id name)
    · cases hn
    · exact hmade
  sound := h.counted.sound
  counts := h.counted.counts
  kept := h.counted.kept
  named := h.counted.named
  room := by
    have hroom := h.counted.room
    rwa [← h.counted.config] at hroom
  bases := by
    have hbases := h.counted.bases
    rwa [← h.counted.config] at hbases

/-! Sessions. -/

/-- Between programs: counts are exact, handles were given once, and natives have their names as soon
as there are any. -/
structure Waits (m : Machine) : Prop where
  rests : m.Rests fun _ => False
  given : m.heap.Outlives []
  names : m.nativesBound = true → ∀ n, Names m n

theorem waits_new (config : Config) (world : World) : (new config world).Waits :=
  ⟨rests_new config world, Heap.outlives_empty, nofun⟩

/-- When a program begins, natives have their names. -/
theorem Waits.start (hm : m.Waits) (h : m.Loaded p m') (n : Native) : Names m' n := by
  obtain ⟨c, b, k, hcounted, _⟩ := hm.rests
  cases hbound : m.nativesBound with
  | true =>
    obtain ⟨r, hr, ho⟩ := hm.names hbound n
    have hnot : m.heap.isRunnable (.object r) = false := by
      simp [Heap.isRunnable, Heap.object, Heap.get, ho, Except.map]
    have hr' : m'.globals.get? n.name = some (.object r) := by
      simp [h.get? hbound hcounted.named, hr, hnot]
    exact ⟨r, hr', (h.same hbound _ (Globals.mem_bindings hr') r rfl).trans ho⟩
  | false => exact (h.natives hbound).1 n

/-- A run leaves what its turns have left. -/
theorem interpret_data {loaded : Machine} (hload : Exec.load p m = .ok () loaded) (turns : Nat) :
    (m.interpret p turns).2.heap = (loaded.runFor p turns).2.heap ∧
      (m.interpret p turns).2.globals = (loaded.runFor p turns).2.globals := by
  unfold interpret
  simp only [hload]
  split
  · next hr =>
    rw [hr]
    exact ⟨rfl, rfl⟩
  · exact ⟨rfl, rfl⟩

theorem Waits.loads (hm : m.Waits) (hp : p.Resolves) :
    ∃ loaded, Exec.load p m = .ok () loaded ∧ m.Loaded p loaded := by
  obtain ⟨c, b, n, hcounted, hunbound⟩ := hm.rests
  exact load_ok hp hcounted hunbound

theorem Waits.sound (hm : m.Waits) : m.heap.Sound := by
  obtain ⟨_, _, _, hcounted, _⟩ := hm.rests
  exact hcounted.sound

/-- Natives keep their names throughout a run. -/
theorem Waits.interpret_names {turns : Nat} (hm : m.Waits) (hp : p.Resolves)
    (hfew : (m.interpret p turns).2.heap.stats.allocations < 2^32) (n : Native) :
    Names (m.interpret p turns).2 n := by
  obtain ⟨loaded, hload, h⟩ := hm.loads hp
  obtain ⟨hheap, hglobals⟩ := interpret_data hload turns
  rw [hheap] at hfew
  have hages : m.heap.Ages loaded.heap :=
    ((inferInstance : Keeps Lets (Exec.load p)).of_ok hload).heap
  have hfew' := Nat.lt_of_le_of_lt (runFor_ages p turns loaded).allocations hfew
  have hgiven := ((hages.keeps hfew' hm.sound).2 [] hm.given).1
  obtain ⟨r, hr, ho⟩ := runFor_names h.counted hgiven (fun n => hm.start h n) hfew n
  exact ⟨r, hglobals ▸ hr, hheap ▸ ho⟩

theorem Waits.interpret {turns : Nat} (hm : m.Waits) (hp : p.Resolves)
    (hfew : (m.interpret p turns).2.heap.stats.allocations < 2^32) :
    (m.interpret p turns).2.Waits where
  rests := rests_interpret hp turns hm.rests
  given := (((interpret_ages p turns m).keeps hfew hm.sound).2 [] hm.given).1
  names _ := hm.interpret_names hp hfew

theorem Waits.interpretAll {runs : List (Program × Nat)} (hm : m.Waits)
    (hruns : ∀ run ∈ runs, run.1.Resolves)
    (hfew : (m.interpretAll runs).2.heap.stats.allocations < 2^32) : (m.interpretAll runs).2.Waits := by
  induction runs generalizing m with
  | nil => exact hm
  | cons run rest ih =>
    have hages := interpretAll_ages rest (m.interpret run.1 run.2).2
    have hnext := hm.interpret (hruns run (by simp)) (Nat.lt_of_le_of_lt hages.allocations hfew)
    exact ih hnext (fun r hr => hruns r (List.mem_cons_of_mem _ hr)) hfew

/-- All runnables are functions of the program that is run, and have their names. -/
theorem Waits.interpret_runnables {turns : Nat} (hm : m.Waits) (hp : p.Resolves) {r : Handle} {id : Nat}
    {name : String} (ho : (m.interpret p turns).2.heap.object? r = some (.runnable id name)) :
    ∃ f, p.function? id = some f ∧ f.name = name := by
  obtain ⟨loaded, hload, h⟩ := hm.loads hp
  rw [(interpret_data hload turns).1] at ho
  obtain ⟨l, hl, hobject⟩ := Option.map_eq_some_iff.mp ho
  exact (runFor_counted p turns h.counted_naming).typed r l hl id name hobject

theorem joined_holds :
    ((new {} quiet).interpretAll [(joining, 9)]).2.globals.get? "f" = some (.object ⟨11, 0⟩) ∧
    ((new {} quiet).interpretAll [(joining, 9)]).2.heap.isRunnable (.object ⟨11, 0⟩) = true := by
  decide +kernel

theorem joined_again :
    (((new {} quiet).interpretAll [(joining, 9)]).2.interpret joining 3).2.heap.stats.allocations <
        2^32 ∧
      (((new {} quiet).interpretAll [(joining, 9)]).2.interpret joining 3).2.heap.object? ⟨9, 1⟩ =
        some (.runnable 1 "f") := by
  decide +kernel

end Machine
end RatScript
