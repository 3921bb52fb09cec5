import RatScript.Proofs.Machine.Handles
import RatScript.Proofs.Machine.Reload

/-!
What a run cannot take away. A handle that was given once is never given to another object, as long as
generations do not run out; and names of natives stay bound, since nothing may be assigned to them.
-/

namespace RatScript

open Stateful

namespace Heap

variable {h h' : Heap} {handles : List Handle} {r : Handle} {v : Value}

theorem Outlives.mono {more : List Handle} (hh : h.Outlives more) (hsub : handles ⊆ more) :
    h.Outlives handles :=
  ⟨fun r hr => hh.past r (hsub hr), hh.age⟩

theorem outlives_empty : empty.Outlives [] := ⟨nofun, rfl⟩

/-- What is live has been given. -/
theorem Outlives.live {l : Live} (hh : h.Outlives handles) (hl : h.live? r = some l) :
    h.Outlives (r :: handles) where
  past s hs := by
    rcases List.mem_cons.mp hs with rfl | hs
    · exact ⟨_, live?_eq_some.mp hl, .inr ⟨rfl, rfl⟩⟩
    · exact hh.past s hs
  age := hh.age

/-- Time goes by: handles that were given stand for the object they stood for, or for none. -/
structure Ages (h h' : Heap) : Prop where
  allocations : h.stats.allocations ≤ h'.stats.allocations
  keeps : h'.stats.allocations < 2^32 → h.Sound → h'.Sound ∧
    ∀ handles, h.Outlives handles → h'.Outlives handles ∧
      ∀ r ∈ handles, ∀ l', h'.live? r = some l' → ∃ l, h.live? r = some l ∧ l.object = l'.object

instance : Std.Refl Ages :=
  ⟨fun _ => ⟨Nat.le_refl _, fun _ hs => ⟨hs, fun _ hh => ⟨hh, fun _ _ l hl => ⟨l, hl, rfl⟩⟩⟩⟩⟩

instance : Trans Ages Ages Ages where
  trans h k := by
    refine ⟨h.allocations.trans k.allocations, fun hfew hs => ?_⟩
    obtain ⟨hs', hkeeps⟩ := h.keeps (Nat.lt_of_le_of_lt k.allocations hfew) hs
    obtain ⟨hs'', hkeeps'⟩ := k.keeps hfew hs'
    refine ⟨hs'', fun handles hh => ?_⟩
    obtain ⟨hh', hsame⟩ := hkeeps handles hh
    obtain ⟨hh'', hsame'⟩ := hkeeps' handles hh'
    refine ⟨hh'', fun r hr l'' hl'' => ?_⟩
    obtain ⟨l', hl', ho'⟩ := hsame' r hr l'' hl''
    obtain ⟨l, hl, ho⟩ := hsame r hr l' hl'
    exact ⟨l, hl, ho.trans ho'⟩

theorem ages_of_turns (hallocations : h'.stats.allocations = h.stats.allocations)
    (hchange : h.stats.allocations < 2^32 → h.Sound → h'.Sound ∧ ∃ r k, h.Turns r k h' ∧
      (∀ l', k = some l' → ∃ l, h.live? r = some l ∧ l.object = l'.object) ∧
      ∀ handles, h.Outlives handles → h'.Outlives handles) : h.Ages h' := by
  refine ⟨Nat.le_of_eq hallocations.symm, fun hfew hs => ?_⟩
  obtain ⟨hs', r, k, ht, hobject, hkeeps⟩ := hchange (hallocations ▸ hfew) hs
  refine ⟨hs', fun handles hh => ⟨hkeeps handles hh, fun s _ l' hl' => ?_⟩⟩
  rw [ht.live s] at hl'
  split at hl'
  · next heq =>
    subst heq
    exact hobject l' hl'
  · exact ⟨l', hl', rfl⟩

instance (o : Object) : Keeps Ages (Heap.alloc o) where
  keeps h := by
    obtain ⟨r, h', heq⟩ : ∃ r h', alloc o h = .ok r h' := by
      obtain ⟨entries, _ | ⟨slot, free⟩, stats⟩ := h <;> exact ⟨_, _, rfl⟩
    have hallocations : h'.stats.allocations = h.stats.allocations+1 := by
      obtain ⟨entries, _ | ⟨slot, free⟩, stats⟩ := h <;> cases heq <;> rfl
    rw [after_of_ok heq]
    refine ⟨by omega, fun _ hs => ?_⟩
    obtain ⟨_, _, heq', hs', _, ht⟩ := alloc_ok hs o
    rw [heq] at heq'
    cases heq'
    refine ⟨hs', fun handles hh => ?_⟩
    obtain ⟨hh', hnew, _⟩ := hh.alloc hs heq
    refine ⟨hh'.mono (by simp), fun s hmem l' hl' => ?_⟩
    have hne : s ≠ r := fun h => hnew (h ▸ hmem)
    rw [ht.live s, if_neg hne] at hl'
    exact ⟨l', hl', rfl⟩

instance (r : Handle) : Keeps Ages (Heap.retain r) where
  keeps h := by
    cases hl : h.live? r with
    | none =>
      rw [after_of_error (retain_stale hl)]
      exact Std.Refl.refl h
    | some l =>
      obtain ⟨h', heq⟩ : ∃ h', retain r h = .ok () h' := ⟨_, by simp only [retain, hl]; rfl⟩
      have hallocations : h'.stats.allocations = h.stats.allocations := by
        simp only [retain, hl] at heq
        cases heq
        rfl
      rw [after_of_ok heq]
      refine ages_of_turns hallocations fun _ hs => ?_
      obtain ⟨_, heq', hs', ht⟩ := retain_ok hs hl
      rw [heq] at heq'
      cases heq'
      refine ⟨hs', r, _, ht, fun l' hl' => ?_, fun handles hh => (hh.retain heq).1⟩
      cases hl'
      exact ⟨l, hl, rfl⟩

instance (r : Handle) : Keeps Ages (Heap.release r) where
  keeps h := by
    cases heq : release r h with
    | error e h' =>
      have hsame : h' = h := by
        unfold release at heq
        split at heq
        · cases heq
          rfl
        · split at heq <;> cases heq
          rfl
      rw [after_of_error heq, hsame]
      exact Std.Refl.refl h
    | ok last h' =>
      obtain ⟨l, hl⟩ : ∃ l, h.live? r = some l := by
        cases hl : h.live? r with
        | none => simp [release, hl] at heq
        | some l => exact ⟨l, rfl⟩
      have hpos : 0 < l.refs := by
        apply Nat.pos_of_ne_zero
        intro hzero
        simp [release, hl, hzero] at heq
      have hallocations : h'.stats.allocations = h.stats.allocations := by
        unfold release at heq
        simp only [hl] at heq
        split at heq <;> cases heq <;> rfl
      rw [after_of_ok heq]
      refine ages_of_turns hallocations fun hfew hs => ?_
      obtain ⟨_, _, heq', hs', ht⟩ := release_ok hs hl hpos
      rw [heq] at heq'
      cases heq'
      refine ⟨hs', r, _, ht, fun l' hl' => ?_, fun handles hh => (hh.release hs hfew hl heq).1⟩
      split at hl'
      · cases hl'
      · cases hl'
        exact ⟨l, hl, rfl⟩

instance (v : Value) : Keeps Ages (retainValue v) := by
  cases v with
  | object r => exact inferInstanceAs (Keeps Ages (Heap.retain r))
  | none | number | bool => exact inferInstanceAs (Keeps Ages (pure () : HeapM Unit))

instance (v : Value) : Keeps Ages (releaseValue v) := by
  cases v with
  | object r =>
    refine ⟨fun h => ?_⟩
    have hsame : after (releaseValue (.object r)) h = after (Heap.release r) h := by
      simp only [after, releaseValue, discard, Functor.mapConst, EStateM.map, Function.comp_apply]
      cases Heap.release r h <;> rfl
    rw [hsame]
    exact Keeps.keeps h
  | none | number | bool => exact inferInstanceAs (Keeps Ages (pure () : HeapM Unit))

end Heap
/-- Objects stay under the handles they were given, and names that have `N` stay bound to the value
they are bound to. -/
structure Machine.Spares (N : String → Prop) (m m' : Machine) : Prop where
  heap : m.heap.Ages m'.heap
  names : ∀ x v, N x → m.globals.get? x = some v → m'.globals.get? x = some v

namespace Exec

open Machine

variable {N : String → Prop} {m m' : Machine}

instance : Std.Refl (Spares N) := ⟨fun m => ⟨Std.Refl.refl m.heap, fun _ _ _ h => h⟩⟩

instance : Trans (Spares N) (Spares N) (Spares N) :=
  ⟨fun h k => ⟨Trans.trans h.heap k.heap, fun x v hx hv => k.names x v hx (h.names x v hx hv)⟩⟩

/-- Neither heap nor globals change. -/
theorem spares_of_eq (hheap : m'.heap = m.heap) (hglobals : m'.globals = m.globals) : m.Spares N m' :=
  ⟨hheap.symm ▸ Std.Refl.refl (r := Heap.Ages) m.heap, fun _ _ _ h => hglobals ▸ h⟩

theorem onHeap_spares {α : Type} (x : HeapM α) [hx : Keeps Heap.Ages x] :
    Keeps (Spares N) (onHeap x) where
  keeps m := by
    cases heq : x m.heap with
    | ok a h =>
      rw [after_of_ok (onHeap_ok heq)]
      exact ⟨hx.of_ok heq, fun _ _ _ h => h⟩
    | error e h =>
      rw [after_of_error (onHeap_error heq)]
      exact ⟨hx.of_error heq, fun _ _ _ h => h⟩

instance : Lenient (Spares N) where
  retain _ := onHeap_spares _
  release _ := onHeap_spares _
  alloc _ := onHeap_spares _
  stack _ _ := spares_of_eq rfl rfl
  world _ _ := spares_of_eq rfl rfl

instance : Roaming (Spares N) := ⟨fun _ _ => spares_of_eq rfl rfl⟩

/-! Globals. -/

/-- A name that was free is bound. -/
instance (name : String) (v : Value) : Keeps (Spares N) (defineGlobal name v) := by
  refine Keeps.get_bind fun m => ?_
  split
  · exact Std.Refl.refl m
  · next hnone =>
    have hretain : Keeps (Spares N) (retain v) := inferInstance
    have hsame : Keeps SameGlobals (retain v) := inferInstance
    cases hr : retain v m with
    | ok u m₁ =>
      have hm₁ : m.Spares N m₁ := hretain.of_ok hr
      have hglobals : m₁.globals = m.globals := hsame.of_ok hr
      have hok : (do retain v; modify fun m => {m with globals := m.globals.define name v} : Exec Unit)
          m = .ok () {m₁ with globals := m₁.globals.define name v} := by
        simp only [bind, EStateM.bind, hr]
        rfl
      rw [after_of_ok hok]
      refine ⟨hm₁.heap, fun x w hx hw => ?_⟩
      have hne : x ≠ name := by
        rintro rfl
        rw [hnone] at hw
        cases hw
      rw [Globals.get?_define, if_neg hne, hglobals]
      exact hw
    | error e m₁ =>
      have herror : (do retain v; modify fun m => {m with globals := m.globals.define name v} : Exec Unit)
          m = .error e m₁ := by
        simp only [bind, EStateM.bind, hr]
      rw [after_of_error herror]
      exact hretain.of_error hr

/-- Another name gets a new value. -/
theorem storeGlobal_spares {name : String} (hname : ¬ N name) (v : Value) :
    Keeps (Spares N) (storeGlobal name v) := by
  have hother {g : Globals} {m : Machine}
      (hg : ∀ x, g.get? x = if x = name then some v else m.globals.get? x) :
      m.Spares N {m with globals := g} := by
    refine ⟨Std.Refl.refl m.heap, fun x w hx hw => ?_⟩
    have hne : x ≠ name := fun heq => hname (heq ▸ hx)
    rw [hg x, if_neg hne]
    exact hw
  refine Keeps.seq inferInstance fun _ => Keeps.get_bind fun m => ?_
  split
  · next old hold =>
    have hrelease : Keeps (Spares N) (release old) := inferInstance
    exact Trans.trans (hother (Globals.get?_set hold v)) (hrelease.keeps _)
  · exact hother fun x => Globals.get?_define m.globals name x v

/-! Instructions. -/

/-- Heap and globals are the same. -/
def Reads (m m' : Machine) : Prop := m'.heap = m.heap ∧ m'.globals = m.globals

instance : Std.Refl Reads := ⟨fun _ => ⟨rfl, rfl⟩⟩

instance : Trans Reads Reads Reads := ⟨fun h k => ⟨k.1.trans h.1, k.2.trans h.2⟩⟩

instance (ip : Nat) : Keeps Reads (setIp ip) := by
  apply Keeps.modify
  intro m
  split <;> exact ⟨rfl, rfl⟩

/-- No name that has `N` may be assigned to. -/
def Guards (N : String → Prop) (m : Machine) : Prop :=
  ∀ x, N x → ∃ v, m.globals.get? x = some v ∧ (m.heap.isRunnable v || m.heap.isNative v) = true

theorem Guards.reads (hm : Guards N m) (h : Reads m m') : Guards N m' := by
  intro x hx
  rw [h.1, h.2]
  exact hm x hx

theorem not_of_assignable {name : String} {v : Value} (hm : Guards N m)
    (h : assignable name m = .ok v m') : ¬ N name := by
  intro hname
  obtain ⟨u, hu, hguarded⟩ := hm name hname
  have hthrow : assignable name m = .error (.assignRunnable name) m := by
    simp only [assignable, global, bind, EStateM.bind, get, getThe, MonadStateOf.get, EStateM.get, hu,
      pure, EStateM.pure, hguarded, if_true]
    rfl
  rw [hthrow] at h
  cases h

/-- What is done to a global that may be assigned to. -/
theorem assigning_spares {α : Type} {f : Function} {g : String → Value → Exec α} (hm : Guards N m)
    (hg : ∀ name, ¬ N name → ∀ v, Keeps (Spares N) (g name v)) :
    m.Spares N (after (identifier f >>= fun name => assignable name >>= g name) m) := by
  have hidentifier : Yields (· = m) (identifier f) (fun _ m' => m.Spares N m' ∧ Guards N m')
      fun _ => m.Spares N := by
    intro s hs
    rw [hs]
    have hspares : Keeps (Spares N) (identifier f) := inferInstance
    have hreads : Keeps Reads (identifier f) := inferInstance
    cases hx : identifier f m with
    | ok name m' => exact ⟨hspares.of_ok hx, hm.reads (hreads.of_ok hx)⟩
    | error e m' => exact hspares.of_error hx
  refine Yields.after (Yields.bind hidentifier fun name m' hm' => ?_) rfl
  refine Yields.reads inferInstance (fun v hv => ?_) (fun _ => hm'.1) m' rfl
  have hspares := hg name (not_of_assignable hm'.2 hv) v
  intro s hs
  rw [hs]
  cases hx : g name v m' with
  | ok a m'' => exact (Trans.trans hm'.1 (hspares.of_ok hx) : m.Spares N m'')
  | error e m'' => exact (Trans.trans hm'.1 (hspares.of_error hx) : m.Spares N m'')

theorem execute_spares (p : Program) (id : Nat) (f : Function) (op : Opcode) (hm : Guards N m) :
    m.Spares N (after (execute p id f op) m) := by
  by_cases hbinds : op.binds = true
  · unfold execute
    cases op with
    | define | defineRunnable =>
      have hkeeps {x : Exec Unit} [hx : Keeps (Spares N) x] : m.Spares N (after x m) := hx.keeps m
      exact hkeeps
    | set scope =>
      cases scope with
      | global =>
        exact assigning_spares hm fun name hname _ => Keeps.seq inferInstance fun v =>
          storeGlobal_spares hname v
      | frame => cases hbinds
    | count scope up =>
      cases scope with
      | global =>
        exact assigning_spares hm fun name hname old => Keeps.seq inferInstance fun v =>
          Keeps.seq (storeGlobal_spares hname v) fun _ => inferInstance
      | frame => cases hbinds
    | compound scope op =>
      cases scope with
      | global =>
        exact assigning_spares hm fun name hname old => Keeps.seq inferInstance fun y =>
          Keeps.seq inferInstance fun v => Keeps.seq (storeGlobal_spares hname v) fun _ => inferInstance
      | frame => cases hbinds
    | _ => cases hbinds
  · exact (keeps_execute p id f (Bool.not_eq_true _ ▸ hbinds)).keeps m

theorem spares_bind {α β : Type} {x : Exec α} {g : α → Exec β} (hx : m.Spares N (after x m))
    (hg : ∀ a m', x m = .ok a m' → m'.Spares N (after (g a) m')) :
    m.Spares N (after (x >>= g) m) := by
  cases hok : x m with
  | ok a m' =>
    rw [after_of_ok hok] at hx
    have h := hg a m' hok
    simp only [after, bind, EStateM.bind, hok] at h ⊢
    exact Trans.trans hx h
  | error e m' =>
    rw [after_of_error hok] at hx
    simpa only [after, bind, EStateM.bind, hok] using hx

theorem step_spares (p : Program) (id : Nat) (f : Function) (hm : Guards N m) :
    m.Spares N (after (step p id f) m) := by
  have hspares : Keeps (Spares N) (readByte f.chunk.code) := inferInstance
  have hreads : Keeps Reads (readByte f.chunk.code) := inferInstance
  refine spares_bind (hspares.keeps m) fun byte m' hx => ?_
  split
  · next op _ => exact execute_spares p id f op (hm.reads (hreads.of_ok hx))
  · exact Std.Refl.refl m'

end Exec

namespace Machine

open Exec

variable {N : String → Prop} {m m' : Machine}

/-- A turn takes nothing from names that may not be assigned to. -/
theorem advance_spares (p : Program) (hm : Guards N m) : m.Spares N (m.advance p).2 := by
  unfold advance
  split
  · exact Std.Refl.refl m
  · next frame _ _ =>
    split
    · exact Std.Refl.refl m
    · next f _ =>
      split
      · split <;> exact Std.Refl.refl m
      · have hstep := step_spares p frame.function f hm
        have htrace : Keeps (Spares N) (trace frame.ip) := inferInstance
        split
        · next hs => exact after_of_error hs ▸ hstep
        · next hs =>
          rw [after_of_ok hs] at hstep
          split
          · split
            · next ht => exact Trans.trans hstep (htrace.of_error ht)
            · next ht => exact Trans.trans hstep (htrace.of_ok ht)
          · exact hstep

/-- Objects stay what they are throughout a run. -/
theorem runFor_ages (p : Program) (turns : Nat) (m : Machine) :
    m.heap.Ages (m.runFor p turns).2.heap := by
  induction turns generalizing m with
  | zero => exact Std.Refl.refl m.heap
  | succ turns ih =>
    have hnext := (advance_spares p (N := fun _ => False) (m := m) nofun).heap
    unfold runFor
    split
    · next m' ha =>
      rw [ha] at hnext
      exact Trans.trans hnext (ih m')
    · exact hnext

end Machine
end RatScript
