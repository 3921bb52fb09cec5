import RatScript.Proofs.Machine.Execution

/-!
Loading a program keeps the counts exact. It fails only at a constant that names no function, and
then the constants found before it stay held.
-/

namespace RatScript

open Stateful

namespace Program

/-- A runnable constant is a function of the program. -/
def Finds (p : Program) : Constant → Prop
  | .runnable id => (p.function? id).isSome
  | _ => True

instance (p : Program) (k : Constant) : Decidable (p.Finds k) :=
  match k with
  | .runnable id => inferInstanceAs (Decidable ((p.function? id).isSome = true))
  | .number _ => inferInstanceAs (Decidable True)
  | .text _ => inferInstanceAs (Decidable True)

/-- Every runnable among the constants is a function of the program. -/
def Resolves (p : Program) : Prop :=
  ∀ f ∈ p.functions.toList, ∀ k ∈ f.chunk.constants.toList, p.Finds k

instance (p : Program) : Decidable p.Resolves :=
  inferInstanceAs (Decidable (∀ f ∈ p.functions.toList, ∀ k ∈ f.chunk.constants.toList, p.Finds k))

end Program

namespace Exec

open Machine

variable {c : Config} {b : Bool} {n : Nat} {X : List Value} {S : Handle → Prop} {m : Machine} {v : Value}

/-- Before natives are bound there are no globals. -/
def Unbound (b : Bool) (m : Machine) : Prop := b = false → m.globals.bindings = []

theorem aside_unbound : Aside (Unbound b) := fun _ _ h => h

theorem releaseAll_yields (vs : List Value) {E : Fault → Machine → Prop} :
    Yields (fun m => m.Counted (.basic c b n) (vs++X) S ∧ Unbound b m) (releaseAll vs)
      (fun _ m => m.Counted (.basic c b n) X S ∧ Unbound b m) E := by
  induction vs with
  | nil => exact Yields.pure fun _ h => h
  | cons v rest ih => exact Yields.bind (release_yields aside_unbound v) fun _ => ih

/-- Globals that are there can be dropped. -/
theorem dropGlobals_yields (bindings : List (String × Value)) {E : Fault → Machine → Prop}
    (hnamed : (bindings.map Prod.fst).Nodup) :
    Yields (fun m => m.Counted (.basic c b n) X S ∧ Unbound b m ∧ ∀ x ∈ bindings, x ∈ m.globals.bindings)
      (dropGlobals bindings) (fun _ m => m.Counted (.basic c b n) X S ∧ Unbound b m) E := by
  induction bindings with
  | nil => exact Yields.pure fun _ h => ⟨h.1, h.2.1⟩
  | cons x rest ih =>
    obtain ⟨name, v⟩ := x
    obtain ⟨hfresh, hrest⟩ := List.nodup_cons.mp hnamed
    let F (m : Machine) : Prop := Unbound b m ∧ ∀ x ∈ rest, x ∈ m.globals.bindings
    refine Yields.bind (Q := fun _ m => m.Counted (.basic c b n) (v :: X) S ∧ F m) (Yields.modify ?_)
      fun _ => Yields.bind (release_yields (F := F) (fun _ _ h => h) v) fun _ => ih hrest
    intro m hm
    obtain ⟨hm, hunbound, hin⟩ := hm
    refine ⟨counted_erase hm (hin (name, v) (by simp)), ?_, ?_⟩
    · intro hb
      simp [Globals.erase, hunbound hb]
    · intro x hx
      have hne : x.1 ≠ name := fun heq => hfresh (List.mem_map.mpr ⟨x, hx, heq⟩)
      exact List.mem_filter.mpr ⟨hin x (List.mem_cons_of_mem _ hx), by simpa using hne⟩

/-- Stack and pools become holds in transit. -/
theorem counted_clear (hm : m.Counted (.basic c b n) X S) :
    ({m with stack := #[]} : Machine).Counted (.basic c b n) (m.stack.toList++X) S := by
  refine hm.move rfl rfl (fun _ h => h.elim) rfl ?_ hm.named (by simp) hm.bases
  intro r
  simp only [List.count_append, count_held, List.count_nil]
  omega

theorem counted_unload (hm : m.Counted (.basic c b n) X S) :
    ({m with pools := #[]} : Machine).Counted (.basic c b n) (m.pools.toList.flatMap Array.toList++X) S := by
  refine hm.move rfl rfl (fun _ h => h.elim) rfl ?_ hm.named hm.room hm.bases
  intro r
  simp only [List.count_append, count_held, List.flatMap_nil, List.count_nil]
  omega

theorem counted_frames {frames : List Frame} (hm : m.Counted (.basic c b n) X S)
    (hbases : ∀ f ∈ frames, f.base ≤ c.stackCapacity-1) :
    ({m with frames := frames} : Machine).Counted (.basic c b n) X S :=
  hm.move rfl rfl (fun _ h => h.elim) rfl (fun _ => rfl) hm.named hm.room hbases

theorem reset_yields {E : Fault → Machine → Prop} :
    Yields (fun m => m.Counted (.basic c b n) X S ∧ Unbound b m) reset
      (fun _ m => m.Counted (.basic c b n) X S ∧ Unbound b m) E := by
  apply Yields.get_bind
  intro m hm
  refine Yields.bind (Q := fun _ m' => m'.Counted (.basic c b n) (m.stack.toList++X) S ∧ Unbound b m')
    (Yields.modify ?_) fun _ => Yields.bind (releaseAll_yields _) fun _ => ?_
  · intro s hs
    subst s
    exact ⟨counted_clear hm.1, hm.2⟩
  refine Yields.bind (Q := fun _ m => m.Counted (.basic c b n) X S ∧ Unbound b m) (Yields.modify ?_)
    fun _ => ?_
  · intro s hs
    exact ⟨counted_frames hs.1 (by simp), hs.2⟩
  apply Yields.get_bind
  intro m hm
  refine Yields.bind
    (Q := fun _ m' => m'.Counted (.basic c b n) (m.pools.toList.flatMap Array.toList++X) S ∧ Unbound b m')
    (Yields.modify ?_) fun _ => Yields.bind (releaseAll_yields _) fun _ => ?_
  · intro s hs
    subst s
    exact ⟨counted_unload hm.1, hm.2⟩
  apply Yields.get_bind
  intro m hm
  have hnamed := hm.1.named.sublist
    ((List.filter_sublist (p := fun x => m.heap.isRunnable x.2)).map Prod.fst)
  exact Yields.start ⟨hm.1, hm.2, fun x hx => (List.mem_filter.mp hx).1⟩
    (dropGlobals_yields _ hnamed)

/-- Natives can be bound to names that are fresh and differ. -/
theorem bindAll_yields (natives : List Native) {E : Fault → Machine → Prop} :
    ∀ g : Globals, (natives.map Native.name).Nodup → (∀ n ∈ natives, g.get? n.name = none) →
      Yields (fun m => m.Counted (.basic c b n) X S ∧ m.globals = g) (bindAll natives)
        (fun _ => Counted (.basic c b n) X S) E := by
  induction natives with
  | nil => exact fun _ _ _ => Yields.pure fun _ h => h.1
  | cons native rest ih =>
    intro g hnames hfresh
    obtain ⟨hname, hnames⟩ := List.nodup_cons.mp hnames
    refine Yields.bind (Q := fun r m => m.Counted (.basic c b n) X (Loose S (.object r)) ∧
      Live (.object r) m ∧ m.globals = g) ?_ fun r =>
      Yields.bind (defineGlobal_live (hfresh native (by simp)) (.object r)) fun _ =>
        ih (g.define native.name (.object r)) hnames ?_
    · exact (alloc_yields (aside_globals (P := (· = g))) _ fun _ _ => trivial).mono
        (fun _ h => h) (fun _ _ h => ⟨h.1, h.2.1.live, h.2.2⟩) fun _ _ h => h
    intro other hother
    have hother' : other.name ≠ native.name :=
      fun heq => hname (List.mem_map.mpr ⟨other, hother, heq⟩)
    have hne : (other.name == native.name) = false := by simpa using hother'
    simp only [Globals.get?, Globals.define, List.lookup_cons, hne]
    exact hfresh other (by simp [hother])

theorem bindNatives_yields {E : Fault → Machine → Prop} :
    Yields (fun m => m.Counted (.basic c b n) X S ∧ Unbound b m) bindNatives
      (fun _ => Counted (.basic c true n) X S) E := by
  apply Yields.get_bind
  intro m hm
  obtain ⟨hm, hunbound⟩ := hm
  have hbound := hm.bound
  cases b with
  | true =>
    simp only [hbound]
    exact Yields.start hm (Yields.pure fun _ h => h)
  | false =>
    simp only [hbound]
    have hempty : m.globals = .empty := by
      cases hg : m.globals
      simpa [Unbound, hg, Globals.empty] using hunbound
    refine Yields.start ⟨hm, hempty⟩ (Yields.bind
      (bindAll_yields Native.all .empty (by decide) (by simp [Globals.get?, Globals.empty]))
      fun _ => Yields.modify ?_)
    intro m' hm'
    exact {hm' with bound := rfl}

/-- A runnable constant that is no function is the only one that cannot be made. -/
theorem newConstant_yields (p : Program) (k : Constant) :
    Yields (Counted (.basic c b n) X S) (newConstant p k)
      (fun v m => m.Counted (.basic c b n) X (Loose S v) ∧ Live v m)
      (fun e m => m.Counted (.basic c b n) X S ∧
        ∃ id, k = .runnable id ∧ p.function? id = none ∧ e = .missingConstant id) := by
  cases k with
  | number n => exact Yields.pure fun _ h => ⟨h.loose _, fun r hr => by cases hr⟩
  | text content =>
    exact (newText_yields (F := fun _ => True) (fun _ _ h => h) content).mono
      (fun _ h => ⟨h, trivial⟩) (fun _ _ h => ⟨h.1, h.2.1.live⟩) fun _ _ h => h
  | runnable id =>
    cases hid : p.function? id with
    | none =>
      simp only [newConstant, hid]
      exact Yields.throw fun _ h => ⟨h, id, rfl, hid, rfl⟩
    | some f =>
      simp only [newConstant, hid]
      refine Yields.bind (Q := fun r m => m.Counted (.basic c b n) X (Loose S (.object r)) ∧
        Live (.object r) m) ?_ fun r => Yields.pure fun _ h => h
      exact (alloc_yields (F := fun _ => True) (fun _ _ h => h) _ fun _ _ => trivial).mono
        (fun _ h => ⟨h, trivial⟩) (fun _ _ h => ⟨h.1, h.2.1.live⟩) fun _ _ h => h

/-- The values of a pool are held as they are made. -/
theorem newPool_yields (p : Program) (constants : List Constant) :
    ∀ found : Array Value, Yields (Counted (.basic c b n) (found.toList++X) S)
      (newPool p found constants) (fun pool => Counted (.basic c b n) (pool.toList++X) S)
      (fun e m => (∃ Y, m.Counted (.basic c b n) Y S) ∧ ∃ id, .runnable id ∈ constants ∧
        p.function? id = none ∧ e = .missingConstant id) := by
  induction constants with
  | nil => exact fun _ => Yields.pure fun _ h => h
  | cons k rest ih =>
    intro found
    refine Yields.bind ((newConstant_yields p k).mono (fun _ h => h) (fun _ _ h => h) ?_)
      fun v => Yields.bind (Q := fun _ => Counted (.basic c b n) ((found.push v).toList++X) S) ?_ fun _ => ?_
    · intro e m h
      obtain ⟨hm, id, hk, hid, he⟩ := h
      exact ⟨⟨_, hm⟩, id, by simp [hk], hid, he⟩
    · refine (retain_live (F := fun _ => True) (fun _ _ h => h) v).mono
        (fun _ h => ⟨h.1, h.2, trivial⟩) ?_ fun _ _ h => h
      intro _ m h
      refine h.1.move rfl rfl (fun _ h => h.elim) rfl ?_ h.1.named h.1.room h.1.bases
      intro r
      simp only [List.count_append, List.count_cons, Array.toList_push, List.count_nil]
      omega
    · refine (ih (found.push v)).mono (fun _ h => h) (fun _ _ h => h) ?_
      intro e m h
      obtain ⟨hm, id, hid, h⟩ := h
      exact ⟨hm, id, List.mem_cons_of_mem _ hid, h⟩

theorem counted_pool {pool : Array Value} (hm : m.Counted (.basic c b n) (pool.toList++X) S) :
    ({m with pools := m.pools.push pool} : Machine).Counted (.basic c b n) X S := by
  refine hm.move rfl rfl (fun _ h => h.elim) rfl ?_ hm.named hm.room hm.bases
  intro r
  simp only [List.count_append, count_held, Array.toList_push, List.flatMap_append,
    List.flatMap_cons, List.flatMap_nil, List.append_nil]
  omega

theorem loadConstants_yields (p : Program) (functions : List Function) :
    Yields (Counted (.basic c b n) X S) (loadConstants p functions) (fun _ => Counted (.basic c b n) X S)
      (fun e m => (∃ Y, m.Counted (.basic c b n) Y S) ∧ ∃ f ∈ functions, ∃ id,
        .runnable id ∈ f.chunk.constants.toList ∧ p.function? id = none ∧
          e = .missingConstant id) := by
  induction functions with
  | nil => exact Yields.pure fun _ h => h
  | cons f rest ih =>
    refine Yields.bind ((newPool_yields p f.chunk.constants.toList #[]).mono (fun _ h => h)
      (fun _ _ h => h) ?_) fun pool => Yields.bind (Q := fun _ => Counted (.basic c b n) X S)
        (Yields.modify fun _ h => counted_pool h) fun _ => ?_
    · intro e m h
      exact ⟨h.1, f, by simp, h.2⟩
    · refine ih.mono (fun _ h => h) (fun _ _ h => h) ?_
      intro e m h
      obtain ⟨hm, g, hg, h⟩ := h
      exact ⟨hm, g, List.mem_cons_of_mem _ hg, h⟩

/-- A program that resolves can be loaded; another may leave holds of a pool half made. -/
theorem load_yields (p : Program) :
    Yields (fun m => m.Counted (.basic c b n) X S ∧ Unbound b m) (load p) (fun _ => Counted (.basic c true n) X S)
      (fun e m => (∃ Y, m.Counted (.basic c true n) Y S) ∧ ¬ p.Resolves ∧ ∃ id, e = .missingConstant id) := by
  refine Yields.bind reset_yields fun _ => Yields.bind bindNatives_yields fun _ =>
    Yields.bind ((loadConstants_yields p p.functions.toList).mono (fun _ h => h) (fun _ _ h => h) ?_)
      fun _ => Yields.modify ?_
  · intro e m h
    obtain ⟨hm, f, hf, id, hid, hnone, he⟩ := h
    refine ⟨hm, ?_, id, he⟩
    intro hresolves
    have hsome : (p.function? id).isSome := hresolves f hf (.runnable id) hid
    simp [hnone] at hsome
  · intro m hm
    refine counted_frames hm ?_
    intro f hf
    rcases List.mem_cons.mp hf with rfl | hf
    · exact Nat.zero_le _
    · exact hm.bases f hf

end Exec
end RatScript
