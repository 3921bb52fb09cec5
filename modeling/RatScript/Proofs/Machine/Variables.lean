import RatScript.Proofs.Machine.Counted

/-!
Variables hold what they are given and give up what they held.
-/

namespace RatScript

open Stateful

theorem count_set {α : Type} [BEq α] (a b w : α) :
    ∀ (as : List α) (i : Nat), as[i]? = some a →
      (as.set i b).count w+(if a == w then 1 else 0) = as.count w+if b == w then 1 else 0
  | [], _, h => by simp at h
  | d :: as, 0, h => by
    simp only [List.getElem?_cons_zero, Option.some.injEq] at h
    subst d
    simp only [List.set_cons_zero, List.count_cons]
    omega
  | d :: as, i+1, h => by
    have ih := count_set a b w as i (by simpa using h)
    simp only [List.set_cons_succ, List.count_cons]
    omega

namespace Globals

variable {name : String} {v w old : Value} {bindings : List (String × Value)}

theorem replace_names (name : String) (v : Value) (bindings : List (String × Value)) :
    (replace name v bindings).map Prod.fst = bindings.map Prod.fst := by
  induction bindings with
  | nil => rfl
  | cons b rest ih =>
    unfold replace
    split
    · rfl
    · simp only [List.map_cons, ih]

theorem count_replace (h : bindings.lookup name = some old) :
    ((replace name v bindings).map Prod.snd).count w+(if old == w then 1 else 0) =
      (bindings.map Prod.snd).count w+if v == w then 1 else 0 := by
  induction bindings with
  | nil => simp at h
  | cons b rest ih =>
    obtain ⟨other, u⟩ := b
    unfold replace
    rw [List.lookup_cons] at h
    by_cases hname : other = name
    · subst other
      simp only [beq_self_eq_true, Option.some.injEq] at h
      subst u
      simp only [beq_self_eq_true, if_true, List.map_cons, List.count_cons]
      omega
    · have hne : (name == other) = false := by simpa using Ne.symm hname
      rw [hne] at h
      have ih := ih h
      rw [if_neg (by simpa using hname)]
      simp only [List.map_cons, List.count_cons]
      omega

theorem fresh_of_lookup (h : bindings.lookup name = none) : name ∉ bindings.map Prod.fst := by
  intro hmem
  obtain ⟨⟨_, u⟩, hb, rfl⟩ := List.mem_map.mp hmem
  have := List.lookup_eq_none_iff.mp h _ hb
  simp at this

theorem filter_eq_self (h : name ∉ bindings.map Prod.fst) :
    bindings.filter (·.1 != name) = bindings := by
  rw [List.filter_eq_self]
  intro b hb
  have hne : b.1 ≠ name := fun heq => h (heq ▸ List.mem_map_of_mem hb)
  simpa using hne

/-- To erase a name that is bound once takes away its value. -/
theorem count_erase (hnamed : (bindings.map Prod.fst).Nodup) (hb : (name, v) ∈ bindings) :
    ((bindings.filter (·.1 != name)).map Prod.snd).count w+(if v == w then 1 else 0) =
      (bindings.map Prod.snd).count w := by
  induction bindings with
  | nil => simp at hb
  | cons b rest ih =>
    obtain ⟨other, u⟩ := b
    obtain ⟨hfresh, hrest⟩ := List.nodup_cons.mp hnamed
    rcases List.mem_cons.mp hb with heq | hb
    · cases heq
      have hself : rest.filter (·.1 != name) = rest := filter_eq_self hfresh
      simp only [List.filter_cons, bne_self_eq_false, hself, List.map_cons, List.count_cons]
      simp
    · have hne : other ≠ name := by
        rintro rfl
        exact hfresh (List.mem_map.mpr ⟨_, hb, rfl⟩)
      have ih := ih hrest hb
      simp only [List.filter_cons, bne_iff_ne, ne_eq, hne, not_false_eq_true, if_true,
        List.map_cons, List.count_cons]
      omega

theorem get?_define (g : Globals) (x y : String) (v : Value) :
    (g.define x v).get? y = if y = x then some v else g.get? y := by
  simp only [get?, define, List.lookup_cons]
  by_cases h : y = x
  · simp [h]
  · have hne : (y == x) = false := by simpa using h
    simp [hne, h]

theorem get?_set {g : Globals} {x : String} {old : Value} (hx : g.get? x = some old) (v : Value)
    (y : String) : (g.set x v).get? y = if y = x then some v else g.get? y := by
  obtain ⟨bindings⟩ := g
  simp only [get?, set] at hx ⊢
  induction bindings with
  | nil => simp at hx
  | cons b rest ih =>
    obtain ⟨name, w⟩ := b
    rw [List.lookup_cons] at hx
    unfold replace
    by_cases hname : name = x
    · subst name
      by_cases hy : y = x
      · simp [hy]
      · have hne : (y == x) = false := by simpa using hy
        simp [List.lookup_cons, hne, hy]
    · have hne : (x == name) = false := by simpa using Ne.symm hname
      rw [hne] at hx
      rw [if_neg (by simpa using hname), List.lookup_cons, List.lookup_cons, ih hx]
      by_cases hy : y = name
      · subst y
        simp [hname]
      · have hyname : (y == name) = false := by simpa using hy
        simp [hyname]

end Globals

namespace Exec

open Machine

variable {z : Setting} {X : List Value} {S : Handle → Prop} {m : Machine} {v : Value}

/-- A hold in transit becomes one of a new global. -/
theorem counted_define {name : String} (hm : m.Counted z (v :: X) S)
    (hfresh : m.globals.get? name = none) :
    ({m with globals := m.globals.define name v} : Machine).Counted z X S := by
  refine hm.move rfl rfl hm.pinned rfl ?_ ?_ hm.room hm.bases
  · intro r
    simp only [List.count_append, count_held, List.count_cons, Globals.define, List.map_cons]
    omega
  · exact List.nodup_cons.mpr ⟨Globals.fresh_of_lookup hfresh, hm.named⟩

/-- A hold in transit and one of a global change places. -/
theorem counted_exchange {name : String} {old : Value} (hm : m.Counted z (v :: X) S)
    (hold : m.globals.get? name = some old) :
    ({m with globals := m.globals.set name v} : Machine).Counted z (old :: X) S := by
  refine hm.move rfl rfl hm.pinned rfl ?_ ?_ hm.room hm.bases
  · intro r
    have hcount := Globals.count_replace (v := v) (w := .object r) hold
    simp only [List.count_append, count_held, List.count_cons, Globals.set]
    omega
  · simpa only [Globals.set, Globals.replace_names] using hm.named

theorem counted_erase {name : String} (hm : m.Counted z X S)
    (hb : (name, v) ∈ m.globals.bindings) :
    ({m with globals := m.globals.erase name} : Machine).Counted z (v :: X) S := by
  refine hm.move rfl rfl hm.pinned rfl ?_ ?_ hm.room hm.bases
  · intro r
    have hcount := Globals.count_erase (w := .object r) hm.named hb
    simp only [List.count_append, count_held, List.count_cons, Globals.erase]
    omega
  · exact hm.named.sublist ((List.filter_sublist).map _)

/-- A hold in transit and one of the stack change places. -/
theorem counted_cell {index : Nat} {old : Value} (hm : m.Counted z (v :: X) S)
    (hold : m.stack[index]? = some old) :
    ({m with stack := m.stack.setIfInBounds index v} : Machine).Counted z (old :: X) S := by
  refine hm.move rfl rfl hm.pinned rfl ?_ hm.named (by simpa using hm.room) hm.bases
  intro r
  have hcount := count_set old v (.object r) m.stack.toList index (by simpa using hold)
  simp only [List.count_append, count_held, List.count_cons, Array.toList_setIfInBounds]
  omega

theorem aside_globals {P : Globals → Prop} : Aside fun m => P m.globals := fun _ _ h => h

/-- A fresh name can be given to a value that can be held. -/
theorem defineGlobal_of_retain {g : Globals} {name : String} (hfresh : g.get? name = none)
    {E : Fault → Machine → Prop} (hg : m.globals = g) (hretain : Yields (· = m) (retain v)
      (fun _ m' => m'.Counted z (v :: X) S ∧ m'.globals = g) E) :
    Yields (· = m) (defineGlobal name v)
      (fun _ m' => m'.Counted z X S ∧ m'.globals = g.define name v) E := by
  apply Yields.get_bind
  rintro _ rfl
  rw [hg, hfresh]
  refine Yields.bind hretain fun _ => Yields.modify ?_
  rintro m' ⟨hm', rfl⟩
  exact ⟨counted_define hm' hfresh, rfl⟩

/-- To define a fresh name settles the value. -/
theorem defineGlobal_settles (name : String) (v : Value) :
    Yields (fun m => m.Counted z X (Loose S v) ∧ m.globals.get? name = none) (defineGlobal name v)
      (fun _ => Counted z X S) (fun _ => Counted z X S) := by
  rintro m ⟨hm, hfresh⟩
  have hretain := retain_yields (z := z) (X := X) (S := S) (aside_globals (P := (· = m.globals))) v
  have hdefine := defineGlobal_of_retain hfresh rfl
    (Yields.start ⟨hm, rfl⟩ (hretain.mono (fun _ h => h) (fun _ _ h => h) fun _ _ h => h.1))
  exact hdefine.mono (fun _ h => h) (fun _ _ h => h.1) (fun _ _ h => h) m rfl

/-- A fresh name can be given to a value that is live. -/
theorem defineGlobal_live {g : Globals} {name : String} (hfresh : g.get? name = none) (v : Value)
    {E : Fault → Machine → Prop} :
    Yields (fun m => m.Counted z X (Loose S v) ∧ Live v m ∧ m.globals = g) (defineGlobal name v)
      (fun _ m => m.Counted z X S ∧ m.globals = g.define name v) E := by
  intro m hm
  exact defineGlobal_of_retain hfresh hm.2.2
    (Yields.start hm (retain_live (aside_globals (P := (· = g))) v)) m rfl

instance (name : String) (v : Value) : Keeps (Invariant (Counted z X S)) (defineGlobal name v) where
  keeps m hm := by
    cases hname : m.globals.get? name with
    | none => exact (defineGlobal_settles name v).after ⟨hm.loose v, hname⟩
    | some old =>
      have hfail : defineGlobal name v m =
          .error (if m.heap.isNative old then .reserved name else .redeclared name) m := by
        simp only [defineGlobal, bind, EStateM.bind, get, getThe, MonadStateOf.get, EStateM.get,
          hname]
        rfl
      rw [after_of_error hfail]
      exact hm

theorem storeGlobal_of_retain (name : String) {P : Machine → Prop} {E : Fault → Machine → Prop}
    (hretain : Yields P (retain v) (fun _ => Counted z (v :: X) S) E) :
    Yields P (storeGlobal name v) (fun _ => Counted z X S) E := by
  refine Yields.bind hretain fun _ => ?_
  apply Yields.get_bind
  intro m hm
  cases hname : m.globals.get? name with
  | some old =>
    refine Yields.bind (Q := fun _ => Counted z (old :: X) S) (Yields.modify ?_) fun _ => ?_
    · rintro _ rfl
      exact counted_exchange hm hname
    · exact release_transit old
  | none =>
    apply Yields.modify
    rintro _ rfl
    exact counted_define hm hname

/-- To store a value in a global settles it. -/
theorem storeGlobal_settles (name : String) (v : Value) :
    Yields (Counted z X (Loose S v)) (storeGlobal name v)
      (fun _ => Counted z X S) (fun _ => Counted z X S) :=
  storeGlobal_of_retain name (retain_settles v)

instance (name : String) (v : Value) : Keeps (Invariant (Counted z X S)) (storeGlobal name v) :=
  ((storeGlobal_settles name v).mono (fun _ h => h.loose v) (fun _ _ h => h) fun _ _ h => h).keeps

/-- The innermost frame has a cell for the slot. -/
def HasCell (slot : UInt8) (index : Nat) (m : Machine) : Prop :=
  ∃ f rest, m.frames = f :: rest ∧ index = f.base+slot.toNat+1 ∧ index < m.stack.size

theorem cell_ok {slot : UInt8} {index : Nat} (h : HasCell slot index m) :
    cell slot m = .ok index m := by
  obtain ⟨f, rest, hframes, rfl, hlt⟩ := h
  simp [cell, frame, bind, EStateM.bind, get, getThe, MonadStateOf.get, EStateM.get, hframes, hlt,
    pure, EStateM.pure]

theorem cell_cases (slot : UInt8) (m : Machine) :
    (∃ index, HasCell slot index m) ∨ ∃ e, cell slot m = .error e m := by
  cases hframes : m.frames with
  | nil =>
    refine .inr ⟨.noFrame, ?_⟩
    simp only [cell, frame, bind, EStateM.bind, get, getThe, MonadStateOf.get, EStateM.get, hframes]
    rfl
  | cons f rest =>
    by_cases hlt : f.base+slot.toNat+1 < m.stack.size
    · exact .inl ⟨_, f, rest, hframes, rfl, hlt⟩
    · refine .inr ⟨.localOutOfRange slot, ?_⟩
      simp only [cell, frame, bind, EStateM.bind, get, getThe, MonadStateOf.get, EStateM.get,
        hframes, pure, EStateM.pure, hlt, if_false]
      rfl

theorem loadLocal_ok {slot : UInt8} {index : Nat} (h : HasCell slot index m) :
    ∃ v, m.stack[index]? = some v ∧ loadLocal slot m = .ok v m := by
  obtain ⟨f, rest, hframes, hindex, hlt⟩ := id h
  refine ⟨m.stack[index], by simp [hlt], ?_⟩
  simp [loadLocal, cell_ok h, bind, EStateM.bind, get, getThe, MonadStateOf.get, EStateM.get, hlt,
    pure, EStateM.pure]

/-- A slot that has a cell takes a value that can be held. -/
theorem storeLocal_of_retain {slot : UInt8} {index : Nat} (hcell : HasCell slot index m)
    {E : Fault → Machine → Prop} (hretain : ∀ old, m.stack[index]? = some old →
      Yields (· = m) (retain v) (fun _ m' => m'.Counted z (v :: X) S ∧ m'.stack[index]? = some old) E) :
    Yields (· = m) (storeLocal slot v) (fun _ => Counted z X S) E := by
  obtain ⟨old, hold, hload⟩ := loadLocal_ok hcell
  refine Yields.read (cell_ok hcell) (Yields.read hload (Yields.bind (hretain old hold) fun _ => ?_))
  refine Yields.bind (Q := fun _ => Counted z (old :: X) S) (Yields.modify ?_) fun _ => ?_
  · rintro m' ⟨hm', hold'⟩
    exact counted_cell hm' hold'
  · exact release_transit old

theorem aside_stack {P : Array Value → Prop} : Aside fun m => P m.stack := fun _ _ h => h

/-- To store a value in a slot that has a cell settles it. -/
theorem storeLocal_settles (slot : UInt8) (v : Value) :
    Yields (fun m => m.Counted z X (Loose S v) ∧ ∃ index, HasCell slot index m) (storeLocal slot v)
      (fun _ => Counted z X S) (fun _ => Counted z X S) := by
  rintro m ⟨hm, index, hcell⟩
  refine storeLocal_of_retain hcell (fun old hold => ?_) m rfl
  exact Yields.start ⟨hm, hold⟩ ((retain_yields (aside_stack (P := (·[index]? = some old))) v).mono
    (fun _ h => h) (fun _ _ h => h) fun _ _ h => h.1)

instance (slot : UInt8) (v : Value) : Keeps (Invariant (Counted z X S)) (storeLocal slot v) where
  keeps m hm := by
    rcases cell_cases slot m with hcell | ⟨e, he⟩
    · exact (storeLocal_settles slot v).after ⟨hm.loose v, hcell⟩
    · have hfail : storeLocal slot v m = .error e m := by
        simp only [storeLocal, bind, EStateM.bind, he]
      rw [after_of_error hfail]
      exact hm

end Exec
end RatScript
