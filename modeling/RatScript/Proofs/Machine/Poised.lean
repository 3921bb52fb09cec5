import RatScript.Proofs.Machine.Shape

/-!
Machines on which a program is loaded: what its constants stand for is known for good, and no value
in reach is the script. Operators and natives keep to their effect on the stack.
-/

namespace RatScript

open Stateful

namespace Machine

/-- A value stands for a constant as long as it is live. -/
def Setting.Means (z : Setting) (v : Value) : Constant → Prop
  | .number x => v = .number x
  | .text _ => ∃ r, v = .object r ∧ ∀ o, z.typed r o → ∃ content, o = .text content
  | .runnable id => ∃ r, v = .object r ∧ ∀ o, z.typed r o → ∃ name, o = .runnable id name

/-- The constants of a program are in its pools, and all runnables are among them. -/
structure Setting.Loads (z : Setting) (p : Program) (pools : Array (Array Value)) : Prop where
  runnable : ∀ r id name, z.typed r (.runnable id name) → z.pinned r ∧ (p.function? id).isSome
  constant : ∀ (id : Nat) (f : Function) (index : Nat) (k : Constant), p.function? id = some f →
    f.chunk.constants[index]? = some k →
      ∃ v, (pools[id]?.bind (·[index]?)) = some v ∧ z.Means v k

/-- Exact counts and a shape. -/
def Poised (z : Setting) (pools : Array (Array Value)) (n : Nat) (frames : List Frame)
    (m : Machine) : Prop :=
  m.Counted z [] (fun _ => True) ∧ m.Shape z pools n frames

variable {z : Setting} {v : Value}

theorem Setting.free_of_means {k : Constant} (hk : k ≠ .runnable 0) (h : z.Means v k) :
    z.Free v := by
  intro r name hr htyped
  subst v
  cases k with
  | number x => cases h
  | text content =>
    obtain ⟨s, hs, htext⟩ := h
    cases hs
    obtain ⟨content, hcontent⟩ := htext _ htyped
    cases hcontent
  | runnable id =>
    obtain ⟨s, hs, hrunnable⟩ := h
    cases hs
    obtain ⟨name, hname⟩ := hrunnable _ htyped
    cases hname
    exact hk rfl

theorem Setting.free_none : z.Free .none := fun _ _ h => by cases h

theorem Setting.free_number (x : Number) : z.Free (.number x) := fun _ _ h => by cases h

theorem Setting.free_bool (b : Bool) : z.Free (.bool b) := fun _ _ h => by cases h

end Machine

namespace Exec

open Machine

variable {α : Type} {p : Program} {z : Setting} {pools : Array (Array Value)} {n k : Nat}
  {fs gs : List Frame} {m : Machine} {v : Value}

theorem Does.lift {x : Exec α}
    (hx : Does (Shape z pools n fs) x fun _ => Shape z pools k gs)
    [hc : Keeps (Invariant (Counted z [] fun _ => True)) x] :
    Does (Poised z pools n fs) x fun _ => Poised z pools k gs := by
  intro m hm
  have h := hx m hm.2
  cases hs : x m with
  | ok a m' =>
    rw [hs] at h
    exact ⟨hc.of_ok hs hm.1, h⟩
  | error e m' =>
    rw [hs] at h
    exact h

theorem Does.lift_fact {x : Exec α} {φ : α → Prop}
    (hx : Does (Shape z pools n fs) x fun a m => φ a ∧ Shape z pools k gs m)
    [hc : Keeps (Invariant (Counted z [] fun _ => True)) x] :
    Does (Poised z pools n fs) x fun a m => φ a ∧ Poised z pools k gs m := by
  intro m hm
  have h := hx m hm.2
  cases hs : x m with
  | ok a m' =>
    rw [hs] at h
    exact ⟨h.1, hc.of_ok hs hm.1, h.2⟩
  | error e m' =>
    rw [hs] at h
    exact h

section
variable {P : Machine → Prop}

theorem bitwise_does (op : Operator) (x y : Int32) : Does P (bitwise op x y) fun _ => P := by
  unfold bitwise
  cases op with
  | shiftLeft | shiftRight =>
    dsimp only
    split
    · exact Does.pure fun _ h => h
    · exact Does.throw rfl
  | _ => exact Does.pure fun _ h => h

theorem compare_does (t : Test) (x y : Value) :
    Does P (compare t x y) fun v m => z.Free v ∧ P m := by
  have hbool (b : Bool) : Does P (pure (.bool b) : Exec Value) fun v m => z.Free v ∧ P m :=
    Does.pure fun _ h => ⟨Setting.free_bool b, h⟩
  unfold compare
  split
  · exact Does.bind (ask_does _) fun b => hbool b
  · exact hbool _
  · exact hbool _
  · exact Does.bind (describe_does x) fun _ => Does.bind (describe_does y) fun _ => Does.throw rfl
  · exact Does.bind (describe_does x) fun _ => Does.bind (describe_does y) fun _ => Does.throw rfl

theorem counted_does (up : Bool) (x : Value) :
    Does P (counted up x) fun v m => z.Free v ∧ P m := by
  unfold counted
  split
  · exact Does.pure fun _ h => ⟨Setting.free_number _, h⟩
  · exact Does.bind (describe_does x) fun _ => Does.throw rfl

theorem toNumber_does (x : Value) : Does P (toNumber x) fun _ => P := by
  cases x with
  | object r =>
    refine Does.bind (ask_does _) fun o => ?_
    split
    · split
      · exact Does.pure fun _ h => h
      · exact Does.throw rfl
    · exact Does.throw rfl
    · exact Does.pure fun _ h => h
  | none | number | bool => exact Does.pure fun _ h => h

theorem textArgument_does (native : Native) {distance : Nat} (hd : distance < n) :
    Does (Shape z pools n fs) (textArgument native distance) fun _ => Shape z pools n fs := by
  refine Does.bind_fact (peek_does hd) fun v _ => Does.bind (text?_does v) fun content => ?_
  split
  · exact Does.pure fun _ h => h
  · exact Does.bind (ask_does _) fun _ => Does.throw rfl

end

section
variable (hz : z.Loads p pools)
include hz

/-- A new text is not the script: the handle of that is pinned. -/
theorem newText_does (content : String) :
    Does (Poised z pools n fs) (newText content)
      fun v m => z.Free v ∧ Poised z pools n fs m := by
  refine Yields.mono (newText_yields shape_aside content) (fun _ h => h) ?_ fun _ _ h => h
  intro v m h
  obtain ⟨hcounted, hfresh, hshape⟩ := h
  refine ⟨?_, hcounted.mono fun _ _ => trivial, hshape⟩
  intro r name hr htyped
  exact (hfresh r hr).1 (hz.runnable r 0 name htyped).1

theorem pushText_does (content : String) :
    Does (Poised z pools n fs) (pushText content) fun _ => Poised z pools (n+1) fs := by
  apply Does.get_bind
  intro m _
  split
  · exact Does.bind_fact (newText_does hz content) fun v hv => (push_does hv).lift
  · exact Does.throw rfl

theorem apply_does (op : Operator) (x y : Value) :
    Does (Poised z pools n fs) (apply op x y) fun v m => z.Free v ∧ Poised z pools n fs m := by
  have hfails {P : Machine → Prop} {Q : Value → Machine → Prop} (e : String → String → Fault)
      (he : ∀ s t, (e s t).isStructural = false) :
      Does P (do throw (e (← describe x) (← describe y))) Q :=
    Does.bind (describe_does x) fun _ => Does.bind (describe_does y) fun _ => Does.throw (he _ _)
  unfold Exec.apply
  split
  · split
    · refine Does.bind (Q := fun _ => Poised z pools n fs) ?_
        fun i => Does.pure fun _ h => ⟨Setting.free_number _, h⟩
      exact bitwise_does op _ _
    · exact hfails (.integralOperands op.spelling) fun _ _ => rfl
  · split
    · exact Does.pure fun _ h => ⟨Setting.free_number _, h⟩
    · split
      · refine Does.bind (text?_does x) fun left => Does.bind (text?_does y) fun right => ?_
        split
        · exact newText_does hz _
        · exact hfails (.operands op.spelling) fun _ _ => rfl
      · exact hfails (.operands op.spelling) fun _ _ => rfl

/-- A native takes its arguments and leaves one result. -/
theorem runNative_does {native : Native} (hn : n = k+Native.arity native) :
    Does (Poised z pools n fs) (runNative native) fun _ => Poised z pools (k+1) fs := by
  subst n
  unfold runNative
  cases native with
  | input => exact Does.bind readLine_does.lift fun line => pushText_does hz line
  | print =>
    refine Does.bind_fact (peek_does (by simp [Native.arity])).lift_fact fun v _ =>
      Does.bind (ask_does _) fun text => Does.bind (writeLine_does text).lift fun _ => ?_
    exact (replaceTop_does Setting.free_none).lift
  | readFile =>
    refine Does.bind (textArgument_does _ (by simp [Native.arity])).lift fun path => ?_
    apply Does.get_bind
    intro m _
    split
    · exact Does.throw rfl
    · exact Does.bind pop_does.lift fun _ => pushText_does hz _
  | writeFile =>
    refine Does.bind (textArgument_does _ (by simp [Native.arity])).lift fun path =>
      Does.bind_fact (peek_does (by simp [Native.arity])).lift_fact fun v _ =>
        Does.bind (ask_does _) fun text => ?_
    apply Does.get_bind
    intro m _
    split
    · exact Does.throw rfl
    · exact Does.bind (setFiles_does _).lift fun _ => Does.bind pop_does.lift fun _ =>
        Does.bind pop_does.lift fun _ => (push_does Setting.free_none).lift
  | emptyFile =>
    refine Does.bind (textArgument_does _ (by simp [Native.arity])).lift fun path => ?_
    apply Does.get_bind
    intro m _
    split
    · exact Does.throw rfl
    · exact Does.bind (setFiles_does _).lift fun _ => (replaceTop_does Setting.free_none).lift
  | toNumber =>
    exact Does.bind_fact (peek_does (by simp [Native.arity])).lift_fact fun v _ =>
      Does.bind (toNumber_does v) fun x => (replaceTop_does (Setting.free_number x)).lift
  | toBool =>
    exact Does.bind_fact (peek_does (by simp [Native.arity])).lift_fact fun v _ =>
      Does.bind (ask_does _) fun b => (replaceTop_does (Setting.free_bool b)).lift
  | toText | typeOf =>
    exact Does.bind_fact (peek_does (by simp [Native.arity])).lift_fact fun v _ =>
      Does.bind (ask_does _) fun text => Does.bind pop_does.lift fun _ => pushText_does hz text

/-- A call of a native takes the arguments and the native, and leaves one result. -/
theorem callNative_does (name : String) {arguments : Nat} (hn : n = k+(arguments+1)) :
    Does (Poised z pools n fs) (callNative name arguments) fun _ => Poised z pools (k+1) fs := by
  refine Does.bind_fact (global_does name).lift_fact fun v _ => Does.bind (ask_does _) fun o => ?_
  split
  · next native =>
    split
    · exact Does.throw rfl
    · next harity =>
      apply Does.get_bind
      intro m hm
      dsimp only
      rw [hm.2.size, if_neg (by omega)]
      have hroom : k < z.config.stackCapacity := by
        have hsize := hm.2.size
        have hroom := hm.1.room
        omega
      refine Does.bind (runNative_does hz (k := k+1) (by omega)) fun _ =>
        Does.bind_fact (peek_does (by omega)).lift_fact fun v hv => ?_
      have hcounts : Keeps (Invariant (Counted z [] fun _ => True)) (collapse k v) :=
        (collapse_yields hroom v).keeps
      rw [show n-(arguments+1) = k by omega]
      exact (collapse_does (by omega) hv).lift
  · exact Does.throw rfl

end

end Exec
end RatScript
