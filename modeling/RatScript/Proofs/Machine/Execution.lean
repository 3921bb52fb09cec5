import RatScript.Machine.Run
import RatScript.Proofs.Machine.Variables

/-!
Every instruction keeps the counts exact, whether it succeeds or fails, and leaves no object
unheld.
-/

namespace RatScript

/-- Operations that bind a global to a value. -/
def Opcode.binds : Opcode → Bool
  | define | defineRunnable | set .global | count .global _ | compound .global _ => true
  | _ => false

namespace Exec

open Stateful Machine

/-! Parts of instructions that only read. -/

section
variable {R : Machine → Machine → Prop} [Std.Refl R] [Trans R R R]

instance {α : Type} (x : Heap → Except HeapFault α) : Keeps R (ask x) := by
  apply Keeps.seq inferInstance
  intro m
  split <;> infer_instance

instance (v : Value) : Keeps R (isTruthy v) := inferInstanceAs (Keeps R (ask _))

instance (v : Value) : Keeps R (display v) := inferInstanceAs (Keeps R (ask _))

instance (v : Value) : Keeps R (kind v) := inferInstanceAs (Keeps R (ask _))

instance (v : Value) : Keeps R (object v) := inferInstanceAs (Keeps R (ask _))

instance (v : Value) : Keeps R (describe v) := inferInstanceAs (Keeps R (get >>= _))

instance (v : Value) : Keeps R (text? v) := by
  apply Keeps.seq inferInstance
  intro o
  split <;> infer_instance

instance (distance : Nat) : Keeps R (peek distance) := by
  apply Keeps.seq inferInstance
  intro m
  split
  · split <;> infer_instance
  · infer_instance

instance (name : String) : Keeps R (global name) := by
  apply Keeps.seq inferInstance
  intro m
  split <;> infer_instance

instance (name : String) : Keeps R (assignable name) := by
  unfold assignable
  infer_instance

instance : Keeps R frame := by
  apply Keeps.seq inferInstance
  intro m
  split <;> infer_instance

instance (slot : UInt8) : Keeps R (cell slot) := by
  unfold cell
  infer_instance

instance (slot : UInt8) : Keeps R (loadLocal slot) := by
  apply Keeps.seq inferInstance
  intro index
  apply Keeps.seq inferInstance
  intro m
  split <;> infer_instance

instance (function : Nat) (index : UInt8) : Keeps R (constant function index) := by
  apply Keeps.seq inferInstance
  intro m
  split <;> infer_instance

instance (native : Native) (distance : Nat) : Keeps R (textArgument native distance) := by
  apply Keeps.seq inferInstance
  intro v
  apply Keeps.seq inferInstance
  intro content
  split <;> infer_instance

instance (v : Value) : Keeps R (toNumber v) := by
  cases v with
  | object r =>
    apply Keeps.seq inferInstance
    intro o
    split
    · split <;> infer_instance
    · infer_instance
    · infer_instance
  | none | number | bool => exact inferInstanceAs (Keeps R (pure _))

instance (op : Operator) (x y : Int32) : Keeps R (bitwise op x y) := by
  unfold bitwise
  cases op <;> dsimp only <;> infer_instance

instance (t : Test) (a b : Value) : Keeps R (compare t a b) := by
  unfold compare
  split <;> infer_instance

instance (up : Bool) (v : Value) : Keeps R (counted up v) := by
  unfold counted
  split <;> infer_instance

instance : Keeps R checkCount := by
  apply Keeps.seq inferInstance
  intro v
  split <;> infer_instance

end

/-! Parts that make at most a text. -/

section
variable {R : Machine → Machine → Prop} [Std.Refl R] [Trans R R R]
  [∀ content, Keeps R (newText content)]

instance (op : Operator) (a b : Value) : Keeps R (Exec.apply op a b) := by
  unfold Exec.apply
  split
  · split <;> infer_instance
  · split
    · infer_instance
    · split
      · apply Keeps.seq inferInstance
        intro left
        apply Keeps.seq inferInstance
        intro right
        split <;> infer_instance
      · infer_instance

end

/-! Parts that move the instruction pointer. -/

section
variable {R : Machine → Machine → Prop} [Std.Refl R] [Trans R R R] [∀ ip, Keeps R (setIp ip)]

instance (code : Array UInt8) : Keeps R (readByte code) := by
  apply Keeps.seq inferInstance
  intro f
  split <;> infer_instance

instance (code : Array UInt8) : Keeps R (readWord code) := by
  unfold readWord
  infer_instance

instance (f : Function) : Keeps R (identifier f) := by
  apply Keeps.seq inferInstance
  intro index
  split <;> infer_instance

instance (distance : UInt16) : Keeps R (jumpBy distance) := by
  unfold jumpBy
  infer_instance

instance (distance : UInt16) : Keeps R (loopBy distance) := by
  unfold loopBy
  infer_instance

end

/-! Parts that change the stack and the world. -/

/-- A relation that holds whatever becomes of the stack, of the holds on objects and of the world. -/
class Lenient (R : Machine → Machine → Prop) : Prop where
  retain (v : Value) : Keeps R (retain v)
  release (v : Value) : Keeps R (release v)
  alloc (o : Object) : Keeps R (onHeap (Heap.alloc o))
  stack (m : Machine) (stack : Array Value) : R m {m with stack := stack}
  world (m : Machine) (world : World) : R m {m with world := world}

attribute [instance] Lenient.retain Lenient.release Lenient.alloc

section
variable {R : Machine → Machine → Prop} [Std.Refl R] [Trans R R R] [Lenient R]

instance (f : Machine → Array Value) :
    Keeps R (modify fun m => {m with stack := f m} : Exec PUnit) :=
  Keeps.modify fun m => Lenient.stack m (f m)

instance (v : Value) : Keeps R (push v) := by
  refine Keeps.seq inferInstance fun m => ?_
  split <;> infer_instance

instance : Keeps R pop := by
  refine Keeps.seq inferInstance fun m => ?_
  split <;> infer_instance

instance (v : Value) : Keeps R (replaceTop v) := by
  unfold replaceTop
  infer_instance

instance (content : String) : Keeps R (newText content) := by
  unfold newText
  infer_instance

instance (content : String) : Keeps R (pushText content) := by
  unfold pushText
  infer_instance

instance (base count : Nat) : Keeps R (popTo base count) := by
  induction count with
  | zero => exact inferInstanceAs (Keeps R (pure ()))
  | succ count ih =>
    refine Keeps.seq inferInstance fun m => ?_
    split <;> infer_instance

instance (base : Nat) (v : Value) : Keeps R (collapse base v) := by
  unfold collapse
  infer_instance

instance (slot : UInt8) (v : Value) : Keeps R (storeLocal slot v) := by
  unfold storeLocal
  infer_instance

instance (text : String) : Keeps R (writeLine text) :=
  Keeps.seq (Keeps.modifyGet fun m => Lenient.world m _) fun _ => inferInstance

instance : Keeps R readLine := by
  refine Keeps.seq (Keeps.modifyGet fun m => Lenient.world m _) fun line => ?_
  split <;> infer_instance

instance (files : Files) : Keeps R (setFiles files) :=
  Keeps.modify fun m => Lenient.world m {m.world with files := files}

instance (native : Native) : Keeps R (runNative native) := by
  unfold runNative
  cases native with
  | readFile | emptyFile =>
    refine Keeps.seq inferInstance fun path => Keeps.seq inferInstance fun m => ?_
    split <;> infer_instance
  | writeFile =>
    refine Keeps.seq inferInstance fun path => Keeps.seq inferInstance fun v =>
      Keeps.seq inferInstance fun content => Keeps.seq inferInstance fun m => ?_
    split <;> infer_instance
  | _ => infer_instance

instance (name : String) (arguments : Nat) : Keeps R (callNative name arguments) := by
  refine Keeps.seq inferInstance fun v => Keeps.seq inferInstance fun o => ?_
  split <;> infer_instance

instance (offset : Nat) : Keeps R (trace offset) :=
  Keeps.seq inferInstance fun _ => Keeps.seq inferInstance fun _ =>
    Keeps.seq (Keeps.modifyGet fun m => Lenient.world m _) fun _ => inferInstance

instance [∀ name v, Keeps R (defineGlobal name v)] (id : Nat) (index : UInt8) :
    Keeps R (defineRunnable id index) := by
  refine Keeps.seq inferInstance fun v => Keeps.seq inferInstance fun o => ?_
  split <;> infer_instance

end

/-! Instructions that bind no global. -/

/-- A relation that holds whatever becomes of the calls. -/
class Roaming (R : Machine → Machine → Prop) : Prop where
  frames (m : Machine) (frames : List Frame) : R m {m with frames := frames}

section
variable {R : Machine → Machine → Prop} [Std.Refl R] [Trans R R R] [Roaming R]

instance (ip : Nat) : Keeps R (setIp ip) := by
  refine Keeps.modify fun m => ?_
  split
  · exact Roaming.frames m _
  · exact Std.Refl.refl m

instance (p : Program) (name : String) : Keeps R (call p name) := by
  refine Keeps.seq inferInstance fun v => Keeps.seq inferInstance fun o => ?_
  split
  · split
    · infer_instance
    · refine Keeps.seq inferInstance fun m => ?_
      split
      · infer_instance
      · split
        · infer_instance
        · exact Keeps.modify fun m => Roaming.frames m _
  · infer_instance

variable [Lenient R]

instance : Keeps R ret := by
  refine Keeps.seq inferInstance fun v => Keeps.seq inferInstance fun m => ?_
  split
  · exact Keeps.seq inferInstance fun _ => Keeps.modify fun m => Roaming.frames m _
  · infer_instance

instance : Keeps R countDown := by
  refine Keeps.seq inferInstance fun v => ?_
  split <;> infer_instance

theorem keeps_execute (p : Program) (id : Nat) (f : Function) {op : Opcode} (hop : op.binds = false) :
    Keeps R (execute p id f op) := by
  unfold execute
  cases op with
  | define | defineRunnable => cases hop
  | set scope | count scope | compound scope =>
    cases scope with
    | global => cases hop
    | frame => infer_instance
  | get scope => cases scope <;> infer_instance
  | negate | complement =>
    refine Keeps.seq inferInstance fun v => ?_
    split <;> infer_instance
  | _ => infer_instance

end

variable {z : Setting} {X : List Value} {S : Handle → Prop} {m : Machine} {v : Value}

instance (ip : Nat) : Keeps (Invariant (Counted z X S)) (setIp ip) := by
  apply Keeps.modify
  intro m hm
  split
  · next f rest hframes =>
    refine hm.move rfl rfl hm.pinned rfl (fun _ => rfl) hm.named hm.room ?_
    intro g hg
    rcases List.mem_cons.mp hg with rfl | hg
    · exact hm.bases f (by simp [hframes])
    · exact hm.bases g (by simp [hframes, hg])
  · exact hm

/-- What happens in the world outside leaves the counts alone. -/
theorem counted_world (hm : m.Counted z X S) (world : World) :
    ({m with world := world} : Machine).Counted z X S :=
  hm.move rfl rfl hm.pinned rfl (fun _ => rfl) hm.named hm.room hm.bases

instance (text : String) : Keeps (Invariant (Counted z X S)) (writeLine text) :=
  Keeps.seq (Keeps.modifyGet fun _ hm => counted_world hm _) fun _ => inferInstance

instance : Keeps (Invariant (Counted z X S)) readLine := by
  refine Keeps.seq (Keeps.modifyGet fun _ hm => counted_world hm _) fun line => ?_
  split <;> infer_instance

instance (files : Files) : Keeps (Invariant (Counted z X S)) (setFiles files) :=
  Keeps.modify fun _ hm => counted_world hm _

instance (native : Native) : Keeps (Invariant (Counted z X S)) (runNative native) := by
  unfold runNative
  cases native with
  | readFile | emptyFile =>
    apply Keeps.seq inferInstance
    intro path
    apply Keeps.seq inferInstance
    intro m
    split <;> infer_instance
  | writeFile =>
    apply Keeps.seq inferInstance
    intro path
    apply Keeps.seq inferInstance
    intro top
    apply Keeps.seq inferInstance
    intro content
    apply Keeps.seq inferInstance
    intro m
    split <;> infer_instance
  | _ => infer_instance

/-- The result of an operator may be a new text, which is held by nothing yet. -/
theorem apply_yields {F : Machine → Prop} (hF : Aside F) (op : Operator) (x y : Value) :
    Yields (fun m => m.Counted z X S ∧ F m) (apply op x y)
      (fun v m => m.Counted z X (Loose S v) ∧ F m) (fun _ => Counted z X S) := by
  have hreads {α : Type} (x : Exec α) [Keeps (Invariant fun m => m.Counted z X S ∧ F m) x] :
      Yields (fun m => m.Counted z X S ∧ F m) x (fun _ m => m.Counted z X S ∧ F m)
        (fun _ => Counted z X S) :=
    (Yields.of_keeps inferInstance).mono (fun _ h => h) (fun _ _ h => h) fun _ _ h => h.1
  have hfails (e : Fault) : Yields (fun m => m.Counted z X S ∧ F m) (throw e : Exec Value)
      (fun v m => m.Counted z X (Loose S v) ∧ F m) (fun _ => Counted z X S) :=
    Yields.throw fun _ h => h.1
  have hgives (v : Value) : Yields (fun m => m.Counted z X S ∧ F m) (pure v : Exec Value)
      (fun v m => m.Counted z X (Loose S v) ∧ F m) (fun _ => Counted z X S) :=
    Yields.pure fun _ h => ⟨h.1.loose v, h.2⟩
  unfold Exec.apply
  split
  · split
    · exact Yields.bind (hreads _) fun _ => hgives _
    · exact Yields.bind (hreads _) fun _ => Yields.bind (hreads _) fun _ => hfails _
  · split
    · exact hgives _
    · split
      · refine Yields.bind (hreads _) fun left => Yields.bind (hreads _) fun right => ?_
        split
        · exact (newText_yields hF _).mono (fun _ h => h) (fun _ _ h => ⟨h.1, h.2.2⟩) fun _ _ h => h
        · exact Yields.bind (hreads _) fun _ => Yields.bind (hreads _) fun _ => hfails _
      · exact Yields.bind (hreads _) fun _ => Yields.bind (hreads _) fun _ => hfails _

theorem size_of_peek {distance : Nat} {m' : Machine} (h : peek distance m = .ok v m') :
    distance < m.stack.size := by
  by_cases hlt : distance < m.stack.size
  · exact hlt
  · have hfail : peek distance m = .error .stackUnderflow m := by
      simp only [peek, bind, EStateM.bind, get, getThe, MonadStateOf.get, EStateM.get, hlt,
        if_false]
      rfl
    simp [hfail] at h

theorem hasCell_of_loadLocal {slot : UInt8} {m' : Machine} (h : loadLocal slot m = .ok v m') :
    ∃ index, HasCell slot index m := by
  rcases cell_cases slot m with hcell | ⟨e, he⟩
  · exact hcell
  · simp [loadLocal, bind, EStateM.bind, he] at h

theorem binary_keeps (op : Operator) :
    Keeps (Invariant (Counted z X S)) (do
      let x ← peek 1
      let y ← peek 0
      let v ← Exec.apply op x y
      pop
      pop
      push v) where
  keeps m hm := by
    refine Yields.after (P := (· = m)) (Yields.reads inferInstance (fun x hx => Yields.reads inferInstance
      (fun y _ => ?_) fun _ => hm) fun _ => hm) rfl
    have hsize := size_of_peek hx
    obtain ⟨n, hn⟩ : ∃ n, m.stack.size = n+2 := ⟨m.stack.size-2, by omega⟩
    have hroom := hm.room
    refine Yields.start ⟨hm, hn⟩ (Yields.bind (apply_yields (aside_size (P := (· = n+2))) op x y)
      fun v => Yields.bind (pop_yields (n+1)) fun _ => Yields.bind (pop_yields n) fun _ => ?_)
    refine (push_settles v).mono ?_ (fun _ _ h => h) fun _ _ h => h
    intro m' hm'
    exact ⟨hm'.1, by omega⟩

theorem compoundGlobal_keeps (op : Operator) (name : String) (old y : Value) :
    Keeps (Invariant (Counted z X S)) (do
      let v ← Exec.apply op old y
      storeGlobal name v
      replaceTop v) := by
  apply Yields.keeps
  refine Yields.bind ((apply_yields (F := fun _ => True) (fun _ _ h => h) op old y).mono
    (fun _ h => ⟨h, trivial⟩) (fun _ _ h => h.1) fun _ _ h => h) fun v => ?_
  exact Yields.bind (storeGlobal_settles name v) fun _ => Yields.of_keeps inferInstance

/-- The slot that is stored to was read before, so it has a cell. -/
theorem compoundFrame_keeps (op : Operator) (slot : UInt8) :
    Keeps (Invariant (Counted z X S)) (do
      let old ← loadLocal slot
      let y ← peek 0
      let v ← Exec.apply op old y
      storeLocal slot v
      replaceTop v) where
  keeps m hm := by
    refine Yields.after (P := (· = m)) (Yields.reads inferInstance (fun old hold => Yields.reads inferInstance
      (fun y _ => ?_) fun _ => hm) fun _ => hm) rfl
    have hcell := hasCell_of_loadLocal hold
    refine Yields.start ⟨hm, hcell⟩ (Yields.bind
      (apply_yields (F := fun m => ∃ index, HasCell slot index m) (fun _ _ h => h) op old y)
      fun v => Yields.bind (storeLocal_settles slot v) fun _ => Yields.of_keeps inferInstance)

instance (p : Program) (name : String) : Keeps (Invariant (Counted z X S)) (call p name) := by
  unfold call
  apply Keeps.seq inferInstance
  intro v
  apply Keeps.seq inferInstance
  intro o
  split
  · split
    · infer_instance
    · next function _ _ callee _ =>
      apply Keeps.get_bind
      intro m hm
      split
      · exact hm
      · split
        · exact hm
        · next hargs =>
          refine hm.move rfl rfl hm.pinned rfl (fun _ => rfl) hm.named hm.room ?_
          intro f hf
          have hroom := hm.room
          rcases List.mem_cons.mp hf with rfl | hf
          · simp only
            omega
          · exact hm.bases f hf
  · infer_instance

instance (name : String) (arguments : Nat) :
    Keeps (Invariant (Counted z X S)) (callNative name arguments) := by
  unfold callNative
  apply Keeps.seq inferInstance
  intro v
  apply Keeps.seq inferInstance
  intro o
  split
  · next native =>
    split
    · infer_instance
    · apply Keeps.get_bind
      intro m hm
      dsimp only
      split
      · exact hm
      · next hargs =>
        have hroom := hm.room
        have hrun : Keeps (Invariant (Counted z X S)) (do
            runNative native
            collapse (m.stack.size-(arguments+1)) (← peek 0)) :=
          Keeps.seq inferInstance fun _ => Keeps.seq inferInstance fun v =>
            (collapse_yields (by omega) v).keeps
        exact hrun.keeps m hm
  · infer_instance

instance : Keeps (Invariant (Counted z X S)) ret where
  keeps m hm := by
    refine Yields.after (P := (· = m)) (Yields.reads inferInstance (fun v hv => ?_) fun _ => hm) rfl
    have hsize := size_of_peek hv
    have hroom := hm.room
    apply Yields.get_bind
    intro s hs
    subst s
    split
    · next f g rest hframes =>
      have hbase := hm.bases f (by simp [hframes])
      refine Yields.start hm (Yields.bind (collapse_yields (by omega) v) fun _ => Yields.modify ?_)
      intro m' hm'
      exact hm'.move rfl rfl hm'.pinned rfl (fun _ => rfl) hm'.named hm'.room
        fun f hf => hm'.bases f (List.mem_of_mem_drop hf)
    · exact Yields.start hm (Yields.throw fun _ h => h)

instance : Keeps (Invariant (Counted z X S)) countDown := by
  apply Keeps.seq inferInstance
  intro v
  split <;> infer_instance

instance (id : Nat) (index : UInt8) :
    Keeps (Invariant (Counted z X S)) (defineRunnable id index) := by
  apply Keeps.seq inferInstance
  intro v
  apply Keeps.seq inferInstance
  intro o
  split <;> infer_instance

instance (p : Program) (id : Nat) (f : Function) (op : Opcode) :
    Keeps (Invariant (Counted z X S)) (execute p id f op) := by
  unfold execute
  cases op with
  | operator op => exact binary_keeps op
  | compound scope op =>
    cases scope with
    | global =>
      exact Keeps.seq inferInstance fun name => Keeps.seq inferInstance fun old =>
        Keeps.seq inferInstance fun y => compoundGlobal_keeps op name old y
    | frame => exact Keeps.seq inferInstance fun slot => compoundFrame_keeps op slot
  | get scope | set scope => cases scope <;> infer_instance
  | count scope up => cases scope <;> infer_instance
  | negate =>
    apply Keeps.seq inferInstance
    intro v
    split <;> infer_instance
  | complement =>
    apply Keeps.seq inferInstance
    intro v
    split <;> infer_instance
  | _ => infer_instance

/-- One instruction keeps the counts. -/
instance (p : Program) (id : Nat) (f : Function) :
    Keeps (Invariant (Counted z X S)) (step p id f) := by
  apply Keeps.seq inferInstance
  intro byte
  split <;> infer_instance

end Exec
end RatScript
