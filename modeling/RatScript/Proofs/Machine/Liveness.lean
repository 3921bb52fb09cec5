import RatScript.Proofs.Machine.Heights
import RatScript.Proofs.Machine.Session

/-!
Freed objects are left alone. Whatever an instruction looks at, holds or gives up is live at that
moment, with one exception: a compound assignment may name the very cell that its operand is in.
Then the result is stored over the operand, dropped with it, and pushed when it is gone.
-/

namespace RatScript

open Stateful

/-- Faults of the heap: a handle was used whose object is gone, or given up that nobody holds. -/
def Fault.isHeap : Fault → Bool
  | heap _ => true
  | _ => false

namespace Exec

open Machine

variable {α β : Type} {z : Setting} {X : List Value} {S : Handle → Prop} {m m' : Machine}
  {v w : Value} {P : Machine → Prop} {Q : α → Machine → Prop} {R : β → Machine → Prop}

/-- Succeeds as described, or fails for a reason other than the heap. -/
def Careful (P : Machine → Prop) (x : Exec α) (Q : α → Machine → Prop) : Prop :=
  Yields P x Q fun e _ => e.isHeap = false

/-- A part that does not fail in the heap, whatever the machine. -/
class Offheap (x : Exec α) : Prop where
  careful : Careful (fun _ => True) x fun _ _ => True

namespace Offheap

theorem throw {e : Fault} (h : e.isHeap = false) : Offheap (throw e : Exec α) :=
  ⟨Yields.throw fun _ _ => h⟩

theorem bind {x : Exec α} {f : α → Exec β} (hx : Offheap x) (hf : ∀ a, Offheap (f a)) :
    Offheap (x >>= f) :=
  ⟨Yields.bind hx.careful fun a => (hf a).careful⟩

instance (a : α) : Offheap (pure a) := ⟨Yields.pure fun _ _ => trivial⟩

instance : Offheap (get : Exec Machine) := ⟨fun _ _ => trivial⟩

instance (f : Machine → Machine) : Offheap (modify f) := ⟨fun _ _ => trivial⟩

instance (f : Machine → α × Machine) : Offheap (modifyGet f) := ⟨fun _ _ => trivial⟩

instance (x : Exec α) (f : α → Exec β) [Offheap x] [∀ a, Offheap (f a)] : Offheap (x >>= f) :=
  bind inferInstance inferInstance

instance (v : Value) : Offheap (describe v) := inferInstanceAs (Offheap (get >>= _))

instance : Offheap frame := by
  apply bind inferInstance
  intro m
  split
  · infer_instance
  · exact throw rfl

instance (slot : UInt8) : Offheap (cell slot) := by
  apply bind inferInstance
  intro f
  apply bind inferInstance
  intro m
  split
  · infer_instance
  · exact throw rfl

instance (ip : Nat) : Offheap (setIp ip) := inferInstanceAs (Offheap (modify _))

instance (code : Array UInt8) : Offheap (readByte code) := by
  apply bind inferInstance
  intro f
  split
  · infer_instance
  · exact throw rfl

instance (code : Array UInt8) : Offheap (readWord code) := by
  unfold readWord
  infer_instance

instance (f : Function) : Offheap (identifier f) := by
  apply bind inferInstance
  intro index
  split
  · infer_instance
  · exact throw rfl

instance (distance : UInt16) : Offheap (jumpBy distance) := by
  unfold jumpBy
  infer_instance

instance (distance : UInt16) : Offheap (loopBy distance) := by
  apply bind inferInstance
  intro f
  split
  · infer_instance
  · exact throw rfl

instance (op : Operator) (x y : Int32) : Offheap (bitwise op x y) := by
  unfold bitwise
  cases op with
  | shiftLeft | shiftRight =>
    dsimp only
    split
    · infer_instance
    · exact throw rfl
  | _ => infer_instance

instance (text : String) : Offheap (writeLine text) := by
  apply bind inferInstance
  intro ok
  split
  · infer_instance
  · exact throw rfl

instance : Offheap readLine := by
  apply bind inferInstance
  intro line
  split
  · infer_instance
  · exact throw rfl

instance (files : Files) : Offheap (setFiles files) := inferInstanceAs (Offheap (modify _))

end Offheap

namespace Careful

theorem bind {x : Exec α} {f : α → Exec β} (hx : Careful P x Q) (hf : ∀ a, Careful (Q a) (f a) R) :
    Careful P (x >>= f) R :=
  Yields.bind hx hf

theorem pure {a : α} (h : ∀ m, P m → Q a m) : Careful P (pure a) Q := Yields.pure h

theorem throw {e : Fault} (h : e.isHeap = false) : Careful P (throw e : Exec α) Q :=
  Yields.throw fun _ _ => h

theorem start {x : Exec α} (hm : P m) (hx : Careful P x Q) : Careful (· = m) x Q :=
  Yields.start hm hx

theorem mono {P' : Machine → Prop} {Q' : α → Machine → Prop} {x : Exec α} (hx : Careful P x Q)
    (hp : ∀ m, P' m → P m) (hq : ∀ a m, Q a m → Q' a m) : Careful P' x Q' :=
  Yields.mono hx hp hq fun _ _ h => h

/-- What follows a part that only reads the machine, by what the part has found. -/
theorem look {x : Exec α} [hk : Keeps Eq x] [ho : Offheap x] {f : α → Exec β}
    (hf : ∀ a, x m = .ok a m → Careful (· = m) (f a) R) : Careful (· = m) (x >>= f) R := by
  rintro m rfl
  have h := ho.careful m trivial
  simp only [Bind.bind, EStateM.bind]
  cases hs : x m with
  | ok a t =>
    have ht := hk.of_ok hs
    subst t
    exact hf a hs m rfl
  | error e t =>
    rw [hs] at h
    exact h

/-- What follows a part from a machine that is known. -/
theorem chain {x : Exec α} {f : α → Exec β} (hx : Careful (· = m) x Q)
    (hf : ∀ a m', x m = .ok a m' → Q a m' → Careful (· = m') (f a) R) :
    Careful (· = m) (x >>= f) R := by
  rintro m rfl
  have h := hx m rfl
  simp only [Bind.bind, EStateM.bind]
  cases hs : x m with
  | ok a t =>
    rw [hs] at h
    exact hf a t hs h t rfl
  | error e t =>
    rw [hs] at h
    exact h

/-- A part off the heap that keeps the counts. -/
theorem counts {x : Exec α} [ho : Offheap x] [hk : Keeps (Invariant (Counted z X S)) x] :
    Careful (Counted z X S) x fun _ => Counted z X S := by
  intro m hm
  have h := ho.careful m trivial
  cases hs : x m with
  | ok a t => exact hk.of_ok hs hm
  | error e t =>
    rw [hs] at h
    exact h

/-- What follows a part that only looks something up. -/
theorem find {x : Exec α} {φ : α → Prop} {f : α → Exec β}
    (hx : Careful (· = m) x fun a m' => m' = m ∧ φ a)
    (hf : ∀ a, φ a → Careful (· = m) (f a) R) : Careful (· = m) (x >>= f) R := by
  refine chain hx fun a m' _ h => ?_
  obtain ⟨rfl, ha⟩ := h
  exact hf a ha

end Careful

/-! Where values are found they are held. -/

theorem peek_finds (distance : Nat) :
    Careful (· = m) (peek distance) fun v m' => m' = m ∧ v ∈ m.stack.toList := by
  apply Yields.get_bind
  rintro m rfl
  split
  · split
    · next v hv =>
      exact Careful.pure fun _ h => ⟨h, Array.mem_toList_iff.mpr (Array.mem_of_getElem? hv)⟩
    · exact Careful.throw rfl
  · exact Careful.throw rfl

theorem global_finds (name : String) :
    Careful (· = m) (global name) fun v m' => m' = m ∧ m.globals.get? name = some v := by
  apply Yields.get_bind
  rintro m rfl
  split
  · next v hv => exact Careful.pure fun _ h => ⟨h, hv⟩
  · exact Careful.throw rfl

theorem assignable_finds (name : String) :
    Careful (· = m) (assignable name) fun v m' => m' = m ∧ m.globals.get? name = some v := by
  refine Careful.find (global_finds name) fun v hv => ?_
  apply Yields.get_bind
  rintro m rfl
  split
  · exact Careful.throw rfl
  · exact Careful.pure fun _ h => ⟨h, hv⟩

theorem loadLocal_finds (slot : UInt8) : Careful (· = m) (loadLocal slot) fun v m' =>
    m' = m ∧ ∃ index, HasCell slot index m ∧ m.stack[index]? = some v := by
  rintro m rfl
  rcases cell_cases slot m with ⟨index, hcell⟩ | ⟨e, he⟩
  · obtain ⟨v, hv, hload⟩ := loadLocal_ok hcell
    rw [hload]
    exact ⟨rfl, index, hcell, hv⟩
  · have hoff := (inferInstance : Offheap (cell slot)).careful m trivial
    simp only [loadLocal, bind, EStateM.bind, he] at hoff ⊢
    exact hoff

theorem constant_finds (function : Nat) (index : UInt8) :
    Careful (· = m) (constant function index) fun v m' =>
      m' = m ∧ v ∈ m.pools.toList.flatMap Array.toList := by
  apply Yields.get_bind
  rintro m rfl
  split
  · next v hv =>
    obtain ⟨pool, hpool, hv⟩ := Option.bind_eq_some_iff.mp hv
    exact Careful.pure fun _ h => ⟨h, List.mem_flatMap.mpr
      ⟨pool, Array.mem_toList_iff.mpr (Array.mem_of_getElem? hpool),
        Array.mem_toList_iff.mpr (Array.mem_of_getElem? hv)⟩⟩
  · exact Careful.throw rfl

theorem ask_finds {x : Heap → Except HeapFault α} (hx : ∃ a, x m.heap = .ok a) :
    Careful (· = m) (ask x) fun a m' => m' = m ∧ x m.heap = .ok a := by
  obtain ⟨a, ha⟩ := hx
  rintro m rfl
  simp only [ask, bind, EStateM.bind, get, getThe, MonadStateOf.get, EStateM.get, ha]
  exact ⟨rfl, rfl⟩

section
variable (hm : m.Counted z X S)
include hm

theorem live_of_held (hv : v ∈ m.held) : Live v m :=
  fun _ hr => hm.live_of_held (List.mem_append_right _ (hr ▸ hv))

theorem live_of_stack (hv : v ∈ m.stack.toList) : Live v m :=
  live_of_held hm (List.mem_append_left _ (List.mem_append_left _ hv))

theorem live_of_cell {index : Nat} (hv : m.stack[index]? = some v) : Live v m :=
  live_of_stack hm (Array.mem_toList_iff.mpr (Array.mem_of_getElem? hv))

theorem live_of_globals (hv : v ∈ m.globals.bindings.map Prod.snd) : Live v m :=
  live_of_held hm (List.mem_append_left _ (List.mem_append_right _ hv))

theorem live_of_get? {name : String} (hv : m.globals.get? name = some v) : Live v m := by
  apply live_of_globals hm
  obtain ⟨l, _, hl, _⟩ := List.lookup_eq_some_iff.mp hv
  rw [hl]
  simp

end

end Exec

namespace Heap

variable {m : Machine} {v w : Value}

def isText (h : Heap) (v : Value) : Bool :=
  match h.object v with
  | .ok (some (.text _)) => true
  | _ => false

theorem object_of_live (h : Exec.Live v m) : ∃ o, m.heap.object v = .ok o := by
  cases v with
  | object r =>
    obtain ⟨l, hl⟩ := h r rfl
    exact ⟨some l.object, by simp [object, get, object?, hl, Except.map]⟩
  | none | number | bool => exact ⟨none, rfl⟩

theorem display_of_live (h : Exec.Live v m) : ∃ text, m.heap.display v = .ok text := by
  cases v with
  | object r =>
    obtain ⟨l, hl⟩ := h r rfl
    exact ⟨l.object.render, by simp [display, get, object?, hl, bind, Except.bind, pure, Except.pure]⟩
  | none | number | bool => exact ⟨_, rfl⟩

theorem kind_of_live (h : Exec.Live v m) : ∃ kind, m.heap.kind v = .ok kind := by
  cases v with
  | object r =>
    obtain ⟨l, hl⟩ := h r rfl
    exact ⟨l.object.kind, by simp [kind, get, object?, hl, bind, Except.bind, pure, Except.pure]⟩
  | none | number | bool => exact ⟨_, rfl⟩

theorem isTruthy_of_live (h : Exec.Live v m) : ∃ b, m.heap.isTruthy v = .ok b := by
  cases v with
  | object r =>
    obtain ⟨l, hl⟩ := h r rfl
    simp only [isTruthy, get, object?, hl, bind, Except.bind, Option.map_some]
    split <;> exact ⟨_, rfl⟩
  | none | number | bool => exact ⟨_, rfl⟩

theorem equal_of_live (hv : Exec.Live v m) (hw : Exec.Live w m) :
    ∃ b, m.heap.equal v w = .ok b := by
  cases v with
  | object r =>
    cases w with
    | object s =>
      obtain ⟨l, hl⟩ := hv r rfl
      obtain ⟨k, hk⟩ := hw s rfl
      simp only [equal, get, object?, hl, hk, bind, Except.bind, Option.map_some]
      split <;> exact ⟨_, rfl⟩
    | none | number | bool => exact ⟨_, rfl⟩
  | none | number | bool => cases w <;> exact ⟨_, rfl⟩

end Heap

namespace Exec

open Machine

variable {α β : Type} {z : Setting} {X : List Value} {S : Handle → Prop} {m m' : Machine}
  {v w : Value} {R : β → Machine → Prop}

/-! Parts that look into the heap. -/

theorem text?_finds (hv : Live v m) : Careful (· = m) (text? v) fun content m' =>
    m' = m ∧ ∀ text, content = some text → m.heap.isText v := by
  refine Careful.find (ask_finds (Heap.object_of_live hv)) fun o ho => ?_
  split
  · next text =>
    refine Careful.pure ?_
    rintro m rfl
    exact ⟨rfl, fun _ _ => by simp [Heap.isText, ho]⟩
  · refine Careful.pure ?_
    rintro m rfl
    exact ⟨rfl, fun _ h => by cases h⟩

theorem textArgument_finds (hm : m.Counted z X S) (native : Native) (distance : Nat) :
    Careful (· = m) (textArgument native distance) fun _ m' => m' = m := by
  refine Careful.find (peek_finds distance) fun v hv => ?_
  refine Careful.find (text?_finds (live_of_stack hm hv)) fun content _ => ?_
  split
  · exact Careful.pure fun _ h => h
  · exact Careful.find (ask_finds (Heap.kind_of_live (live_of_stack hm hv)))
      fun _ _ => Careful.throw rfl

theorem toNumber_finds (hv : Live v m) : Careful (· = m) (toNumber v) fun _ m' => m' = m := by
  cases v with
  | object r =>
    refine Careful.find (ask_finds (Heap.object_of_live hv)) fun o _ => ?_
    split
    · split
      · exact Careful.pure fun _ h => h
      · exact Careful.throw rfl
    · exact Careful.throw rfl
    · exact Careful.pure fun _ h => h
  | none | number | bool => exact Careful.pure fun _ h => h

theorem counted_finds (up : Bool) (v : Value) :
    Careful (· = m) (counted up v) fun u m' => m' = m ∧ ∀ r, u ≠ .object r := by
  unfold counted
  split
  · exact Careful.pure fun _ h => ⟨h, fun _ hv => by cases hv⟩
  · exact Careful.look fun _ _ => Careful.throw rfl

theorem compare_finds (t : Test) (hv : Live v m) (hw : Live w m) :
    Careful (· = m) (compare t v w) fun u m' => m' = m ∧ ∀ r, u ≠ .object r := by
  have hfails (e : String → String → Fault) (he : ∀ s t, (e s t).isHeap = false) :
      Careful (· = m) (do throw (e (← describe v) (← describe w)))
        fun (u : Value) m' => m' = m ∧ ∀ r, u ≠ .object r :=
    Careful.look fun _ _ => Careful.look fun _ _ => Careful.throw (he _ _)
  have hgives (b : Bool) : Careful (· = m) (pure (.bool b))
      fun (u : Value) m' => m' = m ∧ ∀ r, u ≠ .object r :=
    Careful.pure fun _ h => ⟨h, fun _ hv => by cases hv⟩
  unfold compare
  split
  · exact Careful.find (ask_finds (Heap.equal_of_live hv hw)) fun b _ => hgives b
  · exact hgives _
  · exact hgives _
  · exact hfails (.operands ">") fun _ _ => rfl
  · exact hfails (.operands "<") fun _ _ => rfl

/-- What an operator gives is live. It is an object only where texts are joined. -/
theorem apply_makes (hm : m.Counted z X S) (op : Operator) (hv : Live v m) (hw : Live w m) :
    Careful (· = m) (Exec.apply op v w) fun u m' => m'.Counted z X (Loose S u) ∧ Fresh z u m' ∧
      (m'.stack = m.stack ∧ m'.globals = m.globals ∧ m'.frames = m.frames) ∧
      ∀ r, u = .object r → op = .add ∧ m.heap.isText v := by
  have hfails (e : String → String → Fault) (he : ∀ s t, (e s t).isHeap = false)
      {Q : Value → Machine → Prop} :
      Careful (· = m) (do throw (e (← describe v) (← describe w))) Q :=
    Careful.look fun _ _ => Careful.look fun _ _ => Careful.throw (he _ _)
  have hgives (x : Number) : Careful (· = m) (pure (.number x)) fun u m' =>
      m'.Counted z X (Loose S u) ∧ Fresh z u m' ∧
      (m'.stack = m.stack ∧ m'.globals = m.globals ∧ m'.frames = m.frames) ∧
      ∀ r, u = .object r → op = .add ∧ m.heap.isText v := by
    refine Careful.pure ?_
    rintro m rfl
    exact ⟨hm.loose _, (fun _ h => by cases h), ⟨rfl, rfl, rfl⟩, fun _ h => by cases h⟩
  unfold Exec.apply
  split
  · split
    · exact Careful.look fun _ _ => hgives _
    · exact hfails (.integralOperands op.spelling) fun _ _ => rfl
  · split
    · exact hgives _
    · split
      · next hadd =>
        refine Careful.find (text?_finds hv) fun left hleft =>
          Careful.find (text?_finds hw) fun right _ => ?_
        split
        · next s t _ =>
          have hnew := newText_yields (z := z) (X := X) (S := S)
            (F := fun m' => m'.stack = m.stack ∧ m'.globals = m.globals ∧ m'.frames = m.frames)
            (fun _ _ h => h) (s++t) (E := fun e _ => e.isHeap = false)
          refine (Yields.start ⟨hm, rfl, rfl, rfl⟩ hnew).mono (fun _ h => h) ?_ fun _ _ h => h
          rintro u m' ⟨hm', hfresh, hsame⟩
          exact ⟨hm', hfresh, hsame, fun _ _ => ⟨by simpa using hadd, hleft s rfl⟩⟩
        · exact hfails (.operands op.spelling) fun _ _ => rfl
      · exact hfails (.operands op.spelling) fun _ _ => rfl

/-! Parts that hold values and give them up. -/

theorem live_of_plain (hv : ∀ r, v ≠ .object r) : Live v m := fun r hr => absurd hr (hv r)

theorem push_careful (v : Value) :
    Careful (fun m => m.Counted z X (Loose S v) ∧ Live v m) (push v) fun _ => Counted z X S := by
  rintro m ⟨hm, hlive⟩
  by_cases hroom : m.stack.size < z.config.stackCapacity
  · refine push_of_retain (P := fun m => m.Counted z X (Loose S v) ∧ Live v m ∧
      m.stack.size < z.config.stackCapacity) ?_ ?_ m ⟨hm, hlive, hroom⟩
    · rintro m ⟨hm, _, hroom⟩
      rwa [hm.config]
    · exact (retain_live (aside_size (P := (· < z.config.stackCapacity))) v).mono (fun _ h => h)
        (fun _ _ h => counted_push h.1 h.2) fun _ _ h => h
  · rw [push_full (by rw [hm.config]; omega) v]
    rfl

theorem pop_careful : Careful (Counted z X S) pop fun _ => Counted z X S := by
  intro m hm
  cases hsize : m.stack.size with
  | zero =>
    rw [pop_empty hsize]
    rfl
  | succ n =>
    exact (pop_yields n).mono (fun _ h => h) (fun _ _ h => h.1) (fun _ _ h => h) m ⟨hm, hsize⟩

theorem replaceTop_careful (hv : ∀ r, v ≠ .object r) :
    Careful (Counted z X S) (replaceTop v) fun _ => Counted z X S :=
  Careful.bind pop_careful fun _ =>
    (push_careful v).mono (fun _ h => ⟨h.loose v, live_of_plain hv⟩) fun _ _ h => h

theorem pushText_careful (content : String) :
    Careful (Counted z X S) (pushText content) fun _ => Counted z X S := by
  apply Yields.get_bind
  intro m hm
  split
  · refine Yields.start hm (Careful.bind ((newText_yields (F := fun _ => True) (fun _ _ h => h)
      content).mono (fun _ h => ⟨h, trivial⟩) (fun _ _ h => h) fun _ _ h => h) fun v => ?_)
    exact (push_careful v).mono (fun _ h => ⟨h.1, h.2.1.live⟩) fun _ _ h => h
  · exact Careful.throw rfl

theorem retain_careful {F : Machine → Prop} (hF : Aside F) (hm : m.Counted z X (Loose S v))
    (hv : Live v m) (hf : F m) :
    Careful (· = m) (retain v) fun _ m' => m'.Counted z (v :: X) S ∧ F m' :=
  Yields.start ⟨hm, hv, hf⟩ (retain_live hF v)

theorem storeGlobal_careful (name : String) (v : Value) :
    Careful (fun m => m.Counted z X (Loose S v) ∧ Live v m) (storeGlobal name v)
      fun _ => Counted z X S :=
  storeGlobal_of_retain name ((retain_live (F := fun _ => True) (fun _ _ h => h) v).mono
    (fun _ h => ⟨h.1, h.2, trivial⟩) (fun _ _ h => h.1) fun _ _ h => h)

theorem defineGlobal_careful (name : String) (v : Value) :
    Careful (fun m => m.Counted z X (Loose S v) ∧ Live v m) (defineGlobal name v)
      fun _ => Counted z X S := by
  rintro m ⟨hm, hv⟩
  cases hname : m.globals.get? name with
  | none =>
    exact (defineGlobal_live hname v).mono (fun _ h => h) (fun _ _ h => h.1) (fun _ _ h => h) m
      ⟨hm, hv, rfl⟩
  | some old =>
    simp only [defineGlobal, bind, EStateM.bind, get, getThe, MonadStateOf.get, EStateM.get, hname]
    change (if m.heap.isNative old then Fault.reserved name else .redeclared name).isHeap = false
    split <;> rfl

theorem storeLocal_careful (slot : UInt8) (v : Value) :
    Careful (fun m => m.Counted z X (Loose S v) ∧ Live v m) (storeLocal slot v)
      fun _ => Counted z X S := by
  rintro m ⟨hm, hv⟩
  rcases cell_cases slot m with ⟨index, hcell⟩ | ⟨e, he⟩
  · exact storeLocal_of_retain hcell (fun old hold =>
      retain_careful (aside_stack (P := (·[index]? = some old))) hm hv hold) m rfl
  · have hoff := (inferInstance : Offheap (cell slot)).careful m trivial
    simp only [storeLocal, bind, EStateM.bind, he] at hoff ⊢
    exact hoff

theorem collapse_careful {base : Nat} (hbase : base < z.config.stackCapacity) (v : Value) :
    Careful (fun m => m.Counted z X S ∧ Live v m) (collapse base v) fun _ => Counted z X S :=
  collapse_of_retain hbase ((retain_live (F := fun _ => True) (fun _ _ h => h) v).mono
    (fun _ h => ⟨h.1.loose v, h.2, trivial⟩) (fun _ _ h => h.1) fun _ _ h => h)

/-- Neither instructions nor the world outside are part of the heap. -/
theorem onward_careful {x : Exec α} {f : α → Exec β} [Offheap x]
    [Keeps (Invariant (Counted z X S)) x] (hm : m.Counted z X S)
    (hf : ∀ a m', m'.Counted z X S → Careful (· = m') (f a) R) : Careful (· = m) (x >>= f) R :=
  Careful.chain (Careful.start hm Careful.counts) fun a m' _ hm' => hf a m' hm'

theorem runNative_careful (native : Native) :
    Careful (Counted z X S) (runNative native) fun _ => Counted z X S := by
  intro m hm
  suffices h : Careful (· = m) (runNative native) fun _ => Counted z X S from h m rfl
  unfold runNative
  cases native with
  | input => exact onward_careful hm fun line m' hm' => Careful.start hm' (pushText_careful line)
  | print =>
    refine Careful.find (peek_finds 0) fun v hv =>
      Careful.find (ask_finds (Heap.display_of_live (live_of_stack hm hv))) fun text _ =>
        onward_careful hm fun _ m' hm' => Careful.start hm' (replaceTop_careful fun _ h => by cases h)
  | readFile =>
    refine Careful.chain (textArgument_finds hm _ 0) fun path m' _ h => ?_
    subst h
    apply Yields.get_bind
    rintro m rfl
    split
    · exact Careful.throw rfl
    · exact Careful.start hm (Careful.bind pop_careful fun _ => pushText_careful _)
  | writeFile =>
    refine Careful.chain (textArgument_finds hm _ 1) fun path m' _ h => ?_
    subst h
    refine Careful.find (peek_finds 0) fun v hv =>
      Careful.find (ask_finds (Heap.display_of_live (live_of_stack hm hv))) fun text _ => ?_
    apply Yields.get_bind
    rintro m rfl
    split
    · exact Careful.throw rfl
    · refine onward_careful hm fun _ m' hm' => Careful.start hm' ?_
      exact Careful.bind pop_careful fun _ => Careful.bind pop_careful fun _ =>
        (push_careful .none).mono (fun _ h => ⟨h.loose _, live_of_plain fun _ h => by cases h⟩) fun _ _ h => h
  | emptyFile =>
    refine Careful.chain (textArgument_finds hm _ 0) fun path m' _ h => ?_
    subst h
    apply Yields.get_bind
    rintro m rfl
    split
    · exact Careful.throw rfl
    · exact onward_careful hm fun _ m' hm' => Careful.start hm' (replaceTop_careful fun _ h => by cases h)
  | toNumber =>
    refine Careful.find (peek_finds 0) fun v hv => ?_
    refine Careful.chain (toNumber_finds (live_of_stack hm hv)) fun x m' _ h => ?_
    subst h
    exact Careful.start hm (replaceTop_careful fun _ h => by cases h)
  | toBool =>
    exact Careful.find (peek_finds 0) fun v hv =>
      Careful.find (ask_finds (Heap.isTruthy_of_live (live_of_stack hm hv))) fun b _ =>
        Careful.start hm (replaceTop_careful fun _ h => by cases h)
  | toText =>
    exact Careful.find (peek_finds 0) fun v hv =>
      Careful.find (ask_finds (Heap.display_of_live (live_of_stack hm hv))) fun text _ =>
        Careful.start hm (Careful.bind pop_careful fun _ => pushText_careful text)
  | typeOf =>
    exact Careful.find (peek_finds 0) fun v hv =>
      Careful.find (ask_finds (Heap.kind_of_live (live_of_stack hm hv))) fun kind _ =>
        Careful.start hm (Careful.bind pop_careful fun _ => pushText_careful kind)

theorem call_careful (p : Program) (name : String) :
    Careful (Counted z X S) (call p name) fun _ _ => True := by
  intro m hm
  suffices h : Careful (· = m) (call p name) fun _ _ => True from h m rfl
  refine Careful.find (global_finds name) fun v hv =>
    Careful.find (ask_finds (Heap.object_of_live (live_of_get? hm hv))) fun o _ => ?_
  split
  · split
    · exact Careful.throw rfl
    · apply Yields.get_bind
      rintro m rfl
      split
      · exact Careful.throw rfl
      · split
        · exact Careful.throw rfl
        · exact Yields.modify fun _ _ => trivial
  · exact Careful.throw rfl

theorem callNative_careful (name : String) (arguments : Nat) :
    Careful (Counted z X S) (callNative name arguments) fun _ _ => True := by
  intro m hm
  suffices h : Careful (· = m) (callNative name arguments) fun _ _ => True from h m rfl
  refine Careful.find (global_finds name) fun v hv =>
    Careful.find (ask_finds (Heap.object_of_live (live_of_get? hm hv))) fun o _ => ?_
  split
  · next native _ =>
    split
    · exact Careful.throw rfl
    · apply Yields.get_bind
      rintro m rfl
      dsimp only
      split
      · exact Careful.throw rfl
      · have hroom := hm.room
        refine Careful.start hm (Careful.bind (runNative_careful native) fun _ m' hm' => ?_)
        refine Careful.find (peek_finds 0) (fun w hw => ?_) m' rfl
        have hbase : m.stack.size-(arguments+1) < z.config.stackCapacity := by omega
        have hcollapse := collapse_careful (X := X) (S := S) hbase w
        exact Careful.start ⟨hm', live_of_stack hm' hw⟩
          (hcollapse.mono (fun _ h => h) fun _ _ _ => trivial)
  · exact Careful.throw rfl

theorem ret_careful : Careful (Counted z X S) ret fun _ _ => True := by
  intro m hm
  suffices h : Careful (· = m) ret fun _ _ => True from h m rfl
  refine Careful.find (peek_finds 0) fun v hv => ?_
  apply Yields.get_bind
  rintro m rfl
  split
  · next f g rest hframes =>
    have hbase := hm.bases f (by simp [hframes])
    have hroom := hm.room
    have hsize : 0 < m.stack.size := by
      have h := List.length_pos_of_mem hv
      simpa using h
    refine Careful.start ⟨hm, live_of_stack hm hv⟩
      (Careful.bind (collapse_careful (by omega) v) fun _ => Yields.modify fun _ _ => trivial)
  · exact Careful.throw rfl

theorem countDown_careful : Careful (Counted z X S) countDown fun _ _ => True := by
  intro m hm
  suffices h : Careful (· = m) countDown fun _ _ => True from h m rfl
  refine Careful.find (peek_finds 0) fun v _ => ?_
  split
  · dsimp only
    split
    · refine Careful.start hm (Careful.bind pop_careful fun _ _ _ => ?_)
      exact (inferInstance : Offheap (do setIp ((← frame).ip+Opcode.loop.width))).careful _ trivial
    · exact Careful.start hm ((replaceTop_careful (v := .number _) fun _ h => by cases h).mono
        (fun _ h => h) fun _ _ _ => trivial)
  · exact Careful.throw rfl

theorem defineRunnable_careful (id : Nat) (index : UInt8) :
    Careful (Counted z X S) (defineRunnable id index) fun _ _ => True := by
  intro m hm
  suffices h : Careful (· = m) (defineRunnable id index) fun _ _ => True from h m rfl
  refine Careful.find (constant_finds id index) fun v hv => ?_
  have hlive := live_of_held hm (List.mem_append_right _ hv)
  refine Careful.find (ask_finds (Heap.object_of_live hlive)) fun o _ => ?_
  split
  · exact Careful.start ⟨hm.loose v, hlive⟩ ((defineGlobal_careful _ v).mono (fun _ h => h)
      fun _ _ _ => trivial)
  · exact Careful.throw rfl

/-! Results in transit. -/

theorem onHeap_changes {x : HeapM α} {a : α} (h : onHeap x m = .ok a m') :
    x m.heap = .ok a m'.heap ∧ m' = {m with heap := m'.heap} := by
  cases hx : x m.heap with
  | ok b k =>
    rw [onHeap_ok hx] at h
    cases h
    exact ⟨rfl, rfl⟩
  | error e k =>
    rw [onHeap_error hx] at h
    cases h

theorem pop_changes (h : pop m = .ok () m') :
    ∃ w h', Heap.releaseValue w m.heap = .ok () h' ∧
      m' = {m with stack := m.stack.pop, heap := h'} := by
  obtain ⟨s, t, hs, h⟩ := bind_eq_ok.mp h
  obtain ⟨rfl, rfl⟩ := get_eq_ok.mp hs
  cases hw : m.stack.back? with
  | none =>
    rw [hw] at h
    exact absurd h throw_ne_ok
  | some w =>
    rw [hw] at h
    obtain ⟨_, _, hmodify, h⟩ := bind_eq_ok.mp h
    obtain rfl := modify_eq_ok.mp hmodify
    obtain ⟨hrelease, hm'⟩ := onHeap_changes h
    exact ⟨w, m'.heap, hrelease, hm'⟩

/-- A pop gives up a value that was held, so one that nobody holds is left. -/
theorem pop_fresh (hsound : m.heap.Sound) (hv : Fresh z v m) (h : pop m = .ok () m') :
    Fresh z v m' := by
  obtain ⟨w, h', hrelease, rfl⟩ := pop_changes h
  intro r hr
  obtain ⟨hfree, o, ho⟩ := hv r hr
  refine ⟨hfree, o, ?_⟩
  cases w with
  | object s =>
    obtain ⟨l, k, hl, hpos, ht, _⟩ := Heap.turns_of_release hsound hrelease
    have hne : r ≠ s := by
      rintro rfl
      rw [ho] at hl
      cases hl
      exact absurd hpos (Nat.lt_irrefl 0)
    change h'.live? r = _
    rw [ht.live, if_neg hne, ho]
  | none | number | bool =>
    cases hrelease
    exact ho

theorem storeLocal_changes {slot : UInt8} {index : Nat} (hcell : HasCell slot index m)
    (h : storeLocal slot v m = .ok () m') :
    m'.stack = m.stack.setIfInBounds index v ∧ m'.globals = m.globals ∧ m'.pools = m.pools := by
  obtain ⟨_, _, hc, h⟩ := bind_eq_ok.mp h
  rw [cell_ok hcell] at hc
  cases hc
  obtain ⟨_, _, hload, h⟩ := bind_eq_ok.mp h
  obtain ⟨old, _, hok⟩ := loadLocal_ok hcell
  rw [hok] at hload
  cases hload
  obtain ⟨_, m₁, hretain, h⟩ := bind_eq_ok.mp h
  obtain ⟨_, m₂, hmodify, hrelease⟩ := bind_eq_ok.mp h
  obtain rfl := modify_eq_ok.mp hmodify
  rw [(onHeap_changes hrelease).2, (onHeap_changes hretain).2]
  exact ⟨rfl, rfl, rfl⟩

theorem storeGlobal_changes {name : String} (h : storeGlobal name v m = .ok () m') (x : String) :
    m'.globals.get? x = if x = name then some v else m.globals.get? x := by
  obtain ⟨_, m₁, hretain, h⟩ := bind_eq_ok.mp h
  have hsame : m₁.globals = m.globals := by rw [(onHeap_changes hretain).2]
  obtain ⟨s, t, hs, h⟩ := bind_eq_ok.mp h
  obtain ⟨rfl, rfl⟩ := get_eq_ok.mp hs
  cases hname : m₁.globals.get? name with
  | some old =>
    rw [hname] at h
    obtain ⟨_, m₂, hmodify, hrelease⟩ := bind_eq_ok.mp h
    obtain rfl := modify_eq_ok.mp hmodify
    rw [(onHeap_changes hrelease).2, ← hsame]
    exact Globals.get?_set hname v x
  | none =>
    rw [hname] at h
    obtain rfl := modify_eq_ok.mp h
    rw [← hsame]
    exact Globals.get?_define m₁.globals name x v

theorem operator_careful (op : Operator) (hm : m.Counted z X S) (hv : Live v m) (hw : Live w m) :
    Careful (· = m) (do
      let u ← Exec.apply op v w
      pop
      pop
      push u) fun _ _ => True := by
  refine Careful.chain (apply_makes hm op hv hw) fun u m₁ _ hu => ?_
  obtain ⟨hm₁, hfresh, _⟩ := hu
  refine Careful.chain (Careful.start hm₁ pop_careful) fun _ m₂ hpop hm₂ => ?_
  replace hfresh := pop_fresh hm₁.sound hfresh hpop
  refine Careful.chain (Careful.start hm₂ pop_careful) fun _ m₃ hpop hm₃ => ?_
  replace hfresh := pop_fresh hm₂.sound hfresh hpop
  exact Careful.start ⟨hm₃, hfresh.live⟩ ((push_careful u).mono (fun _ h => h) fun _ _ _ => trivial)

/-- The global holds the result while its operand goes. -/
theorem compoundGlobal_careful (op : Operator) (name : String) (hm : m.Counted z X S)
    (hv : Live v m) (hw : Live w m) :
    Careful (· = m) (do
      let u ← Exec.apply op v w
      storeGlobal name u
      replaceTop u) fun _ _ => True := by
  refine Careful.chain (apply_makes hm op hv hw) fun u m₁ _ hu => ?_
  obtain ⟨hm₁, hfresh, _⟩ := hu
  refine Careful.chain (Careful.start ⟨hm₁, hfresh.live⟩ (storeGlobal_careful name u))
    fun _ m₂ hstore hm₂ => Careful.chain (Careful.start hm₂ pop_careful) fun _ m₃ hpop hm₃ => ?_
  have hname := storeGlobal_changes hstore name
  rw [if_pos rfl] at hname
  obtain ⟨_, h, _, rfl⟩ := pop_changes hpop
  exact Careful.start ⟨hm₃.loose u, live_of_get? hm₃ hname⟩
    ((push_careful u).mono (fun _ h => h) fun _ _ _ => trivial)

/-- The slot holds the result while its operand goes, if it is in another cell. -/
theorem compoundFrame_careful (op : Operator) (slot : UInt8) {index : Nat} (hm : m.Counted z X S)
    (hcell : HasCell slot index m) (hv : Live v m) (hw : Live w m)
    (hother : index+1 = m.stack.size → ¬ (op = .add ∧ m.heap.isText v)) :
    Careful (· = m) (do
      let u ← Exec.apply op v w
      storeLocal slot u
      replaceTop u) fun _ _ => True := by
  refine Careful.chain (apply_makes hm op hv hw) fun u m₁ _ hu => ?_
  obtain ⟨hm₁, hfresh, ⟨hstack, _, hframes⟩, hjoins⟩ := hu
  refine Careful.chain (Careful.start ⟨hm₁, hfresh.live⟩ (storeLocal_careful slot u))
    fun _ m₂ hstore hm₂ => Careful.chain (Careful.start hm₂ pop_careful) fun _ m₃ hpop hm₃ => ?_
  obtain ⟨f, rest, hf, hindex, hlt⟩ := hcell
  have hstored := (storeLocal_changes ⟨f, rest, hframes ▸ hf, hindex, hstack ▸ hlt⟩ hstore).1
  obtain ⟨_, h, _, rfl⟩ := pop_changes hpop
  refine Careful.start ⟨hm₃.loose u, ?_⟩ ((push_careful u).mono (fun _ h => h) fun _ _ _ => trivial)
  by_cases hplain : ∀ r, u ≠ .object r
  · exact live_of_plain hplain
  · obtain ⟨r, hr⟩ := not_forall_not.mp hplain
    have hbelow : index+1 ≠ m.stack.size := fun htop => hother htop (hjoins r hr)
    apply live_of_stack hm₃
    have hu : m₂.stack.pop[index]? = some u := by
      rw [Array.getElem?_pop, hstored, hstack, Array.size_setIfInBounds, if_pos (by omega),
        Array.getElem?_setIfInBounds_self_of_lt hlt]
    exact Array.mem_toList_iff.mpr (Array.mem_of_getElem? hu)

theorem readByte_changes {code : Array UInt8} {byte : UInt8} (h : readByte code m = .ok byte m') :
    ∃ fr rest, m.frames = fr :: rest ∧ code[fr.ip]? = some byte ∧
      m' = {m with frames := {fr with ip := fr.ip+1} :: rest} := by
  cases hframes : m.frames with
  | nil =>
    have hfail : readByte code m = .error .noFrame m := by
      simp only [readByte, frame, bind, EStateM.bind, get, getThe, MonadStateOf.get, EStateM.get,
        hframes]
      rfl
    rw [hfail] at h
    cases h
  | cons fr rest =>
    cases hbyte : code[fr.ip]? with
    | none =>
      have hfail : readByte code m = .error .truncated m := by
        simp only [readByte, frame, bind, EStateM.bind, get, getThe, MonadStateOf.get, EStateM.get,
          hframes, pure, EStateM.pure, hbyte]
        rfl
      rw [hfail] at h
      cases h
    | some b =>
      have hread : readByte code m = _ := readByte_eq hframes hbyte
      rw [hread] at h
      cases h
      exact ⟨fr, rest, rfl, hbyte, rfl⟩

/-- An instruction that does not add to the very cell of its operand. -/
theorem execute_careful (p : Program) (id : Nat) (f : Function) (op : Opcode)
    (hm : m.Counted z X S)
    (hother : ∀ fr rest slot, op = .compound .frame .add → m.frames = fr :: rest →
      f.chunk.code[fr.ip]? = some slot → fr.base+slot.toNat+2 = m.stack.size →
      ∀ w, m.stack.back? = some w → ¬ m.heap.isText w) :
    Careful (· = m) (execute p id f op) fun _ _ => True := by
  have hquiet (x : Exec Unit) [Offheap x] : Careful (· = m) x fun _ _ => True := by
    rintro m rfl
    exact (inferInstance : Offheap x).careful m trivial
  have hplain {x : Exec Unit} (hx : Careful (Counted z X S) x fun _ => Counted z X S) :
      Careful (· = m) x fun _ _ => True :=
    (Careful.start hm hx).mono (fun _ h => h) fun _ _ _ => trivial
  unfold execute
  cases op with
  | newline => exact hquiet _
  | pop => exact hplain pop_careful
  | constant =>
    refine onward_careful hm fun index m' hm' => Careful.find (constant_finds id index) fun v hv => ?_
    exact Careful.start ⟨hm'.loose v, live_of_held hm' (List.mem_append_right _ hv)⟩
      ((push_careful v).mono (fun _ h => h) fun _ _ _ => trivial)
  | literal value =>
    refine hplain ((push_careful _).mono (fun _ h => ⟨h.loose _, live_of_plain ?_⟩) fun _ _ h => h)
    cases value <;> exact fun _ h => by cases h
  | operator op =>
    exact Careful.find (peek_finds 1) fun v hv => Careful.find (peek_finds 0) fun w hw =>
      operator_careful op hm (live_of_stack hm hv) (live_of_stack hm hw)
  | test t =>
    refine Careful.find (peek_finds 1) fun v hv => Careful.find (peek_finds 0) fun w hw =>
      Careful.find (compare_finds t (live_of_stack hm hv) (live_of_stack hm hw)) fun u hu => ?_
    exact hplain (Careful.bind pop_careful fun _ => Careful.bind pop_careful fun _ =>
      (push_careful u).mono (fun _ h => ⟨h.loose u, live_of_plain hu⟩) fun _ _ h => h)
  | negate =>
    refine Careful.find (peek_finds 0) fun v _ => ?_
    split
    · exact hplain (replaceTop_careful fun _ h => by cases h)
    · exact Careful.look fun _ _ => Careful.throw rfl
  | complement =>
    refine Careful.find (peek_finds 0) fun v _ => ?_
    split
    · exact hplain (replaceTop_careful fun _ h => by cases h)
    · exact Careful.look fun _ _ => Careful.throw rfl
  | not =>
    exact Careful.find (peek_finds 0) fun v hv =>
      Careful.find (ask_finds (Heap.isTruthy_of_live (live_of_stack hm hv))) fun b _ =>
        hplain (replaceTop_careful fun _ h => by cases h)
  | define =>
    refine onward_careful hm fun name m' hm' => Careful.find (peek_finds 0) fun v hv => ?_
    have hdefine := Careful.start ⟨hm'.loose v, live_of_stack hm' hv⟩ (defineGlobal_careful name v)
    exact Careful.bind hdefine fun _ => pop_careful.mono (fun _ h => h) fun _ _ _ => trivial
  | get scope =>
    cases scope with
    | global =>
      refine onward_careful hm fun name m' hm' => Careful.find (global_finds name) fun v hv => ?_
      exact Careful.start ⟨hm'.loose v, live_of_get? hm' hv⟩
        ((push_careful v).mono (fun _ h => h) fun _ _ _ => trivial)
    | frame =>
      refine onward_careful hm fun slot m' hm' => Careful.find (loadLocal_finds slot) fun v hv => ?_
      obtain ⟨index, _, hv⟩ := hv
      exact Careful.start ⟨hm'.loose v, live_of_cell hm' hv⟩
        ((push_careful v).mono (fun _ h => h) fun _ _ _ => trivial)
  | set scope =>
    cases scope with
    | global =>
      refine onward_careful hm fun name m' hm' => Careful.find (assignable_finds name) fun _ _ =>
        Careful.find (peek_finds 0) fun v hv => ?_
      exact Careful.start ⟨hm'.loose v, live_of_stack hm' hv⟩
        ((storeGlobal_careful name v).mono (fun _ h => h) fun _ _ _ => trivial)
    | frame =>
      refine onward_careful hm fun slot m' hm' => Careful.find (peek_finds 0) fun v hv => ?_
      exact Careful.start ⟨hm'.loose v, live_of_stack hm' hv⟩
        ((storeLocal_careful slot v).mono (fun _ h => h) fun _ _ _ => trivial)
  | count scope up =>
    have hstored {m' : Machine} (hm' : m'.Counted z X S) {v : Value} (hv : ∀ r, v ≠ .object r)
        {store : Exec Unit} (hstore : Careful (fun m => m.Counted z X (Loose S v) ∧ Live v m) store
          fun _ => Counted z X S) : Careful (· = m') (store >>= fun _ => push v) fun _ _ => True :=
      (Careful.start ⟨hm'.loose v, live_of_plain hv⟩ (Careful.bind hstore fun _ =>
        (push_careful v).mono (fun _ h => ⟨h.loose v, live_of_plain hv⟩) fun _ _ h => h)).mono
          (fun _ h => h) fun _ _ _ => trivial
    cases scope with
    | global =>
      exact onward_careful hm fun name m' hm' => Careful.find (assignable_finds name) fun old _ =>
        Careful.find (counted_finds up old) fun v hv => hstored hm' hv (storeGlobal_careful name v)
    | frame =>
      exact onward_careful hm fun slot m' hm' => Careful.find (loadLocal_finds slot) fun old _ =>
        Careful.find (counted_finds up old) fun v hv => hstored hm' hv (storeLocal_careful slot v)
  | compound scope op =>
    cases scope with
    | global =>
      exact onward_careful hm fun name m' hm' => Careful.find (assignable_finds name) fun old hold =>
        Careful.find (peek_finds 0) fun v hv =>
          compoundGlobal_careful op name hm' (live_of_get? hm' hold) (live_of_stack hm' hv)
    | frame =>
      refine Careful.chain (Careful.start hm Careful.counts) fun slot m' hread hm' =>
        Careful.find (loadLocal_finds slot) fun old hold => Careful.find (peek_finds 0) fun v hv => ?_
      obtain ⟨index, hcell, hold⟩ := hold
      refine compoundFrame_careful op slot hm' hcell (live_of_cell hm' hold) (live_of_stack hm' hv) ?_
      rintro htop ⟨rfl, htext⟩
      obtain ⟨fr, rest, hframes, hslot, rfl⟩ := readByte_changes hread
      obtain ⟨_, _, hframes', rfl, _⟩ := hcell
      cases hframes'
      refine hother fr rest slot rfl hframes hslot htop old ?_ htext
      rw [Array.back?_eq_getElem?, ← hold]
      congr 1
      exact Nat.sub_eq_of_eq_add htop.symm
  | jump | loop => exact hquiet _
  | jumpIf truth =>
    refine onward_careful hm fun distance m' hm' => Careful.find (peek_finds 0) fun v hv =>
      Careful.find (ask_finds (Heap.isTruthy_of_live (live_of_stack hm' hv))) fun b _ => ?_
    split
    · rintro m rfl
      exact (inferInstance : Offheap (jumpBy distance)).careful m trivial
    · exact Careful.pure fun _ _ => trivial
  | repeat_ =>
    refine Careful.find (peek_finds 0) fun v _ => ?_
    split
    · split
      · exact Careful.look fun _ _ => Careful.throw rfl
      · split
        · exact Careful.throw rfl
        · exact Careful.pure fun _ _ => trivial
    · exact Careful.look fun _ _ => Careful.throw rfl
  | endRepeat => exact Careful.start hm countDown_careful
  | defineRunnable =>
    exact onward_careful hm fun index m' hm' => onward_careful hm' fun _ m'' hm'' =>
      Careful.start hm'' (defineRunnable_careful id index)
  | call => exact onward_careful hm fun name m' hm' => Careful.start hm' (call_careful p name)
  | callNative =>
    exact onward_careful hm fun name m' hm' => onward_careful hm' fun arguments m'' hm'' =>
      Careful.start hm'' (callNative_careful name _)
  | ret => exact Careful.start hm ret_careful

end Exec
end RatScript
