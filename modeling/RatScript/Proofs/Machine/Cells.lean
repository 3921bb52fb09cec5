import RatScript.Proofs.Machine.Turn

/-!
Cells of the stack that instructions leave alone. An instruction that finds its operands over some
cells does not touch these, be it by what it takes off the stack or by the slots it names.
-/

namespace RatScript

open Stateful

/-- Operations that write to a slot. -/
def Opcode.storesSlot : Opcode → Bool
  | set .frame | count .frame _ | compound .frame _ => true
  | _ => false

namespace Machine

/-- The stack and the bases of the active calls are the same. -/
def SameCells (m m' : Machine) : Prop :=
  m'.stack = m.stack ∧ m'.frames.map Frame.base = m.frames.map Frame.base

instance : Std.Refl SameCells := ⟨fun _ => ⟨rfl, rfl⟩⟩

instance : Trans SameCells SameCells SameCells :=
  ⟨fun h k => ⟨k.1.trans h.1, k.2.trans h.2⟩⟩

/-- The stack begins with some cells and has at least so many more; the innermost call is at a base
of some kind. -/
structure Over (on : Nat → Prop) (cells : List Value) (count : Nat) (m : Machine) : Prop where
  starts : cells <+: m.stack.toList
  room : cells.length+count ≤ m.stack.size
  base : ∀ fr ∈ m.frames.head?, on fr.base

/-- No slot of a call at the base is among the cells. -/
abbrev Above (cells : List Value) (base : Nat) : Prop := cells.length ≤ base+1

variable {on : Nat → Prop} {cells : List Value} {count : Nat} {m m' : Machine}

theorem Over.same (h : m.Over on cells count) (hsame : SameCells m m') : m'.Over on cells count := by
  obtain ⟨hstack, hbases⟩ := hsame
  refine ⟨hstack ▸ h.starts, hstack ▸ h.room, ?_⟩
  intro fr hfr
  cases hframes : m.frames with
  | nil =>
    rw [hframes, List.map_nil, List.map_eq_nil_iff] at hbases
    rw [hbases] at hfr
    cases hfr
  | cons old rest =>
    cases hframes' : m'.frames with
    | nil =>
      rw [hframes'] at hfr
      cases hfr
    | cons new rest' =>
      rw [hframes'] at hfr
      cases hfr
      rw [hframes, hframes', List.map_cons, List.map_cons] at hbases
      rw [(List.cons.inj hbases).1]
      exact h.base old (by simp [hframes])

theorem Over.mono (h : m.Over on cells count) {fewer : Nat} (hfewer : fewer ≤ count) :
    m.Over on cells fewer :=
  ⟨h.starts, by have := h.room; omega, h.base⟩

end Machine

namespace Exec

open Machine

variable {α β : Type} {on : Nat → Prop} {cells : List Value} {k : Nat}

/-- Goes from `P` to `Q`, unless it fails. -/
def Leaves (P : Machine → Prop) (x : Exec α) (Q : Machine → Prop) : Prop :=
  Yields P x (fun _ => Q) fun _ _ => True

theorem Leaves.bind {P Q R : Machine → Prop} {x : Exec α} {f : α → Exec β} (hx : Leaves P x Q)
    (hf : ∀ a, Leaves Q (f a) R) : Leaves P (x >>= f) R :=
  Yields.bind hx hf

theorem Leaves.fewer {x : Exec α} {P : Machine → Prop} {count : Nat}
    (hx : Leaves P x (Over on cells count)) {fewer : Nat} (hfewer : fewer ≤ count) :
    Leaves P x (Over on cells fewer) :=
  Yields.mono hx (fun _ h => h) (fun _ _ h => h.mono hfewer) fun _ _ h => h

theorem throw_leaves {P Q : Machine → Prop} (fault : Fault) :
    Leaves P (throw fault : Exec α) Q :=
  Yields.throw fun _ _ => trivial

/-- What leaves the stack alone leaves its cells alone. -/
theorem same_leaves {x : Exec α} [hx : Keeps SameCells x] :
    Leaves (Over on cells k) x (Over on cells k) := by
  intro m hm
  split
  · next a m' h => exact hm.same (hx.of_ok h)
  · trivial

theorem Leaves.past {x : Exec α} [Keeps SameCells x] {f : α → Exec β} {Q : Machine → Prop}
    (hf : ∀ a, Leaves (Over on cells k) (f a) Q) : Leaves (Over on cells k) (x >>= f) Q :=
  Leaves.bind same_leaves hf

/-! Parts of instructions that leave the stack alone. -/

instance {α : Type} (x : HeapM α) : Keeps SameCells (onHeap x) where
  keeps m := by
    cases hx : x m.heap with
    | ok a h =>
      rw [after, onHeap_ok hx]
      exact ⟨rfl, rfl⟩
    | error e h =>
      rw [after, onHeap_error hx]
      exact ⟨rfl, rfl⟩

instance (v : Value) : Keeps SameCells (retain v) := inferInstanceAs (Keeps SameCells (onHeap _))

instance (v : Value) : Keeps SameCells (release v) := inferInstanceAs (Keeps SameCells (onHeap _))

theorem sameCells_modify {f : Machine → Machine} (hstack : ∀ m, (f m).stack = m.stack)
    (hframes : ∀ m, (f m).frames = m.frames) : Keeps SameCells (modify f : Exec PUnit) :=
  Keeps.modify fun m => ⟨hstack m, by rw [hframes]⟩

instance (ip : Nat) : Keeps SameCells (setIp ip) := by
  refine Keeps.modify fun m => ?_
  split
  · next fr rest hframes => exact ⟨rfl, by rw [hframes]; rfl⟩
  · exact ⟨rfl, rfl⟩

instance (content : String) : Keeps SameCells (newText content) := by
  unfold newText
  infer_instance

instance (name : String) (v : Value) : Keeps SameCells (defineGlobal name v) := by
  apply Keeps.seq inferInstance
  intro m
  have hmodify : Keeps SameCells
      (modify fun m => {m with globals := m.globals.define name v} : Exec PUnit) :=
    sameCells_modify (fun _ => rfl) fun _ => rfl
  split <;> infer_instance

instance (name : String) (v : Value) : Keeps SameCells (storeGlobal name v) := by
  apply Keeps.seq inferInstance
  intro _
  apply Keeps.seq inferInstance
  intro m
  have hset : Keeps SameCells
      (modify fun m => {m with globals := m.globals.set name v} : Exec PUnit) :=
    sameCells_modify (fun _ => rfl) fun _ => rfl
  have hdefine : Keeps SameCells
      (modify fun m => {m with globals := m.globals.define name v} : Exec PUnit) :=
    sameCells_modify (fun _ => rfl) fun _ => rfl
  split <;> infer_instance

instance (text : String) : Keeps SameCells (writeLine text) :=
  Keeps.seq (Keeps.modifyGet fun _ => ⟨rfl, rfl⟩) fun _ => inferInstance

instance : Keeps SameCells readLine := by
  refine Keeps.seq (Keeps.modifyGet fun _ => ⟨rfl, rfl⟩) fun line => ?_
  split <;> infer_instance

instance (files : Files) : Keeps SameCells (setFiles files) :=
  sameCells_modify (fun _ => rfl) fun _ => rfl

instance (id : Nat) (index : UInt8) : Keeps SameCells (defineRunnable id index) := by
  apply Keeps.seq inferInstance
  intro v
  apply Keeps.seq inferInstance
  intro o
  split <;> infer_instance

instance (offset : Nat) : Keeps SameCells (trace offset) :=
  Keeps.seq inferInstance fun _ => Keeps.seq inferInstance fun _ =>
    Keeps.seq (Keeps.modifyGet fun _ => ⟨rfl, rfl⟩) fun _ => inferInstance

/-! Parts that change the stack over the cells. -/

theorem push_leaves (v : Value) : Leaves (Over on cells k) (push v) (Over on cells (k+1)) := by
  refine Yields.bind (Q := fun _ => Over on cells k) same_leaves fun m => ?_
  split
  · refine Leaves.past fun _ => Yields.modify fun m hm => ⟨?_, ?_, hm.base⟩
    · rw [Array.toList_push]
      exact hm.starts.trans (List.prefix_append _ _)
    · have := hm.room
      simp only [Array.size_push]
      omega
  · exact throw_leaves _

theorem pop_leaves : Leaves (Over on cells (k+1)) pop (Over on cells k) := by
  refine Yields.bind (Q := fun _ => Over on cells (k+1)) same_leaves fun m => ?_
  split
  · exact throw_leaves _
  · refine Leaves.bind (Yields.modify fun m hm => ⟨?_, ?_, hm.base⟩) fun _ => same_leaves
    · have hcount := hm.room
      rw [Array.toList_pop, List.prefix_iff_eq_take, List.dropLast_eq_take, List.take_take,
        Nat.min_eq_left (by simp; omega)]
      exact List.prefix_iff_eq_take.mp hm.starts
    · have := hm.room
      simp only [Array.size_pop]
      omega

theorem replaceTop_leaves (v : Value) :
    Leaves (Over on cells (k+1)) (replaceTop v) (Over on cells (k+1)) :=
  Leaves.bind pop_leaves fun _ => push_leaves v

theorem pushText_leaves (content : String) :
    Leaves (Over on cells k) (pushText content) (Over on cells (k+1)) := by
  refine Leaves.past fun m => ?_
  split
  · exact Leaves.past fun v => push_leaves v
  · exact throw_leaves _

theorem popTo_leaves {base : Nat} (hbase : cells.length ≤ base) (count : Nat) :
    Leaves (Over on cells 0) (popTo base count) (Over on cells 0) := by
  induction count with
  | zero => exact Yields.pure fun _ h => h
  | succ count ih =>
    refine Yields.get_bind fun m hm => ?_
    split
    · next hlt =>
      refine Leaves.bind (Yields.start (P := Over on cells 1) ?_ pop_leaves) fun _ => ih
      exact ⟨hm.starts, by omega, hm.base⟩
    · exact Yields.start hm (Yields.pure fun _ h => h)

theorem collapse_leaves {base : Nat} (hbase : cells.length ≤ base) (v : Value) :
    Leaves (Over on cells 0) (collapse base v) (Over on cells 1) :=
  Leaves.past fun _ => Leaves.past fun _ =>
    Leaves.bind (popTo_leaves hbase _) fun _ => Leaves.bind (push_leaves v) fun _ => same_leaves

theorem storeLocal_leaves (habove : ∀ base, on base → Above cells base) (slot : UInt8) (v : Value) :
    Leaves (Over on cells k) (storeLocal slot v) (Over on cells k) := by
  intro m hm
  rcases cell_cases slot m with ⟨index, hcell⟩ | ⟨fault, hfault⟩
  · obtain ⟨old, _, hload⟩ := loadLocal_ok hcell
    have hat := cell_ok hcell
    obtain ⟨fr, rest, hframes, hindex, _⟩ := hcell
    have hbase := habove _ (hm.base fr (by simp [hframes]))
    refine Yields.read hat (Yields.read hload (Yields.start hm ?_)) m rfl
    refine Leaves.past fun _ => Leaves.bind (Yields.modify fun m hm => ?_) fun _ =>
      same_leaves
    refine ⟨?_, by simpa using hm.room, hm.base⟩
    rw [Array.toList_setIfInBounds, List.prefix_iff_eq_take, List.take_set_of_le (by omega)]
    exact List.prefix_iff_eq_take.mp hm.starts
  · simp only [storeLocal, bind, EStateM.bind, hfault]

/-- A store leaves all cells alone but that of its slot. -/
theorem storeLocal_writes (base : Nat) (slot : UInt8) (v : Value) :
    Leaves (Over (· = base) cells k) (storeLocal slot v)
      (Over (· = base) (cells.set (base+slot.toNat+1) v) k) := by
  intro m hm
  rcases cell_cases slot m with ⟨index, hcell⟩ | ⟨fault, hfault⟩
  · obtain ⟨old, _, hload⟩ := loadLocal_ok hcell
    have hat := cell_ok hcell
    obtain ⟨fr, rest, hframes, hindex, _⟩ := hcell
    have hbase : fr.base = base := hm.base fr (by simp [hframes])
    refine Yields.read hat (Yields.read hload (Yields.start hm ?_)) m rfl
    refine Leaves.past fun _ => Leaves.bind (Yields.modify fun m hm => ?_) fun _ =>
      same_leaves
    refine ⟨?_, by simpa using hm.room, hm.base⟩
    rw [Array.toList_setIfInBounds, List.prefix_iff_eq_take, List.length_set, List.take_set,
      ← List.prefix_iff_eq_take.mp hm.starts, hindex, hbase]
  · simp only [storeLocal, bind, EStateM.bind, hfault]

/-! Natives. -/

theorem runNative_leaves (native : Native) :
    Leaves (Over on cells (k+(native.arity))) (runNative native) (Over on cells k) := by
  cases native with
  | input => exact Leaves.past fun _ => (pushText_leaves _).fewer (by omega)
  | print =>
    exact Leaves.past fun _ => Leaves.past fun _ =>
      Leaves.past fun _ => (replaceTop_leaves _).fewer (by omega)
  | readFile =>
    refine Leaves.past fun path => Leaves.past fun m => ?_
    split
    · exact throw_leaves _
    · exact Leaves.bind pop_leaves fun _ => (pushText_leaves _).fewer (by omega)
  | writeFile =>
    refine Leaves.past fun path => Leaves.past fun _ =>
      Leaves.past fun _ => Leaves.past fun m => ?_
    split
    · exact throw_leaves _
    · exact Leaves.past fun _ => Leaves.bind pop_leaves fun _ =>
        Leaves.bind pop_leaves fun _ => (push_leaves _).fewer (by omega)
  | emptyFile =>
    refine Leaves.past fun path => Leaves.past fun m => ?_
    split
    · exact throw_leaves _
    · exact Leaves.past fun _ => (replaceTop_leaves _).fewer (by omega)
  | toNumber | toBool =>
    exact Leaves.past fun _ => Leaves.past fun _ =>
      (replaceTop_leaves _).fewer (by omega)
  | toText | typeOf =>
    exact Leaves.past fun _ => Leaves.past fun _ =>
      Leaves.bind pop_leaves fun _ => (pushText_leaves _).fewer (by omega)

/-- A native takes the arguments that stand over its own cell. -/
theorem callNative_leaves (name : String) (arguments : Nat) :
    Leaves (Over on cells (arguments+1)) (callNative name arguments) (Over on cells 0) := by
  refine Leaves.past fun v => Leaves.past fun o => ?_
  split
  · next native =>
    split
    · exact throw_leaves _
    · next harity =>
      refine Yields.get_bind fun m hm => ?_
      have hroom := hm.room
      dsimp only
      split
      · exact throw_leaves _
      · obtain rfl : native.arity = arguments := by simpa using harity
        rw [Nat.add_comm] at hm
        refine Leaves.bind (Yields.start hm (runNative_leaves native)) fun _ =>
          Leaves.past fun top => ?_
        exact Yields.mono (collapse_leaves (by omega) top) (fun _ h => h.mono (by omega))
          (fun _ _ h => h.mono (by omega)) fun _ _ h => h
  · exact throw_leaves _

theorem countDown_leaves : Leaves (Over on cells 1) countDown (Over on cells 0) := by
  refine Leaves.past fun v => ?_
  split
  · dsimp only
    split
    · exact Leaves.bind pop_leaves fun _ => same_leaves
    · exact (replaceTop_leaves _).fewer (by omega)
  · exact throw_leaves _

/-! Instructions. -/

theorem execute_leaves (p : Program) (id : Nat) (f : Function) (op : Opcode)
    (hcall : op ≠ .call) (hret : op ≠ .ret) (hnative : op ≠ .callNative) (hend : op ≠ .endRepeat)
    (habove : op.storesSlot = true → ∀ base, on base → Above cells base) :
    Leaves (Over on cells op.effect.pops) (execute p id f op) (Over on cells 0) := by
  unfold execute
  cases op with
  | newline => exact same_leaves
  | pop => exact pop_leaves
  | constant =>
    exact Leaves.past fun _ => Leaves.past fun _ =>
      (push_leaves _).fewer (by omega)
  | literal value => exact (push_leaves _).fewer (by omega)
  | operator op =>
    exact Leaves.past fun _ => Leaves.past fun _ =>
      Leaves.past fun _ => Leaves.bind pop_leaves fun _ =>
      Leaves.bind pop_leaves fun _ => (push_leaves _).fewer (by omega)
  | test t =>
    exact Leaves.past fun _ => Leaves.past fun _ =>
      Leaves.past fun _ => Leaves.bind pop_leaves fun _ =>
      Leaves.bind pop_leaves fun _ => (push_leaves _).fewer (by omega)
  | negate =>
    refine Leaves.past fun v => ?_
    split
    · exact (replaceTop_leaves _).fewer (by omega)
    · exact Leaves.past fun _ => throw_leaves _
  | complement =>
    refine Leaves.past fun v => ?_
    split
    · exact (replaceTop_leaves _).fewer (by omega)
    · exact Leaves.past fun _ => throw_leaves _
  | not =>
    exact Leaves.past fun _ => Leaves.past fun _ =>
      (replaceTop_leaves _).fewer (by omega)
  | define =>
    exact Leaves.past fun _ => Leaves.past fun _ =>
      Leaves.past fun _ => pop_leaves
  | get scope =>
    cases scope with
    | global =>
      exact Leaves.past fun _ => Leaves.past fun _ =>
        (push_leaves _).fewer (by omega)
    | frame =>
      exact Leaves.past fun _ => Leaves.past fun _ =>
        (push_leaves _).fewer (by omega)
  | set scope =>
    cases scope with
    | global =>
      exact Leaves.past fun _ => Leaves.past fun _ =>
        Leaves.past fun _ => same_leaves.fewer (by omega)
    | frame =>
      exact Leaves.past fun _ => Leaves.past fun _ =>
        (storeLocal_leaves (habove rfl) _ _).fewer (by omega)
  | count scope up =>
    cases scope with
    | global =>
      exact Leaves.past fun _ => Leaves.past fun _ =>
        Leaves.past fun _ => Leaves.past fun _ =>
        (push_leaves _).fewer (by omega)
    | frame =>
      exact Leaves.past fun _ => Leaves.past fun _ =>
        Leaves.past fun _ => Leaves.bind (storeLocal_leaves (habove rfl) _ _) fun _ =>
        (push_leaves _).fewer (by omega)
  | compound scope op =>
    cases scope with
    | global =>
      exact Leaves.past fun _ => Leaves.past fun _ =>
        Leaves.past fun _ => Leaves.past fun _ =>
        Leaves.past fun _ => (replaceTop_leaves _).fewer (by omega)
    | frame =>
      exact Leaves.past fun _ => Leaves.past fun _ =>
        Leaves.past fun _ => Leaves.past fun _ =>
        Leaves.bind (storeLocal_leaves (habove rfl) _ _) fun _ => (replaceTop_leaves _).fewer (by omega)
  | jump | loop => exact Leaves.past fun _ => same_leaves
  | jumpIf truth =>
    exact Leaves.past fun _ => Leaves.past fun _ =>
      Leaves.past fun _ => same_leaves
  | repeat_ => exact same_leaves.fewer (by omega)
  | defineRunnable =>
    exact Leaves.past fun _ => Leaves.past fun _ => same_leaves
  | call => exact absurd rfl hcall
  | ret => exact absurd rfl hret
  | callNative => exact absurd rfl hnative
  | endRepeat => exact absurd rfl hend

/-- An operation that stores leaves all cells alone but that of the slot it reads. -/
theorem execute_writes (p : Program) {id ip base : Nat} {rest : List Frame} {f : Function}
    {op : Opcode} (hop : op.storesSlot = true) {slot : UInt8}
    (hslot : f.chunk.code[ip]? = some slot) :
    Leaves (fun m => m.frames = ⟨id, ip, base⟩ :: rest ∧ m.Over (· = base) cells op.effect.pops)
      (execute p id f op) fun m => ∃ v, m.Over (· = base) (cells.set (base+slot.toNat+1) v) 0 := by
  have hread (k : Nat) : Yields (fun m => m.frames = ⟨id, ip, base⟩ :: rest ∧ m.Over (· = base) cells k)
      (readByte f.chunk.code) (fun byte m => byte = slot ∧ m.Over (· = base) cells k)
      fun _ _ => True := by
    rintro m ⟨hframes, hm⟩
    have hcode : Keeps SameCells (readByte f.chunk.code) := inferInstance
    have hok := readByte_eq hframes hslot
    rw [hok]
    exact ⟨rfl, hm.same (hcode.of_ok hok)⟩
  cases op with
  | set scope =>
    cases scope with
    | global => cases hop
    | frame =>
      refine Yields.bind (hread _) fun _ => ?_
      rintro m ⟨rfl, hm⟩
      refine Leaves.past (fun v => ?_) m hm
      exact Yields.mono (storeLocal_writes base _ v) (fun _ h => h)
        (fun _ _ h => ⟨v, h.mono (Nat.zero_le _)⟩) fun _ _ h => h
  | count scope up =>
    cases scope with
    | global => cases hop
    | frame =>
      refine Yields.bind (hread _) fun _ => ?_
      rintro m ⟨rfl, hm⟩
      refine Leaves.past (fun _ => Leaves.past fun v => ?_) m hm
      refine Leaves.bind (storeLocal_writes base _ v) fun _ => ?_
      exact Yields.mono (push_leaves v) (fun _ h => h)
        (fun _ _ h => ⟨v, h.mono (Nat.zero_le _)⟩) fun _ _ h => h
  | compound scope op =>
    cases scope with
    | global => cases hop
    | frame =>
      refine Yields.bind (hread _) fun _ => ?_
      rintro m ⟨rfl, hm⟩
      refine Leaves.past (fun _ => Leaves.past fun _ => Leaves.past fun v => ?_) m hm
      refine Leaves.bind (storeLocal_writes base _ v) fun _ => ?_
      exact Yields.mono (replaceTop_leaves v) (fun _ h => h)
        (fun _ _ h => ⟨v, h.mono (Nat.zero_le _)⟩) fun _ _ h => h
  | _ => cases hop

end Exec
end RatScript
