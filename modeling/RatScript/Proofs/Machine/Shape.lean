import RatScript.Proofs.Machine.Execution

/-!
What the parts of instructions do to the shape of a machine: the height of its stack and its active
calls. A part that finds the values and frames it needs succeeds with the shape it should leave, or
fails for a reason other than the shape.
-/

namespace RatScript

open Stateful

/-- Faults of programs that are not well formed. -/
def Fault.isStructural : Fault → Bool
  | unrecognizedOpcode _ | stackUnderflow | noFrame | missingFunction _ | missingConstant _
  | pastEnd _ | truncated | constantOutOfRange _ | notIdentifier _ | localOutOfRange _
  | loopBeforeStart | defineOperand => true
  | _ => false

namespace Machine

/-- A value that cannot be called as the script. -/
def Setting.Free (z : Setting) (v : Value) : Prop :=
  ∀ r name, v = .object r → ¬ z.typed r (.runnable 0 name)

/-- Height of the stack, active calls and constants. Values in reach are free. -/
structure Shape (z : Setting) (pools : Array (Array Value)) (n : Nat) (frames : List Frame)
    (m : Machine) : Prop where
  size : m.stack.size = n
  frames : m.frames = frames
  pools : m.pools = pools
  stack : ∀ v ∈ m.stack.toList, z.Free v
  globals : ∀ v ∈ m.globals.bindings.map Prod.snd, z.Free v

end Machine

namespace Exec

open Machine

variable {α β : Type} {z : Setting} {pools : Array (Array Value)} {n : Nat} {fs rest : List Frame}
  {m : Machine} {v : Value} {P : Machine → Prop} {Q : α → Machine → Prop} {R : β → Machine → Prop}

/-- Succeeds as described, or fails for a reason that is not structural. -/
def Does (P : Machine → Prop) (x : Exec α) (Q : α → Machine → Prop) : Prop :=
  Yields P x Q fun e _ => e.isStructural = false

namespace Does

theorem bind {x : Exec α} {f : α → Exec β} (hx : Does P x Q) (hf : ∀ a, Does (Q a) (f a) R) :
    Does P (x >>= f) R :=
  Yields.bind hx hf

/-- As `bind`, for a first part whose result is known to have a property. -/
theorem bind_fact {φ : α → Prop} {x : Exec α} {f : α → Exec β}
    (hx : Does P x fun a m => φ a ∧ Q a m) (hf : ∀ a, φ a → Does (Q a) (f a) R) :
    Does P (x >>= f) R :=
  Yields.bind hx fun a m hm => hf a hm.1 m hm.2

theorem pure {a : α} (h : ∀ m, P m → Q a m) : Does P (pure a) Q := Yields.pure h

theorem throw {e : Fault} (h : e.isStructural = false) : Does P (throw e : Exec α) Q :=
  Yields.throw fun _ _ => h

theorem modify {f : Machine → Machine} {Q : PUnit → Machine → Prop} (h : ∀ m, P m → Q ⟨⟩ (f m)) :
    Does P (modify f) Q := Yields.modify h

theorem get_bind {f : Machine → Exec α} (h : ∀ m, P m → Does P (f m) Q) :
    Does P (get >>= f) Q := fun m hm => h m hm m hm

theorem read {x : Exec α} {f : α → Exec β} {a : α} (hx : x m = .ok a m)
    (hf : Does (· = m) (f a) R) : Does (· = m) (x >>= f) R := Yields.read hx hf

theorem start {x : Exec α} (hm : P m) (hx : Does P x Q) : Does (· = m) x Q := Yields.start hm hx

theorem mono {P' : Machine → Prop} {Q' : α → Machine → Prop} {x : Exec α} (hx : Does P x Q)
    (hp : ∀ m, P' m → P m) (hq : ∀ a m, Q a m → Q' a m) : Does P' x Q' :=
  Yields.mono hx hp hq fun _ _ h => h

end Does

theorem shape_aside : Aside (Shape z pools n fs) :=
  fun _ _ h => ⟨h.size, h.frames, h.pools, h.stack, h.globals⟩

theorem onHeap_does (hP : Aside P) (x : HeapM α) : Does P (onHeap x) fun _ => P := by
  intro m hm
  cases hx : x m.heap with
  | ok a h =>
    rw [onHeap_ok hx]
    exact hP m h hm
  | error e h =>
    rw [onHeap_error hx]
    rfl

theorem retain_does (hP : Aside P) (v : Value) : Does P (retain v) fun _ => P := onHeap_does hP _

theorem release_does (hP : Aside P) (v : Value) : Does P (release v) fun _ => P := onHeap_does hP _

/-! Parts that only read. -/

theorem ask_does (x : Heap → Except HeapFault α) : Does P (ask x) fun _ => P := by
  apply Does.get_bind
  intro m hm
  split
  · exact Does.pure fun _ h => h
  · exact Does.throw rfl

theorem describe_does (v : Value) : Does P (describe v) fun _ => P :=
  Does.get_bind fun _ _ => Does.pure fun _ h => h

theorem text?_does (v : Value) : Does P (text? v) fun _ => P := by
  refine Does.bind (ask_does _) fun o => ?_
  split <;> exact Does.pure fun _ h => h

theorem global_does (name : String) :
    Does (Shape z pools n fs) (global name) fun v m => z.Free v ∧ Shape z pools n fs m := by
  apply Does.get_bind
  intro m hm
  split
  · next v hv =>
    have hfree : z.Free v := by
      apply hm.globals
      obtain ⟨l, _, hl, _⟩ := List.lookup_eq_some_iff.mp hv
      rw [hl]
      simp
    exact Does.pure fun _ h => ⟨hfree, h⟩
  · exact Does.throw rfl

theorem assignable_does (name : String) :
    Does (Shape z pools n fs) (assignable name) fun v m => z.Free v ∧ Shape z pools n fs m := by
  refine Does.bind_fact (global_does name) fun v hv => ?_
  apply Does.get_bind
  intro m hm
  split
  · exact Does.throw rfl
  · exact Does.pure fun _ h => ⟨hv, h⟩

theorem peek_does {distance : Nat} (hd : distance < n) :
    Does (Shape z pools n fs) (peek distance) fun v m => z.Free v ∧ Shape z pools n fs m := by
  apply Does.get_bind
  intro m hm
  have hlt : distance < m.stack.size := hm.size ▸ hd
  rw [if_pos hlt]
  have hv : m.stack[m.stack.size-1-distance]? = some m.stack[m.stack.size-1-distance] := by simp
  rw [hv]
  exact Does.pure fun _ h => ⟨hm.stack _ (by simp), h⟩

/-! Parts that move values. -/

theorem push_does (hv : z.Free v) :
    Does (Shape z pools n fs) (push v) fun _ => Shape z pools (n+1) fs := by
  apply Does.get_bind
  intro m _
  split
  · refine Does.bind (retain_does shape_aside v) fun _ => Does.modify ?_
    intro m hm
    refine ⟨by simp [hm.size], hm.frames, hm.pools, ?_, hm.globals⟩
    intro w hw
    rw [Array.toList_push] at hw
    rcases List.mem_append.mp hw with hw | hw
    · exact hm.stack w hw
    · rw [List.mem_singleton.mp hw]
      exact hv
  · exact Does.throw rfl

theorem pop_does : Does (Shape z pools (n+1) fs) pop fun _ => Shape z pools n fs := by
  apply Does.get_bind
  intro m hm
  have hsize := hm.size
  cases hv : m.stack.back? with
  | none => simp [Array.back?_eq_none_iff.mp hv] at hsize
  | some v =>
    refine Does.bind (Does.modify ?_) fun _ => release_does shape_aside v
    intro m hm
    refine ⟨by simp [hm.size], hm.frames, hm.pools, ?_, hm.globals⟩
    intro w hw
    apply hm.stack w
    rw [Array.toList_pop] at hw
    exact List.dropLast_subset _ hw

theorem replaceTop_does (hv : z.Free v) :
    Does (Shape z pools (n+1) fs) (replaceTop v) fun _ => Shape z pools (n+1) fs :=
  Does.bind pop_does fun _ => push_does hv

theorem popTo_does {base count : Nat} (hbase : base ≤ n) (hn : n ≤ base+count) :
    Does (Shape z pools n fs) (popTo base count) fun _ => Shape z pools base fs := by
  induction count generalizing n with
  | zero =>
    have heq : n = base := by omega
    subst n
    exact Does.pure fun _ h => h
  | succ count ih =>
    apply Does.get_bind
    intro m hm
    split
    · next hlt =>
      rw [hm.size] at hlt
      obtain ⟨k, rfl⟩ : ∃ k, n = k+1 := ⟨n-1, by omega⟩
      exact Does.bind pop_does fun _ => ih (by omega) (by omega)
    · next hge =>
      have heq : n = base := by
        rw [hm.size] at hge
        omega
      subst n
      exact Does.pure fun _ h => h

theorem collapse_does {base : Nat} (hbase : base ≤ n) (hv : z.Free v) :
    Does (Shape z pools n fs) (collapse base v) fun _ => Shape z pools (base+1) fs := by
  refine Does.bind (retain_does shape_aside v) fun _ => ?_
  apply Does.get_bind
  intro m hm
  refine Does.bind (popTo_does hbase (by rw [hm.size]; omega)) fun _ =>
    Does.bind (push_does hv) fun _ => release_does shape_aside v

/-! Variables. -/

theorem defineGlobal_does (name : String) (hv : z.Free v) :
    Does (Shape z pools n fs) (defineGlobal name v) fun _ => Shape z pools n fs := by
  apply Does.get_bind
  intro m _
  split
  · apply Does.throw
    split <;> rfl
  · refine Does.bind (retain_does shape_aside v) fun _ => Does.modify ?_
    intro m hm
    refine ⟨hm.size, hm.frames, hm.pools, hm.stack, ?_⟩
    intro w hw
    rcases List.mem_cons.mp hw with rfl | hw
    · exact hv
    · exact hm.globals w hw

theorem mem_replace {name : String} {w : Value} {bindings : List (String × Value)}
    (hw : w ∈ (Globals.replace name v bindings).map Prod.snd) :
    w = v ∨ w ∈ bindings.map Prod.snd := by
  induction bindings with
  | nil => simp [Globals.replace] at hw
  | cons b rest ih =>
    unfold Globals.replace at hw
    split at hw
    · rcases List.mem_cons.mp hw with hw | hw
      · exact .inl hw
      · exact .inr (List.mem_cons_of_mem _ hw)
    · rcases List.mem_cons.mp hw with hw | hw
      · exact .inr (hw ▸ List.mem_cons_self ..)
      · exact (ih hw).imp_right (List.mem_cons_of_mem _)

theorem storeGlobal_does (name : String) (hv : z.Free v) :
    Does (Shape z pools n fs) (storeGlobal name v) fun _ => Shape z pools n fs := by
  refine Does.bind (retain_does shape_aside v) fun _ => ?_
  apply Does.get_bind
  intro m _
  split
  · next old _ =>
    refine Does.bind (Does.modify ?_) fun _ => release_does shape_aside old
    intro m hm
    refine ⟨hm.size, hm.frames, hm.pools, hm.stack, ?_⟩
    intro w hw
    rcases mem_replace hw with rfl | hw
    · exact hv
    · exact hm.globals w hw
  · apply Does.modify
    intro m hm
    refine ⟨hm.size, hm.frames, hm.pools, hm.stack, ?_⟩
    intro w hw
    rcases List.mem_cons.mp hw with rfl | hw
    · exact hv
    · exact hm.globals w hw

/-- The innermost call runs a function from an offset on, over a cell of the stack. -/
theorem shape_hasCell {id ip base : Nat} {slot : UInt8} (hslot : base+slot.toNat+1 < n)
    (hm : m.Shape z pools n (⟨id, ip, base⟩ :: rest)) : HasCell slot (base+slot.toNat+1) m :=
  ⟨⟨id, ip, base⟩, rest, hm.frames, rfl, by rw [hm.size]; exact hslot⟩

theorem loadLocal_does {id ip base : Nat} {slot : UInt8} (hslot : base+slot.toNat+1 < n) :
    Does (Shape z pools n (⟨id, ip, base⟩ :: rest)) (loadLocal slot)
      fun v m => z.Free v ∧ Shape z pools n (⟨id, ip, base⟩ :: rest) m := by
  intro m hm
  obtain ⟨v, hv, hload⟩ := loadLocal_ok (shape_hasCell hslot hm)
  rw [hload]
  refine ⟨hm.stack v ?_, hm⟩
  exact Array.mem_toList_iff.mpr (Array.mem_of_getElem? hv)

theorem storeLocal_does {id ip base : Nat} {slot : UInt8} (hslot : base+slot.toNat+1 < n)
    (hv : z.Free v) :
    Does (Shape z pools n (⟨id, ip, base⟩ :: rest)) (storeLocal slot v)
      fun _ => Shape z pools n (⟨id, ip, base⟩ :: rest) := by
  have hstore (index : Nat) (old : Value) :
      Does (Shape z pools n (⟨id, ip, base⟩ :: rest)) (do
        retain v
        modify fun m => {m with stack := m.stack.setIfInBounds index v}
        release old) fun _ => Shape z pools n (⟨id, ip, base⟩ :: rest) := by
    refine Does.bind (retain_does shape_aside v) fun _ => Does.bind (Does.modify ?_) fun _ =>
      release_does shape_aside old
    intro m hm
    refine ⟨by simp [hm.size], hm.frames, hm.pools, ?_, hm.globals⟩
    intro w hw
    rw [Array.toList_setIfInBounds] at hw
    rcases List.mem_or_eq_of_mem_set hw with hw | rfl
    · exact hm.stack w hw
    · exact hv
  intro m hm
  have hcell := shape_hasCell hslot hm
  obtain ⟨old, _, hload⟩ := loadLocal_ok hcell
  exact Does.read (cell_ok hcell) (Does.read hload (Does.start hm (hstore _ old))) m rfl

/-! Code and constants. -/

section
variable {id ip base : Nat}

theorem frame_does :
    Does (Shape z pools n (⟨id, ip, base⟩ :: rest)) frame
      fun f m => f = ⟨id, ip, base⟩ ∧ Shape z pools n (⟨id, ip, base⟩ :: rest) m := by
  apply Does.get_bind
  intro m hm
  rw [hm.frames]
  exact Does.pure fun _ h => ⟨rfl, h⟩

theorem setIp_does (target : Nat) :
    Does (Shape z pools n (⟨id, ip, base⟩ :: rest)) (setIp target)
      fun _ => Shape z pools n (⟨id, target, base⟩ :: rest) := by
  apply Does.modify
  intro m hm
  simp only [hm.frames]
  exact ⟨hm.size, rfl, hm.pools, hm.stack, hm.globals⟩

theorem readByte_does {code : Array UInt8} {byte : UInt8} (hbyte : code[ip]? = some byte) :
    Does (Shape z pools n (⟨id, ip, base⟩ :: rest)) (readByte code)
      fun a m => a = byte ∧ Shape z pools n (⟨id, ip+1, base⟩ :: rest) m := by
  refine Does.bind_fact frame_does fun f hf => ?_
  subst hf
  simp only [hbyte]
  exact Does.bind (setIp_does (ip+1)) fun _ => Does.pure fun _ h => ⟨rfl, h⟩

theorem readWord_does {code : Array UInt8} {word : UInt16}
    (hword : Word.read? code ip = some word) :
    Does (Shape z pools n (⟨id, ip, base⟩ :: rest)) (readWord code)
      fun a m => a = word ∧ Shape z pools n (⟨id, ip+2, base⟩ :: rest) m := by
  simp only [Word.read?, Option.bind_eq_bind, Option.bind_eq_some_iff, Option.some.injEq] at hword
  obtain ⟨high, hhigh, low, hlow, hword⟩ := hword
  refine Does.bind_fact (readByte_does hhigh) fun a ha => Does.bind_fact (readByte_does hlow)
    fun b hb => Does.pure fun _ h => ⟨?_, h⟩
  rw [ha, hb, hword]

theorem identifier_does {f : Function} {index : UInt8} {name : String}
    (hbyte : f.chunk.code[ip]? = some index) (hname : f.identifier? index = some name) :
    Does (Shape z pools n (⟨id, ip, base⟩ :: rest)) (identifier f)
      fun a m => a = name ∧ Shape z pools n (⟨id, ip+1, base⟩ :: rest) m := by
  refine Does.bind_fact (readByte_does hbyte) fun a ha => ?_
  subst ha
  simp only [hname]
  exact Does.pure fun _ h => ⟨rfl, h⟩

theorem jumpBy_does (distance : UInt16) :
    Does (Shape z pools n (⟨id, ip, base⟩ :: rest)) (jumpBy distance)
      fun _ => Shape z pools n (⟨id, ip+distance.toNat, base⟩ :: rest) := by
  refine Does.bind_fact frame_does fun f hf => ?_
  subst hf
  exact setIp_does _

theorem loopBy_does {distance : UInt16} (hd : distance.toNat ≤ ip) :
    Does (Shape z pools n (⟨id, ip, base⟩ :: rest)) (loopBy distance)
      fun _ => Shape z pools n (⟨id, ip-distance.toNat, base⟩ :: rest) := by
  refine Does.bind_fact frame_does fun f hf => ?_
  subst hf
  rw [if_pos hd]
  exact setIp_does _

end

theorem constant_does {function : Nat} {index : UInt8}
    (hv : (pools[function]?.bind (·[index.toNat]?)) = some v) :
    Does (Shape z pools n fs) (constant function index)
      fun a m => a = v ∧ Shape z pools n fs m := by
  apply Does.get_bind
  intro m hm
  rw [hm.pools]
  simp only [hv]
  exact Does.pure fun _ h => ⟨rfl, h⟩

/-! The world outside. -/

theorem shape_world (hm : m.Shape z pools n fs) (world : World) :
    ({m with world := world} : Machine).Shape z pools n fs :=
  ⟨hm.size, hm.frames, hm.pools, hm.stack, hm.globals⟩

theorem writeLine_does (text : String) :
    Does (Shape z pools n fs) (writeLine text) fun _ => Shape z pools n fs := by
  refine Does.bind (Q := fun _ => Shape z pools n fs) (fun m hm => shape_world hm _) fun ok => ?_
  cases ok
  · exact Does.throw rfl
  · exact Does.pure fun _ h => h

theorem readLine_does : Does (Shape z pools n fs) readLine fun _ => Shape z pools n fs := by
  refine Does.bind (Q := fun _ => Shape z pools n fs) (fun m hm => shape_world hm _) fun line => ?_
  split
  · exact Does.pure fun _ h => h
  · exact Does.throw rfl

theorem setFiles_does (files : Files) :
    Does (Shape z pools n fs) (setFiles files) fun _ => Shape z pools n fs :=
  Does.modify fun _ hm => shape_world hm _

end Exec
end RatScript
