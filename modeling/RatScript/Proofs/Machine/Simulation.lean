import RatScript.Proofs.Code.Verified
import RatScript.Proofs.Machine.Poised

/-!
Verified programs run as their heights say. Each instruction that verification admits at a height
finds the stack that high over its call, and leaves it at the height of one of the places that
verification goes on to.
-/

namespace RatScript

open Stateful

namespace Function

/-- What the check of a constant operand promises. -/
theorem checkConstant_eq_ok {p : Program} {f : Function} {op : Opcode} {index : UInt8}
    (h : f.checkConstant p op index = .ok ()) :
    ∃ k, f.chunk.constant? index = some k ∧
      match op with
      | .constant => ∀ id, k ≠ .runnable id
      | .defineRunnable => ∃ id callee, k = .runnable id ∧ p.function? id = some callee ∧
          callee.isScript = false
      | _ => ∃ name, k = .text name := by
  unfold checkConstant at h
  cases hk : f.chunk.constant? index with
  | none => simp [hk] at h
  | some k =>
    refine ⟨k, rfl, ?_⟩
    simp only [hk] at h
    cases op with
    | constant =>
      intro id hid
      subst k
      cases h
    | defineRunnable =>
      cases k with
      | runnable id =>
        simp only at h
        cases hid : p.function? id with
        | none => simp [hid] at h
        | some callee =>
          simp only [hid] at h
          split at h
          · cases h
          · next hs => exact ⟨id, callee, rfl, hid, by simpa using hs⟩
      | number | text => cases h
    | _ =>
      cases k with
      | text name => exact ⟨name, rfl⟩
      | number | runnable => cases h

theorem identifier?_of_text {f : Function} {index : UInt8} {name : String}
    (h : f.chunk.constant? index = some (.text name)) : f.identifier? index = some name := by
  simp [identifier?, h]

end Function

namespace Exec

open Machine

variable {p : Program} {z : Setting} {pools : Array (Array Value)} {k : Nat} {fs rest : List Frame}
  {id ip base : Nat} {f : Function}

/-- A constant that is a runnable is live, and still that runnable. -/
theorem object_does {index function : Nat} {v : Value} {n : Nat}
    (hv : (pools[id]?.bind (·[index]?)) = some v) (hmeans : z.Means v (.runnable function)) :
    Does (Poised z pools n fs) (object v)
      fun o m => (∃ name, o = some (.runnable function name)) ∧ Poised z pools n fs m := by
  obtain ⟨r, rfl, htyped⟩ := hmeans
  intro m hm
  have hheld : .object r ∈ m.held := by
    refine List.mem_append_right _ (List.mem_flatMap.mpr ?_)
    obtain ⟨pool, hpool, hr⟩ := Option.bind_eq_some_iff.mp hv
    refine ⟨pool, ?_, Array.mem_toList_iff.mpr (Array.mem_of_getElem? hr)⟩
    rw [hm.2.pools]
    exact Array.mem_toList_iff.mpr (Array.mem_of_getElem? hpool)
  obtain ⟨l, hl⟩ := hm.1.live_of_held (List.mem_append_right _ hheld)
  obtain ⟨name, hname⟩ := htyped _ (hm.1.typed r l hl)
  have hobject : m.heap.object (.object r) = .ok (some (.runnable function name)) := by
    simp [Heap.object, Heap.get, Heap.object?, hl, hname, Except.map]
  simp only [object, ask, bind, EStateM.bind, get, getThe, MonadStateOf.get, EStateM.get, hobject]
  exact ⟨⟨name, rfl⟩, hm⟩

section
variable (hz : z.Loads p pools)
include hz

/-- Instructions without an operand. -/
theorem execute_none_does {op : Opcode} (hlayout : op.layout = .none) (hret : op ≠ .ret)
    (hend : op ≠ .endRepeat) :
    Does (Poised z pools (k+op.effect.pops) fs) (execute p id f op)
      fun _ => Poised z pools (k+op.effect.pushes) fs := by
  unfold execute
  cases op with
  | newline => exact Does.pure fun _ h => h
  | pop => exact pop_does.lift
  | literal value =>
    refine (push_does ?_).lift
    cases value with
    | none => exact Setting.free_none
    | some b => exact Setting.free_bool b
  | operator op =>
    exact Does.bind_fact (peek_does (by simp [Opcode.effect])).lift_fact fun x _ =>
      Does.bind_fact (peek_does (by simp [Opcode.effect])).lift_fact fun y _ =>
        Does.bind_fact (apply_does hz op x y) fun v hv => Does.bind pop_does.lift fun _ =>
          Does.bind pop_does.lift fun _ => (push_does hv).lift
  | test t =>
    exact Does.bind_fact (peek_does (by simp [Opcode.effect])).lift_fact fun x _ =>
      Does.bind_fact (peek_does (by simp [Opcode.effect])).lift_fact fun y _ =>
        Does.bind_fact (compare_does t x y) fun v hv => Does.bind pop_does.lift fun _ =>
          Does.bind pop_does.lift fun _ => (push_does hv).lift
  | negate =>
    refine Does.bind_fact (peek_does (by simp [Opcode.effect])).lift_fact fun v _ => ?_
    split
    · exact (replaceTop_does (Setting.free_number _)).lift
    · exact Does.bind (describe_does v) fun _ => Does.throw rfl
  | complement =>
    refine Does.bind_fact (peek_does (by simp [Opcode.effect])).lift_fact fun v _ => ?_
    split
    · exact (replaceTop_does (Setting.free_number _)).lift
    · exact Does.bind (describe_does v) fun _ => Does.throw rfl
  | not =>
    exact Does.bind_fact (peek_does (by simp [Opcode.effect])).lift_fact fun v _ =>
      Does.bind (ask_does _) fun b => (replaceTop_does (Setting.free_bool _)).lift
  | repeat_ =>
    refine Does.bind_fact (peek_does (by simp [Opcode.effect])).lift_fact fun v _ => ?_
    split
    · split
      · exact Does.bind (describe_does v) fun _ => Does.throw rfl
      · split
        · exact Does.throw rfl
        · exact Does.pure fun _ h => h
    · exact Does.bind (describe_does v) fun _ => Does.throw rfl
  | ret => exact absurd rfl hret
  | endRepeat => exact absurd rfl hend
  | get scope | set scope | count scope | compound scope => cases scope <;> cases hlayout
  | constant | define | jump | jumpIf | loop | defineRunnable | call | callNative => cases hlayout

/-- Instructions that name a constant, but for the call. -/
theorem execute_constant_does {op : Opcode} {index : UInt8} (hlayout : op.layout = .constant)
    (hcall : op ≠ .call) (hf : p.function? id = some f) (hbyte : f.chunk.code[ip]? = some index)
    (hcheck : f.checkConstant p op index = .ok ()) :
    Does (Poised z pools (k+op.effect.pops) (⟨id, ip, base⟩ :: rest)) (execute p id f op)
      fun _ => Poised z pools (k+op.effect.pushes) (⟨id, ip+1, base⟩ :: rest) := by
  obtain ⟨constant, hconstant, hkind⟩ := Function.checkConstant_eq_ok hcheck
  have hname {name : String} (hk : constant = .text name) {n : Nat} :
      Does (Poised z pools n (⟨id, ip, base⟩ :: rest)) (identifier f)
        fun a m => a = name ∧ Poised z pools n (⟨id, ip+1, base⟩ :: rest) m :=
    (identifier_does hbyte (Function.identifier?_of_text (hk ▸ hconstant))).lift_fact
  unfold execute
  cases op with
  | constant =>
    obtain ⟨v, hv, hmeans⟩ := hz.constant id f index.toNat constant hf hconstant
    refine Does.bind_fact (readByte_does hbyte).lift_fact fun a ha => ?_
    subst ha
    refine Does.bind_fact (constant_does hv).lift_fact fun a ha => ?_
    subst ha
    exact (push_does (Setting.free_of_means (hkind 0) hmeans)).lift
  | define =>
    obtain ⟨name, hk⟩ := hkind
    exact Does.bind_fact (hname hk) fun _ _ =>
      Does.bind_fact (peek_does (by simp [Opcode.effect])).lift_fact fun v hv =>
        Does.bind (defineGlobal_does _ hv).lift fun _ => pop_does.lift
  | get scope =>
    cases scope with
    | global =>
      obtain ⟨name, hk⟩ := hkind
      exact Does.bind_fact (hname hk) fun _ _ =>
        Does.bind_fact (global_does _).lift_fact fun v hv => (push_does hv).lift
    | frame => cases hlayout
  | set scope =>
    cases scope with
    | global =>
      obtain ⟨name, hk⟩ := hkind
      exact Does.bind_fact (hname hk) fun _ _ =>
        Does.bind_fact (assignable_does _).lift_fact fun _ _ =>
          Does.bind_fact (peek_does (by simp [Opcode.effect])).lift_fact fun v hv =>
            (storeGlobal_does _ hv).lift
    | frame => cases hlayout
  | count scope up =>
    cases scope with
    | global =>
      obtain ⟨name, hk⟩ := hkind
      exact Does.bind_fact (hname hk) fun _ _ =>
        Does.bind_fact (assignable_does _).lift_fact fun old _ =>
          Does.bind_fact (counted_does up old) fun v hv =>
            Does.bind (storeGlobal_does _ hv).lift fun _ => (push_does hv).lift
    | frame => cases hlayout
  | compound scope op =>
    cases scope with
    | global =>
      obtain ⟨name, hk⟩ := hkind
      exact Does.bind_fact (hname hk) fun _ _ =>
        Does.bind_fact (assignable_does _).lift_fact fun old _ =>
          Does.bind_fact (peek_does (by simp [Opcode.effect])).lift_fact fun y _ =>
            Does.bind_fact (apply_does hz op old y) fun v hv =>
              Does.bind (storeGlobal_does _ hv).lift fun _ => (replaceTop_does hv).lift
    | frame => cases hlayout
  | call => exact absurd rfl hcall
  | newline | ret | literal | pop | operator | negate | complement | not | test | jump | jumpIf
  | loop | repeat_ | endRepeat | defineRunnable | callNative => cases hlayout

/-- Instructions that name a slot. -/
theorem execute_slot_does {op : Opcode} {slot : UInt8} (hlayout : op.layout = .slot)
    (hbyte : f.chunk.code[ip]? = some slot) (hslot : base+slot.toNat+1 < k+op.effect.pops) :
    Does (Poised z pools (k+op.effect.pops) (⟨id, ip, base⟩ :: rest)) (execute p id f op)
      fun _ => Poised z pools (k+op.effect.pushes) (⟨id, ip+1, base⟩ :: rest) := by
  have hread {n : Nat} : Does (Poised z pools n (⟨id, ip, base⟩ :: rest)) (readByte f.chunk.code)
      fun a m => a = slot ∧ Poised z pools n (⟨id, ip+1, base⟩ :: rest) m :=
    (readByte_does hbyte).lift_fact
  unfold execute
  cases op with
  | get scope =>
    cases scope with
    | frame =>
      refine Does.bind_fact hread fun a ha => ?_
      subst ha
      exact Does.bind_fact (loadLocal_does hslot).lift_fact fun v hv => (push_does hv).lift
    | global => cases hlayout
  | set scope =>
    cases scope with
    | frame =>
      refine Does.bind_fact hread fun a ha => ?_
      subst ha
      exact Does.bind_fact (peek_does (by simp [Opcode.effect])).lift_fact fun v hv =>
        (storeLocal_does hslot hv).lift
    | global => cases hlayout
  | count scope up =>
    cases scope with
    | frame =>
      refine Does.bind_fact hread fun a ha => ?_
      subst ha
      exact Does.bind_fact (loadLocal_does hslot).lift_fact fun old _ =>
        Does.bind_fact (counted_does up old) fun v hv =>
          Does.bind (storeLocal_does hslot hv).lift fun _ => (push_does hv).lift
    | global => cases hlayout
  | compound scope op =>
    cases scope with
    | frame =>
      refine Does.bind_fact hread fun a ha => ?_
      subst ha
      exact Does.bind_fact (loadLocal_does hslot).lift_fact fun old _ =>
        Does.bind_fact (peek_does (by simp [Opcode.effect])).lift_fact fun y _ =>
          Does.bind_fact (apply_does hz op old y) fun v hv =>
            Does.bind (storeLocal_does hslot hv).lift fun _ => (replaceTop_does hv).lift
    | global => cases hlayout
  | newline | ret | constant | literal | pop | operator | negate | complement | not | test
  | define | jump | jumpIf | loop | repeat_ | endRepeat | defineRunnable | call
  | callNative => cases hlayout

theorem execute_defineRunnable_does {index : UInt8} {lines : UInt16} {n : Nat}
    (hf : p.function? id = some f) (hbyte : f.chunk.code[ip]? = some index)
    (hlines : Word.read? f.chunk.code (ip+1) = some lines)
    (hcheck : f.checkConstant p .defineRunnable index = .ok ()) (hscript : ∀ callee,
      p.function? 0 = some callee → callee.isScript = true) :
    Does (Poised z pools n (⟨id, ip, base⟩ :: rest)) (execute p id f .defineRunnable)
      fun _ => Poised z pools n (⟨id, ip+3, base⟩ :: rest) := by
  obtain ⟨constant, hconstant, function, callee, hk, hcallee, hnot⟩ :=
    Function.checkConstant_eq_ok hcheck
  subst hk
  obtain ⟨v, hv, hmeans⟩ := hz.constant id f index.toNat _ hf hconstant
  have hfree : z.Free v := by
    apply Setting.free_of_means _ hmeans
    intro heq
    cases heq
    rw [hscript callee hcallee] at hnot
    cases hnot
  refine Does.bind_fact (readByte_does hbyte).lift_fact fun a ha => ?_
  subst ha
  refine Does.bind_fact (readWord_does hlines).lift_fact fun _ _ => ?_
  refine Does.bind_fact (constant_does hv).lift_fact fun a ha => ?_
  subst ha
  refine Does.bind_fact (object_does hv hmeans) fun o ho => ?_
  obtain ⟨name, rfl⟩ := ho
  exact (defineGlobal_does name hfree).lift

theorem execute_callNative_does {index arguments : UInt8} (hbyte : f.chunk.code[ip]? = some index)
    (hargs : f.chunk.code[ip+1]? = some arguments)
    (hcheck : f.checkConstant p .callNative index = .ok ()) :
    Does (Poised z pools (k+(arguments.toNat+1)) (⟨id, ip, base⟩ :: rest))
      (execute p id f .callNative) fun _ => Poised z pools (k+1) (⟨id, ip+2, base⟩ :: rest) := by
  obtain ⟨constant, hconstant, name, hk⟩ := Function.checkConstant_eq_ok hcheck
  subst hk
  refine Does.bind_fact (identifier_does hbyte (Function.identifier?_of_text hconstant)).lift_fact
    fun _ _ => Does.bind_fact (readByte_does hargs).lift_fact fun a ha => ?_
  subst ha
  exact callNative_does hz _ rfl

end

theorem execute_jump_does {distance : UInt16} {n : Nat}
    (hword : Word.read? f.chunk.code ip = some distance) :
    Does (Poised z pools n (⟨id, ip, base⟩ :: rest)) (execute p id f .jump)
      fun _ => Poised z pools n (⟨id, ip+2+distance.toNat, base⟩ :: rest) := by
  refine Does.bind_fact (readWord_does hword).lift_fact fun a ha => ?_
  subst ha
  exact (jumpBy_does _).lift

/-- A conditional jump looks at the top of the stack and leaves it. -/
theorem execute_jumpIf_does {distance : UInt16} {truth : Bool} {n : Nat}
    (hword : Word.read? f.chunk.code ip = some distance) (hn : 0 < n) :
    Does (Poised z pools n (⟨id, ip, base⟩ :: rest)) (execute p id f (.jumpIf truth))
      fun _ m => m.Poised z pools n (⟨id, ip+2, base⟩ :: rest) ∨
        m.Poised z pools n (⟨id, ip+2+distance.toNat, base⟩ :: rest) := by
  refine Does.bind_fact (readWord_does hword).lift_fact fun a ha => ?_
  subst ha
  refine Does.bind_fact (peek_does hn).lift_fact fun v _ => Does.bind (ask_does _) fun b => ?_
  split
  · exact (jumpBy_does _).lift.mono (fun _ h => h) fun _ _ h => .inr h
  · exact Does.pure fun _ h => .inl h

theorem execute_loop_does {distance : UInt16} {n : Nat}
    (hword : Word.read? f.chunk.code ip = some distance) (hd : distance.toNat ≤ ip+2) :
    Does (Poised z pools n (⟨id, ip, base⟩ :: rest)) (execute p id f .loop)
      fun _ => Poised z pools n (⟨id, ip+2-distance.toNat, base⟩ :: rest) := by
  refine Does.bind_fact (readWord_does hword).lift_fact fun a ha => ?_
  subst ha
  exact (loopBy_does hd).lift

/-- At the end of its count a loop drops the counter and passes over the loop instruction. -/
theorem execute_endRepeat_does :
    Does (Poised z pools (k+1) (⟨id, ip, base⟩ :: rest)) (execute p id f .endRepeat)
      fun _ m => m.Poised z pools k (⟨id, ip+Opcode.loop.width, base⟩ :: rest) ∨
        m.Poised z pools (k+1) (⟨id, ip, base⟩ :: rest) := by
  refine Does.bind_fact (peek_does (by omega)).lift_fact fun v _ => ?_
  split
  · dsimp only
    split
    · refine Does.bind pop_does.lift fun _ => Does.bind_fact frame_does.lift_fact fun g hg => ?_
      subst hg
      exact (setIp_does _).lift.mono (fun _ h => h) fun _ _ h => .inl h
    · exact (replaceTop_does (Setting.free_number _)).lift.mono (fun _ h => h) fun _ _ h => .inr h
  · exact Does.throw rfl

/-- A return leaves its result in the place of the runnable that was called. -/
theorem ret_does {g : Frame} (hbase : base ≤ k) :
    Does (Poised z pools (k+1) (⟨id, ip, base⟩ :: g :: rest)) ret
      fun _ => Poised z pools (base+1) (g :: rest) := by
  refine Does.lift (Does.bind_fact (peek_does (by omega)) fun v hv => ?_)
  apply Does.get_bind
  intro m hm
  rw [hm.frames]
  refine Does.bind (collapse_does (Nat.le_succ_of_le hbase) hv) fun _ => Does.modify ?_
  intro m hm
  exact ⟨hm.size, by simp [hm.frames], hm.pools, hm.stack, hm.globals⟩

theorem ret_script_does {fr : Frame} : Does (Poised z pools (k+1) [fr]) ret fun _ _ => False := by
  refine Does.bind_fact (peek_does (by omega)).lift_fact fun v _ => ?_
  apply Does.get_bind
  intro m hm
  rw [hm.2.frames]
  exact Does.throw rfl

end Exec

namespace Machine

/-- The function that a call of a name enters. -/
def callee? (p : Program) (m : Machine) (name : String) : Option Function := do
  match m.heap.object (← m.globals.get? name) with
  | .ok (some (.runnable id _)) => p.function? id
  | _ => none

end Machine

namespace Exec

open Machine

variable {p : Program} {z : Setting} {pools : Array (Array Value)} {k n : Nat} {fs : List Frame}

theorem global_eq (name : String) (m : Machine) :
    global name m = match m.globals.get? name with
      | some v => .ok v m
      | none => .error (.undefined name) m := by
  simp only [global, bind, EStateM.bind, get, getThe, MonadStateOf.get, EStateM.get]
  cases m.globals.get? name <;> rfl

theorem object_eq (v : Value) (m : Machine) :
    object v m = match m.heap.object v with
      | .ok o => .ok o m
      | .error e => .error (.heap e) m := by
  simp only [object, ask, bind, EStateM.bind, get, getThe, MonadStateOf.get, EStateM.get]
  cases m.heap.object v <;> rfl

theorem live_of_object {h : Heap} {v : Value} {o : Object} (hv : h.object v = .ok (some o)) :
    ∃ r l, v = .object r ∧ h.live? r = some l ∧ l.object = o := by
  cases v with
  | object r =>
    simp only [Heap.object, Heap.get, Heap.object?] at hv
    cases hl : h.live? r with
    | none => simp [hl, Except.map] at hv
    | some l =>
      simp only [hl, Option.map_some, Except.map, Except.ok.injEq, Option.some.injEq] at hv
      exact ⟨r, l, rfl, hl, hv⟩
  | none | number | bool => cases hv

/-- A call enters a function that is not the script, over the cell of the runnable. -/
theorem call_does (hz : z.Loads p pools) {name : String} {arity : Nat} (hn : n = k+(arity+1)) :
    Does (fun m => m.Poised z pools n fs ∧ ∀ callee, m.callee? p name = some callee →
        callee.arity = arity) (call p name)
      fun _ m => ∃ function callee, p.function? function = some callee ∧ function ≠ 0 ∧
        callee.arity = arity ∧ m.Poised z pools n (⟨function, 0, k⟩ :: fs) := by
  intro m hm
  obtain ⟨hm, hcharged⟩ := hm
  have hglobal := global_eq name m
  cases hv : m.globals.get? name with
  | none =>
    rw [hv] at hglobal
    simp only [call, bind, EStateM.bind, hglobal]
    rfl
  | some v =>
    rw [hv] at hglobal
    have hobject := object_eq v m
    cases ho : m.heap.object v with
    | error e =>
      rw [ho] at hobject
      simp only [call, bind, EStateM.bind, hglobal, hobject]
      rfl
    | ok o =>
      rw [ho] at hobject
      refine Does.read hglobal (Does.read hobject ?_) m rfl
      split
      · next function label =>
        -- the runnable is live, so it is one of the constants, and being in reach not the script
        obtain ⟨r, l, hr, hl, hlabel⟩ := live_of_object ho
        have htyped := hm.1.typed r l hl
        rw [hlabel] at htyped
        have hcallee : ∃ callee, p.function? function = some callee :=
          Option.isSome_iff_exists.mp (hz.runnable r function label htyped).2
        have hfree : z.Free v := by
          obtain ⟨before, _, hbindings, _⟩ := List.lookup_eq_some_iff.mp hv
          apply hm.2.globals
          simp [hbindings]
        have hscript : function ≠ 0 := by
          intro hzero
          subst hzero
          exact hfree r label hr htyped
        obtain ⟨callee, hcallee⟩ := hcallee
        have harity : callee.arity = arity := by
          apply hcharged
          simp [callee?, hv, ho, hcallee]
        simp only [hcallee]
        apply Does.get_bind
        intro m' hm'
        subst m'
        split
        · exact Does.throw rfl
        · rw [if_neg (by rw [hm.2.size]; omega)]
          apply Does.modify
          intro m' hm'
          subst m'
          have hsize := hm.2.size
          have hroom := hm.1.room
          have hk : m.stack.size-(callee.arity+1) = k := by omega
          refine ⟨function, callee, hcallee, hscript, harity, ?_, ?_⟩
          · refine hm.1.move rfl rfl hm.1.pinned rfl (fun _ => rfl) hm.1.named hm.1.room ?_
            intro g hg
            rcases List.mem_cons.mp hg with rfl | hg
            · simp only
              omega
            · exact hm.1.bases g hg
          · exact ⟨hm.2.size, by simp [hk, hm.2.frames], hm.2.pools, hm.2.stack, hm.2.globals⟩
      · exact Does.throw rfl

end Exec
end RatScript
