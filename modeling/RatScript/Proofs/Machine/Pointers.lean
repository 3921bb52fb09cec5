import RatScript.Proofs.Machine.Turn

/-!
Instruction pointers of a verified program. Whatever its calls find on the stack, every active call
of a run stands at an instruction that verification has reached, or at the end of the script.
-/

namespace RatScript

open Stateful

namespace Machine

/-- The active calls are the same. -/
def Steady (m m' : Machine) : Prop := m'.frames = m.frames

instance : Std.Refl Steady := ⟨fun _ => rfl⟩

instance : Trans Steady Steady Steady := ⟨fun h k => Eq.trans k h⟩

end Machine

namespace Exec

open Machine

/-! Parts of instructions that leave the calls as they are. -/

instance {α : Type} (x : HeapM α) : Keeps Steady (onHeap x) where
  keeps m := by
    cases hx : x m.heap with
    | ok a h =>
      rw [after, onHeap_ok hx]
      rfl
    | error e h =>
      rw [after, onHeap_error hx]
      rfl

instance : Lenient Steady where
  retain _ := inferInstanceAs (Keeps Steady (onHeap _))
  release _ := inferInstanceAs (Keeps Steady (onHeap _))
  alloc _ := inferInstance
  stack _ _ := rfl
  world _ _ := rfl

/-- A change of other parts of the machine. -/
theorem steady_modify {f : Machine → Machine} (h : ∀ m, (f m).frames = m.frames) :
    Keeps Steady (modify f : Exec PUnit) := Keeps.modify h

instance (name : String) (v : Value) : Keeps Steady (defineGlobal name v) := by
  apply Keeps.seq inferInstance
  intro m
  have hmodify : Keeps Steady
      (modify fun m => {m with globals := m.globals.define name v} : Exec PUnit) :=
    steady_modify fun _ => rfl
  split <;> infer_instance

instance (name : String) (v : Value) : Keeps Steady (storeGlobal name v) := by
  apply Keeps.seq inferInstance
  intro _
  apply Keeps.seq inferInstance
  intro m
  have hset : Keeps Steady (modify fun m => {m with globals := m.globals.set name v} : Exec PUnit) :=
    steady_modify fun _ => rfl
  have hdefine : Keeps Steady
      (modify fun m => {m with globals := m.globals.define name v} : Exec PUnit) :=
    steady_modify fun _ => rfl
  split <;> infer_instance

/-! Loading. -/

instance (vs : List Value) : Keeps Steady (releaseAll vs) := by
  induction vs with
  | nil => exact inferInstanceAs (Keeps Steady (pure _))
  | cons v rest ih =>
    unfold releaseAll
    infer_instance

instance (gs : List (String × Value)) : Keeps Steady (dropGlobals gs) := by
  induction gs with
  | nil => exact inferInstanceAs (Keeps Steady (pure _))
  | cons g rest ih =>
    exact Keeps.seq (steady_modify fun _ => rfl) fun _ => inferInstance

instance (ns : List Native) : Keeps Steady (bindAll ns) := by
  induction ns with
  | nil => exact inferInstanceAs (Keeps Steady (pure _))
  | cons n rest ih =>
    unfold bindAll
    infer_instance

instance : Keeps Steady bindNatives := by
  have hbound : Keeps Steady (modify fun m => {m with nativesBound := true} : Exec PUnit) :=
    steady_modify fun _ => rfl
  unfold bindNatives
  infer_instance

instance (p : Program) (c : Constant) : Keeps Steady (newConstant p c) := by
  unfold newConstant
  split
  · infer_instance
  · infer_instance
  · split <;> infer_instance

instance (p : Program) (found : Array Value) (cs : List Constant) :
    Keeps Steady (newPool p found cs) := by
  induction cs generalizing found with
  | nil => exact inferInstanceAs (Keeps Steady (pure _))
  | cons c rest ih =>
    unfold newPool
    infer_instance

instance (p : Program) (fs : List Function) : Keeps Steady (loadConstants p fs) := by
  induction fs with
  | nil => exact inferInstanceAs (Keeps Steady (pure _))
  | cons f rest ih =>
    exact Keeps.seq inferInstance fun _ => Keeps.seq (steady_modify fun _ => rfl) fun _ =>
      inferInstance

/-! What becomes of the calls, where a part succeeds. -/

/-- From these calls, success leaves calls with a property. -/
def Moves {α : Type} (fs : List Frame) (x : Exec α) (Q : α → List Frame → Prop) : Prop :=
  Yields (·.frames = fs) x (fun a m => Q a m.frames) fun _ _ => True

namespace Moves

variable {α β : Type} {fs : List Frame} {Q : α → List Frame → Prop} {R : β → List Frame → Prop}

theorem steady (x : Exec α) [h : Keeps Steady x] : Moves fs x fun _ gs => gs = fs := by
  intro m hm
  cases hx : x m with
  | ok a m' => exact (h.of_ok hx).trans hm
  | error e m' => trivial

theorem bind {x : Exec α} {f : α → Exec β} (hx : Moves fs x Q)
    (hf : ∀ a gs, Q a gs → Moves gs (f a) R) : Moves fs (x >>= f) R :=
  Yields.bind hx fun a m hm => hf a m.frames hm m rfl

theorem throw (e : Fault) : Moves fs (throw e : Exec α) Q := Yields.throw fun _ _ => trivial

theorem pure {a : α} (h : Q a fs) : Moves fs (Pure.pure a : Exec α) Q :=
  Yields.pure fun _ hm => hm ▸ h

theorem modify {f : Machine → Machine} {Q : PUnit → List Frame → Prop}
    (h : ∀ m, m.frames = fs → Q ⟨⟩ (f m).frames) : Moves fs (modify f) Q := Yields.modify h

theorem get_bind {f : Machine → Exec α} (h : ∀ m, m.frames = fs → Moves fs (f m) Q) :
    Moves fs (get >>= f) Q := fun m hm => h m hm m hm

theorem mono {Q' : α → List Frame → Prop} {x : Exec α} (hx : Moves fs x Q)
    (hq : ∀ a gs, Q a gs → Q' a gs) : Moves fs x Q' :=
  Yields.mono hx (fun _ h => h) (fun a m h => hq a m.frames h) fun _ _ h => h

/-- As `bind`, for a first part that only moves the pointer. -/
theorem then_steady {gs : List Frame} {x : Exec α} {f : α → Exec β} [∀ a, Keeps Steady (f a)]
    (hx : Moves fs x fun _ hs => hs = gs) : Moves fs (x >>= f) fun _ hs => hs = gs := by
  refine bind hx ?_
  rintro a _ rfl
  exact steady _

end Moves

section
variable {id ip base : Nat} {rest : List Frame}

theorem frame_moves : Moves (⟨id, ip, base⟩ :: rest) frame
    fun f gs => f = ⟨id, ip, base⟩ ∧ gs = ⟨id, ip, base⟩ :: rest := by
  apply Moves.get_bind
  intro m hm
  rw [hm]
  exact Moves.pure ⟨rfl, rfl⟩

theorem setIp_moves (target : Nat) : Moves (⟨id, ip, base⟩ :: rest) (setIp target)
    fun _ gs => gs = ⟨id, target, base⟩ :: rest := by
  apply Moves.modify
  intro m hm
  simp only [hm]

theorem readByte_moves (code : Array UInt8) : Moves (⟨id, ip, base⟩ :: rest) (readByte code)
    fun a gs => code[ip]? = some a ∧ gs = ⟨id, ip+1, base⟩ :: rest := by
  refine Moves.bind frame_moves ?_
  rintro _ _ ⟨rfl, rfl⟩
  dsimp only
  split
  · next b hb =>
    refine Moves.bind (setIp_moves (ip+1)) ?_
    rintro _ _ rfl
    exact Moves.pure ⟨hb, rfl⟩
  · exact Moves.throw _

theorem readWord_moves (code : Array UInt8) : Moves (⟨id, ip, base⟩ :: rest) (readWord code)
    fun a gs => Word.read? code ip = some a ∧ gs = ⟨id, ip+2, base⟩ :: rest := by
  refine Moves.bind (readByte_moves code) ?_
  rintro high _ ⟨hhigh, rfl⟩
  refine Moves.bind (readByte_moves code) ?_
  rintro low _ ⟨hlow, rfl⟩
  exact Moves.pure ⟨by simp [Word.read?, hhigh, hlow], rfl⟩

theorem identifier_moves (f : Function) : Moves (⟨id, ip, base⟩ :: rest) (identifier f)
    fun _ gs => gs = ⟨id, ip+1, base⟩ :: rest := by
  refine Moves.bind (readByte_moves _) ?_
  rintro index _ ⟨_, rfl⟩
  split
  · exact Moves.pure rfl
  · exact Moves.throw _

theorem jumpBy_moves (distance : UInt16) : Moves (⟨id, ip, base⟩ :: rest) (jumpBy distance)
    fun _ gs => gs = ⟨id, ip+distance.toNat, base⟩ :: rest := by
  refine Moves.bind frame_moves ?_
  rintro _ _ ⟨rfl, rfl⟩
  exact setIp_moves _

/-- Operations that go straight on, calls apart, leave the pointer behind their operand. -/
theorem execute_straight_moves (p : Program) (f : Function) {op : Opcode} (hop : op.isStraight = true)
    (hcall : op ≠ .call) : Moves (⟨id, ip+1, base⟩ :: rest) (execute p id f op)
      fun _ gs => gs = ⟨id, ip+op.width, base⟩ :: rest := by
  have hbyte (code : Array UInt8) : Moves (⟨id, ip+1, base⟩ :: rest) (readByte code)
      fun _ gs => gs = ⟨id, ip+2, base⟩ :: rest :=
    (readByte_moves code).mono fun _ _ h => h.2
  have hname : Moves (⟨id, ip+1, base⟩ :: rest) (identifier f)
      fun _ gs => gs = ⟨id, ip+2, base⟩ :: rest := identifier_moves f
  cases op with
  | ret | jump | jumpIf | loop | endRepeat => cases hop
  | call => exact absurd rfl hcall
  | constant => exact .then_steady (hbyte _)
  | define => exact .then_steady hname
  | get scope | set scope | count scope | compound scope =>
    cases scope with
    | global => exact .then_steady hname
    | frame => exact .then_steady (hbyte _)
  | defineRunnable =>
    refine Moves.bind (hbyte _) ?_
    rintro index _ rfl
    refine .then_steady ((readWord_moves _).mono ?_)
    rintro _ _ ⟨_, rfl⟩
    rfl
  | callNative =>
    refine Moves.bind hname ?_
    rintro name _ rfl
    refine .then_steady ((readByte_moves _).mono ?_)
    rintro _ _ ⟨_, rfl⟩
    rfl
  | negate =>
    have hsteady : Keeps Steady (execute p id f .negate) := by
      apply Keeps.seq inferInstance
      intro v
      split <;> infer_instance
    exact .steady _
  | complement =>
    have hsteady : Keeps Steady (execute p id f .complement) := by
      apply Keeps.seq inferInstance
      intro v
      split <;> infer_instance
    exact .steady _
  | newline | pop | literal | operator | test | not | repeat_ =>
    unfold execute
    exact .steady _

theorem call_moves (p : Program) (name : String) (fs : List Frame) : Moves fs (call p name)
    fun _ gs => ∃ callee f cell, p.function? callee = some f ∧ gs = ⟨callee, 0, cell⟩ :: fs := by
  unfold call
  refine Moves.bind (.steady _) ?_
  rintro v _ rfl
  refine Moves.bind (.steady _) ?_
  rintro o _ rfl
  split
  · next function _ =>
    split
    · exact Moves.throw _
    · next callee hcallee =>
      apply Moves.get_bind
      intro m _
      split
      · exact Moves.throw _
      · split
        · exact Moves.throw _
        · apply Moves.modify
          intro m hm
          exact ⟨function, callee, _, hcallee, by rw [hm]⟩
  · exact Moves.throw _

theorem ret_moves (fr : Frame) : Moves (fr :: rest) ret fun _ gs => gs = rest ∧ rest ≠ [] := by
  unfold ret
  refine Moves.bind (.steady _) ?_
  rintro v _ rfl
  apply Moves.get_bind
  intro m hm
  rw [hm]
  split
  · next heq =>
    cases heq
    refine Moves.bind (.steady _) ?_
    rintro _ _ rfl
    apply Moves.modify
    intro m hm
    simp [hm]
  · exact Moves.throw _

theorem countDown_moves : Moves (⟨id, ip, base⟩ :: rest) countDown
    fun _ gs => gs = ⟨id, ip, base⟩ :: rest ∨ gs = ⟨id, ip+Opcode.loop.width, base⟩ :: rest := by
  unfold countDown
  refine Moves.bind (.steady _) ?_
  rintro v _ rfl
  split
  · dsimp only
    split
    · refine Moves.bind (.steady _) ?_
      rintro _ _ rfl
      refine Moves.bind frame_moves ?_
      rintro _ _ ⟨rfl, rfl⟩
      exact (setIp_moves _).mono fun _ _ h => .inr h
    · exact (Moves.steady _).mono fun _ _ h => .inl h
  · exact Moves.throw _

end
end Exec

namespace Program

/-- A call that stands where verification has come. -/
def Stands (p : Program) (fr : Frame) : Prop :=
  ∃ f height, p.function? fr.function = some f ∧ p.Arrives fr.function f (fr.ip, height)

/-- The calls that may be active after an instruction. -/
inductive Leads (p : Program) (id base : Nat) (rest : List Frame) (next : List (Nat × Nat)) :
    List Frame → Prop
  | onward {a : Nat × Nat} (ha : a ∈ next) : Leads p id base rest next (⟨id, a.1, base⟩ :: rest)
  | enter {a : Nat × Nat} {callee cell : Nat} {f : Function} (ha : a ∈ next)
    (hf : p.function? callee = some f) :
    Leads p id base rest next (⟨callee, 0, cell⟩ :: ⟨id, a.1, base⟩ :: rest)
  | leave (h : rest ≠ []) : Leads p id base rest next rest

variable {p : Program} {id ip base height : Nat} {f : Function} {rest gs : List Frame}
  {i : Instruction} {next : List (Nat × Nat)}

theorem stands_of_leads (hverify : p.verify = .ok ()) (hf : p.function? id = some f)
    (s : p.Stop id f ip height i next) (hrest : ∀ fr ∈ rest, p.Stands fr)
    (h : p.Leads id base rest next gs) : gs ≠ [] ∧ ∀ fr ∈ gs, p.Stands fr := by
  have honward {a : Nat × Nat} (ha : a ∈ next) : p.Stands ⟨id, a.1, base⟩ :=
    ⟨f, a.2, hf, s.onward a ha⟩
  cases h with
  | onward ha => exact ⟨by simp, by simpa using ⟨honward ha, hrest⟩⟩
  | enter ha hcallee =>
    refine ⟨by simp, ?_⟩
    simpa using ⟨⟨_, _, hcallee, arrives_entry hverify hcallee⟩, honward ha, hrest⟩
  | leave hne => exact ⟨hne, hrest⟩

end Program

namespace Exec

open Machine

variable {p : Program} {id ip base height : Nat} {f : Function} {rest : List Frame}
  {i : Instruction} {next : List (Nat × Nat)}

theorem execute_moves (s : p.Stop id f ip height i next) :
    Moves (⟨id, ip+1, base⟩ :: rest) (execute p id f i.op) fun _ => p.Leads id base rest next := by
  by_cases hcall : i.op = .call
  · obtain ⟨_, _, charged, _, _, _, _, _, hnext⟩ := call_stop s hcall
    rw [hcall, hnext]
    refine Moves.bind (identifier_moves f) ?_
    rintro name _ rfl
    refine (call_moves p name _).mono ?_
    rintro _ _ ⟨callee, g, cell, hg, rfl⟩
    exact .enter (List.mem_singleton.mpr rfl) hg
  by_cases hstraight : i.op.isStraight = true
  · obtain ⟨e, he, _⟩ := Survey.successors_eq_ok.mp s.successors
    obtain ⟨_, hnext⟩ := s.straight hstraight he
    refine (execute_straight_moves p f hstraight hcall).mono ?_
    rintro _ _ rfl
    rw [hnext]
    exact .onward (List.mem_singleton.mpr rfl)
  cases hop : i.op with
  | ret =>
    refine (ret_moves _).mono ?_
    rintro _ _ ⟨rfl, hne⟩
    exact .leave hne
  | jump =>
    obtain ⟨distance, hword, rfl⟩ := s.jump_next hop
    refine Moves.bind (readWord_moves _) ?_
    rintro d _ ⟨hd, rfl⟩
    rw [hword] at hd
    cases hd
    refine (jumpBy_moves distance).mono ?_
    rintro _ _ rfl
    exact .onward (List.mem_singleton.mpr rfl)
  | jumpIf truth =>
    obtain ⟨distance, hword, _, rfl⟩ := s.jumpIf_next hop
    refine Moves.bind (readWord_moves _) ?_
    rintro d _ ⟨hd, rfl⟩
    rw [hword] at hd
    cases hd
    refine Moves.bind (.steady _) ?_
    rintro v _ rfl
    refine Moves.bind (.steady _) ?_
    rintro b _ rfl
    split
    · refine (jumpBy_moves distance).mono ?_
      rintro _ _ rfl
      exact .onward (List.mem_cons_of_mem _ (List.mem_singleton.mpr rfl))
    · exact Moves.pure (.onward (List.mem_cons_self ..))
  | loop =>
    obtain ⟨distance, hword, hle, rfl⟩ := s.loop_next hop
    refine Moves.bind (readWord_moves _) ?_
    rintro d _ ⟨hd, rfl⟩
    rw [hword] at hd
    cases hd
    refine Moves.bind frame_moves ?_
    rintro _ _ ⟨rfl, rfl⟩
    rw [if_pos hle]
    refine (setIp_moves _).mono ?_
    rintro _ _ rfl
    exact .onward (List.mem_singleton.mpr rfl)
  | endRepeat =>
    obtain ⟨k, rfl, rfl⟩ := s.endRepeat_next hop
    refine countDown_moves.mono ?_
    rintro _ _ (rfl | rfl)
    · exact .onward (List.mem_cons_of_mem _ (List.mem_singleton.mpr rfl))
    · exact .onward (List.mem_cons_self ..)
  | _ => simp [hop, Opcode.isStraight] at hstraight

theorem step_moves (s : p.Stop id f ip height i next) (base : Nat) (rest : List Frame) :
    Moves (⟨id, ip, base⟩ :: rest) (step p id f) fun _ => p.Leads id base rest next := by
  obtain ⟨byte, hbyte, hdecode⟩ := s.byte
  refine Moves.bind (readByte_moves _) ?_
  rintro b _ ⟨hb, rfl⟩
  rw [hbyte] at hb
  cases hb
  rw [(Instruction.decode_eq_ok hdecode).1]
  exact execute_moves s

theorem load_moves (p : Program) (fs : List Frame) :
    Moves fs (load p) fun _ gs => gs = [⟨0, 0, 0⟩] := by
  have hreset : Moves fs reset fun _ gs => gs = [] := by
    unfold reset
    apply Moves.get_bind
    intro m _
    refine Moves.bind (Q := fun _ _ => True) (Moves.modify fun _ _ => trivial) fun _ _ _ => ?_
    refine Moves.bind (.steady _) fun _ _ _ => ?_
    refine Moves.bind (Moves.modify (Q := fun _ gs => gs = []) fun _ _ => rfl) ?_
    rintro _ _ rfl
    apply Moves.get_bind
    intro m _
    have hpools : Keeps Steady (modify fun m => {m with pools := #[]} : Exec PUnit) :=
      steady_modify fun _ => rfl
    exact .steady _
  refine Moves.bind hreset ?_
  rintro _ _ rfl
  refine Moves.bind (.steady _) ?_
  rintro _ _ rfl
  refine Moves.bind (.steady _) ?_
  rintro _ _ rfl
  apply Moves.modify
  intro m hm
  rw [hm]

end Exec

namespace Machine

variable {p : Program} {m m' : Machine}

/-- There is an active call, and all of them stand where verification has come. -/
def Stands (p : Program) (m : Machine) : Prop := m.frames ≠ [] ∧ ∀ fr ∈ m.frames, p.Stands fr

theorem advance_stands (hverify : p.verify = .ok ()) (hm : m.Stands p)
    (h : m.advance p = (.running, m')) : m'.Stands p := by
  obtain ⟨_, hall⟩ := hm
  unfold advance at h
  cases hframes : m.frames with
  | nil => simp [hframes] at h
  | cons fr rest =>
    rw [hframes] at hall
    obtain ⟨f, height, hf, harrives⟩ := hall fr (List.mem_cons_self ..)
    simp only [hframes, hf] at h
    split at h
    · split at h <;> cases h
    · next hip =>
      unfold Program.Arrives at harrives
      rw [if_neg (by omega)] at harrives
      obtain ⟨i, next, s⟩ := Program.stop_of_meets hf harrives
      have hstep := Exec.step_moves s fr.base rest m hframes
      split at h
      · cases h
      · next m'' hs =>
        rw [hs] at hstep
        have hstands := Program.stands_of_leads hverify hf s
          (fun g hg => hall g (List.mem_cons_of_mem _ hg)) hstep
        split at h
        · have htrace : Keeps Steady (Exec.trace fr.ip) := inferInstance
          split at h
          · cases h
          · next ht =>
            cases h
            have hsteady : _ = _ := htrace.of_ok ht
            unfold Stands
            rw [hsteady]
            exact hstands
        · cases h
          exact hstands

/-- Turn after turn every active call stands where verification has come. -/
theorem runFor_stands (hverify : p.verify = .ok ()) (turns : Nat) (hm : m.Stands p)
    (h : m.runFor p turns = (.running, m')) : m'.Stands p := by
  induction turns generalizing m with
  | zero =>
    cases h
    exact hm
  | succ turns ih =>
    unfold runFor at h
    split at h
    · next ha => exact ih (advance_stands hverify hm ha) h
    · next hne =>
      exact absurd h (hne m')

/-- Whatever machine a verified program runs on. -/
theorem interpret_stands (hverify : p.verify = .ok ()) {turns : Nat}
    (h : m.interpret p turns = (.running, m')) : m'.Stands p := by
  have hload := Exec.load_moves p m.frames m rfl
  unfold interpret at h
  split at h
  · cases h
  · next m₁ hl =>
    rw [hl] at hload
    have hstart : m₁.Stands p := by
      obtain ⟨⟨script, hzero, _⟩, _⟩ := Program.verify_eq_ok hverify
      unfold Stands
      rw [hload]
      refine ⟨by simp, ?_⟩
      intro fr hfr
      rw [List.mem_singleton.mp hfr]
      exact ⟨script, _, hzero, Program.arrives_entry hverify hzero⟩
    split at h
    · cases h
    · exact runFor_stands hverify turns hstart h

end Machine
end RatScript
