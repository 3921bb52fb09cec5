import RatScript.Proofs.Machine.Pointers
import RatScript.Proofs.Machine.SelfJoin

/-!
Limits and tracing do not change what a program does. A run that fits its limits goes on in the same
way under wider ones, whether it is traced or not: the two machines differ in nothing but their
settings and what was written to the diagnostics stream.
-/

namespace RatScript

open Stateful

/-- The limits of the second are at least those of the first. -/
def Config.Within (c c' : Config) : Prop :=
  c.stackCapacity ≤ c'.stackCapacity ∧ c.maxCallDepth ≤ c'.maxCallDepth

instance (c c' : Config) : Decidable (c.Within c') := inferInstanceAs (Decidable (_ ∧ _))

theorem Config.Within.refl (c : Config) : c.Within c := ⟨le_rfl, le_rfl⟩

/-- A failure because a limit was reached. -/
def Outcome.Overflows (o : Outcome) : Prop := ∃ f, o = .failed f ∧ f.fault.kind = .stackOverflow

namespace Machine

/-- The machine with other settings and another diagnostics stream. -/
def under (m : Machine) (c : Config) (d : Sink) : Machine :=
  {m with config := c, world := {m.world with diagnostics := d}}

@[simp] theorem under_config (m : Machine) (c : Config) (d : Sink) : (m.under c d).config = c := rfl

@[simp] theorem under_frames (m : Machine) (c : Config) (d : Sink) :
    (m.under c d).frames = m.frames := rfl

theorem under_self (m : Machine) : m.under m.config m.world.diagnostics = m := rfl

theorem under_under (m : Machine) (c c' : Config) (d d' : Sink) :
    (m.under c d).under c' d' = m.under c' d' := rfl

end Machine

namespace Exec

open Machine

variable {α β : Type} {m t : Machine} {c : Config} {d : Sink}

/-- A step that comes to the same under other settings, unless it reaches a limit of its own that is
wider there. -/
class Indifferent (x : Exec α) : Prop where
  agrees : ∀ m c d, m.config.Within c →
    match x m with
    | .ok a t => x (m.under c d) = .ok a (t.under c d)
    | .error e t => (e.kind = .stackOverflow ∧ ¬ c.Within m.config) ∨
      x (m.under c d) = .error e (t.under c d)

namespace Indifferent

theorem of_ok {x : Exec α} [h : Indifferent x] {a : α} (hx : x m = .ok a t)
    (hc : m.config.Within c) : x (m.under c d) = .ok a (t.under c d) := by
  have hagrees := h.agrees m c d hc
  rwa [hx] at hagrees

theorem of_error {x : Exec α} [h : Indifferent x] {e : Fault} (hx : x m = .error e t)
    (hc : m.config.Within c) (hfault : e.kind ≠ .stackOverflow) :
    x (m.under c d) = .error e (t.under c d) := by
  have hagrees := h.agrees m c d hc
  rw [hx] at hagrees
  exact hagrees.resolve_left fun h => hfault h.1

/-- Under the same limits a step that fails does so in the same way. -/
theorem error_same {x : Exec α} [h : Indifferent x] {e : Fault} (hx : x m = .error e t)
    (hc : m.config.Within c) (hc' : c.Within m.config) :
    x (m.under c d) = .error e (t.under c d) := by
  have hagrees := h.agrees m c d hc
  rw [hx] at hagrees
  exact hagrees.resolve_left fun h => h.2 hc'

/-- Under its own settings a machine stays the same, so a step that succeeds has kept them. -/
theorem settings_of_ok {x : Exec α} [Indifferent x] {a : α} (hx : x m = .ok a t) :
    t.config = m.config ∧ t.world.diagnostics = m.world.diagnostics := by
  have hsame := of_ok (d := m.world.diagnostics) hx (.refl m.config)
  rw [under_self, hx] at hsame
  have ht : t = t.under m.config m.world.diagnostics := (EStateM.Result.ok.inj hsame).2
  constructor <;> rw [ht] <;> rfl

theorem settings_of_error {x : Exec α} [Indifferent x] {e : Fault} (hx : x m = .error e t)
    (hfault : e.kind ≠ .stackOverflow) :
    t.config = m.config ∧ t.world.diagnostics = m.world.diagnostics := by
  have hsame := of_error (d := m.world.diagnostics) hx (.refl m.config) hfault
  rw [under_self, hx] at hsame
  have ht : t = t.under m.config m.world.diagnostics := (EStateM.Result.error.inj hsame).2
  constructor <;> rw [ht] <;> rfl

theorem bind {x : Exec α} {f : α → Exec β} (hx : Indifferent x) (hf : ∀ a, Indifferent (f a)) :
    Indifferent (x >>= f) where
  agrees m c d hc := by
    have hfirst := hx.agrees m c d hc
    simp only [Bind.bind, EStateM.bind]
    cases hs : x m with
    | ok a t =>
      rw [hs] at hfirst
      simp only [hfirst]
      have hrest := (hf a).agrees t c d ((settings_of_ok hs).1 ▸ hc)
      rwa [(settings_of_ok hs).1] at hrest
    | error e t =>
      rw [hs] at hfirst
      rcases hfirst with hfault | hfirst
      · exact .inl hfault
      · exact .inr (by simp only [hfirst])

/-- What follows from a look at other parts of the machine. -/
theorem look {f : Machine → Exec α} (hsame : ∀ m c d, f (m.under c d) = f m)
    (hf : ∀ m, Indifferent (f m)) : Indifferent (get >>= f) where
  agrees m c d hc := by
    change match f m m with
      | .ok a t => f (m.under c d) (m.under c d) = .ok a (t.under c d)
      | .error e t => _ ∨ f (m.under c d) (m.under c d) = .error e (t.under c d)
    rw [hsame]
    exact (hf m).agrees m c d hc

theorem of_modify {f : Machine → Machine} (h : ∀ m c d, f (m.under c d) = (f m).under c d) :
    Indifferent (modify f : Exec PUnit) where
  agrees m c d _ := congrArg (EStateM.Result.ok PUnit.unit) (h m c d)

theorem of_modifyGet {f : Machine → α × Machine}
    (h : ∀ m c d, f (m.under c d) = ((f m).1, (f m).2.under c d)) :
    Indifferent (modifyGet f : Exec α) where
  agrees m c d _ := by
    change (match f (m.under c d) with | (a, t) => EStateM.Result.ok a t) = _
    rw [h]

instance (a : α) : Indifferent (pure a) := ⟨fun _ _ _ _ => rfl⟩

instance (e : Fault) : Indifferent (throw e : Exec α) := ⟨fun _ _ _ _ => .inr rfl⟩

instance (x : Exec α) (f : α → Exec β) [Indifferent x] [∀ a, Indifferent (f a)] :
    Indifferent (x >>= f) := bind inferInstance inferInstance

instance (p : Prop) [Decidable p] (x y : Exec α) [Indifferent x] [Indifferent y] :
    Indifferent (if p then x else y) := by
  split <;> assumption

instance (x : HeapM α) : Indifferent (onHeap x) where
  agrees m c d _ := by
    cases hx : x m.heap with
    | ok a h =>
      rw [onHeap_ok hx]
      exact onHeap_ok (m := m.under c d) hx
    | error e h =>
      rw [onHeap_error hx]
      exact .inr (onHeap_error (m := m.under c d) hx)

instance (x : Heap → Except HeapFault α) : Indifferent (ask x) := by
  refine look (fun _ _ _ => rfl) fun m => ?_
  split <;> infer_instance

/-! Stack and calls. -/

/-- Both limits are asked for before anything is changed. -/
theorem guarded {l : Config → Nat} {n : Machine → Nat} {e : Nat → Fault}
    {f : Machine → Exec α} (hlimit : ∀ c c' : Config, c.Within c' → l c ≤ l c')
    (hlevel : ∀ m c d, n (m.under c d) = n m)
    (hfault : ∀ k, (e k).kind = .stackOverflow)
    (hsame : ∀ m c d, f (m.under c d) = f m) (hf : ∀ m, Indifferent (f m)) :
    Indifferent (do
      let m ← get
      if n m < l m.config then f m else throw (e (l m.config))) where
  agrees m c d hc := by
    change match (if n m < l m.config then f m else throw _ : Exec α) m with
      | .ok a t => (if n (m.under c d) < l c then f (m.under c d) else throw _ : Exec α)
          (m.under c d) = _
      | .error _ t => _ ∨ (if n (m.under c d) < l c then f (m.under c d) else throw _ : Exec α)
          (m.under c d) = _
    rw [hlevel, hsame]
    by_cases hroom : n m < l m.config
    · rw [if_pos hroom, if_pos (lt_of_lt_of_le hroom (hlimit _ _ hc))]
      exact (hf m).agrees m c d hc
    · rw [if_neg hroom]
      by_cases hback : c.Within m.config
      · have hlimits : l c = l m.config := le_antisymm (hlimit _ _ hback) (hlimit _ _ hc)
        rw [if_neg (hlimits ▸ hroom), ← hlimits]
        exact .inr rfl
      · exact .inl ⟨hfault _, hback⟩

instance (v : Value) : Indifferent (retain v) := inferInstanceAs (Indifferent (onHeap _))

instance (v : Value) : Indifferent (release v) := inferInstanceAs (Indifferent (onHeap _))

instance (v : Value) : Indifferent (push v) :=
  guarded (l := Config.stackCapacity) (n := fun m => m.stack.size)
    (fun _ _ h => h.1) (fun _ _ _ => rfl) (fun _ => rfl) (fun _ _ _ => rfl) fun _ =>
    bind inferInstance fun _ => of_modify fun _ _ _ => rfl

instance : Indifferent pop := by
  refine look (fun _ _ _ => rfl) fun m => ?_
  split
  · infer_instance
  · exact bind (of_modify fun _ _ _ => rfl) fun _ => inferInstance

instance (distance : Nat) : Indifferent (peek distance) := by
  refine look (fun _ _ _ => rfl) fun m => ?_
  split
  · split <;> infer_instance
  · infer_instance

instance (v : Value) : Indifferent (replaceTop v) := by
  unfold replaceTop
  infer_instance

instance (content : String) : Indifferent (newText content) := by
  unfold newText
  infer_instance

instance (content : String) : Indifferent (pushText content) :=
  guarded (l := Config.stackCapacity) (n := fun m => m.stack.size)
    (fun _ _ h => h.1) (fun _ _ _ => rfl) (fun _ => rfl) (fun _ _ _ => rfl) fun _ => inferInstance

instance (base count : Nat) : Indifferent (popTo base count) := by
  induction count with
  | zero => exact inferInstanceAs (Indifferent (pure _))
  | succ count ih =>
    refine look (fun _ _ _ => rfl) fun m => ?_
    infer_instance

instance (base : Nat) (v : Value) : Indifferent (collapse base v) := by
  refine bind inferInstance fun _ => look (fun _ _ _ => rfl) fun m => ?_
  infer_instance

instance : Indifferent frame := by
  refine look (fun _ _ _ => rfl) fun m => ?_
  split <;> infer_instance

instance (ip : Nat) : Indifferent (setIp ip) := by
  refine of_modify fun m c d => ?_
  rw [under_frames]
  cases m.frames <;> rfl

/-! Values, variables and streams. -/

instance (v : Value) : Indifferent (isTruthy v) := inferInstanceAs (Indifferent (ask _))

instance (v : Value) : Indifferent (display v) := inferInstanceAs (Indifferent (ask _))

instance (v : Value) : Indifferent (kind v) := inferInstanceAs (Indifferent (ask _))

instance (v : Value) : Indifferent (object v) := inferInstanceAs (Indifferent (ask _))

instance (v : Value) : Indifferent (describe v) :=
  look (fun _ _ _ => rfl) fun _ => inferInstance

instance (v : Value) : Indifferent (text? v) := by
  refine bind inferInstance fun o => ?_
  split <;> infer_instance

instance (name : String) : Indifferent (global name) := by
  refine look (fun _ _ _ => rfl) fun m => ?_
  split <;> infer_instance

instance (name : String) (v : Value) : Indifferent (defineGlobal name v) := by
  refine look (fun _ _ _ => rfl) fun m => ?_
  split
  · infer_instance
  · exact bind inferInstance fun _ => of_modify fun _ _ _ => rfl

instance (name : String) : Indifferent (assignable name) :=
  bind inferInstance fun _ => look (fun _ _ _ => rfl) fun _ => inferInstance

instance (name : String) (v : Value) : Indifferent (storeGlobal name v) := by
  refine bind inferInstance fun _ => look (fun _ _ _ => rfl) fun m => ?_
  split
  · exact bind (of_modify fun _ _ _ => rfl) fun _ => inferInstance
  · exact of_modify fun _ _ _ => rfl

instance (slot : UInt8) : Indifferent (cell slot) :=
  bind inferInstance fun _ => look (fun _ _ _ => rfl) fun _ => inferInstance

instance (slot : UInt8) : Indifferent (loadLocal slot) := by
  refine bind inferInstance fun index => look (fun _ _ _ => rfl) fun m => ?_
  split <;> infer_instance

instance (slot : UInt8) (v : Value) : Indifferent (storeLocal slot v) :=
  bind inferInstance fun _ => bind inferInstance fun _ => bind inferInstance fun _ =>
    bind (of_modify fun _ _ _ => rfl) fun _ => inferInstance

instance (code : Array UInt8) : Indifferent (readByte code) := by
  refine bind inferInstance fun f => ?_
  split <;> infer_instance

instance (code : Array UInt8) : Indifferent (readWord code) := by
  unfold readWord
  infer_instance

instance (function : Nat) (index : UInt8) : Indifferent (constant function index) := by
  refine look (fun _ _ _ => rfl) fun m => ?_
  split <;> infer_instance

instance (text : String) : Indifferent (writeLine text) :=
  bind (of_modifyGet fun _ _ _ => rfl) fun _ => inferInstance

instance : Indifferent readLine := by
  refine bind (of_modifyGet fun _ _ _ => rfl) fun line => ?_
  split <;> infer_instance

/-! Operators and natives. -/

instance (op : Operator) (x y : Int32) : Indifferent (bitwise op x y) := by
  unfold bitwise
  cases op <;> dsimp only <;> infer_instance

instance (op : Operator) (a b : Value) : Indifferent (Exec.apply op a b) := by
  unfold Exec.apply
  split
  · split <;> infer_instance
  · split
    · infer_instance
    · split
      · refine bind inferInstance fun left => bind inferInstance fun right => ?_
        split <;> infer_instance
      · infer_instance

instance (t : Test) (a b : Value) : Indifferent (compare t a b) := by
  unfold compare
  split <;> infer_instance

instance (up : Bool) (v : Value) : Indifferent (counted up v) := by
  unfold counted
  split <;> infer_instance

instance (native : Native) (distance : Nat) : Indifferent (textArgument native distance) := by
  refine bind inferInstance fun v => bind inferInstance fun content => ?_
  split <;> infer_instance

instance (files : Files) : Indifferent (setFiles files) := of_modify fun _ _ _ => rfl

instance (v : Value) : Indifferent (toNumber v) := by
  cases v with
  | object r =>
    refine bind inferInstance fun o => ?_
    split
    · split <;> infer_instance
    · infer_instance
    · infer_instance
  | none | number | bool => exact inferInstanceAs (Indifferent (pure _))

instance (native : Native) : Indifferent (runNative native) := by
  unfold runNative
  cases native with
  | readFile | emptyFile =>
    refine bind inferInstance fun path => look (fun _ _ _ => rfl) fun m => ?_
    split <;> infer_instance
  | writeFile =>
    refine bind inferInstance fun path => bind inferInstance fun top =>
      bind inferInstance fun content => look (fun _ _ _ => rfl) fun m => ?_
    split <;> infer_instance
  | _ => infer_instance

/-! Instructions. -/

instance (f : Function) : Indifferent (identifier f) := by
  refine bind inferInstance fun index => ?_
  split <;> infer_instance

instance (distance : UInt16) : Indifferent (jumpBy distance) := by
  unfold jumpBy
  infer_instance

instance (distance : UInt16) : Indifferent (loopBy distance) := by
  unfold loopBy
  infer_instance

instance : Indifferent checkCount := by
  refine bind inferInstance fun v => ?_
  split <;> infer_instance

instance : Indifferent countDown := by
  refine bind inferInstance fun v => ?_
  split <;> infer_instance

instance (id : Nat) (index : UInt8) : Indifferent (defineRunnable id index) := by
  refine bind inferInstance fun v => bind inferInstance fun o => ?_
  split <;> infer_instance

instance (p : Program) (name : String) : Indifferent (call p name) := by
  refine bind inferInstance fun v => bind inferInstance fun o => ?_
  split
  · split
    · infer_instance
    · next function _ _ callee _ =>
      -- the guard of a call is written the other way round
      have hguarded := guarded (l := Config.maxCallDepth) (n := fun m => m.frames.length)
        (e := .callDepth) (f := fun m =>
          if m.stack.size < callee.arity+1 then throw .stackUnderflow
          else modify fun m =>
            {m with frames := ⟨function, 0, m.stack.size-(callee.arity+1)⟩ :: m.frames})
        (fun _ _ h => h.2) (fun _ _ _ => rfl) (fun _ => rfl) (fun _ _ _ => rfl) fun m => by
          have hmodify := of_modify (f := fun m : Machine =>
            {m with frames := ⟨function, 0, m.stack.size-(callee.arity+1)⟩ :: m.frames})
            fun _ _ _ => rfl
          infer_instance
      simpa only [← not_le, ite_not] using hguarded
  · infer_instance

instance (name : String) (arguments : Nat) : Indifferent (callNative name arguments) := by
  refine bind inferInstance fun v => bind inferInstance fun o => ?_
  split
  · split
    · infer_instance
    · exact look (fun _ _ _ => rfl) fun _ => inferInstance
  · infer_instance

instance : Indifferent ret := by
  refine bind inferInstance fun v => look (fun _ _ _ => rfl) fun m => ?_
  split
  · exact bind inferInstance fun _ => of_modify fun _ _ _ => rfl
  · infer_instance

instance (p : Program) (id : Nat) (f : Function) (op : Opcode) :
    Indifferent (execute p id f op) := by
  unfold execute
  cases op with
  | get scope | set scope | count scope | compound scope => cases scope <;> infer_instance
  | negate | complement =>
    refine bind inferInstance fun v => ?_
    split <;> infer_instance
  | _ => infer_instance

instance (p : Program) (id : Nat) (f : Function) : Indifferent (step p id f) := by
  refine bind inferInstance fun byte => ?_
  split <;> infer_instance

/-! Loading. -/

instance (vs : List Value) : Indifferent (releaseAll vs) := by
  induction vs with
  | nil => exact inferInstanceAs (Indifferent (pure _))
  | cons v rest ih =>
    unfold releaseAll
    infer_instance

instance (bindings : List (String × Value)) : Indifferent (dropGlobals bindings) := by
  induction bindings with
  | nil => exact inferInstanceAs (Indifferent (pure _))
  | cons binding rest ih => exact bind (of_modify fun _ _ _ => rfl) fun _ => inferInstance

instance : Indifferent reset := by
  refine look (fun _ _ _ => rfl) fun m => bind (of_modify fun _ _ _ => rfl) fun _ =>
    bind inferInstance fun _ => bind (of_modify fun _ _ _ => rfl) fun _ =>
    look (fun _ _ _ => rfl) fun m => bind (of_modify fun _ _ _ => rfl) fun _ =>
    bind inferInstance fun _ => look (fun _ _ _ => rfl) fun m => inferInstance

instance (natives : List Native) : Indifferent (bindAll natives) := by
  induction natives with
  | nil => exact inferInstanceAs (Indifferent (pure _))
  | cons n rest ih =>
    unfold bindAll
    infer_instance

instance : Indifferent bindNatives := by
  have hbound : Indifferent (modify fun m => {m with nativesBound := true} : Exec PUnit) :=
    of_modify fun _ _ _ => rfl
  exact look (fun _ _ _ => rfl) fun m => inferInstance

instance (p : Program) (k : Constant) : Indifferent (newConstant p k) := by
  unfold newConstant
  split
  · infer_instance
  · infer_instance
  · split <;> infer_instance

instance (p : Program) (found : Array Value) (constants : List Constant) :
    Indifferent (newPool p found constants) := by
  induction constants generalizing found with
  | nil => exact inferInstanceAs (Indifferent (pure _))
  | cons k rest ih =>
    unfold newPool
    infer_instance

instance (p : Program) (functions : List Function) : Indifferent (loadConstants p functions) := by
  induction functions with
  | nil => exact inferInstanceAs (Indifferent (pure _))
  | cons f rest ih =>
    exact bind inferInstance fun _ => bind (of_modify fun _ _ _ => rfl) fun _ => inferInstance

instance (p : Program) : Indifferent (load p) :=
  bind inferInstance fun _ => bind inferInstance fun _ => bind inferInstance fun _ =>
    of_modify fun _ _ _ => rfl

end Indifferent

/-! How deep calls go. -/

/-- No call was added. -/
def NotDeeper (m m' : Machine) : Prop := m'.frames.length ≤ m.frames.length

instance : Std.Refl NotDeeper := ⟨fun _ => le_rfl⟩

instance : Trans NotDeeper NotDeeper NotDeeper := ⟨fun h k => le_trans k h⟩

instance (priority := low) (x : Exec α) [h : Keeps Steady x] : Keeps NotDeeper x where
  keeps m := by
    have hsteady : (after x m).frames = m.frames := h.keeps m
    exact le_of_eq (congrArg List.length hsteady)

instance (ip : Nat) : Keeps NotDeeper (setIp ip) := by
  refine Keeps.modify fun m => ?_
  unfold NotDeeper
  split <;> simp [*]

instance : Keeps NotDeeper ret := by
  refine Keeps.seq inferInstance fun v => Keeps.seq inferInstance fun m => ?_
  have hdrop : Keeps NotDeeper (modify fun m => {m with frames := m.frames.drop 1} : Exec PUnit) :=
    Keeps.modify fun m => by simp [NotDeeper]
  split <;> infer_instance

instance : Keeps NotDeeper countDown := by
  refine Keeps.seq inferInstance fun v => ?_
  split <;> infer_instance

theorem execute_notDeeper (p : Program) (id : Nat) (f : Function) {op : Opcode} (hop : op ≠ .call) :
    Keeps NotDeeper (execute p id f op) := by
  unfold execute
  cases op with
  | call => exact absurd rfl hop
  | get scope | set scope | count scope | compound scope => cases scope <;> infer_instance
  | negate | complement =>
    refine Keeps.seq inferInstance fun v => ?_
    split <;> infer_instance
  | _ => infer_instance

/-- At most a call was added, and that within the limit. -/
def WithinDepth (m m' : Machine) : Prop :=
  m'.config = m.config ∧ m'.frames.length ≤ max m.frames.length m.config.maxCallDepth

instance : Std.Refl WithinDepth := ⟨fun _ => ⟨rfl, le_max_left ..⟩⟩

instance : Trans WithinDepth WithinDepth WithinDepth where
  trans h k := by
    refine ⟨k.1.trans h.1, ?_⟩
    have hfirst := h.2
    have hsecond := k.2
    rw [h.1] at hsecond
    omega

instance (ip : Nat) : Keeps WithinDepth (setIp ip) := by
  refine Keeps.modify fun m => ?_
  unfold WithinDepth
  split <;> simp [*]

instance (p : Program) (name : String) : Keeps WithinDepth (call p name) := by
  refine Keeps.seq inferInstance fun v => Keeps.seq inferInstance fun o => ?_
  split
  · split
    · infer_instance
    · apply Keeps.get_bind
      intro m
      split
      · exact Std.Refl.refl m
      · split
        · exact Std.Refl.refl m
        · next hdepth _ =>
          refine ⟨rfl, ?_⟩
          change m.frames.length+1 ≤ _
          omega
  · infer_instance

theorem step_depth (p : Program) (id : Nat) (f : Function) (m : Machine) :
    (after (step p id f) m).frames.length ≤ max m.frames.length m.config.maxCallDepth := by
  have hread : Keeps WithinDepth (readByte f.chunk.code) := inferInstance
  suffices h : Yields (· = m) (step p id f)
      (fun _ m' => m'.frames.length ≤ max m.frames.length m.config.maxCallDepth)
      (fun _ m' => m'.frames.length ≤ max m.frames.length m.config.maxCallDepth) from h.after rfl
  have hstart : Yields (· = m) (readByte f.chunk.code) (fun _ => WithinDepth m)
      fun _ m' => m'.frames.length ≤ max m.frames.length m.config.maxCallDepth := by
    rintro _ rfl
    cases hs : readByte f.chunk.code _ with
    | ok byte m₁ => exact hread.of_ok hs
    | error e m₁ => exact (hread.of_error hs).2
  refine Yields.bind hstart fun byte => ?_
  split
  · next op _ =>
    rintro m₁ ⟨hconfig, hframes⟩
    suffices h : (after (execute p id f op) m₁).frames.length ≤
        max m.frames.length m.config.maxCallDepth by
      unfold after at h
      split <;> simp_all
    by_cases hop : op = .call
    · subst op
      have hcall : Keeps WithinDepth (execute p id f .call) :=
        inferInstanceAs (Keeps WithinDepth (identifier f >>= fun name => call p name))
      have hdeep := (hcall.keeps m₁).2
      rw [hconfig] at hdeep
      omega
    · exact le_trans ((execute_notDeeper p id f hop).keeps m₁) hframes
  · exact Yields.throw fun _ h => h.2

/-- A stream without a limit takes everything. -/
theorem write_unlimited {sink : Sink} (h : sink.limit = none) (text : String) :
    ∃ taken : Sink, taken.limit = none ∧ sink.write text = (taken, true) := by
  obtain ⟨bytes, limit⟩ := sink
  cases h
  exact ⟨⟨bytes++text.toUTF8, none⟩, rfl, rfl⟩

/-- Tracing a stack of live values changes nothing but the stream it goes to. -/
theorem trace_under (hlive : ∀ v ∈ m.stack.toList, Live v m)
    (hlimit : m.world.diagnostics.limit = none) (offset : Nat) :
    ∃ d, d.limit = none ∧ trace offset m = .ok () (m.under m.config d) := by
  obtain ⟨cells, hcells⟩ := stackText_of_live hlive ""
  obtain ⟨d, hd, hwrite⟩ :=
    write_unlimited hlimit (Text.zeroPadded 4 offset++"\t"++cells++"\n")
  refine ⟨d, hd, ?_⟩
  simp only [trace, bind, EStateM.bind, get, getThe, MonadStateOf.get, EStateM.get, ask, hcells,
    pure, EStateM.pure, modifyGet, MonadStateOf.modifyGet, EStateM.modifyGet, hwrite]
  rfl

end Exec

namespace Machine

variable {p : Program} {z : Setting} {X : List Value} {S : Handle → Prop} {m m' : Machine}
  {c c' : Config}

/-- Two machines that differ in nothing but their settings and what was written to their
diagnostics streams, which take everything. -/
structure Twins (c c' : Config) (m m' : Machine) : Prop where
  config : m.config = c
  stream : m.world.diagnostics.limit = none
  same : ∃ d, d.limit = none ∧ m' = m.under c' d

theorem Twins.frames (h : Twins c c' m m') : m'.frames = m.frames := by
  obtain ⟨d, _, rfl⟩ := h.same
  rfl

/-- What is written to the streams makes no difference. -/
theorem Twins.traced {d d' : Sink} (hd : d.limit = none) (hd' : d'.limit = none)
    (h : Twins c c' m m') : Twins c c' (m.under m.config d) (m'.under m'.config d') := by
  obtain ⟨_, _, rfl⟩ := h.same
  exact ⟨h.config, hd, d', hd', rfl⟩

/-- A step takes twins to twins. -/
theorem twins_of_step {α : Type} {x : Exec α} [Exec.Indifferent x] (hc : c.Within c')
    (h : Twins c c' m m') :
    match x m with
    | .ok a t => ∃ t', x m' = .ok a t' ∧ Twins c c' t t'
    | .error e t => e.kind = .stackOverflow ∨ ∃ t', x m' = .error e t' ∧ Twins c c' t t' := by
  obtain ⟨rfl, hstream, d, hd, rfl⟩ := h
  cases hx : x m with
  | ok a t =>
    obtain ⟨hconfig, hdiagnostics⟩ := Exec.Indifferent.settings_of_ok hx
    exact ⟨t.under c' d, Exec.Indifferent.of_ok hx hc, hconfig, hdiagnostics ▸ hstream, d, hd, rfl⟩
  | error e t =>
    by_cases hfault : e.kind = .stackOverflow
    · exact .inl hfault
    · obtain ⟨hconfig, hdiagnostics⟩ := Exec.Indifferent.settings_of_error hx hfault
      exact .inr ⟨t.under c' d, Exec.Indifferent.of_error hx hc hfault, hconfig,
        hdiagnostics ▸ hstream, d, hd, rfl⟩

/-- A turn goes on behind a step that succeeds, traced or not. -/
theorem advance_of_step {fr : Frame} {rest : List Frame} {f : Function} {t : Machine}
    (hframes : m.frames = fr :: rest) (hf : p.function? fr.function = some f)
    (hinside : fr.ip < f.chunk.code.size) (hs : Exec.step p fr.function f m = .ok () t)
    (hlive : ∀ v ∈ t.stack.toList, Exec.Live v t) (hlimit : t.world.diagnostics.limit = none) :
    ∃ d, d.limit = none ∧ m.advance p = (.running, t.under t.config d) := by
  have hend : ¬ f.chunk.code.size ≤ fr.ip := by omega
  simp only [advance, hframes, hf, hend, if_false, hs]
  cases htraced : t.config.trace with
  | false => exact ⟨t.world.diagnostics, hlimit, rfl⟩
  | true =>
    obtain ⟨d, hd, htrace⟩ := Exec.trace_under hlive hlimit fr.ip
    exact ⟨d, hd, by rw [if_pos rfl, htrace]⟩

theorem advance_twins (hm : m.Counted z X S) (hc : c.Within c') (h : Twins c c' m m')
    (hfits : ¬ (m.advance p).1.Overflows) :
    ∃ t, m'.advance p = ((m.advance p).1, t) ∧ Twins c c' (m.advance p).2 t := by
  have hframes := h.frames
  cases hfs : m.frames with
  | nil =>
    rw [hfs] at hframes
    exact ⟨m', by simp only [advance, hfs, hframes], by simpa only [advance, hfs] using h⟩
  | cons fr rest =>
    rw [hfs] at hframes
    cases hf : p.function? fr.function with
    | none => exact ⟨m', by simp only [advance, hfs, hframes, hf], by simpa only [advance, hfs, hf] using h⟩
    | some f =>
      by_cases hend : f.chunk.code.size ≤ fr.ip
      · refine ⟨m', ?_, ?_⟩
        · simp only [advance, hfs, hframes, hf, hend, if_true]
          split <;> rfl
        · simp only [advance, hfs, hf, hend, if_true]
          split <;> exact h
      have hstep := twins_of_step (x := Exec.step p fr.function f) hc h
      have hkeeps : Keeps (Invariant (Counted z X S)) (Exec.step p fr.function f) := inferInstance
      cases hs : Exec.step p fr.function f m with
      | error e t =>
        rw [hs] at hstep
        have hadvance : m.advance p = (.failed ⟨e, p.sourceLine fr.function fr.ip⟩, t) := by
          simp only [advance, hfs, hf, hend, if_false, hs]
        rw [hadvance] at hfits ⊢
        rcases hstep with hfault | ⟨t', hs', ht⟩
        · exact absurd ⟨_, rfl, hfault⟩ hfits
        · exact ⟨t', by simp only [advance, hframes, hf, hend, if_false, hs'], ht⟩
      | ok u t =>
        rw [hs] at hstep
        obtain ⟨t', hs', ht⟩ := hstep
        have hlive : ∀ v ∈ t.stack.toList, Exec.Live v t :=
          fun v hv => Exec.live_of_stack (hkeeps.of_ok hs hm) hv
        obtain ⟨d, hd, hadvance⟩ := advance_of_step hfs hf (by omega) hs hlive ht.stream
        obtain ⟨d', hd', hadvance'⟩ :
            ∃ d', d'.limit = none ∧ m'.advance p = (.running, t'.under t'.config d') := by
          obtain ⟨d₁, hd₁, rfl⟩ := id ht.same
          exact advance_of_step hframes hf (by omega) hs' hlive hd₁
        rw [hadvance, hadvance']
        exact ⟨_, rfl, ht.traced hd hd'⟩

theorem runFor_twins (turns : Nat) (hm : m.Counted z X S) (hc : c.Within c') (h : Twins c c' m m')
    (hfits : ¬ (m.runFor p turns).1.Overflows) :
    ∃ t, m'.runFor p turns = ((m.runFor p turns).1, t) ∧ Twins c c' (m.runFor p turns).2 t := by
  induction turns generalizing m m' with
  | zero => exact ⟨m', rfl, h⟩
  | succ turns ih =>
    have hnext := advance_counted p hm
    have hadvance := advance_twins (p := p) hm hc h
    simp only [runFor] at hfits ⊢
    cases ha : m.advance p with
    | mk outcome m₁ =>
      rw [ha] at hfits hnext hadvance
      cases outcome with
      | running =>
        obtain ⟨m₁', ha', h₁⟩ := hadvance (by rintro ⟨_, h, _⟩; cases h)
        simp only [ha']
        exact ih hnext h₁ hfits
      | finished | failed =>
        obtain ⟨m₁', ha', h₁⟩ := hadvance hfits
        simp only [ha']
        exact ⟨m₁', rfl, h₁⟩

theorem interpret_twins (hp : p.Resolves) (turns : Nat) (hm : m.Rests S) (hc : c.Within c')
    (h : Twins c c' m m') (hfits : ¬ (m.interpret p turns).1.Overflows) :
    ∃ t, m'.interpret p turns = ((m.interpret p turns).1, t) ∧
      Twins c c' (m.interpret p turns).2 t := by
  obtain ⟨k, b, n, hm, hunbound⟩ := hm
  have hcounted := Exec.load_yields p m ⟨hm, hunbound⟩
  have hload := twins_of_step (x := Exec.load p) hc h
  cases hl : Exec.load p m with
  | error e m₁ =>
    rw [hl] at hcounted
    exact absurd hp hcounted.2.1
  | ok u m₁ =>
    rw [hl] at hcounted hload
    obtain ⟨m₁', hl', h₁⟩ := hload
    have hrun := runFor_twins (p := p) turns hcounted hc h₁
    simp only [interpret, hl, hl'] at hfits ⊢
    cases hr : m₁.runFor p turns with
    | mk outcome m₂ =>
      rw [hr] at hfits hrun
      cases outcome with
      | running | failed =>
        obtain ⟨m₂', hr', h₂⟩ := hrun hfits
        simp only [hr']
        exact ⟨m₂', rfl, h₂⟩
      | finished =>
        obtain ⟨m₂', hr', h₂⟩ := hrun (by rintro ⟨_, h, _⟩; cases h)
        simp only [hr']
        refine ⟨_, rfl, h₂.config, h₂.stream, ?_⟩
        obtain ⟨d, hd, rfl⟩ := h₂.same
        exact ⟨d, hd, rfl⟩

theorem interpretAll_twins (runs : List (Program × Nat)) (hp : ∀ run ∈ runs, run.1.Resolves)
    (hm : m.Rests S) (hc : c.Within c') (h : Twins c c' m m')
    (hfits : ∀ o ∈ (m.interpretAll runs).1, ¬ o.Overflows) :
    ∃ t, m'.interpretAll runs = ((m.interpretAll runs).1, t) ∧
      Twins c c' (m.interpretAll runs).2 t := by
  induction runs generalizing m m' with
  | nil => exact ⟨m', rfl, h⟩
  | cons run rest ih =>
    obtain ⟨p, turns⟩ := run
    obtain ⟨hp, hrest⟩ := List.forall_mem_cons.mp hp
    obtain ⟨hfirst, hothers⟩ := List.forall_mem_cons.mp hfits
    obtain ⟨m₁, hrun, h₁⟩ := interpret_twins hp turns hm hc h hfirst
    obtain ⟨t, hall, ht⟩ := ih hrest (rests_interpret hp turns hm) h₁ hothers
    refine ⟨t, ?_, ht⟩
    simp only [interpretAll, hrun, hall]

/-! How much room a run takes. -/

/-- Stack and calls are within the limits. A script is one call. -/
structure Confined (c : Config) (m : Machine) : Prop where
  config : m.config = c
  stack : m.stack.size ≤ c.stackCapacity
  calls : m.frames.length ≤ max 1 c.maxCallDepth

theorem advance_calls (m : Machine) :
    (m.advance p).2.frames.length ≤ max m.frames.length m.config.maxCallDepth := by
  have hstay : m.frames.length ≤ max m.frames.length m.config.maxCallDepth := le_max_left ..
  unfold advance
  split
  · exact hstay
  · next fr rest hframes =>
    split
    · exact hstay
    · next f hf =>
      split
      · split <;> exact hstay
      · have hstep := Exec.step_depth p fr.function f m
        have htrace : Keeps Steady (Exec.trace fr.ip) := inferInstance
        unfold after at hstep
        split
        · next hs =>
          rwa [hs] at hstep
        · next m₁ hs =>
          rw [hs] at hstep
          split
          · split
            · next ht => rwa [show _ = m₁.frames from htrace.of_error ht]
            · next ht => rwa [show _ = m₁.frames from htrace.of_ok ht]
          · exact hstep

theorem runFor_calls (turns : Nat) (hm : m.Counted z X S)
    (hcalls : m.frames.length ≤ max 1 z.config.maxCallDepth) :
    (m.runFor p turns).2.frames.length ≤ max 1 z.config.maxCallDepth := by
  induction turns generalizing m with
  | zero => exact hcalls
  | succ turns ih =>
    have hnext := advance_counted p hm
    have hadvance := advance_calls (p := p) m
    rw [hm.config] at hadvance
    unfold runFor
    split
    · next m₁ ha =>
      rw [ha] at hnext hadvance
      exact ih hnext (by dsimp only at hadvance; omega)
    · omega

theorem interpret_confined (hp : p.Resolves) (turns : Nat) (hm : m.Rests S) (h : m.Confined c) :
    (m.interpret p turns).2.Confined c := by
  obtain ⟨k, b, n, hm, hunbound⟩ := hm
  have hk : k = c := hm.config.symm.trans h.config
  subst k
  have hload := Exec.load_yields p m ⟨hm, hunbound⟩
  have hmoves := Exec.load_moves p m.frames m rfl
  unfold interpret
  cases hl : Exec.load p m with
  | error e m₁ =>
    rw [hl] at hload
    exact absurd hp hload.2.1
  | ok u m₁ =>
    rw [hl] at hload hmoves
    have hrun := runFor_counted p turns hload
    have hcalls := runFor_calls (p := p) turns hload (by rw [hmoves]; exact le_max_left ..)
    dsimp only
    split
    · next m₂ hr =>
      rw [hr] at hrun
      exact ⟨hrun.config, hrun.room, Nat.zero_le _⟩
    · exact ⟨hrun.config, hrun.room, hcalls⟩

theorem interpretAll_confined (runs : List (Program × Nat)) (hp : ∀ run ∈ runs, run.1.Resolves)
    (hm : m.Rests S) (h : m.Confined c) : (m.interpretAll runs).2.Confined c := by
  induction runs generalizing m with
  | nil => exact h
  | cons run rest ih =>
    obtain ⟨hp, hrest⟩ := List.forall_mem_cons.mp hp
    exact ih hrest (rests_interpret hp run.2 hm) (interpret_confined hp run.2 hm h)

/-- Programs run one after another keep to their limits. If none of the runs fails at a limit, then
under wider limits, traced or not, all of them come out the same, and so does the machine, but for
its settings and the stream that is traced to. -/
theorem limits_indifferent (c : Config) (world : World) (runs : List (Program × Nat))
    (hp : ∀ run ∈ runs, run.1.Resolves) :
    let result := (new c world).interpretAll runs
    result.2.stack.size ≤ c.stackCapacity ∧
      (1 ≤ c.maxCallDepth → result.2.frames.length ≤ c.maxCallDepth) ∧
      ∀ c' d, c.Within c' → world.diagnostics.limit = none → d.limit = none →
        (∀ o ∈ result.1, ¬ o.Overflows) →
          ∃ d', (new c' {world with diagnostics := d}).interpretAll runs =
            (result.1, result.2.under c' d') := by
  intro result
  have hrests : (new c world).Rests fun _ => False := rests_new c world
  have hconfined := interpretAll_confined runs hp hrests ⟨rfl, Nat.zero_le _, Nat.zero_le _⟩
  refine ⟨hconfined.stack, fun hdepth => ?_, fun c' d hc hworld hd hfits => ?_⟩
  · have hcalls : _ ≤ max 1 c.maxCallDepth := hconfined.calls
    rwa [max_eq_right hdepth] at hcalls
  · obtain ⟨t, hall, ht⟩ := interpretAll_twins runs hp hrests hc
      ⟨rfl, hworld, d, hd, rfl⟩ hfits
    obtain ⟨d', _, rfl⟩ := ht.same
    exact ⟨d', hall⟩

/-- Limits that the runs below just keep to. -/
def tight : Config := {stackCapacity := 3, maxCallDepth := 2}

/-- One run is stopped inside of a call, the other fails. -/
def tightRuns : List (Program × Nat) := [(calling, 5), (joining, 9)]

theorem tightRuns_resolve : ∀ run ∈ tightRuns, run.1.Resolves := by decide

theorem tightRuns_outcomes : ((new tight quiet).interpretAll tightRuns).1 =
    [.running, .failed ⟨.negate "STRING \"rats\"", 1⟩] := by
  decide +kernel

theorem tightRuns_fit : ∀ o ∈ ((new tight quiet).interpretAll tightRuns).1, ¬ o.Overflows := by
  rw [tightRuns_outcomes]
  rintro o ho ⟨f, rfl, hfault⟩
  simp only [List.mem_cons, reduceCtorEq, Outcome.failed.injEq, List.not_mem_nil, or_false,
    false_or] at ho
  rw [ho] at hfault
  cases hfault

/-- The same runs under wider limits and traced. -/
theorem limits_indifferent_tight :
    (∀ run ∈ tightRuns, run.1.Resolves) ∧ tight.Within {trace := true} ∧
      (∀ o ∈ ((new tight quiet).interpretAll tightRuns).1, ¬ o.Overflows) ∧
      ∃ d', (new {trace := true} {quiet with diagnostics := .empty}).interpretAll tightRuns =
        (((new tight quiet).interpretAll tightRuns).1,
          ((new tight quiet).interpretAll tightRuns).2.under {trace := true} d') :=
  ⟨tightRuns_resolve, by decide, tightRuns_fit,
    (limits_indifferent tight quiet tightRuns tightRuns_resolve).2.2 {trace := true} .empty (by decide)
      rfl rfl tightRuns_fit⟩

end Machine
end RatScript
