import RatScript.Compile.Statement
import RatScript.Proofs.Machine.Cells
import RatScript.Proofs.Machine.SelfJoin

/-!
A failing instruction leaves the machine as it was, but for the pointer of the innermost call and
the world around it. What an instruction changes it changes when nothing more can fail, with two
exceptions: a variable is counted up or down before there is known to be room for its value, and a
text may be added to the very cell it is taken from.
-/

namespace RatScript

open Stateful

/-- The same calls, but for the pointer of the innermost. -/
def Frame.Repointed : List Frame → List Frame → Prop
  | [], [] => True
  | fr :: rest, fr' :: rest' => fr' = {fr with ip := fr'.ip} ∧ rest' = rest
  | _, _ => False

def Opcode.isCount : Opcode → Bool
  | count _ _ => true
  | _ => false

namespace Machine

/-- The same machine, but for the pointer of the innermost call and the world around it. -/
def Intact (m m' : Machine) : Prop :=
  m' = {m with frames := m'.frames, world := m'.world} ∧ Frame.Repointed m.frames m'.frames

namespace Intact

variable {m m' m'' : Machine}

theorem refl (m : Machine) : m.Intact m := by
  refine ⟨rfl, ?_⟩
  cases m.frames with
  | nil => trivial
  | cons fr rest => exact ⟨rfl, rfl⟩

theorem trans (h : m.Intact m') (k : m'.Intact m'') : m.Intact m'' := by
  obtain ⟨hsame, hframes⟩ := h
  obtain ⟨ksame, kframes⟩ := k
  refine ⟨by rw [ksame, hsame], ?_⟩
  generalize m.frames = fs at hframes ⊢
  generalize m'.frames = gs at hframes kframes
  generalize m''.frames = hs at kframes ⊢
  cases fs <;> cases gs <;> cases hs <;>
    first
      | trivial
      | exact hframes.elim
      | exact kframes.elim
      | exact ⟨by rw [kframes.1, hframes.1], kframes.2.trans hframes.2⟩

instance : Std.Refl Intact := ⟨refl⟩

instance : Trans Intact Intact Intact := ⟨trans⟩

theorem stack (h : m.Intact m') : m'.stack = m.stack := by rw [h.1]

theorem world (m : Machine) (world : World) : m.Intact {m with world := world} :=
  ⟨rfl, (refl m).2⟩

theorem counted {z : Setting} {X : List Value} {S : Handle → Prop} (h : m.Intact m')
    (hm : m.Counted z X S) : m'.Counted z X S := by
  obtain ⟨hsame, hframes⟩ := h
  rw [hsame]
  refine hm.move rfl rfl hm.pinned rfl (fun _ => rfl) hm.named hm.room ?_
  have hbases := hm.bases
  change ∀ f ∈ m'.frames, _
  generalize m.frames = fs at hframes hbases
  generalize m'.frames = gs at hframes ⊢
  cases fs with
  | nil =>
    cases gs with
    | nil => exact hbases
    | cons fr rest => exact hframes.elim
  | cons fr rest =>
    cases gs with
    | nil => exact hframes.elim
    | cons fr' rest' =>
      obtain ⟨hfr, rfl⟩ := hframes
      obtain ⟨hbase, hrest⟩ := List.forall_mem_cons.mp hbases
      refine List.forall_mem_cons.mpr ⟨?_, hrest⟩
      rw [hfr]
      exact hbase

end Intact

/-- The next turn counts a variable, and the stack is full. -/
def CountsFull (p : Program) (m : Machine) : Prop :=
  ∃ fr ∈ m.frames.head?, ∃ f ∈ p.function? fr.function,
    ∃ op ∈ f.chunk.code[fr.ip]?.bind Opcode.ofByte?,
      op.isCount ∧ ¬ m.stack.size < m.config.stackCapacity

instance (p : Program) (m : Machine) : Decidable (m.CountsFull p) := by
  unfold CountsFull
  infer_instance

end Machine

namespace Exec

open Machine

variable {α β : Type} {z : Setting} {X : List Value} {S : Handle → Prop} {m m' : Machine}
  {v w : Value} {φ : Fault → Prop}

/-! Parts that leave the machine as it was. -/

instance (ip : Nat) : Keeps Intact (setIp ip) := by
  refine Keeps.modify fun m => ?_
  unfold Intact
  cases hframes : m.frames with
  | nil => exact ⟨rfl, by simp [hframes, Frame.Repointed]⟩
  | cons fr rest => exact ⟨rfl, rfl, rfl⟩

instance (text : String) : Keeps Intact (writeLine text) :=
  Keeps.seq (Keeps.modifyGet fun m => .world m _) fun _ => inferInstance

instance : Keeps Intact readLine := by
  refine Keeps.seq (Keeps.modifyGet fun m => .world m _) fun line => ?_
  split <;> infer_instance

instance (files : Files) : Keeps Intact (setFiles files) :=
  Keeps.modify fun m => .world m _

/-- If the part fails, then it has changed nothing, or it fails in one of the excepted ways. -/
def Atomic (φ : Fault → Prop) (x : Exec α) (m : Machine) : Prop :=
  Yields (· = m) x (fun _ _ => True) fun e m' => m.Intact m' ∨ φ e

namespace Atomic

theorem of_keeps {x : Exec α} [hx : Keeps Intact x] : Atomic φ x m := by
  rintro m rfl
  cases h : x m with
  | ok a m' => trivial
  | error e m' => exact .inl (hx.of_error h)

theorem throw (e : Fault) : Atomic φ (throw e : Exec α) m := of_keeps

theorem of_yields {P : Machine → Prop} {Q : α → Machine → Prop} {x : Exec α} (hm : P m)
    (hx : Yields P x Q fun _ _ => False) : Atomic φ x m :=
  (Yields.start hm hx).mono (fun _ h => h) (fun _ _ _ => trivial) fun _ _ h => h.elim

/-- What follows a part that leaves the machine as it was. -/
theorem onward {x : Exec α} [hx : Keeps Intact x] {f : α → Exec β}
    (hf : ∀ a m', x m = .ok a m' → m.Intact m' → Atomic φ (f a) m') : Atomic φ (x >>= f) m := by
  rintro m rfl
  simp only [Bind.bind, EStateM.bind]
  cases hs : x m with
  | error e m' => exact .inl (hx.of_error hs)
  | ok a m' =>
    have hsame := hx.of_ok hs
    have h := hf a m' hs hsame m' rfl
    dsimp only
    cases hfs : f a m' with
    | ok b m'' => trivial
    | error e m'' =>
      rw [hfs] at h
      exact h.imp_left hsame.trans

/-- What follows a part that looks something up. -/
theorem find {x : Exec α} [hk : Keeps Intact x] {ψ : α → Prop} {f : α → Exec β}
    (hx : Careful (· = m) x fun a m' => m' = m ∧ ψ a) (hf : ∀ a, ψ a → Atomic φ (f a) m) :
    Atomic φ (x >>= f) m := by
  refine onward fun a m' h _ => ?_
  have hfound := hx m rfl
  rw [h] at hfound
  obtain ⟨rfl, ha⟩ := hfound
  exact hf a ha

theorem look {x : Exec α} [hx : Keeps Eq x] [Keeps Intact x] {f : α → Exec β}
    (hf : ∀ a, Atomic φ (f a) m) : Atomic φ (x >>= f) m := by
  refine onward fun a m' h _ => ?_
  obtain rfl := hx.of_ok h
  exact hf a

theorem get_bind {f : Machine → Exec α} (hf : Atomic φ (f m) m) : Atomic φ (get >>= f) m := by
  rintro m rfl
  exact hf m rfl

/-- What follows a part that may fail, if nothing behind it can. -/
theorem last {x : Exec α} {f : α → Exec β} (hx : Atomic φ x m)
    (hf : ∀ a m', x m = .ok a m' → ∃ b m'', f a m' = .ok b m'') : Atomic φ (x >>= f) m := by
  rintro m rfl
  have h := hx m rfl
  simp only [Bind.bind, EStateM.bind]
  cases hs : x m with
  | error e m' =>
    rw [hs] at h
    exact h
  | ok a m' =>
    obtain ⟨b, m'', hok⟩ := hf a m' hs
    dsimp only
    rw [hok]
    trivial

end Atomic

/-! Parts that succeed. -/

theorem push_ok (hm : m.Counted z X (Loose S v)) (hv : Live v m)
    (hroom : m.stack.size < z.config.stackCapacity) :
    ∃ m', push v m = .ok () m' ∧ m'.Counted z X S := by
  have hpush : Yields
      (fun m => m.Counted z X (Loose S v) ∧ Live v m ∧ m.stack.size < z.config.stackCapacity)
      (push v) (fun _ => Counted z X S) fun _ _ => False := by
    apply push_of_retain
    · rintro m ⟨hm, _, hroom⟩
      rwa [hm.config]
    · exact (retain_live (aside_size (P := (· < z.config.stackCapacity))) v).mono (fun _ h => h)
        (fun _ _ h => counted_push h.1 h.2) fun _ _ h => h
  obtain ⟨_, m', hok, hm'⟩ := hpush.succeeds ⟨hm, hv, hroom⟩
  exact ⟨m', hok, hm'⟩

theorem storeGlobal_ok (name : String) (hm : m.Counted z X (Loose S v)) (hv : Live v m) :
    ∃ m', storeGlobal name v m = .ok () m' ∧ m'.Counted z X S ∧ m'.stack = m.stack ∧
      m'.globals.get? name = some v := by
  have hretain := retain_live (z := z) (X := X) (S := S) (F := fun _ => True) (fun _ _ h => h) v
    (E := fun _ _ => False)
  obtain ⟨_, m', hok, hm'⟩ := (storeGlobal_of_retain name (hretain.mono (fun _ h => h)
    (fun _ _ h => h.1) fun _ _ h => h)).succeeds ⟨hm, hv, trivial⟩
  have hcells : Keeps SameCells (storeGlobal name v) := inferInstance
  exact ⟨m', hok, hm', (hcells.of_ok hok).1, (storeGlobal_changes hok _).trans (if_pos rfl)⟩

theorem storeLocal_ok {slot : UInt8} {index : Nat} (hm : m.Counted z X (Loose S v)) (hv : Live v m)
    (hcell : HasCell slot index m) :
    ∃ m', storeLocal slot v m = .ok () m' ∧ m'.Counted z X S ∧
      m'.stack = m.stack.setIfInBounds index v := by
  obtain ⟨_, m', hok, hm'⟩ := (storeLocal_of_retain hcell fun old hold =>
    Yields.start ⟨hm, hv, hold⟩
      (retain_live (aside_stack (P := (·[index]? = some old))) v)).succeeds rfl
  exact ⟨m', hok, hm', (storeLocal_changes hcell hok).1⟩

section
variable (hm : m.Counted z X S)
include hm

theorem pop_ok (hpos : 0 < m.stack.size) : ∃ m', pop m = .ok () m' ∧ m'.Counted z X S ∧
    m'.stack = m.stack.pop ∧ m'.globals = m.globals ∧ m'.frames = m.frames := by
  obtain ⟨n, hn⟩ : ∃ n, m.stack.size = n+1 := ⟨m.stack.size-1, by omega⟩
  obtain ⟨_, m', hok, hm', _⟩ := (pop_yields n).succeeds ⟨hm, hn⟩
  obtain ⟨_, _, _, rfl⟩ := pop_changes hok
  exact ⟨_, hok, hm', rfl, rfl, rfl⟩

theorem pushText_ok (content : String) (hroom : m.stack.size < z.config.stackCapacity) :
    ∃ m', pushText content m = .ok () m' ∧ m'.Counted z X S := by
  obtain ⟨v, m₁, hnew, hm₁, hfresh, hsize⟩ := (newText_yields
    (aside_size (P := (· < z.config.stackCapacity))) content).succeeds ⟨hm, hroom⟩
  obtain ⟨m', hpush, hm'⟩ := push_ok hm₁ hfresh.live hsize
  have hstart : pushText content m = (newText content >>= push) m := by
    change (if m.stack.size < m.config.stackCapacity then _ else _ : Exec Unit) m = _
    rw [if_pos (by rw [hm.config]; exact hroom)]
  exact ⟨m', hstart ▸ bind_eq_ok.mpr ⟨v, m₁, hnew, hpush⟩, hm'⟩

/-- The value on top makes room for another. -/
theorem pop_push_ok (hpos : 0 < m.stack.size) (hv : ∀ m', pop m = .ok () m' → Live v m') :
    ∃ m', replaceTop v m = .ok () m' ∧ m'.Counted z X S := by
  obtain ⟨m₁, hpop, hm₁, hstack, _⟩ := pop_ok hm hpos
  have hroom := hm.room
  have hlow : m₁.stack.size < z.config.stackCapacity := by
    rw [hstack, Array.size_pop]
    omega
  obtain ⟨m', hpush, hm'⟩ := push_ok (hm₁.loose v) (hv m₁ hpop) hlow
  exact ⟨m', bind_eq_ok.mpr ⟨(), m₁, hpop, hpush⟩, hm'⟩

theorem pop_pushText_ok (content : String) (hpos : 0 < m.stack.size) :
    ∃ m', (do pop; pushText content : Exec Unit) m = .ok () m' := by
  obtain ⟨m₁, hpop, hm₁, hstack, _⟩ := pop_ok hm hpos
  have hroom := hm.room
  have hlow : m₁.stack.size < z.config.stackCapacity := by
    rw [hstack, Array.size_pop]
    omega
  obtain ⟨m', hpush, _⟩ := pushText_ok hm₁ content hlow
  exact ⟨m', bind_eq_ok.mpr ⟨(), m₁, hpop, hpush⟩⟩

/-- Two values make room for one that they are not needed for. -/
theorem pop_pop_push_ok (hsize : 1 < m.stack.size)
    (hv : Fresh z v m ∨ ∀ r, v ≠ .object r) :
    ∃ m', (do pop; pop; push v : Exec Unit) m = .ok () m' := by
  obtain ⟨m₁, hpop, hm₁, hstack, _⟩ := pop_ok hm (by omega)
  have hsize₁ : m₁.stack.size+1 = m.stack.size := by
    rw [hstack, Array.size_pop]
    omega
  have hlive (m₂ : Machine) (hpop₂ : pop m₁ = .ok () m₂) : Live v m₂ := by
    rcases hv with hfresh | hplain
    · exact (pop_fresh hm₁.sound (pop_fresh hm.sound hfresh hpop) hpop₂).live
    · exact live_of_plain hplain
  obtain ⟨m', hok, _⟩ := pop_push_ok hm₁ (by omega) hlive
  exact ⟨m', bind_eq_ok.mpr ⟨(), m₁, hpop, hok⟩⟩

theorem collapse_ok {base : Nat} (hbase : base < z.config.stackCapacity) (hv : Live v m) :
    ∃ m', collapse base v m = .ok () m' := by
  have hretain := retain_live (z := z) (X := X) (S := S) (F := fun _ => True) (fun _ _ h => h) v
    (E := fun _ _ => False)
  obtain ⟨_, m', hok, _⟩ := (collapse_of_retain hbase (hretain.mono (fun _ h => h)
    (fun _ _ h => h.1) fun _ _ h => h)).succeeds ⟨hm.loose v, hv, trivial⟩
  exact ⟨m', hok⟩

end

/-! Parts that fail at once or not at all. -/

theorem Atomic.of_ok {x : Exec Unit} (h : ∃ m', x m = .ok () m') : Atomic φ x m := by
  obtain ⟨m', hok⟩ := h
  rintro m rfl
  rw [hok]
  trivial

theorem Atomic.peek {distance : Nat} {f : Value → Exec α}
    (hf : ∀ v, distance < m.stack.size → v ∈ m.stack.toList → Atomic φ (f v) m) :
    Atomic φ (peek distance >>= f) m := by
  refine onward fun v m' h _ => ?_
  have hfound := peek_finds distance m rfl
  rw [h] at hfound
  obtain ⟨rfl, hv⟩ := hfound
  exact hf v (size_of_peek h) hv

theorem Atomic.textArgument {native : Native} {distance : Nat} {f : String → Exec α}
    (hf : ∀ content, distance < m.stack.size → Atomic φ (f content) m) :
    Atomic φ (textArgument native distance >>= f) m := by
  refine onward fun content m' h _ => ?_
  have hkeeps : Keeps Eq (Exec.textArgument native distance) := inferInstance
  obtain rfl := hkeeps.of_ok h
  obtain ⟨v, _, hpeek, _⟩ := bind_eq_ok.mp h
  exact hf content (size_of_peek hpeek)

section
variable (hm : m.Counted z X S)
include hm

theorem push_atomic (hv : Live v m) : Atomic φ (push v) m := by
  by_cases hroom : m.stack.size < z.config.stackCapacity
  · obtain ⟨m', hok, _⟩ := push_ok (hm.loose v) hv hroom
    exact .of_ok ⟨m', hok⟩
  · rintro m rfl
    rw [push_full (by rw [hm.config]; omega)]
    exact .inl (.refl m)

theorem pushText_atomic (content : String) : Atomic φ (pushText content) m := by
  by_cases hroom : m.stack.size < z.config.stackCapacity
  · obtain ⟨m', hok, _⟩ := pushText_ok hm content hroom
    exact .of_ok ⟨m', hok⟩
  · refine .get_bind ?_
    rw [if_neg (by rw [hm.config]; exact hroom)]
    exact .throw _

theorem pop_atomic : Atomic φ pop m := by
  cases hsize : m.stack.size with
  | zero =>
    rintro m rfl
    rw [pop_empty hsize]
    exact .inl (.refl m)
  | succ n =>
    obtain ⟨m', hok, _⟩ := pop_ok hm (by omega)
    exact .of_ok ⟨m', hok⟩

theorem replaceTop_atomic (hpos : 0 < m.stack.size) (hv : ∀ r, v ≠ .object r) :
    Atomic φ (replaceTop v) m := by
  obtain ⟨m', hok, _⟩ := pop_push_ok hm hpos fun _ _ => live_of_plain hv
  exact .of_ok ⟨m', hok⟩

theorem defineGlobal_atomic (name : String) (hv : Live v m) : Atomic φ (defineGlobal name v) m := by
  cases hname : m.globals.get? name with
  | none => exact .of_yields ⟨hm.loose v, hv, rfl⟩ (defineGlobal_live hname v)
  | some old =>
    refine .get_bind ?_
    rw [hname]
    exact .throw _

/-- Nothing is made before the operands are known to fit. -/
theorem apply_atomic (op : Operator) (v w : Value) : Atomic φ (Exec.apply op v w) m := by
  unfold Exec.apply
  split
  · split <;> exact .of_keeps
  · split
    · exact .of_keeps
    · split
      · refine .look fun left => .look fun right => ?_
        split
        · exact .of_yields ⟨hm, trivial⟩ (newText_yields (F := fun _ => True) (fun _ _ h => h) _)
        · exact .of_keeps
      · exact .of_keeps

theorem runNative_atomic (native : Native) : Atomic φ (runNative native) m := by
  unfold runNative
  cases native with
  | input => exact .onward fun line m' _ hm' => pushText_atomic (hm'.counted hm) line
  | print =>
    exact .peek fun v hpos _ => .look fun text => .onward fun _ m' _ hm' =>
      replaceTop_atomic (hm'.counted hm) (hm'.stack ▸ hpos) fun _ h => by cases h
  | readFile =>
    refine .textArgument fun path hpos => .get_bind ?_
    split
    · exact .throw _
    · exact .of_ok (pop_pushText_ok hm _ hpos)
  | writeFile =>
    refine .textArgument fun path hsize => .look fun v => .look fun content => .get_bind ?_
    split
    · exact .throw _
    · refine .onward fun _ m' _ hm' => .of_ok ?_
      exact pop_pop_push_ok (hm'.counted hm) (hm'.stack ▸ hsize) (.inr fun _ h => by cases h)
  | emptyFile =>
    refine .textArgument fun path hpos => .get_bind ?_
    split
    · exact .throw _
    · exact .onward fun _ m' _ hm' =>
        replaceTop_atomic (hm'.counted hm) (hm'.stack ▸ hpos) fun _ h => by cases h
  | toNumber =>
    exact .peek fun v hpos _ => .look fun n => replaceTop_atomic hm hpos fun _ h => by cases h
  | toBool =>
    exact .peek fun v hpos _ => .look fun b => replaceTop_atomic hm hpos fun _ h => by cases h
  | toText => exact .peek fun v hpos _ => .look fun text => .of_ok (pop_pushText_ok hm text hpos)
  | typeOf => exact .peek fun v hpos _ => .look fun kind => .of_ok (pop_pushText_ok hm kind hpos)

/-- What a native leaves on top takes the place of its arguments. -/
theorem callNative_atomic (name : String) (arguments : Nat) :
    Atomic φ (callNative name arguments) m := by
  refine .look fun v => .look fun o => ?_
  split
  · next native =>
    split
    · exact .throw _
    · next harity =>
      refine .get_bind ?_
      dsimp only
      split
      · exact .throw _
      · have hroom := hm.room
        refine .last (runNative_atomic hm native) fun _ m' hrun => ?_
        have hkeeps : Keeps (Invariant (Counted z X S)) (runNative native) := inferInstance
        have hm' := hkeeps.of_ok hrun hm
        have hleaves : Leaves (Over (fun _ => True) [] (1+Native.arity native)) (runNative native)
            (Over (fun _ => True) [] 1) :=
          runNative_leaves native
        have hover := hleaves m ⟨List.nil_prefix, by simp; omega, fun _ _ => trivial⟩
        rw [hrun] at hover
        have hpos : 0 < m'.stack.size := hover.room
        obtain ⟨w, hw⟩ : ∃ w, m'.stack.back? = some w :=
          ⟨m'.stack[m'.stack.size-1], by rw [Array.back?_eq_getElem?, Array.getElem?_eq_getElem]⟩
        have hlive : Live w m' :=
          live_of_stack hm' (Array.mem_toList_iff.mpr (Array.mem_of_back? hw))
        have hbase : m.stack.size-(arguments+1) < z.config.stackCapacity := by omega
        obtain ⟨m'', hok⟩ := collapse_ok hm' hbase hlive
        exact ⟨(), m'', bind_eq_ok.mpr ⟨w, m', peek_top hw, hok⟩⟩
  · exact .throw _

theorem ret_atomic : Atomic φ ret m := by
  refine .peek fun v hpos hv => .get_bind ?_
  split
  · next fr g rest hframes =>
    have hbase : fr.base < z.config.stackCapacity := by
      have h := hm.bases fr (by simp [hframes])
      have hroom := hm.room
      omega
    obtain ⟨m', hok⟩ := collapse_ok hm hbase (live_of_stack hm hv)
    exact .of_ok ⟨_, bind_eq_ok.mpr ⟨(), m', hok, modify_eq_ok.mpr rfl⟩⟩
  · exact .throw _

theorem countDown_atomic {fr : Frame} {rest : List Frame} (hframes : m.frames = fr :: rest) :
    Atomic φ countDown m := by
  refine .peek fun v hpos _ => ?_
  split
  · dsimp only
    split
    · obtain ⟨m', hpop, _, _, _, hsame⟩ := pop_ok hm hpos
      have hframe : frame m' = .ok fr m' := by
        simp only [frame, bind, EStateM.bind, get, getThe, MonadStateOf.get, EStateM.get, hsame,
          hframes]
        rfl
      exact .of_ok ⟨_, bind_eq_ok.mpr ⟨(), m', hpop, bind_eq_ok.mpr ⟨fr, m', hframe,
        modify_eq_ok.mpr rfl⟩⟩⟩
    · exact replaceTop_atomic hm hpos fun _ h => by cases h
  · exact .throw _

theorem defineRunnable_atomic (id : Nat) (index : UInt8) :
    Atomic φ (defineRunnable id index) m := by
  refine .find (constant_finds id index) fun v hv => .look fun o => ?_
  split
  · exact defineGlobal_atomic hm _ (live_of_held hm (List.mem_append_right _ hv))
  · exact .throw _

end

theorem call_atomic (p : Program) (name : String) : Atomic φ (call p name) m := by
  refine .look fun v => .look fun o => ?_
  split
  · split
    · exact .throw _
    · refine .get_bind ?_
      split
      · exact .throw _
      · split
        · exact .throw _
        · exact .of_ok ⟨_, modify_eq_ok.mpr rfl⟩
  · exact .throw _

/-! Instructions that compute. -/

section
variable (hm : m.Counted z X S) (hv : Live v m) (hw : Live w m)
include hm hv hw

theorem operator_atomic (op : Operator) (hsize : 1 < m.stack.size) :
    Atomic φ (do let u ← Exec.apply op v w; pop; pop; push u) m := by
  refine .last (apply_atomic hm op v w) fun u m₁ happly => ?_
  have hmakes := apply_makes hm op hv hw m rfl
  rw [happly] at hmakes
  obtain ⟨hm₁, hfresh, ⟨hstack, _⟩, _⟩ := hmakes
  obtain ⟨m', hok⟩ := pop_pop_push_ok hm₁ (hstack ▸ hsize) (.inl hfresh)
  exact ⟨(), m', hok⟩

/-- The global holds the result while its operand goes. -/
theorem compoundGlobal_atomic (op : Operator) (name : String) (hpos : 0 < m.stack.size) :
    Atomic φ (do let u ← Exec.apply op v w; storeGlobal name u; replaceTop u) m := by
  refine .last (apply_atomic hm op v w) fun u m₁ happly => ?_
  have hmakes := apply_makes hm op hv hw m rfl
  rw [happly] at hmakes
  obtain ⟨hm₁, hfresh, ⟨hstack, _⟩, _⟩ := hmakes
  obtain ⟨m₂, hstore, hm₂, hstack₂, hname⟩ := storeGlobal_ok name hm₁ hfresh.live
  have hlive (m₃ : Machine) (hpop : pop m₂ = .ok () m₃) : Live u m₃ := by
    have hkeeps : Keeps (Invariant (Counted z X S)) pop := inferInstance
    have hm₃ := hkeeps.of_ok hpop hm₂
    obtain ⟨_, _, _, rfl⟩ := pop_changes hpop
    exact live_of_get? hm₃ hname
  have hpos₂ : 0 < m₂.stack.size := by rwa [hstack₂, hstack]
  obtain ⟨m', hok, _⟩ := pop_push_ok hm₂ hpos₂ hlive
  exact ⟨(), m', bind_eq_ok.mpr ⟨(), m₂, hstore, hok⟩⟩

/-- The slot holds the result while its operand goes, if it is in another cell. -/
theorem compoundFrame_atomic (op : Operator) {slot : UInt8} {index : Nat} (hpos : 0 < m.stack.size)
    (hcell : HasCell slot index m)
    (hother : index+1 = m.stack.size → ¬ (op = .add ∧ m.heap.isText v)) :
    Atomic φ (do let u ← Exec.apply op v w; storeLocal slot u; replaceTop u) m := by
  refine .last (apply_atomic hm op v w) fun u m₁ happly => ?_
  have hmakes := apply_makes hm op hv hw m rfl
  rw [happly] at hmakes
  obtain ⟨hm₁, hfresh, ⟨hstack, _, hframes⟩, hjoins⟩ := hmakes
  obtain ⟨fr, rest, hfr, hindex, hlt⟩ := hcell
  have hcell₁ : HasCell slot index m₁ := ⟨fr, rest, hframes ▸ hfr, hindex, hstack ▸ hlt⟩
  obtain ⟨m₂, hstore, hm₂, hstack₂⟩ := storeLocal_ok hm₁ hfresh.live hcell₁
  have hlive (m₃ : Machine) (hpop : pop m₂ = .ok () m₃) : Live u m₃ := by
    by_cases hplain : ∀ r, u ≠ .object r
    · exact live_of_plain hplain
    obtain ⟨r, hr⟩ := not_forall_not.mp hplain
    have hbelow : index+1 ≠ m.stack.size := fun htop => hother htop (hjoins r hr)
    have hkeeps : Keeps (Invariant (Counted z X S)) pop := inferInstance
    have hm₃ := hkeeps.of_ok hpop hm₂
    obtain ⟨_, _, _, rfl⟩ := pop_changes hpop
    have hu : m₂.stack.pop[index]? = some u := by
      rw [Array.getElem?_pop, hstack₂, hstack, Array.size_setIfInBounds, if_pos (by omega),
        Array.getElem?_setIfInBounds_self_of_lt hlt]
    exact live_of_stack hm₃ (Array.mem_toList_iff.mpr (Array.mem_of_getElem? hu))
  have hpos₂ : 0 < m₂.stack.size := by rwa [hstack₂, Array.size_setIfInBounds, hstack]
  obtain ⟨m', hok, _⟩ := pop_push_ok hm₂ hpos₂ hlive
  exact ⟨(), m', bind_eq_ok.mpr ⟨(), m₂, hstore, hok⟩⟩

end

/-- A count stores its value before it asks for room. -/
theorem count_atomic {store : Exec Unit} (hv : ∀ r, v ≠ .object r)
    (hstore : ∃ m', store m = .ok () m' ∧ m'.Counted z X S ∧ m'.stack.size = m.stack.size)
    (hroom : m.stack.size < z.config.stackCapacity ∨ φ (.stackOverflow z.config.stackCapacity)) :
    Atomic φ (do store; push v) m := by
  obtain ⟨m₁, hok, hm₁, hsize⟩ := hstore
  by_cases hlow : m.stack.size < z.config.stackCapacity
  · obtain ⟨m', hpush, _⟩ := push_ok (hm₁.loose v) (live_of_plain hv) (by omega)
    exact .of_ok ⟨m', bind_eq_ok.mpr ⟨(), m₁, hok, hpush⟩⟩
  · have hpush := push_full (m := m₁) (by rw [hm₁.config]; omega) v
    rintro m rfl
    rw [bind_eq_error.mpr (.inr ⟨(), m₁, hok, hpush⟩), hm₁.config]
    exact .inr (hroom.resolve_left hlow)

/-- An instruction that does not count without room, if that is not excepted, and does not add to
the very cell of its operand. -/
theorem execute_atomic (p : Program) (id : Nat) (f : Function) (op : Opcode) {fr : Frame}
    {rest : List Frame} (hm : m.Counted z X S) (hframes : m.frames = fr :: rest)
    (hroom : ∀ scope up, op = .count scope up →
      m.stack.size < z.config.stackCapacity ∨ φ (.stackOverflow z.config.stackCapacity))
    (hother : ∀ slot, op = .compound .frame .add → f.chunk.code[fr.ip]? = some slot →
      fr.base+slot.toNat+2 = m.stack.size → ∀ w, m.stack.back? = some w → ¬ m.heap.isText w) :
    Atomic φ (execute p id f op) m := by
  unfold execute
  cases op with
  | newline | jump | loop | repeat_ => exact .of_keeps
  | jumpIf truth => exact .of_keeps
  | pop => exact pop_atomic hm
  | constant =>
    refine .onward fun index m' _ hm' => .find (constant_finds id index) fun v hv => ?_
    exact push_atomic (hm'.counted hm) (live_of_held (hm'.counted hm) (List.mem_append_right _ hv))
  | literal value => 
    refine push_atomic hm (live_of_plain ?_)
    cases value <;> exact fun _ h => by cases h
  | operator op =>
    exact .peek fun v hsize hv => .peek fun w _ hw =>
      operator_atomic hm (live_of_stack hm hv) (live_of_stack hm hw) op hsize
  | test t =>
    refine .peek fun v hsize hv => .peek fun w _ hw =>
      .find (compare_finds t (live_of_stack hm hv) (live_of_stack hm hw)) fun u hu => ?_
    exact .of_ok (pop_pop_push_ok hm hsize (.inr hu))
  | negate =>
    refine .peek fun v hpos _ => ?_
    split
    · exact replaceTop_atomic hm hpos fun _ h => by cases h
    · exact .of_keeps
  | complement =>
    refine .peek fun v hpos _ => ?_
    split
    · exact replaceTop_atomic hm hpos fun _ h => by cases h
    · exact .of_keeps
  | not =>
    exact .peek fun v hpos _ => .look fun b => replaceTop_atomic hm hpos fun _ h => by cases h
  | define =>
    refine .onward fun name m₁ _ hm₁ => .peek fun v hpos hv => ?_
    replace hm₁ := hm₁.counted hm
    refine .last (defineGlobal_atomic hm₁ name (live_of_stack hm₁ hv)) fun _ m₂ hdefine => ?_
    have hkeeps : Keeps (Invariant (Counted z X S)) (defineGlobal name v) := inferInstance
    have hcells : Keeps SameCells (defineGlobal name v) := inferInstance
    obtain ⟨m', hok, _⟩ := pop_ok (hkeeps.of_ok hdefine hm₁) ((hcells.of_ok hdefine).1 ▸ hpos)
    exact ⟨(), m', hok⟩
  | get scope =>
    cases scope with
    | global =>
      refine .onward fun name m' _ hm' => .find (global_finds name) fun v hv => ?_
      exact push_atomic (hm'.counted hm) (live_of_get? (hm'.counted hm) hv)
    | frame =>
      refine .onward fun slot m' _ hm' => .find (loadLocal_finds slot) fun v hv => ?_
      obtain ⟨index, _, hv⟩ := hv
      exact push_atomic (hm'.counted hm) (live_of_cell (hm'.counted hm) hv)
  | set scope =>
    cases scope with
    | global =>
      refine .onward fun name m₁ _ hm₁ => .look fun _ => .peek fun v _ hv => ?_
      replace hm₁ := hm₁.counted hm
      obtain ⟨m', hok, _⟩ := storeGlobal_ok name (hm₁.loose v) (live_of_stack hm₁ hv)
      exact .of_ok ⟨m', hok⟩
    | frame =>
      refine .onward fun slot m₁ _ hm₁ => .peek fun v _ hv => ?_
      replace hm₁ := hm₁.counted hm
      rcases cell_cases slot m₁ with ⟨index, hcell⟩ | ⟨e, he⟩
      · obtain ⟨m', hok, _⟩ := storeLocal_ok (hm₁.loose v) (live_of_stack hm₁ hv) hcell
        exact .of_ok ⟨m', hok⟩
      · rintro m₁ rfl
        simp only [storeLocal, bind, EStateM.bind, he]
        exact .inl (.refl _)
  | count scope up =>
    replace hroom := hroom scope up rfl
    cases scope with
    | global =>
      refine .onward fun name m₁ _ hm₁ => .look fun old =>
        .find (counted_finds up old) fun v hv => ?_
      obtain ⟨m', hok, hm', hstack, _⟩ :=
        storeGlobal_ok name ((hm₁.counted hm).loose v) (live_of_plain hv)
      exact count_atomic hv ⟨m', hok, hm', by rw [hstack]⟩ (hm₁.stack ▸ hroom)
    | frame =>
      refine .onward fun slot m₁ _ hm₁ => .find (loadLocal_finds slot) fun old hold =>
        .find (counted_finds up old) fun v hv => ?_
      obtain ⟨index, hcell, _⟩ := hold
      obtain ⟨m', hok, hm', hstack⟩ :=
        storeLocal_ok ((hm₁.counted hm).loose v) (live_of_plain hv) hcell
      exact count_atomic hv ⟨m', hok, hm', by simp [hstack]⟩ (hm₁.stack ▸ hroom)
  | compound scope op =>
    cases scope with
    | global =>
      refine .onward fun name m₁ _ hm₁ => .find (assignable_finds name) fun old hold =>
        .peek fun w hpos hw => ?_
      replace hm₁ := hm₁.counted hm
      exact compoundGlobal_atomic hm₁ (live_of_get? hm₁ hold) (live_of_stack hm₁ hw) op name hpos
    | frame =>
      refine .onward fun slot m₁ hread hm₁ => .find (loadLocal_finds slot) fun old hold =>
        .peek fun w hpos hw => ?_
      replace hm₁ := hm₁.counted hm
      obtain ⟨index, hcell, hold⟩ := hold
      refine compoundFrame_atomic hm₁ (live_of_cell hm₁ hold) (live_of_stack hm₁ hw) op hpos
        hcell ?_
      rintro htop ⟨rfl, htext⟩
      obtain ⟨_, _, hframes', hslot, rfl⟩ := readByte_changes hread
      rw [hframes] at hframes'
      cases hframes'
      obtain ⟨_, _, hframes', rfl, _⟩ := hcell
      cases hframes'
      refine hother slot rfl hslot htop old ?_ htext
      rw [Array.back?_eq_getElem?, ← hold]
      congr 1
      exact Nat.sub_eq_of_eq_add htop.symm
  | endRepeat => exact countDown_atomic hm hframes
  | defineRunnable =>
    exact .onward fun index m₁ _ hm₁ => .onward fun _ m₂ _ hm₂ =>
      defineRunnable_atomic (hm₂.counted (hm₁.counted hm)) id index
  | call => exact .onward fun name m₁ _ _ => call_atomic p name
  | callNative =>
    exact .onward fun name m₁ _ hm₁ => .onward fun arguments m₂ _ hm₂ =>
      callNative_atomic (hm₂.counted (hm₁.counted hm)) name _
  | ret => exact ret_atomic hm

/-- A failing step leaves the machine as it was, unless a count overflows or a text is added to the
very cell it is in. -/
theorem step_atomic {p : Program} {fr : Frame} {rest : List Frame} {f : Function}
    (hm : m.Counted z X S) (hframes : m.frames = fr :: rest)
    (hf : p.function? fr.function = some f) (hother : ¬ m.JoinsItself p) :
    Atomic (fun e => m.CountsFull p ∧ e = .stackOverflow m.config.stackCapacity)
      (step p fr.function f) m := by
  refine .onward fun byte m' hread hm' => ?_
  obtain ⟨_, _, hframes', hbyte, rfl⟩ := readByte_changes hread
  rw [hframes] at hframes'
  cases hframes'
  have hnext (op : Opcode) (hop : Opcode.ofByte? byte = some op) :
      op ∈ f.chunk.code[fr.ip]?.bind Opcode.ofByte? := by simp [hbyte, hop]
  split
  · next op hop =>
    refine execute_atomic p fr.function f op (hm'.counted hm) rfl ?_ ?_
    · rintro scope up rfl
      rw [or_iff_not_imp_left]
      intro hfull
      refine ⟨⟨fr, by simp [hframes], f, hf, _, hnext _ hop, rfl, ?_⟩, by rw [hm.config]⟩
      rw [hm.config]
      exact hfull
    · rintro slot rfl hslot hsize w hw htext
      exact hother ⟨fr, by simp [hframes], f, hf, slot, hslot, w, hw, hnext _ hop, hsize, htext⟩
  · exact .throw _

end Exec

namespace Machine

/-- Wherever a machine has been stopped in a session, an instruction that fails leaves its stack,
its globals and its heap as they were, and all calls but for the pointer of the innermost. Excepted
are a count on a full stack, which overflows when the variable already has its next value, and the
addition of a text to the very cell it is in. -/
theorem failed_step_intact (config : Config) (world : World) (calls : List Call)
    (hresolves : ∀ p turns, .interpret p turns ∈ calls → p.Resolves) (p : Program) (fr : Frame)
    (rest : List Frame) (f : Function) (e : Fault) (m' : Machine) :
    let m := calls.foldl Call.run (new config world)
    m.frames = fr :: rest → p.function? fr.function = some f →
      Exec.step p fr.function f m = .error e m' →
        m.Intact m' ∨ (m.CountsFull p ∧ e = .stackOverflow m.config.stackCapacity) ∨
          m.JoinsItself p := by
  intro m hframes hf hstep
  by_cases hjoins : m.JoinsItself p
  · exact .inr (.inr hjoins)
  have hrests : m.Rests fun _ => True := rests_calls calls (rests_new config world) hresolves
  obtain ⟨c, b, n, hm, _⟩ := hrests
  have hatomic := Exec.step_atomic hm hframes hf hjoins m rfl
  rw [hstep] at hatomic
  exact hatomic.imp_right .inl

/-- Where a text cannot be negated. -/
theorem failed_step_intact_joining :
    let m := [Call.interpret joining 4].foldl Call.run (new {} quiet)
    ∃ f e m', joining.function? 0 = some f ∧ Exec.step joining 0 f m = .error e m' ∧
      m.Intact m' := by
  intro m
  have hframes : m.frames = [⟨0, 9, 0⟩] := by decide +kernel
  have hfull : ¬ m.CountsFull joining := by decide +kernel
  have hjoins : ¬ m.JoinsItself joining := by decide +kernel
  have hresolves : ∀ p turns, Call.interpret p turns ∈ [Call.interpret joining 4] → p.Resolves := by
    intro p turns h
    rw [List.mem_singleton, Call.interpret.injEq] at h
    rw [h.1]
    decide
  have hfails : (joining.function? 0).any (fun f => fails (Exec.step joining 0 f) m) = true := by
    decide +kernel
  obtain ⟨script, hscript, hfails⟩ := (Option.any_eq_true ..).mp hfails
  obtain ⟨e, m', hstep⟩ := fails_iff.mp hfails
  refine ⟨script, e, m', hscript, hstep, ?_⟩
  rcases failed_step_intact {} quiet _ hresolves joining ⟨0, 9, 0⟩ [] _ e m' hframes hscript
    hstep with
    hintact | ⟨hcounts, _⟩ | hjoined
  · exact hintact
  · exact absurd hcounts hfull
  · exact absurd hjoined hjoins

/-- Calls a runnable that counts its parameter up. -/
def countingUp : Program :=
  ⟨#[⟨"<script>", 0, #[], ⟨#[55, 0, 0, 2, 0, 23, 1, 2, 2, 56, 1, 6, 0],
      #[.runnable 1, .text "f", .number (.ofInt 1)]⟩, none, 0⟩,
    ⟨"f", 1, #["x"], ⟨#[0, 29, 0, 6, 0, 5, 1], #[]⟩, some 0, 2⟩]⟩

/-- Stopped before it counts, with no more cells than the runnable and its argument take. -/
def crowded : Machine := ((new {stackCapacity := 2} quiet).interpret countingUp 6).2

/-- The count fails with the parameter counted. -/
theorem count_spoils :
    (compile "runnable f(x):\nx++\nendrunnable\nf(1)\n").toOption = some countingUp ∧
      ((new {stackCapacity := 2} quiet).interpret countingUp 6).1 = .running ∧
      crowded.frames = [⟨1, 1, 0⟩, ⟨0, 11, 0⟩] ∧
      crowded.stack[1]? = some (.number (.ofInt 1)) ∧
      ∃ f e m', countingUp.function? 1 = some f ∧ Exec.step countingUp 1 f crowded = .error e m' ∧
        m'.stack[1]? = some (.number (.ofInt 2)) ∧ ¬ crowded.Intact m' := by
  have hcell : crowded.stack[1]? = some (.number (.ofInt 1)) := by decide +kernel
  refine ⟨by decide +kernel, by decide +kernel, by decide +kernel, hcell, ?_⟩
  have hrun : (countingUp.function? 1).any (fun f => fails (Exec.step countingUp 1 f) crowded &&
      (after (Exec.step countingUp 1 f) crowded).stack[1]? ==
        some (.number (.ofInt 2))) = true := by
    decide +kernel
  obtain ⟨body, hbody, hrun⟩ := (Option.any_eq_true ..).mp hrun
  rw [Bool.and_eq_true, beq_iff_eq] at hrun
  obtain ⟨e, m', hstep⟩ := fails_iff.mp hrun.1
  have hafter := hrun.2
  rw [after_of_error hstep] at hafter
  refine ⟨body, e, m', hbody, hstep, hafter, fun hintact => ?_⟩
  rw [hintact.stack, hcell] at hafter
  exact absurd hafter (by decide +kernel)

end Machine
end RatScript
