import RatScript.Proofs.Code.HeightRule
import RatScript.Proofs.Machine.Cells
import RatScript.Proofs.Machine.Heights
import RatScript.Proofs.Machine.Pointers

/-!
What calls leave to their callers. From the turn in which a call is made to the one in which it
returns, the cells below it and the calls around it stay as they are, whatever is called meanwhile;
it leaves one result in their place.
-/

namespace RatScript

open Stateful

namespace Machine

/-- The stack is the same. -/
def SameStack (m m' : Machine) : Prop := m'.stack = m.stack

instance : Std.Refl SameStack := ⟨fun _ => rfl⟩

instance : Trans SameStack SameStack SameStack := ⟨fun h k => Eq.trans k h⟩

/-- What a turn does to the active calls and to the cells below them: it goes on within the innermost
one and over its floor, enters another one, or leaves it with one value in the place of its cells. -/
inductive Passes (m m' : Machine) : Prop
  | within {fr : Frame} {rest : List Frame} {ip : Nat} (hfrom : m.frames = fr :: rest)
    (hto : m'.frames = {fr with ip := ip} :: rest)
    (hcells : m.stack.toList.take (Program.floor m.frames) <+: m'.stack.toList)
  | enters {fr : Frame} {rest : List Frame} {ip function base : Nat} (hfrom : m.frames = fr :: rest)
    (hto : m'.frames = ⟨function, 0, base⟩ :: {fr with ip := ip} :: rest)
    (hbase : Program.floor m.frames ≤ base) (hstack : m'.stack = m.stack)
  | returns {fr caller : Frame} {rest : List Frame} {v : Value} (hfrom : m.frames = fr :: caller :: rest)
    (hto : m'.frames = caller :: rest)
    (hstack : m'.stack.toList = m.stack.toList.take fr.base++[v])

theorem Passes.same {m m' m'' : Machine} (h : m.Passes m') (hstack : m''.stack = m'.stack)
    (hframes : m''.frames = m'.frames) : m.Passes m'' := by
  cases h with
  | within hfrom hto hcells => exact .within hfrom (hframes.trans hto) (hstack ▸ hcells)
  | enters hfrom hto hbase hsame => exact .enters hfrom (hframes.trans hto) hbase (hstack.trans hsame)
  | returns hfrom hto hresult => exact .returns hfrom (hframes.trans hto) (hstack ▸ hresult)

end Machine

namespace Exec

open Machine

variable {p : Program} {z : Setting} {pools : Array (Array Value)} {rest : List Frame}
  {id ip base height top : Nat} {f : Function} {i : Instruction} {next : List (Nat × Nat)}
  {on : Nat → Prop} {cells : List Value} {m m' : Machine}

instance (ip : Nat) : Keeps SameStack (setIp ip) := by
  refine Keeps.modify fun m => ?_
  split <;> rfl

instance (p : Program) (name : String) : Keeps SameStack (call p name) := by
  have henter (fr : Machine → Frame) :
      Keeps SameStack (modify fun m => {m with frames := fr m :: m.frames} : Exec PUnit) :=
    Keeps.modify fun _ => rfl
  refine Keeps.seq inferInstance fun v => Keeps.seq inferInstance fun o => ?_
  split
  · split
    · infer_instance
    · refine Keeps.seq inferInstance fun m => ?_
      split
      · infer_instance
      · split
        · infer_instance
        · exact henter _
  · infer_instance

/-- A return takes nothing off below its base. -/
theorem ret_leaves : Leaves (fun m => m.Over on cells 0 ∧ ∀ fr ∈ m.frames.head?, cells.length ≤ fr.base)
    ret fun m => cells <+: m.stack.toList := by
  intro m hm
  have hpeek : Keeps Eq (peek 0) := inferInstance
  refine Yields.reads hpeek (fun v _ => ?_) (fun _ => trivial) m rfl
  refine Yields.get_bind fun m' hm' => ?_
  subst hm'
  split
  · next fr caller rest hframes =>
    refine Yields.start hm.1 (Leaves.bind (collapse_leaves ?_ v) fun _ => Yields.modify ?_)
    · exact hm.2 fr (by simp [hframes])
    · exact fun _ h => h.starts
  · exact throw_leaves _

theorem step_eq (s : p.Stop id f ip height i next) (hm : m.frames = ⟨id, ip, base⟩ :: rest) :
    step p id f m = execute p id f i.op {m with frames := ⟨id, ip+1, base⟩ :: rest} := by
  obtain ⟨byte, hbyte, hdecode⟩ := s.byte
  have hread := readByte_eq hm hbyte
  have hop := (Instruction.decode_eq_ok hdecode).1
  simp only [step, bind, EStateM.bind, hread, hop]

/-- The operands of the call of a native are a name and a count of arguments. -/
theorem callNative_eq_ok {index arguments : UInt8} (hframes : m.frames = ⟨id, ip, base⟩ :: rest)
    (hindex : f.chunk.code[ip]? = some index) (harguments : f.chunk.code[ip+1]? = some arguments)
    (hx : execute p id f .callNative m = .ok () m') :
    ∃ name m₁, SameCells m m₁ ∧ callNative name arguments.toNat m₁ = .ok () m' := by
  have hidentifier : Keeps SameCells (identifier f) := inferInstance
  have hcode : Keeps SameCells (readByte f.chunk.code) := inferInstance
  obtain ⟨name, m₁, hname, hx⟩ := bind_eq_ok.mp hx
  obtain ⟨count, m₂, hcount, hx⟩ := bind_eq_ok.mp hx
  have hbehind : m₁.frames = ⟨id, ip+1, base⟩ :: rest := by
    simp only [identifier, bind, EStateM.bind, readByte_eq hframes hindex] at hname
    cases hid : f.identifier? index with
    | none =>
      simp only [hid] at hname
      cases hname
    | some name =>
      simp only [hid] at hname
      cases hname
      rfl
  have hsame := Trans.trans (hidentifier.of_ok hname) (hcode.of_ok hcount)
  rw [readByte_eq hbehind harguments] at hcount
  cases hcount
  exact ⟨name, _, hsame, hx⟩

/-- An instruction other than a call or a return leaves the cells alone that are below those it
takes, unless it stores to one of them. -/
theorem stop_leaves (s : p.Stop id f ip height i next) (hcall : i.op ≠ .call) (hret : i.op ≠ .ret)
    (habove : i.op.storesSlot = true → ∀ base, on base → Above cells base)
    (hframes : m.frames = ⟨id, ip+1, base⟩ :: rest) (hm : m.Over on cells i.taken)
    (hx : execute p id f i.op m = .ok () m') : m'.Over on cells 0 := by
  have hspelt := s.spelt
  obtain ⟨offset, op, operand⟩ := i
  by_cases hnative : op = .callNative
  · cases hnative
    obtain ⟨index, arguments, hindex, harguments, hoperand⟩ := hspelt
    cases hoperand
    obtain ⟨name, m₁, hsame, hx⟩ := callNative_eq_ok hframes hindex harguments hx
    have h := callNative_leaves name arguments.toNat m₁ (hm.same hsame)
    rw [hx] at h
    exact h
  by_cases hend : op = .endRepeat
  · cases hend
    have h := countDown_leaves m hm
    rw [show countDown m = .ok () m' from hx] at h
    exact h
  have htaken : Instruction.taken ⟨offset, op, operand⟩ = op.effect.pops := by
    cases op <;> first | rfl | exact absurd rfl hnative | exact absurd rfl hend
  have h := execute_leaves p id f op hcall hret hnative hend habove m (htaken ▸ hm)
  rw [hx] at h
  exact h

theorem over_take {low count : Nat} (hlow : low ≤ base+1) (hsize : low+count ≤ m.stack.size) :
    ({m with frames := ⟨id, ip, base⟩ :: rest} : Machine).Over (Above (m.stack.toList.take low))
      (m.stack.toList.take low) count := by
  have hlength : (m.stack.toList.take low).length = low := by
    rw [List.length_take, Array.length_toList]
    omega
  refine ⟨List.take_prefix _ _, hlength.symm ▸ hsize, ?_⟩
  intro fr hfr
  cases hfr
  rw [Above, hlength]
  exact hlow

theorem call_passes (hz : z.Loads p pools) (hverify : p.verify = .ok ())
    (hf : p.function? id = some f) (hfits : p.Fits top (⟨id, ip, base⟩ :: rest))
    (s : p.Stop id f ip height i next) (hop : i.op = .call)
    (htop : top = Program.floor (⟨id, ip, base⟩ :: rest)+height)
    (hm : m.Poised z pools top (⟨id, ip, base⟩ :: rest)) (hcharged : m.Charged p)
    (hx : step p id f m = .ok () m') : m.Passes m' := by
  have henters := step_call_enters hz hverify hf hfits s hop htop hm hcharged m rfl
  rw [hx] at henters
  obtain ⟨function, callee, bottom, _, _, _, hbottom, _, _, hm'⟩ := henters
  have hstack : Keeps SameStack (execute p id f .call) :=
    inferInstanceAs (Keeps SameStack (identifier f >>= fun name => call p name))
  rw [step_eq s hm.2.frames, hop] at hx
  have hsame := hstack.of_ok hx
  exact .enters hm.2.frames hm'.2.frames (hm.2.frames ▸ hbottom) hsame

theorem ret_passes (s : p.Stop id f ip height i next) (hop : i.op = .ret)
    (htop : top = Program.floor (⟨id, ip, base⟩ :: rest)+height)
    (hm : m.Poised z pools top (⟨id, ip, base⟩ :: rest)) (hx : step p id f m = .ok () m') :
    m.Passes m' := by
  have hleaves := step_ret_leaves s hop htop hm m rfl
  rw [hx] at hleaves
  obtain ⟨hrest, hbase, hm'⟩ := hleaves
  have hsize := hm.2.size
  rw [step_eq s hm.2.frames, hop] at hx
  have hover : ({m with frames := ⟨id, ip+1, base⟩ :: rest} : Machine).Over
      (Above (m.stack.toList.take base)) (m.stack.toList.take base) 0 := over_take (Nat.le_succ base) (by omega)
  have hcells := ret_leaves _ ⟨hover, fun fr hfr => by cases hfr; simp⟩
  rw [show ret _ = .ok () m' from hx] at hcells
  obtain ⟨results, hresults⟩ := hcells
  obtain ⟨v, rfl⟩ : ∃ v, results = [v] := by
    have hlength := congrArg List.length hresults
    have hone := hm'.2.size
    simp only [List.length_append, List.length_take, Array.length_toList] at hlength
    exact List.length_eq_one_iff.mp (by omega)
  cases rest with
  | nil => exact absurd rfl hrest
  | cons caller rest => exact .returns hm.2.frames hm'.2.frames hresults.symm

theorem onward_passes (hz : z.Loads p pools) (hverify : p.verify = .ok ())
    (hf : p.function? id = some f) (hfits : p.Fits top (⟨id, ip, base⟩ :: rest))
    (s : p.Stop id f ip height i next) (hi : i ∈ f.chunk.instructions) (hcall : i.op ≠ .call)
    (hret : i.op ≠ .ret)
    (htop : top = Program.floor (⟨id, ip, base⟩ :: rest)+height)
    (hm : m.Poised z pools top (⟨id, ip, base⟩ :: rest)) (hx : step p id f m = .ok () m') :
    m.Passes m' := by
  have honward := step_onward hz hverify hf hfits s hcall hret htop hm m rfl
  rw [hx] at honward
  obtain ⟨a, _, hm'⟩ := honward
  have hsize := hm.2.size
  have hfloor : Program.floor (⟨id, ip, base⟩ :: rest) ≤ base+1 := by
    cases rest with
    | nil => exact Nat.zero_le _
    | cons => exact Nat.le_refl _
  rw [step_eq s hm.2.frames] at hx
  obtain ⟨_, _, _, htaken, _⟩ := s.follows hi
  have hover := stop_leaves s hcall hret (fun _ _ h => h) rfl (over_take hfloor (by omega)) hx
  exact .within hm.2.frames hm'.2.frames (hm.2.frames ▸ hover.starts)

end Exec

namespace Machine

variable {p : Program} {z : Setting} {pools : Array (Array Value)} {m m' : Machine}

/-- A turn that goes on executes an instruction of the innermost call's function. -/
theorem advance_steps {fr : Frame} {rest : List Frame} (hframes : m.frames = fr :: rest)
    (h : m.advance p = (.running, m')) :
    ∃ f m₁, p.function? fr.function = some f ∧ fr.ip < f.chunk.code.size ∧
      Exec.step p fr.function f m = .ok () m₁ ∧ m'.stack = m₁.stack ∧ m'.frames = m₁.frames ∧
        m'.globals = m₁.globals := by
  unfold advance at h
  simp only [hframes] at h
  split at h
  · cases h
  next f hf =>
  split at h
  · split at h <;> cases h
  next hip =>
  split at h
  · cases h
  next m₁ hx =>
  refine ⟨f, m₁, hf, Nat.not_le.mp hip, hx, ?_⟩
  split at h
  · split at h
    · cases h
    next m₂ ht =>
    cases h
    have hcells : Keeps SameCells (Exec.trace fr.ip) := inferInstance
    have hsteady : Keeps Steady (Exec.trace fr.ip) := inferInstance
    have hglobals : Keeps Exec.SameGlobals (Exec.trace fr.ip) := inferInstance
    exact ⟨(hcells.of_ok ht).1, hsteady.of_ok ht, hglobals.of_ok ht⟩
  · cases h
    exact ⟨rfl, rfl, rfl⟩

/-- Every turn of a verified program goes on, enters or leaves. -/
theorem advance_passes (hz : z.Loads p pools) (hverify : p.verify = .ok ())
    (hm : m.Obeys z p pools) (hcharged : m.Charged p) (h : m.advance p = (.running, m')) :
    m.Passes m' := by
  obtain ⟨hm, hfits⟩ := hm
  cases hframes : m.frames with
  | nil =>
    rw [hframes] at hfits
    exact hfits.elim
  | cons fr rest =>
    rw [hframes] at hfits hm
    obtain ⟨f, m₁, hf, hip, hx, hstack, hframes', _⟩ := advance_steps hframes h
    refine Passes.same ?_ hstack hframes'
    obtain ⟨height, hmeets, htop⟩ | ⟨_, hend⟩ := Program.meets_of_fits hfits hf
    · obtain ⟨i, next, s⟩ := Program.stop_of_meets hf hmeets
      by_cases hcall : i.op = .call
      · exact Exec.call_passes hz hverify hf hfits s hcall htop hm hcharged hx
      by_cases hret : i.op = .ret
      · exact Exec.ret_passes s hret htop hm hx
      exact Exec.onward_passes hz hverify hf hfits s (s.mem hf hmeets) hcall hret htop hm hx
    · omega

/-- A call is active, with its callers around it and their cells at the bottom of the stack; the calls
made from it stand higher. -/
def Inside (fr : Frame) (callers : List Frame) (cells : List Value) (m : Machine) : Prop :=
  ∃ inner ip, m.frames = inner++{fr with ip := ip} :: callers ∧ (∀ g ∈ inner, fr.base < g.base) ∧
    cells <+: m.stack.toList

/-- A turn leaves the callers of a call alone, or it is the one in which the call returns. -/
theorem Inside.pass {fr : Frame} {callers : List Frame} {cells : List Value}
    (hm : m.Inside fr callers cells) (hcells : cells.length = fr.base) (hcallers : callers ≠ [])
    (h : m.Passes m') :
    m'.Inside fr callers cells ∨ m'.frames = callers ∧ ∃ v, m'.stack.toList = cells++[v] := by
  obtain ⟨inner, ip, hframes, hinner, hstarts⟩ := hm
  obtain ⟨caller, outer, rfl⟩ := List.exists_cons_of_ne_nil hcallers
  cases inner with
  | nil =>
    have hfloor : Program.floor m.frames = fr.base+1 := by rw [hframes]; rfl
    cases h with
    | within hfrom hto hkept =>
      rw [hframes] at hfrom
      cases hfrom
      refine .inl ⟨[], _, hto, by simp, List.IsPrefix.trans ?_ hkept⟩
      exact List.prefix_take_iff.mpr ⟨hstarts, by omega⟩
    | enters hfrom hto hbase hstack =>
      rw [hframes] at hfrom
      cases hfrom
      refine .inl ⟨[_], _, hto, ?_, hstack ▸ hstarts⟩
      intro g hg
      obtain rfl := List.mem_singleton.mp hg
      simp only
      omega
    | @returns _ _ _ v hfrom hto hstack =>
      rw [hframes] at hfrom
      cases hfrom
      refine .inr ⟨hto, v, ?_⟩
      rw [hstack, ← hcells, ← List.prefix_iff_eq_take.mp hstarts]
  | cons g inner =>
    have hg := hinner g (by simp)
    have hrest : ∃ x xs, inner++{fr with ip := ip} :: caller :: outer = x :: xs := by
      cases inner <;> exact ⟨_, _, rfl⟩
    obtain ⟨x, xs, hxs⟩ := hrest
    have hfloor : Program.floor m.frames = g.base+1 := by
      rw [hframes, List.cons_append, hxs]
      rfl
    cases h with
    | within hfrom hto hkept =>
      rw [hframes] at hfrom
      cases hfrom
      refine .inl ⟨{g with ip := _} :: inner, ip, hto, ?_, List.IsPrefix.trans ?_ hkept⟩
      · exact List.forall_mem_cons.mpr ⟨hg, fun x hx => hinner x (by simp [hx])⟩
      · exact List.prefix_take_iff.mpr ⟨hstarts, by omega⟩
    | enters hfrom hto hbase hstack =>
      rw [hframes] at hfrom
      cases hfrom
      refine .inl ⟨_ :: {g with ip := _} :: inner, ip, hto, ?_, hstack ▸ hstarts⟩
      refine List.forall_mem_cons.mpr ⟨by simp only; omega, List.forall_mem_cons.mpr ⟨hg, ?_⟩⟩
      exact fun x hx => hinner x (by simp [hx])
    | returns hfrom hto hstack =>
      rw [hframes, List.cons_append] at hfrom
      obtain ⟨rfl, hrest⟩ := List.cons.inj hfrom
      refine .inl ⟨inner, ip, hto.trans hrest.symm, fun x hx => hinner x (by simp [hx]), ?_⟩
      rw [hstack]
      refine List.IsPrefix.trans ?_ (List.prefix_append _ _)
      exact List.prefix_take_iff.mpr ⟨hstarts, by omega⟩

/-- The bases of calls over the script rise from caller to callee. -/
def Rising (frames : List Frame) : Prop :=
  frames.dropLast.Pairwise fun inner outer => outer.base < inner.base

theorem rising_cons {fr caller : Frame} {rest : List Frame} :
    Rising (fr :: caller :: rest) ↔
      (∀ g ∈ (caller :: rest).dropLast, g.base < fr.base) ∧ Rising (caller :: rest) := by
  rw [Rising, List.dropLast_cons_cons, List.pairwise_cons]
  rfl

theorem Passes.rising (h : m.Passes m') (hm : Rising m.frames) : Rising m'.frames := by
  cases h with
  | @within fr rest ip hfrom hto =>
    rw [hto]
    cases rest with
    | nil => exact List.Pairwise.nil
    | cons caller rest =>
      rw [hfrom, rising_cons] at hm
      exact rising_cons.mpr hm
  | @enters fr rest ip function base hfrom hto hbase =>
    rw [hto]
    cases rest with
    | nil => exact List.pairwise_singleton _ _
    | cons caller rest =>
      rw [hfrom] at hbase
      rw [hfrom, rising_cons] at hm
      have hlow : fr.base < base := hbase
      refine rising_cons.mpr ⟨?_, rising_cons.mpr hm⟩
      rw [List.dropLast_cons_cons]
      exact List.forall_mem_cons.mpr ⟨hlow, fun g hg => (hm.1 g hg).trans hlow⟩
  | returns hfrom hto =>
    rw [hfrom, rising_cons] at hm
    rw [hto]
    exact hm.2

/-- The last turn of a run. -/
theorem runFor_succ {turns : Nat} (h : m.runFor p (turns+1) = (.running, m')) :
    ∃ m₁, m.runFor p turns = (.running, m₁) ∧ m₁.advance p = (.running, m') := by
  induction turns generalizing m with
  | zero =>
    refine ⟨m, rfl, ?_⟩
    simp only [runFor] at h
    split at h
    · next m₁ ha => rw [ha, h]
    · exact h
  | succ turns ih =>
    rw [runFor] at h
    split at h
    · next m₁ ha =>
      obtain ⟨m₂, hrun, hlast⟩ := ih h
      exact ⟨m₂, by rw [runFor, ha]; exact hrun, hlast⟩
    · next hother => exact absurd h (hother m')

/-- A run in which every turn passes as turns of verified programs do. -/
structure Runs (p : Program) (turns : Nat) (m : Machine) : Prop where
  start : m.frames = [⟨0, 0, 0⟩]
  passes : ∀ k < turns, ∀ m₁ m₂, m.runFor p k = (.running, m₁) → m₁.advance p = (.running, m₂) →
    m₁.Passes m₂

theorem Runs.rising {turns : Nat} (hm : m.Runs p turns) {k : Nat} (hk : k ≤ turns)
    (h : m.runFor p k = (.running, m')) : Rising m'.frames := by
  induction k generalizing m' with
  | zero =>
    cases h
    rw [hm.start]
    exact List.Pairwise.nil
  | succ k ih =>
    obtain ⟨m₁, hrun, hlast⟩ := runFor_succ h
    exact (hm.passes k (by omega) m₁ m' hrun hlast).rising (ih (by omega) hrun)

/-- What is known of a call while it is active, and when it has returned. -/
theorem Runs.inside {turns : Nat} (hm : m.Runs p turns) {made : Nat} {m₁ : Machine} {fr : Frame}
    {callers : List Frame} (hcall : m.runFor p (made+1) = (.running, m₁))
    (hframes : m₁.frames = fr :: callers) (hcallers : callers ≠ []) (hbase : fr.base ≤ m₁.stack.size)
    (n : Nat) (hn : made+1+n ≤ turns)
    (hactive : ∀ k < n, ∀ m', m.runFor p (made+1+k) = (.running, m') →
      callers.length < m'.frames.length) (h : m.runFor p (made+1+n) = (.running, m')) :
    m'.Inside fr callers (m₁.stack.toList.take fr.base) ∨
      m'.frames = callers ∧ ∃ v, m'.stack.toList = m₁.stack.toList.take fr.base++[v] := by
  have hlength : (m₁.stack.toList.take fr.base).length = fr.base := by
    rw [List.length_take, Array.length_toList]
    omega
  induction n generalizing m' with
  | zero =>
    rw [hcall] at h
    cases h
    exact .inl ⟨[], fr.ip, hframes, by simp, List.take_prefix _ _⟩
  | succ n ih =>
    obtain ⟨m₂, hrun, hlast⟩ := runFor_succ h
    have hpass := hm.passes (made+1+n) (by omega) m₂ m' hrun hlast
    rcases ih (by omega) (fun k hk => hactive k (by omega)) hrun with hinside | ⟨hleft, _⟩
    · exact hinside.pass hlength hcallers hpass
    · have := hactive n (by omega) m₂ hrun
      rw [hleft] at this
      omega

/-- A turn that makes a call adds it to the calls, with the caller's pointer moved on. -/
theorem Passes.entered {fr : Frame} {callers : List Frame} (h : m.Passes m')
    (hframes : m'.frames = fr :: callers) (hlength : callers.length = m.frames.length) :
    (∃ caller rest ip, m.frames = caller :: rest ∧ callers = {caller with ip := ip} :: rest) ∧
      m'.stack = m.stack := by
  cases h with
  | within hfrom hto =>
    rw [hto] at hframes
    cases hframes
    rw [hfrom, List.length_cons] at hlength
    omega
  | @enters caller rest ip function base hfrom hto hbase hstack =>
    rw [hto] at hframes
    cases hframes
    exact ⟨⟨caller, rest, ip, hfrom, rfl⟩, hstack⟩
  | returns hfrom hto =>
    rw [hto] at hframes
    cases hframes
    rw [hfrom, List.length_cons, List.length_cons] at hlength
    omega

theorem interpret_eq_running {start loaded : Machine} (hload : Exec.load p start = .ok () loaded)
    {turns : Nat} :
    start.interpret p turns = (.running, m) ↔ loaded.runFor p turns = (.running, m) := by
  refine ⟨fun h => ?_, interpret_running hload⟩
  simp only [interpret, hload] at h
  split at h
  · cases h
  · exact h

/-- Keeps a text on the stack while a runnable calls another one. -/
def nesting : Program :=
  ⟨#[⟨"<script>", 0, #[], ⟨#[55, 0, 0, 0, 55, 1, 0, 0, 2, 3, 23, 2, 2, 3, 56, 2, 6, 6],
      #[.runnable 1, .runnable 2, .text "f", .text "rat"]⟩, none, 0⟩,
    ⟨"f", 1, #["x"], ⟨#[23, 0, 25, 0, 56, 0, 1], #[.text "g"]⟩, some 0, 0⟩,
    ⟨"g", 1, #["x"], ⟨#[25, 0, 1], #[]⟩, some 0, 0⟩]⟩

theorem nesting_verifies : nesting.verify = .ok () := by cbv

theorem nesting_charged :
    ∀ k < 12, ((new {} quiet).interpret nesting k).2.Charged nesting := by
  decide +kernel

theorem nesting_running : ∀ k ≤ 12, ((new {} quiet).interpret nesting k).1 = .running := by
  decide +kernel

theorem nesting_frames :
    ((new {} quiet).interpret nesting 5).2.frames = [⟨0, 14, 0⟩] ∧
      ((new {} quiet).interpret nesting 6).2.frames = [⟨1, 0, 1⟩, ⟨0, 16, 0⟩] ∧
      ((new {} quiet).interpret nesting 10).2.frames = [⟨2, 2, 3⟩, ⟨1, 6, 1⟩, ⟨0, 16, 0⟩] ∧
      ((new {} quiet).interpret nesting 12).2.frames = [⟨0, 16, 0⟩] ∧
      ∀ k < 12, 5 < k → 1 < ((new {} quiet).interpret nesting k).2.frames.length := by
  decide +kernel

end Machine
end RatScript
