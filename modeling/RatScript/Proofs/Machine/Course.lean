import RatScript.Proofs.Machine.Callers

/-!
One turn, with all it does to the innermost call: an instruction goes on within the call, makes a
call, or returns from it.
-/

namespace RatScript

open Stateful

theorem Program.Meets.height_eq {p : Program} {id ip height height' : Nat}
    (h : p.Meets id ip height) (h' : p.Meets id ip height') : height = height' := by
  obtain ⟨_, _, _, h⟩ := h
  obtain ⟨_, _, _, h'⟩ := h'
  exact Option.some.inj (h.symm.trans h')

theorem Opcode.layout_of_storesSlot {op : Opcode} (h : op.storesSlot = true) : op.layout = .slot := by
  cases op with
  | set scope | count scope _ | compound scope _ =>
    cases scope with
    | global => cases h
    | frame => rfl
  | _ => cases h

theorem Instruction.taken_of_storesSlot {i : Instruction} (h : i.op.storesSlot = true) :
    i.taken = i.op.effect.pops := by
  obtain ⟨offset, op, operand⟩ := i
  cases op with
  | callNative | endRepeat => cases h
  | _ => rfl

/-- An instruction that writes to a slot stands at an offset. -/
def Function.StoresTo (f : Function) (offset slot : Nat) : Prop :=
  ∃ i ∈ f.chunk.instructions, ∃ b : UInt8,
    i.offset = offset ∧ i.op.storesSlot = true ∧ i.operand = .slot b ∧ b.toNat = slot

namespace Machine

/-- What a turn does, by an instruction of the innermost call met at a height. -/
inductive Course (p : Program) (f : Function) (i : Instruction) (e : Effect) (height : Nat)
    (fr : Frame) (rest : List Frame) (m m' : Machine) : Prop
  | onward {y : Nat × Nat} (hfollows : f.Follows i e height y)
    (hto : m'.frames = {fr with ip := y.1} :: rest)
    (hsize : m'.stack.size = Program.floor (fr :: rest)+y.2)
    (hkeeps : ∀ slot, slot+1+i.taken ≤ height →
      m'.stack[Program.floor (fr :: rest)+slot]? = m.stack[Program.floor (fr :: rest)+slot]? ∨
        f.StoresTo i.offset slot)
  | enters {function ip base : Nat} {callee : Function} (hcallee : p.function? function = some callee)
    (hlater : function ≠ 0) (hto : m'.frames = ⟨function, 0, base⟩ :: {fr with ip := ip} :: rest)
    (hsize : m.stack.size = base+1+callee.arity) (hstack : m'.stack = m.stack) (hop : i.op = .call)
    (hfollows : ∃ y, f.Follows i e height y ∧ y.1 = ip ∧ e.pushes = 1 ∧
      base+1 = Program.floor (fr :: rest)+y.2)
  | returns {caller : Frame} {outer : List Frame} {v : Value} (hrest : rest = caller :: outer)
    (hto : m'.frames = rest) (hstack : m'.stack.toList = m.stack.toList.take fr.base++[v])

theorem Course.same {p : Program} {f : Function} {i : Instruction} {e : Effect} {height : Nat}
    {fr : Frame} {rest : List Frame} {m m' m'' : Machine} (h : Course p f i e height fr rest m m')
    (hstack : m''.stack = m'.stack) (hframes : m''.frames = m'.frames) :
    Course p f i e height fr rest m m'' := by
  cases h with
  | onward hfollows hto hsize hkeeps =>
    exact .onward hfollows (hframes.trans hto) (hstack ▸ hsize) (hstack ▸ hkeeps)
  | enters hcallee hlater hto hsize hsame hop hfollows =>
    exact .enters hcallee hlater (hframes.trans hto) hsize (hstack.trans hsame) hop hfollows
  | returns hrest hto hresult => exact .returns hrest (hframes.trans hto) (hstack ▸ hresult)

end Machine

namespace Exec

open Machine

variable {p : Program} {z : Setting} {pools : Array (Array Value)} {rest : List Frame}
  {id ip base height top : Nat} {f : Function} {i : Instruction} {next : List (Nat × Nat)}
  {m m' : Machine} {e : Effect}

theorem getElem?_of_starts {cells : List Value} (h : cells <+: m.stack.toList) {index : Nat}
    (hindex : index < cells.length) : m.stack[index]? = cells[index]? := by
  obtain ⟨above, habove⟩ := h
  rw [← Array.getElem?_toList, ← habove, List.getElem?_append_left hindex]

/-- An instruction leaves a cell under its operands alone, or stores to its slot. -/
theorem stop_keeps (s : p.Stop id f ip height i next) (hi : i ∈ f.chunk.instructions)
    (hcall : i.op ≠ .call) (hret : i.op ≠ .ret) (hframes : m.frames = ⟨id, ip+1, base⟩ :: rest)
    {floor slot : Nat} (hfloor : f.isScript = false → floor = base+1)
    (hsize : floor+slot+1+i.taken ≤ m.stack.size) (hx : execute p id f i.op m = .ok () m') :
    m'.stack[floor+slot]? = m.stack[floor+slot]? ∨ f.StoresTo i.offset slot := by
  have hlength : (m.stack.toList.take (floor+slot+1)).length = floor+slot+1 := by
    rw [List.length_take, Array.length_toList]
    omega
  have hstarts : m.stack.toList.take (floor+slot+1) <+: m.stack.toList := List.take_prefix _ _
  have hindex : floor+slot < (m.stack.toList.take (floor+slot+1)).length := by omega
  have hbefore := getElem?_of_starts hstarts hindex
  by_cases hstores : i.op.storesSlot = true
  · obtain ⟨b, hb, hoperand⟩ : ∃ b : UInt8, f.chunk.code[ip+1]? = some b ∧ i.operand = .slot b := by
      have hspelt := s.spelt
      rw [Opcode.layout_of_storesSlot hstores] at hspelt
      exact hspelt
    -- only runnables have slots
    obtain rfl := hfloor (s.slot hoperand).1
    by_cases hslot : b.toNat = slot
    · exact .inr ⟨i, hi, b, rfl, hstores, hoperand, hslot⟩
    have hover : m.Over (· = base) (m.stack.toList.take (base+1+slot+1)) i.op.effect.pops := by
      rw [← Instruction.taken_of_storesSlot hstores]
      exact ⟨hstarts, by omega, fun fr hfr => by rw [hframes] at hfr; cases hfr; rfl⟩
    have hwrites := execute_writes p hstores hb m ⟨hframes, hover⟩
    rw [hx] at hwrites
    obtain ⟨v, hv⟩ := hwrites
    refine .inl ?_
    rw [getElem?_of_starts hv.starts (by rwa [List.length_set]),
      List.getElem?_set_ne (by omega), ← hbefore]
  · have hover : m.Over (fun _ => True) (m.stack.toList.take (floor+slot+1)) i.taken :=
      ⟨hstarts, by omega, fun _ _ => trivial⟩
    have hleaves := stop_leaves s hcall hret (fun h => absurd h hstores) hframes hover hx
    refine .inl ?_
    rw [getElem?_of_starts hleaves.starts hindex, ← hbefore]

section
variable (hz : z.Loads p pools) (hverify : p.verify = .ok ()) (hf : p.function? id = some f)
  (hfits : p.Fits top (⟨id, ip, base⟩ :: rest)) (s : p.Stop id f ip height i next)
  (htop : top = Program.floor (⟨id, ip, base⟩ :: rest)+height)
  (hm : m.Poised z pools top (⟨id, ip, base⟩ :: rest)) (hx : step p id f m = .ok () m')
include hz hverify hf hfits s htop hm hx

theorem onward_course (hi : i ∈ f.chunk.instructions)
    (hnext : ∀ a, a ∈ next ↔ f.Follows i e height a)
    (hcall : i.op ≠ .call) (hret : i.op ≠ .ret) :
    Course p f i e height ⟨id, ip, base⟩ rest m m' := by
  have honward := step_onward hz hverify hf hfits s hcall hret htop hm m rfl
  rw [hx] at honward
  obtain ⟨y, hy, hm'⟩ := honward
  refine .onward ((hnext y).mp hy) hm'.2.frames hm'.2.size fun slot hslot => ?_
  have hfloor (hrunnable : f.isScript = false) : Program.floor (⟨id, ip, base⟩ :: rest) = base+1 := by
    refine Program.floor_of_fits hfits fun hid => ?_
    rw [(Program.isScript_iff hverify hf).mpr hid] at hrunnable
    cases hrunnable
  have hsize := hm.2.size
  rw [step_eq s hm.2.frames] at hx
  exact stop_keeps (m := {m with frames := ⟨id, ip+1, base⟩ :: rest}) s hi hcall hret rfl hfloor
    (by simp only; omega) hx

theorem call_course (he : p.Charges f i e) (hnext : ∀ a, a ∈ next ↔ f.Follows i e height a)
    (hcharged : m.Charged p) (hop : i.op = .call) :
    Course p f i e height ⟨id, ip, base⟩ rest m m' := by
  have henters := step_call_enters hz hverify hf hfits s hop htop hm hcharged m rfl
  have hstack : Keeps SameStack (execute p id f .call) :=
    inferInstanceAs (Keeps SameStack (identifier f >>= fun name => call p name))
  rw [hx] at henters
  obtain ⟨function, callee, bottom, hcallee, hlater, hsize, _, ⟨a, ha, hip, hbottom⟩, _, hm'⟩ := henters
  rw [step_eq s hm.2.frames, hop] at hx
  have hsame := hstack.of_ok hx
  refine .enters hcallee hlater hm'.2.frames (hm.2.size.trans hsize) hsame hop
    ⟨a, (hnext a).mp ha, hip, ?_, hbottom⟩
  cases he with
  | call => rfl
  | native hop' => simp [hop] at hop'
  | other hcall => exact absurd hop hcall

end

theorem ret_course (s : p.Stop id f ip height i next) (hop : i.op = .ret)
    (htop : top = Program.floor (⟨id, ip, base⟩ :: rest)+height)
    (hm : m.Poised z pools top (⟨id, ip, base⟩ :: rest)) (hx : step p id f m = .ok () m') :
    Course p f i e height ⟨id, ip, base⟩ rest m m' := by
  have hleaves := step_ret_leaves s hop htop hm m rfl
  rw [hx] at hleaves
  obtain ⟨_, _, hm'⟩ := hleaves
  cases ret_passes s hop htop hm hx with
  | within hfrom hto =>
    rw [hm.2.frames] at hfrom
    cases hfrom
    rw [hm'.2.frames] at hto
    exact absurd (congrArg List.length hto) (Nat.ne_of_lt (Nat.lt_succ_self _))
  | enters hfrom hto =>
    rw [hm.2.frames] at hfrom
    cases hfrom
    rw [hm'.2.frames] at hto
    exact absurd (congrArg List.length hto) (Nat.ne_of_lt (Nat.lt_add_of_pos_right (Nat.zero_lt_two)))
  | returns hfrom hto hstack =>
    rw [hm.2.frames] at hfrom
    cases hfrom
    exact .returns rfl hto hstack

end Exec

namespace Machine

variable {p : Program} {z : Setting} {pools : Array (Array Value)} {m m' : Machine}

/-- A turn that goes on takes one of the courses there are. -/
theorem advance_course (hz : z.Loads p pools) (hverify : p.verify = .ok ())
    (hm : m.Obeys z p pools) (hcharged : m.Charged p) (h : m.advance p = (.running, m')) :
    ∃ fr rest f i e height next, m.frames = fr :: rest ∧ p.function? fr.function = some f ∧
      i ∈ f.chunk.instructions ∧ p.Stop fr.function f fr.ip height i next ∧ p.Charges f i e ∧
      m.stack.size = Program.floor (fr :: rest)+height ∧ Course p f i e height fr rest m m' := by
  obtain ⟨hm, hfits⟩ := hm
  cases hframes : m.frames with
  | nil =>
    rw [hframes] at hfits
    exact hfits.elim
  | cons fr rest =>
    rw [hframes] at hfits hm
    obtain ⟨f, m₁, hf, hip, hx, hstack, hframes', _⟩ := advance_steps hframes h
    obtain ⟨height, hmeets, htop⟩ | ⟨_, hend⟩ := Program.meets_of_fits hfits hf
    · obtain ⟨i, next, s⟩ := Program.stop_of_meets hf hmeets
      have hi := s.mem hf hmeets
      obtain ⟨e, he, _, _, hnext⟩ := s.follows hi
      have hcourse : Course p f i e height fr rest m m₁ := by
        by_cases hcall : i.op = .call
        · exact Exec.call_course hz hverify hf hfits s htop hm hx he hnext hcharged hcall
        by_cases hret : i.op = .ret
        · exact Exec.ret_course s hret htop hm hx
        exact Exec.onward_course hz hverify hf hfits s htop hm hx hi hnext hcall hret
      exact ⟨fr, rest, f, i, e, height, next, rfl, hf, hi, s, he, htop, hcourse.same hstack hframes'⟩
    · omega

end Machine
end RatScript
