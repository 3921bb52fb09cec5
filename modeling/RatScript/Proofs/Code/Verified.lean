import RatScript.Proofs.Code.Phrase

/-!
What a program that passes verification promises: at every offset that is given a height stands an
instruction whose operand was checked, and every way on from it leads to such an offset again, or
to the end of the script.
-/

namespace RatScript

/-- Operations with a layout of few others. -/
theorem Opcode.of_layout (op : Opcode) :
    match op.layout with
    | .jump => op = .jump ∨ ∃ truth, op = .jumpIf truth
    | .loop => op = .loop
    | .runnable => op = .defineRunnable
    | .native => op = .callNative
    | _ => True := by
  cases op with
  | get scope | set scope | count scope | compound scope => cases scope <;> trivial
  | jump => exact .inl rfl
  | jumpIf truth => exact .inr ⟨truth, rfl⟩
  | _ => trivial

namespace Instruction

variable {code : Array UInt8} {i : Instruction}

/-- What is decoded is what its bytes say. -/
theorem decode_of_mem_decodeFrom {offset : Nat} {found : Array Instruction}
    (hi : i ∈ (decodeFrom code offset found).1)
    (hfound : ∀ j ∈ found, ∃ byte, code[j.offset]? = some byte ∧ decode code j.offset byte = .ok j) :
    ∃ byte, code[i.offset]? = some byte ∧ decode code i.offset byte = .ok i := by
  fun_induction decodeFrom code offset found with
  | case1 offset found hlt j hj ih =>
    refine ih hi ?_
    intro k hk
    rcases Array.mem_push.mp hk with hk | hk
    · exact hfound k hk
    · have hoffset : j.offset = offset := by
        unfold decode at hj
        split at hj
        · cases hj
        · split at hj
          · cases hj
          · cases hj
            rfl
      subst k
      rw [hoffset]
      exact ⟨code[offset], by simp [hlt], hj⟩
  | case2 offset found hlt fault hfault => exact hfound i hi
  | case3 offset found hge => exact hfound i hi

theorem decode_of_mem {chunk : Chunk} (hi : i ∈ chunk.decode.1) :
    ∃ byte, chunk.code[i.offset]? = some byte ∧ decode chunk.code i.offset byte = .ok i :=
  decode_of_mem_decodeFrom hi (by simp)

theorem decode_eq_ok {offset : Nat} {byte : UInt8} (h : decode code offset byte = .ok i) :
    Opcode.ofByte? byte = some i.op ∧ Operand.read? code (offset+1) i.op.layout = some i.operand ∧
      i.offset = offset := by
  unfold decode at h
  split at h
  · cases h
  · next op hop =>
    split at h
    · cases h
    · next operand hoperand =>
      cases h
      exact ⟨hop, hoperand, rfl⟩

end Instruction

namespace Program

variable {p : Program} {f : Function} {id : Nat}

theorem checkOperands_eq_ok {is : List Instruction} (h : p.checkOperands f is = .ok ()) :
    ∀ i ∈ is, f.checkOperand p i = .ok () := by
  induction is with
  | nil => simp
  | cons i rest ih =>
    unfold checkOperands at h
    intro j hj
    cases hi : f.checkOperand p i with
    | error defect => simp [hi] at h
    | ok u =>
      rw [hi] at h
      rcases List.mem_cons.mp hj with rfl | hj
      · exact hi
      · exact ih h j hj

/-- What the heights of a function promise. -/
structure Heights (p : Program) (f : Function) (H : Nat → Option Nat) : Prop where
  operands : ∀ i ∈ f.chunk.decode.1, f.checkOperand p i = .ok ()
  consistent : (p.surveyOf f).Consistent H
  entry : (p.surveyOf f).Admits H (0, f.arity)

theorem heights_eq_ok {heights : Array (Option Nat)} (h : p.heights id f = .ok heights) :
    checkEnclosing id f = .ok () ∧ p.Heights f (Survey.table heights) := by
  unfold Program.heights at h
  cases henc : checkEnclosing id f with
  | error defect => simp [henc, bind, Except.bind] at h
  | ok u =>
    cases hoperands : p.checkOperands f f.chunk.decode.1.toList with
    | error r => simp [henc, hoperands, bind, Except.bind] at h
    | ok u =>
      cases hfault : f.chunk.decode.2 with
      | some fault => simp [henc, hoperands, hfault, bind, Except.bind] at h
      | none =>
        simp only [henc, hoperands, hfault, bind, Except.bind] at h
        have hcheck := checkOperands_eq_ok hoperands
        obtain ⟨hc, _, hwork⟩ := (p.surveyOf f).consistent_of_explore _ _ heights
          (by rw [Array.size_replicate]; rfl) h (by simp [Survey.table_replicate])
        refine ⟨rfl, ?_, hc, hwork _ (by simp)⟩
        intro i hi
        exact hcheck i (by simpa using hi)

theorem verifyFrom_eq_ok {fs : List Function} {start : Nat} (h : p.verifyFrom start fs = .ok ()) :
    ∀ (i : Nat) (f : Function), fs[i]? = some f → ∃ heights, p.heights (start+i) f = .ok heights := by
  induction fs generalizing start with
  | nil => simp
  | cons g rest ih =>
    unfold verifyFrom at h
    cases hg : p.heights start g with
    | error r => simp [hg] at h
    | ok heights =>
      rw [hg] at h
      intro i f hf
      cases i with
      | zero =>
        cases hf
        exact ⟨heights, hg⟩
      | succ i =>
        have hrest := ih h i f (by simpa using hf)
        rwa [show start+(i+1) = start+1+i by omega]

/-- The script comes first, and every function has heights. -/
theorem verify_eq_ok (h : p.verify = .ok ()) :
    (∃ script, p.function? 0 = some script ∧ script.isScript = true) ∧
      ∀ id f, p.function? id = some f → ∃ heights, p.heights id f = .ok heights := by
  unfold verify at h
  cases hscript : p.functions[0]? with
  | none => simp [hscript] at h
  | some script =>
    simp only [hscript] at h
    split at h
    · next hs =>
      refine ⟨⟨script, hscript, hs⟩, ?_⟩
      intro id f hf
      have hall := verifyFrom_eq_ok h id f (by simpa [function?] using hf)
      rwa [Nat.zero_add] at hall
    · cases h

/-- Only the first function of a verified program is a script. -/
theorem isScript_iff (h : p.verify = .ok ()) (hf : p.function? id = some f) :
    f.isScript = true ↔ id = 0 := by
  obtain ⟨⟨script, hzero, hscript⟩, hall⟩ := verify_eq_ok h
  constructor
  · intro hs
    obtain ⟨heights, hok⟩ := hall id f hf
    have henc := (heights_eq_ok hok).1
    have hnone : f.enclosing = none := by simpa [Function.isScript] using hs
    simp only [checkEnclosing, hnone] at henc
    split at henc
    · assumption
    · cases henc
  · intro hid
    subst id
    rw [hzero] at hf
    cases hf
    exact hscript

/-- The height that verification gives to an offset of a function. -/
def heightAt? (p : Program) (id ip : Nat) : Option Nat :=
  match p.function? id with
  | none => none
  | some f =>
    match p.heights id f with
    | .ok heights => Survey.table heights ip
    | .error _ => none

/-- An instruction of a function stands at an offset that verification reaches with a height. -/
def Meets (p : Program) (id ip height : Nat) : Prop :=
  ∃ f, p.function? id = some f ∧ (∃ i ∈ f.chunk.instructions, i.offset = ip) ∧
    p.heightAt? id ip = some height

/-- A path may come here: to an instruction at its height, or to the end of the script. -/
def Arrives (p : Program) (id : Nat) (f : Function) (arrival : Nat × Nat) : Prop :=
  if arrival.1 = f.chunk.code.size then f.isScript = true else p.Meets id arrival.1 arrival.2

/-- The instruction met at an offset, with all that verification found out about it. -/
structure Stop (p : Program) (id : Nat) (f : Function) (ip height : Nat) (i : Instruction)
    (next : List (Nat × Nat)) : Prop where
  byte : ∃ byte, f.chunk.code[ip]? = some byte ∧ Instruction.decode f.chunk.code ip byte = .ok i
  operand : f.checkOperand p i = .ok ()
  successors : (p.surveyOf f).successors i height = .ok next
  onward : ∀ a ∈ next, p.Arrives id f a

theorem arrives_of_admits {heights : Array (Option Nat)} (hf : p.function? id = some f)
    (hok : p.heights id f = .ok heights) {a : Nat × Nat}
    (ha : (p.surveyOf f).Admits (Survey.table heights) a) : p.Arrives id f a := by
  have hsize : (p.surveyOf f).size = f.chunk.code.size := rfl
  unfold Survey.Admits at ha
  unfold Arrives
  rw [hsize] at ha
  split at ha
  · next hend =>
    rw [if_pos hend]
    exact ha
  · next hend =>
    rw [if_neg hend]
    obtain ⟨_, i, next, hi, _, _⟩ := (heights_eq_ok hok).2.consistent a.1 a.2 ha
    obtain ⟨hmem, hoffset⟩ := mem_of_start? hi
    refine ⟨f, hf, ⟨i, by simpa [Chunk.instructions] using hmem, hoffset⟩, ?_⟩
    simp only [heightAt?, hf, hok]
    exact ha

theorem arrives_entry (h : p.verify = .ok ()) (hf : p.function? id = some f) :
    p.Arrives id f (0, f.arity) := by
  obtain ⟨heights, hok⟩ := (verify_eq_ok h).2 id f hf
  exact arrives_of_admits hf hok (heights_eq_ok hok).2.entry

theorem stop_of_meets {ip height : Nat} (hf : p.function? id = some f)
    (h : p.Meets id ip height) : ∃ i next, p.Stop id f ip height i next := by
  obtain ⟨g, hg, _, hheight⟩ := h
  rw [hf] at hg
  cases hg
  simp only [heightAt?, hf] at hheight
  cases hok : p.heights id f with
  | error r => simp [hok] at hheight
  | ok heights =>
    rw [hok] at hheight
    have hall := (heights_eq_ok hok).2
    obtain ⟨_, i, next, hi, hnext, hadmits⟩ := hall.consistent ip height hheight
    obtain ⟨hmem, hoffset⟩ := mem_of_start? hi
    obtain ⟨byte, hbyte, hdecode⟩ := Instruction.decode_of_mem hmem
    rw [hoffset] at hbyte hdecode
    exact ⟨i, next, ⟨byte, hbyte, hdecode⟩, hall.operands i hmem, hnext,
      fun a ha => arrives_of_admits hf hok (hadmits a ha)⟩

end Program
end RatScript
