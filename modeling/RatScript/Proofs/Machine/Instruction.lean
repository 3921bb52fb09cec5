import RatScript.Proofs.Machine.Simulation

/-!
Instructions of a verified program. Where verification gave a height and the stack is that high over
the floor of the call, an instruction leads to one of the places that verification went on to, and
leaves the height that was given there.
-/

namespace RatScript

open Stateful

/-- Operations that go on with the next instruction. -/
def Opcode.isStraight : Opcode → Bool
  | ret | jump | jumpIf _ | loop | endRepeat => false
  | _ => true

theorem Opcode.isStraight_of_layout {op : Opcode} (hret : op ≠ .ret) (hend : op ≠ .endRepeat)
    (hjump : op.layout ≠ .jump) (hloop : op.layout ≠ .loop) : op.isStraight = true := by
  cases op with
  | ret => exact absurd rfl hret
  | endRepeat => exact absurd rfl hend
  | jump | jumpIf => exact absurd rfl hjump
  | loop => exact absurd rfl hloop
  | _ => rfl

namespace Survey

variable {s : Survey} {i : Instruction}

theorem onward_eq (h : i.op.isStraight = true) (height after : Nat) :
    s.onward i height after = .ok [(i.next, after)] := by
  unfold onward
  split <;> simp_all [Opcode.isStraight]

end Survey

namespace Operand

/-- The operand of each layout, with the bytes that spell it. -/
def Spelt (code : Array UInt8) (offset : Nat) (operand : Operand) : Layout → Prop
  | .none => operand = .none
  | .constant => ∃ index, code[offset]? = some index ∧ operand = .constant index
  | .slot => ∃ slot, code[offset]? = some slot ∧ operand = .slot slot
  | .jump => ∃ distance, Word.read? code offset = some distance ∧ operand = .jump distance
  | .loop => ∃ distance, Word.read? code offset = some distance ∧ operand = .loop distance
  | .runnable => ∃ index lines, code[offset]? = some index ∧
      Word.read? code (offset+1) = some lines ∧ operand = .runnable index lines
  | .native => ∃ index arguments, code[offset]? = some index ∧
      code[offset+1]? = some arguments ∧ operand = .native index arguments

theorem spelt_of_read? {code : Array UInt8} {offset : Nat} {layout : Layout} {operand : Operand}
    (h : read? code offset layout = some operand) : Spelt code offset operand layout := by
  cases layout with
  | none =>
    cases h
    rfl
  | constant | slot | jump | loop =>
    obtain ⟨x, hx, heq⟩ := Option.map_eq_some_iff.mp h
    exact ⟨x, hx, heq.symm⟩
  | runnable | native =>
    simp only [read?, Option.bind_eq_bind, Option.bind_eq_some_iff, Option.some.injEq] at h
    obtain ⟨x, hx, y, hy, heq⟩ := h
    exact ⟨x, y, hx, hy, heq.symm⟩

end Operand

namespace Program.Stop

variable {p : Program} {id ip height : Nat} {f : Function} {i : Instruction}
  {next : List (Nat × Nat)}

theorem offset (s : p.Stop id f ip height i next) : i.offset = ip := by
  obtain ⟨_, _, hdecode⟩ := s.byte
  exact (Instruction.decode_eq_ok hdecode).2.2

theorem spelt (s : p.Stop id f ip height i next) :
    Operand.Spelt f.chunk.code (ip+1) i.operand i.op.layout := by
  obtain ⟨_, _, hdecode⟩ := s.byte
  exact Operand.spelt_of_read? (Instruction.decode_eq_ok hdecode).2.1

theorem next_eq (s : p.Stop id f ip height i next) : i.next = ip+i.op.width := by
  rw [Instruction.next, s.offset]

/-- An instruction that goes straight on leaves the height that its effect says. -/
theorem straight (s : p.Stop id f ip height i next) (h : i.op.isStraight = true) {e : Effect}
    (he : (p.surveyOf f).effect i = .ok e) :
    e.pops ≤ height ∧ next = [(ip+i.op.width, height-e.pops+e.pushes)] := by
  obtain ⟨e', he', hpops, _, honward⟩ := Survey.successors_eq_ok.mp s.successors
  rw [he] at he'
  cases he'
  rw [Survey.onward_eq h, s.next_eq] at honward
  cases honward
  exact ⟨hpops, rfl⟩

theorem slot (s : p.Stop id f ip height i next) {slot : UInt8} (h : i.operand = .slot slot) :
    f.isScript = false ∧ slot.toNat < height := by
  obtain ⟨_, _, _, hlive, _⟩ := Survey.successors_eq_ok.mp s.successors
  exact hlive slot h

/-- Instructions without an effect only choose where to go on. -/
theorem neutral (s : p.Stop id f ip height i next) (hcall : i.op ≠ .call)
    (hnative : i.op ≠ .callNative) (he : i.op.effect = ⟨0, 0⟩) :
    (p.surveyOf f).onward i height height = .ok next := by
  obtain ⟨e, he', _, _, honward⟩ := Survey.successors_eq_ok.mp s.successors
  rw [Survey.effect_eq hcall hnative, he] at he'
  cases he'
  exact honward

theorem jump_next (s : p.Stop id f ip height i next) (hop : i.op = .jump) :
    ∃ distance, Word.read? f.chunk.code (ip+1) = some distance ∧
      next = [(ip+3+distance.toNat, height)] := by
  have hspelt := s.spelt
  rw [hop] at hspelt
  obtain ⟨distance, hword, hoperand⟩ := hspelt
  have honward := s.neutral (by simp [hop]) (by simp [hop]) (by simp [hop, Opcode.effect])
  simp only [Survey.onward, hop] at honward
  refine ⟨distance, hword, ?_⟩
  cases ht : (p.surveyOf f).target i with
  | error defect => simp [ht, Except.map] at honward
  | ok destination =>
    have htarget := (Survey.target_eq_ok.mp ht).1
    rw [Instruction.target?, hoperand, s.next_eq, hop] at htarget
    simp only [ht, Except.map, Except.ok.injEq] at honward
    subst honward
    cases htarget
    rfl

theorem jumpIf_next (s : p.Stop id f ip height i next) {truth : Bool} (hop : i.op = .jumpIf truth) :
    ∃ distance, Word.read? f.chunk.code (ip+1) = some distance ∧ 0 < height ∧
      next = [(ip+3, height), (ip+3+distance.toNat, height)] := by
  have hspelt := s.spelt
  rw [hop] at hspelt
  obtain ⟨distance, hword, hoperand⟩ := hspelt
  have honward := s.neutral (by simp [hop]) (by simp [hop]) (by simp [hop, Opcode.effect])
  simp only [Survey.onward, hop] at honward
  refine ⟨distance, hword, ?_⟩
  split at honward
  · cases honward
  · next hpos =>
    refine ⟨by omega, ?_⟩
    cases ht : (p.surveyOf f).target i with
    | error defect => simp [ht, Except.map] at honward
    | ok destination =>
      have htarget := (Survey.target_eq_ok.mp ht).1
      rw [Instruction.target?, hoperand, s.next_eq, hop] at htarget
      simp only [ht, Except.map, Except.ok.injEq, s.next_eq, hop] at honward
      subst honward
      cases htarget
      rfl

theorem loop_next (s : p.Stop id f ip height i next) (hop : i.op = .loop) :
    ∃ distance, Word.read? f.chunk.code (ip+1) = some distance ∧ distance.toNat ≤ ip+3 ∧
      next = [(ip+3-distance.toNat, height)] := by
  have hspelt := s.spelt
  rw [hop] at hspelt
  obtain ⟨distance, hword, hoperand⟩ := hspelt
  have honward := s.neutral (by simp [hop]) (by simp [hop]) (by simp [hop, Opcode.effect])
  simp only [Survey.onward, hop] at honward
  refine ⟨distance, hword, ?_⟩
  cases ht : (p.surveyOf f).target i with
  | error defect => simp [ht, Except.map] at honward
  | ok destination =>
    have htarget := (Survey.target_eq_ok.mp ht).1
    rw [Instruction.target?, hoperand, s.next_eq, hop] at htarget
    simp only [ht, Except.map, Except.ok.injEq] at honward
    subst honward
    simp only at htarget
    split at htarget
    · next hle =>
      cases htarget
      exact ⟨hle, rfl⟩
    · cases htarget

/-- A counted loop that ends goes on behind the loop instruction, one lower. -/
theorem endRepeat_next (s : p.Stop id f ip height i next) (hop : i.op = .endRepeat) :
    ∃ k, height = k+1 ∧ next = [(ip+1+Opcode.loop.width, k), (ip+1, k+1)] := by
  have honward := s.neutral (by simp [hop]) (by simp [hop]) (by simp [hop, Opcode.effect])
  simp only [Survey.onward, hop] at honward
  split at honward
  · cases honward
  · next hpos =>
    obtain ⟨k, hk⟩ : ∃ k, height = k+1 := ⟨height-1, by omega⟩
    subst hk
    refine ⟨k, rfl, ?_⟩
    unfold Survey.afterLoop at honward
    cases hj : (p.surveyOf f).start? i.next with
    | none => simp [hj, Except.map] at honward
    | some j =>
      have hoffset := (Program.mem_of_start? hj).2
      simp only [hj] at honward
      split at honward
      · next hloop =>
        simp only [Except.map, Except.ok.injEq, Instruction.next, hloop, hoffset, s.offset,
          hop] at honward
        subst honward
        rfl
      · cases honward

end Program.Stop

namespace Machine

/-- At one of the places that may come next, with the height there over the floor of the call. -/
def Onward (z : Setting) (pools : Array (Array Value)) (floor base id : Nat) (rest : List Frame)
    (next : List (Nat × Nat)) (m : Machine) : Prop :=
  ∃ a ∈ next, m.Poised z pools (floor+a.2) (⟨id, a.1, base⟩ :: rest)

end Machine

namespace Exec

open Machine

variable {p : Program} {z : Setting} {pools : Array (Array Value)} {rest : List Frame}
  {id ip base height floor : Nat} {f : Function} {i : Instruction} {next : List (Nat × Nat)}

theorem does_straight (s : p.Stop id f ip height i next) (h : i.op.isStraight = true) {e : Effect}
    (he : (p.surveyOf f).effect i = .ok e) {x : Exec Unit}
    (hx : ∀ k, k+e.pops = floor+height →
      Does (Poised z pools (k+e.pops) (⟨id, ip+1, base⟩ :: rest)) x
        fun _ => Poised z pools (k+e.pushes) (⟨id, ip+i.op.width, base⟩ :: rest)) :
    Does (Poised z pools (floor+height) (⟨id, ip+1, base⟩ :: rest)) x
      fun _ => Onward z pools floor base id rest next := by
  obtain ⟨hpops, hnext⟩ := s.straight h he
  have hk : floor+(height-e.pops)+e.pops = floor+height := by omega
  have hdoes := hx (floor+(height-e.pops)) hk
  rw [hk] at hdoes
  refine hdoes.mono (fun _ h => h) fun _ m hm => ?_
  rw [hnext]
  refine ⟨_, List.mem_singleton.mpr rfl, ?_⟩
  rwa [← Nat.add_assoc]

theorem jump_does (s : p.Stop id f ip height i next) (hop : i.op = .jump) :
    Does (Poised z pools (floor+height) (⟨id, ip+1, base⟩ :: rest)) (execute p id f .jump)
      fun _ => Onward z pools floor base id rest next := by
  obtain ⟨distance, hword, rfl⟩ := s.jump_next hop
  exact (execute_jump_does hword).mono (fun _ h => h) fun _ m hm =>
    ⟨_, List.mem_singleton.mpr rfl, hm⟩

theorem jumpIf_does (s : p.Stop id f ip height i next) {truth : Bool} (hop : i.op = .jumpIf truth) :
    Does (Poised z pools (floor+height) (⟨id, ip+1, base⟩ :: rest)) (execute p id f (.jumpIf truth))
      fun _ => Onward z pools floor base id rest next := by
  obtain ⟨distance, hword, hpos, rfl⟩ := s.jumpIf_next hop
  refine (execute_jumpIf_does hword (by omega)).mono (fun _ h => h) fun _ m hm => ?_
  rcases hm with hm | hm
  · exact ⟨_, List.mem_cons_self .., hm⟩
  · exact ⟨_, List.mem_cons_of_mem _ (List.mem_cons_self ..), hm⟩

theorem loop_does (s : p.Stop id f ip height i next) (hop : i.op = .loop) :
    Does (Poised z pools (floor+height) (⟨id, ip+1, base⟩ :: rest)) (execute p id f .loop)
      fun _ => Onward z pools floor base id rest next := by
  obtain ⟨distance, hword, hle, rfl⟩ := s.loop_next hop
  exact (execute_loop_does hword hle).mono (fun _ h => h) fun _ m hm =>
    ⟨_, List.mem_singleton.mpr rfl, hm⟩

theorem endRepeat_does (s : p.Stop id f ip height i next) (hop : i.op = .endRepeat) :
    Does (Poised z pools (floor+height) (⟨id, ip+1, base⟩ :: rest)) (execute p id f .endRepeat)
      fun _ => Onward z pools floor base id rest next := by
  obtain ⟨k, rfl, rfl⟩ := s.endRepeat_next hop
  refine execute_endRepeat_does.mono (fun _ h => h) fun _ m hm => ?_
  rcases hm with hm | hm
  · exact ⟨_, List.mem_cons_self .., hm⟩
  · exact ⟨_, List.mem_cons_of_mem _ (List.mem_cons_self ..), hm⟩

/-- Every instruction but the call and the return does as verification expects. -/
theorem execute_does (hz : z.Loads p pools) (hverify : p.verify = .ok ())
    (hf : p.function? id = some f) (hfloor : f.isScript = false → floor = base+1)
    (s : p.Stop id f ip height i next) (hcall : i.op ≠ .call) (hret : i.op ≠ .ret) :
    Does (Poised z pools (floor+height) (⟨id, ip+1, base⟩ :: rest)) (execute p id f i.op)
      fun _ => Onward z pools floor base id rest next := by
  have hspelt := s.spelt
  have hcheck := s.operand
  unfold Function.checkOperand at hcheck
  have hwidth : i.op.width = 1+i.op.layout.length := rfl
  by_cases hend : i.op = .endRepeat
  · rw [hend]
    exact endRepeat_does s hend
  have hstraight := Opcode.isStraight_of_layout hret hend
  have heffect (hnative : i.op.layout ≠ .native) :
      (p.surveyOf f).effect i = .ok i.op.effect := by
    apply Survey.effect_eq hcall
    intro hop
    exact hnative (hop ▸ rfl)
  have hfew := i.op.of_layout
  cases hlayout : i.op.layout with
  | none =>
    rw [hlayout] at hwidth
    refine does_straight s (hstraight (by simp [hlayout]) (by simp [hlayout]))
      (heffect (by simp [hlayout])) fun k _ => ?_
    rw [hwidth]
    exact execute_none_does hz hlayout hret hend
  | constant =>
    rw [hlayout] at hwidth hspelt
    obtain ⟨index, hindex, hoperand⟩ := hspelt
    rw [hoperand] at hcheck
    refine does_straight s (hstraight (by simp [hlayout]) (by simp [hlayout]))
      (heffect (by simp [hlayout])) fun k _ => ?_
    rw [hwidth]
    exact execute_constant_does hz hlayout hcall hf hindex hcheck
  | slot =>
    rw [hlayout] at hwidth hspelt
    obtain ⟨slot, hslot, hoperand⟩ := hspelt
    obtain ⟨hscript, hlt⟩ := s.slot hoperand
    refine does_straight s (hstraight (by simp [hlayout]) (by simp [hlayout]))
      (heffect (by simp [hlayout])) fun k hk => ?_
    rw [hwidth]
    have hfloor := hfloor hscript
    exact execute_slot_does hz hlayout hslot (by omega)
  | jump =>
    rw [hlayout] at hfew
    rcases hfew with hop | ⟨truth, hop⟩
    · rw [hop]
      exact jump_does s hop
    · rw [hop]
      exact jumpIf_does s hop
  | loop =>
    rw [hlayout] at hfew
    rw [hfew]
    exact loop_does s hfew
  | runnable =>
    rw [hlayout] at hwidth hspelt hfew
    obtain ⟨index, lines, hindex, hlines, hoperand⟩ := hspelt
    rw [hoperand, hfew] at hcheck
    refine does_straight s (hstraight (by simp [hlayout]) (by simp [hlayout]))
      (heffect (by simp [hlayout])) fun k _ => ?_
    rw [hwidth, hfew]
    exact execute_defineRunnable_does hz hf hindex hlines hcheck
      fun callee hzero => (Program.isScript_iff hverify hzero).mpr rfl
  | native =>
    rw [hlayout] at hwidth hspelt hfew
    obtain ⟨index, arguments, hindex, harguments, hoperand⟩ := hspelt
    rw [hoperand, hfew] at hcheck
    refine does_straight s (e := ⟨arguments.toNat+1, 1⟩)
      (hstraight (by simp [hlayout]) (by simp [hlayout])) ?_ fun k _ => ?_
    · simp only [Survey.effect, hfew, hoperand]
    · rw [hwidth, hfew]
      exact execute_callNative_does hz hindex harguments hcheck

end Exec
end RatScript
