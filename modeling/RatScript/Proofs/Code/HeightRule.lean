import RatScript.Proofs.Code.Verified

/-!
The rule that verification decides. Heights are given to offsets of a function, and each of them
obeys the instruction that stands there; how they are found does not matter. Verification succeeds
exactly if such heights exist, and finds the fewest.
-/

namespace RatScript

/-- What it means that exploration goes on from an instruction, by the kind of instruction. -/
theorem Survey.onward_cases {s : Survey} {i : Instruction} {height after : Nat}
    {next : List (Nat × Nat)} (h : s.onward i height after = .ok next) :
    (i.op = .ret ∧ next = []) ∨
    ((i.op = .jump ∨ i.op = .loop) ∧ ∃ t, s.target i = .ok t ∧ next = [(t, after)]) ∨
    ((∃ truth, i.op = .jumpIf truth) ∧ 1 ≤ height ∧
      ∃ t, s.target i = .ok t ∧ next = [(i.next, after), (t, after)]) ∨
    (i.op = .endRepeat ∧ 1 ≤ height ∧
      ∃ out, s.afterLoop i = .ok out ∧ next = [(out, after-1), (i.next, after)]) ∨
    (i.op ≠ .ret ∧ i.op ≠ .jump ∧ i.op ≠ .loop ∧ (∀ truth, i.op ≠ .jumpIf truth) ∧
      i.op ≠ .endRepeat ∧ next = [(i.next, after)]) := by
  have hmap {α : Type} {x : Except Defect α} {g : α → List (Nat × Nat)}
      (h : x.map g = .ok next) : ∃ a, x = .ok a ∧ next = g a := by
    cases x with
    | error defect => cases h
    | ok a =>
      cases h
      exact ⟨a, rfl, rfl⟩
  unfold onward at h
  split at h
  · next hop =>
    cases h
    exact .inl ⟨hop, rfl⟩
  · next hop => exact .inr (.inl ⟨.inl hop, hmap h⟩)
  · next hop => exact .inr (.inl ⟨.inr hop, hmap h⟩)
  · next truth hop =>
    split at h
    · cases h
    · exact .inr (.inr (.inl ⟨⟨truth, hop⟩, by omega, hmap h⟩))
  · next hop =>
    split at h
    · cases h
    · exact .inr (.inr (.inr (.inl ⟨hop, by omega, hmap h⟩)))
  · next hret hjump hloop hif hend =>
    cases h
    exact .inr (.inr (.inr (.inr ⟨hret, hjump, hloop, hif, hend, rfl⟩)))

namespace Instruction

variable {code : Array UInt8} {i : Instruction}

/-- Decoding goes forward, and no instruction begins behind the code. -/
theorem decodeFrom_offsets {offset : Nat} {found : Array Instruction}
    (hfound : (found.toList.map Instruction.offset).Nodup)
    (hbefore : ∀ j ∈ found, j.offset < offset ∧ j.offset < code.size) :
    ((decodeFrom code offset found).1.toList.map Instruction.offset).Nodup ∧
      ∀ j ∈ (decodeFrom code offset found).1, j.offset < code.size := by
  fun_induction decodeFrom code offset found with
  | case1 offset found hlt j hj ih =>
    have hoffset := (decode_eq_ok hj).2.2
    refine ih ?_ ?_
    · rw [Array.toList_push, List.map_append, List.nodup_append]
      refine ⟨hfound, by simp, ?_⟩
      intro a ha b hb
      obtain ⟨k, hk, rfl⟩ := List.mem_map.mp ha
      have hlow := (hbefore k (Array.mem_toList_iff.mp hk)).1
      rw [List.map_cons, List.map_nil, List.mem_singleton] at hb
      omega
    · intro k hk
      have hwidth : 0 < j.op.width := by
        simp only [Opcode.width]
        omega
      rcases Array.mem_push.mp hk with hk | rfl
      · have hold := hbefore k hk
        omega
      · omega
  | case2 offset found hlt fault hfault => exact ⟨hfound, fun j hj => (hbefore j hj).2⟩
  | case3 offset found hge => exact ⟨hfound, fun j hj => (hbefore j hj).2⟩

theorem decode_offsets (chunk : Chunk) :
    (chunk.instructions.map Instruction.offset).Nodup ∧
      ∀ i ∈ chunk.instructions, i.offset < chunk.code.size := by
  have h : ((decodeFrom chunk.code 0 #[]).1.toList.map Instruction.offset).Nodup ∧ _ :=
    decodeFrom_offsets (by simp) (by simp)
  exact ⟨h.1, fun i hi => h.2 i (Array.mem_toList_iff.mp hi)⟩

theorem eq_of_offset {chunk : Chunk} {j : Instruction} (hi : i ∈ chunk.instructions)
    (hj : j ∈ chunk.instructions) (h : i.offset = j.offset) : i = j :=
  List.inj_on_of_nodup_map (decode_offsets chunk).1 hi hj h

theorem layout_of_read? {offset : Nat} {layout : Layout} {operand : Operand}
    (h : Operand.read? code offset layout = some operand) : operand.layout = layout := by
  cases layout with
  | none =>
    cases h
    rfl
  | constant | slot | jump | loop =>
    obtain ⟨_, _, rfl⟩ := Option.map_eq_some_iff.mp h
    rfl
  | runnable | native =>
    simp only [Operand.read?, Option.bind_eq_bind, Option.bind_eq_some_iff, Option.some.injEq] at h
    obtain ⟨_, _, _, _, rfl⟩ := h
    rfl

/-- An instruction of a chunk has an operand laid out as its operation needs. -/
theorem laid_of_mem {chunk : Chunk} (hi : i ∈ chunk.instructions) :
    i.operand.layout = i.op.layout := by
  have hmem : i ∈ chunk.decode.1 := by simpa [Chunk.instructions] using hi
  obtain ⟨byte, _, hdecode⟩ := decode_of_mem hmem
  exact layout_of_read? (decode_eq_ok hdecode).2.1

/-- Only jumps and loops have a place to go to. -/
theorem jumps_of_target? (hlaid : i.operand.layout = i.op.layout) {t : Nat}
    (ht : i.target? = some t) : i.op = .jump ∨ i.op = .loop ∨ ∃ truth, i.op = .jumpIf truth := by
  have hlayout := i.op.of_layout
  rw [← hlaid] at hlayout
  unfold target? at ht
  split at ht
  · next hoperand =>
    rw [hoperand] at hlayout
    rcases hlayout with hop | hop
    · exact .inl hop
    · exact .inr (.inr hop)
  · next hoperand =>
    rw [hoperand] at hlayout
    exact .inr (.inl hlayout)
  · cases ht

end Instruction

theorem Program.start?_eq_some {p : Program} {f : Function} {offset : Nat} {i : Instruction} :
    (p.surveyOf f).start? offset = some i ↔ i ∈ f.chunk.instructions ∧ i.offset = offset := by
  have hoffsets := Instruction.decode_offsets f.chunk
  constructor
  · intro h
    obtain ⟨hi, hoffset⟩ := mem_of_start? h
    exact ⟨by simpa [Chunk.instructions] using hi, hoffset⟩
  · rintro ⟨hi, rfl⟩
    have hmem : i ∈ f.chunk.decode.1 := by simpa [Chunk.instructions] using hi
    exact p.start?_survey f hoffsets.1 hmem (Nat.le_of_lt (hoffsets.2 i hi))

/-- Values that an instruction of a function takes off the stack and puts on it. A call is charged
with the arity of the first function of that name behind the script. -/
inductive Program.Charges (p : Program) (f : Function) (i : Instruction) : Effect → Prop
  | call {index : UInt8} {name : String} {callee : Function} (hop : i.op = .call)
    (hoperand : i.operand = .constant index) (hname : f.chunk.constant? index = some (.text name))
    (hcallee : p.runnable? name = some callee) : Charges p f i ⟨callee.arity+1, 1⟩
  | native {index arguments : UInt8} (hop : i.op = .callNative)
    (hoperand : i.operand = .native index arguments) : Charges p f i ⟨arguments.toNat+1, 1⟩
  | other (hcall : i.op ≠ .call) (hnative : i.op ≠ .callNative) : Charges p f i i.op.effect

namespace Function

/-- What an instruction asks for besides its values: a slot below the height and in a runnable, a
value to look at, a loop behind the end of a counted one, a place in the code to go to. -/
structure Grants (f : Function) (i : Instruction) (height : Nat) : Prop where
  slot : ∀ slot, i.operand = .slot slot → f.isScript = false ∧ slot.toNat < height
  looks : (∃ truth, i.op = .jumpIf truth) ∨ i.op = .endRepeat → 1 ≤ height
  closes : i.op = .endRepeat → ∃ j ∈ f.chunk.instructions, j.offset = i.next ∧ j.op = .loop
  lands : i.op = .jump ∨ i.op = .loop ∨ (∃ truth, i.op = .jumpIf truth) →
    ∃ t, i.target? = some t ∧ t ≤ f.chunk.code.size

/-- What may come after an instruction met at a height: the next one, the one it jumps to, or, when
a count is used up, the one behind the loop. -/
inductive Follows (f : Function) (i : Instruction) (e : Effect) (height : Nat) : Nat × Nat → Prop
  | next (hret : i.op ≠ .ret) (hjump : i.op ≠ .jump) (hloop : i.op ≠ .loop) :
    Follows f i e height (i.next, height-e.pops+e.pushes)
  | jump {t : Nat} (ht : i.target? = some t) : Follows f i e height (t, height-e.pops+e.pushes)
  | out {j : Instruction} (hend : i.op = .endRepeat) (hj : j ∈ f.chunk.instructions)
    (hoffset : j.offset = i.next) : Follows f i e height (j.next, height-1)

end Function

/-- Heights given to offsets of a function obey the instructions there. -/
structure Program.Assigns (p : Program) (f : Function) (H : Nat → Option Nat) : Prop where
  entry : H 0 = some f.arity ∨ f.chunk.code.size = 0 ∧ f.isScript = true
  obeys : ∀ offset height, H offset = some height →
    ∃ i ∈ f.chunk.instructions, i.offset = offset ∧ f.Grants i height ∧
      ∃ e, p.Charges f i e ∧ e.pops ≤ height ∧
        ∀ a, f.Follows i e height a →
          a.1 = f.chunk.code.size ∧ f.isScript = true ∨
            (∃ j ∈ f.chunk.instructions, j.offset = a.1) ∧ H a.1 = some a.2

/-- Cells that an instruction takes off the stack in its turn. A call of a runnable takes none off,
and a return is not told by its instruction. -/
def Instruction.taken (i : Instruction) : Nat :=
  match i.op, i.operand with
  | .callNative, .native _ arguments => arguments.toNat+1
  | .endRepeat, _ => 1
  | op, _ => op.effect.pops

/-- Cells that are gone when an instruction of that effect is through. -/
def Instruction.removes (i : Instruction) (e : Effect) : Nat :=
  if i.op = .endRepeat then 1 else e.pops

theorem Program.Charges.taken_le {p : Program} {f : Function} {i : Instruction} {e : Effect}
    (h : p.Charges f i e) : i.taken ≤ i.removes e := by
  unfold Instruction.removes
  split
  · next hend =>
    obtain ⟨offset, op, operand⟩ := i
    cases hend
    exact Nat.le_refl _
  next hend =>
  obtain ⟨offset, op, operand⟩ := i
  cases h with
  | call hop =>
    cases hop
    exact Nat.zero_le _
  | native hop hoperand =>
    cases hop
    cases hoperand
    exact Nat.le_refl _
  | other _ hnative =>
    cases op <;> first | exact absurd rfl hnative | exact absurd rfl hend | exact Nat.le_refl _

namespace Program

variable {p : Program} {f : Function} {i : Instruction} {height : Nat}

theorem effect_eq_ok (hi : i.operand.layout = i.op.layout) {e : Effect} :
    (p.surveyOf f).effect i = .ok e ↔ p.Charges f i e := by
  obtain ⟨offset, op, operand⟩ := i
  by_cases hcall : op = .call
  · subst hcall
    cases operand with
    | constant index =>
      simp only [Survey.effect, Function.identifier?, surveyOf, survey]
      constructor
      · intro h
        split at h
        · cases h
        · next name hidentifier =>
          split at h
          · cases h
          · next callee hcallee =>
            cases h
            split at hidentifier
            · next hconstant =>
              cases hidentifier
              exact .call rfl rfl hconstant hcallee
            · cases hidentifier
      · intro h
        cases h with
        | call _ hoperand hname hcallee =>
          cases hoperand
          rw [hname]
          simp only [hcallee]
        | native hop => cases hop
        | other hcall => exact absurd rfl hcall
    | none | slot | jump | loop | runnable | native => cases hi
  by_cases hnative : op = .callNative
  · subst hnative
    cases operand with
    | native index arguments =>
      constructor
      · intro h
        cases h
        exact .native rfl rfl
      · intro h
        cases h with
        | call hop => cases hop
        | native _ hoperand =>
          cases hoperand
          rfl
        | other _ hnative => exact absurd rfl hnative
    | none | constant | slot | jump | loop | runnable => cases hi
  rw [Survey.effect_eq hcall hnative, Except.ok.injEq]
  constructor
  · rintro rfl
    exact .other hcall hnative
  · intro h
    cases h with
    | call hop => exact absurd hop hcall
    | native hop => exact absurd hop hnative
    | other => rfl

theorem afterLoop_eq_ok {out : Nat} :
    (p.surveyOf f).afterLoop i = .ok out ↔
      ∃ j ∈ f.chunk.instructions, j.offset = i.next ∧ j.op = .loop ∧ j.next = out := by
  simp only [Survey.afterLoop_eq_ok, start?_eq_some, and_assoc]

theorem Charges.effect_eq {e : Effect} (h : p.Charges f i e) (hcall : i.op ≠ .call)
    (hnative : i.op ≠ .callNative) : e = i.op.effect := by
  cases h with
  | call hop => exact absurd hop hcall
  | native hop => exact absurd hop hnative
  | other => rfl

/-- Where exploration goes on from an instruction is where paths may lead from it. -/
theorem mem_onward_iff (hlaid : i.operand.layout = i.op.layout) {e : Effect}
    (he : p.Charges f i e) {next : List (Nat × Nat)}
    (h : (p.surveyOf f).onward i height (height-e.pops+e.pushes) = .ok next) (a : Nat × Nat) :
    a ∈ next ↔ f.Follows i e height a := by
  have hjumps {t : Nat} (ht : i.target? = some t) := Instruction.jumps_of_target? hlaid ht
  rcases Survey.onward_cases h with ⟨hop, rfl⟩ | ⟨hop, t, ht, rfl⟩ | ⟨⟨truth, hop⟩, _, t, ht, rfl⟩ |
    ⟨hop, _, out, hout, rfl⟩ | ⟨hret, hjump, hloop, hif, hend, rfl⟩
  · constructor
    · intro ha
      cases ha
    · intro ha
      cases ha with
      | next hret => exact absurd hop hret
      | jump ht => simpa [hop] using hjumps ht
      | out hend => simp [hop] at hend
  · have htarget := (Survey.target_eq_ok.mp ht).1
    constructor
    · intro ha
      obtain rfl := List.mem_singleton.mp ha
      exact .jump htarget
    · intro ha
      cases ha with
      | next _ hjump hloop => exact absurd hop (by simp [hjump, hloop])
      | jump ht => simp_all
      | out hend => simp [hend] at hop
  · have htarget := (Survey.target_eq_ok.mp ht).1
    constructor
    · intro ha
      rcases List.mem_pair.mp ha with rfl | rfl
      · exact .next (by simp [hop]) (by simp [hop]) (by simp [hop])
      · exact .jump htarget
    · intro ha
      cases ha with
      | next => simp
      | jump ht => simp_all
      | out hend => simp [hop] at hend
  · obtain ⟨j, hj, hoffset, _, rfl⟩ := afterLoop_eq_ok.mp hout
    obtain rfl := he.effect_eq (by simp [hop]) (by simp [hop])
    have heffect : i.op.effect = ⟨0, 0⟩ := by rw [hop]; rfl
    constructor
    · intro ha
      rcases List.mem_pair.mp ha with rfl | rfl
      · simpa [heffect] using Function.Follows.out hop hj hoffset
      · exact .next (by simp [hop]) (by simp [hop]) (by simp [hop])
    · intro ha
      cases ha with
      | next => simp
      | jump ht => simpa [hop] using hjumps ht
      | out _ hk hkoffset =>
        obtain rfl := Instruction.eq_of_offset hj hk (hoffset.trans hkoffset.symm)
        simp [heffect]
  · constructor
    · intro ha
      obtain rfl := List.mem_singleton.mp ha
      exact .next hret hjump hloop
    · intro ha
      cases ha with
      | next => simp
      | jump ht => simpa [hjump, hloop, hif] using hjumps ht
      | out hop => exact absurd hop hend

theorem grants_of_onward {after : Nat} {next : List (Nat × Nat)}
    (hslot : (p.surveyOf f).SlotLive i height)
    (h : (p.surveyOf f).onward i height after = .ok next) : f.Grants i height := by
  rcases Survey.onward_cases h with ⟨hop, _⟩ | ⟨hop, t, ht, _⟩ | ⟨⟨truth, hop⟩, hpos, t, ht, _⟩ |
    ⟨hop, hpos, out, hout, _⟩ | ⟨_, hjump, hloop, hif, hend, _⟩
  · exact ⟨hslot, by simp [hop], by simp [hop], by simp [hop]⟩
  · refine ⟨hslot, ?_, ?_, fun _ => ⟨t, Survey.target_eq_ok.mp ht⟩⟩
    · rintro (⟨truth, hif⟩ | hend)
      · simp [hif] at hop
      · simp [hend] at hop
    · intro hend
      simp [hend] at hop
  · exact ⟨hslot, fun _ => hpos, by simp [hop], fun _ => ⟨t, Survey.target_eq_ok.mp ht⟩⟩
  · obtain ⟨j, hj, hoffset, hloop, _⟩ := afterLoop_eq_ok.mp hout
    exact ⟨hslot, fun _ => hpos, fun _ => ⟨j, hj, hoffset, hloop⟩, by simp [hop]⟩
  · exact ⟨hslot, by simp [hif, hend], by simp [hend], by simp [hjump, hloop, hif]⟩

theorem onward_of_grants (h : f.Grants i height) (after : Nat) :
    ∃ next, (p.surveyOf f).onward i height after = .ok next := by
  have htarget (hop : i.op = .jump ∨ i.op = .loop ∨ ∃ truth, i.op = .jumpIf truth) :
      ∃ t, (p.surveyOf f).target i = .ok t := by
    obtain ⟨t, ht, hsize⟩ := h.lands hop
    exact ⟨t, Survey.target_eq_ok.mpr ⟨ht, hsize⟩⟩
  unfold Survey.onward
  split
  · exact ⟨_, rfl⟩
  · next hop =>
    obtain ⟨t, ht⟩ := htarget (.inl hop)
    exact ⟨_, by rw [ht]; rfl⟩
  · next hop =>
    obtain ⟨t, ht⟩ := htarget (.inr (.inl hop))
    exact ⟨_, by rw [ht]; rfl⟩
  · next truth hop =>
    obtain ⟨t, ht⟩ := htarget (.inr (.inr ⟨truth, hop⟩))
    have hpos := h.looks (.inl ⟨truth, hop⟩)
    exact ⟨_, by rw [if_neg (by omega), ht]; rfl⟩
  · next hop =>
    obtain ⟨j, hj, hoffset, hloop⟩ := h.closes hop
    have hout := (afterLoop_eq_ok (p := p)).mpr ⟨j, hj, hoffset, hloop, rfl⟩
    have hpos := h.looks (.inr hop)
    exact ⟨_, by rw [if_neg (by omega), hout]; rfl⟩
  · exact ⟨_, rfl⟩

/-- The rule of one instruction: exploration goes on from it exactly if it is granted what it asks
for and its values are there, and then to all that may follow. -/
theorem successors_eq_ok (hi : i ∈ f.chunk.instructions) {P : Nat × Nat → Prop} :
    (∃ next, (p.surveyOf f).successors i height = .ok next ∧ ∀ a ∈ next, P a) ↔
      f.Grants i height ∧ ∃ e, p.Charges f i e ∧ e.pops ≤ height ∧
        ∀ a, f.Follows i e height a → P a := by
  have hlaid := Instruction.laid_of_mem hi
  constructor
  · rintro ⟨next, hnext, hall⟩
    obtain ⟨e, he, hpops, hslot, honward⟩ := Survey.successors_eq_ok.mp hnext
    have hcharges := (effect_eq_ok hlaid).mp he
    refine ⟨grants_of_onward hslot honward, e, hcharges, hpops, fun a ha => hall a ?_⟩
    exact (mem_onward_iff hlaid hcharges honward a).mpr ha
  · rintro ⟨hgrants, e, hcharges, hpops, hall⟩
    obtain ⟨next, honward⟩ := onward_of_grants (p := p) hgrants (height-e.pops+e.pushes)
    have he := (effect_eq_ok hlaid).mpr hcharges
    refine ⟨next, Survey.successors_eq_ok.mpr ⟨e, he, hpops, hgrants.slot, honward⟩, ?_⟩
    exact fun a ha => hall a ((mem_onward_iff hlaid hcharges honward a).mp ha)

/-- The instruction is one of those the code is made of. -/
theorem Stop.mem {id ip : Nat} {next : List (Nat × Nat)} (s : p.Stop id f ip height i next)
    (hf : p.function? id = some f) (h : p.Meets id ip height) : i ∈ f.chunk.instructions := by
  obtain ⟨g, hg, ⟨j, hj, rfl⟩, _⟩ := h
  obtain rfl : f = g := Option.some.inj (hf.symm.trans hg)
  obtain ⟨byte, hbyte, hdecode⟩ := s.byte
  have hmem : j ∈ f.chunk.decode.1 := by simpa [Chunk.instructions] using hj
  obtain ⟨byte', hbyte', hdecode'⟩ := Instruction.decode_of_mem hmem
  obtain rfl : byte = byte' := Option.some.inj (hbyte.symm.trans hbyte')
  rw [hdecode] at hdecode'
  cases hdecode'
  exact hj

/-- Verification goes on to all that may follow. -/
theorem Stop.follows {id ip : Nat} {next : List (Nat × Nat)} (s : p.Stop id f ip height i next)
    (hi : i ∈ f.chunk.instructions) :
    ∃ e, p.Charges f i e ∧ e.pops ≤ height ∧ i.taken ≤ height ∧
      ∀ a, a ∈ next ↔ f.Follows i e height a := by
  obtain ⟨e, he, hpops, hslot, honward⟩ := Survey.successors_eq_ok.mp s.successors
  have hlaid := Instruction.laid_of_mem hi
  have hcharges := (effect_eq_ok hlaid).mp he
  refine ⟨e, hcharges, hpops, hcharges.taken_le.trans ?_, mem_onward_iff hlaid hcharges honward⟩
  unfold Instruction.removes
  split
  · next hend => exact (grants_of_onward hslot honward).looks (.inr hend)
  · exact hpops

/-- A path comes to an instruction at the height given there, or to the end of the script. -/
theorem admits_iff {H : Nat → Option Nat} (a : Nat × Nat)
    (hH : ∀ offset height, H offset = some height → ∃ i ∈ f.chunk.instructions, i.offset = offset) :
    (p.surveyOf f).Admits H a ↔ a.1 = f.chunk.code.size ∧ f.isScript = true ∨
      (∃ j ∈ f.chunk.instructions, j.offset = a.1) ∧ H a.1 = some a.2 := by
  have hbefore := (Instruction.decode_offsets f.chunk).2
  change (if a.1 = f.chunk.code.size then f.isScript = true else H a.1 = some a.2) ↔ _
  split
  · next hend =>
    constructor
    · exact fun hscript => .inl ⟨hend, hscript⟩
    · rintro (⟨_, hscript⟩ | ⟨⟨j, hj, hoffset⟩, _⟩)
      · exact hscript
      · have := hbefore j hj
        omega
  · next hend =>
    constructor
    · exact fun h => .inr ⟨hH a.1 a.2 h, h⟩
    · rintro (⟨h, _⟩ | ⟨_, h⟩)
      · exact absurd h hend
      · exact h

/-- The rule for heights is what exploration keeps to. -/
theorem assigns_iff {H : Nat → Option Nat} :
    p.Assigns f H ↔ (p.surveyOf f).Consistent H ∧ (p.surveyOf f).Admits H (0, f.arity) := by
  have hbefore := (Instruction.decode_offsets f.chunk).2
  constructor
  · intro h
    have hH (offset height : Nat) (ho : H offset = some height) :
        ∃ i ∈ f.chunk.instructions, i.offset = offset := by
      obtain ⟨i, hi, hoffset, _⟩ := h.obeys offset height ho
      exact ⟨i, hi, hoffset⟩
    constructor
    · intro offset height ho
      obtain ⟨i, hi, hoffset, hrule⟩ := h.obeys offset height ho
      obtain ⟨next, hnext, hall⟩ := (successors_eq_ok hi).mpr hrule
      refine ⟨hoffset ▸ hbefore i hi, i, next, start?_eq_some.mpr ⟨hi, hoffset⟩, hnext, ?_⟩
      exact fun a ha => (admits_iff a hH).mpr (hall a ha)
    · refine (admits_iff _ hH).mpr ?_
      rcases h.entry with hentry | ⟨hsize, hscript⟩
      · exact .inr ⟨hH _ _ hentry, hentry⟩
      · exact .inl ⟨hsize.symm, hscript⟩
  · rintro ⟨hc, hentry⟩
    have hH (offset height : Nat) (ho : H offset = some height) :
        ∃ i ∈ f.chunk.instructions, i.offset = offset := by
      obtain ⟨_, i, _, hi, _⟩ := hc offset height ho
      exact ⟨i, start?_eq_some.mp hi⟩
    constructor
    · rcases (admits_iff _ hH).mp hentry with ⟨hsize, hscript⟩ | ⟨_, hzero⟩
      · exact .inr ⟨hsize.symm, hscript⟩
      · exact .inl hzero
    · intro offset height ho
      obtain ⟨_, i, next, hstart, hnext, hall⟩ := hc offset height ho
      obtain ⟨hi, hoffset⟩ := start?_eq_some.mp hstart
      refine ⟨i, hi, hoffset, (successors_eq_ok hi).mp ⟨next, hnext, ?_⟩⟩
      exact fun a ha => (admits_iff a hH).mp (hall a ha)

/-- What is asked of a function before any height is given: its place, its code and its operands. -/
structure Formed (p : Program) (id : Nat) (f : Function) : Prop where
  place : checkEnclosing id f = .ok ()
  decodes : f.chunk.decode.2 = none
  operands : ∀ i ∈ f.chunk.instructions, f.checkOperand p i = .ok ()

theorem checkOperands_ok {is : List Instruction} (h : ∀ i ∈ is, f.checkOperand p i = .ok ()) :
    p.checkOperands f is = .ok () := by
  induction is with
  | nil => rfl
  | cons i rest ih =>
    rw [checkOperands, h i (by simp)]
    exact ih fun j hj => h j (by simp [hj])

theorem Formed.heights_eq {id : Nat} (h : p.Formed id f) :
    p.heights id f = (p.surveyOf f).explore
      (Array.replicate ((p.surveyOf f).size+1) none) [(0, (p.surveyOf f).function.arity)] := by
  have hoperands : p.checkOperands f f.chunk.decode.1.toList = .ok () := checkOperands_ok h.operands
  simp only [heights, h.place, hoperands, h.decodes, bind, Except.bind]
  rfl

theorem formed_of_heights {id : Nat} {heights : Array (Option Nat)}
    (h : p.heights id f = .ok heights) : p.Formed id f := by
  obtain ⟨hplace, hheights⟩ := heights_eq_ok h
  refine ⟨hplace, ?_, fun i hi => hheights.operands i (Array.mem_toList_iff.mp hi)⟩
  cases hfault : f.chunk.decode.2 with
  | none => rfl
  | some fault =>
    have hoperands : p.checkOperands f f.chunk.decode.1.toList = .ok () :=
      checkOperands_ok fun i hi => hheights.operands i (Array.mem_toList_iff.mp hi)
    simp [Program.heights, hplace, hoperands, hfault, bind, Except.bind] at h

/-- Goes round in a circle, and may put a value on the stack each time. -/
def circling (climbs : Bool) : Function :=
  ⟨"<script>", 0, #[], ⟨if climbs then #[3, 52, 0, 4] else #[52, 0, 3], #[]⟩, none, 0⟩

theorem circling_heights :
    heights ⟨#[circling false]⟩ 0 (circling false) = .ok #[some 0, none, none, none] ∧
      heights ⟨#[circling true]⟩ 0 (circling true) =
        .error ⟨"<script>", 0, .heightsDiffer 0 1⟩ := by
  constructor <;> cbv

end Program
end RatScript
