import RatScript.Proofs.Machine.Pointers
import RatScript.Proofs.Machine.SelfJoin

/-!
The machine reads operands where decoding finds them. An instruction that cannot be decoded fails,
and one that succeeds leaves the executing call at the place that its decoded form names, whatever
the program is.
-/

namespace RatScript

open Stateful

namespace Machine

variable {m : Machine} {i : Instruction} {fr : Frame} {rest gs : List Frame}

/-- Whether the value on top makes a conditional jump that waits for `truth`. -/
def jumpsOn (m : Machine) (truth : Bool) : Bool :=
  match m.stack.back? with
  | some v =>
    match m.heap.isTruthy v with
    | .ok b => b == truth
    | .error _ => false
  | none => false

/-- Whether the counter on top has no pass left but the one that ends. -/
def countedOut (m : Machine) : Bool :=
  match m.stack.back? with
  | some (.number n) =>
    let left := n.sub (.ofInt 1)
    left.less .zero || left.same .zero
  | _ => false

/-- Where the executing call goes on behind an instruction that neither calls nor returns. -/
def goesOn? (m : Machine) (i : Instruction) : Option Nat :=
  match i.op with
  | .jump | .loop => i.target?
  | .jumpIf truth => if m.jumpsOn truth then i.target? else some i.next
  | .endRepeat => some (if m.countedOut then i.next+Opcode.loop.width else i.next)
  | _ => some i.next

/-- The active calls behind an instruction that `fr` executes from the machine, `rest` being the
calls around it. -/
def Continues (m : Machine) (i : Instruction) (fr : Frame) (rest gs : List Frame) : Prop :=
  match i.op with
  | .ret => gs = rest
  | .call => ∃ callee base, gs = ⟨callee, 0, base⟩ :: {fr with ip := i.next} :: rest
  | _ => ∃ ip, m.goesOn? i = some ip ∧ gs = {fr with ip := ip} :: rest

theorem continues_of_straight (h : i.op.isStraight = true) (hcall : i.op ≠ .call)
    (hgs : gs = {fr with ip := i.next} :: rest) : m.Continues i fr rest gs := by
  unfold Continues
  split
  · next hop => simp [hop, Opcode.isStraight] at h
  · next hop => exact absurd hop hcall
  · refine ⟨i.next, ?_, hgs⟩
    unfold goesOn?
    split <;> simp_all [Opcode.isStraight]

end Machine

namespace Exec

open Machine

variable {α β : Type} {p : Program} {m m' : Machine} {f : Function} {fr : Frame}
  {rest fs : List Frame}
  {v : Value}

/-! What parts that succeed have found. -/

theorem readWord_changes {code : Array UInt8} {word : UInt16} (h : readWord code m = .ok word m') :
    ∃ fr rest, m.frames = fr :: rest ∧ Word.read? code fr.ip = some word ∧
      m' = {m with frames := {fr with ip := fr.ip+2} :: rest} := by
  obtain ⟨high, m₁, hhigh, h⟩ := bind_eq_ok.mp h
  obtain ⟨low, m₂, hlow, h⟩ := bind_eq_ok.mp h
  obtain ⟨hword, rfl⟩ := pure_eq_ok.mp h
  obtain ⟨fr, rest, hframes, hfirst, rfl⟩ := readByte_changes hhigh
  obtain ⟨_, _, hframes', hsecond, rfl⟩ := readByte_changes hlow
  cases hframes'
  exact ⟨fr, rest, hframes, by simp [Word.read?, hfirst, hsecond, hword], rfl⟩

theorem found_of_ask {x : Heap → Except HeapFault α} {a : α} (h : ask x m = .ok a m') :
    m = m' ∧ x m.heap = .ok a := by
  obtain ⟨s, t, hs, h⟩ := bind_eq_ok.mp h
  obtain ⟨rfl, rfl⟩ := get_eq_ok.mp hs
  cases hx : x m.heap with
  | ok b =>
    rw [hx] at h
    obtain ⟨rfl, rfl⟩ := pure_eq_ok.mp h
    exact ⟨rfl, rfl⟩
  | error e =>
    rw [hx] at h
    exact absurd h throw_ne_ok

theorem top_of_peek (h : peek 0 m = .ok v m') : m = m' ∧ m.stack.back? = some v := by
  have hsize := size_of_peek h
  have hback : m.stack.back? = some m.stack[m.stack.size-1] := by
    rw [Array.back?_eq_getElem?]
    exact Array.getElem?_eq_getElem (by omega)
  have htop := peek_top hback
  rw [h] at htop
  cases htop
  exact ⟨rfl, hback⟩

/-- What a first part has found does not hang on those behind it. -/
theorem Moves.lead {φ : Prop} {x : Exec α} {k : α → Exec β} (hx : Moves fs x fun _ _ => φ) :
    Moves fs (x >>= k) fun _ _ => φ :=
  Moves.bind hx fun a gs hφ m _ => by
    cases k a m <;> first | exact hφ | trivial

section
variable {id ip base : Nat}

/-- An operation that succeeds has read an operand. -/
theorem execute_reads (p : Program) (f : Function) (op : Opcode) :
    Moves (⟨id, ip, base⟩ :: rest) (execute p id f op)
      fun _ _ => ∃ operand, Operand.read? f.chunk.code ip op.layout = some operand := by
  have hbyte (layout : Layout) (h : layout = .constant ∨ layout = .slot) :
      Moves (⟨id, ip, base⟩ :: rest) (readByte f.chunk.code)
        fun _ _ => ∃ operand, Operand.read? f.chunk.code ip layout = some operand := by
    refine (readByte_moves _).mono ?_
    rintro b _ ⟨hb, -⟩
    rcases h with rfl | rfl
    · exact ⟨.constant b, by simp [Operand.read?, hb]⟩
    · exact ⟨.slot b, by simp [Operand.read?, hb]⟩
  have hname : Moves (⟨id, ip, base⟩ :: rest) (identifier f)
      fun _ _ => ∃ operand, Operand.read? f.chunk.code ip .constant = some operand :=
    Moves.lead (hbyte .constant (.inl rfl))
  have hword (layout : Layout) (h : layout = .jump ∨ layout = .loop) :
      Moves (⟨id, ip, base⟩ :: rest) (readWord f.chunk.code)
        fun _ _ => ∃ operand, Operand.read? f.chunk.code ip layout = some operand := by
    refine (readWord_moves _).mono ?_
    rintro d _ ⟨hd, -⟩
    rcases h with rfl | rfl
    · exact ⟨.jump d, by simp [Operand.read?, hd]⟩
    · exact ⟨.loop d, by simp [Operand.read?, hd]⟩
  have hnone {x : Exec Unit} (h : op.layout = .none) : Moves (⟨id, ip, base⟩ :: rest) x
      fun _ _ => ∃ operand, Operand.read? f.chunk.code ip op.layout = some operand := by
    intro m _
    rw [h]
    cases x m <;> first | exact ⟨.none, rfl⟩ | trivial
  cases op with
  | constant => exact .lead (hbyte .constant (.inl rfl))
  | define | call => exact .lead hname
  | get scope | set scope | count scope | compound scope =>
    cases scope with
    | global => exact .lead hname
    | frame => exact .lead (hbyte .slot (.inr rfl))
  | jump => exact .lead (hword .jump (.inl rfl))
  | jumpIf truth => exact .lead (hword .jump (.inl rfl))
  | loop => exact .lead (hword .loop (.inr rfl))
  | defineRunnable =>
    refine Moves.bind (readByte_moves _) ?_
    rintro index _ ⟨hindex, rfl⟩
    refine .lead ((readWord_moves _).mono ?_)
    rintro lines _ ⟨hlines, -⟩
    exact ⟨.runnable index lines, by simp [Opcode.layout, Operand.read?, hindex, hlines]⟩
  | callNative =>
    have hindex : Moves (⟨id, ip, base⟩ :: rest) (identifier f) fun _ gs =>
        (∃ index, f.chunk.code[ip]? = some index) ∧ gs = ⟨id, ip+1, base⟩ :: rest := by
      refine Moves.bind (readByte_moves _) ?_
      rintro index _ ⟨hindex, rfl⟩
      split
      · exact Moves.pure ⟨⟨index, hindex⟩, rfl⟩
      · exact Moves.throw _
    refine Moves.bind hindex ?_
    rintro name _ ⟨⟨index, hindex⟩, rfl⟩
    refine .lead ((readByte_moves _).mono ?_)
    rintro arguments _ ⟨harguments, -⟩
    exact ⟨.native index arguments, by simp [Opcode.layout, Operand.read?, hindex, harguments]⟩
  | _ => exact hnone rfl

end

/-! The operations that do not go straight on. -/

section
variable {i : Instruction} (hframes : m.frames = {fr with ip := fr.ip+1} :: rest)
include hframes

theorem jump_continues (h : execute p fr.function f .jump m = .ok () m') {operand : Operand}
    (hread : Operand.read? f.chunk.code (fr.ip+1) .jump = some operand) :
    m.Continues ⟨fr.ip, .jump, operand⟩ fr rest m'.frames := by
  obtain ⟨distance, m₁, hword, h⟩ := bind_eq_ok.mp h
  obtain ⟨_, _, hframes', hd, rfl⟩ := readWord_changes hword
  rw [hframes] at hframes'
  cases hframes'
  simp only [Operand.read?, hd, Option.map_some, Option.some.injEq] at hread
  subst hread
  have hmoves := @jumpBy_moves fr.function (fr.ip+1+2) fr.base rest distance
    {m with frames := ⟨fr.function, fr.ip+1+2, fr.base⟩ :: rest} rfl
  rw [h] at hmoves
  exact ⟨_, rfl, hmoves⟩

theorem jumpIf_continues {truth : Bool} (h : execute p fr.function f (.jumpIf truth) m = .ok () m')
    {operand : Operand} (hread : Operand.read? f.chunk.code (fr.ip+1) .jump = some operand) :
    m.Continues ⟨fr.ip, .jumpIf truth, operand⟩ fr rest m'.frames := by
  obtain ⟨distance, m₁, hword, h⟩ := bind_eq_ok.mp h
  obtain ⟨_, _, hframes', hd, rfl⟩ := readWord_changes hword
  rw [hframes] at hframes'
  cases hframes'
  simp only [Operand.read?, hd, Option.map_some, Option.some.injEq] at hread
  subst hread
  obtain ⟨v, _, hpeek, h⟩ := bind_eq_ok.mp h
  obtain ⟨rfl, hv⟩ := top_of_peek hpeek
  obtain ⟨b, _, htruthy, h⟩ := bind_eq_ok.mp h
  obtain ⟨rfl, hb⟩ := found_of_ask htruthy
  have hjumps : m.jumpsOn truth = (b == truth) := by
    simp only [jumpsOn]
    rw [hv]
    dsimp only
    rw [hb]
  cases htaken : b == truth with
  | true =>
    rw [htaken] at hjumps h
    have hmoves := @jumpBy_moves fr.function (fr.ip+1+2) fr.base rest distance
      {m with frames := ⟨fr.function, fr.ip+1+2, fr.base⟩ :: rest} rfl
    rw [if_pos rfl] at h
    rw [h] at hmoves
    exact ⟨_, by simp only [goesOn?, hjumps, if_true]; rfl, hmoves⟩
  | false =>
    rw [htaken] at hjumps h
    obtain ⟨_, rfl⟩ := pure_eq_ok.mp h
    exact ⟨fr.ip+3, by simp only [goesOn?, hjumps]; rfl, rfl⟩

theorem loop_continues (h : execute p fr.function f .loop m = .ok () m') {operand : Operand}
    (hread : Operand.read? f.chunk.code (fr.ip+1) .loop = some operand) :
    m.Continues ⟨fr.ip, .loop, operand⟩ fr rest m'.frames := by
  obtain ⟨distance, m₁, hword, h⟩ := bind_eq_ok.mp h
  obtain ⟨_, _, hframes', hd, rfl⟩ := readWord_changes hword
  rw [hframes] at hframes'
  cases hframes'
  simp only [Operand.read?, hd, Option.map_some, Option.some.injEq] at hread
  subst hread
  obtain ⟨_, _, hframe, h⟩ := bind_eq_ok.mp h
  cases hframe
  dsimp only at h
  split at h
  · next hle =>
    obtain rfl := modify_eq_ok.mp h
    refine ⟨fr.ip+3-distance.toNat, ?_, rfl⟩
    change (if distance.toNat ≤ fr.ip+3 then some (fr.ip+3-distance.toNat) else none) = _
    rw [if_pos (by omega)]
  · exact absurd h throw_ne_ok

theorem endRepeat_continues (h : execute p fr.function f .endRepeat m = .ok () m')
    (operand : Operand) : m.Continues ⟨fr.ip, .endRepeat, operand⟩ fr rest m'.frames := by
  obtain ⟨v, _, hpeek, h⟩ := bind_eq_ok.mp h
  obtain ⟨rfl, hv⟩ := top_of_peek hpeek
  cases v with
  | number n =>
    have hout : m.countedOut =
        ((n.sub (.ofInt 1)).less .zero || (n.sub (.ofInt 1)).same .zero) := by
      simp only [countedOut, hv]
    refine ⟨_, rfl, ?_⟩
    dsimp only at h
    rw [hout]
    split at h
    · next hover =>
      obtain ⟨_, m₁, hpop, h⟩ := bind_eq_ok.mp h
      obtain ⟨_, heap, _, rfl⟩ := pop_changes hpop
      obtain ⟨_, _, hframe, h⟩ := bind_eq_ok.mp h
      have hmoves := @frame_moves fr.function (fr.ip+1) fr.base rest
        {m with stack := m.stack.pop, heap := heap} hframes
      rw [hframe] at hmoves
      obtain ⟨rfl, hsame⟩ := hmoves
      have hset := @setIp_moves fr.function (fr.ip+1) fr.base rest
        (fr.ip+1+Opcode.loop.width) _ hsame
      rw [h] at hset
      rw [if_pos hover]
      exact hset
    · next hmore =>
      have hsteady : Keeps Steady (replaceTop (.number (n.sub (.ofInt 1)))) := inferInstance
      rw [if_neg hmore]
      exact (hsteady.of_ok h).trans hframes
  | none | bool | object => exact absurd h throw_ne_ok

end

/-- An operation that succeeds has read the operand that decoding finds, and the calls go on from
there. -/
theorem execute_continues {op : Opcode} (hframes : m.frames = {fr with ip := fr.ip+1} :: rest)
    (h : execute p fr.function f op m = .ok () m') :
    ∃ operand, Operand.read? f.chunk.code (fr.ip+1) op.layout = some operand ∧
      m.Continues ⟨fr.ip, op, operand⟩ fr rest m'.frames := by
  have hreads := execute_reads p f op m hframes
  rw [h] at hreads
  obtain ⟨operand, hread⟩ := hreads
  refine ⟨operand, hread, ?_⟩
  by_cases hcall : op = .call
  · subst op
    obtain ⟨name, m₁, hname, h⟩ := bind_eq_ok.mp h
    have hmoves := identifier_moves f m hframes
    rw [hname] at hmoves
    have hcalled := call_moves p name _ m₁ hmoves
    rw [h] at hcalled
    obtain ⟨callee, _, base, _, hgs⟩ := hcalled
    exact ⟨callee, base, hgs⟩
  by_cases hstraight : op.isStraight = true
  · have hmoves := execute_straight_moves p f hstraight hcall m hframes
    rw [h] at hmoves
    exact continues_of_straight hstraight hcall hmoves
  cases op with
  | ret =>
    have hmoves := ret_moves _ m hframes
    change ret m = _ at h
    rw [h] at hmoves
    exact hmoves.1
  | jump => exact jump_continues hframes h hread
  | jumpIf truth => exact jumpIf_continues hframes h hread
  | loop => exact loop_continues hframes h hread
  | endRepeat => exact endRepeat_continues hframes h operand
  | _ => simp [Opcode.isStraight] at hstraight

/-- Whatever the program and the state of the machine: what cannot be decoded at the pointer of the
innermost call fails, and what can be decoded there, if it succeeds, leads to where the decoded
instruction does. -/
theorem step_follows_decoding (p : Program) (m : Machine) (fr : Frame) (rest : List Frame)
    (f : Function) (hframes : m.frames = fr :: rest) (hip : fr.ip < f.chunk.code.size) :
    match Instruction.decode f.chunk.code fr.ip f.chunk.code[fr.ip] with
    | .error _ => ∃ e m', step p fr.function f m = .error e m'
    | .ok i => ∀ m', step p fr.function f m = .ok () m' → m.Continues i fr rest m'.frames := by
  have hread := readByte_eq (m := m) hframes (Array.getElem?_eq_getElem hip)
  generalize f.chunk.code[fr.ip] = byte at hread ⊢
  unfold Instruction.decode
  cases hop : Opcode.ofByte? byte with
  | none =>
    refine ⟨.unrecognizedOpcode byte, {m with frames := {fr with ip := fr.ip+1} :: rest}, ?_⟩
    exact bind_eq_error.mpr (.inr ⟨byte, _, hread, by rw [hop]; rfl⟩)
  | some op =>
    have hstep : step p fr.function f m =
        execute p fr.function f op {m with frames := {fr with ip := fr.ip+1} :: rest} := by
      simp only [step, bind, EStateM.bind, hread, hop]
    have hcontinues (m' : Machine) (h : step p fr.function f m = .ok () m') :=
      execute_continues rfl (hstep ▸ h)
    dsimp only
    cases hoperand : Operand.read? f.chunk.code (fr.ip+1) op.layout with
    | none =>
      dsimp only
      cases hx : step p fr.function f m with
      | error e m' => exact ⟨e, m', rfl⟩
      | ok u m' =>
        obtain ⟨operand, hsome, _⟩ := hcontinues m' hx
        rw [hoperand] at hsome
        cases hsome
    | some operand =>
      intro m' hx
      obtain ⟨operand', hsome, h⟩ := hcontinues m' hx
      rw [hoperand] at hsome
      cases hsome
      exact h

/-- The end of a `repeat` and the way back to its start. -/
def repeating : Function := ⟨"<script>", 0, #[], ⟨#[54, 52, 0, 4, 1], #[]⟩, none, 0⟩

/-- Before the last pass ends. -/
def lastPass : Machine :=
  {Machine.new {} quiet with stack := #[.number (.ofInt 1)], frames := [⟨0, 0, 0⟩]}

theorem step_follows_decoding_repeating :
    ∃ m', step ⟨#[repeating]⟩ 0 repeating lastPass = .ok () m' ∧ m'.frames = [⟨0, 4, 0⟩] := by
  have hout : lastPass.countedOut = true := by decide +kernel
  have hfollows :=
    step_follows_decoding ⟨#[repeating]⟩ lastPass ⟨0, 0, 0⟩ [] repeating rfl (by decide)
  have hsteps : fails (step ⟨#[repeating]⟩ 0 repeating) lastPass = false := by decide +kernel
  obtain ⟨_, m', hstep⟩ := succeeds_iff.mp hsteps
  obtain ⟨ip, hgoes, hframes⟩ := hfollows m' hstep
  change some (if lastPass.countedOut then 4 else 1) = _ at hgoes
  rw [if_pos hout] at hgoes
  cases hgoes
  exact ⟨m', hstep, hframes⟩

end Exec
end RatScript
