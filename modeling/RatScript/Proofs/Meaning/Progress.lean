import RatScript.Proofs.Code.Passage
import RatScript.Proofs.Machine.Callers
import RatScript.Proofs.Meaning.Instruction

/-!
A run beside a walk. From a machine between two turns the walk and the run go on together: where the
walk has a store, the run has a machine that shows it, after the same expression statements.
-/

namespace RatScript

open Stateful Machine

/-- The instruction at an offset drops the value of an expression statement. It stands behind the
instruction that made the value; the value of a condition is dropped behind a jump. -/
def Chunk.drops (chunk : Chunk) (offset : Nat) : Bool :=
  (chunk.instructions.zip chunk.instructions.tail).any fun (i, j) =>
    i.op.straight && j.op == .pop && j.offset == offset

namespace Directive

/-- The instruction behind some directives is the next one. -/
theorem op_of_mem_place {offset : Nat} {before after : List Directive} {d : Directive}
    {i : Instruction} (hi : i ∈ place offset (before++d :: after))
    (hoffset : i.offset = offset+size before) : i.op = d.op := by
  rw [place_append, place] at hi
  rcases List.mem_append.mp hi with hi | hi
  · have hbounds := place_bounds hi
    have hwidth : 0 < i.op.width := by simp only [Opcode.width]; omega
    simp only [Instruction.next] at hbounds
    omega
  · rcases List.mem_cons.mp hi with rfl | hi
    · rfl
    · have hbounds := place_bounds hi
      have hwidth := d.width_pos
      omega

theorem any_zip_place {offset : Nat} {before after : List Directive} {d e : Directive} :
    ((place offset (before++d :: e :: after)).zip (place offset (before++d :: e :: after)).tail).any
        (fun (i, j) => i.op.straight && j.op == .pop && j.offset == offset+size before+d.width) =
      (d.op.straight && e.op == .pop) := by
  induction before generalizing offset with
  | nil =>
    -- all pairs behind the first have their second part further on
    have hrest : ((place (offset+d.width) (e :: after)).zip
        (place (offset+d.width) (e :: after)).tail).any
        (fun (i, j) => i.op.straight && j.op == .pop && j.offset == offset+size []+d.width) =
          false := by
      rw [List.any_eq_false]
      rintro ⟨i, j⟩ hij
      have hj := place_bounds (List.of_mem_zip hij).2
      have hwidth := e.width_pos
      have hne : j.offset ≠ offset+d.width := by omega
      simp [hne]
    simp only [List.nil_append, place, List.tail_cons, List.zip_cons_cons, List.any_cons]
    simp only [place, List.tail_cons] at hrest
    rw [hrest]
    simp [at_]
  | cons b before ih =>
    have hwidth := d.width_pos
    have hsize : offset+size (b :: before)+d.width = offset+b.width+size before+d.width := by
      rw [size_cons]
      omega
    have hrest := @ih (offset+b.width)
    obtain ⟨c, cs, hcs⟩ : ∃ c cs, before++d :: e :: after = c :: cs := by
      cases before <;> simp
    have hne : (offset+b.width == offset+b.width+size before+d.width) = false := by
      simp only [beq_eq_false_iff_ne]
      omega
    rw [List.cons_append, hcs, hsize]
    rw [hcs] at hrest
    simp only [place, List.tail_cons, List.zip_cons_cons, List.any_cons] at hrest ⊢
    rw [hrest]
    simp [at_, hne]

end Directive

theorem Chunk.drops_eq {chunk : Chunk} {before after : List Directive} {d e : Directive}
    (h : chunk.code.toList = Directive.encode (before++d :: e :: after)) :
    chunk.drops (Directive.size before+d.width) = (d.op.straight && e.op == .pop) := by
  rw [drops, instructions, Directive.decode_encode h]
  simpa using @Directive.any_zip_place 0 before after d e

theorem Chunk.drops_of_ne {chunk : Chunk} {before after : List Directive} {d : Directive}
    (h : chunk.code.toList = Directive.encode (before++d :: after)) (hd : d.op ≠ .pop) :
    chunk.drops (Directive.size before) = false := by
  rw [drops, instructions, Directive.decode_encode h, List.any_eq_false]
  rintro ⟨i, j⟩ hij
  have hj := List.mem_of_mem_tail (List.of_mem_zip hij).2
  simp only [Bool.and_eq_true, beq_iff_eq, not_and]
  intro hpop hoffset
  have hop := Directive.op_of_mem_place hj (by rw [hoffset, Nat.zero_add])
  exact hd (hop.symm.trans hpop.2)

namespace Machine

/-- Line and value of the expression statement that the next turn ends. -/
def statement? (p : Program) (m : Machine) : Option (Nat × Content) := do
  let fr ← m.frames.head?
  let f ← p.function? fr.function
  let v ← m.stack.back?
  let c ← m.heap.content? v
  if f.chunk.drops fr.ip then some (p.sourceLine fr.function fr.ip, c) else none

/-- Expression statements that end in at most so many turns, in order. -/
def statements (p : Program) : Nat → Machine → List (Nat × Content)
  | 0, _ => []
  | n+1, m =>
    (m.statement? p).toList++
      match m.advance p with
      | (.running, m) => statements p n m
      | _ => []

variable {p : Program} {m₀ m : Machine} {n : Nat}

theorem runFor_add_one (h : m₀.runFor p n = (.running, m)) :
    m₀.runFor p (n+1) = m.advance p ∧
      m₀.statements p (n+1) = m₀.statements p n++(m.statement? p).toList := by
  induction n generalizing m₀ with
  | zero =>
    cases h
    constructor
    · simp only [runFor]
      split
      · next heq => exact heq.symm
      · rfl
    · simp only [statements]
      split <;> simp
  | succ n ih =>
    rw [runFor] at h
    split at h
    · next m₁ ha =>
      obtain ⟨hrun, hstatements⟩ := ih h
      constructor
      · rw [runFor, ha]
        exact hrun
      · rw [statements, ha]
        dsimp only
        rw [hstatements, statements, ha, List.append_assoc]
    · next hother => exact absurd h (hother m)

end Machine

namespace Exec

variable {p : Program} {P : Array (Array Value)} {z : Setting} {σ : Store} {st : List Content}
  {fs : List Frame} {m : Machine}

/-! Traces. -/

theorem stackText_of_contents {vs : List Value} (h : vs.map m.heap.content? = st.map some)
    (text : String) : ∃ shown, stackText m.heap text vs = .ok shown := by
  induction vs generalizing st text with
  | nil => exact ⟨text, rfl⟩
  | cons v vs ih =>
    cases st with
    | nil => cases h
    | cons c st =>
      simp only [List.map_cons, List.cons.injEq] at h
      obtain ⟨shown, hshown⟩ := ih h.2 (text++"[ "++c.render++" ]")
      refine ⟨shown, ?_⟩
      simp only [stackText, Heap.display_of_content? h.1, bind, Except.bind]
      exact hshown

theorem shows_diagnostics (hm : m.Shows p P z σ st fs) {sink : Sink} (hsink : sink.limit = none) :
    ({m with world := {m.world with diagnostics := sink}} : Machine).Shows p P z σ st fs :=
  hm.move (counted_world hm.counted _) rfl rfl ⟨hm.globals, hm.input, hm.output, hm.files⟩ hm.stack
    hm.transit hm.frames fun _ => hsink

theorem trace_shows (hm : m.Shows p P z σ st fs) (htrace : m.config.trace = true) (offset : Nat) :
    ∃ sink, sink.limit = none ∧
      trace offset m = .ok () {m with world := {m.world with diagnostics := sink}} := by
  obtain ⟨shown, hshown⟩ := stackText_of_contents hm.stack ""
  have hask : ask (fun heap => stackText heap "" m.stack.toList) m = .ok shown m := ask_eq_ok hshown
  have hwrite (text : String) : ∃ sink, sink.limit = none ∧
      m.world.diagnostics.write text = (sink, true) := by
    have hlimit := hm.traced htrace
    generalize m.world.diagnostics = sink at hlimit
    obtain ⟨bytes, limit⟩ := sink
    subst hlimit
    exact ⟨_, rfl, rfl⟩
  obtain ⟨sink, hsink, hwrite⟩ := hwrite (Text.zeroPadded 4 offset++"\t"++shown++"\n")
  refine ⟨sink, hsink, ?_⟩
  simp only [trace, bind, EStateM.bind, get, getThe, MonadStateOf.get, EStateM.get, hask, modifyGet,
    MonadStateOf.modifyGet, EStateM.modifyGet, hwrite]
  rfl

/-! One turn. -/

variable {β : Type} {w : Walk β} {Q : β → Store → Machine → Prop}

/-- What holds between two turns, whether they are traced or not. -/
structure Lasts (p : Program) (P : Array (Array Value)) (z : Setting) (S : Store → Machine → Prop) :
    Prop where
  shows : ∀ σ m, S σ m → ∃ st fs, m.Shows p P z σ st fs
  diagnostics : ∀ σ (m : Machine) sink, S σ m → sink.limit = none →
    S σ {m with world := {m.world with diagnostics := sink}}

/-- The next turn does what the walk does. -/
def Turns (p : Program) (m : Machine) (σ : Store) (w : Walk β) (Q : β → Store → Machine → Prop) :
    Prop :=
  match w σ with
  | .ok b σ' => ∃ m', m.advance p = (.running, m') ∧ Q b σ' m'
  | .error (.failed f) σ' => ∃ m', m.advance p = (.failed f, m') ∧ m'.Presents σ'
  | .error .tired _ => False

/-- A turn executes the directive at the pointer. -/
theorem turns_of_follows {id ip base : Nat} {rest : List Frame} {f : Function} {d : Directive}
    (hframes : m.frames = ⟨id, ip, base⟩ :: rest) (hf : p.function? id = some f)
    (hcode : Holds f.chunk.code ip d.bytes) (hlasts : ∀ b, Lasts p P z (Q b))
    (h : Follows (p.sourceLine id ip) σ w {m with frames := ⟨id, ip+1, base⟩ :: rest}
      (execute p id f d.op) fun b σ' _ m' => Q b σ' m') : Turns p m σ w Q := by
  obtain ⟨hbyte, _⟩ := holds_cons.mp hcode
  have hip : ¬ f.chunk.code.size ≤ ip := Nat.not_le.mpr (Array.getElem?_eq_some_iff.mp hbyte).1
  have hstep : step p id f m =
      execute p id f d.op {m with frames := ⟨id, ip+1, base⟩ :: rest} := by
    simp only [step, bind, EStateM.bind, readByte_eq hframes hbyte, Opcode.ofByte?_toByte]
  unfold Follows at h
  unfold Turns Machine.advance
  simp only [hframes, hf, if_neg hip, hstep]
  cases hw : w σ with
  | ok b σ' =>
    rw [hw] at h
    obtain ⟨_, m', hx, hq⟩ := h
    simp only [hx]
    split
    · next htrace =>
      obtain ⟨st, fs, hm'⟩ := (hlasts b).shows σ' m' hq
      obtain ⟨sink, hsink, htraced⟩ := trace_shows hm' htrace ip
      rw [htraced]
      exact ⟨_, rfl, (hlasts b).diagnostics σ' m' sink hq hsink⟩
    · exact ⟨m', rfl, hq⟩
  | error e σ' =>
    rw [hw] at h
    cases e with
    | failed g =>
      obtain ⟨m', hx, hline, hpresents⟩ := h
      simp only [hx]
      refine ⟨m', ?_, hpresents⟩
      rw [← hline]
    | tired => exact h

end Exec

/-! Whole runs. -/

/-- A run from a machine has got, in so many turns at least, to where the walk is. -/
def Reaches (p : Program) (m₀ : Machine) (least : Nat) (S : Store → Machine → Prop) (σ : Store) :
    Prop :=
  ∃ n m, least ≤ n ∧ m₀.runFor p n = (.running, m) ∧ m₀.statements p n = σ.visited ∧ S σ m

/-- How a run ends that a walk ends: with the same fault, or it is still going on after as many
turns as there may be passes of a loop. -/
def Breaks (p : Program) (m₀ : Machine) (limit : Nat) : Stop → Store → Prop
  | .failed f, σ => ∃ n m, m₀.runFor p n = (.failed f, m) ∧ m₀.statements p n = σ.visited ∧
      m.Presents σ
  | .tired, σ => ∃ n m, limit ≤ n ∧ m₀.runFor p n = (.running, m) ∧
      m₀.statements p n = σ.visited ∧ m.Presents σ

variable {p : Program} {m₀ : Machine} {least limit : Nat} {S : Store → Machine → Prop} {β : Type}
  {w : Walk β} {Q : β → Store → Machine → Prop}

theorem Reaches.fewer {σ : Store} (h : Reaches p m₀ (least+1) S σ) : Reaches p m₀ least S σ := by
  obtain ⟨n, m, hn, hrun⟩ := h
  exact ⟨n, m, by omega, hrun⟩

/-- A turn beside a part of the walk. -/
theorem yields_of_turns (h : ∀ σ m, S σ m → Exec.Turns p m σ w Q ∧
      (after w σ).visited = σ.visited++(m.statement? p).toList) :
    Yields (Reaches p m₀ least S) w (fun b => Reaches p m₀ (least+1) (Q b)) (Breaks p m₀ limit) := by
  intro σ hσ
  obtain ⟨n, m, hn, hrun, hstatements, hm⟩ := hσ
  obtain ⟨hturns, hvisited⟩ := h σ m hm
  obtain ⟨hadvance, hmore⟩ := runFor_add_one hrun
  unfold Exec.Turns at hturns
  rw [hstatements] at hmore
  unfold after at hvisited
  cases hw : w σ with
  | ok b σ' =>
    rw [hw] at hturns hvisited
    obtain ⟨m', hnext, hq⟩ := hturns
    exact ⟨n+1, m', by omega, hadvance.trans hnext, hmore.trans hvisited.symm, hq⟩
  | error e σ' =>
    rw [hw] at hturns hvisited
    cases e with
    | failed f =>
      obtain ⟨m', hnext, hpresents⟩ := hturns
      exact ⟨n+1, m', hadvance.trans hnext, hmore.trans hvisited.symm, hpresents⟩
    | tired => exact hturns.elim

end RatScript
