import RatScript.Proofs.Meaning.Jumps
import RatScript.Proofs.Meaning.Progress
import RatScript.Proofs.Syntax.Lines

/-!
How a run passes a directive: the parts of a walk between two expression statements, and the rule by
which one of them goes along with one directive of the code.
-/

namespace RatScript

open Stateful Machine

/-! Parts of walks that end no expression statement. -/

def Store.SameVisits (σ σ' : Store) : Prop := σ'.visited = σ.visited

instance : Std.Refl Store.SameVisits := ⟨fun _ => rfl⟩

instance : Trans Store.SameVisits Store.SameVisits Store.SameVisits :=
  ⟨fun h k => Eq.trans (b := _) k h⟩

namespace Walk

open Store (SameVisits)

variable {α : Type} (line : Nat) (x : String)

instance (f : Fault) : Keeps SameVisits (raise line f : Walk α) :=
  inferInstanceAs (Keeps SameVisits (throw (.failed ⟨f, line⟩) : Walk α))

instance (r : Except Fault α) : Keeps SameVisits (lift line r) := by
  cases r <;> unfold lift <;> infer_instance

instance : Keeps SameVisits (global line x) := by
  apply Keeps.seq inferInstance
  intro σ
  split <;> infer_instance

instance : Keeps SameVisits (read line x) := by
  apply Keeps.seq inferInstance
  intro σ
  split <;> infer_instance

instance : Keeps SameVisits (assignable line x) := by
  apply Keeps.seq inferInstance
  intro σ
  split <;> infer_instance

instance (c : Content) : Keeps SameVisits (write x c) := by
  apply Keeps.modify
  intro σ
  split <;> rfl

instance (c : Content) : Keeps SameVisits (define line x c) := by
  apply Keeps.seq inferInstance
  intro σ
  split
  · infer_instance
  · exact Keeps.modify fun _ => rfl

instance (text : String) : Keeps SameVisits (printLine line text) :=
  Keeps.seq (Keeps.modifyGet fun _ => rfl) fun _ => inferInstance

instance : Keeps SameVisits (readLine line) := by
  refine Keeps.seq (Keeps.modifyGet fun _ => rfl) fun bytes => ?_
  split <;> infer_instance

instance (files : Files) : Keeps SameVisits (setFiles files) := Keeps.modify fun _ => rfl

instance (n : Native) (cs : List Content) : Keeps SameVisits (native line x n cs) := by
  have hfiles (r : Except FileError Files) (f : FileError → Fault) : Keeps SameVisits
      (match r with
        | .error e => raise line (f e)
        | .ok files => do
          setFiles files
          return .none : Walk Content) := by
    cases r <;> infer_instance
  unfold native
  split
  case h_3 =>
    apply Keeps.seq inferInstance
    intro path
    apply Keeps.seq inferInstance
    intro σ
    split <;> infer_instance
  case h_4 => exact Keeps.seq inferInstance fun _ => Keeps.seq inferInstance fun _ => hfiles _ _
  case h_5 => exact Keeps.seq inferInstance fun _ => Keeps.seq inferInstance fun _ => hfiles _ _
  all_goals infer_instance

instance (cs : List Content) : Keeps SameVisits (callNative line x cs) := by
  apply Keeps.seq inferInstance
  intro c
  split <;> infer_instance

instance : Keeps SameVisits (runnable line x) := by
  apply Keeps.seq inferInstance
  intro c
  split <;> infer_instance

end Walk

/-! Directives of a function. -/

/-- Directives stand at an offset of a function, all on one line. -/
structure Program.Lies (p : Program) (id : Nat) (f : Function) (line offset : Nat)
    (ds : List Directive) : Prop where
  function : p.function? id = some f
  code : ∃ before after, f.chunk.code.toList = Directive.encode (before++ds++after) ∧
    Directive.size before = offset
  lines : ∀ i ∈ Directive.place offset ds, p.sourceLine id i.offset = line

namespace Program.Lies

variable {p : Program} {id : Nat} {f : Function} {line offset : Nat} {ds : List Directive}
  {d e : Directive}

theorem append {D E : List Directive} (h : p.Lies id f line offset (D++E)) :
    p.Lies id f line offset D ∧ p.Lies id f line (offset+Directive.size D) E := by
  obtain ⟨before, after, hcode, rfl⟩ := h.code
  have hlines := h.lines
  rw [Directive.place_append] at hlines
  refine ⟨⟨h.function, ⟨before, E++after, by simpa using hcode, rfl⟩, ?_⟩,
    ⟨h.function, ⟨before++D, after, by simpa using hcode, by simp⟩, ?_⟩⟩
  · exact fun i hi => hlines i (List.mem_append_left _ hi)
  · exact fun i hi => hlines i (List.mem_append_right _ hi)

theorem cons (h : p.Lies id f line offset (d :: ds)) :
    p.Lies id f line offset [d] ∧ p.Lies id f line (offset+d.width) ds :=
  append (D := [d]) h

theorem line_eq (h : p.Lies id f line offset (d :: ds)) : p.sourceLine id offset = line :=
  h.lines (d.at_ offset) (by simp [Directive.place])

theorem holds (h : p.Lies id f line offset [d]) : Holds f.chunk.code offset d.bytes := by
  obtain ⟨before, after, hcode, rfl⟩ := h.code
  rw [Holds, hcode, Directive.encode_append, Directive.encode_append, List.append_assoc,
    ← Directive.length_encode, List.drop_left]
  simp

theorem drops_eq_false (h : p.Lies id f line offset [d]) (hd : d.op ≠ .pop) :
    f.chunk.drops offset = false := by
  obtain ⟨before, after, hcode, rfl⟩ := h.code
  exact Chunk.drops_of_ne (by simpa using hcode) hd

theorem drops_eq (h : p.Lies id f line offset [d, e]) :
    f.chunk.drops (offset+d.width) = (d.op.straight && e.op == .pop) := by
  obtain ⟨before, after, hcode, rfl⟩ := h.code
  have hcode : f.chunk.code.toList = Directive.encode (before++d :: e :: after) := by
    simpa using hcode
  exact Chunk.drops_eq hcode

end Program.Lies

/-! A call on the way. -/

/-- The run from a machine is at an offset of a call when the walk has got to the store. -/
def At (p : Program) (P : Array (Array Value)) (z : Setting) (m₀ : Machine) (q : Spot) (least ip : Nat)
    (upper : List Content) : Store → Prop :=
  Reaches p m₀ least (q.Shown p P z ip upper)

namespace Spot

variable {q : Spot} {p : Program} {P : Array (Array Value)} {z : Setting} {σ : Store} {m : Machine}
  {ip : Nat} {upper : List Content} {f : Function}

theorem lasts_shown (q : Spot) (ip : Nat) (upper : List Content) :
    Exec.Lasts p P z (q.Shown p P z ip upper) where
  shows _ _ hm := ⟨_, _, hm.2⟩
  diagnostics _ _ _ hm hsink := ⟨hm.1, Exec.shows_diagnostics hm.2 hsink⟩

theorem Shown.statement?_none (hm : q.Shown p P z ip upper σ m) (hf : p.function? q.function = some f)
    (hdrops : f.chunk.drops ip = false) : m.statement? p = none := by
  simp [statement?, hm.2.frames, hf, hdrops]

theorem Shown.statement?_some {c : Content} (hm : q.Shown p P z ip (upper++[c]) σ m)
    (hf : p.function? q.function = some f) (hdrops : f.chunk.drops ip = true) :
    m.statement? p = some (p.sourceLine q.function ip, c) := by
  obtain ⟨w, hback, hm'⟩ := Exec.popped_shows hm.over
  have hw : m.heap.content? w = some c := hm'.transit (w, c) (by simp)
  simp [statement?, hm.2.frames, hf, hdrops, hback, hw]

end Spot

section
variable {p : Program} {P : Array (Array Value)} {z : Setting} {m₀ : Machine} {q : Spot}
  {least limit line offset : Nat} {upper : List Content} {f : Function} {d : Directive} {β : Type}
  {w : Walk β}

theorem At.fewer {σ : Store} (h : At p P z m₀ q (least+1) offset upper σ) :
    At p P z m₀ q least offset upper σ :=
  Reaches.fewer h

/-- A directive that ends no expression statement, and what may come of it. -/
theorem passes_to [hquiet : Keeps Store.SameVisits w] {Q : β → Store → Machine → Prop}
    (h : p.Lies q.function f line offset [d]) (hdrops : f.chunk.drops offset = false)
    (hlasts : ∀ b, Exec.Lasts p P z (Q b))
    (hexec : ∀ σ m, q.Shown p P z (offset+1) upper σ m →
      Exec.Follows line σ w m (Exec.execute p q.function f d.op) fun b σ' _ m' => Q b σ' m') :
    Yields (At p P z m₀ q least offset upper) w (fun b => Reaches p m₀ (least+1) (Q b))
      (Breaks p m₀ limit) := by
  apply yields_of_turns
  intro σ m hm
  constructor
  · refine Exec.turns_of_follows hm.2.frames h.function h.holds hlasts ?_
    rw [h.line_eq]
    exact hexec σ _ (hm.goto (offset+1))
  · rw [hm.statement?_none h.function hdrops, Option.toList_none, List.append_nil]
    exact hquiet.keeps σ

/-- A directive within the call. -/
theorem passes [Keeps Store.SameVisits w] {next : β → Nat} {upper' : β → List Content}
    (h : p.Lies q.function f line offset [d]) (hdrops : f.chunk.drops offset = false)
    (hexec : ∀ σ m, q.Shown p P z (offset+1) upper σ m →
      Exec.Follows line σ w m (Exec.execute p q.function f d.op) fun b σ' _ m' =>
        q.Shown p P z (next b) (upper' b) σ' m') :
    Yields (At p P z m₀ q least offset upper) w (fun b => At p P z m₀ q least (next b) (upper' b))
      (Breaks p m₀ limit) :=
  (passes_to h hdrops (fun b => q.lasts_shown (next b) (upper' b)) hexec).mono (fun _ h => h)
    (fun _ _ h => h.fewer) fun _ _ h => h

/-- A directive that the walk has nothing for. -/
theorem moves {next : Nat} {upper' : List Content} (h : p.Lies q.function f line offset [d])
    (hdrops : f.chunk.drops offset = false)
    (hexec : ∀ σ m, q.Shown p P z (offset+1) upper σ m →
      Exec.Follows line σ (pure ()) m (Exec.execute p q.function f d.op) fun _ σ' _ m' =>
        q.Shown p P z next upper' σ' m') {σ : Store} (hσ : At p P z m₀ q least offset upper σ) :
    At p P z m₀ q (least+1) next upper' σ :=
  have hpasses : Yields (At p P z m₀ q least offset upper) (pure () : Walk Unit)
      (fun _ => Reaches p m₀ (least+1) (q.Shown p P z next upper')) (Breaks p m₀ 0) :=
    passes_to h hdrops (fun _ => q.lasts_shown next upper') hexec
  hpasses σ hσ

end

namespace Program.Lies

variable {p : Program} {id : Nat} {f : Function} {line offset : Nat} {d : Directive} {i : UInt8}
  {distance : UInt16}

theorem byte (h : p.Lies id f line offset [d]) (hd : d.operand.bytes = [i]) :
    f.chunk.code[offset+1]? = some i := by
  have hholds := h.holds
  simp only [Directive.bytes, hd, holds_cons] at hholds
  exact hholds.2.1

theorem word (h : p.Lies id f line offset [d])
    (hd : d.operand.bytes = [Word.high distance, Word.low distance]) :
    f.chunk.code[offset+1]? = some (Word.high distance) ∧
      f.chunk.code[offset+1+1]? = some (Word.low distance) := by
  have hholds := h.holds
  simp only [Directive.bytes, hd, holds_cons] at hholds
  exact ⟨hholds.2.1, hholds.2.2.1⟩

end Program.Lies

/-! Ways through the code. -/

section
variable {p : Program} {P : Array (Array Value)} {z : Setting} {m₀ : Machine} {q : Spot}
  {least line offset n : Nat} {upper : List Content} {f : Function} {c : Content} {σ : Store}

theorem At.newline (h : p.Lies q.function f line offset [.newline])
    (hσ : At p P z m₀ q least offset upper σ) : At p P z m₀ q least (offset+1) upper σ :=
  (moves h (h.drops_eq_false (by simp [Directive.newline, Directive.plain]))
    (fun _ _ hm => Exec.execute_newline hm) hσ).fewer

/-- The value of a condition is dropped. -/
theorem At.pop {j : Directive} (h : p.Lies q.function f line offset [j, .pop])
    (hj : j.op.straight = false) (hσ : At p P z m₀ q least (offset+j.width) (upper++[c]) σ) :
    At p P z m₀ q least (offset+j.width+1) upper σ := by
  refine (moves h.cons.2 ?_ (fun _ _ hm => Exec.execute_pop hm) hσ).fewer
  rw [h.drops_eq, hj, Bool.false_and]

theorem toNat_distance (hfit : n < 0x10000) : (UInt16.ofNat n).toNat = n := by
  rw [UInt16.toNat_ofNat']
  exact Nat.mod_eq_of_lt hfit

theorem At.jump (h : p.Lies q.function f line offset [.jump n]) (hfit : n < 0x10000)
    (hσ : At p P z m₀ q least offset upper σ) : At p P z m₀ q least (offset+3+n) upper σ := by
  obtain ⟨hhigh, hlow⟩ := h.word rfl
  have hmove := moves h (h.drops_eq_false (by simp [Directive.jump]))
    (fun _ _ hm => Exec.execute_jump hhigh hlow hm) hσ
  rw [toNat_distance hfit] at hmove
  exact hmove.fewer

theorem At.jumpIf {truth : Bool} (h : p.Lies q.function f line offset [.jumpIf truth n])
    (hfit : n < 0x10000) (hσ : At p P z m₀ q least offset (upper++[c]) σ) :
    At p P z m₀ q least (if c.isTruthy = truth then offset+3+n else offset+3) (upper++[c]) σ := by
  obtain ⟨hhigh, hlow⟩ := h.word rfl
  have hmove := moves h (h.drops_eq_false (by simp [Directive.jumpIf]))
    (fun _ _ hm => Exec.execute_jumpIf hhigh hlow hm truth) hσ
  rw [toNat_distance hfit] at hmove
  exact hmove.fewer

/-- Every way back takes a turn. -/
theorem At.back (h : p.Lies q.function f line offset [.back n]) (hfit : n < 0x10000)
    (hle : n ≤ offset+3) (hσ : At p P z m₀ q least offset upper σ) :
    At p P z m₀ q (least+1) (offset+3-n) upper σ := by
  obtain ⟨hhigh, hlow⟩ := h.word rfl
  have hmove := moves h (h.drops_eq_false (by simp [Directive.back]))
    (fun _ _ hm => Exec.execute_loop hhigh hlow hm (by rw [toNat_distance hfit]; exact hle)) hσ
  rw [toNat_distance hfit] at hmove
  exact hmove

end
end RatScript
