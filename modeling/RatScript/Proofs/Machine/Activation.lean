import RatScript.Proofs.Machine.Course
import RatScript.Proofs.Syntax.Staging

/-!
Variables of active calls. In a run of a verified program the cells in scope at an instruction of a
runnable are those that its call got for its parameters, and those that the latest executions of the
declarations in scope have made since the call began.
-/

namespace RatScript.Machine

/-- A call of a runnable with some arguments, made in a turn of a run. -/
structure Activation where
  function : Nat
  arity : Nat
  base : Nat
  callers : List Frame
  made : Nat

variable {run : Nat → Machine}

namespace Activation

/-- Before a turn the call is the innermost one and stands at an offset. -/
def At (a : Activation) (run : Nat → Machine) (k offset : Nat) : Prop :=
  (run k).frames = ⟨a.function, offset, a.base⟩ :: a.callers

/-- The call has been made, with its arguments on top of the stack, and is active since. -/
structure Lives (a : Activation) (run : Nat → Machine) (i : Nat) : Prop where
  made : a.made < i
  entered : a.At run (a.made+1) 0
  arguments : (run (a.made+1)).stack.size = a.base+1+a.arity
  callers : a.callers.length = (run a.made).frames.length
  active : ∀ k, a.made < k → k ≤ i → a.callers.length < (run k).frames.length

/-- The cell of a slot is on the stack from one turn to another. No turn between them changes it but
by an instruction of the call itself that stores to the slot. -/
structure Keeps (a : Activation) (run : Nat → Machine) (f : Function) (slot first last : Nat) :
    Prop where
  there : ∀ k, first ≤ k → k ≤ last → a.base+slot+1 < (run k).stack.size
  same : ∀ k, first ≤ k → k < last →
    (run (k+1)).stack[a.base+slot+1]? = (run k).stack[a.base+slot+1]? ∨
      ∃ offset, a.At run k offset ∧ f.StoresTo offset slot

/-- An execution of a declaration for a slot has begun in a turn, and goes on for some more. -/
structure Began (a : Activation) (run : Nat → Machine) (d : Declaration) (slot begun limit : Nat) :
    Prop where
  later : a.made < begun
  start : a.At run begun d.start
  height : (run begun).stack.size = a.base+slot+1
  inside : ∀ k offset, begun < k → k < limit → a.At run k offset →
    d.start < offset ∧ offset < d.finish

/-- The latest execution of a declaration has made the cell of a slot: it began with the stack up to
the slot, was complete with one more cell, and has not begun anew. -/
def Makes (a : Activation) (run : Nat → Machine) (f : Function) (d : Declaration)
    (slot last limit : Nat) : Prop :=
  ∃ begun complete, a.Began run d slot begun complete ∧ begun < complete ∧ complete ≤ last ∧
    a.At run complete d.finish ∧ (run complete).stack.size = a.base+slot+2 ∧
    (∀ k, complete ≤ k → k < limit → ¬ a.At run k d.start) ∧ a.Keeps run f slot complete last

/-- The cell of a slot is what it is in scope. -/
def Holds (a : Activation) (run : Nat → Machine) (f : Function) (slot last limit : Nat) :
    Cell → Prop
  | .parameter _ => a.Keeps run f slot (a.made+1) last
  | .declared d => a.Makes run f d slot last limit
  | .counter => True

/-- What is known of a call where it stands at a stage. -/
structure Knows (a : Activation) (run : Nat → Machine) (f : Function) (i limit : Nat) (g : Stage) :
    Prop where
  height : (run i).stack.size = a.base+1+g.height
  cells : ∀ slot c, g.cells.reverse[slot]? = some c → a.Holds run f slot i limit c
  making : ∀ d ∈ g.making, ∃ begun ≤ i, a.Began run d g.cells.length begun limit

variable {a : Activation} {f : Function} {i limit offset : Nat} {g g' : Stage}

theorem At.offset_eq {other : Nat} (h : a.At run i offset) (h' : a.At run i other) :
    offset = other := by
  have hsame := h.symm.trans h'
  simp only [List.cons.injEq, Frame.mk.injEq, true_and, and_true] at hsame
  exact hsame

theorem mem_reverse_cons {c x : Cell} {cells : List Cell} {slot : Nat}
    (h : (c :: cells).reverse[slot]? = some x) :
    cells.reverse[slot]? = some x ∨ slot = cells.length ∧ x = c := by
  rw [List.reverse_cons, List.getElem?_append] at h
  split at h
  · exact .inl h
  · next hge =>
    rw [List.length_reverse] at h hge
    rw [List.getElem?_singleton] at h
    split at h
    · cases h
      exact .inr ⟨by omega, rfl⟩
    · cases h

/-- What changes on coming to an offset is known there. -/
theorem Knows.turn (h : a.Knows run f i i g) (hmade : a.made < i) (hat : a.At run i offset)
    (ht : Stage.Turns offset g g') : a.Knows run f i i g' := by
  have hheight := h.height
  cases ht with
  | begins hd =>
    refine ⟨hheight, h.cells, fun d' hd' => ?_⟩
    cases hd'
    refine ⟨i, Nat.le_refl i, hmade, hd ▸ hat, ?_, fun k _ hlow hhigh => by omega⟩
    simp only [Stage.plain] at hheight ⊢
    omega
  | @ends cells d hd hlt =>
    obtain ⟨begun, hle, hbegan⟩ := h.making d rfl
    have hbefore : begun < i := by
      refine Nat.lt_of_le_of_ne hle ?_
      rintro rfl
      have := hbegan.start.offset_eq hat
      omega
    refine ⟨hheight, fun slot c hc => ?_, nofun⟩
    rcases mem_reverse_cons hc with hc | ⟨rfl, rfl⟩
    · exact h.cells slot c hc
    · simp only at hheight
      refine ⟨begun, i, hbegan, hbefore, Nat.le_refl i, hd ▸ hat, by omega, fun k _ _ => by omega, ?_⟩
      exact ⟨fun k _ _ => by rw [show k = i by omega]; omega, fun k _ _ => by omega⟩
  | counts =>
    refine ⟨hheight, fun slot c hc => ?_, nofun⟩
    rcases mem_reverse_cons hc with hc | ⟨_, rfl⟩
    · exact h.cells slot c hc
    · trivial
  | @forgets c cells =>
    refine ⟨hheight, fun slot x hx => h.cells slot x ?_, nofun⟩
    rw [List.reverse_cons]
    exact List.getElem?_append_left (List.getElem?_eq_some_iff.mp hx).1 |>.trans hx

theorem Knows.becomes (h : a.Knows run f i i g) (hmade : a.made < i) (hat : a.At run i offset)
    (ht : Stage.Becomes offset g g') : a.Knows run f i i g' := by
  induction ht with
  | refl => exact h
  | tail _ hlast ih => exact ih.turn hmade hat hlast

/-- The turn itself is none in which a declaration in scope begins anew. -/
theorem Knows.arrive (h : a.Knows run f i i g) (hmade : a.made < i) (hat : a.At run i offset)
    (hserves : g.Serves offset (offset+1)) : a.Knows run f i (i+1) g := by
  refine ⟨h.height, fun slot c hc => ?_, fun d hd => ?_⟩
  · have hholds := h.cells slot c hc
    cases c with
    | parameter | counter => exact hholds
    | declared d =>
      obtain ⟨hlt, hle⟩ := hserves.complete d (List.mem_reverse.mp (List.mem_of_getElem? hc))
      obtain ⟨begun, complete, hbegan, hbefore, hlast, hend, hsize, hnever, hkeeps⟩ := hholds
      refine ⟨begun, complete, hbegan, hbefore, hlast, hend, hsize, fun k hlow hhigh hagain => ?_, hkeeps⟩
      by_cases hk : k < i
      · exact hnever k hlow hk hagain
      · obtain rfl : k = i := by omega
        have := hat.offset_eq hagain
        omega
  · obtain ⟨hstart, hfinish, hheight⟩ := hserves.making d hd
    by_cases hoffset : offset = d.start
    · refine ⟨i, Nat.le_refl i, hmade, hoffset ▸ hat, ?_, fun k _ hlow hhigh => by omega⟩
      have := h.height
      have := hheight hoffset
      omega
    · obtain ⟨begun, hle, hbegan⟩ := h.making d hd
      refine ⟨begun, hle, hbegan.later, hbegan.start, hbegan.height, fun k o hlow hhigh ho => ?_⟩
      by_cases hk : k < i
      · exact hbegan.inside k o hlow hk ho
      · obtain rfl : k = i := by omega
        obtain rfl := hat.offset_eq ho
        omega

/-- From one turn at which the call is the innermost one to the next. -/
structure Moves (a : Activation) (run : Nat → Machine) (f : Function) (cells height i j : Nat) :
    Prop where
  later : i < j
  away : ∀ k offset, i < k → k < j → ¬ a.At run k offset
  height : (run j).stack.size = a.base+1+height
  keeps : ∀ slot < cells, a.Keeps run f slot i j

theorem Keeps.trans {slot first middle last : Nat} (h : a.Keeps run f slot first middle)
    (k : a.Keeps run f slot middle last) : a.Keeps run f slot first last where
  there n hlow hhigh := by
    by_cases hn : n ≤ middle
    · exact h.there n hlow hn
    · exact k.there n (by omega) hhigh
  same n hlow hhigh := by
    by_cases hn : n < middle
    · exact h.same n hlow hn
    · exact k.same n (by omega) hhigh

theorem Knows.move {j height : Nat} (h : a.Knows run f i (i+1) g)
    (hm : a.Moves run f g.cells.length height i j) :
    a.Knows run f j j {g with height := height} := by
  have hlater := hm.later
  refine ⟨hm.height, fun slot c hc => ?_, fun d hd => ?_⟩
  · have hkeeps := hm.keeps slot (by simpa using (List.getElem?_eq_some_iff.mp hc).1)
    have hholds := h.cells slot c hc
    cases c with
    | counter => trivial
    | parameter => exact Keeps.trans hholds hkeeps
    | declared d =>
      obtain ⟨begun, complete, hbegan, hbefore, hlast, hend, hsize, hnever, hkept⟩ := hholds
      refine ⟨begun, complete, hbegan, hbefore, by omega, hend, hsize, fun k hlow hhigh => ?_,
        hkept.trans hkeeps⟩
      by_cases hk : k < i+1
      · exact hnever k hlow hk
      · exact hm.away k _ (by omega) hhigh
  · obtain ⟨begun, hle, hbegan⟩ := h.making d hd
    refine ⟨begun, by omega, hbegan.later, hbegan.start, hbegan.height, fun k o hlow hhigh ho => ?_⟩
    by_cases hk : k < i+1
    · exact hbegan.inside k o hlow hk ho
    · exact absurd ho (hm.away k o (by omega) hhigh)

end Activation

/-- A run of a verified program, with the machine before each turn. -/
structure Trail (p : Program) (z : Setting) (pools : Array (Array Value)) (turns : Nat)
    (run : Nat → Machine) : Prop where
  loads : z.Loads p pools
  verified : p.verify = .ok ()
  start : (run 0).frames = [⟨0, 0, 0⟩]
  advance : ∀ k < turns, (run k).advance p = (.running, run (k+1))
  obeys : ∀ k ≤ turns, (run k).Obeys z p pools
  charged : ∀ k < turns, (run k).Charged p

/-- The runnables of a program have stages. -/
def Stages (p : Program) (marks : Nat → List (Instruction × Stage)) : Prop :=
  ∀ id f, id ≠ 0 → p.function? id = some f →
    ∃ (params : List String) (us : List Use),
      f.Staged p (params.map Cell.parameter).reverse us (marks id) ∧ params.length = f.arity

variable {p : Program} {z : Setting} {pools : Array (Array Value)} {turns : Nat}
  {marks : Nat → List (Instruction × Stage)} {f : Function} {a : Activation}

/-- The call is known by the stage of the instruction at which it stands. -/
def Standing (run : Nat → Machine) (f : Function) (marks : List (Instruction × Stage))
    (a : Activation) (i offset : Nat) : Prop :=
  a.At run i offset ∧ a.Lives run i ∧
    ∃ x ∈ marks, x.1.offset = offset ∧ a.Knows run f i (i+1) x.2

theorem standing_of_finds {cells : List Cell} {us : List Use} {xs : List (Instruction × Stage)}
    {i offset : Nat} {g : Stage} (hstaged : f.Staged p cells us xs) (hat : a.At run i offset)
    (hlives : a.Lives run i) (hg : a.Knows run f i i g) (hfinds : Finds xs offset g) :
    Standing run f xs a i offset := by
  obtain ⟨x, hx, rfl, hbecomes⟩ := hfinds
  have hserves := (hstaged.passes x hx).serves
  exact ⟨hat, hlives, x, hx, rfl, (hg.becomes hlives.made hat hbecomes).arrive hlives.made hat hserves⟩

theorem follows_of_pushes {ins : Instruction} {e : Effect} {height : Nat} {y : Nat × Nat}
    (he : p.Charges f ins e) (hpushes : e.pushes = 1) (hy : f.Follows ins e height y) :
    ins.removes e = e.pops ∧ y.2 = height-e.pops+1 := by
  have hend : ins.op ≠ .endRepeat := by
    intro hend
    rw [he.effect_eq (by simp [hend]) (by simp [hend]), hend] at hpushes
    cases hpushes
  refine ⟨if_neg hend, ?_⟩
  cases hy with
  | next | jump => rw [hpushes]
  | out hout => exact absurd hout hend

section
variable {cells : List Cell} {us : List Use} {xs : List (Instruction × Stage)}
  (hstaged : f.Staged p cells us xs)
include hstaged

theorem mem_instructions {x : Instruction × Stage} (hx : x ∈ xs) : x.1 ∈ f.chunk.instructions :=
  hstaged.code ▸ List.mem_map_of_mem hx

/-- The call goes on from an instruction to one that may follow. -/
theorem Standing.next {i j offset height : Nat} {ins : Instruction} {e : Effect} {y : Nat × Nat}
    (h : Standing run f xs a i offset) (hins : ins ∈ f.chunk.instructions) (hoffset : ins.offset = offset)
    (he : p.Charges f ins e) (hheight : (run i).stack.size = a.base+1+height)
    (hy : f.Follows ins e height y) (hinside : y.1 ≠ f.chunk.code.size) (hat : a.At run j y.1)
    (hlives : a.Lives run j) (hsize : (run j).stack.size = a.base+1+y.2) (hlater : i < j)
    (haway : ∀ k offset, i < k → k < j → ¬ a.At run k offset)
    (hkeeps : ∀ slot, slot+1+ins.removes e ≤ height → slot < y.2 → a.Keeps run f slot i j) :
    Standing run f xs a j y.1 := by
  obtain ⟨_, _, x, hx, hxoffset, hknows⟩ := h
  obtain rfl := Instruction.eq_of_offset (mem_instructions hstaged hx) hins (hxoffset.trans hoffset.symm)
  obtain rfl : x.2.height = height := by
    have := hknows.height
    omega
  have hpasses := hstaged.passes x hx
  obtain ⟨hroom, honward⟩ := hpasses.onward e he
  have hle := hpasses.cells_le he hy
  have hmoves : a.Moves run f x.2.cells.length y.2 i j :=
    ⟨hlater, haway, hsize, fun slot hslot => hkeeps slot (by omega) (by omega)⟩
  exact standing_of_finds hstaged hat hlives (hknows.move hmoves)
    ((honward y hy).resolve_right hinside)

/-- A call that is entered stands at its start. -/
theorem standing_of_entered {i : Nat} (hat : a.At run (i+1) 0) (hmade : a.made = i)
    (hcallers : a.callers.length = (run i).frames.length) (hcells : ∀ c ∈ cells, ∃ x, c = .parameter x)
    (harity : cells.length = a.arity) (hsize : (run (i+1)).stack.size = a.base+1+a.arity) :
    Standing run f xs a (i+1) 0 := by
  subst hmade
  have hlives : a.Lives run (a.made+1) := by
    refine ⟨Nat.lt_succ_self _, hat, hsize, hcallers, fun k hlow hhigh => ?_⟩
    rw [show k = a.made+1 by omega, hat]
    exact Nat.lt_succ_self _
  have hheight : (run (a.made+1)).stack.size = a.base+1+(Stage.plain cells).height := by
    rw [hsize, ← harity]
    rfl
  refine standing_of_finds hstaged hat hlives
    ⟨hheight, fun slot c hc => ?_, by simp [Stage.plain]⟩ hstaged.entry
  obtain ⟨x, rfl⟩ := hcells c (List.mem_reverse.mp (List.mem_of_getElem? hc))
  have hslot : slot < cells.length := by
    simpa [Stage.plain] using (List.getElem?_eq_some_iff.mp hc).1
  exact ⟨fun k _ _ => by rw [show k = a.made+1 by omega]; omega, fun k _ _ => by omega⟩

end

namespace Trail

variable (ht : Trail p z pools turns run)
include ht

/-- Where a call stands there is an instruction. -/
theorem inside {i : Nat} (hi : i ≤ turns) {id ip base : Nat} {callers : List Frame}
    (hframes : (run i).frames = ⟨id, ip, base⟩ :: callers) (hid : id ≠ 0)
    (hf : p.function? id = some f) : ip ≠ f.chunk.code.size := by
  obtain ⟨_, hfits⟩ := ht.obeys i hi
  rw [hframes] at hfits
  rintro rfl
  exact hid (Program.zero_of_end hfits hf (Nat.le_refl _))

/-- While a call is active the cells under it stay as they are. -/
theorem under {i : Nat} (hi : i ≤ turns) (hlives : a.Lives run i) (hcallers : a.callers ≠ [])
    (hbase : a.base ≤ (run (a.made+1)).stack.size) {k : Nat} (hlow : a.made < k) (hhigh : k ≤ i)
    {index : Nat} (hindex : index < a.base) :
    index < (run k).stack.size ∧ (run k).stack[index]? = (run (a.made+1)).stack[index]? := by
  have hlength : ((run (a.made+1)).stack.toList.take a.base).length = a.base := by
    rw [List.length_take, Array.length_toList]
    omega
  have hinside : (run k).Inside ⟨a.function, 0, a.base⟩ a.callers
      ((run (a.made+1)).stack.toList.take a.base) := by
    induction k, hlow using Nat.le_induction with
    | base => exact ⟨[], 0, hlives.entered, by simp, List.take_prefix _ _⟩
    | succ k hk ih =>
      have hpasses := advance_passes ht.loads ht.verified (ht.obeys k (by omega)) (ht.charged k (by omega))
        (ht.advance k (by omega))
      refine ((ih (by omega)).pass hlength hcallers hpasses).resolve_right fun hleft => ?_
      have := hlives.active (k+1) (by omega) hhigh
      rw [hleft.1] at this
      omega
  obtain ⟨_, _, _, _, hstarts⟩ := hinside
  have hlt : index < ((run (a.made+1)).stack.toList.take a.base).length := by omega
  refine ⟨?_, ?_⟩
  · have := hstarts.length_le
    have := (run k).stack.length_toList
    omega
  · rw [Exec.getElem?_of_starts hstarts hlt, Exec.getElem?_of_starts (List.take_prefix _ _) hlt]

section
variable {cells : List Cell} {us : List Use} {xs : List (Instruction × Stage)} {n height : Nat}
  {ins : Instruction} {e : Effect} (hstaged : f.Staged p cells us xs) (hn : n < turns)
  (ha : a.function ≠ 0) (hf : p.function? a.function = some f) (hins : ins ∈ f.chunk.instructions)
  (he : p.Charges f ins e) (h : Standing run f xs a n ins.offset)
  (hheight : (run n).stack.size = a.base+1+height)
include hstaged hn ha hf hins he h hheight

/-- A call goes on by a turn within it. -/
theorem standing_onward {y : Nat × Nat} (hfollows : f.Follows ins e height y) (hat : a.At run (n+1) y.1)
    (hsize : (run (n+1)).stack.size = a.base+1+y.2)
    (hkeeps : ∀ slot, slot+1+ins.taken ≤ height →
      (run (n+1)).stack[a.base+slot+1]? = (run n).stack[a.base+slot+1]? ∨
        f.StoresTo ins.offset slot) :
    Standing run f xs a (n+1) y.1 := by
  have hlives := h.2.1
  have htaken := he.taken_le
  have hmade := hlives.made
  refine h.next hstaged hins rfl he hheight hfollows (ht.inside (by omega) hat ha hf) hat
    ⟨by omega, hlives.entered, hlives.arguments, hlives.callers, fun k hlow hhigh => ?_⟩ hsize (by omega)
    (fun k _ _ _ => by omega) fun slot hslot hslot' => ⟨fun k hlow hhigh => ?_, fun k hlow hhigh => ?_⟩
  · by_cases hk : k ≤ n
    · exact hlives.active k hlow hk
    · rw [show k = n+1 by omega, hat]
      exact Nat.lt_succ_self _
  · by_cases hk : k = n
    · rw [hk]
      omega
    · rw [show k = n+1 by omega]
      omega
  · obtain rfl : k = n := by omega
    exact (hkeeps slot (by omega)).imp_right fun hstores => ⟨_, h.1, hstores⟩

end

/-- A call goes on when the call that it has made returns. -/
theorem standing_returned {cells : List Cell} {us : List Use} {xs : List (Instruction × Stage)}
    {b : Activation} {n ip offset : Nat} {v : Value} (hstaged : f.Staged p cells us xs) (hn : n < turns)
    (ha : a.function ≠ 0) (hf : p.function? a.function = some f) (hb : b.Lives run n)
    (hcallers : b.callers = ⟨a.function, ip, a.base⟩ :: a.callers) (hto : (run (n+1)).frames = b.callers)
    (hbase : b.base ≤ (run n).stack.size)
    (hstack : (run (n+1)).stack.toList = (run n).stack.toList.take b.base++[v])
    (h : Standing run f xs a b.made offset) : Standing run f xs a (n+1) ip := by
  have hmade := hb.made
  have hat : a.At run (n+1) ip := hto.trans hcallers
  have hlength : b.callers.length = a.callers.length+1 := congrArg List.length hcallers
  obtain ⟨fr, rest, f', ins, e, height, _, hfrom, hf', hins, hstop, he, hsize, hcourse⟩ :=
    advance_course ht.loads ht.verified (ht.obeys b.made (by omega)) (ht.charged b.made (by omega))
      (ht.advance b.made (by omega))
  have hthere := h.1.symm.trans hfrom
  cases hthere
  rw [hf] at hf'
  cases hf'
  have hentered := hb.entered
  cases hcourse with
  | onward hfollows hto' =>
    have hsame := congrArg List.length (hto'.symm.trans hentered)
    simp only [List.length_cons] at hsame
    omega
  | returns hrest hto' =>
    have hsame := congrArg List.length (hto'.symm.trans hentered)
    simp only [List.length_cons] at hsame
    omega
  | enters _ _ hto' hsize' hsame _ hfollows =>
    have hframes := hto'.symm.trans hentered
    rw [hcallers] at hframes
    cases hframes
    obtain ⟨y, hy, rfl, hpushes, htop⟩ := hfollows
    obtain ⟨hremoves, hy'⟩ := follows_of_pushes he hpushes hy
    have hfits := (ht.obeys b.made (by omega)).2
    rw [hfrom] at hfits
    rw [Program.floor_of_fits hfits ha] at hsize htop
    -- whatever the call did, it was over the cells of its caller
    have hunder {k index : Nat} (hlow : b.made < k) (hhigh : k ≤ n) (hindex : index < b.base) :=
      ht.under (by omega) hb (by simp [hcallers]) (by rw [hsame]; omega) hlow hhigh hindex
    have hafter : (run (n+1)).stack.size = b.base+1 := by
      rw [← Array.length_toList, hstack, List.length_append, List.length_take, Array.length_toList]
      simp only [List.length_singleton]
      omega
    refine h.next hstaged hins hstop.offset he hsize hy (ht.inside (by omega) hat ha hf) hat
      ⟨?_, h.2.1.entered, h.2.1.arguments, h.2.1.callers, fun k hlow hhigh => ?_⟩ (by omega) (by omega)
      (fun k o hlow hhigh ho => ?_) fun slot hslot hslot' => ⟨fun k hlow hhigh => ?_, fun k hlow hhigh => ?_⟩
    · have := h.2.1.made
      omega
    · by_cases hearly : k ≤ b.made
      · exact h.2.1.active k hlow hearly
      · by_cases hk : k ≤ n
        · have := hb.active k (by omega) hk
          omega
        · rw [show k = n+1 by omega, hat]
          exact Nat.lt_succ_self _
    · have := hb.active k hlow (by omega)
      rw [ho, hlength] at this
      exact absurd this (Nat.lt_irrefl _)
    · by_cases hearly : k = b.made
      · rw [hearly]
        omega
      · by_cases hk : k ≤ n
        · exact (hunder (by omega) hk (by omega)).1
        · rw [show k = n+1 by omega]
          omega
    · refine .inl ?_
      by_cases hearly : k = b.made
      · rw [hearly, hsame]
      · have hindex : a.base+slot+1 < b.base := by omega
        have hbefore := (hunder (k := k) (by omega) (by omega) hindex).2
        by_cases hk : k = n
        · have hlt : a.base+slot+1 < ((run n).stack.toList.take b.base).length := by
            rw [List.length_take, Array.length_toList]
            omega
          have hstarts : (run n).stack.toList.take b.base <+: (run (n+1)).stack.toList :=
            hstack ▸ List.prefix_append _ _
          rw [hk, Exec.getElem?_of_starts hstarts hlt, Exec.getElem?_of_starts (List.take_prefix _ _) hlt]
        · exact (hunder (by omega) (by omega) hindex).2.trans hbefore.symm

/-- Each call of a runnable is known wherever it stands. -/
theorem standing (hstages : Stages p marks) (i : Nat) (hi : i ≤ turns) {id ip base : Nat}
    {callers : List Frame} (hframes : (run i).frames = ⟨id, ip, base⟩ :: callers) (hid : id ≠ 0) :
    ∃ made f, p.function? id = some f ∧
      Standing run f (marks id) ⟨id, f.arity, base, callers, made⟩ i ip := by
  induction i using Nat.strongRecOn generalizing id ip base callers with
  | ind i ih =>
    cases i with
    | zero =>
      rw [ht.start] at hframes
      cases hframes
      exact absurd rfl hid
    | succ n =>
      obtain ⟨fr, rest, f, ins, e, height, _, hfrom, hf, hins, hstop, he, hsize, hcourse⟩ :=
        advance_course ht.loads ht.verified (ht.obeys n (by omega)) (ht.charged n (by omega))
          (ht.advance n (by omega))
      obtain ⟨id₀, ip₀, base₀⟩ := fr
      cases hcourse with
      | onward hfollows hto hsize' hkeeps =>
        rw [hto] at hframes
        cases hframes
        obtain ⟨made, f', hf', hstanding⟩ := ih n (by omega) (by omega) hfrom hid
        rw [hf] at hf'
        cases hf'
        obtain ⟨params, us, hstaged, _⟩ := hstages _ _ hid hf
        have hfits := (ht.obeys n (by omega)).2
        rw [hfrom] at hfits
        have hfloor := Program.floor_of_fits hfits hid
        simp only [hfloor] at hsize hsize' hkeeps
        exact ⟨made, f, hf, ht.standing_onward hstaged hi hid hf hins he (hstop.offset ▸ hstanding) hsize
          hfollows hto hsize' fun slot hslot => Nat.add_right_comm base₀ 1 slot ▸ hkeeps slot hslot⟩
      | enters hcallee hlater hto hsize' hstack =>
        rw [hto] at hframes
        cases hframes
        obtain ⟨params, us, hstaged, harity⟩ := hstages _ _ hid hcallee
        refine ⟨n, _, hcallee, standing_of_entered hstaged hto rfl ?_ ?_ ?_ ?_⟩
        · rw [hfrom]
          rfl
        · simp
        · simpa using harity
        · rw [hstack, hsize']
      | @returns caller outer v hrest hto hstack =>
        subst hrest
        rw [hto] at hframes
        cases hframes
        have hfits := (ht.obeys n (by omega)).2
        rw [hfrom] at hfits
        obtain ⟨made, _, _, hstanding⟩ := ih n (by omega) (by omega) hfrom hfits.1
        have hlives := hstanding.2.1
        have hmade : made < n := hlives.made
        have hpasses := advance_passes ht.loads ht.verified (ht.obeys made (by omega))
          (ht.charged made (by omega)) (ht.advance made (by omega))
        obtain ⟨⟨before, outer, ip', hbefore, hcallers⟩, _⟩ := hpasses.entered hlives.entered hlives.callers
        cases hcallers
        obtain ⟨made', f', hf', hstanding'⟩ := ih made (by omega) (by omega) hbefore hid
        obtain ⟨params, us, hstaged, _⟩ := hstages _ _ hid hf'
        refine ⟨made', f', hf', ht.standing_returned hstaged (by omega) hid hf' hlives rfl hto ?_ hstack
          hstanding'⟩
        simp only [Program.floor] at hsize
        simp only
        omega

end Trail
end RatScript.Machine
