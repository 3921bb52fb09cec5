import RatScript.Proofs.Code.Carrying
import RatScript.Proofs.Machine.Activation
import RatScript.Proofs.Machine.Bindings

/-!
Callees on the stack in a run. As long as the code of a call waits for its arguments, the cell below them
holds what the name was bound to when it was fetched, whatever is called meanwhile.
-/

namespace RatScript

open Stateful

/-- Where code ends only the script stands, and nothing called it. -/
theorem Program.alone_of_end {p : Program} {top : Nat} {fr : Frame} {rest : List Frame} {f : Function}
    (h : p.Fits top (fr :: rest)) (hf : p.function? fr.function = some f)
    (hend : fr.ip = f.chunk.code.size) : rest = [] := by
  cases rest with
  | nil => rfl
  | cons caller rest => exact absurd (zero_of_end h hf (Nat.le_of_eq hend.symm)) h.1

namespace Machine

/-- Cells over a floor that were fetched under a name hold the value. -/
def Held (x : String) (v : Value) (stack : Array Value) (floor : Nat) (s : Tags) : Prop :=
  ∀ d, s.reverse[d]? = some (some x) → stack[floor+d]? = some v

/-- Active calls, the innermost first, with so many cells of the stack up to the innermost one's last.
Each stands where tags tell what these cells are, or at the end of the script. The innermost one waits
for some more cells, each of the others for one, the result of the call that it has made. -/
def Carried (p : Program) (marks : Nat → Tagging) (x : String) (v : Value) (stack : Array Value) :
    Nat → Nat → List Frame → Prop
  | _, _, [] => True
  | more, top, fr :: rest =>
    ((rest = [] ∧ ∃ f, p.function? fr.function = some f ∧ fr.ip = f.chunk.code.size) ∨
      ∃ s, (marks fr.function).At fr.ip (.replicate more none++s) ∧
        top = Program.floor (fr :: rest)+s.length ∧ Held x v stack (Program.floor (fr :: rest)) s) ∧
    Carried p marks x v stack 1 fr.base rest

variable {p : Program} {marks : Nat → Tagging} {x : String} {v : Value} {stack stack' : Array Value}
  {floor more top : Nat} {s : Tags} {frames : List Frame}

theorem Held.congr (h : Held x v stack floor s)
    (hsame : ∀ d < s.length, stack'[floor+d]? = stack[floor+d]?) : Held x v stack' floor s := by
  intro d hd
  have hlt := (List.getElem?_eq_some_iff.mp hd).1
  rw [List.length_reverse] at hlt
  rw [hsame d hlt, h d hd]

theorem Held.drop (h : Held x v stack floor s) (n : Nat) : Held x v stack floor (s.drop n) := by
  intro d hd
  rw [List.reverse_drop, List.getElem?_take] at hd
  split at hd
  · exact h d hd
  · cases hd

theorem held_plain (x : String) (v : Value) (stack : Array Value) (floor n : Nat) :
    Held x v stack floor (.replicate n none) := by
  intro d hd
  have hmem := List.mem_of_getElem? hd
  simp at hmem

/-- One more cell, that is told nothing of or holds the value. -/
theorem Held.cons (h : Held x v stack floor s) {y : Option String}
    (hy : y = some x → stack[floor+s.length]? = some v) : Held x v stack floor (y :: s) := by
  intro d hd
  rw [List.reverse_cons, List.getElem?_append, List.length_reverse] at hd
  split at hd
  · exact h d hd
  · rw [List.getElem?_singleton] at hd
    split at hd
    · obtain rfl : d = s.length := by omega
      exact hy (Option.some.inj hd)
    · cases hd

theorem Held.plain (h : Held x v stack floor s) (n : Nat) :
    Held x v stack floor (.replicate n none++s) := by
  induction n with
  | zero => exact h
  | succ n ih => exact ih.cons nofun

/-- Only the cells that are told of matter. -/
theorem Carried.congr (h : Carried p marks x v stack more top frames)
    (hsame : ∀ index < top, stack'[index]? = stack[index]?) :
    Carried p marks x v stack' more top frames := by
  induction frames generalizing more top with
  | nil => exact h
  | cons fr rest ih =>
    obtain ⟨⟨rfl, hend⟩ | ⟨s, hat, htop, hheld⟩, hcallers⟩ := h
    · exact ⟨.inl ⟨rfl, hend⟩, trivial⟩
    · refine ⟨.inr ⟨s, hat, htop, hheld.congr fun d hd => hsame _ (by omega)⟩, ?_⟩
      cases rest with
      | nil => trivial
      | cons caller rest =>
        simp only [Program.floor] at htop
        exact ih hcallers fun index hindex => hsame index (by omega)

section
variable {m m' : Machine} {fr : Frame} {rest : List Frame} {f : Function} {i : Instruction}
  {height : Nat} {next : List (Nat × Nat)} {index : UInt8}
  (hframes : m.frames = fr :: rest) (hf : p.function? fr.function = some f)
  (hstop : p.Stop fr.function f fr.ip height i next) (hoperand : i.operand = .constant index)
  (hx : f.chunk.constant? index = some (.text x))
include hframes hf hstop hoperand hx

/-- A turn of an instruction with a name first reads the name. -/
theorem advance_reads (hlayout : i.op.layout = .constant) {g : String → Exec Unit}
    (hg : Exec.execute p fr.function f i.op = Exec.identifier f >>= g)
    (h : m.advance p = (.running, m')) : ∃ m₁,
      g x {m with frames := {fr with ip := fr.ip+2} :: rest} = .ok () m₁ ∧ m'.stack = m₁.stack ∧
        m'.frames = m₁.frames := by
  obtain ⟨f', m₁, hf', _, hstep, hstack, hto, _⟩ := advance_steps hframes h
  rw [hf] at hf'
  cases hf'
  have hspelt := hstop.spelt
  rw [hlayout] at hspelt
  obtain ⟨_, hindex, hoperand'⟩ := hspelt
  cases hoperand.symm.trans hoperand'
  rw [Exec.step_eq hstop hframes, hg] at hstep
  obtain ⟨name, m₂, hname, hstep⟩ := bind_eq_ok.mp hstep
  obtain ⟨_, _, index', hframes', hindex', hname', rfl⟩ := Exec.identifier_changes hname
  cases hframes'
  rw [hindex] at hindex'
  cases hindex'
  obtain rfl : x = name := by simpa [Function.identifier?, hx] using hname'
  exact ⟨m₁, hstep, hstack, hto⟩

/-- An instruction that fetches a global puts its value on the stack. -/
theorem advance_gets (hop : i.op = .get .global) (h : m.advance p = (.running, m')) :
    ∃ v, m.globals.get? x = some v ∧ m'.stack = m.stack.push v := by
  obtain ⟨m₁, hstep, hstack, _⟩ := advance_reads hframes hf hstop hoperand hx (by rw [hop]; rfl)
    (by rw [hop]; rfl) h
  obtain ⟨v, m₂, hv, hpush⟩ := bind_eq_ok.mp hstep
  rw [Exec.global_eq] at hv
  split at hv
  · next w hw =>
    cases hv
    refine ⟨v, hw, ?_⟩
    obtain ⟨s, t, hs, hpush⟩ := bind_eq_ok.mp hpush
    obtain ⟨rfl, rfl⟩ := get_eq_ok.mp hs
    split at hpush
    · obtain ⟨_, m₄, hretain, hpush⟩ := bind_eq_ok.mp hpush
      obtain rfl := modify_eq_ok.mp hpush
      rw [hstack, (Exec.onHeap_changes hretain).2]
    · exact absurd hpush throw_ne_ok
  · cases hv

omit hframes hf hstop hoperand hx in
theorem callee?_eq_some {callee : Function} (h : m.callee? p x = some callee) :
    ∃ v function name, m.globals.get? x = some v ∧
      m.heap.object v = .ok (some (.runnable function name)) ∧ p.function? function = some callee := by
  obtain ⟨v, hv, h⟩ := Option.bind_eq_some_iff.mp h
  split at h
  · next function name hobject => exact ⟨v, function, name, hv, hobject, h⟩
  · cases h

/-- A call enters the runnable that the name is bound to, with the stack as it is. -/
theorem advance_enters (hop : i.op = .call) {callee : Function} (hcallee : m.callee? p x = some callee)
    (h : m.advance p = (.running, m')) : ∃ function, p.function? function = some callee ∧
      m'.frames = ⟨function, 0, m.stack.size-(callee.arity+1)⟩ :: {fr with ip := fr.ip+2} :: rest ∧
      m'.stack = m.stack := by
  obtain ⟨m₁, hstep, hstack, hto⟩ := advance_reads hframes hf hstop hoperand hx (by rw [hop]; rfl)
    (by rw [hop]; rfl) h
  obtain ⟨v, function, name, hv, hobject, hfunction⟩ := callee?_eq_some hcallee
  obtain ⟨w, m₂, hw, hstep⟩ := bind_eq_ok.mp hstep
  obtain ⟨o, m₃, ho, hstep⟩ := bind_eq_ok.mp hstep
  simp only [Exec.global_eq, hv, EStateM.Result.ok.injEq] at hw
  obtain ⟨rfl, rfl⟩ := hw
  simp only [Exec.object_eq, hobject, EStateM.Result.ok.injEq] at ho
  obtain ⟨rfl, rfl⟩ := ho
  simp only [hfunction] at hstep
  obtain ⟨s, t, hs, hstep⟩ := bind_eq_ok.mp hstep
  obtain ⟨rfl, rfl⟩ := get_eq_ok.mp hs
  split at hstep
  · exact absurd hstep throw_ne_ok
  split at hstep
  · exact absurd hstep throw_ne_ok
  obtain rfl := modify_eq_ok.mp hstep
  exact ⟨function, hfunction, hto, hstack⟩

end

/-- The result that the calls waited for is there. -/
theorem Carried.filled (h : Carried p marks x v stack 1 top frames) :
    Carried p marks x v stack 0 (top+1) frames := by
  cases frames with
  | nil => trivial
  | cons fr rest =>
    obtain ⟨hend | ⟨s, hat, rfl, hheld⟩, hcallers⟩ := h
    · exact ⟨.inl hend, hcallers⟩
    · exact ⟨.inr ⟨none :: s, hat, rfl, hheld.cons nofun⟩, hcallers⟩

/-- What tags say of the place where a call goes on. -/
theorem carried_at (fr : Frame) {rest : List Frame} {f : Function} {ip height : Nat}
    (hfits : p.Fits height ({fr with ip := ip} :: rest)) (hf : p.function? fr.function = some f)
    (hat : (marks fr.function).At ip (.replicate more none++s) ∨ ip = f.chunk.code.size)
    (htop : top = Program.floor (fr :: rest)+s.length)
    (hheld : Held x v stack (Program.floor (fr :: rest)) s)
    (hcallers : Carried p marks x v stack 1 fr.base rest) :
    Carried p marks x v stack more top ({fr with ip := ip} :: rest) := by
  refine ⟨?_, hcallers⟩
  rcases hat with hat | hend
  · have hfloor : Program.floor ({fr with ip := ip} :: rest) = Program.floor (fr :: rest) := by
      cases rest <;> rfl
    exact .inr ⟨s, hat, hfloor ▸ htop, hfloor ▸ hheld⟩
  · exact .inl ⟨Program.alone_of_end hfits hf hend, f, hf, hend⟩

/-- The functions of a program have tags. -/
def Marked (p : Program) (marks : Nat → Tagging) : Prop :=
  ∀ id f, p.function? id = some f → f.Tagged p (marks id)

/-- The innermost call stands where tags tell what its instruction finds on the stack. -/
theorem Carried.here {fr : Frame} {rest : List Frame} {f : Function} {i : Instruction} {height : Nat}
    {next : List (Nat × Nat)} (h : Carried p marks x v stack 0 top (fr :: rest))
    (hmarked : Marked p marks) (hf : p.function? fr.function = some f) (hi : i ∈ f.chunk.instructions)
    (hstop : p.Stop fr.function f fr.ip height i next)
    (htop : top = Program.floor (fr :: rest)+height) :
    ∃ s, height = s.length ∧ Held x v stack (Program.floor (fr :: rest)) s ∧
      p.Bears f i s fun o t => (marks fr.function).At o t ∨ o = f.chunk.code.size := by
  obtain ⟨⟨rfl, f', hf', hend⟩ | ⟨s, ⟨⟨j, s'⟩, hmem, hoffset, hs⟩, hlength, hheld⟩, _⟩ := h
  · rw [hf] at hf'
    cases hf'
    obtain ⟨byte, hbyte, _⟩ := hstop.byte
    rw [hend, Array.getElem?_eq_none (Nat.le_refl _)] at hbyte
    cases hbyte
  · have htagged := hmarked _ _ hf
    have hj : j ∈ f.chunk.instructions := htagged.code ▸ List.mem_map_of_mem hmem
    obtain rfl := Instruction.eq_of_offset hj hi (hoffset.trans hstop.offset.symm)
    obtain rfl : s' = s := hs
    exact ⟨s', by omega, hheld, htagged.bears _ hmem⟩

/-- A turn within a call leaves the cells below it alone. -/
theorem Passes.below {m m' : Machine} {fr : Frame} {rest : List Frame} {ip index : Nat}
    (h : m.Passes m') (hfrom : m.frames = fr :: rest) (hto : m'.frames = {fr with ip := ip} :: rest)
    (hsize : Program.floor (fr :: rest) ≤ m.stack.size) (hindex : index < Program.floor (fr :: rest)) :
    m'.stack[index]? = m.stack[index]? := by
  cases h with
  | within _ _ hcells =>
    rw [hfrom] at hcells
    have hlt : index < (m.stack.toList.take (Program.floor (fr :: rest))).length := by
      rw [List.length_take, Array.length_toList]
      omega
    rw [Exec.getElem?_of_starts hcells hlt, Exec.getElem?_of_starts (List.take_prefix _ _) hlt]
  | enters _ _ _ hstack => rw [hstack]
  | returns hfrom' hto' =>
    cases hfrom.symm.trans hfrom'
    have hlength := congrArg List.length (hto.symm.trans hto')
    simp at hlength

namespace Trail

variable {z : Setting} {pools : Array (Array Value)} {turns : Nat} {run : Nat → Machine} {n height : Nat}
  {fr : Frame} {rest : List Frame} {f : Function} {i : Instruction} {e : Effect}
  {next : List (Nat × Nat)} (ht : Trail p z pools turns run) (hmarked : Marked p marks) (hn : n < turns)

section
variable (hfrom : (run n).frames = fr :: rest) (hf : p.function? fr.function = some f)
  (hi : i ∈ f.chunk.instructions) (hstop : p.Stop fr.function f fr.ip height i next)
  (he : p.Charges f i e) (hsize : (run n).stack.size = Program.floor (fr :: rest)+height)
  (h : Carried p marks x v (run n).stack 0 (run n).stack.size (fr :: rest))
include ht hmarked hn hfrom hf hi hstop he hsize h

theorem carried_onward (hbound : ∀ w, (run n).globals.get? x = some w → w = v) {y : Nat × Nat}
    (hfollows : f.Follows i e height y) (hto : (run (n+1)).frames = {fr with ip := y.1} :: rest)
    (hsize' : (run (n+1)).stack.size = Program.floor (fr :: rest)+y.2)
    (hkeeps : ∀ slot, slot+1+i.taken ≤ height →
      (run (n+1)).stack[Program.floor (fr :: rest)+slot]? =
        (run n).stack[Program.floor (fr :: rest)+slot]? ∨ f.StoresTo i.offset slot) :
    Carried p marks x v (run (n+1)).stack 0 (run (n+1)).stack.size ({fr with ip := y.1} :: rest) := by
  obtain ⟨s, rfl, hheld, hbears⟩ := h.here hmarked hf hi hstop hsize
  obtain ⟨added, hputs, hheight, hat⟩ := (hbears.onward e he).2 y hfollows
  have hpasses := advance_passes ht.loads ht.verified (ht.obeys n (by omega)) (ht.charged n hn)
    (ht.advance n hn)
  have htaken := he.taken_le
  have hkept : Held x v (run (n+1)).stack (Program.floor (fr :: rest)) (s.drop (i.removes e)) := by
    intro d hd
    rw [List.reverse_drop, List.getElem?_take] at hd
    split at hd
    · rcases hkeeps d (by omega) with hsame | ⟨j, hj, b, hoffset, _, hoperand, rfl⟩
      · exact hsame.trans (hheld d hd)
      · obtain rfl := Instruction.eq_of_offset hj hi hoffset
        cases (hbears.slot b hoperand).symm.trans hd
    · cases hd
  have hfits := (ht.obeys (n+1) hn).2
  rw [hto] at hfits
  refine carried_at fr (s := added++s.drop (i.removes e)) hfits hf hat (hheight ▸ hsize') ?_ ?_
  · cases hputs with
    | plain k => exact hkept.plain k
    | callee hop hoperand hx =>
      refine hkept.cons fun hsame => ?_
      cases hsame
      obtain ⟨w, hw, hpush⟩ := advance_gets hfrom hf hstop hoperand hx hop (ht.advance n hn)
      obtain rfl := hbound w hw
      have hplace : Program.floor (fr :: rest)+(s.drop (i.removes e)).length = (run n).stack.size := by
        have hone := congrArg Array.size hpush
        rw [Array.size_push] at hone
        simp only [List.length_append, List.length_singleton] at hheight
        omega
      rw [hplace, hpush, Array.getElem?_push_size]
  · cases rest with
    | nil => trivial
    | cons caller outer =>
      exact h.2.congr fun index hindex => hpasses.below hfrom hto (by omega) (Nat.lt_succ_of_lt hindex)

omit hfrom in
theorem carried_enters {function ip base : Nat} {callee : Function}
    (hcallee : p.function? function = some callee)
    (hto : (run (n+1)).frames = ⟨function, 0, base⟩ :: {fr with ip := ip} :: rest)
    (hroom : (run n).stack.size = base+1+callee.arity) (hstack : (run (n+1)).stack = (run n).stack)
    (hop : i.op = .call) (hfollows : ∃ y, f.Follows i e height y ∧ y.1 = ip ∧ e.pushes = 1 ∧
      base+1 = Program.floor (fr :: rest)+y.2) :
    Carried p marks x v (run (n+1)).stack 0 (run (n+1)).stack.size
      (⟨function, 0, base⟩ :: {fr with ip := ip} :: rest) := by
  obtain ⟨s, rfl, hheld, hbears⟩ := h.here hmarked hf hi hstop hsize
  obtain ⟨y, hy, rfl, hpushes, hbase⟩ := hfollows
  obtain ⟨added, hputs, hheight, hat⟩ := (hbears.onward e he).2 y hy
  obtain ⟨hremoves, hy'⟩ := follows_of_pushes he hpushes hy
  have hfits := (ht.obeys (n+1) hn).2
  rw [hto] at hfits
  rw [hstack]
  -- the caller waits for the result, the callee has its arguments
  have hcaller : Carried p marks x v (run n).stack 1 base ({fr with ip := y.1} :: rest) := by
    cases hputs with
    | callee hget => cases hop.symm.trans hget
    | plain k =>
      simp only [List.length_append, List.length_replicate, List.length_drop] at hheight
      obtain rfl : k = 1 := by omega
      refine carried_at fr hfits.2.2 hf hat ?_ (hheld.drop _) h.2
      rw [List.length_drop]
      omega
  refine carried_at ⟨function, 0, base⟩ hfits hcallee ?_ ?_ (held_plain _ _ _ _ callee.arity) hcaller
  · exact (hmarked _ _ hcallee).entry.imp_right Eq.symm
  · rw [List.length_replicate]
    exact hroom

end

theorem carried_returns {caller : Frame} {outer : List Frame} {w : Value}
    (hsize : (run n).stack.size = Program.floor (fr :: caller :: outer)+height)
    (h : Carried p marks x v (run n).stack 0 (run n).stack.size (fr :: caller :: outer))
    (hstack : (run (n+1)).stack.toList = (run n).stack.toList.take fr.base++[w]) :
    Carried p marks x v (run (n+1)).stack 0 (run (n+1)).stack.size (caller :: outer) := by
  simp only [Program.floor] at hsize
  have hlength : ((run n).stack.toList.take fr.base).length = fr.base := by
    rw [List.length_take, Array.length_toList]
    omega
  have hsize' : (run (n+1)).stack.size = fr.base+1 := by
    rw [← Array.length_toList, hstack, List.length_append, hlength, List.length_singleton]
  rw [hsize']
  refine (h.2.congr fun index hindex => ?_).filled
  have hstarts : (run n).stack.toList.take fr.base <+: (run (n+1)).stack.toList :=
    hstack ▸ List.prefix_append _ _
  have hlt : index < ((run n).stack.toList.take fr.base).length := by omega
  rw [Exec.getElem?_of_starts hstarts hlt, Exec.getElem?_of_starts (List.take_prefix _ _) hlt]

include ht hmarked hn in
/-- A turn takes no callee away that still waits for its arguments. -/
theorem carried_turn (hbound : ∀ w, (run n).globals.get? x = some w → w = v)
    (h : Carried p marks x v (run n).stack 0 (run n).stack.size (run n).frames) :
    Carried p marks x v (run (n+1)).stack 0 (run (n+1)).stack.size (run (n+1)).frames := by
  obtain ⟨fr, rest, f, i, e, height, _, hfrom, hf, hi, hstop, he, hsize, hcourse⟩ :=
    advance_course ht.loads ht.verified (ht.obeys n (by omega)) (ht.charged n hn) (ht.advance n hn)
  rw [hfrom] at h
  cases hcourse with
  | onward hfollows hto hsize' hkeeps =>
    rw [hto]
    exact ht.carried_onward hmarked hn hfrom hf hi hstop he hsize h hbound hfollows hto hsize' hkeeps
  | enters hcallee _ hto hroom hstack hop hfollows =>
    rw [hto]
    exact ht.carried_enters hmarked hn hf hi hstop he hsize h hcallee hto hroom hstack hop hfollows
  | returns hrest hto hstack =>
    subst hrest
    rw [hto]
    exact carried_returns hsize h hstack

include ht hmarked in
/-- In a run in which a name is never bound to another value, callees stay where they are. -/
theorem carried {k : Nat} (hk : k ≤ turns)
    (hbound : ∀ j < k, ∀ w, (run j).globals.get? x = some w → w = v) :
    Carried p marks x v (run k).stack 0 (run k).stack.size (run k).frames := by
  induction k with
  | zero =>
    have hfits := (ht.obeys 0 hk).2
    rw [ht.start] at hfits ⊢
    obtain ⟨f, hf⟩ := Program.function?_of_fits hfits
    by_cases hempty : f.chunk.code.size = 0
    · exact ⟨.inl ⟨rfl, f, hf, hempty.symm⟩, trivial⟩
    have hentry := Program.arrives_entry ht.verified hf
    rw [Program.Arrives, if_neg (Ne.symm hempty)] at hentry
    obtain ⟨height, hmeets, htop⟩ | ⟨_, hend⟩ := Program.meets_of_fits hfits hf
    · rw [htop, hmeets.height_eq hentry]
      refine carried_at ⟨0, 0, 0⟩ (htop ▸ hfits) hf ?_ ?_ (held_plain _ _ _ _ f.arity) trivial
      · exact (hmarked _ _ hf).entry.imp_right Eq.symm
      · rw [List.length_replicate]
    · exact absurd hend.symm hempty
  | succ k ih =>
    exact ht.carried_turn hmarked hk (hbound k (Nat.lt_succ_self k))
      (ih (by omega) fun j hj => hbound j (by omega))

omit hn in
include ht hmarked in
/-- A call finds what its name was bound to under its arguments, in a cell of its own. -/
theorem callee_cell {k : Nat} (hk : k ≤ turns) {callee : Function}
    (hbound : ∀ j < k, ∀ w, (run j).globals.get? x = some w → w = v)
    (hfrom : (run k).frames = fr :: rest) (hf : p.function? fr.function = some f)
    (hi : i ∈ f.chunk.instructions) (hstop : p.Stop fr.function f fr.ip height i next)
    (hsize : (run k).stack.size = Program.floor (fr :: rest)+height) (hop : i.op = .call)
    {index : UInt8} (hoperand : i.operand = .constant index)
    (hx : f.chunk.constant? index = some (.text x)) (hcallee : p.runnable? x = some callee) :
    ∃ base, (run k).stack[base]? = some v ∧ (run k).stack.size = base+1+callee.arity ∧
      Program.floor (fr :: rest) ≤ base := by
  have h := ht.carried hmarked hk hbound
  rw [hfrom] at h
  obtain ⟨s, rfl, hheld, hbears⟩ := h.here hmarked hf hi hstop hsize
  have htag := hbears.call index x callee hop hoperand hx hcallee
  have hlt := (List.getElem?_eq_some_iff.mp htag).1
  refine ⟨Program.floor (fr :: rest)+(s.length-1-callee.arity), hheld _ ?_, by omega, by omega⟩
  rw [List.getElem?_reverse (by omega), show s.length-1-(s.length-1-callee.arity) = callee.arity by omega]
  exact htag

end Trail
end Machine
end RatScript
