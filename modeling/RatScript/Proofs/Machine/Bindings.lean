import RatScript.Proofs.Machine.Boundaries
import RatScript.Proofs.Machine.Callers
import RatScript.Proofs.Machine.Reload

/-!
What names are bound to. A turn binds a name that was free, or gives a new value to one that held no
runnable. As long as no variable or assignment gives a runnable to the name of another one, a name gets
its own runnable only, and keeps it.
-/

namespace RatScript

open Stateful

namespace Machine

/-- A handle that some pool holds stands for one object. -/
def Setting.Firm (z : Setting) : Prop := ∀ r o o', z.pinned r → z.typed r o → z.typed r o' → o = o'

/-- A value is a runnable with a name, as long as it is live. -/
def Setting.Titles (z : Setting) (v : Value) (name : String) : Prop :=
  ∃ r id, v = .object r ∧ z.typed r (.runnable id name)

/-- What a turn does to the value of a name. It stays, or the name was free and gets no runnable but its
own, or neither the value it had nor the one it gets is a runnable. -/
inductive Setting.Rebinds (z : Setting) (x : String) : Option Value → Option Value → Prop
  | same (g : Option Value) : Rebinds z x g g
  | first {v : Value} (hv : ∀ y, z.Titles v y → y = x) : Rebinds z x none (some v)
  | again {v w : Value} (hv : ∀ y, ¬ z.Titles v y) (hw : ∀ y, ¬ z.Titles w y) :
    Rebinds z x (some v) (some w)

/-- The next turn is about to give the name of a runnable to a runnable, by declaring a variable or by
an assignment. -/
def Renames (p : Program) (m : Machine) : Prop :=
  ∃ fr ∈ m.frames.head?, ∃ f ∈ p.function? fr.function, ∃ op ∈ f.chunk.code[fr.ip]?.bind Opcode.ofByte?,
    (op = .define ∨ op = .set .global) ∧ ∃ index ∈ f.chunk.code[fr.ip+1]?, ∃ x ∈ f.identifier? index,
      (p.runnable? x).isSome ∧ ∃ v ∈ m.stack.back?, m.heap.isRunnable v

instance (p : Program) (m : Machine) : Decidable (m.Renames p) := by
  unfold Renames
  infer_instance

variable {p : Program} {z : Setting} {pools : Array (Array Value)} {X : List Value}
  {S : Handle → Prop} {m m' : Machine} {v w : Value} {x : String}

theorem settled_firm (m : Machine) : m.settled.Firm :=
  fun _ _ _ hr h h' => Option.some.inj ((h.1 hr).symm.trans (h'.1 hr))

section
variable (hm : m.Counted z X S)
include hm

theorem titles_of_object {id : Nat} (h : m.heap.object v = .ok (some (.runnable id x))) :
    z.Titles v x := by
  obtain ⟨r, l, rfl, hl, ho⟩ := Exec.live_of_object h
  exact ⟨r, id, rfl, ho ▸ hm.typed r l hl⟩

variable (hz : z.Loads p pools) (hfirm : z.Firm) (hlive : Exec.Live v m) (h : z.Titles v x)
include hz hfirm hlive h

theorem object_of_titles : ∃ id, m.heap.object v = .ok (some (.runnable id x)) := by
  obtain ⟨r, id, rfl, htyped⟩ := h
  obtain ⟨l, hl⟩ := hlive r rfl
  have ho := hfirm r _ _ (hz.runnable r id x htyped).1 (hm.typed r l hl) htyped
  exact ⟨id, by simp [Heap.object, Heap.get, Heap.object?, hl, ho, Except.map]⟩

theorem isRunnable_of_titles : m.heap.isRunnable v = true := by
  obtain ⟨id, ho⟩ := object_of_titles hm hz hfirm hlive h
  simp [Heap.isRunnable, ho]

end

theorem not_titles_of_plain (h : ∀ r, v ≠ .object r) (y : String) : ¬ z.Titles v y := by
  rintro ⟨r, _, rfl, _⟩
  exact h r rfl

/-- A new text is no runnable. -/
theorem not_titles_of_fresh (hz : z.Loads p pools) (h : Exec.Fresh z v m) (y : String) :
    ¬ z.Titles v y := by
  rintro ⟨r, id, rfl, htyped⟩
  exact (h r rfl).1 (hz.runnable r id y htyped).1

/-- A name is bound to a value, and others stay what they are. -/
def Binds (name : String) (v : Value) (m m' : Machine) : Prop :=
  ∀ x, m'.globals.get? x = if x = name then some v else m.globals.get? x

theorem Binds.first {name : String} (h : m.Binds name v m') (hnone : m.globals.get? name = none)
    (hv : name = x → ∀ y, z.Titles v y → y = x) : z.Rebinds x (m.globals.get? x) (m'.globals.get? x) := by
  rw [h x]
  split
  · next heq =>
    rw [heq, hnone, ← heq]
    exact .first (hv heq.symm)
  · exact .same _

theorem Binds.again {name : String} (h : m.Binds name w m') (hold : m.globals.get? name = some v)
    (hv : ∀ y, ¬ z.Titles v y) (hw : name = x → ∀ y, ¬ z.Titles w y) :
    z.Rebinds x (m.globals.get? x) (m'.globals.get? x) := by
  rw [h x]
  split
  · next heq =>
    rw [heq, hold, ← heq]
    exact .again hv (hw heq.symm)
  · exact .same _

end Machine

namespace Exec

open Machine

variable {p : Program} {z : Setting} {pools : Array (Array Value)} {X : List Value}
  {S : Handle → Prop} {m m' : Machine} {v : Value} {name x : String} {id : Nat} {f : Function}

/-! What parts that succeed have done. -/

theorem identifier_changes (h : identifier f m = .ok name m') :
    ∃ fr rest index, m.frames = fr :: rest ∧ f.chunk.code[fr.ip]? = some index ∧
      f.identifier? index = some name ∧
      m' = {m with frames := {fr with ip := fr.ip+1} :: rest} := by
  obtain ⟨index, m₁, hindex, h⟩ := bind_eq_ok.mp h
  obtain ⟨fr, rest, hframes, hcode, rfl⟩ := readByte_changes hindex
  cases hname : f.identifier? index with
  | none =>
    rw [hname] at h
    exact absurd h throw_ne_ok
  | some y =>
    rw [hname] at h
    obtain ⟨rfl, rfl⟩ := pure_eq_ok.mp h
    exact ⟨fr, rest, index, hframes, hcode, hname, rfl⟩

theorem defineGlobal_changes (h : defineGlobal name v m = .ok () m') :
    m.globals.get? name = none ∧ m.Binds name v m' := by
  obtain ⟨s, t, hs, h⟩ := bind_eq_ok.mp h
  obtain ⟨rfl, rfl⟩ := get_eq_ok.mp hs
  cases hname : m.globals.get? name with
  | some old =>
    rw [hname] at h
    exact absurd h throw_ne_ok
  | none =>
    rw [hname] at h
    obtain ⟨_, m₁, hretain, h⟩ := bind_eq_ok.mp h
    obtain rfl := modify_eq_ok.mp h
    rw [(onHeap_changes hretain).2]
    exact ⟨rfl, fun y => Globals.get?_define m.globals name y v⟩

theorem assignable_changes (h : assignable name m = .ok v m') :
    m' = m ∧ m.globals.get? name = some v ∧ m.heap.isRunnable v = false := by
  have hfound := assignable_finds (m := m) name m rfl
  rw [h] at hfound
  obtain ⟨rfl, hname⟩ := hfound
  obtain ⟨w, m₁, hglobal, h⟩ := bind_eq_ok.mp h
  have hfound := global_finds (m := m') name m' rfl
  rw [hglobal] at hfound
  obtain ⟨rfl, hname'⟩ := hfound
  obtain ⟨s, t, hs, hguard⟩ := bind_eq_ok.mp h
  obtain ⟨rfl, rfl⟩ := get_eq_ok.mp hs
  split at hguard
  · exact absurd hguard throw_ne_ok
  · next hfree =>
    obtain ⟨rfl, _⟩ := pure_eq_ok.mp hguard
    rw [Bool.or_eq_true, not_or, Bool.not_eq_true] at hfree
    exact ⟨rfl, hname, hfree.1⟩

theorem counted_changes {up : Bool} {w : Value} (h : counted up v m = .ok w m') :
    m' = m ∧ ∀ r, w ≠ .object r := by
  have hfound := counted_finds (m := m) up v m rfl
  rwa [h] at hfound

section
variable (hz : z.Loads p pools) (hfirm : z.Firm) (hm : m.Counted z X S)
include hz hfirm hm

/-- What may be assigned to is no runnable. -/
theorem not_titles_of_assignable (h : assignable name m = .ok v m') (y : String) :
    ¬ z.Titles v y := by
  obtain ⟨_, hname, hfree⟩ := assignable_changes h
  intro ht
  rw [isRunnable_of_titles hm hz hfirm (live_of_get? hm hname) ht] at hfree
  cases hfree

/-- A runnable on top of the stack shows as one. -/
theorem not_titles_of_top (hback : m.stack.back? = some v) (hfree : m.heap.isRunnable v = false)
    (y : String) : ¬ z.Titles v y := by
  intro ht
  have hlive : Live v m := live_of_stack hm (Array.mem_toList_iff.mpr (Array.mem_of_back? hback))
  rw [isRunnable_of_titles hm hz hfirm hlive ht] at hfree
  cases hfree

theorem define_rebinds (hx : execute p id f .define m = .ok () m')
    (hnot : ∀ fr ∈ m.frames.head?, ∀ index ∈ f.chunk.code[fr.ip]?, f.identifier? index = some x →
      ∀ v ∈ m.stack.back?, m.heap.isRunnable v = false) :
    z.Rebinds x (m.globals.get? x) (m'.globals.get? x) := by
  obtain ⟨name, m₁, hname, hx⟩ := bind_eq_ok.mp hx
  obtain ⟨v, m₂, hv, hx⟩ := bind_eq_ok.mp hx
  obtain ⟨_, m₃, hdefine, hpop⟩ := bind_eq_ok.mp hx
  obtain ⟨fr, rest, index, hframes, hindex, hidentifier, rfl⟩ := identifier_changes hname
  obtain ⟨rfl, hback⟩ := top_of_peek hv
  obtain ⟨hnone, hbinds⟩ := defineGlobal_changes hdefine
  have hsame : m'.globals = m₃.globals := (inferInstance : Keeps SameGlobals pop).of_ok hpop
  rw [hsame]
  refine Binds.first (m := m) hbinds hnone ?_
  rintro rfl y ht
  exact absurd ht (not_titles_of_top hz hfirm hm hback
    (hnot fr (by simp [hframes]) index hindex hidentifier v hback) y)

theorem set_rebinds (hx : execute p id f (.set .global) m = .ok () m')
    (hnot : ∀ fr ∈ m.frames.head?, ∀ index ∈ f.chunk.code[fr.ip]?, f.identifier? index = some x →
      ∀ v ∈ m.stack.back?, m.heap.isRunnable v = false) :
    z.Rebinds x (m.globals.get? x) (m'.globals.get? x) := by
  have hidentifies : Keeps (Invariant (Counted z X S)) (identifier f) := inferInstance
  obtain ⟨name, m₁, hname, hx⟩ := bind_eq_ok.mp hx
  obtain ⟨old, m₂, hold, hx⟩ := bind_eq_ok.mp hx
  obtain ⟨v, m₃, hv, hstore⟩ := bind_eq_ok.mp hx
  have hplain := not_titles_of_assignable hz hfirm (hidentifies.of_ok hname hm) hold
  obtain ⟨fr, rest, index, hframes, hindex, hidentifier, rfl⟩ := identifier_changes hname
  obtain ⟨rfl, hbound, _⟩ := assignable_changes hold
  obtain ⟨rfl, hback⟩ := top_of_peek hv
  have hbinds : m.Binds name v m' := fun y => storeGlobal_changes hstore y
  refine hbinds.again hbound hplain ?_
  rintro rfl y ht
  exact absurd ht (not_titles_of_top hz hfirm hm hback
    (hnot fr (by simp [hframes]) index hindex hidentifier v hback) y)

theorem count_rebinds {up : Bool} (hx : execute p id f (.count .global up) m = .ok () m') :
    z.Rebinds x (m.globals.get? x) (m'.globals.get? x) := by
  have hidentifies : Keeps (Invariant (Counted z X S)) (identifier f) := inferInstance
  obtain ⟨name, m₁, hname, hx⟩ := bind_eq_ok.mp hx
  obtain ⟨old, m₂, hold, hx⟩ := bind_eq_ok.mp hx
  obtain ⟨v, m₃, hv, hx⟩ := bind_eq_ok.mp hx
  obtain ⟨_, m₄, hstore, hpush⟩ := bind_eq_ok.mp hx
  have hplain := not_titles_of_assignable hz hfirm (hidentifies.of_ok hname hm) hold
  obtain ⟨fr, rest, index, hframes, hindex, hidentifier, rfl⟩ := identifier_changes hname
  obtain ⟨rfl, hbound, _⟩ := assignable_changes hold
  obtain ⟨rfl, hnumber⟩ := counted_changes hv
  have hsame : m'.globals = m₄.globals := (inferInstance : Keeps SameGlobals (push v)).of_ok hpush
  have hbinds : m.Binds name v m₄ := fun y => storeGlobal_changes hstore y
  rw [hsame]
  exact hbinds.again hbound hplain fun _ => not_titles_of_plain hnumber

theorem compound_rebinds {op : Operator} (hx : execute p id f (.compound .global op) m = .ok () m') :
    z.Rebinds x (m.globals.get? x) (m'.globals.get? x) := by
  have hidentifies : Keeps (Invariant (Counted z X S)) (identifier f) := inferInstance
  obtain ⟨name, m₁, hname, hx⟩ := bind_eq_ok.mp hx
  obtain ⟨old, m₂, hold, hx⟩ := bind_eq_ok.mp hx
  obtain ⟨operand, m₃, hoperand, hx⟩ := bind_eq_ok.mp hx
  obtain ⟨v, m₄, hv, hx⟩ := bind_eq_ok.mp hx
  obtain ⟨_, m₅, hstore, hreplace⟩ := bind_eq_ok.mp hx
  have hm₁ := hidentifies.of_ok hname hm
  have hplain := not_titles_of_assignable hz hfirm hm₁ hold
  obtain ⟨fr, rest, index, hframes, hindex, hidentifier, rfl⟩ := identifier_changes hname
  obtain ⟨rfl, hbound, _⟩ := assignable_changes hold
  obtain ⟨rfl, hback⟩ := top_of_peek hoperand
  have hmakes := apply_makes hm₁ op (live_of_get? hm₁ hbound)
    (live_of_stack hm₁ (Array.mem_toList_iff.mpr (Array.mem_of_back? hback))) _ rfl
  rw [hv] at hmakes
  obtain ⟨_, hfresh, ⟨_, hglobals, _⟩, _⟩ := hmakes
  have hsame : m'.globals = m₅.globals := (inferInstance : Keeps SameGlobals (replaceTop v)).of_ok hreplace
  have hbinds : m.Binds name v m₅ := fun y => by rw [storeGlobal_changes hstore y, hglobals]
  rw [hsame]
  exact hbinds.again hbound hplain fun _ => not_titles_of_fresh hz hfresh

/-- The runnable that is declared is bound to its own name. -/
theorem defineRunnable_rebinds (hx : execute p id f .defineRunnable m = .ok () m') :
    z.Rebinds x (m.globals.get? x) (m'.globals.get? x) := by
  obtain ⟨index, m₁, hindex, hx⟩ := bind_eq_ok.mp hx
  obtain ⟨_, m₂, hlines, hx⟩ := bind_eq_ok.mp hx
  obtain ⟨v, m₃, hv, hx⟩ := bind_eq_ok.mp hx
  obtain ⟨o, m₄, ho, hx⟩ := bind_eq_ok.mp hx
  obtain ⟨fr, rest, hframes, hcode, rfl⟩ := readByte_changes hindex
  obtain ⟨fr', rest', hframes', hword, rfl⟩ := readWord_changes hlines
  have hfound := constant_finds (m := {m with frames := {fr' with ip := fr'.ip+2} :: rest'}) id index _ rfl
  rw [hv] at hfound
  obtain ⟨rfl, hpool⟩ := hfound
  obtain ⟨rfl, hobject⟩ := found_of_ask ho
  split at hx
  · next function name =>
    obtain ⟨hnone, hbinds⟩ := defineGlobal_changes hx
    refine Binds.first (m := m) hbinds hnone ?_
    rintro rfl y ⟨r, id', rfl, htyped⟩
    obtain ⟨_, _, heq, htyped'⟩ := titles_of_object hm hobject
    cases heq
    have hsame := hfirm r _ _ (hz.runnable r _ _ htyped).1 htyped htyped'
    cases hsame
    rfl
  · exact absurd hx throw_ne_ok

/-- An instruction that declares or assigns no runnable under a name leaves what the name is bound to, or
rebinds it. -/
theorem execute_rebinds {op : Opcode} (hx : execute p id f op m = .ok () m')
    (hnot : op = .define ∨ op = .set .global → ∀ fr ∈ m.frames.head?, ∀ index ∈ f.chunk.code[fr.ip]?,
      f.identifier? index = some x → ∀ v ∈ m.stack.back?, m.heap.isRunnable v = false) :
    z.Rebinds x (m.globals.get? x) (m'.globals.get? x) := by
  by_cases hbinds : op.binds = true
  · cases op with
    | define => exact define_rebinds hz hfirm hm hx (hnot (.inl rfl))
    | defineRunnable => exact defineRunnable_rebinds hz hfirm hm hx
    | set scope =>
      cases scope with
      | global => exact set_rebinds hz hfirm hm hx (hnot (.inr rfl))
      | frame => cases hbinds
    | count scope up =>
      cases scope with
      | global => exact count_rebinds hz hfirm hm hx
      | frame => cases hbinds
    | compound scope op =>
      cases scope with
      | global => exact compound_rebinds hz hfirm hm hx
      | frame => cases hbinds
    | _ => cases hbinds
  · have hkeeps : Keeps SameGlobals (execute p id f op) :=
      keeps_execute p id f (Bool.not_eq_true _ ▸ hbinds)
    rw [hkeeps.of_ok hx]
    exact .same _

end

end Exec

namespace Machine

variable {p : Program} {z : Setting} {pools : Array (Array Value)} {X : List Value}
  {S : Handle → Prop} {m m' : Machine} {x : String}

/-- A turn leaves what the name of a runnable is bound to, or rebinds it. -/
theorem advance_rebinds (hz : z.Loads p pools) (hfirm : z.Firm) (hm : m.Counted z X S)
    (hnot : ¬ m.Renames p) (hx : (p.runnable? x).isSome) (h : m.advance p = (.running, m')) :
    z.Rebinds x (m.globals.get? x) (m'.globals.get? x) := by
  cases hframes : m.frames with
  | nil =>
    simp only [advance, hframes] at h
    cases h
  | cons fr rest =>
    obtain ⟨f, m₁, hf, hip, hstep, _, _, hglobals⟩ := advance_steps hframes h
    obtain ⟨byte, m₂, hbyte, hstep⟩ := bind_eq_ok.mp hstep
    have hreads : Keeps (Invariant (Counted z X S)) (Exec.readByte f.chunk.code) := inferInstance
    have hm₂ := hreads.of_ok hbyte hm
    obtain ⟨fr', rest', hframes', hcode, rfl⟩ := Exec.readByte_changes hbyte
    cases hframes.symm.trans hframes'
    rw [hglobals]
    cases hop : Opcode.ofByte? byte with
    | some op =>
      rw [hop] at hstep
      refine Exec.execute_rebinds (m := {m with frames := {fr with ip := fr.ip+1} :: rest}) hz hfirm hm₂
        hstep fun hbinds fr' hfr' index hindex hidentifier v hv => ?_
      cases hfr'
      rw [← Bool.not_eq_true]
      intro hrunnable
      exact hnot ⟨fr, by simp [hframes], f, hf, op, by simp [hcode, hop], hbinds, index, hindex, x,
        hidentifier, hx, v, hv, hrunnable⟩
    | none =>
      rw [hop] at hstep
      exact absurd hstep throw_ne_ok

/-- A name that is free has always been free, where turns rebind it. -/
theorem none_before {g : Nat → Option Value} {n : Nat} (h : ∀ k < n, z.Rebinds x (g k) (g (k+1)))
    (hn : g n = none) {k : Nat} (hk : k ≤ n) : g k = none := by
  induction n generalizing k with
  | zero =>
    obtain rfl : k = 0 := by omega
    exact hn
  | succ n ih =>
    have hlast : g n = none := by
      have hturn := h n (Nat.lt_succ_self n)
      rw [hn] at hturn
      generalize g n = before at hturn
      cases hturn
      rfl
    by_cases hk : k = n+1
    · exact hk ▸ hn
    · exact ih (fun k hk => h k (by omega)) hlast (by omega)

/-- A name that is bound to a runnable got it when it was free, and it is its own. -/
theorem bound_before {g : Nat → Option Value} {n : Nat} (h : ∀ k < n, z.Rebinds x (g k) (g (k+1)))
    (hstart : ∀ v ∈ g 0, ∀ y, ¬ z.Titles v y) {v : Value} (hv : g n = some v) {y : String}
    (ht : z.Titles v y) : y = x ∧ ∀ k ≤ n, g k = none ∨ g k = some v := by
  induction n generalizing v with
  | zero => exact absurd ht (hstart v hv y)
  | succ n ih =>
    have hbefore : ∀ k < n, z.Rebinds x (g k) (g (k+1)) := fun k hk => h k (by omega)
    have hlast {P : Prop} (hnow : P) (hearly : ∀ k ≤ n, g k = none ∨ g k = some v) :
        P ∧ ∀ k ≤ n+1, g k = none ∨ g k = some v := by
      refine ⟨hnow, fun k hk => ?_⟩
      by_cases hk : k = n+1
      · exact .inr (hk ▸ hv)
      · exact hearly k (by omega)
    have hturn := h n (Nat.lt_succ_self n)
    rw [hv] at hturn
    cases hg : g n with
    | none =>
      rw [hg] at hturn
      cases hturn with
      | first hv => exact hlast (hv y ht) fun k hk => .inl (none_before hbefore hg hk)
    | some w =>
      rw [hg] at hturn
      cases hturn with
      | same =>
        obtain ⟨hy, hearly⟩ := ih hbefore hg ht
        exact hlast hy hearly
      | again _ hplain => exact absurd ht (hplain y)

end Machine
end RatScript
