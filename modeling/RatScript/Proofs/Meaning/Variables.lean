import RatScript.Proofs.Meaning.Instruction

/-!
Instructions that change variables. A global keeps its value in a table, a local in a cell of the
stack; for the walk both are variables found by name.
-/

namespace RatScript

/-- The constant of a function at an index is this runnable as long as the pools are there. -/
structure Provides (P : Array (Array Value)) (z : Machine.Setting) (function : Nat) (index : UInt8)
    (r : Handle) (id : Nat) (name : String) : Prop where
  constant : P[function]?.bind (·[index.toNat]?) = some (.object r)
  typed : ∀ o, z.typed r o → o = .runnable id name

namespace Exec

open Machine Spot

variable {line : Nat} {q : Spot} {p : Program} {P : Array (Array Value)} {z : Setting}
  {f : Function} {ip : Nat} {upper st : List Content} {fs : List Frame} {σ : Store} {m : Machine} {v : View} {x : String}
  {i : UInt8} {w : Value} {c d : Content} {scope : Scope}

/-! Locals. -/

theorem assignable_local (hx : σ.locals.lookup x = some d) :
    Walk.assignable line x σ = .ok d σ := by
  simp only [Walk.assignable, bind, EStateM.bind, get, getThe, MonadStateOf.get, EStateM.get, hx]
  rfl

theorem write_local (hx : σ.locals.lookup x = some d) (c : Content) :
    Walk.write x c σ = .ok () {σ with locals := Store.rebind x c σ.locals} := by
  simp only [Walk.write, modify, modifyGet, MonadStateOf.modifyGet, EStateM.modifyGet, hx]

/-- A local of the call gets another value, which is then kept in its cell. -/
theorem storeLocal_shown {l : Option (Value × Content)} (hq : q.Sees v) {slot : UInt8}
    (hs : v.slot? x = some slot) (hσ : σ.locals.map Prod.fst = q.names)
    (hm : m.Amid p P z [] l σ (q.under++σ.cells++upper) (⟨q.function, ip, q.base⟩ :: q.callers))
    (hw : m.heap.content? w = some c) :
    ∃ m', storeLocal slot w m = .ok () m' ∧
      q.Shown p P z ip upper {σ with locals := Store.rebind x c σ.locals} m' ∧
      m'.stack[q.base+slot.toNat+1]? = some w := by
  obtain ⟨d, _, hcell, hset⟩ := hq.slot hσ hs upper
  obtain ⟨m', hstore, hm', hkept⟩ := storeLocal_shows hm hw hcell
  rw [hset] at hm'
  refine ⟨m', hstore, ⟨?_, ?_⟩, hkept⟩
  · exact (Store.names_rebind x c σ.locals).trans hσ
  · exact restore hm' ⟨hm'.globals, hm'.input, hm'.output, hm'.files⟩

/-! A value that is kept somewhere else comes to the top. -/

theorem content?_of_global (hm : m.Presents σ) (hw : m.globals.get? x = some w)
    (hx : σ.globals x = some c) : m.heap.content? w = some c := by
  have h := hm.globals x
  rw [hw, hx] at h
  exact Option.some.inj h

theorem lookup_rebind {locals : List (String × Content)} (hx : locals.lookup x = some d)
    (c : Content) : (Store.rebind x c locals).lookup x = some c := by
  induction locals with
  | nil => cases hx
  | cons l rest ih =>
    obtain ⟨y, e⟩ := l
    unfold Store.rebind
    by_cases heq : y = x
    · simp [heq]
    · have hbeq : (x == y) = false := by simpa using Ne.symm heq
      rw [List.lookup_cons, hbeq] at hx
      rw [if_neg heq, List.lookup_cons, hbeq]
      exact ih hx

theorem content?_of_local (hq : q.Sees v) {slot : UInt8} (hs : v.slot? x = some slot)
    (hm : q.Shown p P z ip upper σ m) (hw : m.stack[q.base+slot.toNat+1]? = some w)
    (hx : σ.locals.lookup x = some c) : m.heap.content? w = some c := by
  obtain ⟨d, hlookup, hcell, _⟩ := hq.slot hm.1 hs upper
  rw [hx] at hlookup
  cases hlookup
  obtain ⟨u, hu, hcontent⟩ := hm.2.content?_getElem? hcell
  rw [hw] at hu
  cases hu
  exact hcontent

theorem replaceTop_kept (hm : m.Shows p P z σ (st++[d]) fs)
    (hkept : ∀ m' : Machine, m'.globals = m.globals → m'.stack = m.stack.pop →
      m'.Shows p P z σ st fs → m'.heap.content? w = some c) :
    ∃ m', replaceTop w m = .ok () m' ∧ m'.Shows p P z σ (st++[c]) fs := by
  obtain ⟨h, hpop, hm'⟩ := pop_shows hm
  have hroom : st.length < z.config.stackCapacity := by
    have h := hm.room
    simp only [List.length_append, List.length_singleton] at h
    omega
  obtain ⟨m', hpush, hm''⟩ := push_shows hm' (hkept _ rfl rfl hm') hroom
  exact ⟨m', by simp only [replaceTop, bind, EStateM.bind, hpop, hpush], hm''⟩

/-! Assignments. -/

theorem execute_set (hm : q.Shown p P z ip (upper++[c]) σ m) (hf : p.function? q.function = some f)
    (hq : q.Sees v) (hx : v.Refers p x scope i) (hbyte : f.chunk.code[ip]? = some i) :
    Follows line σ (do let _ ← Walk.assignable line x; Walk.write x c; return c) m
      (execute p q.function f (.set scope)) fun c σ' _ m' =>
        q.Shown p P z (ip+1) (upper++[c]) σ' m' := by
  cases hx with
  | global hs hk =>
    rw [hq.function] at hk
    have hnone := hq.lookup_none hm.1 hs
    obtain ⟨m₁, hread, hm₁⟩ := hm.identifier hbyte (identifier?_of_constant? hf hk)
    refine .skip hread ((assignable_follows hm₁.2.toPresents hnone).bind ?_)
    rintro old σ _ m ⟨⟨rfl, rfl, _⟩, hold⟩
    obtain ⟨w, hpeek, hw⟩ := hm₁.peek
    obtain ⟨m₂, hstore, hm₂, _⟩ := storeGlobal_shows hm₁.over hw hold
    exact .skip hpeek (.lead (write_eq_ok hnone c) (.done hstore (hm₁.next rfl hm₂)))
  | frame hs =>
    obtain ⟨d, hlookup, _⟩ := hq.slot hm.1 hs (upper++[c])
    obtain ⟨m₁, hread, hm₁⟩ := hm.readByte hbyte
    obtain ⟨w, hpeek, hw⟩ := hm₁.peek
    obtain ⟨m₂, hstore, hm₂, _⟩ := storeLocal_shown hq hs hm₁.1 hm₁.2 hw
    exact .skip hread (.skip hpeek (.lead (assignable_local hlookup)
      (.lead (write_local hlookup c) (.done hstore hm₂))))

theorem execute_count (hm : q.Shown p P z ip upper σ m) (hf : p.function? q.function = some f)
    (hq : q.Sees v) (hx : v.Refers p x scope i) (hbyte : f.chunk.code[ip]? = some i) (up : Bool)
    (hroom : q.Room z upper 1) :
    Follows line σ
      (do
        let c ← Walk.lift line ((← Walk.assignable line x).counted up)
        Walk.write x c
        return c) m
      (execute p q.function f (.count scope up)) fun c σ' _ m' =>
        q.Shown p P z (ip+1) (upper++[c]) σ' m' := by
  cases hx with
  | global hs hk =>
    rw [hq.function] at hk
    have hnone := hq.lookup_none hm.1 hs
    obtain ⟨m₁, hread, hm₁⟩ := hm.identifier hbyte (identifier?_of_constant? hf hk)
    refine .skip hread ((assignable_follows hm₁.2.toPresents hnone).bind ?_)
    rintro old σ u m ⟨⟨rfl, rfl, hu⟩, hold⟩
    refine (counted_follows hm₁.2 up hu).bind ?_
    rintro c σ w m₂ ⟨rfl, hm₂⟩
    obtain ⟨m₃, hstore, hm₃, hkept⟩ := storeGlobal_shows hm₂ (hm₂.loose _ rfl).1 hold
    have hw := content?_of_global hm₃.toPresents hkept (Function.update_self ..)
    obtain ⟨m₄, hpush, hm₄⟩ := push_shows hm₃ hw (hm₁.room hroom)
    exact .skip hstore (.lead (write_eq_ok hnone c) (.done hpush (hm₁.next rfl hm₄)))
  | frame hs =>
    obtain ⟨d, hlookup, hcell, _⟩ := hq.slot hm.1 hs upper
    obtain ⟨m₁, hread, hm₁⟩ := hm.readByte hbyte
    obtain ⟨u, hload, _, hu⟩ := loadLocal_shows hm₁.2 hcell
    refine .skip hread (.skip hload (.lead (assignable_local hlookup)
      ((counted_follows hm₁.2 up hu).bind ?_)))
    rintro c σ w m₂ ⟨rfl, hm₂⟩
    obtain ⟨m₃, hstore, hm₃, hkept⟩ := storeLocal_shown hq hs hm₁.1 hm₂ (hm₂.loose _ rfl).1
    have hw := content?_of_local hq hs hm₃ hkept (lookup_rebind hlookup c)
    obtain ⟨m₄, hpush, hm₄⟩ := hm₃.push hw (hm₃.room hroom)
    exact .skip hstore (.lead (write_local hlookup c) (.done hpush hm₄))

theorem execute_compound (hm : q.Shown p P z ip (upper++[c]) σ m)
    (hf : p.function? q.function = some f) (hq : q.Sees v) (hx : v.Refers p x scope i)
    (hbyte : f.chunk.code[ip]? = some i) (op : Operator) :
    Follows line σ
      (do
        let d ← Walk.lift line ((← Walk.assignable line x).apply op c)
        Walk.write x d
        return d) m
      (execute p q.function f (.compound scope op)) fun d σ' _ m' =>
        q.Shown p P z (ip+1) (upper++[d]) σ' m' := by
  cases hx with
  | global hs hk =>
    rw [hq.function] at hk
    have hnone := hq.lookup_none hm.1 hs
    obtain ⟨m₁, hread, hm₁⟩ := hm.identifier hbyte (identifier?_of_constant? hf hk)
    refine .skip hread ((assignable_follows hm₁.2.toPresents hnone).bind ?_)
    rintro old σ u m ⟨⟨rfl, rfl, hu⟩, hold⟩
    obtain ⟨w, hpeek, hw⟩ := hm₁.peek
    refine .skip hpeek ((apply_follows hm₁.over op hu hw).bind ?_)
    rintro d σ w m₂ ⟨rfl, hm₂⟩
    obtain ⟨m₃, hstore, hm₃, hkept⟩ := storeGlobal_shows hm₂ (hm₂.loose _ rfl).1 hold
    obtain ⟨m₄, hreplace, hm₄⟩ := replaceTop_kept (w := w) (c := d) hm₃ fun m' hglobals _ hm' =>
      content?_of_global hm'.toPresents (hglobals ▸ hkept) (Function.update_self ..)
    exact .skip hstore (.lead (write_eq_ok hnone d) (.done hreplace (hm₁.next rfl hm₄)))
  | frame hs =>
    obtain ⟨e, hlookup, hcell, _⟩ := hq.slot hm.1 hs (upper++[c])
    obtain ⟨m₁, hread, hm₁⟩ := hm.readByte hbyte
    obtain ⟨u, hload, _, hu⟩ := loadLocal_shows hm₁.2 hcell
    obtain ⟨w, hpeek, hw⟩ := hm₁.peek
    refine .skip hread (.skip hload (.skip hpeek (.lead (assignable_local hlookup)
      ((apply_follows hm₁.2 op hu hw).bind ?_))))
    rintro d σ w m₂ ⟨rfl, hm₂⟩
    obtain ⟨m₃, hstore, hm₃, hkept⟩ := storeLocal_shown hq hs hm₁.1 hm₂ (hm₂.loose _ rfl).1
    -- the cell of a local is below the top
    have hlocal (m' : Machine) (hstack : m'.stack = m₃.stack.pop)
        (hm' : q.Shown p P z (ip+1) upper {σ with locals := Store.rebind x d σ.locals} m') :
        m'.heap.content? w = some d := by
      obtain ⟨_, _, hcell', _⟩ := hq.slot hm'.1 hs upper
      have hlt := (List.getElem?_eq_some_iff.mp hcell').1
      rw [← hm'.2.length_eq, hstack, Array.size_pop] at hlt
      refine content?_of_local hq hs hm' ?_ (lookup_rebind hlookup d)
      rw [hstack, Array.getElem?_pop, if_pos hlt]
      exact hkept
    obtain ⟨m₄, hreplace, hm₄⟩ := replaceTop_kept (w := w) (c := d) hm₃.over
      fun m' _ hstack hm' => hlocal m' hstack ⟨hm₃.1, hm'⟩
    exact .skip hstore (.lead (write_local hlookup d) (.done hreplace (hm₃.next rfl hm₄)))

/-! Declarations. -/

theorem execute_define (hm : q.Shown p P z ip (upper++[c]) σ m)
    (hf : p.function? q.function = some f) (hk : p.constant? q.function i = some (.text x))
    (hbyte : f.chunk.code[ip]? = some i) :
    Follows line σ (Walk.define line x c) m (execute p q.function f .define) fun _ σ' _ m' =>
      q.Shown p P z (ip+1) upper σ' m' := by
  obtain ⟨m₁, hread, hm₁⟩ := hm.identifier hbyte (identifier?_of_constant? hf hk)
  obtain ⟨w, hpeek, hw⟩ := hm₁.peek
  refine .skip hread (.skip hpeek ?_)
  rw [← bind_pure (Walk.define line x c)]
  refine (defineGlobal_follows hm₁.over x hw).bind ?_
  rintro _ σ' _ m₂ ⟨hlocals, hm₂⟩
  obtain ⟨h, hpop, hm₃⟩ := pop_shows hm₂
  rw [show q.under++σ.cells++upper = q.under++σ'.cells++upper by rw [Store.cells, Store.cells, hlocals]] at hm₃
  exact .done hpop ⟨by rw [hlocals]; exact hm₁.1, hm₃⟩

theorem content?_of_provides {r : Handle} {id : Nat} {name : String}
    (h : Provides P z q.function i r id name) (hm : m.Shows p P z σ st fs) :
    m.heap.content? (.object r) = some (.runnable r id name) := by
  obtain ⟨pool, hpool, hr⟩ := Option.bind_eq_some_iff.mp h.constant
  have hheld : .object r ∈ m.held := by
    refine List.mem_append_right _ (List.mem_flatMap.mpr ⟨pool, ?_, ?_⟩)
    · rw [hm.image]
      exact Array.mem_toList_iff.mpr (Array.mem_of_getElem? hpool)
    · exact Array.mem_toList_iff.mpr (Array.mem_of_getElem? hr)
  obtain ⟨l, hl⟩ := hm.counted.live_of_held (List.mem_append_right _ hheld)
  have hobject := h.typed _ (hm.counted.typed r l hl)
  simp [Heap.content?, Heap.object?, hl, hobject, Content.ofObject]

theorem execute_defineRunnable {r : Handle} {id : Nat} {name : String} {word : UInt16}
    (hm : q.Shown p P z ip upper σ m) (h : Provides P z q.function i r id name)
    (hbyte : f.chunk.code[ip]? = some i) (hhigh : f.chunk.code[ip+1]? = some (Word.high word))
    (hlow : f.chunk.code[ip+2]? = some (Word.low word)) :
    Follows line σ (Walk.define line name (.runnable r id name)) m
      (execute p q.function f .defineRunnable) fun _ σ' _ m' =>
        q.Shown p P z (ip+3) upper σ' m' := by
  obtain ⟨m₁, hread, hm₁⟩ := hm.readByte hbyte
  obtain ⟨m₂, hread', hm₂⟩ := hm₁.readWord hhigh hlow
  have hv := content?_of_provides h hm₂.2
  have hconstant : constant q.function i m₂ = .ok (.object r) m₂ := by
    simp only [constant, bind, EStateM.bind, get, getThe, MonadStateOf.get, EStateM.get, hm₂.2.image,
      h.constant]
    rfl
  refine .skip hread (.skip hread' (.skip hconstant (.skip (object_eq_ok hv) ?_)))
  refine (defineGlobal_follows hm₂.2 name hv).mono ?_
  rintro _ σ' _ m' ⟨hlocals, hm'⟩
  refine ⟨by rw [hlocals]; exact hm₂.1, ?_⟩
  rwa [Store.cells, hlocals]

end Exec
end RatScript
