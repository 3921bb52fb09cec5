import RatScript.Proofs.Meaning.Natives
import RatScript.Proofs.Syntax.Code

/-!
Instructions beside what they mean, inside a call: the locals of the call are cells of the stack, and
what is computed stands above them.
-/

namespace RatScript

open Machine

/-- The values of the locals as they lie on the stack. -/
def Store.cells (σ : Store) : List Content := (σ.locals.map Prod.snd).reverse

theorem Store.length_cells (σ : Store) : σ.cells.length = σ.locals.length := by simp [cells]

/-- A call in which code is run: what lies below its locals, and the names of these, the last one
first. -/
structure Spot where
  function : Nat
  base : Nat
  callers : List Frame
  under : List Content
  names : List String

namespace Spot

/-- The machine is at an offset of the call, with values above the locals. -/
def Shown (q : Spot) (p : Program) (P : Array (Array Value)) (z : Setting) (ip : Nat)
    (upper : List Content) (σ : Store) (m : Machine) : Prop :=
  σ.locals.map Prod.fst = q.names ∧
    m.Shows p P z σ (q.under++σ.cells++upper) (⟨q.function, ip, q.base⟩ :: q.callers)

/-- Code written in the view finds the locals of the call in their slots. -/
structure Sees (q : Spot) (v : View) : Prop where
  function : v.function = q.function
  script : q.function = 0 → q.names = []
  base : q.function ≠ 0 → q.under.length = q.base+1
  /-- Counters of loops have no names. -/
  locals : q.function ≠ 0 → ∃ counters, v.locals = List.replicate counters none++q.names.map some
  few : q.names.length ≤ 256

end Spot

namespace View

theorem slotIn_counters (x : String) (n : Nat) (locals : List (Option String)) :
    slotIn x (List.replicate n none++locals) = slotIn x locals := by
  induction n with
  | zero => rfl
  | succ n ih =>
    rw [List.replicate_succ, List.cons_append, slotIn, if_neg (by simp), ih]

/-- A name without a slot is not that of a local. -/
theorem lookup_of_slotIn_none {x : String} {locals : List (String × Content)}
    (h : slotIn x (locals.map fun l => some l.1) = none) : locals.lookup x = none := by
  induction locals with
  | nil => rfl
  | cons l rest ih =>
    obtain ⟨y, d⟩ := l
    rw [List.map_cons, slotIn] at h
    split at h
    · cases h
    · next hne =>
      have hne : y ≠ x := by simpa using hne
      have hbeq : (x == y) = false := by simpa using Ne.symm hne
      rw [List.lookup_cons, hbeq]
      exact ih h

/-- A slot is the place of a value, from the first local on; the value can be changed there. -/
theorem lookup_of_slotIn {x : String} {locals : List (String × Content)} {slot : Nat}
    (h : slotIn x (locals.map fun l => some l.1) = some slot) :
    slot < locals.length ∧ ∃ d, locals.lookup x = some d ∧
      (locals.map Prod.snd).reverse[slot]? = some d ∧
      ∀ c, ((Store.rebind x c locals).map Prod.snd).reverse =
        (locals.map Prod.snd).reverse.set slot c := by
  induction locals with
  | nil => cases h
  | cons l rest ih =>
    obtain ⟨y, d⟩ := l
    rw [List.map_cons, slotIn] at h
    split at h
    · next heq =>
      cases heq
      simp only [List.length_map, Option.some.injEq] at h
      subst h
      refine ⟨by simp, d, by simp, by simp, fun c => ?_⟩
      simp [Store.rebind]
    · next hne =>
      have hne : y ≠ x := by simpa using hne
      have hbeq : (x == y) = false := by simpa using Ne.symm hne
      obtain ⟨hlt, e, hlookup, hcell, hset⟩ := ih h
      have hlt' : slot < (rest.map Prod.snd).reverse.length := by simpa using hlt
      refine ⟨by simp; omega, e, by rw [List.lookup_cons, hbeq]; exact hlookup, ?_, fun c => ?_⟩
      · rw [List.map_cons, List.reverse_cons, List.getElem?_append_left hlt', hcell]
      · rw [Store.rebind, if_neg hne, List.map_cons, List.reverse_cons, hset, List.map_cons,
          List.reverse_cons, List.set_append_left _ _ hlt']

end View

theorem Store.names_rebind (x : String) (c : Content) (locals : List (String × Content)) :
    (rebind x c locals).map Prod.fst = locals.map Prod.fst := by
  induction locals with
  | nil => rfl
  | cons l rest ih =>
    obtain ⟨y, d⟩ := l
    unfold rebind
    split <;> simp [ih]

namespace Spot

variable {q : Spot} {v : View} {p : Program} {σ : Store} {x : String}

theorem Sees.lookup_none (hq : q.Sees v) (hσ : σ.locals.map Prod.fst = q.names)
    (hs : v.slot? x = none) : σ.locals.lookup x = none := by
  have hlocals : (q.names.map some : List (Option String)) = σ.locals.map fun l => some l.1 := by
    rw [← hσ, List.map_map]
    rfl
  by_cases hzero : q.function = 0
  · have hnil := hq.script hzero
    rw [← hσ, List.map_eq_nil_iff] at hnil
    rw [hnil]
    rfl
  · obtain ⟨n, hn⟩ := hq.locals hzero
    rw [View.slot?, if_pos (by rw [hq.function]; exact hzero), hn, View.slotIn_counters, hlocals,
      Option.map_eq_none_iff] at hs
    exact View.lookup_of_slotIn_none hs

/-- What a slot says of the stack: where the local is kept, and how it is changed there. -/
theorem Sees.slot (hq : q.Sees v) (hσ : σ.locals.map Prod.fst = q.names) {slot : UInt8}
    (hs : v.slot? x = some slot) (upper : List Content) :
    ∃ d, σ.locals.lookup x = some d ∧
      (q.under++σ.cells++upper)[q.base+slot.toNat+1]? = some d ∧
      ∀ c, (q.under++σ.cells++upper).set (q.base+slot.toNat+1) c =
        q.under++({σ with locals := Store.rebind x c σ.locals} : Store).cells++upper := by
  have hlocals : (q.names.map some : List (Option String)) = σ.locals.map fun l => some l.1 := by
    rw [← hσ, List.map_map]
    rfl
  unfold View.slot? at hs
  split at hs
  · next hfunction =>
    rw [hq.function] at hfunction
    obtain ⟨n, hn⟩ := hq.locals hfunction
    rw [hn, View.slotIn_counters, hlocals] at hs
    obtain ⟨k, hk, rfl⟩ := Option.map_eq_some_iff.mp hs
    obtain ⟨hlt, d, hlookup, hcell, hset⟩ := View.lookup_of_slotIn hk
    have hfew : σ.locals.length ≤ 256 := by
      rw [← List.length_map Prod.fst, hσ]
      exact hq.few
    have hslot : (UInt8.ofNat k).toNat = k := by
      simp only [UInt8.toNat_ofNat']
      omega
    have hindex : q.base+k+1 = q.under.length+k := by
      rw [hq.base hfunction]
      omega
    have hltcells : k < σ.cells.length := by rwa [σ.length_cells]
    rw [hslot, hindex]
    refine ⟨d, hlookup, ?_, fun c => ?_⟩
    · rw [List.append_assoc, List.getElem?_append_right (by omega), Nat.add_sub_cancel_left,
        List.getElem?_append_left hltcells]
      exact hcell
    · rw [List.append_assoc, List.set_append_right _ _ (by omega), Nat.add_sub_cancel_left,
        List.set_append_left _ _ hltcells, ← List.append_assoc, Store.cells, Store.cells, hset]
  · cases hs

/-! The pointer. -/

variable {P : Array (Array Value)} {z : Setting} {ip : Nat} {upper more : List Content} {m : Machine} {w : Value}
  {c d : Content}

theorem Shown.over (hm : q.Shown p P z ip (upper++more) σ m) :
    m.Shows p P z σ ((q.under++σ.cells++upper)++more) (⟨q.function, ip, q.base⟩ :: q.callers) := by
  rw [List.append_assoc]
  exact hm.2

theorem Shown.next {σ' : Store} {m' : Machine} {ip' : Nat} (hm : q.Shown p P z ip upper σ m)
    {upper' : List Content} (hlocals : σ'.locals = σ.locals)
    (hm' : m'.Shows p P z σ' ((q.under++σ.cells++upper')++more)
      (⟨q.function, ip', q.base⟩ :: q.callers)) : q.Shown p P z ip' (upper'++more) σ' m' := by
  refine ⟨by rw [hlocals]; exact hm.1, ?_⟩
  rw [List.append_assoc] at hm'
  rwa [Store.cells, hlocals]

theorem Shown.goto (hm : q.Shown p P z ip upper σ m) (ip' : Nat) :
    q.Shown p P z ip' upper σ {m with frames := ⟨q.function, ip', q.base⟩ :: q.callers} := by
  obtain ⟨hσ, hm⟩ := hm
  refine ⟨hσ, hm.move ?_ rfl rfl ⟨hm.globals, hm.input, hm.output, hm.files⟩ hm.stack hm.transit rfl
    hm.traced⟩
  refine hm.counted.move rfl rfl hm.counted.pinned rfl (fun _ => rfl) hm.counted.named
    hm.counted.room ?_
  have hbases := hm.counted.bases
  rw [hm.frames] at hbases
  intro g hg
  rcases List.mem_cons.mp hg with rfl | hg
  · exact hbases ⟨q.function, ip, q.base⟩ (List.mem_cons_self ..)
  · exact hbases g (List.mem_cons_of_mem _ hg)

theorem Shown.readByte (hm : q.Shown p P z ip upper σ m) {code : Array UInt8} {byte : UInt8}
    (hbyte : code[ip]? = some byte) :
    ∃ m', Exec.readByte code m = .ok byte m' ∧ q.Shown p P z (ip+1) upper σ m' :=
  ⟨_, Exec.readByte_eq hm.2.frames hbyte, hm.goto (ip+1)⟩

theorem Shown.readWord (hm : q.Shown p P z ip upper σ m) {code : Array UInt8} {word : UInt16}
    (hhigh : code[ip]? = some (Word.high word)) (hlow : code[ip+1]? = some (Word.low word)) :
    ∃ m', Exec.readWord code m = .ok word m' ∧ q.Shown p P z (ip+2) upper σ m' := by
  obtain ⟨m₁, hread, hm₁⟩ := hm.readByte hhigh
  obtain ⟨m₂, hread', hm₂⟩ := hm₁.readByte hlow
  refine ⟨m₂, ?_, hm₂⟩
  simp only [Exec.readWord, bind, EStateM.bind, hread, hread', pure, EStateM.pure,
    Word.ofBytes_high_low]

theorem Shown.identifier (hm : q.Shown p P z ip upper σ m) {f : Function} {index : UInt8}
    (hbyte : f.chunk.code[ip]? = some index) (hname : f.identifier? index = some x) :
    ∃ m', Exec.identifier f m = .ok x m' ∧ q.Shown p P z (ip+1) upper σ m' := by
  obtain ⟨m', hread, hm'⟩ := hm.readByte hbyte
  refine ⟨m', ?_, hm'⟩
  simp only [Exec.identifier, bind, EStateM.bind, hread, hname]
  rfl

theorem Shown.setIp (hm : q.Shown p P z ip upper σ m) (ip' : Nat) :
    ∃ m', Exec.setIp ip' m = .ok () m' ∧ q.Shown p P z ip' upper σ m' := by
  refine ⟨_, ?_, hm.goto ip'⟩
  simp only [Exec.setIp, modify, modifyGet, MonadStateOf.modifyGet, EStateM.modifyGet, hm.2.frames]

theorem Shown.frame (hm : q.Shown p P z ip upper σ m) :
    Exec.frame m = .ok ⟨q.function, ip, q.base⟩ m := by
  simp only [Exec.frame, bind, EStateM.bind, get, getThe, MonadStateOf.get, EStateM.get, hm.2.frames]
  rfl

theorem Shown.constant (hm : q.Shown p P z ip upper σ m) {index : UInt8} {k : Constant}
    (hk : p.constant? q.function index = some k) :
    ∃ w, Exec.constant q.function index m = .ok w m ∧ m.heap.Matches w k := by
  obtain ⟨f, hf, hk⟩ := Option.bind_eq_some_iff.mp hk
  obtain ⟨pool, hpool, hmatches⟩ := exists_getElem? hm.2.pools (i := q.function) (by simpa using hf)
  obtain ⟨w, hw, hkw⟩ := exists_getElem? hmatches (i := index.toNat)
    (by simpa [Chunk.constant?] using hk)
  rw [Array.getElem?_toList] at hpool hw
  refine ⟨w, ?_, hkw⟩
  simp only [Exec.constant, bind, EStateM.bind, get, getThe, MonadStateOf.get, EStateM.get,
    hm.2.image, hpool, Option.bind, hw]
  rfl

theorem Shown.push (hm : q.Shown p P z ip upper σ m) (hw : m.heap.content? w = some c)
    (hroom : (q.under++σ.cells++upper).length < z.config.stackCapacity) :
    ∃ m', Exec.push w m = .ok () m' ∧ q.Shown p P z ip (upper++[c]) σ m' := by
  obtain ⟨m', hpush, hm'⟩ := Exec.push_shows hm.2 hw hroom
  exact ⟨m', hpush, hm.next rfl hm'⟩

theorem Shown.pop (hm : q.Shown p P z ip (upper++[c]) σ m) :
    ∃ m', Exec.pop m = .ok () m' ∧ q.Shown p P z ip upper σ m' := by
  obtain ⟨h, hpop, hm'⟩ := Exec.pop_shows hm.over
  exact ⟨_, hpop, hm.1, hm'⟩

theorem Shown.peek (hm : q.Shown p P z ip (upper++[c]) σ m) :
    ∃ w, Exec.peek 0 m = .ok w m ∧ m.heap.content? w = some c :=
  Exec.top_shows hm.over

/-- There is room for so many cells more. -/
def Room (q : Spot) (z : Setting) (upper : List Content) (n : Nat) : Prop :=
  q.under.length+q.names.length+upper.length+n ≤ z.config.stackCapacity

theorem Shown.room (hm : q.Shown p P z ip upper σ m) {n : Nat} (hroom : q.Room z upper (n+1)) :
    (q.under++σ.cells++upper).length < z.config.stackCapacity := by
  have hnames : σ.locals.length = q.names.length := by rw [← hm.1, List.length_map]
  have h : q.under.length+q.names.length+upper.length+(n+1) ≤ z.config.stackCapacity := hroom
  simp only [List.length_append, σ.length_cells, hnames]
  omega

end Spot

/-- What a constant is worth; a runnable has no content of its own. -/
def Constant.content? : Constant → Option Content
  | number n => some (.number n)
  | text content => some (.text content)
  | runnable _ => none

namespace Exec

open Spot

variable {line : Nat} {q : Spot} {p : Program} {P : Array (Array Value)} {z : Setting}
  {f : Function} {ip : Nat} {upper : List Content} {σ : Store} {m : Machine} {v : View} {x : String} {i : UInt8} {c d : Content}

theorem identifier?_of_constant? (hf : p.function? q.function = some f)
    (hk : p.constant? q.function i = some (.text x)) : f.identifier? i = some x := by
  obtain ⟨g, hg, hk⟩ := Option.bind_eq_some_iff.mp hk
  rw [show p.functions[q.function]? = some f from hf] at hg
  cases hg
  simp only [Function.identifier?, hk]

/-! Values are put on the stack. -/

theorem execute_constant (hm : q.Shown p P z ip upper σ m) (hbyte : f.chunk.code[ip]? = some i)
    {k : Constant} (hk : p.constant? q.function i = some k) (hc : k.content? = some c)
    (hroom : q.Room z upper 1) :
    Follows line σ (pure c) m (execute p q.function f .constant) fun c σ' _ m' =>
      q.Shown p P z (ip+1) (upper++[c]) σ' m' := by
  obtain ⟨m₁, hread, hm₁⟩ := hm.readByte hbyte
  obtain ⟨w, hconstant, hmatches⟩ := hm₁.constant hk
  have hw : m₁.heap.content? w = some c := by
    have h := Heap.content?_of_matches hmatches
    cases k <;> cases hc <;> exact h
  obtain ⟨m₂, hpush, hm₂⟩ := hm₁.push hw (hm₁.room hroom)
  exact .skip hread (.skip hconstant (.done hpush hm₂))

theorem execute_literal (hm : q.Shown p P z ip upper σ m) (value : Option Bool)
    (hroom : q.Room z upper 1) :
    Follows line σ (pure (Expr.literalContent value)) m (execute p q.function f (.literal value))
      fun c σ' _ m' => q.Shown p P z ip (upper++[c]) σ' m' := by
  have hpushes {v : Value} (hv : m.heap.content? v = some (Expr.literalContent value)) :
      ∃ m', push v m = .ok () m' ∧ q.Shown p P z ip (upper++[Expr.literalContent value]) σ m' :=
    hm.push hv (hm.room hroom)
  cases value with
  | none =>
    obtain ⟨m', hpush, hm'⟩ := hpushes (v := .none) rfl
    exact .done hpush hm'
  | some b =>
    obtain ⟨m', hpush, hm'⟩ := hpushes (v := .bool b) rfl
    exact .done hpush hm'

theorem execute_get_global (hm : q.Shown p P z ip upper σ m) (hf : p.function? q.function = some f)
    (hbyte : f.chunk.code[ip]? = some i) (hk : p.constant? q.function i = some (.text x))
    (hroom : q.Room z upper 1) :
    Follows line σ (Walk.global line x) m (execute p q.function f (.get .global))
      fun c σ' _ m' => q.Shown p P z (ip+1) (upper++[c]) σ' m' := by
  obtain ⟨m₁, hread, hm₁⟩ := hm.identifier hbyte (identifier?_of_constant? hf hk)
  refine .skip hread ?_
  rw [← bind_pure (Walk.global line x)]
  refine (global_follows hm₁.2.toPresents x).bind ?_
  rintro c σ w m ⟨⟨rfl, rfl, hw⟩, _⟩
  obtain ⟨m₂, hpush, hm₂⟩ := hm₁.push hw (hm₁.room hroom)
  exact .done hpush hm₂

theorem execute_get (hm : q.Shown p P z ip upper σ m) (hf : p.function? q.function = some f)
    (hq : q.Sees v) {scope : Scope} (hx : v.Refers p x scope i) (hbyte : f.chunk.code[ip]? = some i)
    (hroom : q.Room z upper 1) :
    Follows line σ (Walk.read line x) m (execute p q.function f (.get scope)) fun c σ' _ m' =>
      q.Shown p P z (ip+1) (upper++[c]) σ' m' := by
  cases hx with
  | global hs hk =>
    rw [hq.function] at hk
    refine .congr ?_ (execute_get_global hm hf hbyte hk hroom)
    simp only [Walk.read, bind, EStateM.bind, get, getThe, MonadStateOf.get, EStateM.get,
      hq.lookup_none hm.1 hs]
  | frame hs =>
    obtain ⟨d, hlookup, hcell, _⟩ := hq.slot hm.1 hs upper
    obtain ⟨m₁, hread, hm₁⟩ := hm.readByte hbyte
    obtain ⟨w, hload, _, hw⟩ := loadLocal_shows hm₁.2 hcell
    obtain ⟨m₂, hpush, hm₂⟩ := hm₁.push hw (hm₁.room hroom)
    refine .lead rfl ?_
    rw [hlookup]
    exact .skip hread (.skip hload (.done hpush hm₂))

/-! Operators. -/

/-- A value that was made takes the place of the two on top. -/
theorem pop_pop_push {st : List Content} {fs : List Frame} {a b : Content} {w : Value}
    (hm : m.Amid p P z [] (some (w, c)) σ (st++[a, b]) fs) :
    ∃ m', (do pop; pop; push w : Exec Unit) m = .ok () m' ∧ m'.Shows p P z σ (st++[c]) fs := by
  have hroom : st.length < z.config.stackCapacity := by
    have h := hm.room
    simp only [List.length_append, List.length_cons, List.length_nil] at h
    omega
  have hm : m.Amid p P z [] (some (w, c)) σ ((st++[a])++[b]) fs := by simpa using hm
  obtain ⟨h, hpop, hm₁⟩ := pop_shows hm
  obtain ⟨k, hpop', hm₂⟩ := pop_shows hm₁
  obtain ⟨m₃, hpush, hm₃⟩ := push_shows hm₂ (hm₂.loose _ rfl).1 hroom
  refine ⟨m₃, ?_, hm₃⟩
  simp only [bind, EStateM.bind, hpop, hpop', hpush]

theorem execute_operator {a b : Content} (hm : q.Shown p P z ip (upper++[a, b]) σ m) (op : Operator) :
    Follows line σ (Walk.lift line (a.apply op b)) m (execute p q.function f (.operator op))
      fun c σ' _ m' => q.Shown p P z ip (upper++[c]) σ' m' := by
  obtain ⟨u, w, hpeek, hpeek', hu, hw⟩ := both_shows hm.over
  refine .skip hpeek (.skip hpeek' ?_)
  rw [← bind_pure (Walk.lift line (a.apply op b))]
  refine (apply_follows hm.over op hu hw).bind ?_
  rintro c _ v m' ⟨rfl, hm'⟩
  obtain ⟨m'', hpush, hm''⟩ := pop_pop_push hm'
  exact .done hpush (hm.next rfl hm'')

theorem execute_test {a b : Content} (hm : q.Shown p P z ip (upper++[a, b]) σ m) (t : Test) :
    Follows line σ (do return Content.bool (← Walk.lift line (Content.test t a b))) m
      (execute p q.function f (.test t)) fun c σ' _ m' => q.Shown p P z ip (upper++[c]) σ' m' := by
  obtain ⟨u, w, hpeek, hpeek', hu, hw⟩ := both_shows hm.over
  refine .skip hpeek (.skip hpeek' ?_)
  rw [← bind_pure (do return Content.bool (← Walk.lift line (Content.test t a b)) : Walk Content)]
  refine (compare_follows hm.over t hu hw).bind ?_
  rintro c _ v m' ⟨rfl, hm'⟩
  obtain ⟨m'', hpush, hm''⟩ := pop_pop_push hm'
  exact .done hpush (hm.next rfl hm'')

theorem execute_unary (hm : q.Shown p P z ip (upper++[c]) σ m) (u : Unary) :
    Follows line σ (Walk.lift line (Expr.applyUnary u c)) m (execute p q.function f u.opcode)
      fun c σ' _ m' => q.Shown p P z ip (upper++[c]) σ' m' := by
  obtain ⟨w, hpeek, hw⟩ := hm.peek
  have hmade {d : Content} {u : Value} (hu : m.heap.content? u = some d)
      (hno : ∀ r, u ≠ .object r) : Follows line σ (pure d) m (replaceTop u)
        fun c σ' _ m' => q.Shown p P z ip (upper++[c]) σ' m' := by
    obtain ⟨m', hreplace, hm'⟩ := replaceTop_shows (loosen hm.over hu hno)
    exact .done hreplace (hm.next rfl hm')
  cases u with
  | negate =>
    refine .skip hpeek ?_
    cases c with
    | number n =>
      obtain rfl := Heap.eq_number_of_content? hw
      exact hmade rfl (by simp)
    | _ =>
      cases w with
      | number n => cases hw
      | _ => exact .skip (describe_eq_ok hw) (.raise rfl hm.2.toPresents)
  | not => exact .skip hpeek (.skip (isTruthy_eq_ok hw) (hmade rfl (by simp)))
  | complement =>
    refine .skip hpeek ?_
    simp only [Expr.applyUnary, Content.complement, Heap.integral?_of_content? hw]
    cases c.integral? with
    | some n => exact hmade rfl (by simp)
    | none => exact .skip (describe_eq_ok hw) (.raise rfl hm.2.toPresents)

end Exec
end RatScript
