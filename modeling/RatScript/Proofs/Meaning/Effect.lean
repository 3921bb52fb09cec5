import RatScript.Proofs.Machine.Turn
import RatScript.Proofs.Meaning.Shows

/-!
Parts of instructions beside their namesakes for contents: what a part does to a machine is what the
walk does to the store that the machine shows, and where the walk fails the part fails with the same
fault.
-/

namespace RatScript

open Stateful

/-- A global has another value. -/
def Store.assign (σ : Store) (x : String) (c : Content) : Store :=
  {σ with globals := Function.update σ.globals x (some c)}

namespace Exec

open Machine

variable {α β γ δ : Type} {line : Nat} {σ σ' : Store} {m m' : Machine}

/-- The walk from the store and the step from the machine end alike: with results that have `Q`, or
with one fault on the line and the machine showing the store. -/
def Follows (line : Nat) (σ : Store) (w : Walk β) (m : Machine) (x : Exec α)
    (Q : β → Store → α → Machine → Prop) : Prop :=
  match w σ with
  | .ok b σ' => ∃ a m', x m = .ok a m' ∧ Q b σ' a m'
  | .error (.failed f) σ' => ∃ m', x m = .error f.fault m' ∧ f.line = line ∧ m'.Presents σ'
  | .error .tired _ => False

namespace Follows

variable {w : Walk β} {x : Exec α} {Q : β → Store → α → Machine → Prop}
  {R : δ → Store → γ → Machine → Prop}

theorem bind {g : β → Walk δ} {f : α → Exec γ} (h : Follows line σ w m x Q)
    (hnext : ∀ b σ' a m', Q b σ' a m' → Follows line σ' (g b) m' (f a) R) :
    Follows line σ (w >>= g) m (x >>= f) R := by
  unfold Follows at h ⊢
  simp only [Bind.bind, EStateM.bind]
  cases hw : w σ with
  | ok b σ' =>
    rw [hw] at h
    obtain ⟨a, m', hx, hq⟩ := h
    rw [hx]
    exact hnext b σ' a m' hq
  | error e σ' =>
    rw [hw] at h
    cases e with
    | failed f =>
      obtain ⟨m', hx, hline⟩ := h
      exact ⟨m', by rw [hx], hline⟩
    | tired => exact h

/-- A part of the step that the walk has nothing for. -/
theorem skip {w : Walk δ} {f : α → Exec γ} {a : α} (hx : x m = .ok a m')
    (h : Follows line σ w m' (f a) R) : Follows line σ w m (x >>= f) R := by
  unfold Follows at h ⊢
  simpa only [Bind.bind, EStateM.bind, hx] using h

theorem done {b : β} {a : α} (hx : x m = .ok a m') (hq : Q b σ a m') :
    Follows line σ (pure b) m x Q :=
  ⟨a, m', hx, hq⟩

theorem raise {f : Fault} (hx : x m = .error f m') (hm : m'.Presents σ) :
    Follows line σ (Walk.raise line f : Walk β) m x Q :=
  ⟨m', hx, rfl, hm⟩

theorem mono {Q' : β → Store → α → Machine → Prop} (h : Follows line σ w m x Q)
    (hq : ∀ b σ' a m', Q b σ' a m' → Q' b σ' a m') : Follows line σ w m x Q' := by
  unfold Follows at h ⊢
  cases hw : w σ with
  | ok b σ' =>
    rw [hw] at h
    obtain ⟨a, m', hx, h⟩ := h
    exact ⟨a, m', hx, hq _ _ _ _ h⟩
  | error e σ' =>
    rw [hw] at h
    cases e <;> exact h

theorem congr {w w' : Walk β} (hw : w' σ = w σ) (h : Follows line σ w m x Q) :
    Follows line σ w' m x Q := by
  unfold Follows at h ⊢
  rwa [hw]

/-- A part of the walk that the step has nothing for. -/
theorem lead {w : Walk β} {g : β → Walk δ} {x : Exec γ} {b : β} (hw : w σ = .ok b σ')
    (h : Follows line σ' (g b) m x R) : Follows line σ (w >>= g) m x R := by
  unfold Follows at h ⊢
  simpa only [Bind.bind, EStateM.bind, hw] using h

end Follows

/-- Results of parts that only read: nothing changes and the value has the content. -/
def Found (σ : Store) (m : Machine) (c : Content) (σ' : Store) (v : Value) (m' : Machine) : Prop :=
  σ' = σ ∧ m' = m ∧ m.heap.content? v = some c

variable {p : Program} {P : Array (Array Value)} {z : Setting} {T : List (Value × Content)}
  {l : Option (Value × Content)} {st : List Content} {fs : List Frame} {v w : Value} {c d : Content}

/-! What is known of a value. -/

theorem ask_eq_ok {x : Heap → Except HeapFault α} {a : α} (hx : x m.heap = .ok a) :
    ask x m = .ok a m := by
  simp only [ask, bind, EStateM.bind, get, getThe, MonadStateOf.get, EStateM.get, hx]
  rfl

section
variable (hv : m.heap.content? v = some c)
include hv

theorem isTruthy_eq_ok : isTruthy v m = .ok c.isTruthy m :=
  ask_eq_ok (Heap.isTruthy_of_content? hv)

theorem display_eq_ok : display v m = .ok c.render m := ask_eq_ok (Heap.display_of_content? hv)

theorem kind_eq_ok : kind v m = .ok c.kind m := ask_eq_ok (Heap.kind_of_content? hv)

theorem object_eq_ok : object v m = .ok c.object? m := ask_eq_ok (Heap.object_of_content? hv)

theorem describe_eq_ok : describe v m = .ok c.describe m := by
  simp only [describe, bind, EStateM.bind, get, getThe, MonadStateOf.get, EStateM.get, pure,
    EStateM.pure, Heap.describe_of_content? hv]

end

/-! Variables. -/

/-- A global is found by its name. -/
theorem global_follows (hm : m.Presents σ) (x : String) :
    Follows line σ (Walk.global line x) m (global x) fun c σ' v m' =>
      Found σ m c σ' v m' ∧ σ.globals x = some c := by
  have h := hm.get? x
  refine .lead rfl (.skip rfl ?_)
  cases hx : σ.globals x with
  | some c =>
    rw [hx] at h
    obtain ⟨v, hv, hc⟩ := h
    rw [hv]
    exact .done rfl ⟨⟨rfl, rfl, hc⟩, rfl⟩
  | none =>
    rw [hx] at h
    rw [h]
    exact .raise rfl hm

theorem assignable_follows (hm : m.Presents σ) {x : String} (hx : σ.locals.lookup x = none) :
    Follows line σ (Walk.assignable line x) m (assignable x) fun c σ' v m' =>
      Found σ m c σ' v m' ∧ σ.globals x = some c := by
  refine .lead rfl ?_
  rw [hx]
  refine (global_follows hm x).bind ?_
  rintro c _ v _ ⟨⟨rfl, rfl, hv⟩, hc⟩
  refine .skip rfl ?_
  rw [Heap.isRunnable_or_isNative hv]
  split
  · exact .raise rfl hm
  · exact .done rfl ⟨⟨rfl, rfl, hv⟩, hc⟩

/-! Values that are made. -/

/-- A value that is no object needs no hold. -/
theorem loosen (hm : m.Amid p P z T none σ st fs) (hv : m.heap.content? v = some c)
    (hno : ∀ r, v ≠ .object r) : m.Amid p P z T (some (v, c)) σ st fs where
  toPresents := hm.toPresents
  counted := hm.counted
  stack := hm.stack
  transit := hm.transit
  loose e he := by
    cases he
    exact ⟨hv, fun r hr => absurd hr (hno r)⟩
  image := hm.image
  pools := hm.pools
  frames := hm.frames
  traced := hm.traced

theorem newText_shows (hm : m.Amid p P z T l σ st fs) (content : String) :
    ∃ v h, newText content m = .ok v {m with heap := h} ∧
      ({m with heap := h} : Machine).Amid p P z T (some (v, .text content)) σ st fs := by
  obtain ⟨r, h, hok, hsound, hdead, ht⟩ := Heap.alloc_ok hm.counted.sound (.text content)
  have hcounted := alloc_yields (F := fun _ => True) (fun _ _ _ => trivial) (.text content)
    (fun r => z.texts r content) (E := fun _ _ => False) m ⟨hm.counted, trivial⟩
  rw [onHeap_ok hok] at hcounted
  have hlive : h.live? r = some ⟨0, .text content⟩ := by rw [ht.live r, if_pos rfl]
  refine ⟨.object r, h, ?_, hm.turn (hcounted.1.mono fun _ _ => trivial)
    (Heap.agrees_of_turns ht fun k _ hk => by simp [hdead] at hk) hm.transit ?_⟩
  · simp only [newText, bind, EStateM.bind, onHeap_ok hok, pure, EStateM.pure]
  · intro e he
    cases he
    refine ⟨by simp [Heap.content?, Heap.object?, hlive, Content.ofObject], fun s hs => ?_⟩
    cases hs
    exact Heap.refs_of_live hlive

theorem pushText_shows (hm : m.Amid p P z T l σ st fs) (content : String)
    (hroom : st.length < z.config.stackCapacity) :
    ∃ m', pushText content m = .ok () m' ∧ m'.Amid p P z T none σ (st++[Content.text content]) fs := by
  obtain ⟨v, h, hnew, hm'⟩ := newText_shows hm content
  obtain ⟨m', hpush, hm''⟩ := push_shows hm' (hm'.loose _ rfl).1 hroom
  refine ⟨m', ?_, hm''⟩
  have hlt : m.stack.size < m.config.stackCapacity := by
    rwa [hm.length_eq, hm.counted.config]
  simp only [pushText, bind, EStateM.bind, get, getThe, MonadStateOf.get, EStateM.get, hlt, if_true,
    hnew, hpush]

/-- A value that was just made takes the place of the one on top. -/
theorem replaceTop_shows (hm : m.Amid p P z T (some (v, d)) σ (st++[c]) fs) :
    ∃ m', replaceTop v m = .ok () m' ∧ m'.Amid p P z T none σ (st++[d]) fs := by
  obtain ⟨h, hpop, hm'⟩ := pop_shows hm
  have hroom : st.length < z.config.stackCapacity := by
    have h := hm.room
    simp only [List.length_append, List.length_singleton] at h
    omega
  obtain ⟨m', hpush, hm''⟩ := push_shows hm' (hm'.loose _ rfl).1 hroom
  exact ⟨m', by simp only [replaceTop, bind, EStateM.bind, hpop, hpush], hm''⟩

/-! Operators. -/

theorem text?_eq_ok (hv : m.heap.content? v = some c) :
    text? v m = .ok (match c with | .text content => some content | _ => none) m := by
  simp only [text?, bind, EStateM.bind, object_eq_ok hv]
  cases c <;> rfl

/-- Results that were just made. -/
def Made (p : Program) (P : Array (Array Value)) (z : Setting) (σ : Store) (st : List Content)
    (fs : List Frame) (c : Content) (σ' : Store) (v : Value) (m' : Machine) : Prop :=
  σ' = σ ∧ m'.Amid p P z [] (some (v, c)) σ st fs

theorem made (hm : m.Shows p P z σ st fs) (hv : m.heap.content? v = some c)
    (hno : ∀ r, v ≠ .object r) : Made p P z σ st fs c σ v m :=
  ⟨rfl, loosen hm hv hno⟩

theorem bitwise_follows (hm : m.Presents σ) (op : Operator) (x y : Int32) :
    Follows line σ (Walk.lift line (Content.bitwise op x y)) m (bitwise op x y)
      fun n σ' k m' => σ' = σ ∧ m' = m ∧ k = n := by
  cases op with
  | shiftLeft | shiftRight =>
    simp only [Content.bitwise, bitwise]
    split
    · exact .done rfl ⟨rfl, rfl, rfl⟩
    · exact .raise rfl hm
  | _ => exact .done rfl ⟨rfl, rfl, rfl⟩

theorem lift_map {f : α → β} (x : Except Fault α) :
    Walk.lift line (x.map f) = (Walk.lift line x >>= fun a => pure (f a)) := by
  cases x <;> rfl

/-- The arithmetic operators join texts if they are not given two numbers. -/
theorem apply_eq {op : Operator} {f : Number → Number → Number} (hf : op.arithmetic? = some f)
    (hvalues : ∀ x y, v = .number x → w ≠ .number y) :
    Exec.apply op v w = (do
      if op == .add then
        let left ← text? v
        let right ← text? w
        match left, right with
        | some s, some t => newText (s++t)
        | _, _ => throw (.operands op.spelling (← describe v) (← describe w))
      else throw (.operands op.spelling (← describe v) (← describe w))) := by
  unfold Exec.apply
  rw [hf]
  dsimp only
  split
  · next x y => exact (hvalues x y rfl rfl).elim
  · rfl

theorem values_of_contents (hnumbers : ∀ x y, c = .number x → d ≠ .number y)
    (hv : m.heap.content? v = some c) (hw : m.heap.content? w = some d) (x y : Number)
    (hx : v = .number x) : w ≠ .number y := by
  rintro rfl
  subst hx
  cases hv
  cases hw
  exact hnumbers x y rfl rfl

theorem describe_follows {Q : β → Store → α → Machine → Prop} (hm : m.Presents σ)
    (hv : m.heap.content? v = some c) (hw : m.heap.content? w = some d)
    (f : String → String → Fault) :
    Follows line σ (Walk.raise line (f c.describe d.describe)) m
      (do throw (f (← describe v) (← describe w))) Q :=
  .skip (describe_eq_ok hv) (.skip (describe_eq_ok hw) (.raise rfl hm))

theorem numbers_cases (c d : Content) :
    (∃ x y, c = .number x ∧ d = .number y) ∨ ∀ x y, c = .number x → d ≠ .number y := by
  by_cases h : ∃ x y, c = .number x ∧ d = .number y
  · exact .inl h
  · exact .inr fun x y hx hy => h ⟨x, y, hx, hy⟩

theorem apply_follows (hm : m.Shows p P z σ st fs) (op : Operator) (hv : m.heap.content? v = some c)
    (hw : m.heap.content? w = some d) :
    Follows line σ (Walk.lift line (c.apply op d)) m (Exec.apply op v w) (Made p P z σ st fs) := by
  have hfail (f : String → String → Fault) : Follows line σ _ m _ (Made p P z σ st fs) :=
    describe_follows hm.toPresents hv hw f
  cases hf : op.arithmetic? with
  | none =>
    unfold Content.apply Exec.apply
    rw [hf, Heap.integral?_of_content? hv, Heap.integral?_of_content? hw]
    cases c.integral? with
    | none => exact hfail _
    | some x =>
      cases d.integral? with
      | none => exact hfail _
      | some y =>
        rw [lift_map]
        refine (bitwise_follows hm.toPresents op x y).bind ?_
        rintro n _ k _ ⟨rfl, rfl, rfl⟩
        exact .done rfl (made hm rfl (by simp))
  | some f =>
    rcases numbers_cases c d with ⟨x, y, rfl, rfl⟩ | hnumbers
    · obtain rfl := Heap.eq_number_of_content? hv
      obtain rfl := Heap.eq_number_of_content? hw
      unfold Content.apply Exec.apply
      rw [hf]
      exact .done rfl (made hm rfl (by simp))
    rw [apply_eq hf (values_of_contents hnumbers hv hw)]
    unfold Content.apply
    rw [hf]
    -- both values are looked at before it is known whether they are texts
    cases hadd : op == .add with
    | false =>
      cases c with
      | number x =>
        cases d with
        | number y => exact (hnumbers x y rfl rfl).elim
        | _ => exact hfail _
      | text s => cases d <;> exact hfail _
      | _ => exact hfail _
    | true =>
      simp only [if_true]
      refine .skip (text?_eq_ok hv) (.skip (text?_eq_ok hw) ?_)
      cases c with
      | number x =>
        cases d with
        | number y => exact (hnumbers x y rfl rfl).elim
        | _ => exact hfail _
      | text s =>
        cases d with
        | text t =>
          obtain ⟨u, h, hnew, hm'⟩ := newText_shows hm (s++t)
          exact .done hnew ⟨rfl, hm'⟩
        | _ => exact hfail _
      | _ => exact hfail _

theorem compare_follows (hm : m.Shows p P z σ st fs) (t : Test) (hv : m.heap.content? v = some c)
    (hw : m.heap.content? w = some d) :
    Follows line σ (do return Content.bool (← Walk.lift line (Content.test t c d))) m
      (Exec.compare t v w) (Made p P z σ st fs) := by
  have hfail (hnumbers : ∀ x y, c = .number x → d ≠ .number y) (s : String)
      (hs : t = .greater ∧ s = ">" ∨ t = .less ∧ s = "<") :
      Follows line σ (do return Content.bool (← Walk.lift line (Content.test t c d))) m
        (Exec.compare t v w) (Made p P z σ st fs) := by
    have htest : Content.test t c d = .error (.operands s c.describe d.describe) := by
      rcases hs with ⟨rfl, rfl⟩ | ⟨rfl, rfl⟩ <;> cases c <;> cases d <;>
        first | rfl | exact (hnumbers _ _ rfl rfl).elim
    have hcompare : Exec.compare t v w =
        (do throw (.operands s (← describe v) (← describe w)) : Exec Value) := by
      have hvalues := values_of_contents hnumbers hv hw
      unfold Exec.compare
      rcases hs with ⟨rfl, rfl⟩ | ⟨rfl, rfl⟩ <;> split <;> simp_all
    rw [htest, hcompare]
    exact describe_follows hm.toPresents hv hw (.operands s)
  cases t with
  | equals =>
    exact .skip (ask_eq_ok (Heap.equal_of_content? hv hw)) (.done rfl (made hm rfl (by simp)))
  | greater | less =>
    rcases numbers_cases c d with ⟨x, y, rfl, rfl⟩ | hnumbers
    · obtain rfl := Heap.eq_number_of_content? hv
      obtain rfl := Heap.eq_number_of_content? hw
      exact .done rfl (made hm rfl (by simp))
    · exact hfail hnumbers _ (by first | exact .inl ⟨rfl, rfl⟩ | exact .inr ⟨rfl, rfl⟩)

theorem counted_follows (hm : m.Shows p P z σ st fs) (up : Bool) (hv : m.heap.content? v = some c) :
    Follows line σ (Walk.lift line (c.counted up)) m (counted up v) (Made p P z σ st fs) := by
  have hfail (hvalue : ∀ n, v ≠ .number n) (hcounted : c.counted up = .error (.notCountable c.describe)) :
      Follows line σ (Walk.lift line (c.counted up)) m (counted up v) (Made p P z σ st fs) := by
    have hexec : counted up v = (do throw (.notCountable (← describe v)) : Exec Value) := by
      unfold counted
      split <;> simp_all
    rw [hcounted, hexec]
    exact .skip (describe_eq_ok hv) (.raise rfl hm.toPresents)
  cases c with
  | number n =>
    obtain rfl := Heap.eq_number_of_content? hv
    exact .done rfl (made hm rfl (by simp))
  | _ =>
    refine hfail ?_ rfl
    rintro n rfl
    cases hv

/-! Streams. -/

theorem amid_world (hm : m.Amid p P z T l σ st fs) {world : World}
    (hpresents : ({m with world := world} : Machine).Presents σ')
    (hdiagnostics : world.diagnostics = m.world.diagnostics) :
    ({m with world := world} : Machine).Amid p P z T l σ' st fs :=
  hm.move (counted_world hm.counted world) rfl rfl hpresents hm.stack hm.transit hm.frames
    fun h => hdiagnostics ▸ hm.traced h

theorem writeLine_follows (hm : m.Amid p P z T l σ st fs) (text : String) :
    Follows line σ (Walk.printLine line text) m (writeLine text) fun _ σ' _ m' =>
      σ'.locals = σ.locals ∧ m'.heap = m.heap ∧ m'.Amid p P z T l σ' st fs := by
  have houtput := hm.output
  have hm' : ({m with world := {m.world with output := (m.world.output.write (text++"\n")).1}} :
      Machine).Amid p P z T l {σ with output := (σ.output.write (text++"\n")).1} st fs :=
    amid_world hm ⟨hm.globals, hm.input, by rw [houtput], hm.files⟩ rfl
  unfold Follows Walk.printLine writeLine
  simp only [bind, EStateM.bind, modifyGet, MonadStateOf.modifyGet, EStateM.modifyGet]
  rw [houtput] at hm' ⊢
  cases (σ.output.write (text++"\n")).2 with
  | true => exact ⟨_, _, rfl, rfl, rfl, hm'⟩
  | false => exact ⟨_, rfl, rfl, hm'.toPresents⟩

theorem readLine_follows (hm : m.Amid p P z T l σ st fs) :
    Follows line σ (Walk.readLine line) m readLine fun s σ' t m' =>
      t = s ∧ σ'.locals = σ.locals ∧ m'.Amid p P z T l σ' st fs := by
  have hinput := hm.input
  have hm' : ({m with world := {m.world with input := (Input.splitLine m.world.input).2}} :
      Machine).Amid p P z T l {σ with input := (Input.splitLine σ.input).2} st fs :=
    amid_world hm ⟨hm.globals, by rw [hinput], hm.output, hm.files⟩ rfl
  refine Follows.bind (Q := fun s σ' t m' => t = s ∧ σ'.locals = σ.locals ∧ m'.Amid p P z T l σ' st fs)
    ?_ ?_
  · refine ⟨_, _, rfl, by rw [hinput], rfl, hm'⟩
  · rintro s σ' t m' ⟨hsame, hlocals, hm'⟩
    subst t
    cases textOfBytes? s with
    | some text => exact .done rfl ⟨rfl, hlocals, hm'⟩
    | none => exact .raise rfl hm'.toPresents

theorem setFiles_follows (hm : m.Amid p P z T l σ st fs) (files : Files) :
    Follows line σ (Walk.setFiles files) m (setFiles files) fun _ σ' _ m' =>
      σ'.locals = σ.locals ∧ m'.Amid p P z T l σ' st fs :=
  ⟨_, _, rfl, rfl, amid_world hm ⟨hm.globals, hm.input, hm.output, rfl⟩ rfl⟩

/-! Storing. -/

theorem presents_assign {g : Globals} {x : String} (hm : m.Presents σ)
    (hv : m.heap.content? v = some c) (hg : ∀ y, g.get? y = if y = x then some v else m.globals.get? y) :
    ({m with globals := g} : Machine).Presents (σ.assign x c) where
  globals y := by
    simp only [hg, Store.assign, Function.update_apply]
    split
    · simp [hv]
    · exact hm.globals y
  input := hm.input
  output := hm.output
  files := hm.files

theorem write_eq_ok {x : String} (hx : σ.locals.lookup x = none) (c : Content) :
    Walk.write x c σ = .ok () (σ.assign x c) := by
  simp only [Walk.write, modify, modifyGet, MonadStateOf.modifyGet, EStateM.modifyGet, hx]
  rfl

/-- A global that is there gets another value. -/
theorem storeGlobal_shows {x : String} (hm : m.Amid p P z T l σ st fs)
    (hv : m.heap.content? v = some c) (hx : σ.globals x = some d) :
    ∃ m', storeGlobal x v m = .ok () m' ∧ m'.Amid p P z T none (σ.assign x c) st fs ∧
      m'.globals.get? x = some v := by
  have hold := hm.toPresents.get? x
  rw [hx] at hold
  obtain ⟨old, hold, hd⟩ := hold
  obtain ⟨h, hretain, hm'⟩ := retain_shows hm hv
  obtain ⟨hv', hd'⟩ : h.content? v = some c ∧ h.content? old = some d := by
    refine ⟨hm'.transit (v, c) (by simp), ?_⟩
    have hpresents := hm'.globals x
    rw [hx] at hpresents
    simpa [hold] using hpresents
  have hset := Globals.get?_set hold v
  have hm'' : ({m with heap := h, globals := m.globals.set x v} : Machine).Amid p P z ((old, d) :: T)
      none (σ.assign x c) st fs := by
    refine hm'.move (U := (old, d) :: T) (counted_exchange hm'.counted hold) rfl rfl
      (presents_assign hm'.toPresents hv' hset) hm'.stack ?_ hm'.frames hm'.traced
    intro e he
    rcases List.mem_cons.mp he with rfl | he
    · exact hd'
    · exact hm'.transit e (List.mem_cons_of_mem _ he)
  obtain ⟨k, hrelease, hn⟩ := release_shows hm''
  refine ⟨_, ?_, hn, by simp [hset]⟩
  simp only [storeGlobal, bind, EStateM.bind, hretain, get, getThe, MonadStateOf.get, EStateM.get,
    hold, modify, modifyGet, MonadStateOf.modifyGet, EStateM.modifyGet, hrelease]

theorem defineGlobal_follows (hm : m.Shows p P z σ st fs) (x : String)
    (hv : m.heap.content? v = some c) :
    Follows line σ (Walk.define line x c) m (defineGlobal x v) fun _ σ' _ m' =>
      σ'.locals = σ.locals ∧ m'.Shows p P z σ' st fs := by
  have hold := hm.toPresents.get? x
  refine .lead rfl (.skip rfl ?_)
  cases hx : σ.globals x with
  | some d =>
    rw [hx] at hold
    obtain ⟨old, hold, hd⟩ := hold
    rw [hold]
    dsimp only
    rw [Heap.isNative_of_content? hd]
    exact .raise rfl hm.toPresents
  | none =>
    rw [hx] at hold
    rw [hold]
    obtain ⟨h, hretain, hm'⟩ := retain_shows hm hv
    refine .skip hretain ⟨_, _, rfl, rfl, ?_⟩
    refine hm'.move (U := []) (counted_define hm'.counted hold) rfl rfl
      (presents_assign hm'.toPresents (hm'.transit (v, c) (by simp)) (Globals.get?_define _ x · v))
      hm'.stack (by simp) hm'.frames hm'.traced

theorem restore (hm : m.Amid p P z T l σ st fs) (hpresents : m.Presents σ') :
    m.Amid p P z T l σ' st fs :=
  hm.move hm.counted rfl rfl hpresents hm.stack hm.transit hm.frames hm.traced

theorem hasCell_of_amid {id ip base : Nat} {rest : List Frame} {slot : UInt8}
    (hm : m.Amid p P z T l σ st (⟨id, ip, base⟩ :: rest)) (hd : st[base+slot.toNat+1]? = some d) :
    HasCell slot (base+slot.toNat+1) m := by
  refine ⟨_, rest, hm.frames, rfl, ?_⟩
  rw [hm.length_eq]
  exact (List.getElem?_eq_some_iff.mp hd).1

theorem loadLocal_shows {id ip base : Nat} {rest : List Frame} {slot : UInt8}
    (hm : m.Amid p P z T l σ st (⟨id, ip, base⟩ :: rest)) (hd : st[base+slot.toNat+1]? = some d) :
    ∃ v, loadLocal slot m = .ok v m ∧ m.stack[base+slot.toNat+1]? = some v ∧
      m.heap.content? v = some d := by
  obtain ⟨v, hv, hload⟩ := loadLocal_ok (hasCell_of_amid hm hd)
  obtain ⟨w, hw, hcontent⟩ := hm.content?_getElem? hd
  rw [hv] at hw
  cases hw
  exact ⟨v, hload, hv, hcontent⟩

/-- A local gets another value. -/
theorem storeLocal_shows {id ip base : Nat} {rest : List Frame} {slot : UInt8}
    (hm : m.Amid p P z T l σ st (⟨id, ip, base⟩ :: rest)) (hv : m.heap.content? v = some c)
    (hd : st[base+slot.toNat+1]? = some d) :
    ∃ m', storeLocal slot v m = .ok () m' ∧
      m'.Amid p P z T none σ (st.set (base+slot.toNat+1) c) (⟨id, ip, base⟩ :: rest) ∧
      m'.stack[base+slot.toNat+1]? = some v := by
  obtain ⟨old, hload, hold, hcontent⟩ := loadLocal_shows hm hd
  have hcell := hasCell_of_amid hm hd
  obtain ⟨h, hretain, hm'⟩ := retain_shows hm hv
  generalize hindex : base+slot.toNat+1 = index at *
  have hlt : index < m.stack.size := (Array.getElem?_eq_some_iff.mp hold).1
  have hset : ({m with heap := h, stack := m.stack.setIfInBounds index v} : Machine).Amid p P z
      ((old, d) :: T) none σ (st.set index c) (⟨id, ip, base⟩ :: rest) := by
    refine hm'.move (U := (old, d) :: T) (counted_cell hm'.counted hold) rfl rfl
      ⟨hm'.globals, hm'.input, hm'.output, hm'.files⟩ ?_ ?_ hm'.frames hm'.traced
    · simp only [Array.toList_setIfInBounds, List.map_set, hm'.transit (v, c) (by simp)]
      rw [hm'.stack]
    · intro e he
      rcases List.mem_cons.mp he with rfl | he
      · obtain ⟨w, hw, hcontent'⟩ := hm'.content?_getElem? hd
        rw [show ({m with heap := h} : Machine).stack[index]? = some old from hold] at hw
        cases hw
        exact hcontent'
      · exact hm'.transit e (List.mem_cons_of_mem _ he)
  obtain ⟨k, hrelease, hn⟩ := release_shows hset
  refine ⟨_, ?_, hn, by simp [hlt]⟩
  simp only [storeLocal, bind, EStateM.bind, cell_ok hcell, hload, hretain, modify, modifyGet,
    MonadStateOf.modifyGet, EStateM.modifyGet, hrelease]

/-! Taking cells off the stack. -/

theorem popTo_shows {low high : List Content} {count : Nat} (hm : m.Amid p P z T l σ (low++high) fs)
    (hcount : high.length ≤ count) :
    ∃ m', popTo low.length count m = .ok () m' ∧ m'.Amid p P z T l σ low fs := by
  induction count generalizing m high with
  | zero =>
    obtain rfl := List.length_eq_zero_iff.mp (Nat.le_zero.mp hcount)
    rw [List.append_nil] at hm
    exact ⟨m, rfl, hm⟩
  | succ count ih =>
    have hsize := hm.length_eq
    rcases List.eq_nil_or_concat high with rfl | ⟨above, c, rfl⟩
    · rw [List.append_nil] at hm hsize
      refine ⟨m, ?_, hm⟩
      simp only [popTo, bind, EStateM.bind, get, getThe, MonadStateOf.get, EStateM.get, hsize,
        Nat.lt_irrefl, if_false]
      rfl
    · rw [List.concat_eq_append, ← List.append_assoc] at hm hsize
      rw [List.concat_eq_append, List.length_append, List.length_singleton] at hcount
      obtain ⟨h, hpop, hm'⟩ := pop_shows hm
      obtain ⟨m', hrest, hn⟩ := ih hm' (by omega)
      refine ⟨m', ?_, hn⟩
      have hlt : low.length < m.stack.size := by
        rw [hsize]
        simp
      simp only [popTo, bind, EStateM.bind, get, getThe, MonadStateOf.get, EStateM.get, hlt, if_true,
        hpop, hrest]

/-- One value takes the place of all cells above some. -/
theorem collapse_shows {low high : List Content} (hm : m.Amid p P z T l σ (low++high) fs)
    (hv : m.heap.content? v = some c) (hroom : low.length < z.config.stackCapacity) :
    ∃ m', collapse low.length v m = .ok () m' ∧ m'.Amid p P z T none σ (low++[c]) fs := by
  obtain ⟨h, hretain, hm'⟩ := retain_shows hm hv
  have hcount : high.length ≤ m.stack.size := by
    have hsize := hm.length_eq
    rw [List.length_append] at hsize
    omega
  obtain ⟨m₁, hpop, hm₁⟩ := popTo_shows hm' hcount
  obtain ⟨m₂, hpush, hm₂⟩ := push_shows hm₁ (hm₁.transit (v, c) (by simp)) hroom
  obtain ⟨k, hrelease, hm₃⟩ := release_shows hm₂
  refine ⟨_, ?_, hm₃⟩
  simp only [collapse, bind, EStateM.bind, hretain, get, getThe, MonadStateOf.get, EStateM.get, hpop,
    hpush, hrelease]

end Exec
end RatScript
