import RatScript.Proofs.Machine.Opening
import RatScript.Proofs.Machine.Session

/-!
How a program is loaded onto a machine on which others were run. What belonged to the program before
is given up first, and with it the globals that hold its runnables. All other globals stay as they
are, and the only new objects are constants of the program, and natives once in a machine's life.
-/

namespace RatScript

open Stateful

namespace Heap

variable {h h' : Heap} {r : Handle} {v : Value} {o : Object}

theorem Grows.refl (h : Heap) : h.Grows h := fun _ _ ho => ho

theorem Grows.trans {h'' : Heap} (hg : h.Grows h') (hg' : h'.Grows h'') : h.Grows h'' :=
  fun r o ho => hg' r o (hg r o ho)

/-- To give up a hold changes what is known of one handle, and its object only if it is freed. -/
theorem turns_of_release (hs : h.Sound) (hok : releaseValue (.object r) h = .ok () h') :
    ∃ l k, h.live? r = some l ∧ 0 < l.refs ∧ h.Turns r k h' ∧
      ∀ l', k = some l' → l'.object = l.object := by
  simp only [releaseValue, discard, Functor.mapConst, EStateM.map, Function.comp_apply] at hok
  cases hl : h.live? r with
  | none => simp [release, hl] at hok
  | some l =>
    have hpos : 0 < l.refs := by
      apply Nat.pos_of_ne_zero
      intro hzero
      simp [release, hl, hzero] at hok
    obtain ⟨last, _, hok', _, ht⟩ := release_ok hs hl hpos
    rw [hok'] at hok
    cases hok
    refine ⟨l, _, rfl, hpos, ht, ?_⟩
    intro l' hl'
    split at hl'
    · cases hl'
    · cases hl'
      rfl

/-- What is left when a hold is given up was there before. -/
theorem grows_of_release (hs : h.Sound) (hok : releaseValue v h = .ok () h') : h'.Grows h := by
  cases v with
  | object r =>
    obtain ⟨l, k, hl, _, ht, hsame⟩ := turns_of_release hs hok
    intro s o ho
    simp only [object?, ht.live s] at ho ⊢
    split at ho
    · next heq =>
      subst s
      obtain ⟨l', hl', rfl⟩ := Option.map_eq_some_iff.mp ho
      rw [hl, Option.map_some, hsame l' hl']
    · exact ho
  | none | number | bool =>
    cases hok
    exact .refl h

theorem isRunnable_iff : h.isRunnable v = true ↔
    ∃ r id name, v = .object r ∧ h.object? r = some (.runnable id name) := by
  unfold isRunnable Heap.object
  cases v with
  | object r =>
    simp only [Heap.get]
    cases ho : h.object? r with
    | none => simp [Except.map, ho]
    | some o => cases o <;> simp [Except.map, ho]
  | none | number | bool => simp

end Heap

namespace Globals

/-- Some bindings are dropped, and names are bound once: a value is found if it was not dropped. -/
theorem lookup_filter {q : Value → Bool} {bindings : List (String × Value)}
    (hnamed : (bindings.map Prod.fst).Nodup) (x : String) :
    (bindings.filter fun b => q b.2).lookup x = (bindings.lookup x).filter q := by
  induction bindings with
  | nil => rfl
  | cons b rest ih =>
    obtain ⟨name, v⟩ := b
    obtain ⟨hfresh, hrest⟩ := List.nodup_cons.mp hnamed
    have hrest := ih hrest
    by_cases hx : x = name
    · subst hx
      have hnone : rest.lookup x = none := by
        rw [List.lookup_eq_none_iff]
        intro b hb
        have hne : b.1 ≠ x := fun heq => hfresh (List.mem_map.mpr ⟨b, hb, heq⟩)
        simpa using hne.symm
      rw [hnone] at hrest
      cases hq : q v <;> simp [Option.filter, hq, hrest]
    · have hne : (x == name) = false := by simpa using hx
      cases hq : q v <;> simp [List.lookup_cons, hq, hne, hrest]

theorem mem_bindings {g : Globals} {x : String} {v : Value} (h : g.get? x = some v) :
    (x, v) ∈ g.bindings := by
  obtain ⟨before, after, hsplit, _⟩ := List.lookup_eq_some_iff.mp h
  simp [hsplit]

end Globals

namespace Exec

open Machine

variable {c : Config} {b : Bool} {n : Nat} {z : Setting} {X : List Value} {S : Handle → Prop}
  {m : Machine} {p : Program}

/-! What is given up. -/

theorem releaseAll_ok {vs : List Value} (hm : m.Counted z (vs++X) S) :
    ∃ h, releaseAll vs m = .ok () {m with heap := h} ∧
      ({m with heap := h} : Machine).Counted z X S ∧ h.Grows m.heap := by
  induction vs generalizing m with
  | nil => exact ⟨m.heap, rfl, hm, .refl _⟩
  | cons v rest ih =>
    obtain ⟨h, hok, hh⟩ := release_ok hm
    obtain ⟨h', hok', hh', hg⟩ := ih hh
    refine ⟨h', ?_, hh', hg.trans (Heap.grows_of_release hm.sound hok)⟩
    simp only [releaseAll, bind, EStateM.bind, release, onHeap_ok hok]
    exact hok'

/-- The bindings without some of them, by name. -/
def spare (dropped bindings : List (String × Value)) : List (String × Value) :=
  bindings.filter fun b => !dropped.any (·.1 == b.1)

theorem dropGlobals_ok {dropped : List (String × Value)} (hm : m.Counted z X S)
    (hnamed : (dropped.map Prod.fst).Nodup) (hin : ∀ b ∈ dropped, b ∈ m.globals.bindings) :
    ∃ h, dropGlobals dropped m =
        .ok () {m with globals := ⟨spare dropped m.globals.bindings⟩, heap := h} ∧
      ({m with globals := ⟨spare dropped m.globals.bindings⟩, heap := h} : Machine).Counted z X S ∧
      h.Grows m.heap := by
  induction dropped generalizing m with
  | nil =>
    have hsame : spare [] m.globals.bindings = m.globals.bindings := by simp [spare]
    rw [hsame]
    exact ⟨m.heap, rfl, hm, .refl _⟩
  | cons b rest ih =>
    obtain ⟨name, v⟩ := b
    obtain ⟨hfresh, hrest⟩ := List.nodup_cons.mp hnamed
    have herased := counted_erase hm (hin (name, v) (by simp))
    obtain ⟨h, hok, hh⟩ := release_ok herased
    have hleft : ∀ b ∈ rest, b ∈ (m.globals.erase name).bindings := by
      intro b hb
      have hne : b.1 ≠ name := fun heq => hfresh (List.mem_map.mpr ⟨b, hb, heq⟩)
      exact List.mem_filter.mpr ⟨hin b (List.mem_cons_of_mem _ hb), by simpa using hne⟩
    have hspare : spare rest (m.globals.erase name).bindings =
        spare ((name, v) :: rest) m.globals.bindings := by
      simp only [spare, Globals.erase, List.filter_filter, List.any_cons]
      congr 1
      funext b
      rw [Bool.not_or, Bool.and_comm, bne, BEq.comm]
    obtain ⟨h', hok', hh', hg⟩ := ih hh hrest hleft
    rw [hspare] at hok' hh'
    refine ⟨h', ?_, hh', hg.trans (Heap.grows_of_release hm.sound hok)⟩
    simp only [dropGlobals, bind, EStateM.bind, modify, modifyGet, MonadStateOf.modifyGet,
      EStateM.modifyGet, release, onHeap_ok hok]
    exact hok'

/-- The machine with only globals, those that hold no runnable. -/
def cleared (m : Machine) (h : Heap) : Machine :=
  {m with stack := #[], frames := [], pools := #[], heap := h,
          globals := ⟨m.globals.bindings.filter fun b => !m.heap.isRunnable b.2⟩}

theorem isRunnable_of_held {h : Heap} {v : Value} (hm : m.Counted z X S) (hv : v ∈ X++m.held)
    (hg : m.heap.Grows h) : h.isRunnable v = m.heap.isRunnable v := by
  rw [Bool.eq_iff_iff, Heap.isRunnable_iff, Heap.isRunnable_iff]
  constructor
  · rintro ⟨r, id, name, rfl, ho⟩
    obtain ⟨l, hl⟩ := hm.live_of_held hv
    have hobject : m.heap.object? r = some l.object := by simp [Heap.object?, hl]
    rw [hg r _ hobject] at ho
    exact ⟨r, id, name, rfl, hobject.trans ho⟩
  · rintro ⟨r, id, name, rfl, ho⟩
    exact ⟨r, id, name, rfl, hg r _ ho⟩

theorem mem_held_of_binding {x : String × Value} (hx : x ∈ m.globals.bindings) : x.2 ∈ m.held :=
  List.mem_append_left _ (List.mem_append_right _ (List.mem_map_of_mem hx))

/-- A machine on which every object is held gives up the program before, and no runnable is left. -/
theorem reset_ok (hm : m.Counted (.basic c b n) [] fun _ => False) :
    ∃ h, reset m = .ok () (cleared m h) ∧
      (cleared m h).Counted (.basic c b n) [] (fun _ => False) ∧ h.Grows m.heap ∧
      ∀ r id name, h.object? r ≠ some (.runnable id name) := by
  obtain ⟨h₁, hok₁, hm₁, hg₁⟩ := releaseAll_ok (counted_clear hm)
  have hm₂ := counted_unload (counted_frames hm₁ (List.forall_mem_nil _))
  obtain ⟨h₃, hok₃, hm₃, hg₃⟩ := releaseAll_ok hm₂
  -- runnables are told by the heap as it is now, which knows the globals as before
  have hrunnable : ∀ x ∈ m.globals.bindings, h₃.isRunnable x.2 = m.heap.isRunnable x.2 := by
    intro x hx
    have hheld : x.2 ∈ ([] : List Value)++Machine.held {m with
        stack := #[], frames := [], pools := #[], heap := h₃} := mem_held_of_binding hx
    exact (isRunnable_of_held hm₃ hheld (hg₃.trans hg₁)).symm
  have hfilter : (m.globals.bindings.filter fun x => h₃.isRunnable x.2) =
      m.globals.bindings.filter fun x => m.heap.isRunnable x.2 :=
    List.filter_congr hrunnable
  have hnamed := hm.named.sublist
    ((List.filter_sublist (p := fun x => m.heap.isRunnable x.2)).map Prod.fst)
  obtain ⟨h, hok, hh, hg⟩ := dropGlobals_ok hm₃ hnamed fun x hx => (List.mem_filter.mp hx).1
  have hspare : spare (m.globals.bindings.filter fun x => m.heap.isRunnable x.2)
      m.globals.bindings = m.globals.bindings.filter fun x => !m.heap.isRunnable x.2 := by
    refine List.filter_congr fun x hx => ?_
    rw [Bool.not_inj_iff, Bool.eq_iff_iff, List.any_eq_true]
    constructor
    · rintro ⟨y, hy, hname⟩
      obtain ⟨hy, hr⟩ := List.mem_filter.mp hy
      have hsame : y = x := List.inj_on_of_nodup_map hm.named hy hx (by simpa using hname)
      exact hsame ▸ hr
    · intro hr
      exact ⟨x, List.mem_filter.mpr ⟨hx, hr⟩, by simp⟩
  simp only [hspare] at hok hh
  refine ⟨h, ?_, hh, hg.trans (hg₃.trans hg₁), ?_⟩
  · simp only [reset, bind, EStateM.bind, get, getThe, MonadStateOf.get, EStateM.get, modify,
      modifyGet, MonadStateOf.modifyGet, EStateM.modifyGet, hok₁, hok₃, hfilter]
    exact hok
  · intro r id name ho
    obtain ⟨l, hl, hobject⟩ := Option.map_eq_some_iff.mp ho
    have hpos : 0 < l.refs := Nat.pos_of_ne_zero fun hzero => hh.kept r l hl hzero
    have hcount := hh.counts r
    rw [Heap.refs_of_live hl] at hcount
    rw [hcount] at hpos
    have hheld := List.count_pos_iff.mp hpos
    simp only [held, List.flatMap_nil, List.nil_append, List.append_nil] at hheld
    obtain ⟨x, hx, hr⟩ := List.mem_map.mp hheld
    obtain ⟨hx, hnot⟩ := List.mem_filter.mp hx
    have hyes : m.heap.isRunnable x.2 = true :=
      Heap.isRunnable_iff.mpr ⟨r, id, name, hr, (hg.trans (hg₃.trans hg₁)) r _ ho⟩
    simp [hyes] at hnot

/-! What is made. -/

/-- Stack, calls and world stay as they are. The heap grows, and only by objects that have `T`. -/
structure Gains (T : Object → Prop) (m m' : Machine) : Prop where
  config : m'.config = m.config
  stack : m'.stack = m.stack
  frames : m'.frames = m.frames
  world : m'.world = m.world
  sound : m.heap.Sound → m'.heap.Sound
  grows : m.heap.Sound → m.heap.Grows m'.heap
  made : m.heap.Sound → ∀ r o, m'.heap.object? r = some o → m.heap.object? r = some o ∨ T o

variable {T : Object → Prop}

instance : Std.Refl (Gains T) :=
  ⟨fun _ => ⟨rfl, rfl, rfl, rfl, fun h => h, fun _ => .refl _, fun _ _ _ h => .inl h⟩⟩

instance : Trans (Gains T) (Gains T) (Gains T) where
  trans h k := by
    refine ⟨k.config.trans h.config, k.stack.trans h.stack, k.frames.trans h.frames,
      k.world.trans h.world, fun hs => k.sound (h.sound hs),
      fun hs => (h.grows hs).trans (k.grows (h.sound hs)), fun hs r o ho => ?_⟩
    rcases k.made (h.sound hs) r o ho with ho | ht
    · exact h.made hs r o ho
    · exact .inr ht

theorem alloc_gains {o : Object} (ho : T o) : Keeps (Gains T) (onHeap (Heap.alloc o)) where
  keeps m := by
    by_cases hs : m.heap.Sound
    · obtain ⟨r, h, hok, hsound, hdead, ht⟩ := Heap.alloc_ok hs o
      rw [after_of_ok (onHeap_ok hok)]
      refine ⟨rfl, rfl, rfl, rfl, fun _ => hsound,
        fun _ => Heap.grows_of_turns ht fun k hk => by simp [hdead] at hk, fun _ s k hk => ?_⟩
      simp only [Heap.object?, ht.live s] at hk ⊢
      split at hk
      · cases hk
        exact .inr ho
      · exact .inl hk
    · cases hok : Heap.alloc o m.heap with
      | ok r h =>
        rw [after_of_ok (onHeap_ok hok)]
        exact ⟨rfl, rfl, rfl, rfl, fun h => absurd h hs, fun h => absurd h hs, fun h => absurd h hs⟩
      | error e h =>
        rw [after_of_error (onHeap_error hok)]
        exact ⟨rfl, rfl, rfl, rfl, fun h => absurd h hs, fun h => absurd h hs, fun h => absurd h hs⟩

theorem grows_of_retain {h h' : Heap} {v : Value} (hs : h.Sound)
    (hok : Heap.retainValue v h = .ok () h') :
    h'.Sound ∧ ∀ r, h'.object? r = h.object? r := by
  cases v with
  | object r =>
    cases hl : h.live? r with
    | none =>
      rw [Heap.retainValue, Heap.retain_stale hl] at hok
      cases hok
    | some l =>
      obtain ⟨_, hok', hsound, ht⟩ := Heap.retain_ok hs hl
      rw [Heap.retainValue, hok'] at hok
      cases hok
      refine ⟨hsound, fun s => ?_⟩
      simp only [Heap.object?, ht.live s]
      split
      · next heq => simp [heq, hl]
      · rfl
  | none | number | bool =>
    cases hok
    exact ⟨hs, fun _ => rfl⟩

instance (v : Value) : Keeps (Gains T) (retain v) where
  keeps m := by
    cases hok : Heap.retainValue v m.heap with
    | ok u h =>
      have hretain : retain v m = .ok () {m with heap := h} := onHeap_ok hok
      rw [after_of_ok hretain]
      refine ⟨rfl, rfl, rfl, rfl, fun hs => (grows_of_retain hs hok).1, fun hs r o ho => ?_,
        fun hs r o ho => .inl ?_⟩
      · exact ((grows_of_retain hs hok).2 r).trans ho
      · exact ((grows_of_retain hs hok).2 r).symm.trans ho
    | error e h =>
      have hsame : h = m.heap := by
        cases v with
        | object r =>
          simp only [Heap.retainValue, Heap.retain] at hok
          split at hok <;> cases hok
          rfl
        | none | number | bool => cases hok
      have hretain : retain v m = .error (.heap e) m := by
        have h' : retain v m = .error (.heap e) {m with heap := h} := onHeap_error hok
        rw [hsame] at h'
        exact h'
      rw [after_of_error hretain]
      exact Std.Refl.refl m

theorem keeps_globals (f : Machine → Globals) :
    Keeps (Gains T) (modify fun m => {m with globals := f m} : Exec PUnit) :=
  Keeps.modify fun _ => ⟨rfl, rfl, rfl, rfl, fun h => h, fun _ => .refl _, fun _ _ _ h => .inl h⟩

instance (name : String) (v : Value) : Keeps (Gains T) (defineGlobal name v) := by
  refine Keeps.seq inferInstance fun m => ?_
  split
  · infer_instance
  · exact Keeps.seq inferInstance fun _ => keeps_globals _

theorem bindAll_gains (natives : List Native) (hT : ∀ n, T (.native n)) :
    Keeps (Gains T) (bindAll natives) := by
  induction natives with
  | nil => exact inferInstanceAs (Keeps _ (pure _))
  | cons n rest ih =>
    exact Keeps.seq (alloc_gains (hT n)) fun _ => Keeps.seq inferInstance fun _ => ih

theorem bindNatives_gains (hT : ∀ n, T (.native n)) : Keeps (Gains T) bindNatives := by
  refine Keeps.seq inferInstance fun m => ?_
  split
  · infer_instance
  · exact Keeps.seq (bindAll_gains _ hT) fun _ => Keeps.modify fun _ =>
      ⟨rfl, rfl, rfl, rfl, fun h => h, fun _ => .refl _, fun _ _ _ h => .inl h⟩

end Exec

/-- An object that a constant of the program can be made into: a runnable has the name of the
function it is. -/
def Program.Makes (p : Program) : Object → Prop
  | .text _ => True
  | .runnable id name => ∃ f, p.function? id = some f ∧ f.name = name
  | .native _ => False

namespace Exec

open Machine

variable {c : Config} {b : Bool} {n : Nat} {m : Machine} {p : Program}

instance (k : Constant) : Keeps (Gains p.Makes) (newConstant p k) := by
  cases k with
  | number x => exact inferInstanceAs (Keeps _ (pure _))
  | text content =>
    have htext : p.Makes (.text content) := trivial
    exact Keeps.seq (alloc_gains htext) fun _ => inferInstance
  | runnable id =>
    cases hid : p.function? id with
    | none =>
      simp only [newConstant, hid]
      infer_instance
    | some f =>
      simp only [newConstant, hid]
      have hf : p.Makes (.runnable id f.name) := ⟨f, hid, rfl⟩
      exact Keeps.seq (alloc_gains hf) fun _ => inferInstance

instance (k : Constant) : Keeps SameGlobals (newConstant p k) := by
  cases k with
  | number x => exact inferInstanceAs (Keeps _ (pure _))
  | text content => exact inferInstanceAs (Keeps _ (newText _))
  | runnable id =>
    cases hid : p.function? id with
    | none =>
      simp only [newConstant, hid]
      infer_instance
    | some f =>
      simp only [newConstant, hid]
      infer_instance

section
variable {R : Machine → Machine → Prop} [Std.Refl R] [Trans R R R] [∀ k, Keeps R (newConstant p k)]
  [∀ v, Keeps R (retain v)]

theorem newPool_keeps (constants : List Constant) (found : Array Value) :
    Keeps R (newPool p found constants) := by
  induction constants generalizing found with
  | nil => exact inferInstanceAs (Keeps _ (pure _))
  | cons k rest ih =>
    exact Keeps.seq inferInstance fun v => Keeps.seq inferInstance fun _ => ih (found.push v)

theorem loadConstants_keeps (hpools : ∀ m pools, R m {m with pools := pools})
    (functions : List Function) : Keeps R (loadConstants p functions) := by
  induction functions with
  | nil => exact inferInstanceAs (Keeps _ (pure _))
  | cons f rest ih =>
    exact Keeps.seq (newPool_keeps _ _) fun pool => Keeps.seq
      (Keeps.modify fun m => hpools m _) fun _ => ih

end

/-- A native is bound to its name. -/
def Names (m : Machine) (native : Native) : Prop :=
  ∃ r, m.globals.get? native.name = some (.object r) ∧ m.heap.object? r = some (.native native)

theorem Names.grow {native : Native} {h : Heap} (hm : Names m native) (hg : m.heap.Grows h) :
    Names {m with heap := h} native := by
  obtain ⟨r, hr, ho⟩ := hm
  exact ⟨r, hr, hg r _ ho⟩

/-- Natives are bound to their names, the last one first. -/
structure Binds (natives : List Native) (m : Machine) : Prop where
  names : ∀ n ∈ natives, Names m n
  bindings : m.globals.bindings.map Prod.fst = (natives.map Native.name).reverse
  pools : m.pools = #[]

theorem lasting_binds (natives : List Native) : Lasting (Binds natives) :=
  fun _ _ hg hm => ⟨fun n hn => (hm.names n hn).grow hg, hm.bindings, hm.pools⟩

theorem Binds.define {done : List Native} {native : Native} {r : Handle} (hm : Binds done m)
    (hnew : native.name ∉ done.map Native.name) (ho : m.heap.object? r = some (.native native)) :
    Binds (done++[native]) {m with globals := m.globals.define native.name (.object r)} where
  names n hn := by
    rcases List.mem_append.mp hn with hn | hn
    · obtain ⟨s, hs, hs'⟩ := hm.names n hn
      have hne : (n.name == native.name) = false := by
        rw [beq_eq_false_iff_ne]
        exact fun heq => hnew (heq ▸ List.mem_map_of_mem hn)
      refine ⟨s, ?_, hs'⟩
      simp only [Globals.get?, Globals.define, List.lookup_cons, hne]
      exact hs
    · obtain rfl := List.mem_singleton.mp hn
      exact ⟨r, by simp [Globals.get?, Globals.define], ho⟩
  bindings := by simp [Globals.define, hm.bindings]
  pools := hm.pools

theorem bindAll_binds (natives : List Native) :
    ∀ done : List Native, ((done++natives).map Native.name).Nodup →
      Opens (Binds done) (bindAll natives) fun _ => Binds (done++natives) := by
  induction natives with
  | nil =>
    intro done _
    rw [List.append_nil]
    exact Opens.pure fun _ h => h
  | cons native rest ih =>
    intro done hnames
    have hnew : native.name ∉ done.map Native.name := by
      intro hmem
      rw [List.map_append, List.nodup_append] at hnames
      exact hnames.2.2 _ hmem _ (by simp) rfl
    have hlasting (r : Handle) : Lasting fun m =>
        m.heap.object? r = some (.native native) ∧ Binds done m :=
      fun m h hg hm => ⟨hg r _ hm.1, lasting_binds done m h hg hm.2⟩
    refine Opens.bind (alloc_opens (lasting_binds done) _) fun r => Opens.bind ?_ fun _ =>
      (List.append_assoc done [native] rest ▸ ih (done++[native]) (by simpa using hnames) :)
    apply Yields.get_bind
    intro m hm
    split
    · exact Yields.throw fun _ _ => trivial
    · exact Yields.start hm (Opens.bind (retain_opens (hlasting r) (.object r)) fun _ =>
        Opens.modify (fun _ => rfl) fun _ hm => hm.2.define hnew hm.1)

/-- A machine without globals gets the natives; another has them. -/
theorem bindNatives_ok (hm : m.Counted (.basic c b n) [] fun _ => False) (hunbound : Unbound b m)
    (hpools : m.pools = #[]) :
    ∃ m', bindNatives m = .ok () m' ∧ m'.Counted (.basic c true n) [] (fun _ => False) ∧
      Gains (fun o => ∃ n, o = .native n) m m' ∧ m'.pools = #[] ∧
      (b = true → m'.globals = m.globals) ∧ (b = false → Binds Native.all m') := by
  have hbound := hm.bound
  cases b with
  | true =>
    have hok : bindNatives m = .ok () m := by
      simp only [bindNatives, bind, EStateM.bind, get, getThe, MonadStateOf.get, EStateM.get, hbound]
      rfl
    exact ⟨m, hok, hm, Std.Refl.refl m, hpools, fun _ => rfl, fun h => by cases h⟩
  | false =>
    have hnatives := bindNatives_yields (E := fun _ _ => False) m ⟨hm, hunbound⟩
    have hempty : Binds [] m :=
      ⟨by simp, by simp [hunbound rfl], hpools⟩
    have hbinds : Opens (· = m) bindNatives fun _ => Binds Native.all := by
      apply Yields.get_bind
      rintro _ ⟨hs, rfl⟩
      simp only [hbound]
      refine Yields.start ⟨hs, hempty⟩ (Opens.bind (bindAll_binds Native.all [] (by decide))
        fun _ => Opens.modify (fun _ => rfl) fun _ h => ⟨h.names, h.bindings, h.pools⟩)
    have hbinds := hbinds m ⟨hm.sound, rfl⟩
    cases hok : bindNatives m with
    | error e m' =>
      rw [hok] at hnatives
      exact hnatives.elim
    | ok u m' =>
      rw [hok] at hnatives hbinds
      exact ⟨m', rfl, hnatives, (bindNatives_gains fun n => ⟨n, rfl⟩).of_ok hok, hbinds.2.pools,
        (absurd · Bool.false_ne_true), fun _ => hbinds.2⟩

/-- A program that resolves gets pools with its constants. -/
theorem loadConstants_ok (hp : p.Resolves) (hm : m.Counted (.basic c b n) [] fun _ => False)
    (hpools : m.pools = #[]) :
    ∃ m', loadConstants p p.functions.toList m = .ok () m' ∧
      m'.Counted (.basic c b n) [] (fun _ => False) ∧ Gains p.Makes m m' ∧
      m'.globals = m.globals ∧ List.Forall₂ m'.heap.Pools m'.pools.toList p.functions.toList := by
  have hyields := loadConstants_yields p p.functions.toList m hm
  have hopens := loadConstants_opens (F := fun _ => True) p (fun _ _ _ h => h) (fun _ _ h => h)
    p.functions.toList [] m ⟨hm.sound, by simp [hpools], trivial⟩
  cases hok : loadConstants p p.functions.toList m with
  | error e m' =>
    rw [hok] at hyields
    obtain ⟨_, f, hf, id, hk, hnone, _⟩ := hyields
    have hfinds := hp f hf _ hk
    simp [Program.Finds, hnone] at hfinds
  | ok u m' =>
    rw [hok] at hyields hopens
    have hgains : Gains p.Makes m m' :=
      (loadConstants_keeps (fun _ _ => ⟨rfl, rfl, rfl, rfl, fun h => h, fun _ => .refl _,
        fun _ _ _ h => .inl h⟩) _).of_ok hok
    have hglobals : SameGlobals m m' :=
      (loadConstants_keeps (fun _ _ => rfl) _).of_ok hok
    exact ⟨m', rfl, hyields, hgains, hglobals, hopens.2.1⟩

end Exec

namespace Machine

/-- A program is loaded onto a machine. -/
structure Loaded (p : Program) (m m' : Machine) : Prop where
  counted : m'.Counted (.basic m.config true m.heap.stats.swept) [] fun _ => False
  stack : m'.stack = #[]
  frames : m'.frames = [⟨0, 0, 0⟩]
  world : m'.world = m.world
  pools : List.Forall₂ m'.heap.Pools m'.pools.toList p.functions.toList
  /-- No runnable is left of the program before. -/
  objects : ∀ r o, m'.heap.object? r = some o →
    (m.heap.object? r = some o ∧ ∀ id name, o ≠ .runnable id name) ∨ (∃ n, o = .native n) ∨ p.Makes o
  globals : m.nativesBound = true →
    m'.globals.bindings = m.globals.bindings.filter fun b => !m.heap.isRunnable b.2
  /-- Globals that stay have the objects they had. -/
  same : m.nativesBound = true → ∀ b ∈ m'.globals.bindings, ∀ r, b.2 = .object r →
    m'.heap.object? r = m.heap.object? r
  natives : m.nativesBound = false → (∀ n, Exec.Names m' n) ∧
    m'.globals.bindings.map Prod.fst = (Native.all.map Native.name).reverse

variable {m : Machine} {p : Program}

theorem Loaded.get? {m' : Machine} (h : m.Loaded p m') (hbound : m.nativesBound = true)
    (hnamed : (m.globals.bindings.map Prod.fst).Nodup) (x : String) :
    m'.globals.get? x = (m.globals.get? x).filter fun v => !m.heap.isRunnable v := by
  rw [Globals.get?, h.globals hbound]
  exact Globals.lookup_filter (q := fun v => !m.heap.isRunnable v) hnamed x

theorem load_ok (hp : p.Resolves) {c : Config} {b : Bool} {n : Nat}
    (hm : m.Counted (.basic c b n) [] fun _ => False) (hunbound : Exec.Unbound b m) :
    ∃ m', Exec.load p m = .ok () m' ∧ m.Loaded p m' := by
  obtain ⟨h, hreset, hcleared, hg, hnone⟩ := Exec.reset_ok hm
  have hunbound' : Exec.Unbound b (Exec.cleared m h) := fun hb => by
    simp [Exec.cleared, hunbound hb]
  obtain ⟨m₁, hbind, hm₁, hgains₁, hpools₁, hold, hnew⟩ :=
    Exec.bindNatives_ok hcleared hunbound' rfl
  obtain ⟨m₂, hload, hm₂, hgains₂, hglobals, hpools⟩ := Exec.loadConstants_ok hp hm₁ hpools₁
  have hgrows : h.Grows m₂.heap := (hgains₁.grows hcleared.sound).trans (hgains₂.grows hm₁.sound)
  have hframes : m₂.frames = [] := hgains₂.frames.trans hgains₁.frames
  refine ⟨{m₂ with frames := ⟨0, 0, 0⟩ :: m₂.frames}, ?_, ?_⟩
  · simp only [Exec.load, bind, EStateM.bind, hreset, hbind, hload]
    rfl
  · refine ⟨?_, hgains₂.stack.trans hgains₁.stack, by rw [hframes],
      hgains₂.world.trans hgains₁.world, hpools, ?_, ?_, ?_, ?_⟩
    · rw [hm.config, hm.swept]
      exact Exec.counted_frames hm₂ (by simp [hframes])
    · intro r o ho
      rcases hgains₂.made hm₁.sound r o ho with ho | ho
      · rcases hgains₁.made hcleared.sound r o ho with ho | ho
        · exact .inl ⟨hg r o ho, fun id name heq => hnone r id name (heq ▸ ho)⟩
        · exact .inr (.inl ho)
      · exact .inr (.inr ho)
    · intro hbound
      have hb : b = true := hm.bound.symm.trans hbound
      rw [hglobals, hold hb]
      rfl
    · intro hbound x hx r hr
      have hb : b = true := hm.bound.symm.trans hbound
      have hx : x ∈ (Exec.cleared m h).globals.bindings := by
        rw [← hold hb, ← hglobals]
        exact hx
      obtain ⟨l, hl⟩ := hcleared.live_of_held (r := r) (hr ▸ Exec.mem_held_of_binding hx)
      have ho : h.object? r = some l.object := by
        have hl : h.live? r = some l := hl
        simp [Heap.object?, hl]
      exact (hgrows r _ ho).trans (hg r _ ho).symm
    · intro hbound
      have hb : b = false := hm.bound.symm.trans hbound
      have hbinds := hnew hb
      refine ⟨fun native => ?_, by rw [hglobals]; exact hbinds.bindings⟩
      obtain ⟨r, hr, ho⟩ := hbinds.names native (by cases native <;> decide)
      exact ⟨r, by rw [hglobals]; exact hr, hgains₂.grows hm₁.sound r _ ho⟩

/-- No global holds a runnable. -/
theorem Loaded.unrunnable {m' : Machine} (h : m.Loaded p m') (r : Handle) (id : Nat) (name : String)
    (hr : .object r ∈ m'.globals.bindings.map Prod.snd) :
    m'.heap.object? r ≠ some (.runnable id name) := by
  obtain ⟨⟨x, v⟩, hx, hv⟩ := List.mem_map.mp hr
  change v = .object r at hv
  subst hv
  intro ho
  cases hbound : m.nativesBound with
  | true =>
    rw [h.same hbound _ hx r rfl] at ho
    rw [h.globals hbound] at hx
    have hnot := (List.mem_filter.mp hx).2
    simp [Heap.isRunnable_iff.mpr ⟨r, id, name, rfl, ho⟩] at hnot
  | false =>
    obtain ⟨hnames, hbindings⟩ := h.natives hbound
    have hmem : x ∈ (Native.all.map Native.name).reverse :=
      hbindings ▸ List.mem_map_of_mem (f := Prod.fst) hx
    obtain ⟨n, _, rfl⟩ := List.mem_map.mp (List.mem_reverse.mp hmem)
    obtain ⟨s, hs, ho'⟩ := hnames n
    have hsame := List.inj_on_of_nodup_map h.counted.named hx (Globals.mem_bindings hs) rfl
    obtain rfl : r = s := by simpa using hsame
    rw [ho] at ho'
    cases ho'

theorem Loaded.counted_settled {m' : Machine} (h : m.Loaded p m') :
    m'.Counted m'.settled [] fun _ => True :=
  settled_counted h.counted h.stack h.unrunnable

/-- A program that is loaded stands at the start of its script. -/
theorem Loaded.poised {m' : Machine} (h : m.Loaded p m') :
    m'.Poised m'.settled m'.pools 0 [⟨0, 0, 0⟩] := by
  refine ⟨h.counted_settled, by simp [h.stack], h.frames, rfl, by simp [h.stack], ?_⟩
  intro v hv r name hr htyped
  subst hr
  by_cases hpool : .object r ∈ m'.pools.toList.flatMap Array.toList
  · exact h.unrunnable r 0 name hv (htyped.1 hpool)
  · exact htyped.2 hpool 0 name rfl

/-- A program that resolves is loaded onto a machine between runs. -/
theorem load_rests (hp : p.Resolves) {start : Machine} (hstart : start.Rests fun _ => False) :
    ∃ m, Exec.load p start = .ok () m ∧ m.settled.Loads p m.pools ∧
      m.Poised m.settled m.pools 0 [⟨0, 0, 0⟩] := by
  obtain ⟨c, b, n, hcounted, hunbound⟩ := hstart
  obtain ⟨m, hload, hm⟩ := load_ok hp hcounted hunbound
  exact ⟨m, hload, settled_loads hp hm.pools, hm.poised⟩

theorem load_new (hp : p.Resolves) {config : Config} {world : World} {start : Machine}
    (hstart : start = new config world) :
    ∃ m, Exec.load p start = .ok () m ∧ m.settled.Loads p m.pools ∧
      m.Poised m.settled m.pools 0 [⟨0, 0, 0⟩] :=
  load_rests hp (hstart ▸ rests_new config world)

end Machine
end RatScript
