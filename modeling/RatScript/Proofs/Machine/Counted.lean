import RatScript.Machine.Basic
import RatScript.Proofs.Machine.Heap
import RatScript.Proofs.Stateful

/-!
Exact counts: the holds on an object are its occurrences in the machine. Between two instructions
nothing else holds an object; inside of one, values in transit are held besides, and a new object
may not be held yet.
-/

namespace RatScript

open Stateful

/-- Objects that may go unheld: those of `spare`, and `v`. -/
def Loose (spare : Handle → Prop) (v : Value) (r : Handle) : Prop := spare r ∨ v = .object r

namespace Machine

/-- All places of the machine that hold an object. -/
def held (m : Machine) : List Value :=
  m.stack.toList++m.globals.bindings.map Prod.snd++m.pools.toList.flatMap Array.toList

theorem count_held (m : Machine) (v : Value) :
    m.held.count v = m.stack.toList.count v+(m.globals.bindings.map Prod.snd).count v+
      (m.pools.toList.flatMap Array.toList).count v := by
  simp only [held, List.count_append]

/-- What no instruction changes. -/
structure Setting where
  config : Config
  bound : Bool
  swept : Nat
  /-- Handles that some pool holds. -/
  pinned : Handle → Prop
  /-- Objects that a handle may stand for; a new text may get any handle that is not pinned. -/
  typed : Handle → Object → Prop
  texts : ∀ r content, ¬ pinned r → typed r (.text content)

/-- A setting that says nothing about handles. -/
def Setting.basic (config : Config) (bound : Bool) (swept : Nat) : Setting :=
  ⟨config, bound, swept, fun _ => False, fun _ _ => True, fun _ _ _ => trivial⟩

/-- The machine and the values in transit account for all holds; only `spare` objects are unheld.
The last part says that there is room for the result of every active call. -/
structure Counted (z : Setting) (transit : List Value) (spare : Handle → Prop)
    (m : Machine) : Prop where
  config : m.config = z.config
  bound : m.nativesBound = z.bound
  swept : m.heap.stats.swept = z.swept
  pinned : ∀ r, z.pinned r → .object r ∈ m.pools.toList.flatMap Array.toList
  typed : ∀ r l, m.heap.live? r = some l → z.typed r l.object
  sound : m.heap.Sound
  counts : ∀ r, m.heap.refs r = (transit++m.held).count (.object r)
  kept : ∀ r l, m.heap.live? r = some l → l.refs = 0 → spare r
  named : (m.globals.bindings.map Prod.fst).Nodup
  room : m.stack.size ≤ z.config.stackCapacity
  bases : ∀ f ∈ m.frames, f.base ≤ z.config.stackCapacity-1

variable {z : Setting} {X Y : List Value} {S : Handle → Prop} {m m' : Machine} {v : Value}

theorem counted_new (config : Config) (world : World) :
    (new config world).Counted (.basic config false 0) [] S where
  config := rfl
  bound := rfl
  swept := rfl
  pinned _ h := h.elim
  typed _ _ _ := trivial
  sound := Heap.sound_empty
  counts r := by simp [new, held, Globals.empty, Heap.empty, Heap.refs, Heap.refs?, Heap.live?]
  kept r l hl := by simp [new, Heap.empty, Heap.live?] at hl
  named := by simp [new, Globals.empty]
  room := by simp [new]
  bases := by simp [new]

namespace Counted

/-- Values go from one place to another. -/
theorem move (hm : m.Counted z X S) (hconfig : m'.config = m.config)
    (hbound : m'.nativesBound = m.nativesBound)
    (hpinned : ∀ r, z.pinned r → .object r ∈ m'.pools.toList.flatMap Array.toList)
    (hheap : m'.heap = m.heap)
    (hcounts : ∀ r, (Y++m'.held).count (.object r) = (X++m.held).count (.object r))
    (hnamed : (m'.globals.bindings.map Prod.fst).Nodup)
    (hroom : m'.stack.size ≤ z.config.stackCapacity)
    (hbases : ∀ f ∈ m'.frames, f.base ≤ z.config.stackCapacity-1) : m'.Counted z Y S where
  config := hconfig.trans hm.config
  bound := hbound.trans hm.bound
  swept := hheap ▸ hm.swept
  pinned := hpinned
  typed := hheap ▸ hm.typed
  sound := hheap ▸ hm.sound
  counts r := by rw [hheap, hm.counts, hcounts]
  kept := hheap ▸ hm.kept
  named := hnamed
  room := hroom
  bases := hbases

theorem mono {T : Handle → Prop} (hm : m.Counted z X S) (h : ∀ r, S r → T r) : m.Counted z X T :=
  {hm with kept := fun r l hl hz => h r (hm.kept r l hl hz)}

theorem loose (hm : m.Counted z X S) (v : Value) : m.Counted z X (Loose S v) :=
  hm.mono fun _ => .inl

/-- A value that is held, or that is not live, need not be spared. -/
theorem settle (hm : m.Counted z X (Loose S v))
    (hv : ∀ r, v = .object r → 0 < m.heap.refs r ∨ m.heap.live? r = none) : m.Counted z X S := by
  refine {hm with kept := fun r l hl hz => ?_}
  rcases hm.kept r l hl hz with h | h
  · exact h
  · rcases hv r h with hpos | hdead
    · rw [Heap.refs_of_live hl] at hpos
      omega
    · simp [hl] at hdead

theorem live_of_held {r : Handle} (hm : m.Counted z X S) (hr : .object r ∈ X++m.held) :
    ∃ l, m.heap.live? r = some l := by
  apply Heap.live_of_refs
  rw [hm.counts]
  exact List.count_pos_iff.mpr hr

/-- The heap changes at one handle as the holds in transit do. -/
theorem turn {h : Heap} {r : Handle} {l : Option Live} (hm : m.Counted z X S) (hsound : h.Sound)
    (ht : m.heap.Turns r l h)
    (hcount : (l.map Live.refs).getD 0 = (Y++m.held).count (.object r))
    (hother : ∀ s, s ≠ r → Y.count (.object s) = X.count (.object s))
    (htyped : ∀ k, l = some k → z.typed r k.object)
    (hkept : ∀ k, l = some k → k.refs = 0 → S r) :
    ({m with heap := h} : Machine).Counted z Y S where
  config := hm.config
  bound := hm.bound
  swept := ht.swept.trans hm.swept
  pinned := hm.pinned
  typed s k hl := by
    rw [ht.live s] at hl
    split at hl
    · next heq =>
      subst s
      exact htyped k hl
    · exact hm.typed s k hl
  sound := hsound
  counts s := by
    have hheld : ({m with heap := h} : Machine).held = m.held := rfl
    rw [ht.refs_eq, hheld]
    by_cases hs : s = r
    · rw [if_pos hs, hs, hcount]
    · rw [if_neg hs, hm.counts, List.count_append, List.count_append, hother s hs]
  kept s k hl hz := by
    rw [ht.live s] at hl
    split at hl
    · next heq =>
      subst s
      exact hkept k hl hz
    · exact hm.kept s k hl hz
  named := hm.named
  room := hm.room
  bases := hm.bases

end Counted
end Machine

namespace Exec

open Machine

variable {z : Setting} {X : List Value} {S : Handle → Prop} {m : Machine} {v : Value}

theorem onHeap_ok {α : Type} {x : HeapM α} {a : α} {h : Heap} (hx : x m.heap = .ok a h) :
    onHeap x m = .ok a {m with heap := h} := by
  simp [onHeap, hx]

theorem onHeap_error {α : Type} {x : HeapM α} {e : HeapFault} {h : Heap}
    (hx : x m.heap = .error e h) : onHeap x m = .error (.heap e) {m with heap := h} := by
  simp [onHeap, hx]

/-- A value can be held once more, unless it is not live. -/
theorem retain_cases (hm : m.Counted z X S) (v : Value) :
    (∃ h, retain v m = .ok () {m with heap := h} ∧
      ({m with heap := h} : Machine).Counted z (v :: X) S) ∨
    ∃ r e, v = .object r ∧ m.heap.live? r = none ∧ retain v m = .error e m := by
  cases v with
  | object r =>
    cases hl : m.heap.live? r with
    | none => exact .inr ⟨r, _, rfl, hl, onHeap_error (Heap.retain_stale hl)⟩
    | some l =>
      obtain ⟨h, hok, hsound, ht⟩ := Heap.retain_ok hm.sound hl
      refine .inl ⟨h, onHeap_ok hok, hm.turn hsound ht ?_ ?_ ?_ ?_⟩
      · have hcount := hm.counts r
        rw [Heap.refs_of_live hl] at hcount
        simp [hcount]
      · intro s hs
        simp [Ne.symm hs]
      · intro k hk
        cases hk
        exact hm.typed r l hl
      · intro k hk hz
        cases hk
        simp at hz
  | none | number | bool =>
    exact .inl ⟨m.heap, rfl, hm.move rfl rfl hm.pinned rfl (by simp) hm.named hm.room hm.bases⟩

/-- A hold in transit can be given up. -/
theorem release_ok (hm : m.Counted z (v :: X) S) :
    ∃ h, Heap.releaseValue v m.heap = .ok () h ∧
      ({m with heap := h} : Machine).Counted z X S := by
  cases v with
  | object r =>
    obtain ⟨l, hl⟩ := hm.live_of_held (r := r) (by simp)
    have hcount := hm.counts r
    rw [Heap.refs_of_live hl] at hcount
    simp only [List.cons_append, List.count_cons_self, List.count_append] at hcount
    obtain ⟨last, h, hok, hsound, ht⟩ := Heap.release_ok hm.sound hl (by omega)
    have hrelease : Heap.releaseValue (.object r) m.heap = .ok () h := by
      simp [Heap.releaseValue, discard, Functor.mapConst, EStateM.map, hok]
    refine ⟨h, hrelease, hm.turn hsound ht ?_ ?_ ?_ ?_⟩
    · split <;> simp <;> omega
    · intro s hs
      simp [Ne.symm hs]
    · intro k hk
      split at hk
      · cases hk
      · cases hk
        exact hm.typed r l hl
    · intro k hk hz
      split at hk
      · cases hk
      · cases hk
        simp only at hz
        omega
  | none | number | bool =>
    exact ⟨m.heap, rfl, hm.move rfl rfl hm.pinned rfl (by simp) hm.named hm.room hm.bases⟩

/-- A hold in transit becomes one of the stack. -/
theorem counted_push (hm : m.Counted z (v :: X) S) (hroom : m.stack.size < z.config.stackCapacity) :
    ({m with stack := m.stack.push v} : Machine).Counted z X S := by
  refine hm.move rfl rfl hm.pinned rfl ?_ hm.named (by simp; omega) hm.bases
  intro r
  simp only [List.count_append, count_held, List.count_cons, Array.toList_push, List.count_nil]
  omega

/-- The top of the stack becomes a hold in transit. -/
theorem counted_pop (hm : m.Counted z X S) (hv : m.stack.back? = some v) :
    ({m with stack := m.stack.pop} : Machine).Counted z (v :: X) S := by
  have hsize := hm.room
  refine hm.move rfl rfl hm.pinned rfl ?_ hm.named (by simp; omega) hm.bases
  intro r
  obtain ⟨below, hstack⟩ := Array.back?_eq_some_iff.mp hv
  simp only [List.count_append, count_held, List.count_cons, hstack, Array.pop_push,
    Array.toList_push, List.count_nil]
  omega

/-- What only the heap can change. -/
def Aside (F : Machine → Prop) : Prop := ∀ m h, F m → F {m with heap := h}

/-- To hold a value once more settles it: it is held then, or it was not live. -/
theorem retain_yields {F : Machine → Prop} (hF : Aside F) (v : Value) :
    Yields (fun m => m.Counted z X (Loose S v) ∧ F m) (retain v)
      (fun _ m => m.Counted z (v :: X) S ∧ F m) (fun _ m => m.Counted z X S ∧ F m) := by
  rintro m ⟨hm, hf⟩
  rcases retain_cases hm v with ⟨h, hok, hh⟩ | ⟨r, e, rfl, hdead, herr⟩
  · rw [hok]
    refine ⟨hh.settle ?_, hF m h hf⟩
    rintro r rfl
    refine .inl ?_
    rw [hh.counts]
    simp
  · rw [herr]
    refine ⟨hm.settle ?_, hf⟩
    rintro s hs
    cases hs
    exact .inr hdead

theorem release_yields {F : Machine → Prop} (hF : Aside F) (v : Value) {E : Fault → Machine → Prop} :
    Yields (fun m => m.Counted z (v :: X) S ∧ F m) (release v)
      (fun _ m => m.Counted z X S ∧ F m) E := by
  rintro m ⟨hm, hf⟩
  obtain ⟨h, hok, hh⟩ := release_ok hm
  rw [release, onHeap_ok hok]
  exact ⟨hh, hF m h hf⟩

theorem retain_settles (v : Value) :
    Yields (Counted z X (Loose S v)) (retain v) (fun _ => Counted z (v :: X) S)
      (fun _ => Counted z X S) :=
  (retain_yields (F := fun _ => True) (fun _ _ h => h) v).mono (fun _ h => ⟨h, trivial⟩)
    (fun _ _ h => h.1) fun _ _ h => h.1

theorem release_transit (v : Value) {E : Fault → Machine → Prop} :
    Yields (Counted z (v :: X) S) (release v) (fun _ => Counted z X S) E :=
  (release_yields (F := fun _ => True) (fun _ _ h => h) v).mono (fun _ h => ⟨h, trivial⟩)
    (fun _ _ h => h.1) fun _ _ h => h

/-- A value that is not on the heap, or is live there. -/
def Live (v : Value) (m : Machine) : Prop := ∀ r, v = .object r → ∃ l, m.heap.live? r = some l

theorem retain_live {F : Machine → Prop} (hF : Aside F) (v : Value)
    {E : Fault → Machine → Prop} :
    Yields (fun m => m.Counted z X (Loose S v) ∧ Live v m ∧ F m) (retain v)
      (fun _ m => m.Counted z (v :: X) S ∧ F m) E := by
  intro m hm
  obtain ⟨hm, hlive, hf⟩ := hm
  have hretain := retain_yields (z := z) (X := X) (S := S) hF v m ⟨hm, hf⟩
  rcases retain_cases hm v with ⟨h, hok, hh⟩ | ⟨r, e, hr, hdead, herr⟩
  · rw [hok] at hretain ⊢
    exact hretain
  · obtain ⟨l, hl⟩ := hlive r hr
    simp [hl] at hdead

/-- A value in transit can be held once more. -/
theorem retain_transit {F : Machine → Prop} (hF : Aside F) (hv : v ∈ X)
    {E : Fault → Machine → Prop} :
    Yields (fun m => m.Counted z X S ∧ F m) (retain v)
      (fun _ m => m.Counted z (v :: X) S ∧ F m) E := by
  refine (retain_live hF v).mono ?_ (fun _ _ h => h) fun _ _ h => h
  intro m hm
  refine ⟨hm.1.loose v, ?_, hm.2⟩
  intro r hr
  exact hm.1.live_of_held (List.mem_append_left _ (hr ▸ hv))

theorem aside_size {P : Nat → Prop} : Aside fun m => P m.stack.size := fun _ _ h => h

/-- A push with room, after which `Q` holds if it held with the value in transit. -/
theorem push_of_retain {P : Machine → Prop} {Q : Machine → Prop} {E : Fault → Machine → Prop}
    (hp : ∀ m, P m → m.stack.size < m.config.stackCapacity)
    (hretain : Yields P (retain v) (fun _ m => Q {m with stack := m.stack.push v}) E) :
    Yields P (push v) (fun _ => Q) E := by
  apply Yields.get_bind
  intro s hs
  rw [if_pos (hp s hs)]
  exact Yields.start hs (Yields.bind hretain fun _ => Yields.modify fun m hm => hm)

/-- With room on the stack, a push settles the value. -/
theorem push_settles (v : Value) :
    Yields (fun m => m.Counted z X (Loose S v) ∧ m.stack.size < z.config.stackCapacity) (push v)
      (fun _ => Counted z X S) (fun _ => Counted z X S) := by
  apply push_of_retain
  · rintro m ⟨hm, hroom⟩
    rwa [hm.config]
  · exact (retain_yields (aside_size (P := (· < z.config.stackCapacity))) v).mono (fun _ h => h)
      (fun _ _ h => counted_push h.1 h.2) (fun _ _ h => h.1)

theorem push_transit (hv : v ∈ X) {E : Fault → Machine → Prop} :
    Yields (fun m => m.Counted z X S ∧ m.stack.size < z.config.stackCapacity) (push v)
      (fun _ => Counted z X S) E := by
  apply push_of_retain
  · rintro m ⟨hm, hroom⟩
    rwa [hm.config]
  · exact (retain_transit (aside_size (P := (· < z.config.stackCapacity))) hv).mono (fun _ h => h)
      (fun _ _ h => counted_push h.1 h.2) (fun _ _ h => h)

theorem push_full (h : m.config.stackCapacity ≤ m.stack.size) (v : Value) :
    push v m = .error (.stackOverflow m.config.stackCapacity) m := by
  change (if m.stack.size < m.config.stackCapacity then _ else _ : Exec Unit) m = _
  rw [if_neg (by omega)]
  rfl

instance (v : Value) : Keeps (Invariant (Counted z X S)) (push v) where
  keeps m hm := by
    by_cases hroom : m.stack.size < z.config.stackCapacity
    · exact (push_settles v).after ⟨hm.loose v, hroom⟩
    · rw [after_of_error (push_full (by rw [hm.config]; omega) v)]
      exact hm

/-- A pop of a stack that is not empty succeeds. -/
theorem pop_yields (n : Nat) {E : Fault → Machine → Prop} :
    Yields (fun m => m.Counted z X S ∧ m.stack.size = n+1) pop
      (fun _ m => m.Counted z X S ∧ m.stack.size = n) E := by
  apply Yields.get_bind
  rintro m ⟨hm, hsize⟩
  cases hv : m.stack.back? with
  | none => simp [Array.back?_eq_none_iff.mp hv] at hsize
  | some v =>
    refine Yields.bind
      (Yields.modify (Q := fun _ m => m.Counted z (v :: X) S ∧ m.stack.size = n) ?_)
      fun _ => release_yields (aside_size (P := (· = n))) v
    rintro _ rfl
    exact ⟨counted_pop hm hv, by simp [hsize]⟩

theorem pop_empty (h : m.stack.size = 0) : pop m = .error .stackUnderflow m := by
  have hnone : m.stack.back? = none := Array.back?_eq_none_iff.mpr (Array.size_eq_zero_iff.mp h)
  simp only [pop, bind, EStateM.bind, get, getThe, MonadStateOf.get, EStateM.get, hnone]
  rfl

instance : Keeps (Invariant (Counted z X S)) pop where
  keeps m hm := by
    cases hsize : m.stack.size with
    | zero =>
      rw [after_of_error (pop_empty hsize)]
      exact hm
    | succ n =>
      exact ((pop_yields n).mono (fun _ h => h) (fun _ _ h => h.1) fun _ _ h => h).after ⟨hm, hsize⟩

instance (v : Value) : Keeps (Invariant (Counted z X S)) (replaceTop v) := by
  unfold replaceTop
  infer_instance

/-- A value just made: on the heap it is live, and neither held nor pinned. -/
def Fresh (z : Setting) (v : Value) (m : Machine) : Prop :=
  ∀ r, v = .object r → ¬ z.pinned r ∧ ∃ o, m.heap.live? r = some ⟨0, o⟩

theorem Fresh.live (h : Fresh z v m) : Live v m := by
  intro r hr
  obtain ⟨_, o, ho⟩ := h r hr
  exact ⟨⟨0, o⟩, ho⟩

/-- A new object is the only one more that may go unheld. -/
theorem alloc_yields {F : Machine → Prop} (hF : Aside F) (o : Object)
    (ho : ∀ r, ¬ z.pinned r → z.typed r o) {E : Fault → Machine → Prop} :
    Yields (fun m => m.Counted z X S ∧ F m) (onHeap (Heap.alloc o))
      (fun r m => m.Counted z X (Loose S (.object r)) ∧ Fresh z (.object r) m ∧ F m) E := by
  intro m hm
  obtain ⟨hm, hf⟩ := hm
  obtain ⟨r, h, hok, hsound, hdead, ht⟩ := Heap.alloc_ok hm.sound o
  rw [onHeap_ok hok]
  -- a pinned handle is held by a pool, and so it is not dead
  have hfree : ¬ z.pinned r := by
    intro hpinned
    have hheld : .object r ∈ m.held := List.mem_append_right _ (hm.pinned r hpinned)
    obtain ⟨l, hl⟩ := hm.live_of_held (List.mem_append_right _ hheld)
    simp [hl] at hdead
  have hfresh : Fresh z (.object r) {m with heap := h} := by
    intro s hs
    cases hs
    exact ⟨hfree, o, by rw [ht.live r, if_pos rfl]⟩
  refine ⟨(hm.loose (.object r)).turn hsound ht ?_ (fun _ _ => rfl) ?_ ?_, hfresh, hF m h hf⟩
  · have hcount := hm.counts r
    rw [Heap.refs_of_dead hdead] at hcount
    exact hcount
  · intro k hk
    cases hk
    exact ho r hfree
  · exact fun _ _ _ => .inr rfl

theorem newText_yields {F : Machine → Prop} (hF : Aside F) (content : String)
    {E : Fault → Machine → Prop} :
    Yields (fun m => m.Counted z X S ∧ F m) (newText content)
      (fun v m => m.Counted z X (Loose S v) ∧ Fresh z v m ∧ F m) E :=
  Yields.bind (alloc_yields hF _ fun r => z.texts r content) fun _ => Yields.pure fun _ h => h

instance (content : String) : Keeps (Invariant (Counted z X S)) (pushText content) := by
  apply Yields.keeps
  apply Yields.get_bind
  intro m hm
  split
  · next hroom =>
    refine Yields.start ⟨hm, ?_⟩ (Yields.bind
      (newText_yields (aside_size (P := (· < z.config.stackCapacity))) content)
      fun v => (push_settles v).mono (fun _ h => ⟨h.1, h.2.2⟩) (fun _ _ h => h) fun _ _ h => h)
    rwa [hm.config] at hroom
  · exact Yields.start hm (Yields.throw fun _ h => h)

/-- Popping down to a height succeeds. -/
theorem popTo_yields (base : Nat) {E : Fault → Machine → Prop} :
    ∀ count, Yields (fun m => m.Counted z X S ∧ m.stack.size ≤ base+count) (popTo base count)
      (fun _ m => m.Counted z X S ∧ m.stack.size ≤ base) E
  | 0 => Yields.pure fun _ h => h
  | count+1 => by
    apply Yields.get_bind
    rintro m ⟨hm, hsize⟩
    split
    · next hlt =>
      obtain ⟨n, hn⟩ : ∃ n, m.stack.size = n+1 := ⟨m.stack.size-1, by omega⟩
      have hpop := pop_yields (z := z) (X := X) (S := S) n (E := E)
      refine Yields.start ⟨hm, hn⟩ (Yields.bind hpop fun _ => ?_)
      refine (popTo_yields base count).mono ?_ (fun _ _ h => h) fun _ _ h => h
      rintro m' ⟨hm', hn'⟩
      exact ⟨hm', by omega⟩
    · next hge => exact Yields.start ⟨hm, by omega⟩ (Yields.pure fun _ h => h)

/-- Above a base with room, a value that can be held takes the place of all cells. -/
theorem collapse_of_retain {base : Nat} (hbase : base < z.config.stackCapacity) {v : Value}
    {P : Machine → Prop} {E : Fault → Machine → Prop}
    (hretain : Yields P (retain v) (fun _ => Counted z (v :: X) S) E) :
    Yields P (collapse base v) (fun _ => Counted z X S) E := by
  refine Yields.bind hretain fun _ => ?_
  apply Yields.get_bind
  intro m hm
  refine Yields.start (P := fun m' => m'.Counted z (v :: X) S ∧ m'.stack.size ≤ base+m.stack.size)
    ⟨hm, by omega⟩ (Yields.bind (popTo_yields base _) fun _ => ?_)
  refine Yields.bind (Q := fun _ => Counted z (v :: X) S) ?_ fun _ => ?_
  · refine (push_transit (by simp)).mono ?_ (fun _ _ h => h) fun _ _ h => h
    rintro m' ⟨hm', hsize⟩
    exact ⟨hm', by omega⟩
  · exact release_transit v

theorem collapse_yields {base : Nat} (hbase : base < z.config.stackCapacity) (v : Value) :
    Yields (Counted z X S) (collapse base v) (fun _ => Counted z X S) (fun _ => Counted z X S) :=
  collapse_of_retain hbase ((retain_settles v).mono (fun _ h => h.loose v) (fun _ _ h => h)
    fun _ _ h => h)

end Exec
end RatScript
