import RatScript.Proofs.Machine.Reload
import RatScript.Proofs.Meaning.Interpreter

/-!
What a machine shows of its values: the contents of its globals and of its stack. Holds and handles
are behind them; as long as counts are exact, a value keeps its content while something holds it.
-/

namespace RatScript

open Stateful

namespace Heap

/-- An object that is live in both heaps is the same. -/
def Agrees (h h' : Heap) : Prop :=
  ∀ r l l', h.live? r = some l → h'.live? r = some l' → l'.object = l.object

variable {h h' : Heap} {r : Handle} {v : Value} {c : Content}

theorem Agrees.refl (h : Heap) : h.Agrees h := by
  intro r l l' hl hl'
  rw [hl] at hl'
  cases hl'
  rfl

theorem agrees_of_turns {l : Option Live} (ht : h.Turns r l h')
    (hl : ∀ k k', h.live? r = some k → l = some k' → k'.object = k.object) : h.Agrees h' := by
  intro s k k' hk hk'
  rw [ht.live s] at hk'
  split at hk'
  · next heq =>
    subst s
    exact hl k k' hk hk'
  · rw [hk] at hk'
    cases hk'
    rfl

theorem agrees_of_retain (hs : h.Sound) (hok : retainValue v h = .ok () h') : h.Agrees h' := by
  cases v with
  | object r =>
    cases hl : h.live? r with
    | none =>
      rw [retainValue, retain_stale hl] at hok
      cases hok
    | some l =>
      obtain ⟨_, hok', _, ht⟩ := retain_ok hs hl
      rw [retainValue, hok'] at hok
      cases hok
      refine agrees_of_turns ht ?_
      intro k k' hk hk'
      rw [hl] at hk
      cases hk
      cases hk'
      rfl
  | none | number | bool =>
    cases hok
    exact .refl h

theorem agrees_of_release (hs : h.Sound) (hok : releaseValue v h = .ok () h') : h.Agrees h' := by
  cases v with
  | object r =>
    obtain ⟨l, k, hl, _, ht, hsame⟩ := turns_of_release hs hok
    refine agrees_of_turns ht ?_
    intro j j' hj hj'
    rw [hl] at hj
    cases hj
    exact hsame j' hj'
  | none | number | bool =>
    cases hok
    exact .refl h

/-- A value that is live later keeps its content. -/
theorem Agrees.content? (ha : h.Agrees h') (hv : h.content? v = some c)
    (hlive : ∀ r, v = .object r → ∃ l, h'.live? r = some l) : h'.content? v = some c := by
  cases v with
  | object r =>
    obtain ⟨o, ho, rfl⟩ := Option.map_eq_some_iff.mp hv
    obtain ⟨l, hl, rfl⟩ := Option.map_eq_some_iff.mp ho
    obtain ⟨l', hl'⟩ := hlive r rfl
    simp only [content?, object?, hl', Option.map_some, ha r l l' hl hl']
  | none | number | bool => exact hv

theorem live_of_content? (hv : h.content? (.object r) = some c) : ∃ l, h.live? r = some l := by
  obtain ⟨o, ho, _⟩ := Option.map_eq_some_iff.mp hv
  obtain ⟨l, hl, _⟩ := Option.map_eq_some_iff.mp ho
  exact ⟨l, hl⟩

/-- What a constant stands for. -/
theorem content?_of_matches {k : Constant} (hm : h.Matches v k) :
    match k with
    | .number x => h.content? v = some (.number x)
    | .text content => h.content? v = some (.text content)
    | .runnable id => ∃ r name, h.content? v = some (.runnable r id name) := by
  cases k with
  | number x =>
    cases hm
    rfl
  | text content =>
    obtain ⟨r, rfl, ho⟩ := hm
    simp [content?, ho, Content.ofObject]
  | runnable id =>
    obtain ⟨r, name, rfl, ho⟩ := hm
    exact ⟨r, name, by simp [content?, ho, Content.ofObject]⟩

theorem Agrees.matches {k : Constant} (ha : h.Agrees h') (hm : h.Matches v k)
    (hlive : ∀ r, v = .object r → ∃ l, h'.live? r = some l) : h'.Matches v k := by
  have hobject (r : Handle) (o : Object) (hr : v = .object r) (ho : h.object? r = some o) :
      h'.object? r = some o := by
    obtain ⟨l, hl, rfl⟩ := Option.map_eq_some_iff.mp ho
    obtain ⟨l', hl'⟩ := hlive r hr
    simp only [object?, hl', Option.map_some, ha r l l' hl hl']
  cases k with
  | number x => exact hm
  | text content =>
    obtain ⟨r, hr, ho⟩ := hm
    exact ⟨r, hr, hobject r _ hr ho⟩
  | runnable id =>
    obtain ⟨r, name, hr, ho⟩ := hm
    exact ⟨r, name, hr, hobject r _ hr ho⟩

end Heap

namespace Machine

/-- Globals and what the script sees of the world are as the store says. -/
structure Presents (σ : Store) (m : Machine) : Prop where
  globals : ∀ x, (m.globals.get? x).map m.heap.content? = (σ.globals x).map some
  input : m.world.input = σ.input
  output : m.world.output = σ.output
  files : m.world.files = σ.files

/-- Values with their contents, while a program with its pools is run: those in transit are held besides, a loose one is not held yet. -/
structure Amid (p : Program) (P : Array (Array Value)) (z : Setting) (transit : List (Value × Content))
    (loose : Option (Value × Content)) (σ : Store) (st : List Content) (frames : List Frame)
    (m : Machine) : Prop extends m.Presents σ where
  counted : m.Counted z (transit.map Prod.fst) fun _ => True
  stack : m.stack.toList.map m.heap.content? = st.map some
  transit : ∀ e ∈ transit, m.heap.content? e.1 = some e.2
  loose : ∀ e ∈ loose, m.heap.content? e.1 = some e.2 ∧
    ∀ r, e.1 = .object r → m.heap.refs r = 0
  image : m.pools = P
  pools : List.Forall₂ m.heap.Pools P.toList p.functions.toList
  frames : m.frames = frames
  /-- A trace has all the room it needs. -/
  traced : m.config.trace = true → m.world.diagnostics.limit = none

/-- Between two instructions: the contents of the stack, from the bottom up, and the calls. -/
abbrev Shows (p : Program) (P : Array (Array Value)) (z : Setting) (σ : Store) (st : List Content)
    (frames : List Frame) (m : Machine) : Prop := m.Amid p P z [] none σ st frames

variable {p : Program} {P : Array (Array Value)} {z : Setting} {T U : List (Value × Content)}
  {l : Option (Value × Content)} {σ : Store} {st : List Content} {fs : List Frame} {m m' : Machine} {v w : Value} {c d : Content}

namespace Amid

/-- Values of the machine keep their contents while holds change. -/
theorem turn {h : Heap} (hm : m.Amid p P z T l σ st fs)
    (hcounted : ({m with heap := h} : Machine).Counted z (U.map Prod.fst) fun _ => True)
    (hagrees : m.heap.Agrees h) (htransit : ∀ e ∈ U, m.heap.content? e.1 = some e.2)
    {k : Option (Value × Content)}
    (hloose : ∀ e ∈ k, h.content? e.1 = some e.2 ∧ ∀ r, e.1 = .object r → h.refs r = 0) :
    ({m with heap := h} : Machine).Amid p P z U k σ st fs := by
  have hlive {v : Value} (hv : v ∈ U.map Prod.fst++m.held) (r : Handle) (hr : v = .object r) :
      ∃ l, h.live? r = some l :=
    hcounted.live_of_held (hr ▸ hv)
  have hcontent {v : Value} (hv : v ∈ m.held) (o : Option Content)
      (ho : m.heap.content? v = o) (hsome : o.isSome) : h.content? v = o := by
    obtain ⟨c, rfl⟩ := Option.isSome_iff_exists.mp hsome
    exact hagrees.content? ho (hlive (List.mem_append_right _ hv))
  refine ⟨⟨?_, hm.input, hm.output, hm.files⟩, hcounted, ?_, ?_, hloose, hm.image, ?_,
    hm.frames, hm.traced⟩
  · intro x
    have hx := hm.globals x
    cases hg : m.globals.get? x with
    | none => simpa [hg] using hx
    | some v =>
      have hmem : v ∈ m.held := by
        have hb : (x, v) ∈ m.globals.bindings := by
          obtain ⟨before, after, hsplit, _⟩ := List.lookup_eq_some_iff.mp hg
          simp [hsplit]
        exact List.mem_append_left _ (List.mem_append_right _ (List.mem_map_of_mem hb))
      rw [hg, Option.map_some] at hx
      rw [Option.map_some, ← hx]
      cases hσ : σ.globals x with
      | none => simp [hσ] at hx
      | some c =>
        rw [hσ, Option.map_some] at hx
        rw [hcontent hmem _ rfl (by rw [Option.some.inj hx]; rfl)]
  · rw [← hm.stack]
    refine List.map_congr_left fun v hv => ?_
    have hmem : v ∈ m.held := List.mem_append_left _ (List.mem_append_left _ hv)
    have hsome : m.heap.content? v ∈ st.map some := hm.stack ▸ List.mem_map_of_mem hv
    obtain ⟨c, _, hc⟩ := List.mem_map.mp hsome
    exact hcontent hmem _ rfl (by rw [← hc]; rfl)
  · intro e he
    exact hagrees.content? (htransit e he)
      (hlive (List.mem_append_left _ (List.mem_map_of_mem he)))
  · have hpool {pool : Array Value} {f : Function} (hin : pool ∈ P.toList)
        (hpool : m.heap.Pools pool f) : h.Pools pool f := by
      have hboth := (List.forall₂_and_left _ _).mpr ⟨fun v hv => hv, hpool⟩
      refine hboth.imp fun v k hk => hagrees.matches hk.2 (hlive ?_)
      refine List.mem_append_right _ (List.mem_append_right _ ?_)
      exact List.mem_flatMap.mpr ⟨pool, by rw [hm.image]; exact hin, hk.1⟩
    have hboth := (List.forall₂_and_left _ _).mpr ⟨fun pool hin => hin, hm.pools⟩
    exact hboth.imp fun pool f hf => hpool hf.1 hf.2

/-- Other parts of the machine change, and values go from one place to another. -/
theorem move (hm : m.Amid p P z T l σ st fs) {σ' : Store} {st' : List Content} {fs' : List Frame}
    (hcounted : m'.Counted z (U.map Prod.fst) fun _ => True) (hheap : m'.heap = m.heap)
    (hpools : m'.pools = m.pools) (hpresents : m'.Presents σ')
    (hstack : m'.stack.toList.map m'.heap.content? = st'.map some)
    (htransit : ∀ e ∈ U, m.heap.content? e.1 = some e.2) (hframes : m'.frames = fs')
    (htraced : m'.config.trace = true → m'.world.diagnostics.limit = none) :
    m'.Amid p P z U l σ' st' fs' where
  toPresents := hpresents
  counted := hcounted
  stack := hstack
  transit := hheap ▸ htransit
  loose := hheap ▸ hm.loose
  image := hpools.trans hm.image
  pools := by
    rw [hheap]
    exact hm.pools
  frames := hframes
  traced := htraced

theorem length_eq (hm : m.Amid p P z T l σ st fs) : m.stack.size = st.length := by
  have h := congrArg List.length hm.stack
  simpa using h

theorem content?_getElem? (hm : m.Amid p P z T l σ st fs) {i : Nat} (hi : st[i]? = some c) :
    ∃ v, m.stack[i]? = some v ∧ m.heap.content? v = some c := by
  have h := congrArg (·[i]?) hm.stack
  simp only [List.getElem?_map, hi, Option.map_some, Array.getElem?_toList] at h
  obtain ⟨v, hv, hc⟩ := Option.map_eq_some_iff.mp h
  exact ⟨v, hv, hc⟩

theorem room (hm : m.Amid p P z T l σ st fs) : st.length ≤ z.config.stackCapacity :=
  hm.length_eq ▸ hm.counted.room

end Amid

theorem Presents.get? (hm : m.Presents σ) (x : String) :
    match σ.globals x with
    | some c => ∃ v, m.globals.get? x = some v ∧ m.heap.content? v = some c
    | none => m.globals.get? x = none := by
  have h := hm.globals x
  cases hx : σ.globals x with
  | some c =>
    rw [hx, Option.map_some] at h
    exact Option.map_eq_some_iff.mp h
  | none => simpa [hx] using h

end Machine

namespace Exec

open Machine

variable {p : Program} {P : Array (Array Value)} {z : Setting} {T : List (Value × Content)}
  {l : Option (Value × Content)} {σ : Store} {st : List Content} {fs : List Frame} {m : Machine} {v : Value} {c d : Content}

/-! Holds. -/

theorem onHeap_eq_ok {α : Type} {x : HeapM α} {a : α} {h : Heap}
    (hx : onHeap x m = .ok a {m with heap := h}) : x m.heap = .ok a h := by
  unfold onHeap at hx
  cases hr : x m.heap with
  | ok b k =>
    simp only [hr, EStateM.Result.ok.injEq, Machine.mk.injEq] at hx
    simp [hx]
  | error e k => simp [hr] at hx

theorem retain_shows (hm : m.Amid p P z T l σ st fs) (hv : m.heap.content? v = some c) :
    ∃ h, retain v m = .ok () {m with heap := h} ∧
      ({m with heap := h} : Machine).Amid p P z ((v, c) :: T) none σ st fs := by
  rcases retain_cases hm.counted v with ⟨h, hok, hcounted⟩ | ⟨r, _, rfl, hdead, _⟩
  · refine ⟨h, hok, hm.turn (U := (v, c) :: T) hcounted
      (Heap.agrees_of_retain hm.counted.sound (onHeap_eq_ok hok)) ?_ (by simp)⟩
    intro e he
    rcases List.mem_cons.mp he with rfl | he
    · exact hv
    · exact hm.transit e he
  · obtain ⟨k, hk⟩ := Heap.live_of_content? hv
    simp [hdead] at hk

theorem release_shows (hm : m.Amid p P z ((v, c) :: T) l σ st fs) :
    ∃ h, release v m = .ok () {m with heap := h} ∧
      ({m with heap := h} : Machine).Amid p P z T l σ st fs := by
  obtain ⟨h, hok, hcounted⟩ := release_ok hm.counted
  refine ⟨h, onHeap_ok hok, hm.turn hcounted (Heap.agrees_of_release hm.counted.sound hok)
    (fun e he => hm.transit e (List.mem_cons_of_mem _ he)) ?_⟩
  intro e he
  obtain ⟨hcontent, hrefs⟩ := hm.loose e he
  -- what is given up was held, so it is not the loose value
  have hsame (s : Handle) (hs : e.1 = .object s) : h.live? s = m.heap.live? s := by
    cases v with
    | object r =>
      obtain ⟨k, _, hk, hpos, ht, _⟩ := Heap.turns_of_release hm.counted.sound hok
      have hne : s ≠ r := by
        rintro rfl
        have hzero := hrefs s hs
        rw [Heap.refs_of_live hk] at hzero
        omega
      rw [ht.live s, if_neg hne]
    | none | number | bool =>
      cases hok
      rfl
  constructor
  · refine (Heap.agrees_of_release hm.counted.sound hok).content? hcontent ?_
    intro s hs
    rw [hsame s hs]
    exact Heap.live_of_content? (hs ▸ hcontent)
  · intro s hs
    rw [← hrefs s hs]
    simp only [Heap.refs, Heap.refs?, hsame s hs]

/-! The stack. -/

theorem pushed_shows (hm : m.Amid p P z ((v, c) :: T) l σ st fs)
    (hroom : st.length < z.config.stackCapacity) :
    ({m with stack := m.stack.push v} : Machine).Amid p P z T l σ (st++[c]) fs := by
  refine hm.move (counted_push hm.counted (hm.length_eq ▸ hroom)) rfl rfl
    ⟨hm.globals, hm.input, hm.output, hm.files⟩ ?_
    (fun e he => hm.transit e (List.mem_cons_of_mem _ he)) hm.frames hm.traced
  simp [hm.stack, hm.transit (v, c) (by simp)]

theorem popped_shows (hm : m.Amid p P z T l σ (st++[c]) fs) :
    ∃ v, m.stack.back? = some v ∧
      ({m with stack := m.stack.pop} : Machine).Amid p P z ((v, c) :: T) l σ st fs := by
  obtain ⟨v, hv, hc⟩ := hm.content?_getElem? (i := st.length) (c := c) (by simp)
  have hback : m.stack.back? = some v := by
    rw [Array.back?_eq_getElem?, hm.length_eq]
    simpa using hv
  refine ⟨v, hback, hm.move (U := (v, c) :: T) (counted_pop hm.counted hback) rfl rfl
    ⟨hm.globals, hm.input, hm.output, hm.files⟩ ?_ ?_ hm.frames hm.traced⟩
  · obtain ⟨below, hstack⟩ := Array.back?_eq_some_iff.mp hback
    have hcells := hm.stack
    simp only [hstack, Array.toList_push, List.map_append] at hcells
    simp only [hstack, Array.pop_push]
    exact (List.append_inj' hcells rfl).1
  · intro e he
    rcases List.mem_cons.mp he with rfl | he
    · exact hc
    · exact hm.transit e he

theorem push_shows (hm : m.Amid p P z T l σ st fs) (hv : m.heap.content? v = some c)
    (hroom : st.length < z.config.stackCapacity) :
    ∃ m', push v m = .ok () m' ∧ m'.Amid p P z T none σ (st++[c]) fs := by
  obtain ⟨h, hretain, hm'⟩ := retain_shows hm hv
  refine ⟨_, ?_, pushed_shows hm' hroom⟩
  have hlt : m.stack.size < m.config.stackCapacity := by
    rwa [hm.length_eq, hm.counted.config]
  simp only [push, bind, EStateM.bind, get, getThe, MonadStateOf.get, EStateM.get, hlt, if_true,
    hretain]
  rfl

/-- A pop leaves everything else where it is. -/
theorem pop_shows (hm : m.Amid p P z T l σ (st++[c]) fs) :
    ∃ h, pop m = .ok () {m with stack := m.stack.pop, heap := h} ∧
      ({m with stack := m.stack.pop, heap := h} : Machine).Amid p P z T l σ st fs := by
  obtain ⟨v, hback, hm'⟩ := popped_shows hm
  obtain ⟨h, hrelease, hm''⟩ := release_shows hm'
  refine ⟨h, ?_, hm''⟩
  simp only [pop, bind, EStateM.bind, get, getThe, MonadStateOf.get, EStateM.get, hback, modify,
    modifyGet, MonadStateOf.modifyGet, EStateM.modifyGet, hrelease]

theorem peek_shows (hm : m.Amid p P z T l σ st fs) {distance : Nat} (hlt : distance < st.length)
    (hc : st[st.length-1-distance]? = some c) :
    ∃ v, peek distance m = .ok v m ∧ m.heap.content? v = some c := by
  obtain ⟨v, hv, hcontent⟩ := hm.content?_getElem? hc
  refine ⟨v, ?_, hcontent⟩
  simp [peek, bind, EStateM.bind, get, getThe, MonadStateOf.get, EStateM.get, hm.length_eq, hlt, hv,
    pure, EStateM.pure]

/-- The value on top. -/
theorem top_shows (hm : m.Amid p P z T l σ (st++[c]) fs) :
    ∃ v, peek 0 m = .ok v m ∧ m.heap.content? v = some c :=
  peek_shows hm (by simp) (by simp)

/-- The two values on top. -/
theorem both_shows (hm : m.Amid p P z T l σ (st++[c, d]) fs) :
    ∃ v w, peek 1 m = .ok v m ∧ peek 0 m = .ok w m ∧ m.heap.content? v = some c ∧
      m.heap.content? w = some d := by
  obtain ⟨v, hpeek, hv⟩ : ∃ v, peek 1 m = .ok v m ∧ m.heap.content? v = some c :=
    peek_shows hm (by simp) (by simp)
  obtain ⟨w, hpeek', hw⟩ : ∃ w, peek 0 m = .ok w m ∧ m.heap.content? w = some d :=
    peek_shows hm (by simp) (by simp)
  exact ⟨v, w, hpeek, hpeek', hv, hw⟩

end Exec
end RatScript
