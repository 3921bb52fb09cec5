import Mathlib
import RatScript.Proofs.Machine.Loading
import RatScript.Proofs.Machine.Poised

/-!
How a program gets its constants. That only adds to the heap: the pools hold the constants in their
order, and where no global holds a runnable, all runnables are in the pools.
-/

namespace RatScript

open Stateful

namespace Heap

/-- Objects stay under their handles. -/
def Grows (h h' : Heap) : Prop := ∀ r o, h.object? r = some o → h'.object? r = some o

theorem grows_of_turns {h h' : Heap} {r : Handle} {l : Live} (ht : h.Turns r (some l) h')
    (hl : ∀ k, h.live? r = some k → k.object = l.object) : h.Grows h' := by
  intro s o ho
  simp only [object?, ht.live s] at ho ⊢
  split
  · next heq =>
    subst s
    obtain ⟨k, hk, hobject⟩ := Option.map_eq_some_iff.mp ho
    rw [Option.map_some, ← hl k hk, hobject]
  · exact ho

/-- The value that a constant was made into. -/
def Matches (h : Heap) (v : Value) : Constant → Prop
  | .number x => v = .number x
  | .text content => ∃ r, v = .object r ∧ h.object? r = some (.text content)
  | .runnable id => ∃ r name, v = .object r ∧ h.object? r = some (.runnable id name)

theorem Matches.grow {h h' : Heap} {v : Value} {k : Constant} (hg : h.Grows h')
    (hm : h.Matches v k) : h'.Matches v k := by
  cases k with
  | number x => exact hm
  | text content =>
    obtain ⟨r, hr, ho⟩ := hm
    exact ⟨r, hr, hg r _ ho⟩
  | runnable id =>
    obtain ⟨r, name, hr, ho⟩ := hm
    exact ⟨r, name, hr, hg r _ ho⟩

/-- A pool with the constants of a function. -/
def Pools (h : Heap) (pool : Array Value) (f : Function) : Prop :=
  List.Forall₂ h.Matches pool.toList f.chunk.constants.toList

end Heap

namespace Exec

open Machine

variable {F : Machine → Prop}

/-- What stays true while the heap grows. -/
def Lasting (F : Machine → Prop) : Prop :=
  ∀ m h, m.heap.Grows h → F m → F {m with heap := h}

/-- Succeeds on a machine with a sound heap as described, or fails. -/
def Opens {α : Type} (P : Machine → Prop) (x : Exec α) (Q : α → Machine → Prop) : Prop :=
  Yields (fun m => m.heap.Sound ∧ P m) x (fun a m => m.heap.Sound ∧ Q a m) fun _ _ => True

theorem alloc_opens (hF : Lasting F) (o : Object) :
    Opens F (onHeap (Heap.alloc o)) fun r m => m.heap.object? r = some o ∧ F m := by
  intro m hm
  obtain ⟨hm, hf⟩ := hm
  obtain ⟨r, h, hok, hsound, hdead, ht⟩ := Heap.alloc_ok hm o
  have hg : m.heap.Grows h := Heap.grows_of_turns ht fun k hk => by simp [hdead] at hk
  rw [onHeap_ok hok]
  refine ⟨hsound, ?_, hF m h hg hf⟩
  simp [Heap.object?, ht.live r]

theorem retain_opens (hF : Lasting F) (v : Value) : Opens F (retain v) fun _ => F := by
  intro m hm
  obtain ⟨hm, hf⟩ := hm
  cases v with
  | object r =>
    cases hl : m.heap.live? r with
    | none =>
      have hretain : retain (.object r) m = .error _ m := onHeap_error (Heap.retain_stale hl)
      rw [hretain]
      trivial
    | some l =>
      obtain ⟨h, hok, hsound, ht⟩ := Heap.retain_ok hm hl
      have hg : m.heap.Grows h := Heap.grows_of_turns ht fun k hk => by
        rw [hl] at hk
        cases hk
        rfl
      have hretain : retain (.object r) m = .ok () {m with heap := h} := onHeap_ok hok
      rw [hretain]
      exact ⟨hsound, hF m h hg hf⟩
  | none | number | bool => exact ⟨hm, hf⟩

namespace Opens

variable {α β : Type} {P : Machine → Prop} {Q : α → Machine → Prop} {R : β → Machine → Prop}

theorem bind {x : Exec α} {f : α → Exec β} (hx : Opens P x Q) (hf : ∀ a, Opens (Q a) (f a) R) :
    Opens P (x >>= f) R :=
  Yields.bind hx hf

theorem pure {a : α} (h : ∀ m, P m → Q a m) : Opens P (pure a) Q :=
  Yields.pure fun m hm => ⟨hm.1, h m hm.2⟩

theorem modify {f : Machine → Machine} {Q : PUnit → Machine → Prop}
    (hheap : ∀ m, (f m).heap = m.heap) (h : ∀ m, P m → Q ⟨⟩ (f m)) : Opens P (modify f) Q :=
  Yields.modify fun m hm => ⟨(hheap m).symm ▸ hm.1, h m hm.2⟩

end Opens

theorem newConstant_opens (p : Program) (hF : Lasting F) (k : Constant) :
    Opens F (newConstant p k) fun v m => m.heap.Matches v k ∧ F m := by
  cases k with
  | number x => exact Opens.pure fun _ h => ⟨rfl, h⟩
  | text content =>
    exact Opens.bind (alloc_opens hF _) fun r => Opens.pure fun _ h => ⟨⟨r, rfl, h.1⟩, h.2⟩
  | runnable id =>
    cases hid : p.function? id with
    | none =>
      simp only [newConstant, hid]
      exact Yields.throw fun _ _ => trivial
    | some f =>
      simp only [newConstant, hid]
      exact Opens.bind (alloc_opens hF _) fun r =>
        Opens.pure fun _ h => ⟨⟨r, f.name, rfl, h.1⟩, h.2⟩

/-- A pool gets the constants in their order. -/
theorem newPool_opens (p : Program) (hF : Lasting F) (constants : List Constant) :
    ∀ (found : Array Value) (done : List Constant),
      Opens (fun m => List.Forall₂ m.heap.Matches found.toList done ∧ F m)
        (newPool p found constants)
        fun pool m => List.Forall₂ m.heap.Matches pool.toList (done++constants) ∧ F m := by
  induction constants with
  | nil =>
    intro found done
    rw [List.append_nil]
    exact Opens.pure fun _ h => h
  | cons k rest ih =>
    intro found done
    have hfound : Lasting fun m => List.Forall₂ m.heap.Matches found.toList done ∧ F m :=
      fun m h hg hm => ⟨hm.1.imp fun _ _ => Heap.Matches.grow hg, hF m h hg hm.2⟩
    have hmade (v : Value) : Lasting fun m => m.heap.Matches v k ∧
        List.Forall₂ m.heap.Matches found.toList done ∧ F m :=
      fun m h hg hm => ⟨hm.1.grow hg, hfound m h hg hm.2⟩
    refine Opens.bind (newConstant_opens p hfound k) fun v =>
      Opens.bind (retain_opens (hmade v) v) fun _ => ?_
    have hrest := ih (found.push v) (done++[k])
    rw [List.append_assoc] at hrest
    refine hrest.mono ?_ (fun _ _ h => h) fun _ _ h => h
    intro m hm
    obtain ⟨hm, hv, hdone, hf⟩ := hm
    refine ⟨hm, ?_, hf⟩
    rw [Array.toList_push]
    exact List.rel_append hdone (.cons hv .nil)

/-- Pools get the constants of their functions. -/
theorem loadConstants_opens (p : Program) (hF : Lasting F)
    (hpools : ∀ m pools, F m → F {m with pools := pools}) (functions : List Function) :
    ∀ done : List Function,
      Opens (fun m => List.Forall₂ m.heap.Pools m.pools.toList done ∧ F m)
        (loadConstants p functions)
        fun _ m => List.Forall₂ m.heap.Pools m.pools.toList (done++functions) ∧ F m := by
  have hlasting (done : List Function) :
      Lasting fun m => List.Forall₂ m.heap.Pools m.pools.toList done ∧ F m :=
    fun m h hg hm =>
      ⟨hm.1.imp fun _ _ hpool => hpool.imp fun _ _ => Heap.Matches.grow hg, hF m h hg hm.2⟩
  induction functions with
  | nil =>
    intro done
    rw [List.append_nil]
    exact Opens.pure fun _ h => h
  | cons f rest ih =>
    intro done
    have hpool := newPool_opens p (hlasting done) f.chunk.constants.toList #[] []
    refine Opens.bind (hpool.mono (fun m hm => ⟨hm.1, .nil, hm.2⟩) (fun _ _ h => h)
      fun _ _ h => h) fun pool => Opens.bind (Opens.modify (fun _ => rfl) ?_) fun _ =>
        (List.append_assoc done [f] rest ▸ ih (done++[f]) :)
    intro m hm
    refine ⟨?_, hpools m _ hm.2.2⟩
    simp only [Array.toList_push]
    exact List.rel_append hm.2.1 (.cons hm.1 .nil)

end Exec

namespace Machine

/-- What is settled once a program is loaded: the constants in the pools. No other object is a
runnable. -/
def settled (m : Machine) : Setting where
  config := m.config
  bound := m.nativesBound
  swept := m.heap.stats.swept
  pinned r := .object r ∈ m.pools.toList.flatMap Array.toList
  typed r o := (.object r ∈ m.pools.toList.flatMap Array.toList → m.heap.object? r = some o) ∧
    (.object r ∉ m.pools.toList.flatMap Array.toList → ∀ id name, o ≠ .runnable id name)
  texts _ _ hr := ⟨fun h => absurd h hr, fun _ _ _ h => by cases h⟩

variable {m : Machine} {p : Program}

theorem means_of_matches {v : Value} {k : Constant}
    (hv : v ∈ m.pools.toList.flatMap Array.toList) (hk : m.heap.Matches v k) :
    m.settled.Means v k := by
  cases k with
  | number x => exact hk
  | text content =>
    obtain ⟨r, rfl, ho⟩ := hk
    refine ⟨r, rfl, fun o htyped => ⟨content, ?_⟩⟩
    have h := htyped.1 hv
    rw [ho] at h
    exact (Option.some.inj h).symm
  | runnable id =>
    obtain ⟨r, name, rfl, ho⟩ := hk
    refine ⟨r, rfl, fun o htyped => ⟨name, ?_⟩⟩
    have h := htyped.1 hv
    rw [ho] at h
    exact (Option.some.inj h).symm

theorem exists_getElem? {α β : Type} {R : α → β → Prop} {xs : List α} {ys : List β} {i : Nat} {y : β}
    (h : List.Forall₂ R xs ys) (hy : ys[i]? = some y) : ∃ x, xs[i]? = some x ∧ R x y := by
  induction h generalizing i with
  | nil => simp at hy
  | cons hxy _ ih =>
    cases i with
    | zero =>
      cases hy
      exact ⟨_, rfl, hxy⟩
    | succ i => exact ih (by simpa using hy)

/-- Every value of a pool is a constant of the program. -/
theorem constant_of_pools
    (hpools : List.Forall₂ m.heap.Pools m.pools.toList p.functions.toList) {v : Value}
    (hv : v ∈ m.pools.toList.flatMap Array.toList) :
    ∃ f ∈ p.functions.toList, ∃ k ∈ f.chunk.constants.toList, m.heap.Matches v k := by
  obtain ⟨pool, hpool, hv⟩ := List.mem_flatMap.mp hv
  obtain ⟨i, hi⟩ := List.mem_iff_getElem?.mp hpool
  obtain ⟨f, hf, hmatches⟩ := exists_getElem? (List.Forall₂.flip hpools) hi
  obtain ⟨j, hj⟩ := List.mem_iff_getElem?.mp hv
  obtain ⟨k, hk, hk'⟩ := exists_getElem? (List.Forall₂.flip hmatches) hj
  exact ⟨f, List.mem_of_getElem? hf, k, List.mem_of_getElem? hk, hk'⟩

theorem settled_loads (hp : p.Resolves)
    (hpools : List.Forall₂ m.heap.Pools m.pools.toList p.functions.toList) :
    m.settled.Loads p m.pools := by
  constructor
  · intro r id name htyped
    by_cases hr : .object r ∈ m.pools.toList.flatMap Array.toList
    · refine ⟨hr, ?_⟩
      have ho := htyped.1 hr
      obtain ⟨f, hf, k, hk, hmatches⟩ := constant_of_pools hpools hr
      cases k with
      | number x => cases hmatches
      | text content =>
        obtain ⟨s, hs, htext⟩ := hmatches
        cases hs
        rw [ho] at htext
        cases htext
      | runnable function =>
        obtain ⟨s, _, hs, hrunnable⟩ := hmatches
        cases hs
        rw [ho] at hrunnable
        cases hrunnable
        exact hp f hf _ hk
    · exact absurd rfl (htyped.2 hr id name)
  · intro id f index k hf hk
    obtain ⟨pool, hpool, hmatches⟩ := exists_getElem? hpools (i := id) (by simpa [Program.function?] using hf)
    obtain ⟨v, hv, hk'⟩ := exists_getElem? hmatches (i := index) (by simpa using hk)
    rw [Array.getElem?_toList] at hpool hv
    refine ⟨v, by simp [hpool, hv], means_of_matches (List.mem_flatMap.mpr ⟨pool, ?_, ?_⟩) hk'⟩
    · exact Array.mem_toList_iff.mpr (Array.mem_of_getElem? hpool)
    · exact Array.mem_toList_iff.mpr (Array.mem_of_getElem? hv)

/-- With no object unheld and no runnable in a global, all runnables are in the pools. -/
theorem settled_counted {c : Config} {b : Bool} {n : Nat}
    (hm : m.Counted (.basic c b n) [] fun _ => False) (hstack : m.stack = #[])
    (hglobals : ∀ r id name, .object r ∈ m.globals.bindings.map Prod.snd →
      m.heap.object? r ≠ some (.runnable id name)) : m.Counted m.settled [] fun _ => True where
  config := rfl
  bound := rfl
  swept := rfl
  pinned _ h := h
  typed r l hl := by
    have hobject : m.heap.object? r = some l.object := by simp [Heap.object?, hl]
    refine ⟨fun _ => hobject, fun hr id name heq => ?_⟩
    have hcount := hm.counts r
    rw [Heap.refs_of_live hl] at hcount
    have hpos : 0 < l.refs := Nat.pos_of_ne_zero fun hzero => hm.kept r l hl hzero
    rw [hcount] at hpos
    have hheld := List.count_pos_iff.mp hpos
    simp only [held, hstack, List.nil_append, List.mem_append] at hheld
    rcases hheld with hheld | hheld
    · exact hglobals r id name hheld (heq ▸ hobject)
    · exact hr hheld
  sound := hm.sound
  counts := hm.counts
  kept _ _ _ _ := trivial
  named := hm.named
  room := by
    have hconfig : m.settled.config = c := hm.config
    rw [hconfig]
    exact hm.room
  bases := by
    have hconfig : m.settled.config = c := hm.config
    rw [hconfig]
    exact hm.bases

end Machine
end RatScript
