import RatScript.Proofs.Machine.Heap
import RatScript.Proofs.Stateful

/-!
Handles over the whole life of a heap. A slot is used again, but never under a generation that a
handle was given in before, as long as generations do not run out: to its users a heap is a list of
objects and counts, one for each allocation.
-/

namespace RatScript.Heap

/-- What can be done with a handle. -/
inductive Use where
  | retain
  | release
  | get
  | refs

/-- A call on a heap. Handles go by the number of the allocation that gave them. -/
inductive Call where
  | alloc (object : Object)
  | use (number : Nat) (how : Use)
  | sweep

def Call.allocated? : Call → Option Object
  | alloc object => some object
  | _ => none

/-- Objects that a series of calls allocates. -/
def allocated (calls : List Call) : List Object := calls.filterMap Call.allocated?

theorem allocated_cons (c : Call) (rest : List Call) :
    allocated (c :: rest) = c.allocated?.toList++allocated rest := by
  cases c <;> rfl

inductive Reply where
  | allocated (number : Nat)
  | retained
  | released (last : Bool)
  | object (object : Object)
  | refs (count : Option Nat)
  | swept (count : Nat)
  | stale
  | unheld
  /-- No allocation has this number yet. -/
  | unknown
  deriving DecidableEq

namespace Reply

def ofFault : HeapFault → Reply
  | .stale _ => stale
  | .unheld _ => unheld

def isFault : Reply → Bool
  | stale | unheld | unknown => true
  | _ => false

end Reply

def Use.step (r : Handle) : Use → HeapM Reply
  | retain => do
    Heap.retain r
    return .retained
  | release => return .released (← Heap.release r)
  | get => do
    match (← MonadState.get).get r with
    | .ok object => return .object object
    | .error fault => throw fault
  | refs => return .refs ((← MonadState.get).refs? r)

/-- A heap, and the handles it has given in their order. -/
structure Keeper where
  heap : Heap
  handles : List Handle

namespace Keeper

def start : Keeper := ⟨empty, []⟩

def call (k : Keeper) : Call → Reply × Keeper
  | .alloc object =>
    match Heap.alloc object k.heap with
    | .ok r h => (.allocated k.handles.length, ⟨h, k.handles++[r]⟩)
    | .error fault h => (.ofFault fault, {k with heap := h})
  | .use number how =>
    match k.handles[number]? with
    | none => (.unknown, k)
    | some r =>
      match how.step r k.heap with
      | .ok reply h => (reply, {k with heap := h})
      | .error fault h => (.ofFault fault, {k with heap := h})
  | .sweep =>
    match Heap.sweep k.heap with
    | .ok count h => (.swept count, {k with heap := h})
    | .error fault h => (.ofFault fault, {k with heap := h})

def run (k : Keeper) : List Call → List Reply × Keeper
  | [] => ([], k)
  | c :: rest =>
    let (reply, k) := k.call c
    let (replies, k) := k.run rest
    (reply :: replies, k)

end Keeper

/-- The reply to a use of an object with its count, and how they stand after it. The last hold given
up ends the object; a dead one has no count, and all else done with it is stale. -/
def Use.answer : Use → Option Live → Reply × Option Live
  | refs, l => (.refs (l.map Live.refs), l)
  | retain, some l => (.retained, some {l with refs := l.refs+1})
  | release, some l =>
    if l.refs = 0 then (.unheld, some l)
    else if l.refs = 1 then (.released true, none)
    else (.released false, some {l with refs := l.refs-1})
  | get, some l => (.object l.object, some l)
  | _, none => (.stale, none)

/-- An object and its count for each allocation, as long as it lives. -/
abbrev Ledger := List (Option Live)

namespace Ledger

def call (t : Ledger) : Call → Reply × Ledger
  | .alloc object => (.allocated t.length, t++[some ⟨0, object⟩])
  | .use number how =>
    match t[number]? with
    | none => (.unknown, t)
    | some l => ((how.answer l).1, t.set number (how.answer l).2)
  | .sweep => (.swept (t.countP Option.isSome), t.map fun _ => none)

def run (t : Ledger) : List Call → List Reply × Ledger
  | [] => ([], t)
  | c :: rest =>
    let (reply, t) := t.call c
    let (replies, t) := t.run rest
    (reply :: replies, t)

end Ledger

/-- Generations of all slots together. -/
def age (h : Heap) : Nat := (h.entries.toList.map (·.generation.toNat)).sum

/-- Handles given so far are live, or their slots are in a later generation; a slot grows older by
one with each object it loses. -/
structure Outlives (h : Heap) (handles : List Handle) : Prop where
  past : ∀ r ∈ handles, ∃ e, h.entries[r.slot]? = some e ∧
    (r.generation.toNat < e.generation.toNat ∨ r.generation = e.generation ∧ e.live.isSome)
  age : h.age = h.stats.frees+h.stats.swept

variable {h h' : Heap} {r : Handle} {l : Live} {handles : List Handle} {o : Object}

theorem toNat_succ {generation : UInt32} (hfew : generation.toNat+1 < 2^32) :
    (generation+1).toNat = generation.toNat+1 := by
  rw [UInt32.toNat_add]
  exact Nat.mod_eq_of_lt hfew

theorem generation_le_age {slot : Nat} {e : Entry} (he : h.entries[slot]? = some e) :
    e.generation.toNat ≤ h.age := by
  refine List.le_sum_of_mem (List.mem_map.mpr ⟨e, ?_, rfl⟩)
  exact Array.mem_toList_iff.mpr (Array.mem_of_getElem? he)

/-- A live object's slot has seen fewer generations than there were allocations. -/
theorem generation_lt (hs : h.Sound) (hh : h.Outlives handles) {slot : Nat} {e : Entry}
    (he : h.entries[slot]? = some e) (hlive : e.live.isSome) :
    e.generation.toNat < h.stats.allocations := by
  have hage := generation_le_age he
  have hpos : 0 < h.liveCount :=
    Array.countP_pos_iff.mpr ⟨e, Array.mem_of_getElem? he, hlive⟩
  have hstock := hs.stock
  have := hh.age
  omega

/-- A change of one entry, to the same generation or a later one. -/
theorem Outlives.set (hh : h.Outlives handles) {slot : Nat} {e e' : Entry} {free : List Nat}
    {stats : HeapStats} (he : h.entries[slot]? = some e)
    (hlater : e.generation = e'.generation ∧ (e.live.isSome → e'.live.isSome) ∨
      e.generation.toNat < e'.generation.toNat)
    (hage : stats.frees+stats.swept+e.generation.toNat =
      h.stats.frees+h.stats.swept+e'.generation.toNat) :
    Outlives ⟨h.entries.setIfInBounds slot e', free, stats⟩ handles where
  past s hs := by
    obtain ⟨old, hold, hpast⟩ := hh.past s hs
    by_cases hslot : s.slot = slot
    · subst hslot
      rw [hold] at he
      cases he
      obtain ⟨hlt, _⟩ := Array.getElem?_eq_some_iff.mp hold
      refine ⟨e', Array.getElem?_setIfInBounds_self_of_lt hlt, ?_⟩
      grind
    · exact ⟨old, by rw [Array.getElem?_setIfInBounds_ne (Ne.symm hslot), hold], hpast⟩
  age := by
    have hsum := sum_map_set (fun e : Entry => e.generation.toNat) e e' h.entries.toList slot
      (by simpa using he)
    have hold := hh.age
    simp only [Heap.age, Array.toList_setIfInBounds] at hold ⊢
    omega

/-- A new handle was never given before. -/
theorem Outlives.alloc (hs : h.Sound) (hh : h.Outlives handles) (heq : alloc o h = .ok r h') :
    h'.Outlives (handles++[r]) ∧ r ∉ handles ∧
      h'.stats = {h.stats with allocations := h.stats.allocations+1} := by
  obtain ⟨entries, free, stats⟩ := h
  cases free with
  | cons slot free =>
    obtain ⟨⟨generation, live⟩, he, rfl⟩ := hs.free slot (by simp)
    have hgeneration : (entries[slot]?.getD default).generation = generation := by
      rw [he, Option.getD_some]
    simp only [Heap.alloc, Array.getD_eq_getD_getElem?, hgeneration] at heq
    cases heq
    have hset : Outlives ⟨entries.setIfInBounds slot ⟨generation, some ⟨0, o⟩⟩, free,
        {stats with allocations := stats.allocations+1}⟩ handles :=
      hh.set he (.inl ⟨rfl, by simp⟩) rfl
    refine ⟨⟨?_, hset.age⟩, ?_, rfl⟩
    · intro s hs
      rcases List.mem_append.mp hs with hs | hs
      · exact hset.past s hs
      · obtain rfl := List.mem_singleton.mp hs
        obtain ⟨hlt, _⟩ := Array.getElem?_eq_some_iff.mp he
        exact ⟨_, Array.getElem?_setIfInBounds_self_of_lt hlt, .inr ⟨rfl, rfl⟩⟩
    · intro hmem
      obtain ⟨e, hold, hpast⟩ := hh.past _ hmem
      simp only [he, Option.some.injEq] at hold
      subst hold
      simp at hpast
  | nil =>
    cases heq
    refine ⟨⟨?_, ?_⟩, ?_, rfl⟩
    · intro s hs
      rcases List.mem_append.mp hs with hs | hs
      · obtain ⟨e, hold, hpast⟩ := hh.past s hs
        obtain ⟨hlt, _⟩ := Array.getElem?_eq_some_iff.mp hold
        exact ⟨e, by rw [Array.getElem?_push_lt hlt, ← Array.getElem?_eq_getElem hlt, hold], hpast⟩
      · obtain rfl := List.mem_singleton.mp hs
        exact ⟨_, Array.getElem?_push_size, .inr ⟨rfl, rfl⟩⟩
    · have hage := hh.age
      simp only [Heap.age] at hage
      simp [Heap.age, hage]
    · intro hmem
      obtain ⟨e, hold, _⟩ := hh.past _ hmem
      simp at hold

theorem Outlives.retain (hh : h.Outlives handles) (heq : retain r h = .ok () h') :
    h'.Outlives handles ∧ h'.stats = {h.stats with retains := h.stats.retains+1} := by
  unfold Heap.retain at heq
  split at heq
  · cases heq
  · next l hl =>
    cases heq
    exact ⟨hh.set (live?_eq_some.mp hl) (.inl ⟨rfl, fun _ => rfl⟩) rfl, rfl⟩

/-- A slot that is freed goes on to the next generation, since there are some left. -/
theorem Outlives.release (hs : h.Sound) (hh : h.Outlives handles)
    (hfew : h.stats.allocations < 2^32) (hl : h.live? r = some l) {last : Bool}
    (heq : release r h = .ok last h') :
    h'.Outlives handles ∧ last = decide (l.refs = 1) ∧ h'.stats = {h.stats with
      releases := h.stats.releases+1, frees := h.stats.frees+if last then 1 else 0} := by
  have he := live?_eq_some.mp hl
  have hgeneration := generation_lt hs hh he rfl
  obtain ⟨refs, object⟩ := l
  unfold Heap.release at heq
  simp only [hl] at heq
  match refs with
  | 0 => cases heq
  | 1 =>
    cases heq
    have hnext : (r.generation+1).toNat = r.generation.toNat+1 :=
      toNat_succ (Nat.lt_of_le_of_lt hgeneration hfew)
    refine ⟨hh.set he (.inr ?_) ?_, rfl, rfl⟩
    · simp only [hnext]
      omega
    · simp only [hnext]
      omega
  | refs+2 =>
    cases heq
    exact ⟨hh.set he (.inl ⟨rfl, fun _ => rfl⟩) rfl, by simp, by simp⟩

theorem sum_swept (es : List Entry)
    (hfew : ∀ e ∈ es, e.live.isSome → e.generation.toNat+1 < 2^32) :
    ((es.map Entry.swept).map (·.generation.toNat)).sum =
      (es.map (·.generation.toNat)).sum+es.countP (·.live.isSome) := by
  induction es with
  | nil => rfl
  | cons e rest ih =>
    have hrest := ih fun e he => hfew e (List.mem_cons_of_mem _ he)
    simp only [List.map_cons, List.sum_cons, List.countP_cons, hrest, Entry.swept]
    split
    · next hlive =>
      rw [toNat_succ (hfew e (by simp) hlive)]
      omega
    · omega

theorem Outlives.sweep (hs : h.Sound) (hh : h.Outlives handles)
    (hfew : h.stats.allocations < 2^32) {count : Nat} (heq : sweep h = .ok count h') :
    h'.Outlives handles ∧ count = h.liveCount := by
  have hcount : (liveSlots 0 h.entries.toList).length = h.liveCount := by
    rw [liveSlots_length, liveCount, ← Array.countP_toList]
  have hnext {slot : Nat} {e : Entry} (he : h.entries[slot]? = some e) (hlive : e.live.isSome) :
      e.generation.toNat+1 < 2^32 :=
    Nat.lt_of_le_of_lt (generation_lt hs hh he hlive) hfew
  cases heq
  refine ⟨⟨?_, ?_⟩, hcount⟩
  · intro s hs
    obtain ⟨e, he, hpast⟩ := hh.past s hs
    refine ⟨e.swept, by simp [he], .inl ?_⟩
    unfold Entry.swept
    split
    · next hlive =>
      rw [toNat_succ (hnext he hlive)]
      rcases hpast with hpast | ⟨hpast, _⟩
      · omega
      · rw [hpast]
        exact Nat.lt_succ_self _
    · next hdead =>
      rcases hpast with hpast | ⟨_, hlive⟩
      · exact hpast
      · exact absurd hlive hdead
  · have hsum := sum_swept h.entries.toList fun e he hlive => by
      obtain ⟨slot, hslot⟩ := List.mem_iff_getElem?.mp he
      exact hnext (by simpa using hslot) hlive
    have hage := hh.age
    simp only [Heap.age, Array.toList_map, hcount] at hage ⊢
    rw [hsum, hage, liveCount, ← Array.countP_toList]
    omega

/-- How a use of a handle ends: the handle alone changes, as the answer says, and a fault changes
nothing. -/
def Answered (h : Heap) (handles : List Handle) (r : Handle) (answer : Reply × Option Live) :
    EStateM.Result HeapFault Heap Reply → Prop
  | .ok reply h' => reply = answer.1 ∧ reply.isFault = false ∧ h'.Sound ∧ h'.Outlives handles ∧
      h.Turns r answer.2 h' ∧ h'.stats.allocations = h.stats.allocations ∧
      h'.stats.frees+answer.2.toList.length = h.stats.frees+(h.live? r).toList.length
  | .error fault h' => .ofFault fault = answer.1 ∧ answer.2 = h.live? r ∧ h' = h

/-- What only looks at a heap leaves it as it is. -/
theorem answered_same (hs : h.Sound) (hh : h.Outlives handles) {reply : Reply}
    (hreply : reply.isFault = false) :
    Answered h handles r (reply, h.live? r) (.ok reply h) :=
  ⟨rfl, hreply, hs, hh, ⟨fun other => by split <;> simp_all, rfl⟩, rfl, rfl⟩

theorem step_get (h : Heap) (r : Handle) :
    Use.get.step r h = match h.live? r with
      | some l => .ok (.object l.object) h
      | none => .error (.stale r) h := by
  have hstep : Use.get.step r h = (match h.get r with
      | .ok object => pure (.object object)
      | .error fault => throw fault : HeapM Reply) h := rfl
  rw [hstep]
  cases hl : h.live? r with
  | none => simp [Heap.get, object?, hl, throw, throwThe, MonadExceptOf.throw, EStateM.throw]
  | some l => simp [Heap.get, object?, hl, pure, EStateM.pure]

theorem step_refs (h : Heap) (r : Handle) : Use.refs.step r h = .ok (.refs (h.refs? r)) h := rfl

theorem step_answers (hs : h.Sound) (hh : h.Outlives handles) (hfew : h.stats.allocations < 2^32)
    (r : Handle) (how : Use) :
    Answered h handles r (how.answer (h.live? r)) (how.step r h) := by
  cases hl : h.live? r with
  | none =>
    cases how with
    | retain =>
      have hstep : Use.retain.step r h = .error (.stale r) h :=
        Stateful.bind_eq_error.mpr (.inl (retain_stale hl))
      rw [hstep]
      exact ⟨rfl, hl.symm, rfl⟩
    | release =>
      have hstep : Use.release.step r h = .error (.stale r) h :=
        Stateful.bind_eq_error.mpr (.inl (by simp [release, hl]))
      rw [hstep]
      exact ⟨rfl, hl.symm, rfl⟩
    | get =>
      rw [step_get, hl]
      exact ⟨rfl, hl.symm, rfl⟩
    | refs =>
      rw [step_refs, refs?, hl, ← hl]
      exact answered_same hs hh rfl
  | some l =>
    cases how with
    | retain =>
      obtain ⟨h', heq, hs', ht⟩ := retain_ok hs hl
      obtain ⟨hh', hstats⟩ := hh.retain heq
      have hstep : Use.retain.step r h = .ok .retained h' :=
        Stateful.bind_eq_ok.mpr ⟨_, _, heq, rfl⟩
      rw [hstep]
      refine ⟨rfl, rfl, hs', hh', ht, by rw [hstats], ?_⟩
      rw [hstats, hl]
      rfl
    | release =>
      by_cases hzero : l.refs = 0
      · have hstep : Use.release.step r h = .error (.unheld r.slot) h :=
          Stateful.bind_eq_error.mpr (.inl (by simp [release, hl, hzero]))
        rw [hstep, Use.answer, if_pos hzero]
        exact ⟨rfl, hl.symm, rfl⟩
      obtain ⟨last, h', heq, hs', ht⟩ := release_ok hs hl (Nat.pos_of_ne_zero hzero)
      obtain ⟨hh', hlast, hstats⟩ := hh.release hs hfew hl heq
      have hstep : Use.release.step r h = .ok (.released last) h' :=
        Stateful.bind_eq_ok.mpr ⟨_, _, heq, rfl⟩
      rw [hstep, Use.answer, if_neg hzero]
      by_cases hone : l.refs = 1
      · rw [if_pos hone] at ht ⊢
        refine ⟨by simp [hlast, hone], rfl, hs', hh', ht, by rw [hstats], ?_⟩
        simp [hstats, hl, hlast, hone]
      · rw [if_neg hone] at ht ⊢
        refine ⟨by simp [hlast, hone], rfl, hs', hh', ht, by rw [hstats], ?_⟩
        simp [hstats, hl, hlast, hone]
    | get =>
      rw [step_get, hl]
      change Answered h handles r (.object l.object, some l) (.ok (.object l.object) h)
      rw [← hl]
      exact answered_same hs hh rfl
    | refs =>
      rw [step_refs, refs?, hl, ← hl]
      exact answered_same hs hh rfl

/-- The keeper of a heap stands as the ledger says. -/
structure Keeper.Mirrors (k : Keeper) (t : Ledger) : Prop where
  sound : k.heap.Sound
  outlives : k.heap.Outlives k.handles
  distinct : k.handles.Nodup
  allocations : k.heap.stats.allocations = k.handles.length
  standing : t = k.handles.map k.heap.live?
  live : k.heap.liveCount = t.countP Option.isSome

namespace Keeper

variable {k : Keeper} {t : Ledger} {number : Nat}

theorem mirrors_start : start.Mirrors [] :=
  ⟨sound_empty, ⟨by simp [start], rfl⟩, List.nodup_nil, rfl, rfl, rfl⟩

theorem Mirrors.getElem? (hk : k.Mirrors t) (number : Nat) :
    t[number]? = k.handles[number]?.map k.heap.live? := by
  rw [hk.standing, List.getElem?_map]

/-- One handle turns, and with it its line of the ledger. -/
theorem Mirrors.turn (hk : k.Mirrors t) {now : Option Live} (hr : k.handles[number]? = some r)
    (ht : k.heap.Turns r now h') (hs : h'.Sound) (hh : h'.Outlives k.handles)
    (hallocations : h'.stats.allocations = k.heap.stats.allocations)
    (hfrees : h'.stats.frees+now.toList.length =
      k.heap.stats.frees+(k.heap.live? r).toList.length) :
    Mirrors {k with heap := h'} (t.set number now) := by
  have hline : t[number]? = some (k.heap.live? r) := by rw [hk.getElem?, hr, Option.map_some]
  obtain ⟨hlt, hline⟩ := List.getElem?_eq_some_iff.mp hline
  obtain ⟨hnumber, hr⟩ := List.getElem?_eq_some_iff.mp hr
  refine ⟨hs, hh, hk.distinct, hallocations.trans hk.allocations, ?_, ?_⟩
  · refine List.ext_getElem (by simp [hk.standing]) fun i hi _ => ?_
    have hi : i < k.handles.length := by simpa [hk.standing] using hi
    have hother : k.handles[i] = r ↔ number = i := by
      rw [← hr, hk.distinct.getElem_inj_iff, eq_comm]
    simp only [List.getElem_set, List.getElem_map, ht.live, hother, hk.standing]
  · have hlength (l : Option Live) : l.toList.length = if l.isSome then 1 else 0 := by
      cases l <;> rfl
    have hcount : (if t[number].isSome then 1 else 0) ≤ t.countP Option.isSome := by
      split
      · next hsome => exact List.countP_pos_iff.mpr ⟨_, List.getElem_mem hlt, hsome⟩
      · exact Nat.zero_le _
    have hlive := hk.live
    have hold := hk.sound.stock
    have hnew := hs.stock
    have hswept := ht.swept
    rw [hlength, hlength, ← hline] at hfrees
    rw [List.countP_set hlt]
    simp only
    omega

theorem alloc_mirrors (hk : k.Mirrors t) (object : Object) :
    (k.call (.alloc object)).1 = (t.call (.alloc object)).1 ∧
      (k.call (.alloc object)).2.Mirrors (t.call (.alloc object)).2 := by
  obtain ⟨r, h', heq, hs, _, ht⟩ := alloc_ok hk.sound object
  obtain ⟨hh, hnew, hstats⟩ := hk.outlives.alloc hk.sound heq
  have hlength : t.length = k.handles.length := by rw [hk.standing, List.length_map]
  have hold : k.handles.map h'.live? = t := by
    rw [hk.standing]
    refine List.map_congr_left fun s hmem => ?_
    rw [ht.live, if_neg]
    rintro rfl
    exact hnew hmem
  have hstanding : t++[some ⟨0, object⟩] = (k.handles++[r]).map h'.live? := by
    rw [List.map_append, hold, List.map_singleton, ht.live, if_pos rfl]
  simp only [call, heq, Ledger.call, hlength, true_and]
  refine ⟨hs, hh, ?_, ?_, hstanding, ?_⟩
  · exact List.nodup_append.mpr ⟨hk.distinct, List.nodup_singleton r, by grind⟩
  · rw [hstats, List.length_append, List.length_singleton, ← hk.allocations]
  · have hstock := hs.stock
    have hbefore := hk.sound.stock
    have hlive := hk.live
    simp only [hstats] at hstock
    rw [List.countP_append]
    simp only [List.countP_singleton, Option.isSome_some, if_true]
    omega

theorem use_mirrors (hk : k.Mirrors t) (hfew : k.handles.length < 2^32) (number : Nat)
    (how : Use) :
    (k.call (.use number how)).1 = (t.call (.use number how)).1 ∧
      (k.call (.use number how)).2.Mirrors (t.call (.use number how)).2 := by
  have hline := hk.getElem? number
  cases hr : k.handles[number]? with
  | none =>
    simp only [hr, Option.map_none] at hline
    simp only [call, Ledger.call, hr, hline, true_and]
    exact hk
  | some r =>
    simp only [hr, Option.map_some] at hline
    simp only [call, Ledger.call, hr, hline]
    have hanswers := step_answers hk.sound hk.outlives (hk.allocations ▸ hfew) r how
    split
    · next reply h' hstep =>
      rw [hstep] at hanswers
      obtain ⟨hreply, _, hs, hh, ht, hallocations, hfrees⟩ := hanswers
      exact ⟨hreply, hk.turn hr ht hs hh hallocations hfrees⟩
    · next fault h' hstep =>
      rw [hstep] at hanswers
      obtain ⟨hreply, hnow, rfl⟩ := hanswers
      obtain ⟨hlt, hline⟩ := List.getElem?_eq_some_iff.mp hline
      have hset : t.set number (k.heap.live? r) = t := by rw [← hline, List.set_getElem_self]
      rw [hnow, hset]
      exact ⟨hreply, hk⟩

theorem sweep_mirrors (hk : k.Mirrors t) (hfew : k.handles.length < 2^32) :
    (k.call .sweep).1 = (t.call .sweep).1 ∧ (k.call .sweep).2.Mirrors (t.call .sweep).2 := by
  obtain ⟨count, h', heq, hs, hdead, hstats⟩ := sweep_ok hk.sound
  obtain ⟨hh, hcount⟩ := hk.outlives.sweep hk.sound (hk.allocations ▸ hfew) heq
  simp only [call, heq, Ledger.call]
  refine ⟨by rw [hcount, hk.live], hs, hh, hk.distinct, ?_, ?_, ?_⟩
  · rw [hstats]
    exact hk.allocations
  · rw [hk.standing, List.map_map]
    exact List.map_congr_left fun r _ => (hdead.live? r).symm
  · rw [dead_iff_liveCount.mp hdead, eq_comm, List.countP_eq_zero]
    simp

/-- Every call is answered as the ledger answers it, and leaves what the ledger says. -/
theorem call_mirrors (hk : k.Mirrors t) (hfew : k.handles.length < 2^32) (c : Call) :
    (k.call c).1 = (t.call c).1 ∧ (k.call c).2.Mirrors (t.call c).2 := by
  cases c with
  | alloc object => exact alloc_mirrors hk object
  | use number how => exact use_mirrors hk hfew number how
  | sweep => exact sweep_mirrors hk hfew

/-- A call that fails leaves all as it was. -/
theorem call_fault (hk : k.Mirrors t) (hfew : k.handles.length < 2^32) {c : Call}
    (hfault : (k.call c).1.isFault = true) : (k.call c).2 = k := by
  cases c with
  | alloc object =>
    rw [(alloc_mirrors hk object).1] at hfault
    cases hfault
  | use number how =>
    have hanswers (r : Handle) :=
      step_answers hk.sound hk.outlives (hk.allocations ▸ hfew) r how
    simp only [call] at hfault ⊢
    split at hfault
    · rfl
    · next r hr =>
      have hanswer := hanswers r
      split at hfault
      · next reply h' hstep =>
        rw [hstep] at hanswer
        simp [hanswer.2.1] at hfault
      · next fault h' hstep =>
        rw [hstep] at hanswer
        rw [hanswer.2.2]
  | sweep =>
    rw [(sweep_mirrors hk hfew).1] at hfault
    cases hfault

theorem handles_call (k : Keeper) (c : Call) : k.handles <+: (k.call c).2.handles := by
  cases c with
  | alloc object =>
    simp only [call]
    split
    · exact List.prefix_append _ _
    · exact List.prefix_rfl
  | use number how =>
    simp only [call]
    split
    · exact List.prefix_rfl
    · split <;> exact List.prefix_rfl
  | sweep => exact List.prefix_rfl

theorem handles_run (k : Keeper) (calls : List Call) : k.handles <+: (k.run calls).2.handles := by
  induction calls generalizing k with
  | nil => exact List.prefix_rfl
  | cons c rest ih => exact (k.handles_call c).trans (ih _)

end Keeper

namespace Ledger

variable {t : Ledger} {number : Nat}

theorem length_call (t : Ledger) (c : Call) :
    (t.call c).2.length = t.length+c.allocated?.toList.length := by
  cases c with
  | alloc object => simp [call, Call.allocated?]
  | use number how =>
    simp only [call]
    split <;> simp [Call.allocated?]
  | sweep => simp [call, Call.allocated?]

/-- No use brings an object to life or puts another in its place. -/
theorem answer_object {how : Use} {before : Option Live} (h : (how.answer before).2 = some l) :
    ∃ old, before = some old ∧ old.object = l.object := by
  cases before with
  | none => cases how <;> cases h
  | some old =>
    refine ⟨old, rfl, ?_⟩
    cases how with
    | retain | get | refs =>
      cases h
      rfl
    | release =>
      simp only [Use.answer] at h
      split at h
      · cases h
        rfl
      · split at h
        · cases h
        · cases h
          rfl

/-- What is live after a call was live before it, or is new. -/
theorem line_call {c : Call} (h : (t.call c).2[number]? = some (some l)) :
    (∃ old, t[number]? = some (some old) ∧ old.object = l.object) ∨
      number = t.length ∧ c.allocated? = some l.object := by
  cases c with
  | alloc object =>
    simp only [call, List.getElem?_append] at h
    split at h
    · exact .inl ⟨l, h, rfl⟩
    · obtain ⟨hnumber, hl⟩ := List.getElem?_eq_some_iff.mp h
      rw [List.length_singleton] at hnumber
      rw [List.getElem_singleton] at hl
      cases hl
      exact .inr ⟨by omega, rfl⟩
  | use other how =>
    simp only [call] at h
    split at h
    · exact .inl ⟨l, h, rfl⟩
    · next line hline =>
      by_cases hother : other = number
      · subst hother
        rw [List.getElem?_set_self (List.getElem?_eq_some_iff.mp hline).1, Option.some.injEq] at h
        obtain ⟨old, rfl, hobject⟩ := answer_object h
        exact .inl ⟨old, hline, hobject⟩
      · rw [List.getElem?_set_ne hother] at h
        exact .inl ⟨l, h, rfl⟩
  | sweep =>
    simp only [call, List.getElem?_map] at h
    obtain ⟨_, _, hline⟩ := Option.map_eq_some_iff.mp h
    cases hline

theorem length_run (t : Ledger) (calls : List Call) :
    (t.run calls).2.length = t.length+(allocated calls).length := by
  induction calls generalizing t with
  | nil => rfl
  | cons c rest ih =>
    have hcall := t.length_call c
    have hrest := ih (t.call c).2
    rw [allocated_cons, List.length_append]
    simp only [run]
    omega

/-- Objects stay under their numbers, and come in the order of their allocation. -/
theorem line_run {calls : List Call} (h : (t.run calls).2[number]? = some (some l)) :
    (∃ old, t[number]? = some (some old) ∧ old.object = l.object) ∨
      t.length ≤ number ∧ (allocated calls)[number-t.length]? = some l.object := by
  induction calls generalizing t with
  | nil => exact .inl ⟨l, h, rfl⟩
  | cons c rest ih =>
    have hlength := t.length_call c
    rw [allocated_cons]
    rcases ih (t := (t.call c).2) h with ⟨old, hold, hobject⟩ | ⟨hle, hobject⟩
    · rcases line_call hold with ⟨older, holder, hsame⟩ | ⟨hnumber, hc⟩
      · exact .inl ⟨older, holder, hsame.trans hobject⟩
      · exact .inr ⟨by omega, by simp [hnumber, hc, hobject]⟩
    · refine .inr ⟨by omega, ?_⟩
      rw [List.getElem?_append_right (by omega), ← hobject]
      congr 1
      omega

/-- A dead object stays dead. -/
theorem dead_run (hdead : t[number]? = some none) (calls : List Call) :
    (t.run calls).2[number]? = some none := by
  have hlt : number < t.length := (List.getElem?_eq_some_iff.mp hdead).1
  have hlength := t.length_run calls
  have hsome := List.getElem?_eq_getElem (l := (t.run calls).2) (i := number) (by omega)
  cases hline : (t.run calls).2[number]? with
  | none => simp [hline] at hsome
  | some line =>
    cases line with
    | none => rfl
    | some l =>
      rcases line_run hline with ⟨old, hold, _⟩ | ⟨hle, _⟩
      · rw [hdead] at hold
        cases hold
      · omega

end Ledger

namespace Keeper

variable {k : Keeper} {t : Ledger}

theorem run_mirrors (hk : k.Mirrors t) {calls : List Call}
    (hfew : k.handles.length+(allocated calls).length < 2^32) :
    (k.run calls).1 = (t.run calls).1 ∧ (k.run calls).2.Mirrors (t.run calls).2 := by
  induction calls generalizing k t with
  | nil => exact ⟨rfl, hk⟩
  | cons c rest ih =>
    rw [allocated_cons, List.length_append] at hfew
    obtain ⟨hreply, hcall⟩ := call_mirrors hk (by omega) c
    have hlength : (k.call c).2.handles.length = k.handles.length+c.allocated?.toList.length := by
      have h := t.length_call c
      rw [hcall.standing, hk.standing] at h
      simpa using h
    obtain ⟨hreplies, hrun⟩ := ih hcall (by omega)
    refine ⟨?_, hrun⟩
    simp only [run, Ledger.run, hreply, hreplies]

/-- A stale handle stays stale, whatever its slot is used for. -/
theorem stale_run (hk : k.Mirrors t) {calls : List Call}
    (hfew : k.handles.length+(allocated calls).length < 2^32) (hr : r ∈ k.handles)
    (hdead : k.heap.live? r = none) : (k.run calls).2.heap.live? r = none := by
  obtain ⟨number, hnumber⟩ := List.mem_iff_getElem?.mp hr
  have hkept : (k.run calls).2.handles[number]? = some r := by
    obtain ⟨later, hlater⟩ := k.handles_run calls
    rw [← hlater, List.getElem?_append_left (List.getElem?_eq_some_iff.mp hnumber).1, hnumber]
  have hline := hk.getElem? number
  rw [hnumber, Option.map_some, hdead] at hline
  have hlater := Ledger.dead_run hline calls
  rw [(run_mirrors hk hfew).2.getElem?, hkept, Option.map_some] at hlater
  exact Option.some.inj hlater

/-- A live handle leads to the object of its allocation. -/
theorem object_run {calls : List Call} {number : Nat} (hk : k.Mirrors (Ledger.run [] calls).2)
    (hr : k.handles[number]? = some r) (hl : k.heap.live? r = some l) :
    (allocated calls)[number]? = some l.object := by
  have hline := hk.getElem? number
  rw [hr, Option.map_some, hl] at hline
  rcases Ledger.line_run hline with ⟨old, hold, _⟩ | ⟨_, hobject⟩
  · simp at hold
  · simpa using hobject

end Keeper

/-- Handles are never confused. As long as allocations are fewer than generations, a heap answers
every call as a list of objects and counts would that has a line for each allocation. Handles are
distinct, each leads to the object it was given for as long as it lives and is stale ever after, a
failed call changes nothing, and the totals account for every object. -/
theorem keeps_ledger (calls : List Call) (hfew : (allocated calls).length < 2^32) :
    ∃ k, Keeper.start.run calls = ((Ledger.run [] calls).1, k) ∧
      k.handles.Nodup ∧ k.handles.map k.heap.live? = (Ledger.run [] calls).2 ∧
      (∀ (number : Nat) r l, k.handles[number]? = some r → k.heap.live? r = some l →
        (allocated calls)[number]? = some l.object) ∧
      (∀ r ∈ k.handles, k.heap.live? r = none →
        ∀ more, (allocated (calls++more)).length < 2^32 →
          (k.run more).2.heap.live? r = none) ∧
      (∀ c, (k.call c).1.isFault = true → (k.call c).2 = k) ∧
      k.heap.stats.allocations = k.heap.liveCount+k.heap.stats.frees+k.heap.stats.swept := by
  have hstart : Keeper.start.handles.length+(allocated calls).length < 2^32 := by
    simpa [Keeper.start] using hfew
  obtain ⟨hreplies, hk⟩ := Keeper.run_mirrors Keeper.mirrors_start hstart
  have hlength : (Keeper.start.run calls).2.handles.length = (allocated calls).length := by
    have h := Ledger.length_run [] calls
    rw [hk.standing, List.length_map] at h
    simpa using h
  refine ⟨(Keeper.start.run calls).2, Prod.ext hreplies rfl, hk.distinct, hk.standing.symm, ?_, ?_,
    fun c => Keeper.call_fault hk (hlength ▸ hfew), hk.sound.stock⟩
  · exact fun number r l => Keeper.object_run hk
  · intro r hr hdead more hmore
    rw [allocated, List.filterMap_append, List.length_append] at hmore
    exact Keeper.stale_run hk (by rw [hlength]; exact hmore) hr hdead

/-- Two texts, the second in the slot of the first, and uses of both. -/
def reuse : List Call :=
  [.alloc (.text "a"), .use 0 .retain, .use 0 .release, .alloc (.text "b"), .use 0 .get,
    .use 1 .release, .use 1 .get, .sweep]

/-- The two handles share a slot and are told apart. -/
theorem keeps_ledger_reuse :
    ∃ k, Keeper.start.run reuse = ([.allocated 0, .retained, .released true, .allocated 1, .stale,
        .unheld, .object (.text "b"), .swept 1], k) ∧
      k.handles = [⟨0, 0⟩, ⟨0, 1⟩] ∧ k.handles.Nodup ∧
      k.handles.map k.heap.live? = [none, none] := by
  obtain ⟨k, hrun, hdistinct, hstanding, _⟩ := keeps_ledger reuse (by decide)
  have hreplies : (Ledger.run [] reuse).1 = [.allocated 0, .retained, .released true, .allocated 1,
      .stale, .unheld, .object (.text "b"), .swept 1] := by decide
  have hhandles : (Keeper.start.run reuse).2.handles = [⟨0, 0⟩, ⟨0, 1⟩] := by decide
  rw [hreplies] at hrun
  rw [hrun] at hhandles
  exact ⟨k, hrun, hhandles, hdistinct, hstanding⟩

end RatScript.Heap
