import Mathlib
import RatScript.Machine.Heap

/-!
What the operations on a heap do to its handles and totals. A sound heap reuses only dead slots, so
that each operation changes what is known of one handle, and its totals account for every object
and every hold.
-/

namespace RatScript

namespace Entry

/-- Holds on the object of an entry, if it has one. -/
def refs (e : Entry) : Nat :=
  match e.live with
  | some l => l.refs
  | none => 0

def stock (e : Entry) : Nat := if e.live.isSome then 1 else 0

@[simp] theorem refs_live (generation : UInt32) (l : Live) :
    (Entry.mk generation (some l)).refs = l.refs := rfl

@[simp] theorem refs_dead (generation : UInt32) : (Entry.mk generation none).refs = 0 := rfl

@[simp] theorem stock_live (generation : UInt32) (l : Live) :
    (Entry.mk generation (some l)).stock = 1 := rfl

@[simp] theorem stock_dead (generation : UInt32) : (Entry.mk generation none).stock = 0 := rfl

theorem swept_live (e : Entry) : e.swept.live = none := by
  unfold swept
  split
  · rfl
  · next h => simpa using h

end Entry

namespace Heap

variable {h h' : Heap} {r : Handle} {l : Live}

/-- Places that hold an object; a dead handle has none. -/
def refs (h : Heap) (r : Handle) : Nat := (h.refs? r).getD 0

/-- Holds on all objects together. -/
def total (h : Heap) : Nat := (h.entries.toList.map Entry.refs).sum

structure Sound (h : Heap) : Prop where
  free : ∀ slot ∈ h.free, ∃ e, h.entries[slot]? = some e ∧ e.live = none
  distinct : h.free.Nodup
  stock : h.stats.allocations = h.liveCount+h.stats.frees+h.stats.swept
  /-- A sweep takes no account of holds. -/
  holds : h.stats.swept = 0 → h.stats.retains = h.stats.releases+h.total

theorem sound_empty : empty.Sound := ⟨by simp [empty], by simp [empty], rfl, fun _ => rfl⟩

/-- One handle gets a new standing, all others keep theirs. -/
structure Turns (h : Heap) (r : Handle) (l : Option Live) (h' : Heap) : Prop where
  live : ∀ other, h'.live? other = if other = r then l else h.live? other
  swept : h'.stats.swept = h.stats.swept

theorem Turns.refs_eq {l : Option Live} (ht : h.Turns r l h') (other : Handle) :
    h'.refs other = if other = r then (l.map Live.refs).getD 0 else h.refs other := by
  simp only [refs, refs?, ht.live other]
  split <;> rfl

theorem refs_of_live (hl : h.live? r = some l) : h.refs r = l.refs := by
  simp [refs, refs?, hl]

theorem refs_of_dead (hl : h.live? r = none) : h.refs r = 0 := by
  simp [refs, refs?, hl]

/-- What is held is live. -/
theorem live_of_refs (hr : 0 < h.refs r) : ∃ l, h.live? r = some l := by
  cases hl : h.live? r with
  | some l => exact ⟨l, rfl⟩
  | none =>
    rw [refs_of_dead hl] at hr
    omega

theorem live?_eq_some :
    h.live? r = some l ↔ h.entries[r.slot]? = some ⟨r.generation, some l⟩ := by
  unfold live?
  cases h.entries[r.slot]? with
  | none => simp
  | some e =>
    obtain ⟨generation, live⟩ := e
    by_cases hg : generation = r.generation
    · simp [hg]
    · simp [hg]

/-- An entry whose object goes is left for a later generation, or for none. -/
theorem turns_set {e : Entry} (e' : Entry) (he : h.entries[r.slot]? = some e)
    (hold : e.generation = r.generation)
    (hnew : e'.generation = r.generation ∨ e'.live = none) (free : List Nat)
    {stats : HeapStats} (hswept : stats.swept = h.stats.swept) :
    h.Turns r e'.live ⟨h.entries.setIfInBounds r.slot e', free, stats⟩ := by
  refine ⟨fun other => ?_, hswept⟩
  obtain ⟨hlt, _⟩ := Array.getElem?_eq_some_iff.mp he
  unfold live?
  by_cases hslot : r.slot = other.slot
  · rw [← hslot, Array.getElem?_setIfInBounds_self_of_lt hlt, he]
    by_cases hgen : other.generation = r.generation
    · have hother : other = r := by
        cases other
        cases r
        simp_all
      rcases hnew with hnew | hnew <;> simp [hother, hnew]
    · have hother : other ≠ r := fun heq => hgen (heq ▸ rfl)
      rw [if_neg hother]
      rcases hnew with hnew | hnew <;> simp [hold, hnew, Ne.symm hgen]
  · have hother : other ≠ r := fun heq => hslot (heq ▸ rfl)
    rw [if_neg hother, Array.getElem?_setIfInBounds_ne hslot]

theorem sum_map_set {α : Type} (f : α → Nat) (a b : α) :
    ∀ (as : List α) (i : Nat), as[i]? = some a →
      ((as.set i b).map f).sum+f a = (as.map f).sum+f b
  | [], _, h => by simp at h
  | c :: as, 0, h => by
    simp only [List.getElem?_cons_zero, Option.some.injEq] at h
    subst c
    simp only [List.set_cons_zero, List.map_cons, List.sum_cons]
    omega
  | c :: as, i+1, h => by
    have ih := sum_map_set f a b as i (by simpa using h)
    simp only [List.set_cons_succ, List.map_cons, List.sum_cons]
    omega

theorem liveCount_eq (h : Heap) : h.liveCount = (h.entries.toList.map Entry.stock).sum := by
  simp only [liveCount, ← Array.countP_toList]
  induction h.entries.toList with
  | nil => rfl
  | cons e rest ih =>
    simp only [List.countP_cons, List.map_cons, List.sum_cons, ih, Entry.stock]
    omega

section
variable {slot : Nat} {e : Entry} (he : h.entries[slot]? = some e) (e' : Entry) (free : List Nat)
  (stats : HeapStats)
include he

theorem liveCount_set :
    liveCount ⟨h.entries.setIfInBounds slot e', free, stats⟩+e.stock = h.liveCount+e'.stock := by
  simp only [liveCount_eq, Array.toList_setIfInBounds]
  exact sum_map_set _ _ _ _ _ (by simpa using he)

theorem total_set :
    total ⟨h.entries.setIfInBounds slot e', free, stats⟩+e.refs = h.total+e'.refs := by
  simp only [total, Array.toList_setIfInBounds]
  exact sum_map_set _ _ _ _ _ (by simpa using he)

end

/-- A change of one entry keeps the heap sound if the totals follow it. -/
theorem Sound.set {slot : Nat} {e e' : Entry} {free : List Nat} {stats : HeapStats} (hs : h.Sound)
    (he : h.entries[slot]? = some e) (hfree : ∀ s ∈ free, s ≠ slot → s ∈ h.free)
    (hslot : slot ∈ free → e'.live = none) (hdistinct : free.Nodup)
    (hstock : stats.allocations+h.stats.frees+e.stock =
      h.stats.allocations+stats.frees+e'.stock)
    (hholds : stats.retains+h.stats.releases+e.refs = h.stats.retains+stats.releases+e'.refs)
    (hswept : stats.swept = h.stats.swept) :
    Sound ⟨h.entries.setIfInBounds slot e', free, stats⟩ where
  free s hmem := by
    by_cases heq : s = slot
    · subst s
      obtain ⟨hlt, _⟩ := Array.getElem?_eq_some_iff.mp he
      exact ⟨e', Array.getElem?_setIfInBounds_self_of_lt hlt, hslot hmem⟩
    · rw [Array.getElem?_setIfInBounds_ne (Ne.symm heq)]
      exact hs.free s (hfree s hmem heq)
  distinct := hdistinct
  stock := by
    have hcount := liveCount_set he e' free stats
    have hold := hs.stock
    simp only
    omega
  holds hzero := by
    have htotal := total_set he e' free stats
    have hold := hs.holds (hswept ▸ hzero)
    simp only
    omega

theorem Sound.not_free (hs : h.Sound) (hl : h.live? r = some l) : r.slot ∉ h.free := by
  intro hfree
  obtain ⟨e, he, hdead⟩ := hs.free _ hfree
  rw [live?_eq_some.mp hl] at he
  cases he
  cases hdead

/-- An object that nobody holds yet gets a handle that was dead. -/
theorem alloc_ok (hs : h.Sound) (o : Object) :
    ∃ r h', alloc o h = .ok r h' ∧ h'.Sound ∧ h.live? r = none ∧ h.Turns r (some ⟨0, o⟩) h' := by
  obtain ⟨entries, free, stats⟩ := h
  cases free with
  | cons slot free =>
    obtain ⟨⟨generation, live⟩, he, rfl⟩ := hs.free slot (by simp)
    obtain ⟨hfresh, hdistinct⟩ := List.nodup_cons.mp hs.distinct
    have hgeneration : (entries[slot]?.getD default).generation = generation := by
      rw [he, Option.getD_some]
    refine ⟨⟨slot, generation⟩, ⟨entries.setIfInBounds slot ⟨generation, some ⟨0, o⟩⟩, free,
      {stats with allocations := stats.allocations+1}⟩, by simp [alloc, hgeneration], ?_, ?_, ?_⟩
    · apply hs.set he
      · exact fun s hmem _ => List.mem_cons_of_mem _ hmem
      · exact fun hmem => absurd hmem hfresh
      · exact hdistinct
      · simp only [Entry.stock_live, Entry.stock_dead]
        omega
      · simp
      · rfl
    · simp [live?, he]
    · exact turns_set (h := ⟨entries, slot :: free, stats⟩) (r := ⟨slot, generation⟩)
        ⟨generation, some ⟨0, o⟩⟩ he rfl (.inl rfl) _ rfl
  | nil =>
    refine ⟨⟨entries.size, 0⟩, _, rfl, ⟨by simp, by simp, ?_, ?_⟩, ?_, ?_⟩
    · have hstock := hs.stock
      simp [liveCount] at hstock ⊢
      omega
    · intro hswept
      have hholds := hs.holds hswept
      simp [total] at hholds ⊢
      omega
    · simp [live?]
    · refine ⟨fun other => ?_, rfl⟩
      simp only [live?, Array.getElem?_push]
      by_cases hslot : other.slot = entries.size
      · by_cases hgen : other.generation = 0
        · have hother : other = ⟨entries.size, 0⟩ := by
            cases other
            simp_all
          simp [hother]
        · have hother : other ≠ ⟨entries.size, 0⟩ := fun heq => hgen (heq ▸ rfl)
          simp [hother, hslot, Ne.symm hgen]
      · have hother : other ≠ ⟨entries.size, 0⟩ := fun heq => hslot (heq ▸ rfl)
        simp [hother, hslot]

theorem retain_stale (hl : h.live? r = none) : retain r h = .error (.stale r) h := by
  simp [retain, hl]

theorem retain_ok (hs : h.Sound) (hl : h.live? r = some l) :
    ∃ h', retain r h = .ok () h' ∧ h'.Sound ∧
      h.Turns r (some {l with refs := l.refs+1}) h' := by
  have he := live?_eq_some.mp hl
  refine ⟨⟨h.entries.setIfInBounds r.slot ⟨r.generation, some {l with refs := l.refs+1}⟩, h.free,
    {h.stats with retains := h.stats.retains+1}⟩, by simp [retain, hl], ?_, ?_⟩
  · apply hs.set he
    · exact fun s hmem _ => hmem
    · exact fun hmem => absurd hmem (hs.not_free hl)
    · exact hs.distinct
    · simp
    · simp only [Entry.refs_live]
      omega
    · rfl
  · exact turns_set ⟨r.generation, some {l with refs := l.refs+1}⟩ he rfl (.inl rfl) _ rfl

/-- The last hold that is given up frees the object. -/
theorem release_ok (hs : h.Sound) (hl : h.live? r = some l) (hheld : 0 < l.refs) :
    ∃ last h', release r h = .ok last h' ∧ h'.Sound ∧
      h.Turns r (if l.refs = 1 then none else some {l with refs := l.refs-1}) h' := by
  have he := live?_eq_some.mp hl
  obtain ⟨refs, o⟩ := l
  match refs, hheld with
  | 1, _ =>
    refine ⟨true, ⟨h.entries.setIfInBounds r.slot ⟨r.generation+1, none⟩, r.slot :: h.free,
      {h.stats with releases := h.stats.releases+1, frees := h.stats.frees+1}⟩,
      by simp [release, hl], ?_, ?_⟩
    · apply hs.set he
      · exact fun s hmem hne => List.mem_of_ne_of_mem hne hmem
      · exact fun _ => rfl
      · exact List.nodup_cons.mpr ⟨hs.not_free hl, hs.distinct⟩
      · simp only [Entry.stock_live, Entry.stock_dead]
        omega
      · simp only [Entry.refs_live, Entry.refs_dead]
        omega
      · rfl
    · exact turns_set ⟨r.generation+1, none⟩ he rfl (.inr rfl) _ rfl
  | refs+2, _ =>
    refine ⟨false, ⟨h.entries.setIfInBounds r.slot ⟨r.generation, some ⟨refs+1, o⟩⟩, h.free,
      {h.stats with releases := h.stats.releases+1}⟩, by simp [release, hl], ?_, ?_⟩
    · apply hs.set he
      · exact fun s hmem _ => hmem
      · exact fun hmem => absurd hmem (hs.not_free hl)
      · exact hs.distinct
      · simp
      · simp only [Entry.refs_live]
        omega
      · rfl
    · exact turns_set ⟨r.generation, some ⟨refs+1, o⟩⟩ he rfl (.inl rfl) _ rfl

/-- The slots that a sweep finds are those of live objects, each once. -/
theorem mem_liveSlots {slot s : Nat} {es : List Entry} :
    s ∈ liveSlots slot es ↔ ∃ (i : Nat) (e : Entry), es[i]? = some e ∧ e.live.isSome ∧ s = slot+i := by
  induction es generalizing slot with
  | nil => simp [liveSlots]
  | cons e rest ih =>
    constructor
    · intro hs
      unfold liveSlots at hs
      split at hs
      · next hlive =>
        rcases List.mem_cons.mp hs with rfl | hs
        · exact ⟨0, e, rfl, hlive, rfl⟩
        · obtain ⟨i, e', hi, hl, rfl⟩ := ih.mp hs
          exact ⟨i+1, e', hi, hl, by omega⟩
      · obtain ⟨i, e', hi, hl, rfl⟩ := ih.mp hs
        exact ⟨i+1, e', hi, hl, by omega⟩
    · rintro ⟨i, e', hi, hl, rfl⟩
      unfold liveSlots
      cases i with
      | zero =>
        cases hi
        simp [hl]
      | succ i =>
        have hmem : slot+(i+1) ∈ liveSlots (slot+1) rest := ih.mpr ⟨i, e', hi, hl, by omega⟩
        split
        · exact List.mem_cons_of_mem _ hmem
        · exact hmem

theorem liveSlots_nodup (slot : Nat) (es : List Entry) : (liveSlots slot es).Nodup := by
  induction es generalizing slot with
  | nil => exact List.nodup_nil
  | cons e rest ih =>
    unfold liveSlots
    split
    · refine List.nodup_cons.mpr ⟨?_, ih _⟩
      intro hmem
      obtain ⟨i, _, _, _, hi⟩ := mem_liveSlots.mp hmem
      omega
    · exact ih _

theorem liveSlots_length (slot : Nat) (es : List Entry) :
    (liveSlots slot es).length = es.countP (·.live.isSome) := by
  induction es generalizing slot with
  | nil => rfl
  | cons e rest ih =>
    unfold liveSlots
    split
    · next hlive => simp [ih, hlive]
    · next hlive => simp [ih, hlive]

/-- No slot holds an object. -/
def Dead (h : Heap) : Prop := ∀ e ∈ h.entries, e.live = none

theorem Dead.live? (hd : h.Dead) (r : Handle) : h.live? r = none := by
  unfold Heap.live?
  cases he : h.entries[r.slot]? with
  | none => rfl
  | some e => simp [hd e (Array.mem_of_getElem? he)]

theorem dead_iff_liveCount : h.Dead ↔ h.liveCount = 0 := by
  simp [Dead, liveCount, Array.countP_eq_zero]

theorem Dead.total (hd : h.Dead) : h.total = 0 := by
  unfold Heap.total
  rw [List.sum_eq_zero_iff_forall_eq_nat]
  intro n hn
  obtain ⟨e, he, rfl⟩ := List.mem_map.mp hn
  simp [Entry.refs, hd e (Array.mem_toList_iff.mp he)]

theorem dead_of_live? (hl : ∀ r, h.live? r = none) : h.Dead := by
  intro e he
  obtain ⟨slot, hslot⟩ := Array.mem_iff_getElem?.mp he
  simpa [Heap.live?, hslot] using hl ⟨slot, e.generation⟩

/-- A sweep leaves nothing live. -/
theorem sweep_ok (hs : h.Sound) :
    ∃ n h', sweep h = .ok n h' ∧ h'.Sound ∧ h'.Dead ∧
      h'.stats = {h.stats with swept := h.stats.swept+h.liveCount} := by
  have hlength : (liveSlots 0 h.entries.toList).length = h.liveCount := by
    rw [liveSlots_length, liveCount, ← Array.countP_toList]
  have hdead : Dead ⟨h.entries.map Entry.swept, (liveSlots 0 h.entries.toList).reverse++h.free,
      {h.stats with swept := h.stats.swept+h.liveCount}⟩ := by
    intro e he
    obtain ⟨old, _, rfl⟩ := Array.mem_map.mp he
    exact old.swept_live
  refine ⟨_, _, by simp only [sweep, hlength]; rfl, ⟨?_, ?_, ?_, ?_⟩, hdead, rfl⟩
  · intro slot hslot
    have hin : slot < h.entries.size := by
      rcases List.mem_append.mp hslot with hslot | hslot
      · obtain ⟨i, e, hi, _, rfl⟩ := mem_liveSlots.mp (List.mem_reverse.mp hslot)
        have := (List.getElem?_eq_some_iff.mp hi).1
        simp only [Array.length_toList] at this
        omega
      · obtain ⟨e, he, _⟩ := hs.free slot hslot
        exact (Array.getElem?_eq_some_iff.mp he).1
    have hat : (h.entries.map Entry.swept)[slot]? = some h.entries[slot].swept := by simp [hin]
    exact ⟨_, hat, Entry.swept_live _⟩
  · have hslots := liveSlots_nodup 0 h.entries.toList
    refine List.nodup_append.mpr ⟨List.pairwise_reverse.mpr (hslots.imp Ne.symm), hs.distinct, ?_⟩
    rintro a ha b hb rfl
    obtain ⟨i, e, hi, hlive, rfl⟩ := mem_liveSlots.mp (List.mem_reverse.mp ha)
    obtain ⟨e', he', hdead'⟩ := hs.free _ hb
    rw [Nat.zero_add, ← Array.getElem?_toList, hi] at he'
    cases he'
    simp [hdead'] at hlive
  · have hstock := hs.stock
    rw [dead_iff_liveCount.mp hdead]
    simp only
    omega
  · intro hswept
    have hnone : h.stats.swept = 0 ∧ h.liveCount = 0 := by simpa using hswept
    have hold := hs.holds hnone.1
    rw [(dead_iff_liveCount.mpr hnone.2).total] at hold
    rw [hdead.total]
    exact hold

end Heap
end RatScript
