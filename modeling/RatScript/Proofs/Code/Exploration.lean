import Mathlib
import RatScript.Code.Heights

/-!
What the exploration of a function decides. Heights given to offsets are consistent if every path
from one of them goes on to another or ends properly; exploration succeeds if there are such
heights, and the heights it finds are such.
-/

namespace RatScript.Survey

/-- A slot that an instruction names belongs to a runnable and lies below the height. -/
def SlotLive (s : Survey) (i : Instruction) (height : Nat) : Prop :=
  ∀ slot, i.operand = .slot slot → s.function.isScript = false ∧ slot.toNat < height

theorem effect_eq {s : Survey} {i : Instruction} (hcall : i.op ≠ .call)
    (hnative : i.op ≠ .callNative) : s.effect i = .ok i.op.effect := by
  obtain ⟨offset, op, operand⟩ := i
  unfold effect
  split
  · next heq _ => exact absurd heq hnative
  · next heq _ => exact absurd heq hcall
  · rfl

theorem target_eq_ok {s : Survey} {i : Instruction} {t : Nat} :
    s.target i = .ok t ↔ i.target? = some t ∧ t ≤ s.size := by
  unfold target
  cases ht : i.target? with
  | none => simp
  | some u =>
    simp only [Option.some.injEq]
    split <;> grind

theorem afterLoop_eq_ok {s : Survey} {i : Instruction} {out : Nat} :
    s.afterLoop i = .ok out ↔ ∃ j, s.start? i.next = some j ∧ j.op = .loop ∧ j.next = out := by
  unfold afterLoop
  cases hj : s.start? i.next with
  | none => simp
  | some j =>
    simp only [Option.some.injEq]
    split <;> grind

/-- Where an instruction leads from a height that it turns into `after`. -/
def onward (s : Survey) (i : Instruction) (height after : Nat) :
    Except Defect (List (Nat × Nat)) :=
  match i.op with
  | .ret => .ok []
  | .jump | .loop => (s.target i).map fun t => [(t, after)]
  | .jumpIf _ =>
    if height = 0 then .error .conditionMissing
    else (s.target i).map fun t => [(i.next, after), (t, after)]
  | .endRepeat =>
    if height = 0 then .error .counterMissing
    else (s.afterLoop i).map fun out => [(out, after-1), (i.next, after)]
  | _ => .ok [(i.next, after)]

theorem successors_eq_onward {s : Survey} {i : Instruction} {height : Nat} {e : Effect}
    (he : s.effect i = .ok e) (hpops : e.pops ≤ height) (hlive : s.SlotLive i height) :
    s.successors i height = s.onward i height (height-e.pops+e.pushes) := by
  simp only [successors, he, bind, Except.bind, Nat.not_lt.mpr hpops, if_false]
  split
  · next slot hslot =>
    obtain ⟨hscript, hlt⟩ := hlive slot hslot
    rw [if_neg (by simp [hscript]; omega)]
    rfl
  · rfl

theorem successors_eq_ok {s : Survey} {i : Instruction} {height : Nat} {next : List (Nat × Nat)} :
    s.successors i height = .ok next ↔ ∃ e, s.effect i = .ok e ∧ e.pops ≤ height ∧
      s.SlotLive i height ∧ s.onward i height (height-e.pops+e.pushes) = .ok next := by
  constructor
  · intro h
    cases he : s.effect i with
    | error defect => simp [successors, he, bind, Except.bind] at h
    | ok e =>
      by_cases hpops : height < e.pops
      · simp [successors, he, bind, Except.bind, hpops] at h
      · have hlive : s.SlotLive i height := by
          intro slot hslot
          simp only [successors, he, bind, Except.bind, hpops, if_false, hslot] at h
          split at h
          · cases h
          · next hbad => simpa using hbad
        exact ⟨e, rfl, by omega, hlive, by rw [← successors_eq_onward he (by omega) hlive, h]⟩
  · rintro ⟨e, he, hpops, hlive, h⟩
    rw [successors_eq_onward he hpops hlive, h]

/-- Only a return leads nowhere. -/
theorem successors_ne_nil {s : Survey} {i : Instruction} {height : Nat} {next : List (Nat × Nat)}
    (h : s.successors i height = .ok next) (hop : i.op ≠ .ret) : next ≠ [] := by
  obtain ⟨e, _, _, _, h⟩ := successors_eq_ok.mp h
  rintro rfl
  unfold onward at h
  split at h
  · next hret => exact hop hret
  · cases ht : s.target i <;> simp [ht, Except.map] at h
  · cases ht : s.target i <;> simp [ht, Except.map] at h
  · split at h
    · cases h
    · cases ht : s.target i <;> simp [ht, Except.map] at h
  · split at h
    · cases h
    · cases ht : s.afterLoop i <;> simp [ht, Except.map] at h
  · cases h

/-- A path may come to an offset with a height: where `H` has that height, or at the end of a
script. -/
def Admits (s : Survey) (H : Nat → Option Nat) (arrival : Nat × Nat) : Prop :=
  if arrival.1 = s.size then s.function.isScript = true else H arrival.1 = some arrival.2

/-- The instruction at an offset can be met at a height, and all that may follow satisfies `P`. -/
def Proceeds (s : Survey) (offset height : Nat) (P : Nat × Nat → Prop) : Prop :=
  ∃ i next, s.start? offset = some i ∧ s.successors i height = .ok next ∧ ∀ a ∈ next, P a

theorem Proceeds.mono {s : Survey} {offset height : Nat} {P Q : Nat × Nat → Prop}
    (h : s.Proceeds offset height P) (hpq : ∀ a, P a → Q a) : s.Proceeds offset height Q := by
  obtain ⟨i, next, hi, hn, hp⟩ := h
  exact ⟨i, next, hi, hn, fun a ha => hpq a (hp a ha)⟩

theorem Admits.mono {s : Survey} {H K : Nat → Option Nat} {a : Nat × Nat} (h : s.Admits H a)
    (hk : ∀ offset height, H offset = some height → K offset = some height) : s.Admits K a := by
  unfold Admits at h ⊢
  split
  · next he => rwa [if_pos he] at h
  · next he =>
    rw [if_neg he] at h
    exact hk _ _ h

def Consistent (s : Survey) (H : Nat → Option Nat) : Prop :=
  ∀ offset height, H offset = some height →
    offset < s.size ∧ s.Proceeds offset height (s.Admits H)

/-- The heights kept so far, by offset. -/
def table (heights : Array (Option Nat)) (offset : Nat) : Option Nat := heights[offset]?.join

theorem table_of_lt {heights : Array (Option Nat)} {offset : Nat} (h : offset < heights.size) :
    table heights offset = heights[offset] := by
  simp [table, h]

theorem table_set {heights : Array (Option Nat)} {offset : Nat} (h : offset < heights.size)
    (height other : Nat) :
    table (heights.set offset (some height)) other =
      if other = offset then some height else table heights other := by
  by_cases ho : other = offset
  · subst other
    simp [table]
  · simp [table, ho, Ne.symm ho]

theorem table_replicate (n offset : Nat) : table (Array.replicate n none) offset = none := by
  simp only [table, Array.getElem?_replicate]
  split <;> rfl

/-- If consistent heights admit all that is left to do, exploration succeeds and finds no others. -/
theorem explore_ok_of_consistent (s : Survey) (H : Nat → Option Nat) (hc : s.Consistent H)
    (heights : Array (Option Nat)) (work : List (Nat × Nat)) (hsize : heights.size = s.size+1)
    (hold : ∀ offset height, table heights offset = some height → H offset = some height)
    (hwork : ∀ a ∈ work, s.Admits H a) :
    ∃ out, s.explore heights work = .ok out ∧
      ∀ offset height, table out offset = some height → H offset = some height := by
  fun_induction explore s heights work with
  | case1 heights => exact ⟨heights, rfl, hold⟩
  | case2 heights height work hscript ih =>
    exact ih hsize hold (fun a ha => hwork a (List.mem_cons_of_mem _ ha))
  | case3 heights height work hscript =>
    have h := hwork (s.size, height) (by simp)
    simp [Admits, hscript] at h
  | case4 heights offset height work hend hnone =>
    have h := hwork (offset, height) (by simp)
    simp only [Admits, hend, if_false] at h
    obtain ⟨_, i, _, hi, _⟩ := hc offset height h
    simp [hnone] at hi
  | case5 heights offset work hend i hi hlt height hseen ih =>
    exact ih hsize hold (fun a ha => hwork a (List.mem_cons_of_mem _ ha))
  | case6 heights offset height work hend i hi hlt seen hseen hne =>
    have h := hwork (offset, height) (by simp)
    simp only [Admits, hend, if_false] at h
    have hs := hold offset seen (by rw [table_of_lt hlt, hseen])
    rw [h] at hs
    exact absurd (Option.some.inj hs).symm hne
  | case7 heights offset height work hend i hi hlt hseen defect hdefect =>
    have h := hwork (offset, height) (by simp)
    simp only [Admits, hend, if_false] at h
    obtain ⟨_, j, next, hj, hn, _⟩ := hc offset height h
    rw [hi] at hj
    cases hj
    simp [hdefect] at hn
  | case8 heights offset height work hend i hi hlt hseen next hnext ih =>
    have h := hwork (offset, height) (by simp)
    simp only [Admits, hend, if_false] at h
    apply ih (by simpa using hsize)
    · intro other k hk
      rw [table_set hlt] at hk
      split at hk
      · next he => rw [he, h, hk]
      · exact hold other k hk
    · intro a ha
      rcases List.mem_append.mp ha with ha | ha
      · obtain ⟨_, j, next', hj, hn, hall⟩ := hc offset height h
        rw [hi] at hj
        cases hj
        rw [hnext] at hn
        cases hn
        exact hall a ha
      · exact hwork a (List.mem_cons_of_mem _ ha)
  | case9 heights offset height work hend i hi hlt =>
    have h := hwork (offset, height) (by simp)
    simp only [Admits, hend, if_false] at h
    have := (hc offset height h).1
    omega

/-- Heights found by exploration are consistent, extend those it began with and admit all the work
it was given. -/
theorem consistent_of_explore (s : Survey) (heights : Array (Option Nat)) (work : List (Nat × Nat))
    (out : Array (Option Nat)) (hsize : heights.size = s.size+1)
    (hok : s.explore heights work = .ok out)
    (hcov : ∀ offset height, table heights offset = some height →
      offset < s.size ∧ s.Proceeds offset height fun a => s.Admits (table heights) a ∨ a ∈ work) :
    s.Consistent (table out) ∧
    (∀ offset height, table heights offset = some height → table out offset = some height) ∧
    ∀ a ∈ work, s.Admits (table out) a := by
  fun_induction explore s heights work with
  | case1 heights =>
    cases hok
    refine ⟨?_, fun _ _ h => h, by simp⟩
    intro offset height h
    exact ⟨(hcov offset height h).1, (hcov offset height h).2.mono (by simp)⟩
  | case2 heights height work hscript ih =>
    have hhere (H : Nat → Option Nat) : s.Admits H (s.size, height) := by simp [Admits, hscript]
    obtain ⟨hc, hext, hwork⟩ := ih hsize hok (fun offset k hk =>
      ⟨(hcov offset k hk).1, (hcov offset k hk).2.mono (by
        intro a ha
        simp only [List.mem_cons] at ha
        rcases ha with ha | rfl | ha
        · exact .inl ha
        · exact .inl (hhere _)
        · exact .inr ha)⟩)
    refine ⟨hc, hext, ?_⟩
    intro a ha
    rcases List.mem_cons.mp ha with rfl | ha
    · exact hhere _
    · exact hwork a ha
  | case3 => cases hok
  | case4 => cases hok
  | case5 heights offset work hend i hi hlt height hseen ih =>
    have hhere : s.Admits (table heights) (offset, height) := by
      simp [Admits, hend, table_of_lt hlt, hseen]
    obtain ⟨hc, hext, hwork⟩ := ih hsize hok (fun other k hk =>
      ⟨(hcov other k hk).1, (hcov other k hk).2.mono (by
        intro a ha
        simp only [List.mem_cons] at ha
        rcases ha with ha | rfl | ha
        · exact .inl ha
        · exact .inl hhere
        · exact .inr ha)⟩)
    refine ⟨hc, hext, ?_⟩
    intro a ha
    rcases List.mem_cons.mp ha with rfl | ha
    · exact hhere.mono hext
    · exact hwork a ha
  | case6 => cases hok
  | case7 => cases hok
  | case8 heights offset height work hend i hi hlt hseen next hnext ih =>
    have hset (other k : Nat) (h : table heights other = some k) :
        table (heights.set offset (some height)) other = some k := by
      rw [table_set hlt]
      split
      · next he =>
        rw [he, table_of_lt hlt, hseen] at h
        cases h
      · exact h
    have hhere : s.Admits (table (heights.set offset (some height))) (offset, height) := by
      simp [Admits, hend, table_set hlt]
    obtain ⟨hc, hext, hwork⟩ := ih (by simpa using hsize) hok (by
      intro other k hk
      rw [table_set hlt] at hk
      split at hk
      · next he =>
        cases hk
        subst other
        exact ⟨by omega, i, next, hi, hnext, fun a ha => .inr (List.mem_append_left _ ha)⟩
      · refine ⟨(hcov other k hk).1, (hcov other k hk).2.mono ?_⟩
        intro a ha
        simp only [List.mem_cons] at ha
        rcases ha with ha | rfl | ha
        · exact .inl (ha.mono hset)
        · exact .inl hhere
        · exact .inr (List.mem_append_right _ ha))
    refine ⟨hc, fun other k hk => hext other k (hset other k hk), ?_⟩
    intro a ha
    rcases List.mem_cons.mp ha with rfl | ha
    · exact hhere.mono hext
    · exact hwork a (List.mem_append_right _ ha)
  | case9 => cases hok

/-- Exploration of a whole function ends well exactly if some consistent heights admit its entry. -/
theorem explore_entry_ok_iff (s : Survey) :
    (∃ out, s.explore (Array.replicate (s.size+1) none) [(0, s.function.arity)] = .ok out) ↔
      ∃ H, s.Consistent H ∧ s.Admits H (0, s.function.arity) := by
  constructor
  · rintro ⟨out, hok⟩
    obtain ⟨hc, _, hwork⟩ := s.consistent_of_explore _ _ out (by simp) hok
      (by simp [table_replicate])
    exact ⟨table out, hc, hwork _ (by simp)⟩
  · rintro ⟨H, hc, hentry⟩
    obtain ⟨out, hok, _⟩ := s.explore_ok_of_consistent H hc (Array.replicate (s.size+1) none)
      [(0, s.function.arity)] (by simp) (by simp [table_replicate]) (by simpa using hentry)
    exact ⟨out, hok⟩

/-- From one offset and height a path may go on to another. -/
def Leads (s : Survey) (x y : Nat × Nat) : Prop :=
  x.1 ≠ s.size ∧ ∃ i next, s.start? x.1 = some i ∧ s.successors i x.2 = .ok next ∧ y ∈ next

/-- Some path from the entry of the function comes to an offset with a height. -/
inductive Reaches (s : Survey) : Nat × Nat → Prop
  | entry : s.Reaches (0, s.function.arity)
  | next {x y : Nat × Nat} (h : s.Reaches x) (hl : s.Leads x y) : s.Reaches y

/-- Some path comes to an offset with a height and does not go on. -/
def Ends (s : Survey) (x : Nat × Nat) : Prop := s.Reaches x ∧ ∀ y, ¬ s.Leads x y

end RatScript.Survey
