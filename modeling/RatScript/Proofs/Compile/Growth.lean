import RatScript.Proofs.Code.Phrase

/-!
Programs grow while they are compiled: functions are added behind the others, constants behind the
constants of a function. What a phrase does in a function it does in any grown one.
-/

namespace RatScript

/-- A constant keeps its index while constants are added behind it. -/
theorem Chunk.constant?_of_prefix {chunk chunk' : Chunk} {index : UInt8} {c : Constant}
    (h : chunk.constants.toList <+: chunk'.constants.toList) (hc : chunk.constant? index = some c) :
    chunk'.constant? index = some c := by
  rw [constant?, ← Array.getElem?_toList] at hc ⊢
  obtain ⟨more, hmore⟩ := h
  rw [← hmore]
  exact List.getElem?_append_left (List.getElem?_eq_some_iff.mp hc).1 ▸ hc

/-- The later function has the header of the earlier one and its constants, and perhaps more. -/
structure Function.Grows (f g : Function) : Prop where
  name : g.name = f.name
  arity : g.arity = f.arity
  enclosing : g.enclosing = f.enclosing
  constants : f.chunk.constants.toList <+: g.chunk.constants.toList

namespace Function.Grows

theorem refl (f : Function) : f.Grows f := ⟨rfl, rfl, rfl, List.prefix_rfl⟩

theorem trans {f g k : Function} (hf : f.Grows g) (hg : g.Grows k) : f.Grows k :=
  ⟨hg.name.trans hf.name, hg.arity.trans hf.arity, hg.enclosing.trans hf.enclosing,
    hf.constants.trans hg.constants⟩

theorem isScript {f g : Function} (h : f.Grows g) : g.isScript = f.isScript := by
  rw [Function.isScript, Function.isScript, h.enclosing]

theorem constant? {f g : Function} (h : f.Grows g) {index : UInt8} {c : Constant}
    (hc : f.chunk.constant? index = some c) : g.chunk.constant? index = some c :=
  Chunk.constant?_of_prefix h.constants hc

end Function.Grows

/-- Every function of the earlier program stands, perhaps grown, at its place in the later one. -/
def Program.Grows (p q : Program) : Prop :=
  ∀ (id : Nat) (f : Function), p.functions[id]? = some f →
    ∃ g, q.functions[id]? = some g ∧ f.Grows g

namespace Program.Grows

theorem refl (p : Program) : p.Grows p := fun _ f h => ⟨f, h, .refl f⟩

theorem trans {p q r : Program} (hp : p.Grows q) (hq : q.Grows r) : p.Grows r := by
  intro id f h
  obtain ⟨g, hg, hfg⟩ := hp id f h
  obtain ⟨k, hk, hgk⟩ := hq id g hg
  exact ⟨k, hk, hfg.trans hgk⟩

theorem size_le {p q : Program} (h : p.Grows q) : p.functions.size ≤ q.functions.size := by
  apply Nat.le_of_not_lt
  intro hlt
  obtain ⟨g, hg, _⟩ := h _ _ (Array.getElem?_eq_getElem hlt)
  simp at hg

/-- The first runnable of a name stays the first: those added come behind it. -/
theorem runnable? {p q : Program} (h : p.Grows q) {name : String} {f : Function}
    (hf : p.runnable? name = some f) : ∃ g, q.runnable? name = some g ∧ g.arity = f.arity := by
  obtain ⟨hname, i, hi, hfi, hbefore⟩ := List.find?_eq_some_iff_getElem.mp hf
  have hplace (j : Nat) (hj : j < (p.functions.toList.drop 1).length) :
      ∃ (hk : j < (q.functions.toList.drop 1).length),
        (p.functions.toList.drop 1)[j].Grows (q.functions.toList.drop 1)[j] := by
    have hj' : j+1 < p.functions.size := by simp at hj; omega
    obtain ⟨g, hg, hgrows⟩ := h (j+1) _ (Array.getElem?_eq_getElem hj')
    obtain ⟨hk, rfl⟩ := Array.getElem?_eq_some_iff.mp hg
    exact ⟨by simp; omega, by simpa using hgrows⟩
  obtain ⟨hk, hgrows⟩ := hplace i hi
  refine ⟨_, List.find?_eq_some_iff_getElem.mpr ⟨?_, i, hk, rfl, ?_⟩, ?_⟩
  · rw [hgrows.name, hfi]
    exact hname
  · intro j hj
    rw [(hplace j (by omega)).2.name]
    exact hbefore j hj
  · rw [hgrows.arity, hfi]

end Program.Grows

section
variable {p q : Program} {f g : Function}

theorem Function.checkOperand_of_grows (hp : p.Grows q) (hf : f.Grows g) {i : Instruction}
    (h : f.checkOperand p i = .ok ()) : g.checkOperand q i = .ok () := by
  have hconstant (index : UInt8) (h : f.checkConstant p i.op index = .ok ()) :
      g.checkConstant q i.op index = .ok () := by
    unfold checkConstant at h ⊢
    cases hc : f.chunk.constant? index with
    | none => simp [hc] at h
    | some c =>
      rw [hf.constant? hc]
      simp only [hc] at h
      generalize i.op = op at h ⊢
      cases c with
      | number value => cases op <;> exact h
      | text content => cases op <;> exact h
      | runnable id =>
        cases op with
        | defineRunnable =>
          cases hq : p.function? id with
          | none => simp [hq] at h
          | some callee =>
            obtain ⟨callee', hq', hgrows⟩ := hp _ _ hq
            simp only [hq] at h
            simp only [Program.function?, hq', hgrows.isScript]
            exact h
        | _ => exact h
  unfold checkOperand at h ⊢
  cases hi : i.operand <;> simp only [hi] at h ⊢
  case constant index => exact hconstant index h
  case native index _ => exact hconstant index h
  case runnable index _ => exact hconstant index h

theorem Survey.effect_of_grows (hp : p.Grows q) (hf : f.Grows g) {i : Instruction} {e : Effect}
    (h : (Survey.mk p f #[]).effect i = .ok e) : (Survey.mk q g #[]).effect i = .ok e := by
  unfold effect at h ⊢
  split at h
  · exact h
  · next index hop _ =>
    cases hc : f.chunk.constant? index with
    | none => simp [Function.identifier?, hc] at h
    | some c =>
      have hid : g.identifier? index = f.identifier? index := by
        rw [Function.identifier?, Function.identifier?, hc, hf.constant? hc]
      rw [hid]
      cases hn : f.identifier? index with
      | none => simp [hn] at h
      | some name =>
        simp only [hn] at h ⊢
        cases hr : p.runnable? name with
        | none => simp [hr] at h
        | some callee =>
          obtain ⟨callee', hr', harity⟩ := hp.runnable? hr
          simp only [hr] at h
          simp only [hr', harity]
          exact h
  · exact h

theorem Directive.Stands.mono (hp : p.Grows q) (hf : f.Grows g) {d : Directive} {e : Effect}
    {height : Nat} (h : d.Stands p f e height) : d.Stands q g e height where
  straight := h.straight
  checked := Function.checkOperand_of_grows hp hf h.checked
  effect := Survey.effect_of_grows hp hf h.effect
  enough := h.enough
  returns := by
    rw [hf.isScript]
    exact h.returns
  live := by
    rw [hf.isScript]
    exact h.live

theorem Phrase.Takes.mono (hp : p.Grows q) (hf : f.Grows g) {c : Phrase} {h k : Nat}
    (hc : c.Takes p f h k) : c.Takes q g h k := by
  induction hc with
  | empty h => exact .empty h
  | one hd => exact .one (hd.mono hp hf)
  | seq _ _ ihf ihs => exact .seq ihf ihs
  | either _ hfit ih => exact .either ih hfit
  | branch _ _ hfity hfitn ihy ihn => exact .branch ihy ihn hfity hfitn
  | loop _ _ hfit iht ihb => exact .loop iht ihb hfit
  | counted _ hfit ih => exact .counted ih hfit

end
end RatScript
