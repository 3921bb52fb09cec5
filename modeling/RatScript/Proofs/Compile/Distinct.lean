import RatScript.Proofs.Compile.Writing

/-!
Names of runnables. None is declared under a name that is taken, so a name leads to the only runnable
that has it.
-/

set_option synthInstance.maxSize 65536

namespace RatScript

open Stateful

namespace Builder

/-- Names of the functions, the script's first. -/
def titles (b : Builder) : List String := b.functions.toList.map (·.name)

/-- Behind the script each function has a name of its own. -/
structure Apart (b : Builder) : Prop where
  script : b.titles ≠ []
  distinct : (b.titles.drop 1).Nodup

theorem Apart.of_titles {b b' : Builder} (h : b.Apart) (ht : b'.titles = b.titles) : b'.Apart :=
  ⟨ht ▸ h.script, ht ▸ h.distinct⟩

theorem titles_modifyFunction (b : Builder) (id : Nat) {f : Function → Function}
    (hf : ∀ g, (f g).name = g.name) : (b.modifyFunction id f).titles = b.titles := by
  apply List.ext_getElem?
  intro n
  simp only [titles, modifyFunction, Array.toList_modify, List.getElem?_map, List.getElem?_modify]
  split <;> cases b.functions.toList[n]? <;> simp [hf]

theorem Apart.push {b : Builder} (h : b.Apart) {f : Function} (hf : f.name ∉ b.titles.drop 1) :
    ({b with functions := b.functions.push f} : Builder).Apart := by
  have htitles : ({b with functions := b.functions.push f} : Builder).titles = b.titles++[f.name] := by
    simp [titles]
  have hscript : 1 ≤ b.titles.length := List.length_pos_iff.mpr h.script
  refine ⟨by simp [htitles], ?_⟩
  rw [htitles, List.drop_append_of_le_length hscript]
  exact List.nodup_append.mpr ⟨h.distinct, List.nodup_singleton _, by
    rintro x hx y hy rfl
    exact hf (List.mem_singleton.mp hy ▸ hx)⟩

theorem runnable?_eq_none {b : Builder} {name : String} (h : b.runnable? name = none) :
    name ∉ b.titles.drop 1 := by
  rw [runnable?, List.find?_eq_none] at h
  rw [titles, ← List.map_drop]
  intro hmem
  obtain ⟨f, hf, rfl⟩ := List.mem_map.mp hmem
  exact h f hf (beq_self_eq_true _)

end Builder

namespace Compile

open Builder (Apart)

instance : OnFunctions (Invariant Apart) := ⟨fun h _ hb => hb.of_titles (by
  rw [Builder.titles, Builder.titles, h])⟩

theorem apart_modifyFunction {id : Builder → Nat} {f : Builder → Function → Function}
    (hf : ∀ b g, (f b g).name = g.name) :
    Keeps (Invariant Apart) (modify fun b => b.modifyFunction (id b) (f b) : Compile Unit) :=
  Keeps.modify fun b hb => hb.of_titles (b.titles_modifyFunction _ (hf b))

instance (bytes : List UInt8) : Keeps (Invariant Apart) (emitBytes bytes) :=
  apart_modifyFunction fun _ _ => rfl

instance (add : Chunk → Except PoolFault (Chunk × UInt8)) : Keeps (Invariant Apart) (enter add) :=
  Keeps.get_bind fun b hb => by
    cases add b.chunk with
    | ok r => exact hb.of_titles (b.titles_modifyFunction _ fun _ => rfl)
    | error fault => exact hb

instance (at_ : Nat) : Keeps (Invariant Apart) (patchJump at_) := by
  unfold patchJump
  refine Keeps.seq inferInstance fun n => ?_
  split
  · exact apart_modifyFunction fun _ _ => rfl
  · infer_instance

instance (name : Option String) (t : Located) : Keeps (Invariant Apart) (addLocal name t) := by
  unfold addLocal
  refine Keeps.seq inferInstance fun b => ?_
  split
  · refine Keeps.modify fun b hb => hb.of_titles ?_
    exact b.titles_modifyFunction b.current
      (f := fun f => {f with locals := f.locals.push (name.getD "(repeat)")}) fun _ => rfl
  · infer_instance

/-- What is known of the functions is so after a step that only reads tokens. -/
theorem keeps_of_still {α : Type} {x : Compile α} [h : Keeps Builder.Still x] {P : Builder → Prop}
    (hp : ∀ b b', b'.functions = b.functions → P b → P b') : Keeps (Invariant P) x :=
  ⟨fun b => hp b _ (h.keeps b).functions⟩

/-- A runnable is declared only if there is none of its name. -/
theorem runnableDeclaration_apart (statement : Compile Unit) [Keeps (Invariant Apart) statement] :
    Keeps (Invariant Apart) (runnableDeclaration statement) := by
  have hcomplain {α : Type} {t : Located} {c : Complaint} {next : Unit → Compile α} :
      Yields Apart (complain t c >>= next) (fun _ => Apart) (fun _ => Apart) :=
    Yields.bind (Q := fun _ _ => False) (Yields.throw fun _ h => h) fun _ _ h => h.elim
  refine Yields.keeps ?_
  dsimp only [runnableDeclaration]
  refine Yields.get_bind fun b hb => Yields.start hb ?_
  split
  · exact (Yields.of_keeps inferInstance).bind fun _ => hcomplain
  refine (Yields.of_keeps inferInstance).bind fun name => (Yields.of_keeps inferInstance).bind fun t =>
    Yields.get_bind fun b hb => ?_
  split
  · exact Yields.start hb hcomplain
  next hfresh =>
    have hnone : b.runnable? name = none := by
      cases hrunnable : b.runnable? name with
      | none => rfl
      | some f => simp [hrunnable] at hfresh
    -- the name stays free while the rest of the header is read
    let Free (b : Builder) := b.Apart ∧ name ∉ b.titles.drop 1
    have hread {α : Type} (x : Compile α) [Keeps Builder.Still x] :
        Yields Free x (fun _ => Free) (fun _ => Apart) := by
      have hkeeps : Keeps (Invariant Free) x := keeps_of_still fun b b' h hb => by
        have htitles : b'.titles = b.titles := by rw [Builder.titles, Builder.titles, h]
        exact ⟨hb.1.of_titles htitles, htitles ▸ hb.2⟩
      exact (Yields.of_keeps hkeeps).mono (fun _ h => h) (fun _ _ h => h) fun _ _ h => h.1
    refine Yields.start (P := Free) ⟨hb, Builder.runnable?_eq_none hnone⟩ ?_
    refine (hread _).bind fun params => (hread _).bind fun _ => Yields.get_bind fun b hb =>
      Yields.start hb ?_
    refine (Yields.modify fun b hb => hb.1.push (f := .new name (some b.current) params.size) hb.2).bind
      fun _ => Yields.of_keeps ?_
    refine Keeps.seq inferInstance fun _ => Keeps.seq inferInstance fun after => ?_
    generalize Word.ofNat? _ = word
    cases word with
    | none => infer_instance
    | some lines =>
      exact Keeps.seq (apart_modifyFunction fun _ _ => rfl) fun _ => inferInstance

instance apart_statementAt (levels : Nat) : Keeps (Invariant Apart) (statementAt levels) :=
  keeps_statementAt (fun inner _ => runnableDeclaration_apart inner) levels

end Compile

/-- No two runnables of a program that compiles have the same name. -/
theorem compile_apart {source : String} {p : Program} (h : compile source = .ok p) :
    ((p.functions.toList.drop 1).map (·.name)).Nodup := by
  have happart (tokens : List Located) : (after Compile.script (.start tokens)).Apart := by
    have hscript : Keeps (Invariant Builder.Apart) Compile.script :=
      Keeps.get_bind fun b hb => Keeps.keeps (R := Invariant Builder.Apart) b hb
    exact hscript.keeps _ ⟨by simp [Builder.titles, Builder.start], by simp [Builder.titles, Builder.start]⟩
  unfold compile at h
  split at h
  · cases h
  next tokens _ =>
    have hb := (happart tokens).distinct
    rw [Builder.titles, ← List.map_drop] at hb
    unfold compileTokens at h
    split at h
    · next hscript =>
      rw [after_of_ok hscript] at hb
      split at h
      · cases h
        exact hb
      · cases h
    · next hscript =>
      rw [after_of_error hscript] at hb
      split at h
      · cases h
        exact hb
      · cases h

namespace Program

/-- Where names are distinct, each leads to the only runnable that has it. -/
theorem runnable?_eq_some {p : Program} (h : ((p.functions.toList.drop 1).map (·.name)).Nodup)
    {id : Nat} {f : Function} (hf : p.function? id = some f) (hlater : 0 < id) :
    p.runnable? f.name = some f := by
  have hmem : f ∈ p.functions.toList.drop 1 := by
    rw [List.mem_iff_getElem?]
    refine ⟨id-1, ?_⟩
    rw [List.getElem?_drop, Array.getElem?_toList, Nat.add_sub_cancel' hlater]
    exact hf
  cases hfind : p.runnable? f.name with
  | none => exact absurd (beq_self_eq_true f.name) (List.find?_eq_none.mp hfind f hmem)
  | some g =>
    have hname : g.name = f.name := by simpa using List.find?_some hfind
    rw [List.inj_on_of_nodup_map h (List.mem_of_find?_eq_some hfind) hmem hname]

end Program
end RatScript
