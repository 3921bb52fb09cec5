import RatScript.Proofs.Compile.Acceptance
import RatScript.Proofs.Syntax.Tree

/-!
Names of locals. A function keeps the names of all the locals that are declared in it, in the order in
which they are written; nothing but a declaration or a counted loop in its body adds to them.
-/

set_option synthInstance.maxSize 65536

namespace RatScript

open Stateful

namespace Stmt

/-- Names of the locals that a part of a body declares, in order; that of a counter is for show. -/
def locals : {k : StmtKind} → Stmt k → List String
  | _, declare x _ => [x]
  | _, if_ _ yes => yes.locals
  | _, ifElse _ yes no => yes.locals++no.locals
  | _, while_ _ body => body.locals
  | _, repeat_ _ body => "(repeat)" :: body.locals
  | _, line first rest => first.locals++rest.locals
  | _, scope lines => lines.locals
  | _, _ => []

/-- The same for every runnable in a part of a script, with its parameters in front. -/
def frames : {k : StmtKind} → Stmt k → List (List String)
  | _, if_ _ yes => yes.frames
  | _, ifElse _ yes no => yes.frames++no.frames
  | _, while_ _ body | _, repeat_ _ body => body.frames
  | _, runnable _ params body => [params++body.locals]
  | _, line first rest => first.frames++rest.frames
  | _, scope lines => lines.frames
  | _, _ => []

end Stmt

namespace Builder

/-- Names of the locals of all functions. -/
def names (b : Builder) : List (List String) := b.functions.toList.map (·.locals.toList)

/-- No function's names change. -/
def Mute (b b' : Builder) : Prop := b'.names = b.names

instance : Std.Refl Mute := ⟨fun _ => rfl⟩

instance : Trans Mute Mute Mute := ⟨fun h k => Eq.trans k h⟩

theorem Still.mute {b b' : Builder} (h : b.Still b') : b.Mute b' := by
  rw [Mute, names, names, h.functions]

theorem names_modifyFunction (b : Builder) (id : Nat) (f : Function → Function)
    (add : List String) (hf : ∀ g, (f g).locals.toList = g.locals.toList++add) :
    (b.modifyFunction id f).names = b.names.modify id (·++add) := by
  apply List.ext_getElem?
  intro n
  simp only [names, modifyFunction, Array.toList_modify, List.getElem?_map, List.getElem?_modify]
  split <;> cases b.functions.toList[n]? <;> simp [hf]

theorem modify_append_nil (l : List (List String)) (id : Nat) : l.modify id (·++[]) = l := by
  apply List.ext_getElem?
  simp [List.getElem?_modify]

theorem modify_append_append (l : List (List String)) (id : Nat) (add more : List String) :
    (l.modify id (·++add)).modify id (·++more) = l.modify id (·++(add++more)) := by
  apply List.ext_getElem?
  intro n
  simp only [List.getElem?_modify]
  cases l[n]? <;> split <;> simp

theorem modify_new (l : List (List String)) (add : List String) :
    (l++[[]]).modify l.length (·++add) = l++[add] := by
  induction l with
  | nil => rfl
  | cons first rest ih =>
    rw [List.cons_append, List.length_cons, List.modify_succ_cons, ih, List.cons_append]

theorem mute_modifyFunction (b : Builder) (id : Nat) (f : Function → Function)
    (hf : ∀ g, (f g).locals = g.locals) : b.Mute (b.modifyFunction id f) := by
  rw [Mute, b.names_modifyFunction id f [] (by simp [hf]), modify_append_nil]

theorem names_opened (b : Builder) (name : String) (arity : Nat) :
    (b.opened name arity).names = b.names++[[]] := by
  simp [names, opened, Function.new]

theorem mute_closed (t b : Builder) (id : Nat) (lines : UInt16) : t.Mute (t.closed b id lines) :=
  t.mute_modifyFunction id (fun f => {f with lineCount := lines}) fun _ => rfl

/-- Inside a runnable the current function gets more names; a script gets more functions with
names. -/
structure Names (b b' : Builder) (own : List String) (made : List (List String)) : Prop where
  inside : b.inRunnable = true → b'.names = b.names.modify b.current (·++own)
  outside : b.inRunnable = false → b'.names = b.names++made

theorem Mute.names {b b' : Builder} (h : b.Mute b') : b.Names b' [] [] where
  inside _ := by rw [modify_append_nil]; exact h
  outside _ := by rw [List.append_nil]; exact h

theorem Names.trans {b b' b'' : Builder} {own own' : List String} {made made' : List (List String)}
    (h : b.Names b' own made) (k : b'.Names b'' own' made') (hcurrent : b'.current = b.current) :
    b.Names b'' (own++own') (made++made') where
  inside hin := by
    have hin' : b'.inRunnable = true := by rwa [inRunnable, hcurrent]
    rw [k.inside hin', h.inside hin, hcurrent, modify_append_append]
  outside hin := by
    have hin' : b'.inRunnable = false := by rwa [inRunnable, hcurrent]
    rw [k.outside hin', h.outside hin, List.append_assoc]

theorem Names.mute {b b' b'' : Builder} {own : List String} {made : List (List String)}
    (h : b.Names b' own made) (k : b'.Mute b'') : b.Names b'' own made := by
  have k : b''.names = b'.names := k
  exact ⟨fun hin => k.trans (h.inside hin), fun hin => k.trans (h.outside hin)⟩

theorem Mute.trans_names {b b' b'' : Builder} {own : List String} {made : List (List String)}
    (h : b.Mute b') (k : b'.Names b'' own made) (hcurrent : b'.current = b.current) :
    b.Names b'' own made := by
  have h := h.names.trans k hcurrent
  exact h

end Builder

namespace Compile

open Builder (Mute)

theorem mute_of_ok {α : Type} {b b' : Builder} {x : Compile α} {a : α} [h : Keeps Mute x]
    (hx : x b = .ok a b') : b.Mute b' :=
  h.of_ok hx

instance : Keeps Mute advance := ⟨fun b => by
  have hstill : b.Still (after advance b) := (inferInstance : Keeps Builder.Still advance).keeps b
  exact hstill.mute⟩

instance (bytes : List UInt8) : Keeps Mute (emitBytes bytes) :=
  Keeps.modify fun b => b.mute_modifyFunction _ _ fun _ => rfl

instance (add : Chunk → Except PoolFault (Chunk × UInt8)) : Keeps Mute (enter add) :=
  Keeps.get_bind fun b => by
    cases add b.chunk with
    | ok r => exact b.mute_modifyFunction _ _ fun _ => rfl
    | error fault => exact Std.Refl.refl b

instance (at_ : Nat) : Keeps Mute (patchJump at_) := by
  unfold patchJump
  refine Keeps.seq inferInstance fun n => ?_
  split
  · exact Keeps.modify fun b => b.mute_modifyFunction _ _ fun _ => rfl
  · infer_instance

theorem addLocal_names {name : Option String} {t : Located} {b b' : Builder} {a : Unit}
    (h : addLocal name t b = .ok a b') :
    b'.names = b.names.modify b.current (·++[name.getD "(repeat)"]) := by
  obtain ⟨_, _, hget, h⟩ := bind_eq_ok.mp h
  obtain ⟨rfl, rfl⟩ := get_eq_ok.mp hget
  split at h
  · rw [← modify_eq_ok.mp h]
    exact b.names_modifyFunction b.current
      (fun f => {f with locals := f.locals.push (name.getD "(repeat)")}) _ fun g => by simp
  · exact absurd h throw_ne_ok

end Compile
end RatScript
