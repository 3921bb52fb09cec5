import RatScript.Proofs.Meaning.Statement

/-!
Scripts with at most one runnable, called in statements of their own, and the function that is the
runnable's code.
-/

namespace RatScript

open Directive (size encode)

/-- Calls no runnable of some names. -/
def Expr.Avoids (names : List String) {k : ExprKind} (e : Expr k) : Prop := ∀ x ∈ e.calls, x ∉ names

instance (names : List String) {k : ExprKind} (e : Expr k) : Decidable (e.Avoids names) :=
  inferInstanceAs (Decidable (∀ x ∈ e.calls, x ∉ names))

namespace Stmt

/-- An expression, as the body of a runnable may have it besides blocks. -/
def Bare (names : List String) : Stmt .statement → Prop
  | expression e => e.Avoids names
  | _ => False

/-- What a script may have besides blocks. -/
def Plain (names : List String) : Stmt .statement → Prop
  | expression (.head (.call _ arguments)) => arguments.Avoids names
  | expression e => e.Avoids names
  | declare _ value => ∀ e ∈ value, e.Avoids names
  | runnable _ _ body => body.Each (·.Avoids names) (Bare names)
  | _ => False

end Stmt

/-- There is at most one runnable. It is called in statements of their own, and its body has only
expressions and blocks. -/
structure Script.Plain (t : Script) : Prop where
  routines : t.routines.length ≤ 1
  lines : t.lines.Each (·.Avoids (t.routines.map (·.name))) (Stmt.Plain (t.routines.map (·.name)))
  last : ∀ s ∈ t.last,
    s.Each (·.Avoids (t.routines.map (·.name))) (Stmt.Plain (t.routines.map (·.name)))

/-! The function of a runnable. -/

/-- The function at a place of the program is the code of the runnable. -/
structure Routine.Written (r : Routine) (p : Program) (id : Nat) (g : Function) : Prop where
  function : p.function? id = some g
  later : 0 < id
  name : g.name = r.name
  arity : g.arity = r.params.length
  body : ∃ (s s' : Site) (c : Phrase) (l : List Note),
    s.toView = ⟨id, (r.params.map some).reverse⟩ ∧ s.offset = 1 ∧ r.row = 1+s.read ∧
      r.body.Codes p s s' c l ∧
      g.chunk.code.toList = encode (.newline :: c.directives++Program.epilogue) ∧
      ∀ n ∈ l, p.sourceLine n.function n.offset = 1+n.read

namespace Stmt.Codes

variable {p : Program} {k : StmtKind} {s s' : Site} {t : Stmt k} {c : Phrase} {l : List Note}

/-- Every runnable of a script gets a function behind those before it. -/
theorem functions_routines (h : t.Codes p s s' c l) (hs : s.function = 0) (row : Nat) :
    s'.functions = s.functions+(t.routines row).length := by
  induction h generalizing row with
  | blank | nil | expression | declare | return_ => rfl
  | declareLocal hne => exact absurd hs hne
  | @runnable s _ _ _ _ _ _ _ _ _ _ hlater _ _ _ _ hbody =>
    exact hbody.functions_eq (Nat.ne_of_gt hlater)
  | if_ _ _ _ ih | while_ _ _ _ ih | scope _ ih => exact ih hs _
  | @ifElse _ _ _ _ yes _ _ _ _ _ _ _ hyes _ _ _ ihyes ihno =>
    have hno := ihno (hyes.function_eq.trans hs) (row+yes.breaks+2)
    have hyes := ihyes hs (row+1)
    simp only [Site.forward, Site.ended, Site.past] at hno hyes
    rw [hno, hyes, routines, List.length_append, Nat.add_assoc]
  | @repeat_ s _ _ _ c _ _ _ _ _ ih =>
    have hcounting : ((s.past c).forward 1).ended.counting = ((s.past c).forward 1).ended :=
      if_pos hs
    rw [hcounting] at ih
    exact ih hs _
  | @line _ _ _ first _ _ _ _ _ hfirst _ ihfirst ihrest =>
    have hrest := ihrest (hfirst.function_eq.trans hs) (row+first.breaks+1)
    have hfirst := ihfirst hs row
    simp only [Site.ended] at hrest
    rw [hrest, hfirst, routines, List.length_append, Nat.add_assoc]

/-- The runnables of a script have been written one behind the other. -/
theorem written {r : Routine} {n : Nat} (h : t.Codes p s s' c l) (hs : s.function = 0)
    (hlines : ∀ n ∈ l, p.sourceLine n.function n.offset = 1+n.read)
    (hr : (t.routines (1+s.read))[n]? = some r) : ∃ g, r.Written p (s.functions+n) g := by
  induction h generalizing n with
  | blank | nil | expression | declare | declareLocal | return_ => simp [routines] at hr
  | @runnable s s' name params body c g index lines l _ hlater hf hname harity _ hbody hcode =>
    obtain ⟨rfl, rfl⟩ : n = 0 ∧ _ = r := by simpa [routines, List.getElem?_singleton] using hr
    refine ⟨g, hf, hlater, hname, harity, _, s', c, l, ?_, rfl, ?_, hbody, hcode, ?_⟩
    · simp [Site.inside, Site.ended]
    · simp only [Site.inside, Site.ended, Nat.add_assoc]
    · intro n hn
      exact hlines n (by simp [hn])
  | if_ _ _ _ ih => exact ih hs (fun n hn => hlines n (by simp [hn])) hr
  | @ifElse s _ _ _ yes _ _ _ _ _ _ _ hyes _ _ _ ihyes ihno =>
    rw [routines, List.getElem?_append] at hr
    split at hr
    · exact ihyes hs (fun n hn => hlines n (by simp [hn])) hr
    · have hread := hyes.read_eq
      have hfunctions := hyes.functions_routines hs (1+s.read+1)
      simp only [Site.forward, Site.ended, Site.past] at hread hfunctions
      have hno := @ihno (n-(yes.routines (1+s.read+1)).length) (hyes.function_eq.trans hs)
        (fun n hn => hlines n (by simp [hn])) (by
          simp only [Site.forward, Site.ended, hread]
          convert hr using 3
          omega)
      simp only [Site.forward, Site.ended, hfunctions] at hno
      rwa [Nat.add_assoc, Nat.add_sub_cancel' (by omega)] at hno
  | while_ _ _ _ ih => exact ih hs (fun n hn => hlines n (by simp [hn])) hr
  | @repeat_ s _ _ _ c _ _ _ _ _ ih =>
    have hcounting : ((s.past c).forward 1).ended.counting = ((s.past c).forward 1).ended :=
      if_pos hs
    rw [hcounting] at ih
    exact ih hs (fun n hn => hlines n (by simp [hn])) hr
  | @line s _ _ first _ _ _ _ _ hfirst _ ihfirst ihrest =>
    rw [routines, List.getElem?_append] at hr
    split at hr
    · exact ihfirst hs (fun n hn => hlines n (by simp [hn])) hr
    · have hread := hfirst.read_eq
      have hfunctions := hfirst.functions_routines hs (1+s.read)
      have hrest := @ihrest (n-(first.routines (1+s.read)).length) (hfirst.function_eq.trans hs)
        (fun n hn => hlines n (by simp [hn])) (by
          simp only [Site.ended, hread]
          convert hr using 3
          omega)
      simp only [Site.ended, hfunctions] at hrest
      rwa [Nat.add_assoc, Nat.add_sub_cancel' (by omega)] at hrest
  | scope _ ih => exact ih hs (fun n hn => hlines n (by simp [hn])) hr

end Stmt.Codes
end RatScript
