import RatScript.Proofs.Meaning.Passing
import RatScript.Proofs.Meaning.Variables

/-!
The code of an expression does what the expression means: it leaves the value above what was there,
or fails with the fault of the evaluation.
-/

namespace RatScript

open Stateful Machine
open Directive (size)

/-- What an evaluated part leaves on the stack. -/
def ExprKind.cells : (k : ExprKind) → k.Result → List Content
  | leading, c | operand, c => [c]
  | arguments, cs => cs

/-- Cells of the stack that an evaluation takes at most. -/
def Expr.cells : {k : ExprKind} → Expr k → Nat
  | _, number _ | _, text _ | _, literal _ | _, name _ | _, count _ _ => 1
  | _, group inside => inside.cells
  | _, unary _ inside => inside.cells
  | _, assign _ _ value => value.cells
  | _, call _ arguments => 1+max 1 arguments.cells
  | _, head first => first.cells
  | _, join left (.operator _) right | _, join left (.comparison _) right =>
    max left.cells (1+right.cells)
  | _, join left _ right => max left.cells right.cells
  | _, nil => 0
  | _, cons first rest => max first.cells (1+rest.cells)

namespace Stmt

/-- Cells of the stack that a statement takes at most, given those of statements that are no
blocks. -/
def cells (leaf : Stmt .statement → Nat) : {k : StmtKind} → Stmt k → Nat
  | _, expression e => leaf (.expression e)
  | _, declare x value => leaf (.declare x value)
  | _, return_ value => leaf (.return_ value)
  | _, runnable name params body => leaf (.runnable name params body)
  | _, if_ test yes => max test.cells (yes.cells leaf)
  | _, ifElse test yes no => max test.cells (max (yes.cells leaf) (no.cells leaf))
  | _, while_ test body => max test.cells (body.cells leaf)
  | _, repeat_ count body => max count.cells (1+body.cells leaf)
  | _, line first rest => max (first.cells leaf) (rest.cells leaf)
  | _, scope lines => lines.cells leaf
  | _, blank | _, nil => 0

end Stmt

namespace Spot

variable {q : Spot} {z : Setting} {upper : List Content}

theorem Room.mono {k n : Nat} (h : q.Room z upper n) (hle : k ≤ n) : q.Room z upper k := by
  unfold Room at h ⊢
  omega

theorem Room.above {more : List Content} {n : Nat} (h : q.Room z upper (more.length+n)) :
    q.Room z (upper++more) n := by
  unfold Room at h ⊢
  rw [List.length_append]
  omega

end Spot

variable {p : Program} {P : Array (Array Value)} {z : Setting} {m₀ : Machine} {q : Spot} {v : View}
  {least limit line offset : Nat} {upper : List Content} {f : Function}

/-- There are as many values as arguments. -/
theorem Expr.length_of_eval : (args : Expr .arguments) → ∀ (σ : Store) (cs : List Content)
    (σ' : Store), args.eval line σ = .ok cs σ' → cs.length = args.length
  | nil, _, _, _, h => by
    cases h
    simp [Expr.length]
  | cons first rest, σ, cs, σ', h => by
    obtain ⟨c, σ₁, _, h⟩ := bind_eq_ok.mp h
    obtain ⟨ds, σ₂, hrest, h⟩ := bind_eq_ok.mp h
    have hds := length_of_eval rest σ₁ ds σ₂ hrest
    cases h
    rw [Expr.length, ← hds]
    rfl

/-- The left value stays if it decides; else it makes room for the right one. -/
theorem either_passes {truth : Bool} {d : Phrase} {a : Content} {w : Walk Content}
    (hlies : p.Lies q.function f line offset (Phrase.either truth d).directives)
    (hfit : size d.directives+1 < 0x10000)
    (hright : Yields (At p P z m₀ q least (offset+4) upper) w
      (fun c => At p P z m₀ q least (offset+4+size d.directives) (upper++[c])) (Breaks p m₀ limit)) :
    Yields (At p P z m₀ q least offset (upper++[a])) (if a.isTruthy = truth then pure a else w)
      (fun c => At p P z m₀ q least (offset+size (Phrase.either truth d).directives) (upper++[c]))
      (Breaks p m₀ limit) := by
  have hsize : offset+size (Phrase.either truth d).directives = offset+4+size d.directives := by
    simp only [Phrase.directives, Directive.size_cons, Directive.width_jumpIf, Directive.width_pop]
    omega
  have hboth : p.Lies q.function f line offset
      [.jumpIf truth (size d.directives+1), .pop] := (Program.Lies.append (E := d.directives) hlies).1
  rw [hsize]
  by_cases htruth : a.isTruthy = truth
  · rw [if_pos htruth]
    apply Yields.pure
    intro σ hσ
    have h := hσ.jumpIf hboth.cons.1 hfit
    rw [if_pos htruth, show offset+3+(size d.directives+1) = offset+4+size d.directives by omega] at h
    exact h
  · rw [if_neg htruth]
    refine hright.mono ?_ (fun _ _ h => h) fun _ _ h => h
    intro σ hσ
    have h := hσ.jumpIf hboth.cons.1 hfit
    rw [if_neg htruth] at h
    exact At.pop hboth rfl h

/-- A test and perhaps its denial. -/
theorem comparison_passes {t : Comparison} {a b : Content}
    (hlies : p.Lies q.function f line offset (Phrase.comparison t).directives) :
    Yields (At p P z m₀ q least offset (upper++[a, b]))
      (do return Content.bool (← Walk.lift line (Content.compare t a b)))
      (fun c => At p P z m₀ q least (offset+size (Phrase.comparison t).directives) (upper++[c]))
      (Breaks p m₀ limit) := by
  have htest {k : Test} (hlies : p.Lies q.function f line offset [.plain (.test k) rfl]) :
      Yields (At p P z m₀ q least offset (upper++[a, b]))
        (do return Content.bool (← Walk.lift line (Content.test k a b)))
        (fun c => At p P z m₀ q least (offset+1) (upper++[c])) (Breaks p m₀ limit) :=
    RatScript.passes hlies (hlies.drops_eq_false (by simp [Directive.plain])) fun _ _ hm =>
      Exec.execute_test hm k
  have hdenied {k : Test}
      (hlies : p.Lies q.function f line offset [.plain (.test k) rfl, .plain .not rfl]) :
      Yields (At p P z m₀ q least offset (upper++[a, b]))
        (do return Content.bool (← Walk.lift line ((Content.test k a b).map not)))
        (fun c => At p P z m₀ q least (offset+2) (upper++[c])) (Breaks p m₀ limit) := by
    obtain ⟨hfirst, hlast⟩ := hlies.cons
    have hwalk : (do return Content.bool (← Walk.lift line ((Content.test k a b).map not)) :
        Walk Content) = (do
          let c ← (do return Content.bool (← Walk.lift line (Content.test k a b)) : Walk Content)
          Walk.lift line (Expr.applyUnary .not c)) := by
      cases Content.test k a b <;> rfl
    rw [hwalk]
    exact Yields.bind (htest hfirst) fun c => RatScript.passes hlast
      (hlast.drops_eq_false (by simp [Directive.plain])) fun _ _ hm => Exec.execute_unary hm .not
  cases t with
  | equal | less | greater => exact htest hlies
  | notEqual | lessEqual | greaterEqual => exact hdenied hlies

/-- The code of an expression passes as its evaluation does. -/
theorem Expr.Codes.passes {k : ExprKind} {e : Expr k} {c : Phrase} (he : e.Codes p v c)
    (hq : q.Sees v) (hcalls : ∀ x ∈ e.calls, p.runnable? x = none)
    (hlies : p.Lies q.function f line offset c.directives) (hroom : q.Room z upper e.cells) :
    Yields (At p P z m₀ q least offset upper) (e.eval line)
      (fun r => At p P z m₀ q least (offset+size c.directives) (upper++k.cells r))
      (Breaks p m₀ limit) := by
  have hf := hlies.function
  induction he generalizing offset upper with
  | @number digits value index hv hc =>
    have hlies : p.Lies q.function f line offset [.constant index] := hlies
    rw [hq.function] at hc
    rw [eval, hv]
    exact RatScript.passes (w := (pure (.number value) : Walk Content)) hlies
      (hlies.drops_eq_false (by simp [Directive.constant])) fun _ _ hm =>
        Exec.execute_constant hm (hlies.byte rfl) hc rfl hroom
  | @text content index hc =>
    have hlies : p.Lies q.function f line offset [.constant index] := hlies
    rw [hq.function] at hc
    exact RatScript.passes (w := (pure (.text content) : Walk Content)) hlies
      (hlies.drops_eq_false (by simp [Directive.constant])) fun _ _ hm =>
        Exec.execute_constant hm (hlies.byte rfl) hc rfl hroom
  | literal value =>
    have hlies : p.Lies q.function f line offset [.literal value] := hlies
    exact RatScript.passes (w := (pure (literalContent value) : Walk Content)) hlies
      (hlies.drops_eq_false (by simp [Directive.literal, Directive.plain]))
      fun _ _ hm => Exec.execute_literal hm value hroom
  | group _ ih => exact ih hcalls hlies hroom
  | head _ ih => exact ih hcalls hlies hroom
  | @unary u e c _ ih =>
    obtain ⟨hinside, hlast⟩ := hlies.append
    have hlast : p.Lies q.function f line (offset+size c.directives) [.unary u] := hlast
    have hsize : offset+size (Phrase.seq c (.one (.unary u))).directives =
        offset+size c.directives+1 := by
      cases u <;> exact congrArg (offset+·) (Directive.size_append _ _)
    rw [hsize]
    refine Yields.bind (ih hcalls hinside hroom) fun (a : Content) => ?_
    exact RatScript.passes (w := Walk.lift line (applyUnary u a)) hlast
      (hlast.drops_eq_false (by cases u <;> simp [Directive.unary, Directive.plain, Unary.opcode]))
      fun _ _ hm => Exec.execute_unary hm u
  | @name x scope i hx =>
    have hlies : p.Lies q.function f line offset [.get scope i] := hlies
    have hbyte : f.chunk.code[offset+1]? = some i := hlies.byte (by cases scope <;> rfl)
    have hsize : offset+size (Phrase.one (.get scope i)).directives = offset+2 := by
      cases scope <;> rfl
    rw [hsize]
    refine RatScript.passes (w := Walk.read line x) hlies
      (hlies.drops_eq_false (by cases scope <;> simp [Directive.get, Directive.access])) ?_
    intro σ m hm
    have h : Exec.Follows line σ _ m _ _ := Exec.execute_get hm hf hq hx hbyte hroom
    cases scope <;> exact h
  | @count x up scope i hx =>
    have hlies : p.Lies q.function f line offset [.assign (.count up) scope i] := hlies
    have hbyte : f.chunk.code[offset+1]? = some i := hlies.byte (by cases scope <;> rfl)
    have hsize : offset+size (Phrase.one (.assign (.count up) scope i)).directives = offset+2 := by
      cases scope <;> rfl
    rw [hsize]
    refine RatScript.passes (w := (do
        let c ← Walk.lift line ((← Walk.assignable line x).counted up)
        Walk.write x c
        return c : Walk Content)) hlies
      (hlies.drops_eq_false (by cases scope <;> simp [Directive.assign, Directive.access,
        Assignment.opcode])) ?_
    intro σ m hm
    have h : Exec.Follows line σ _ m _ _ := Exec.execute_count hm hf hq hx hbyte up hroom
    cases scope <;> exact h
  | @assign x op e scope i c hx _ ih =>
    obtain ⟨hvalue, hlast⟩ := hlies.append
    have hlast : p.Lies q.function f line (offset+size c.directives)
        [.assign (assignment op) scope i] := hlast
    have hbyte : f.chunk.code[offset+size c.directives+1]? = some i :=
      hlast.byte (by cases scope <;> rfl)
    have hsize : offset+size (Phrase.seq c (.one (.assign (assignment op) scope i))).directives =
        offset+size c.directives+2 := by
      cases op <;> cases scope <;> exact congrArg (offset+·) (Directive.size_append _ _)
    have hdrops : f.chunk.drops (offset+size c.directives) = false := hlast.drops_eq_false (by
      cases op <;> cases scope <;> simp [Directive.assign, Directive.access, Assignment.opcode,
        assignment])
    rw [hsize]
    cases op with
    | none =>
      refine Yields.bind (ih hcalls hvalue hroom) fun (a : Content) => ?_
      refine RatScript.passes (w := (do
        let _ ← Walk.assignable line x
        Walk.write x a
        return a : Walk Content)) hlast hdrops ?_
      intro σ m hm
      have h : Exec.Follows line σ _ m _ _ := Exec.execute_set hm hf hq hx hbyte
      cases scope <;> exact h
    | some op =>
      refine Yields.bind (ih hcalls hvalue hroom) fun (a : Content) => ?_
      refine RatScript.passes (w := (do
        let d ← Walk.lift line ((← Walk.assignable line x).apply op a)
        Walk.write x d
        return d : Walk Content)) hlast hdrops ?_
      intro σ m hm
      have h : Exec.Follows line σ _ m _ _ := Exec.execute_compound hm hf hq hx hbyte op
      cases scope <;> exact h
  | @call x args index callee c hx hcallee =>
    exact absurd (hcalls x (by simp [calls])) (by simp [hcallee])
  | @callNative x args index native c hx hnative hcount _ ih =>
    obtain ⟨hlies, hlast⟩ := hlies.append
    obtain ⟨hfirst, hargs⟩ := hlies.append
    have hfirst : p.Lies q.function f line offset [.get .global index] := hfirst
    have hlast : p.Lies q.function f line (offset+2+size c.directives) [.callNative index native] := by
      have hoffset : offset+size (Phrase.seq (.one (.get .global index)) c).directives =
          offset+2+size c.directives := by
        rw [Phrase.directives, Directive.size_append, ← Nat.add_assoc]
        rfl
      rwa [hoffset] at hlast
    have hsize : offset+size (Phrase.seq (.seq (.one (.get .global index)) c)
        (.one (.callNative index native))).directives = offset+2+size c.directives+3 := by
      simp only [Phrase.directives, Directive.size_append, ← Nat.add_assoc]
      rfl
    rw [hq.function] at hx
    rw [hsize]
    have hcells : 1+max 1 args.cells = (Expr.call x args).cells := rfl
    refine Yields.bind (RatScript.passes (w := Walk.global line x) hfirst
      (hfirst.drops_eq_false (by simp [Directive.get, Directive.access])) fun _ _ hm =>
        Exec.execute_get_global hm hf (hfirst.byte rfl) hx (hroom.mono (by omega))) fun d => ?_
    refine Yields.bind ((ih (fun y hy => hcalls y (by simp [calls, hy])) hargs
      (Spot.Room.above (hroom.mono ?_))).with_fact (length_of_eval args)) fun (cs : List Content) => ?_
    · rw [← hcells]
      exact Nat.add_le_add_left (le_max_right _ _) 1
    · rintro σ ⟨hσ, hlength⟩
      rw [List.append_assoc] at hσ
      rw [hcount] at hlength
      have hbytes := hlast.holds
      simp only [Directive.bytes, Directive.callNative, Operand.bytes, holds_cons] at hbytes
      refine RatScript.passes (w := Walk.callNative line x cs) hlast
        (hlast.drops_eq_false (by simp [Directive.callNative])) ?_ σ hσ
      intro σ m hm
      refine Exec.execute_callNative hm hf hx hbytes.2.1 ?_ ?_ (hroom.mono (by omega))
      · rw [hlength]
        exact hbytes.2.2.1
      · rw [hlength]
        cases native <;> decide
  | @operator l r op c d _ _ ihl ihr =>
    obtain ⟨hleft, hlies⟩ := hlies.append
    obtain ⟨hright, hlast⟩ := hlies.append
    have hlast : p.Lies q.function f line (offset+size c.directives+size d.directives)
        [.plain (.operator op) rfl] := hlast
    have hsize : offset+size (Phrase.seq c (.seq d (.one (.plain (.operator op) rfl)))).directives =
        offset+size c.directives+size d.directives+1 := by
      simp only [Phrase.directives, Directive.size_append, Directive.size_cons, Directive.size_nil,
        Nat.add_assoc]
      rfl
    rw [hsize]
    have hcells : max l.cells (1+r.cells) = (join l (.operator op) r).cells := rfl
    simp only [calls, List.mem_append, or_imp, forall_and] at hcalls
    refine Yields.bind (ihl hcalls.1 hleft (hroom.mono (by omega))) fun (a : Content) => ?_
    refine Yields.bind (ihr hcalls.2 hright (Spot.Room.above (hroom.mono ?_))) fun (b : Content) => ?_
    · rw [← hcells]
      exact le_max_right _ _
    · rw [List.append_assoc]
      exact RatScript.passes (w := Walk.lift line (a.apply op b)) hlast
        (hlast.drops_eq_false (by simp [Directive.plain])) fun _ _ hm => Exec.execute_operator hm op
  | @comparison l r t c d _ _ ihl ihr =>
    obtain ⟨hleft, hlies⟩ := hlies.append
    obtain ⟨hright, hlast⟩ := hlies.append
    have hsize : offset+size (Phrase.seq c (.seq d (.comparison t))).directives =
        offset+size c.directives+size d.directives+size (Phrase.comparison t).directives := by
      simp only [Phrase.directives, Directive.size_append, Nat.add_assoc]
    rw [hsize]
    have hcells : max l.cells (1+r.cells) = (join l (.comparison t) r).cells := rfl
    simp only [calls, List.mem_append, or_imp, forall_and] at hcalls
    refine Yields.bind (ihl hcalls.1 hleft (hroom.mono (by omega))) fun (a : Content) => ?_
    refine Yields.bind (ihr hcalls.2 hright (Spot.Room.above (hroom.mono ?_))) fun (b : Content) => ?_
    · rw [← hcells]
      exact le_max_right _ _
    · rw [List.append_assoc]
      exact comparison_passes hlast
  | @and l r c d _ _ hfit ihl ihr =>
    obtain ⟨hleft, hlast⟩ := hlies.append
    obtain ⟨_, hright⟩ := Program.Lies.append
      (D := [.jumpIf false (size d.directives+1), .pop]) hlast
    have hcells : max l.cells r.cells = (join l .and r).cells := rfl
    simp only [calls, List.mem_append, or_imp, forall_and] at hcalls
    rw [Phrase.directives, Directive.size_append, ← Nat.add_assoc]
    refine Yields.bind (ihl hcalls.1 hleft (hroom.mono (by omega))) fun (a : Content) => ?_
    have h := either_passes (a := a) (w := r.eval line) hlast hfit
      (ihr hcalls.2 hright (hroom.mono (by omega)))
    cases ha : a.isTruthy <;> simp only [ha] at h ⊢ <;> exact h
  | @or l r c d _ _ hfit ihl ihr =>
    obtain ⟨hleft, hlast⟩ := hlies.append
    obtain ⟨_, hright⟩ := Program.Lies.append
      (D := [.jumpIf true (size d.directives+1), .pop]) hlast
    have hcells : max l.cells r.cells = (join l .or r).cells := rfl
    simp only [calls, List.mem_append, or_imp, forall_and] at hcalls
    rw [Phrase.directives, Directive.size_append, ← Nat.add_assoc]
    refine Yields.bind (ihl hcalls.1 hleft (hroom.mono (by omega))) fun (a : Content) => ?_
    have h := either_passes (a := a) (w := r.eval line) hlast hfit
      (ihr hcalls.2 hright (hroom.mono (by omega)))
    cases ha : a.isTruthy <;> simp only [ha] at h ⊢ <;> exact h
  | nil =>
    apply Yields.pure
    intro σ hσ
    exact (List.append_nil upper).symm ▸ hσ
  | @cons e rest c d _ _ ihe ihrest =>
    obtain ⟨hfirst, hrest⟩ := hlies.append
    have hcells : max e.cells (1+rest.cells) = (Expr.cons e rest).cells := rfl
    simp only [calls, List.mem_append, or_imp, forall_and] at hcalls
    rw [Phrase.directives, Directive.size_append, ← Nat.add_assoc]
    refine Yields.bind (ihe hcalls.1 hfirst (hroom.mono (by omega))) fun (a : Content) => ?_
    refine Yields.bind (ihrest hcalls.2 hrest (Spot.Room.above (hroom.mono ?_)))
      fun (b : List Content) => ?_
    · rw [← hcells]
      exact le_max_right _ _
    · apply Yields.pure
      intro σ hσ
      rw [List.append_assoc] at hσ
      exact hσ

end RatScript
