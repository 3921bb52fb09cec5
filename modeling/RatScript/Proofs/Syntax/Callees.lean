import RatScript.Proofs.Code.Carrying
import RatScript.Proofs.Syntax.Staging

/-!
The code of expressions and statements leaves callees alone. An expression leaves its results over what
was there, a statement the locals that it declares; none of these is a callee.
-/

namespace RatScript

open Directive (size encode)

/-- In a runnable the cells of the locals in view are no callees. -/
def View.Clear (v : View) (s : Tags) : Prop :=
  v.function ≠ 0 → ∀ d < v.locals.length, s.reverse[d]? = some none

theorem View.Clear.append {v : View} {s : Tags} (h : v.Clear s) (added : Tags) :
    v.Clear (added++s) := by
  intro hid d hd
  have hthere := h hid d hd
  rw [List.reverse_append, List.getElem?_append_left (List.getElem?_eq_some_iff.mp hthere).1]
  exact hthere

/-- The slot of a variable is that of a local in view. -/
theorem View.Refers.clear {p : Program} {v : View} {x : String} {slot : UInt8} {s : Tags}
    (h : v.Refers p x .frame slot) (hs : v.Clear s) : s.reverse[slot.toNat]? = some none := by
  cases h with
  | frame hslot =>
    unfold View.slot? at hslot
    split at hslot
    · next hid =>
      obtain ⟨n, hn, rfl⟩ := Option.map_eq_some_iff.mp hslot
      have hle : (UInt8.ofNat n).toNat ≤ n := by
        rw [UInt8.toNat_ofNat']
        exact Nat.mod_le ..
      exact hs hid _ (hle.trans_lt (slotIn_lt hn))
    · cases hslot

/-! Single directives. -/

namespace Directive

variable {p : Program} {f : Function} {d : Directive} {s : Tags}

/-- A directive that always takes and leaves as much leaves no callee. -/
theorem carries_settled (hop : d.op.settled = true) (hpops : d.op.effect.pops ≤ s.length)
    (hslot : ∀ b, d.operand = .slot b → s.reverse[b.toNat]? = some none) :
    d.Carries p f s (.replicate d.op.effect.pushes none++s.drop d.op.effect.pops) := by
  obtain ⟨hstraight, hcall, hnative⟩ := Opcode.settled_spec hop
  refine ⟨hstraight, hslot, fun _ _ _ h => absurd h hcall, fun a e he => ?_⟩
  obtain rfl := he.effect_eq hcall hnative
  exact ⟨hpops, _, .plain _, List.length_replicate, rfl⟩

/-- The same where no slot is named. -/
theorem carries_silent (hop : d.op.settled = true) (hpops : d.op.effect.pops ≤ s.length)
    (hslot : (d.operand.layout == .slot) = false) :
    d.Carries p f s (.replicate d.op.effect.pushes none++s.drop d.op.effect.pops) := by
  refine carries_settled hop hpops fun b hb => ?_
  rw [hb] at hslot
  cases hslot

theorem newline_carries : newline.Carries p f s s := carries_silent rfl (Nat.zero_le _) rfl

variable {v : View} {x : String} {scope : Scope} {i : UInt8}

/-- The value of a variable is fetched, not to be called. -/
theorem get_carries (hx : v.Refers p x scope i) (hs : v.Clear s) :
    (get scope i).Carries p f s (none :: s) := by
  cases scope with
  | global => exact carries_silent rfl (Nat.zero_le _) rfl
  | frame =>
    refine carries_settled rfl (Nat.zero_le _) fun b hb => ?_
    cases hb
    exact hx.clear hs

theorem count_carries {up : Bool} (hx : v.Refers p x scope i) (hs : v.Clear s) :
    (assign (.count up) scope i).Carries p f s (none :: s) := by
  cases scope with
  | global => exact carries_silent rfl (Nat.zero_le _) rfl
  | frame =>
    refine carries_settled rfl (Nat.zero_le _) fun b hb => ?_
    cases hb
    exact hx.clear hs

theorem assign_carries {op : Option Operator} (hx : v.Refers p x scope i) (hs : v.Clear s) :
    (assign (Expr.assignment op) scope i).Carries p f (none :: s) (none :: s) := by
  cases scope with
  | global => cases op <;> exact carries_silent rfl (Nat.le_add_left 1 _) rfl
  | frame =>
    have hclear (b : UInt8) (hb : Operand.slot i = .slot b) :
        (none :: s : Tags).reverse[b.toNat]? = some none := by
      cases hb
      exact hx.clear (hs.append [none])
    cases op <;> exact carries_settled rfl (Nat.le_add_left 1 _) hclear

/-- What is to be called is fetched. -/
theorem callee_carries (hx : f.chunk.constant? i = some (.text x)) :
    (get .global i).Carries p f s (some x :: s) := by
  refine ⟨rfl, nofun, nofun, fun a e he => ?_⟩
  obtain rfl := he.effect_eq (by nofun) (by nofun)
  exact ⟨Nat.zero_le _, _, .callee rfl rfl hx, rfl, rfl⟩

/-- A call takes its callee and its arguments, and puts its value. -/
theorem call_carries {callee : Function} {n : Nat} (hx : f.chunk.constant? i = some (.text x))
    (hcallee : p.runnable? x = some callee) (hcount : n = callee.arity) :
    (call i).Carries p f (.replicate n none++some x :: s) (none :: s) := by
  subst hcount
  have hdrop : (List.replicate callee.arity none++some x :: s).drop (callee.arity+1) = s := by
    rw [List.drop_append]
    simp
  refine ⟨rfl, nofun, ?_, fun a e he => ?_⟩
  · intro index y callee' _ hoperand hy hcallee'
    cases hoperand
    cases hx.symm.trans hy
    cases hcallee.symm.trans hcallee'
    simp
  · cases he with
    | call _ hoperand hname hcallee' =>
      cases hoperand
      cases hx.symm.trans hname
      cases hcallee.symm.trans hcallee'
      exact ⟨by simp, _, .plain 1, rfl, by rw [hdrop]; rfl⟩
    | native hop => cases hop
    | other hop => exact absurd rfl hop

theorem callNative_carries {native : Native} {n : Nat} (hcount : n = native.arity) :
    (callNative i native).Carries p f (.replicate n none++none :: s) (none :: s) := by
  have harity : (UInt8.ofNat native.arity).toNat = n := by
    rw [hcount]
    cases native <;> rfl
  have hdrop : (List.replicate n none++none :: s).drop (n+1) = s := by
    rw [List.drop_append]
    simp
  refine ⟨rfl, nofun, nofun, fun a e he => ?_⟩
  cases he with
  | call hop => cases hop
  | native _ hoperand =>
    cases hoperand
    rw [harity]
    exact ⟨by simp, _, .plain 1, rfl, by rw [hdrop]; rfl⟩
  | other _ hop => exact absurd rfl hop

end Directive

/-! Expressions. -/

namespace Expr

variable {p : Program} {v : View} {f : Function} {s : Tags} {c : Phrase}

theorem carries_comparison (t : Comparison) :
    (Phrase.comparison t).Carries p f (none :: none :: s) (none :: s) := by
  have htest {t' : Test} : Phrase.Carries p f (.one (.plain (.test t') rfl)) (none :: none :: s)
      (none :: s) :=
    .one (Directive.carries_silent rfl (Nat.le_add_left 2 _) rfl)
  have hnot : Phrase.Carries p f (.one (.plain .not rfl)) (none :: s) (none :: s) :=
    .one (Directive.carries_silent rfl (Nat.le_add_left 1 _) rfl)
  cases t with
  | equal | less | greater => exact htest
  | notEqual | lessEqual | greaterEqual => exact .seq htest hnot

/-- The results come over what stands in front of an expression. -/
theorem Codes.carries {k : ExprKind} {e : Expr k} (h : e.Codes p v c)
    (hf : p.functions[v.function]? = some f) (hs : v.Clear s) :
    c.Carries p f s (.replicate e.results none++s) := by
  have hconstant {index : UInt8} {k : Constant} (hc : p.constant? v.function index = some k) :
      f.chunk.constant? index = some k := by
    simpa [Program.constant?, hf] using hc
  induction h generalizing s with
  | number | text | literal => exact .one (Directive.carries_silent rfl (Nat.zero_le _) rfl)
  | nil => simpa [results, length] using Phrase.Carries.empty s
  | name hx => exact .one (Directive.get_carries hx hs)
  | count hx => exact .one (Directive.count_carries hx hs)
  | group _ ih | head _ ih => exact ih hs
  | @unary u _ _ _ ih =>
    refine .seq (ih hs) (.one ?_)
    cases u <;> exact Directive.carries_silent rfl (Nat.le_add_left 1 _) rfl
  | assign hx _ ih => exact .seq (ih hs) (.one (Directive.assign_carries hx hs))
  | call hx hcallee hcount _ ih =>
    have hname := hconstant hx
    exact .seq (.seq (.one (Directive.callee_carries hname)) (ih (hs.append [_])))
      (.one (Directive.call_carries hname hcallee hcount))
  | @callNative _ _ index _ _ _ _ hcount _ ih =>
    have hget : (Directive.get .global index).Carries p f s (none :: s) :=
      Directive.carries_silent rfl (Nat.zero_le _) rfl
    exact .seq (.seq (.one hget) (ih (hs.append [none]))) (.one (Directive.callNative_carries hcount))
  | operator _ _ ihl ihr =>
    exact .seq (ihl hs) (.seq (ihr (hs.append [none]))
      (.one (Directive.carries_silent rfl (Nat.le_add_left 2 _) rfl)))
  | @comparison _ _ t _ _ _ _ ihl ihr =>
    exact .seq (ihl hs) (.seq (ihr (hs.append [none])) (carries_comparison t))
  | and _ _ hfit ihl ihr | or _ _ hfit ihl ihr => exact .seq (ihl hs) (.either (ihr hs) hfit)
  | @cons e rest _ _ _ _ ihe ihrest =>
    have hrest := ihrest (hs.append [none])
    have hsplit : List.replicate (Expr.cons e rest).results none++s =
        List.replicate rest.results none++([none]++s) := by
      rw [← List.append_assoc, ← List.replicate_succ', results_arguments, results_arguments, length]
    rw [hsplit]
    exact .seq (ihe hs) hrest

theorem ValueCodes.carries {value : Option (Expr .operand)} (h : ValueCodes p v value c)
    (hf : p.functions[v.function]? = Option.some f) (hs : v.Clear s) :
    c.Carries p f s (Option.none :: s) := by
  cases h with
  | none => exact .one (Directive.carries_silent rfl (Nat.zero_le _) rfl)
  | some he => exact he.carries hf hs

end Expr

/-! Statements. -/

/-- In a runnable, nothing but the locals in view is on the stack between statements. -/
def View.Flat (v : View) (s : Tags) : Prop := v.function ≠ 0 → s = .replicate v.locals.length none

theorem View.Flat.clear {v : View} {s : Tags} (h : v.Flat s) : v.Clear s := by
  intro hid d hd
  rw [h hid, List.reverse_replicate, List.getElem?_replicate, if_pos hd]

theorem Phrase.carries_pops {p : Program} {f : Function} {s : Tags} (n : Nat) :
    (pops n).Carries p f (.replicate n none++s) s := by
  induction n with
  | zero => exact .empty s
  | succ n ih => exact .seq (.one (Directive.pop_carries p f _)) ih

theorem replicate_sub_append {a b c : Nat} (hab : a ≤ b) (hbc : b ≤ c) (s : Tags) :
    List.replicate (c-b) none++(List.replicate (b-a) none++s) = List.replicate (c-a) none++s := by
  rw [← List.append_assoc, List.replicate_append_replicate, Nat.sub_add_sub_cancel hbc hab]

namespace Stmt.Codes

variable {p : Program} {f : Function} {k : StmtKind} {t : Stmt k} {s s' : Site} {c : Phrase}
  {l : List Note}

theorem locals_scope {t : Stmt .scope} (h : t.Codes p s s' c l) : s'.locals = s.locals := by
  cases h
  rfl

/-- Locals stay in view up to the end of their block. -/
theorem locals_le (h : t.Codes p s s' c l) : s.locals.length ≤ s'.locals.length := by
  induction h with
  | blank | expression | declare | return_ | runnable | nil | repeat_ | scope => exact Nat.le_refl _
  | declareLocal => exact Nat.le_succ _
  | if_ _ _ _ ih | while_ _ _ _ ih => exact ih
  | ifElse _ _ _ _ _ ihyes ihno => exact ihyes.trans ihno
  | line _ _ ihfirst ihrest => exact ihfirst.trans ihrest

/-- Behind a statement the locals that it has declared stand over what was in front of it. -/
theorem carries (h : t.Codes p s s' c l) (hf : p.functions[s.function]? = some f) {g : Tags}
    (hg : s.Flat g) : c.Carries p f g (.replicate (s'.locals.length-s.locals.length) none++g) := by
  have hnewline {g : Tags} : Phrase.Carries p f .newline g g := .one Directive.newline_carries
  have hsame {c : Phrase} {u u' : Site} {g g' : Tags} (hlocals : u'.locals = u.locals)
      (h : c.Carries p f g g') :
      c.Carries p f g (.replicate (u'.locals.length-u.locals.length) none++g') := by
    rwa [hlocals, Nat.sub_self]
  have hscope {t : Stmt .scope} {u u' : Site} {c : Phrase} {l : List Note} {g : Tags}
      (h : t.Codes p u u' c l)
      (hc : c.Carries p f g (.replicate (u'.locals.length-u.locals.length) none++g)) :
      c.Carries p f g g := by
    rwa [h.locals_scope, Nat.sub_self] at hc
  induction h generalizing g with
  | blank | nil => exact hsame rfl (.empty g)
  | expression he =>
    exact hsame rfl (.seq (he.carries hf hg.clear) (.one (Directive.pop_carries p f g)))
  | declare _ hv | return_ _ hv =>
    exact hsame rfl (.seq (hv.carries hf hg.clear)
      (.one (Directive.carries_silent rfl (Nat.le_add_left 1 _) rfl)))
  | @declareLocal s x _ _ _ hv =>
    have hone : (some x :: s.locals).length-s.locals.length = 1 := by simp
    have hvalue := hv.carries hf hg.clear
    change Phrase.Carries p f _ g (.replicate ((some x :: s.locals).length-s.locals.length) none++g)
    rwa [hone]
  | runnable => exact hsame rfl (.one (Directive.carries_silent rfl (Nat.zero_le _) rfl))
  | if_ htest hyes hfit ih =>
    have hbranch := Phrase.Carries.branch (hscope hyes (ih hf hg)) (.empty g) hfit (by decide)
    exact hsame hyes.locals_scope (.seq (.seq (htest.carries hf hg.clear) hnewline) hbranch)
  | @ifElse s s' s'' _ _ _ _ _ e _ _ htest hyes hno hfit hfit' ihyes ihno =>
    have hlocals : s'.locals = s.locals := hyes.locals_scope
    have hg' : (s'.forward 4).ended.Flat g := by
      intro hid
      rw [show (s'.forward 4).ended.locals = s.locals from hlocals]
      exact hg (hyes.function_eq ▸ hid)
    have hsecond := hscope hno (ihno (hyes.function_eq ▸ hf) hg')
    have hbranch := Phrase.Carries.branch (hscope hyes (ihyes hf hg)) (.seq hnewline hsecond) hfit
      (by simp [Phrase.directives, Phrase.newline]; omega)
    exact hsame (hno.locals_scope.trans hlocals)
      (.seq (.seq (htest.carries hf hg.clear) hnewline) hbranch)
  | while_ htest hbody hfit ih =>
    exact hsame hbody.locals_scope (.loop (htest.carries hf hg.clear)
      (.seq hnewline (hscope hbody (ih hf hg))) (by simp [Phrase.directives, Phrase.newline]; omega))
  | @repeat_ s _ _ _ c _ _ hcount hbody hfit ih =>
    have hcounting : ((s.past c).forward 1).ended.counting.Flat (none :: g) := by
      intro hid
      unfold Site.counting at hid ⊢
      split at hid
      · next hscript => exact absurd hscript hid
      · next hinside =>
        rw [if_neg hinside, hg hinside]
        rfl
    have hfunction : ((s.past c).forward 1).ended.counting.function = s.function := by
      unfold Site.counting
      split <;> rfl
    have hpasses := hscope hbody (ih (hfunction ▸ hf) hcounting)
    have hcheck : Phrase.Carries p f (.one (.plain .repeat_ rfl)) (none :: g) (none :: g) :=
      .one (Directive.carries_silent rfl (Nat.le_add_left 1 _) rfl)
    exact hsame rfl (.seq (.seq (.seq (hcount.carries hf hg.clear) hcheck) hnewline)
      (.counted hpasses hfit))
  | @line s s' s'' _ _ _ _ _ _ hfirst hrest ihfirst ihrest =>
    have hle := hfirst.locals_le
    have hg' : s'.ended.Flat (.replicate (s'.locals.length-s.locals.length) none++g) := by
      intro hid
      rw [hg (hfirst.function_eq ▸ hid), List.replicate_append_replicate, Nat.sub_add_cancel hle]
      rfl
    have hothers := ihrest (hfirst.function_eq ▸ hf) hg'
    rw [show s'.ended.locals = s'.locals from rfl, replicate_sub_append hle hrest.locals_le] at hothers
    exact .seq (.seq (ihfirst hf hg) hnewline) hothers
  | scope hlines ih => exact hsame rfl (.seq (ih hf hg) (Phrase.carries_pops _))

end Stmt.Codes

/-! Functions. -/

/-- All instructions of a script have tags. -/
theorem Script.Codes.tagged {p : Program} {t : Script} {s : Site} {c : Phrase} {l : List Note}
    {f : Function} (h : t.Codes p s c l) (hf : p.function? 0 = some f)
    (hcode : f.chunk.code.toList = encode c.directives) : ∃ marks, f.Tagged p marks := by
  have hflat (u : View) (hu : u.function = 0) (g : Tags) : u.Flat g := fun hid => absurd hu hid
  suffices hwhole : ∃ g, c.Carries p f (.replicate f.arity none) g by
    obtain ⟨g, hcarries⟩ := hwhole
    exact hcarries.tagged hcode
  cases h with
  | whole hlines => exact ⟨_, hlines.carries hf (hflat _ rfl _)⟩
  | @cut _ _ s _ _ _ _ _ hlines hlast =>
    have hscript : s.function = 0 := hlines.function_eq
    have htop : p.functions[s.function]? = some f := hscript ▸ hf
    exact ⟨_, .seq (hlines.carries hf (hflat _ rfl _)) (hlast.carries htop (hflat _ hscript _))⟩

/-- So have those of a runnable, which begins with its arguments and ends with a return. -/
theorem Routine.Written.tagged {p : Program} {r : Routine} {id : Nat} {f : Function}
    (h : r.Written p id f) : ∃ marks, f.Tagged p marks := by
  obtain ⟨s, s', c, l, hview, _, _, hbody, hcode, _⟩ := h.body
  have hlength : s.locals.length = f.arity := by
    rw [show s.locals = (r.params.map some).reverse from congrArg View.locals hview, h.arity]
    simp
  have hf : p.functions[s.function]? = some f := by
    rw [show s.function = id from congrArg View.function hview]
    exact h.function
  have hflat : s.Flat (.replicate f.arity none) := fun _ => by rw [hlength]
  have hvalue {g : Tags} : Phrase.Carries p f (.one (.plain (.literal none) rfl)) g (none :: g) :=
    .one (Directive.carries_silent rfl (Nat.zero_le _) rfl)
  have hret {g : Tags} : Phrase.Carries p f (.one (.plain .ret rfl)) (none :: g) g :=
    .one (Directive.carries_silent rfl (Nat.le_add_left 1 _) rfl)
  have hwhole : Phrase.Carries p f (.seq .newline (.seq c (.seq (.one (.plain (.literal none) rfl))
      (.one (.plain .ret rfl))))) _ _ :=
    .seq (.one Directive.newline_carries) (.seq (hbody.carries hf hflat) (.seq hvalue hret))
  exact hwhole.tagged hcode

end RatScript
