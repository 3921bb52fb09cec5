import RatScript.Proofs.Compile.Scope

/-!
Statements of every kind keep to the heights between statements: branches and loops come back to the
height they began at, and the body of a runnable is finished before anything can call it.
-/

set_option synthInstance.maxSize 65536

namespace RatScript

open Stateful

namespace Compile

open Directive (encode size)

section
variable {b b1 b2 b3 b4 b5 b6 b7 b8 : Builder} {u v w x : Unit} {yes no test body : Phrase}

theorem pop_lays (hb : b.Ready) (h : emit .pop b = .ok u b1) : b.Lays b1 Directive.pop.bytes :=
  emitBytes_lays hb h

/-- The first jump of a branch leads over the second. -/
theorem branch_opens {toElse toEnd : Nat} (hb : b.Ready)
    (hjump : emitJump (.jumpIf false) b = .ok toElse b1) (hpop : emit .pop b1 = .ok u b2)
    (hyes : b2.Lays b3 (encode yes.directives)) (hover : emitJump .jump b3 = .ok toEnd b4)
    (hpatch : patchJump toElse b4 = .ok v b5) :
    size yes.directives+4 < 0x10000 ∧ b3.Grows b5 ∧
    toEnd = b.written.length+(size yes.directives+5) ∧
    b.Lays b5 ((Directive.jumpIf false (size yes.directives+4)).bytes++Directive.pop.bytes++
      encode yes.directives++[Opcode.jump.toByte, 0xff, 0xff]) := by
  obtain ⟨hjump, hat⟩ := emitJump_lays hb hjump
  have hpop := pop_lays hjump.ready hpop
  have hfront := hjump.trans (hpop.trans hyes hjump.ready) hb
  obtain ⟨hover, hat'⟩ := emitJump_lays hyes.ready hover
  have hopen : b.Lays b4 ([(Opcode.jumpIf false).toByte]++0xff :: 0xff ::
      (Directive.pop.bytes++encode yes.directives++[Opcode.jump.toByte, 0xff, 0xff])) := by
    simpa using hfront.trans hover hb
  have hsize : (Directive.pop.bytes++encode yes.directives++
      [Opcode.jump.toByte, 0xff, 0xff]).length = size yes.directives+4 := by
    simp [Directive.length_encode]
  obtain ⟨hfit, hgrows, hlays⟩ := patchJump_lays hb hopen hat hsize hpatch
  refine ⟨hfit, (hover.toGrows hyes.ready).trans hgrows, ?_, by simpa using hlays⟩
  rw [hat', hfront.code]
  simp [Directive.length_encode]
  omega

/-- The second jump of a branch leads over the other way. -/
theorem branch_closes {toEnd : Nat} (hb : b.Ready)
    (hat : toEnd = b.written.length+(size yes.directives+5))
    (hlays : b.Lays b5 ((Directive.jumpIf false (size yes.directives+4)).bytes++
      Directive.pop.bytes++encode yes.directives++[Opcode.jump.toByte, 0xff, 0xff]))
    (hpop : emit .pop b5 = .ok w b6) (hno : b6.Lays b7 (encode no.directives))
    (hpatch : patchJump toEnd b7 = .ok x b8) :
    size no.directives+1 < 0x10000 ∧ b7.Grows b8 ∧
      b.Lays b8 (encode (Phrase.branch yes no).directives) := by
  have hpop := pop_lays hlays.ready hpop
  have hopen : b.Lays b7 (((Directive.jumpIf false (size yes.directives+4)).bytes++
      Directive.pop.bytes++encode yes.directives++[Opcode.jump.toByte])++0xff :: 0xff ::
      (Directive.pop.bytes++encode no.directives)) := by
    simpa using hlays.trans (hpop.trans hno hlays.ready) hb
  have hfront : toEnd = b.written.length+((Directive.jumpIf false (size yes.directives+4)).bytes++
      Directive.pop.bytes++encode yes.directives++[Opcode.jump.toByte]).length := by
    rw [hat]
    simp [Directive.length_encode]
  have hsize : (Directive.pop.bytes++encode no.directives).length = size no.directives+1 := by
    simp [Directive.length_encode]
  obtain ⟨hfit, hgrows, hall⟩ := patchJump_lays hb hopen hfront hsize hpatch
  exact ⟨hfit, hgrows, by simpa [Phrase.directives] using hall⟩

theorem branch_covers {toEnd : Nat} (hb : b.Ready) (hl2 : ∀ k, b.Level k → b2.Level k)
    (hyes : b2.Covers b3 yes 0 0) (hfity : size yes.directives+4 < 0x10000)
    (hgrows : b3.Grows b5) (hat : toEnd = b.written.length+(size yes.directives+5))
    (hlays : b.Lays b5 ((Directive.jumpIf false (size yes.directives+4)).bytes++
      Directive.pop.bytes++encode yes.directives++[Opcode.jump.toByte, 0xff, 0xff]))
    (hpop : emit .pop b5 = .ok w b6) (hno : b6.Covers b7 no 0 0)
    (hpatch : patchJump toEnd b7 = .ok x b8) : b.Covers b8 (.branch yes no) 1 0 := by
  obtain ⟨hfitn, hgrows', hall⟩ := branch_closes hb hat hlays hpop hno.toLays hpatch
  have hpop := pop_lays hlays.ready hpop
  have hafter := hgrows.trans ((hpop.toGrows hlays.ready).trans
    ((hno.toGrows hpop.ready).trans hgrows'))
  refine ⟨hall, ?_⟩
  intro k hl
  have hl6 : b6.Level k := hpop.level (hlays.level hl)
  exact .branch ((hyes.takes k (hl2 k hl)).mono hafter.program hafter.function)
    ((hno.takes k hl6).mono hgrows'.program hgrows'.function) hfity hfitn

/-- The end of a loop leads back to its test, and the failed test behind the loop. -/
theorem loop_lays {toEnd start : Nat} (hb : b.Ready) (hstart : start = b.written.length)
    (htest : b.Lays b1 (encode test.directives))
    (hjump : emitJump (.jumpIf false) b1 = .ok toEnd b2) (hpop : emit .pop b2 = .ok u b3)
    (hbody : b3.Lays b4 (encode body.directives)) (hloop : emitLoop start b4 = .ok v b5)
    (hpatch : patchJump toEnd b5 = .ok w b6) (hpop' : emit .pop b6 = .ok x b7) :
    size test.directives+size body.directives+7 < 0x10000 ∧ b1.Grows b7 ∧ b4.Grows b7 ∧
      b.Lays b7 (encode (Phrase.loop test body).directives) := by
  obtain ⟨hjump, hat⟩ := emitJump_lays htest.ready hjump
  have hpop := pop_lays hjump.ready hpop
  have hfront := hjump.trans (hpop.trans hbody hjump.ready) htest.ready
  have hdistance : start+(size test.directives+size body.directives+7) =
      b4.written.length+3 := by
    rw [hstart, hfront.code, htest.code]
    simp [Directive.length_encode]
    omega
  obtain ⟨hfit, hback⟩ := emitLoop_lays hbody.ready hdistance hloop
  have hopen : b1.Lays b5 ([(Opcode.jumpIf false).toByte]++0xff :: 0xff ::
      (Directive.pop.bytes++encode body.directives++
        (Directive.back (size test.directives+size body.directives+7)).bytes)) := by
    simpa using hfront.trans hback htest.ready
  have hsize : (Directive.pop.bytes++encode body.directives++
      (Directive.back (size test.directives+size body.directives+7)).bytes).length =
        size body.directives+4 := by
    simp [Directive.length_encode]
  obtain ⟨_, hgrows, hlays⟩ := patchJump_lays htest.ready hopen hat hsize hpatch
  have hpop' := pop_lays hlays.ready hpop'
  have hrest := hlays.trans hpop' htest.ready
  exact ⟨hfit, hrest.toGrows htest.ready,
    ((hback.toGrows hbody.ready).trans hgrows).trans (hpop'.toGrows hlays.ready),
    by simpa [Phrase.directives] using htest.trans hrest hb⟩

theorem loop_covers {toEnd start : Nat} (hb : b.Ready) (hstart : start = b.written.length)
    (htest : b.Covers b1 test 0 1) (hjump : emitJump (.jumpIf false) b1 = .ok toEnd b2)
    (hpop : emit .pop b2 = .ok u b3) (hbody : b3.Covers b4 body 0 0)
    (hloop : emitLoop start b4 = .ok v b5) (hpatch : patchJump toEnd b5 = .ok w b6)
    (hpop' : emit .pop b6 = .ok x b7) : b.Covers b7 (.loop test body) 0 0 := by
  obtain ⟨hfit, htafter, hbafter, hall⟩ := loop_lays hb hstart htest.toLays hjump hpop hbody.toLays
    hloop hpatch hpop'
  refine ⟨hall, ?_⟩
  intro k hl
  obtain ⟨hjump, _⟩ := emitJump_lays htest.ready hjump
  have hl3 : b3.Level k := (pop_lays hjump.ready hpop).level (hjump.level (htest.level hl))
  exact .loop ((htest.takes k hl).mono htafter.program htafter.function)
    ((hbody.takes k hl3).mono hbafter.program hbafter.function) hfit

/-- The end of a counted loop leads back to its body. -/
theorem counted_lays {start : Nat} (hb : b.Ready) (hstart : start = b.written.length)
    (hbody : b.Lays b1 (encode body.directives)) (hend : emit .endRepeat b1 = .ok u b2)
    (hloop : emitLoop start b2 = .ok v b3) :
    size body.directives+4 < 0x10000 ∧ b1.Grows b3 ∧
      b.Lays b3 (encode (Phrase.counted body).directives) := by
  have hend : b1.Lays b2 Directive.endRepeat.bytes := emitBytes_lays hbody.ready hend
  have hdistance : start+(size body.directives+4) = b2.written.length+3 := by
    rw [hstart, hend.code, hbody.code]
    simp [Directive.length_encode]
    omega
  obtain ⟨hfit, hback⟩ := emitLoop_lays hend.ready hdistance hloop
  have hrest := hend.trans hback hbody.ready
  exact ⟨hfit, hrest.toGrows hbody.ready,
    by simpa [Phrase.directives] using hbody.trans hrest hb⟩

theorem counted_covers {start : Nat} (hb : b.Ready) (hstart : start = b.written.length)
    (hbody : b.Covers b1 body 1 1) (hend : emit .endRepeat b1 = .ok u b2)
    (hloop : emitLoop start b2 = .ok v b3) : b.Covers b3 (.counted body) 1 0 := by
  obtain ⟨hfit, hafter, hall⟩ := counted_lays hb hstart hbody.toLays hend hloop
  refine ⟨hall, ?_⟩
  intro k hl
  exact .counted ((hbody.takes k hl).mono hafter.program hafter.function) hfit

end

section
variable {expression : Compile Unit} (hexpression : Compiles expression 0 1)
include hexpression

theorem expressionStatement_executes : Executes (expressionStatement expression) := by
  refine Compiles.executes ?_
  have hpop : Compiles (emit .pop) 1 0 := .emit rfl rfl (by simp) (Nat.le_refl 1)
  exact hexpression.bind fun _ => hpop.bind fun _ => .endOfLine

/-- A return takes its value off the stack; the script has none. -/
theorem returnStatement_executes : Executes (returnStatement expression) := by
  intro b b' hb _ h _
  dsimp only [returnStatement] at h
  obtain ⟨_, _, hget, h⟩ := bind_eq_ok.mp h
  obtain ⟨rfl, rfl⟩ := get_eq_ok.mp hget
  split at h
  · obtain ⟨_, _, _, h⟩ := bind_eq_ok.mp h
    obtain ⟨_, _, hfail, _⟩ := bind_eq_ok.mp h
    exact absurd hfail throw_ne_ok
  · next hin =>
    have hin : b.inRunnable = true := by simpa using hin
    have hrest {b1 : Builder} {c : Phrase} (hc : b.Emits b1 c 0 1)
        (h : (do emit .ret; endOfLine : Compile Unit) b1 = .ok () b') :
        ∃ c new, b.Runs b' c new := by
      obtain ⟨_, b2, hret, h⟩ := bind_eq_ok.mp h
      have hemit : b1.Lays b2 (Directive.plain .ret rfl).bytes := emitBytes_lays hc.ready hret
      have hreturned := Builder.Emits.one hc.ready hemit
        (Builder.offers_plain rfl rfl fun _ => hc.inRunnable.trans hin) (Nat.le_refl 1)
      obtain ⟨d, hd⟩ := Compiles.endOfLine _ _ b' hreturned.ready h
      exact ⟨_, [], (hc.seq hb (hreturned.seq hc.ready hd)).covers.runs⟩
    obtain ⟨newline, b1, hnewline, h⟩ := bind_eq_ok.mp h
    obtain ⟨eof, b2, heof, h⟩ := bind_eq_ok.mp h
    have hnewline := (still_of_ok hnewline).lays hb
    have hfront := hnewline.trans ((still_of_ok heof).lays hnewline.ready) hb
    split at h
    · obtain ⟨_, b3, hvalue, h⟩ := bind_eq_ok.mp h
      have hnone : Compiles (emit (.literal none)) 0 1 := .emit rfl rfl (by simp) (Nat.zero_le 0)
      obtain ⟨c, hc⟩ := hnone _ _ _ hfront.ready hvalue
      exact hrest ((Builder.Emits.nil hfront 0).seq hb hc) h
    · obtain ⟨_, b3, hvalue, h⟩ := bind_eq_ok.mp h
      obtain ⟨c, hc⟩ := hexpression _ _ _ hfront.ready hvalue
      exact hrest ((Builder.Emits.nil hfront 0).seq hb hc) h

end

/-- A new variable is a local where its value lies, or a global that takes it off the stack. -/
theorem define_runs {name : String} {t : Located} {b b1 b' : Builder} {c : Phrase} {a : Unit}
    {isLocal : Bool} (hb : b.Ready) (hin : b.inRunnable = isLocal) (hc : b.Emits b1 c 0 1)
    (h : (if isLocal = true then do addLocal (some name) t; endOfLine
      else do emitWith .define (← textConstant name); endOfLine : Compile Unit) b1 = .ok a b') :
    ∃ c new, b.Runs b' c new := by
  cases isLocal with
  | true =>
    obtain ⟨_, b2, hlocal, h⟩ := bind_eq_ok.mp h
    obtain ⟨hwrites, hlocals, hdepth⟩ := addLocal_writes hc.ready hlocal
    have hnew : b.Runs b2 c [⟨some name, b.depth⟩] := by
      refine ⟨by simpa using hc.toWrites.trans hwrites hb, ?_, ?_, by simp, ?_, ?_⟩
      · rw [hlocals, hc.depth, hc.locals]
        rfl
      · rw [hdepth, hc.depth]
      · intro hout
        rw [hin] at hout
        cases hout
      · intro k hl
        have hg := hwrites.toGrows hc.ready
        exact (hc.covers.takes k hl).mono hg.program hg.function
    obtain ⟨d, hd⟩ := Compiles.endOfLine b2 a b' hnew.ready h
    exact ⟨_, _, hnew.seq hd.covers.runs hb⟩
  | false =>
    obtain ⟨index, b2, htext, h⟩ := bind_eq_ok.mp h
    obtain ⟨_, b3, hdefine, h⟩ := bind_eq_ok.mp h
    obtain ⟨hlays, hname⟩ := textConstant_lays hc.ready htext
    have hemit : b2.Lays b3 (Directive.mk .define (.constant index) rfl).bytes :=
      emitBytes_lays hlays.ready hdefine
    have hdefine := Builder.Emits.one hlays.ready hemit
      (Builder.offers_named hname rfl rfl (by simp)) (Nat.le_refl 1)
    obtain ⟨d, hd⟩ := Compiles.endOfLine b3 a b' hdefine.ready h
    have hall := (hc.seq hb (.nil hlays 1)).seq hb (hdefine.seq hlays.ready hd)
    exact ⟨_, [], hall.covers.runs⟩

theorem varDeclaration_executes {expression : Compile Unit} (hexpression : Compiles expression 0 1) :
    Executes (varDeclaration expression) := by
  intro b b' hb _ h _
  dsimp only [varDeclaration] at h
  obtain ⟨name, b1, hname, h⟩ := bind_eq_ok.mp h
  obtain ⟨t, b2, hlast, h⟩ := bind_eq_ok.mp h
  obtain ⟨_, _, hget, h⟩ := bind_eq_ok.mp h
  obtain ⟨rfl, rfl⟩ := get_eq_ok.mp hget
  obtain ⟨_, _, hget, h⟩ := bind_eq_ok.mp h
  obtain ⟨rfl, rfl⟩ := get_eq_ok.mp hget
  have hname := (still_of_ok hname).lays hb
  have hlays := hname.trans ((still_of_ok hlast).lays hname.ready) hb
  split at h
  · obtain ⟨_, _, hfail, _⟩ := bind_eq_ok.mp h
    exact absurd hfail throw_ne_ok
  · obtain ⟨given, b3, haccept, h⟩ := bind_eq_ok.mp h
    have haccept := (still_of_ok haccept).lays hlays.ready
    have hfront : b.Emits b3 .empty 0 0 := .nil (hlays.trans haccept hb) 0
    have hin : b.inRunnable = b2.inRunnable := hlays.inRunnable.symm
    cases given with
    | true =>
      obtain ⟨_, b4, hvalue, h⟩ := bind_eq_ok.mp h
      obtain ⟨c, hc⟩ := hexpression _ _ _ hfront.ready hvalue
      exact define_runs hb hin (hfront.seq hb hc) h
    | false =>
      obtain ⟨_, b4, hvalue, h⟩ := bind_eq_ok.mp h
      have hnone : Compiles (emit (.literal none)) 0 1 := .emit rfl rfl (by simp) (Nat.zero_le 0)
      obtain ⟨c, hc⟩ := hnone _ _ _ hfront.ready hvalue
      exact define_runs hb hin (hfront.seq hb hc) h

section
variable {expression statement : Compile Unit} [Keeps Builder.Reports statement]
  (hexpression : Compiles expression 0 1) (hstatement : Executes statement)
include hexpression hstatement

theorem ifStatement_executes : Executes (ifStatement expression statement) := by
  intro b b' hb hscoped h hs
  dsimp only [ifStatement] at h
  obtain ⟨_, b1, htest, _, h⟩ := bind_silent h hs
  obtain ⟨_, b2, hheader, _, h⟩ := bind_silent h hs
  obtain ⟨_, b3, hline, _, h⟩ := bind_silent h hs
  obtain ⟨toElse, b4, hjump, _, h⟩ := bind_silent h hs
  obtain ⟨_, b5, hpop, _, h⟩ := bind_silent h hs
  obtain ⟨_, b6, hblock, hs6, h⟩ := bind_silent h hs
  obtain ⟨toEnd, b7, hover, _, h⟩ := bind_silent h hs
  obtain ⟨_, b8, hpatch, _, h⟩ := bind_silent h hs
  obtain ⟨_, b9, hpop', _, h⟩ := bind_silent h hs
  obtain ⟨more, b10, haccept, _, h⟩ := bind_silent h hs
  obtain ⟨c, hc⟩ := hexpression b _ b1 hb htest
  have hheader := (still_of_ok hheader).lays hc.ready
  obtain ⟨d, hd⟩ := Compiles.endOfLine (m := 1) _ _ b3 hheader.ready hline
  have htest := (hc.seq hb (.nil hheader 1)).seq hb hd
  obtain ⟨hjumped, _⟩ := emitJump_lays htest.ready hjump
  have hpopped := pop_lays hjumped.ready hpop
  have hscoped5 := hpopped.scope (hjumped.scope (htest.scope hscoped))
  obtain ⟨yes, hyes⟩ := block_covers hstatement hpopped.ready hscoped5 hblock hs6
  obtain ⟨hfit, hgrows, hat, hopen⟩ := branch_opens htest.ready hjump hpop hyes.toLays hover hpatch
  have hpopped' := pop_lays hopen.ready hpop'
  have helse := (still_of_ok haccept).lays hpopped'.ready
  have hrest {no : Phrase} {b11 : Builder} (hno : b9.Covers b11 no 0 0)
      (h : (do consume (.keyword .endIf) "'endif'"; patchJump toEnd; endOfLine : Compile Unit) b11 =
        .ok () b') : ∃ c new, b.Runs b' c new := by
    obtain ⟨_, b12, hclose, h⟩ := bind_eq_ok.mp h
    obtain ⟨_, b13, hpatch', h⟩ := bind_eq_ok.mp h
    have hno := hno.still (still_of_ok hclose) hpopped'.ready
    have hbranch := branch_covers htest.ready (fun k hl => hpopped.level (hjumped.level hl)) hyes
      hfit hgrows hat hopen hpop' hno hpatch'
    obtain ⟨e, he⟩ := Compiles.endOfLine _ _ b' hbranch.ready h
    exact ⟨_, [], ((htest.covers.seq hbranch hb).seq he.covers hb).runs⟩
  cases more with
  | true =>
    obtain ⟨_, b11, hheader', _, h⟩ := bind_silent h hs
    obtain ⟨_, b12, hline', _, h⟩ := bind_silent h hs
    obtain ⟨_, b13, hblock', hs13, h⟩ := bind_silent h hs
    have hheader' := (still_of_ok hheader').lays helse.ready
    obtain ⟨e, he⟩ := Compiles.endOfLine (m := 0) _ _ b12 hheader'.ready hline'
    have hfront := (Builder.Emits.nil (helse.trans hheader' hpopped'.ready) 0).seq
      hpopped'.ready he
    have hscoped12 := hfront.scope (hpopped'.scope (hopen.scope (htest.scope hscoped)))
    obtain ⟨no, hno⟩ := block_covers hstatement hfront.ready hscoped12 hblock' hs13
    exact hrest (hfront.covers.seq hno hpopped'.ready) h
  | false => exact hrest (Builder.Emits.nil helse 0).covers h

/-- The condition is evaluated again each time the body has run. -/
theorem whileStatement_executes : Executes (whileStatement expression statement) := by
  intro b b' hb hscoped h hs
  dsimp only [whileStatement] at h
  obtain ⟨start, _, hoffset, h⟩ := bind_eq_ok.mp h
  obtain ⟨hstart, rfl⟩ := offset_eq_ok hb hoffset
  obtain ⟨_, b1, htest, _, h⟩ := bind_silent h hs
  obtain ⟨_, b2, hheader, _, h⟩ := bind_silent h hs
  obtain ⟨toEnd, b3, hjump, _, h⟩ := bind_silent h hs
  obtain ⟨_, b4, hpop, _, h⟩ := bind_silent h hs
  obtain ⟨_, b5, hline, _, h⟩ := bind_silent h hs
  obtain ⟨_, b6, hblock, hs6, h⟩ := bind_silent h hs
  obtain ⟨_, b7, hclose, _, h⟩ := bind_silent h hs
  obtain ⟨_, b8, hloop, _, h⟩ := bind_silent h hs
  obtain ⟨_, b9, hpatch, _, h⟩ := bind_silent h hs
  obtain ⟨_, b10, hpop', _, h⟩ := bind_silent h hs
  obtain ⟨c, hc⟩ := hexpression b _ b1 hb htest
  have htest := hc.covers.still (still_of_ok hheader) hb
  obtain ⟨hjumped, _⟩ := emitJump_lays htest.ready hjump
  have hpopped := pop_lays hjumped.ready hpop
  obtain ⟨d, hd⟩ := Compiles.endOfLine (m := 0) _ _ b5 hpopped.ready hline
  have hscoped5 := hd.scope (hpopped.scope (hjumped.scope (htest.scope hscoped)))
  obtain ⟨e, he⟩ := block_covers hstatement hd.ready hscoped5 hblock hs6
  have hbody := (hd.covers.seq he hpopped.ready).still (still_of_ok hclose) hpopped.ready
  have hwhile := loop_covers hb hstart htest hjump hpop hbody hloop hpatch hpop'
  obtain ⟨f, hf⟩ := Compiles.endOfLine _ _ b' hwhile.ready h
  exact ⟨_, [], (hwhile.seq hf.covers hb).runs⟩

omit hexpression in
/-- The body keeps the counter: inside a runnable it lies in a slot of its own. -/
theorem repeatBody_covers {b b' : Builder} {a : Unit} (hb : b.Ready) (hscoped : b.Scoped)
    (h : repeatBody statement b = .ok a b') (hs : b'.diagnostics = #[]) :
    ∃ c, b.Covers b' c 1 1 := by
  unfold repeatBody at h
  obtain ⟨_, _, hget, h⟩ := bind_eq_ok.mp h
  obtain ⟨rfl, rfl⟩ := get_eq_ok.mp hget
  cases hin : b.inRunnable with
  | false =>
    simp only [hin] at h
    obtain ⟨c, hc⟩ := block_covers hstatement hb hscoped h hs
    refine ⟨c, hc.toLays, ?_⟩
    intro k _
    exact hc.takes (k+1) (by simp [Builder.Level, hin])
  | true =>
    simp only [hin] at h
    obtain ⟨t, b1, hlast, h⟩ := bind_eq_ok.mp h
    obtain ⟨_, b2, hbegin, h⟩ := bind_eq_ok.mp h
    obtain ⟨_, b3, hlocal, h⟩ := bind_eq_ok.mp h
    obtain ⟨b4, hblock, rfl⟩ := tryFinally_modify_eq_ok.mp h
    have hlast := (still_of_ok hlast).lays hb
    have hb2 := modify_eq_ok.mp hbegin
    have hscope : b1.Writes b2 [] := .same hlast.ready (by rw [← hb2]) (by rw [← hb2])
    obtain ⟨hcounter, hlocals, hdepth⟩ := addLocal_writes hscope.ready hlocal
    have hfront := (hlast.toWrites.trans hscope hb).trans hcounter hb
    have hlocals3 : b3.locals = ⟨none, b.depth+1⟩ :: b.locals := by
      rw [hlocals, ← hb2, hlast.locals, hlast.depth]
    have hdepth3 : b3.depth = b.depth+1 := by rw [hdepth, ← hb2, hlast.depth]
    have hscoped3 : b3.Scoped := by
      rw [Builder.Scoped, hlocals3, hdepth3]
      intro l hl
      rcases List.mem_cons.mp hl with rfl | hl
      · exact Nat.le_refl _
      · exact Nat.le_succ_of_le (hscoped l hl)
    obtain ⟨c, hc⟩ := block_covers hstatement hcounter.ready hscoped3 hblock hs
    have hleft : b4.Writes {b4 with locals := b4.locals.drop 1, depth := b4.depth-1} [] :=
      .same hc.ready rfl rfl
    have hall := hfront.trans (hc.toWrites.trans hleft hcounter.ready) hb
    refine ⟨c, ⟨by simpa using hall, ?_, ?_⟩, ?_⟩
    · change b4.locals.drop 1 = b.locals
      rw [hc.locals, hlocals3]
      rfl
    · change b4.depth-1 = b.depth
      rw [hc.depth, hdepth3, Nat.add_sub_cancel]
    · intro k hl
      have hl3 : b3.Level (k+1) := by
        intro _
        rw [hlocals3, List.length_cons, hl hin]
      have hg := hleft.toGrows hc.ready
      exact (hc.takes (k+1) hl3).mono hg.program hg.function

theorem repeatStatement_executes : Executes (repeatStatement expression statement) := by
  intro b b' hb hscoped h hs
  dsimp only [repeatStatement] at h
  obtain ⟨_, b1, hcount, _, h⟩ := bind_silent h hs
  obtain ⟨_, b2, hheader, _, h⟩ := bind_silent h hs
  obtain ⟨_, b3, hrepeat, _, h⟩ := bind_silent h hs
  obtain ⟨_, b4, hline, _, h⟩ := bind_silent h hs
  obtain ⟨start, _, hoffset, _, h⟩ := bind_silent h hs
  obtain ⟨c, hc⟩ := hexpression b _ b1 hb hcount
  have hheader := (still_of_ok hheader).lays hc.ready
  have hkeep : Compiles (emit .repeat_) 1 1 := .emit rfl rfl (by simp) (Nat.le_refl 1)
  obtain ⟨d, hd⟩ := hkeep _ _ b3 hheader.ready hrepeat
  obtain ⟨e, he⟩ := Compiles.endOfLine (m := 1) _ _ b4 hd.ready hline
  have hfront := ((hc.seq hb (.nil hheader 1)).seq hb hd).seq hb he
  obtain ⟨hstart, rfl⟩ := offset_eq_ok hfront.ready hoffset
  obtain ⟨_, b5, hbody, hs5, h⟩ := bind_silent h hs
  obtain ⟨_, b6, hclose, _, h⟩ := bind_silent h hs
  obtain ⟨_, b7, hend, _, h⟩ := bind_silent h hs
  obtain ⟨_, b8, hloop, _, h⟩ := bind_silent h hs
  obtain ⟨body, hbody⟩ := repeatBody_covers hstatement hfront.ready (hfront.scope hscoped) hbody hs5
  have hbody := hbody.still (still_of_ok hclose) hfront.ready
  have hcounted := counted_covers hfront.ready hstart hbody hend hloop
  obtain ⟨f, hf⟩ := Compiles.endOfLine _ _ b' hcounted.ready h
  exact ⟨_, [], ((hfront.covers.seq hcounted hb).seq hf.covers hb).runs⟩

end
end Compile
end RatScript
