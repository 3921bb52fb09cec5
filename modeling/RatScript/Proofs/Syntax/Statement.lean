import RatScript.Proofs.Syntax.Naming
import RatScript.Proofs.Syntax.Operand

/-!
Statements as they are compiled: what is read spells a statement and the end of its line, and what is
written is the code of that statement where it stands.
-/

set_option synthInstance.maxSize 65536

namespace RatScript

open Stateful
open Directive (encode size)

theorem Expr.count_newline {k : ExprKind} (e : Expr k) : e.tokens.count .newline = 0 := by
  have hliteral (value : Option Bool) : literalToken value ≠ .newline := by
    rcases value with - | (- | -) <;> simp [literalToken]
  have hunary (u : Unary) : u.token ≠ .newline := by cases u <;> simp [Unary.token]
  have hassign (a : Assignment) : a.token ≠ .newline := by cases a <;> simp [Assignment.token]
  have hinfix (i : Infix) : i.token ≠ .newline := by cases i <;> simp [Infix.token]
  induction e with
  | cons first rest ihf ihr => cases rest <;> simp_all [tokens, separator]
  | _ => simp_all [tokens]

namespace Builder

/-- No function comes, and none but the current one changes. -/
structure Edits (b b' : Builder) : Prop where
  current : b'.current = b.current
  size : b'.functions.size = b.functions.size
  others : ∀ id ≠ b.current, b'.functions[id]? = b.functions[id]?

instance : Std.Refl Edits := ⟨fun _ => ⟨rfl, rfl, fun _ _ => rfl⟩⟩

theorem Edits.trans {b b' b'' : Builder} (h : b.Edits b') (k : b'.Edits b'') : b.Edits b'' where
  current := k.current.trans h.current
  size := k.size.trans h.size
  others id hid := (k.others id (h.current ▸ hid)).trans (h.others id hid)

instance : Trans Edits Edits Edits := ⟨Edits.trans⟩

theorem Still.edits {b b' : Builder} (h : b.Still b') : b.Edits b' :=
  ⟨h.current, by rw [h.functions], fun _ _ => by rw [h.functions]⟩

theorem edits_modifyFunction (b : Builder) (f : Function → Function) :
    b.Edits (b.modifyFunction b.current f) where
  current := rfl
  size := by simp [modifyFunction]
  others id hid := by
    change (b.functions.modify b.current f)[id]? = _
    rw [Array.getElem?_modify, if_neg (Ne.symm hid)]

theorem Edits.extends {b b' : Builder} {place : Nat} (h : b.Edits b')
    (hg : b.program.Grows b'.program) (hplace : b.current = place) :
    b.program.Extends b'.program place :=
  ⟨hg, fun id _ hid hf => (h.others id (by omega)).trans hf⟩

theorem Writes.extends {b b' : Builder} {bytes : List UInt8} {place : Nat} (h : b.Writes b' bytes)
    (hplace : b.current = place) : b.program.Extends b'.program place := by
  refine ⟨h.grows, fun id f hid hf => ?_⟩
  have hlt := (Array.getElem?_eq_some_iff.mp hf).1
  exact (h.kept id hlt (by omega)).trans hf

/-- Where a state stands, after so many ends of lines. -/
def site (b : Builder) (read : Nat) : Site := ⟨b.view, b.functions.size, b.written.length, read⟩

theorem Writes.offset {b b' : Builder} {bytes : List UInt8} (h : b.Writes b' bytes) :
    b'.written.length = b.written.length+bytes.length := by
  rw [h.code, List.length_append]

theorem Lays.site {b b' : Builder} {bytes : List UInt8} (h : b.Lays b' bytes) (he : b.Edits b')
    (read : Nat) : b'.site read = (b.site read).forward bytes.length := by
  simp [Builder.site, Site.forward, h.view, he.size, h.offset]

theorem Lays.past {b b' : Builder} {c : Phrase} (h : b.Lays b' (encode c.directives))
    (he : b.Edits b') (read : Nat) : b'.site read = (b.site read).past c := by
  rw [h.site he, Directive.length_encode]
  rfl

theorem Still.site {b b' : Builder} (h : b.Still b') (read : Nat) : b'.site read = b.site read := by
  simp [Builder.site, view, written, function, h.functions, h.current, h.locals]

/-- A part of a script is read, and its code written where it stands. -/
structure Tells (b b' : Builder) {k : StmtKind} (t : Stmt k) (c : Phrase) : Prop
    extends b.Writes b' (encode c.directives) where
  reads : b.Reads b' t.tokens
  codes : ∀ read, ∃ l,
    t.Codes b'.program (b.site read) (b'.site (read+t.tokens.count .newline)) c l
  binds : t.Binds
  roomy : t.Roomy b.inRunnable b.locals.length
  names : b.Names b' t.locals t.frames

/-- Locals have room wherever the same of them are in view. -/
theorem Lays.roomy {b b' : Builder} {bytes : List UInt8} (h : b.Lays b' bytes) {k : StmtKind}
    {t : Stmt k} (ht : t.Roomy b'.inRunnable b'.locals.length) :
    t.Roomy b.inRunnable b.locals.length := by
  rwa [h.inRunnable, h.locals] at ht

/-- A line ends with its marker, or the tokens end. -/
inductive Ends (b b' : Builder) : Prop
  | line (reads : b.Reads b' [.newline]) (lays : b.Lays b' Directive.newline.bytes)
    (edits : b.Edits b') (mute : b.Mute b')
  | cut (none : b.peek.token = .eof) (same : b' = b)

theorem Ends.lays {b b' : Builder} (h : b.Ends b') (hb : b.Ready) :
    ∃ bytes, b.Lays b' bytes := by
  cases h with
  | line _ lays _ => exact ⟨_, lays⟩
  | cut _ same =>
    subst same
    exact ⟨[], .refl hb⟩

theorem Ends.mute {b b' : Builder} (h : b.Ends b') : b.Mute b' := by
  cases h with
  | line _ _ _ mute => exact mute
  | cut _ same =>
    subst same
    exact Std.Refl.refl b'

theorem Ends.line_of_more {b b' : Builder} (h : b.Ends b') (hmore : b'.peek.token ≠ .eof) :
    b.Reads b' [.newline] ∧ b.Lays b' Directive.newline.bytes ∧ b.Edits b' := by
  cases h with
  | line reads lays edits => exact ⟨reads, lays, edits⟩
  | cut none same =>
    rw [same] at hmore
    exact absurd none hmore

/-- A statement begins with a keyword. -/
structure Begins (b b' : Builder) (k : Keyword) : Prop where
  still : b.Still b'
  reads : b.Reads b' [.keyword k]
  last : b'.last.token = .keyword k

theorem Begins.tells {b b' m : Builder} {k : Keyword} {t : Stmt .statement} {c : Phrase}
    {ts : List Token} (h : b.Begins b' k) (hb : b.Ready) (hwrites : b'.Writes m (encode c.directives))
    (hreads : b'.Reads m ts) (htokens : t.tokens = .keyword k :: ts)
    (hcodes : ∀ read, ∃ l,
      t.Codes m.program (b'.site read) (m.site (read+ts.count .newline)) c l)
    (hbinds : t.Binds) (hroomy : t.Roomy b'.inRunnable b'.locals.length)
    (hnames : b'.Names m t.locals t.frames) : b.Tells m t c where
  toWrites := by simpa using (h.still.lays hb).toWrites.trans hwrites hb
  reads := by
    rw [htokens]
    exact h.reads.trans hreads
  codes read := by
    rw [htokens, ← h.still.site, List.count_cons_of_ne (by simp)]
    exact hcodes read
  binds := hbinds
  roomy := (h.still.lays hb).roomy hroomy
  names := h.still.mute.trans_names hnames h.still.current

theorem Begins.expecting {b b' : Builder} {k : Keyword} (h : b.Begins b' k)
    (hk : (Token.keyword k).isAtom = false) : b'.Expecting := fun _ => by rw [h.last, hk]

end Builder

/-- Whenever the step succeeds before the end of tokens and nothing is reported, it has read a
statement and the end of its line. -/
def Composes (x : Compile Unit) : Prop :=
  ∀ b b', b.Ready → b.Scoped → b.peek.token ≠ .eof → x b = .ok () b' → b'.diagnostics = #[] →
    ∃ (t : Stmt .statement) (c : Phrase) (m : Builder), b.Tells m t c ∧ m.Ends b'

namespace Compile

open Builder (Edits Mute)

theorem edits_of_ok {α : Type} {b b' : Builder} {x : Compile α} {a : α} [h : Keeps Edits x]
    (hx : x b = .ok a b') : b.Edits b' :=
  h.of_ok hx

instance : Keeps Edits advance := ⟨fun b => by
  have hstill : b.Still (after advance b) := (inferInstance : Keeps Builder.Still advance).keeps b
  exact hstill.edits⟩

instance (bytes : List UInt8) : Keeps Edits (emitBytes bytes) :=
  Keeps.modify fun b => b.edits_modifyFunction _

instance (add : Chunk → Except PoolFault (Chunk × UInt8)) : Keeps Edits (enter add) :=
  Keeps.get_bind fun b => by
    cases add b.chunk with
    | ok r => exact b.edits_modifyFunction _
    | error fault => exact Std.Refl.refl b

instance (at_ : Nat) : Keeps Edits (patchJump at_) := by
  unfold patchJump
  refine Keeps.seq inferInstance fun n => ?_
  split
  · exact Keeps.modify fun b => b.edits_modifyFunction _
  · infer_instance

instance (name : Option String) (t : Located) : Keeps Edits (addLocal name t) := by
  unfold addLocal
  refine Keeps.seq inferInstance fun b => ?_
  split
  · refine Keeps.modify fun b => ?_
    have h := b.edits_modifyFunction fun f => {f with locals := f.locals.push (name.getD "(repeat)")}
    exact ⟨h.current, h.size, h.others⟩
  · infer_instance

theorem endOfLine_ends {b b' : Builder} {a : Unit} (hb : b.Ready) (h : endOfLine b = .ok a b') :
    b.Ends b' := by
  have hedits := edits_of_ok h
  have hmute := mute_of_ok h
  obtain ⟨found, b1, haccept, h⟩ := bind_eq_ok.mp h
  rcases accept_eq_ok (by simp) haccept with ⟨rfl, hreads, _⟩ | ⟨rfl, rfl, _⟩
  · have hstill := (still_of_ok haccept).lays hb
    have hemit : b1.Lays b' Directive.newline.bytes := emitBytes_lays hstill.ready h
    refine .line ?_ (hstill.trans hemit hb) hedits hmute
    have hpauses : b1.Pauses b' := pauses_of_ok h
    simpa using hreads.trans hpauses.reads
  · obtain ⟨eof, _, hcheck, h⟩ := bind_eq_ok.mp h
    obtain ⟨heof, rfl⟩ := check_eq_ok hcheck
    cases eof with
    | true =>
      obtain ⟨_, rfl⟩ := pure_eq_ok.mp h
      exact .cut (eq_of_beq heof.symm) rfl
    | false =>
      obtain ⟨_, _, _, h⟩ := bind_eq_ok.mp h
      exact absurd h throw_ne_ok

section
variable {expression : Compile Unit} (hexpression : Parses expression .assign)
  [Keeps Edits expression] [Keeps Mute expression]
include hexpression

theorem expressionStatement_composes : Composes (expressionStatement expression) := by
  intro b b' hb _ hsome h _
  obtain ⟨_, b1, hx, h⟩ := bind_eq_ok.mp h
  obtain ⟨_, m, hpop, h⟩ := bind_eq_ok.mp h
  have hexpecting : b.Expecting := by
    intro hnone
    rw [Builder.token_peek, hnone] at hsome
    exact absurd rfl hsome
  obtain ⟨e, c, he, hfits, _⟩ := hexpression b b1 hb hexpecting hx
  have hpopped : b1.Lays m Directive.pop.bytes := emitBytes_lays he.ready hpop
  have hlays : b.Lays m (encode (Phrase.seq c (.one .pop)).directives) := by
    simpa [Phrase.directives] using he.toLays.trans hpopped hb
  have hedits : b.Edits m := (edits_of_ok hx).trans (edits_of_ok hpop)
  have hpauses : b1.Pauses m := pauses_of_ok hpop
  refine ⟨.expression e, _, m, ⟨hlays.toWrites, ?_, fun read => ?_,
    by simpa [Stmt.Binds, Stmt.expressions] using hfits, trivial, ?_⟩,
    endOfLine_ends hpopped.ready h⟩
  · simpa [Stmt.tokens] using he.reads.trans hpauses.reads
  · rw [Stmt.tokens, e.count_newline, Nat.add_zero, hlays.past hedits]
    have hcodes : e.Codes m.program b.view c := by
      rw [← hlays.view]
      exact hpopped.codes he.codes
    exact ⟨_, .expression hcodes⟩
  · have hmute : b.Mute m := Trans.trans (mute_of_ok hx) (mute_of_ok hpop)
    exact hmute.names

omit hexpression [Keeps Edits expression] [Keeps Mute expression] in
/-- A value that is left out is none. -/
theorem literal_none_values {b b' : Builder} {a : Unit} (hb : b.Ready)
    (h : emit (.literal none) b = .ok a b') :
    b.Lays b' (encode (Phrase.one (.literal none)).directives) ∧ b.Reads b' [] ∧
      Expr.ValueCodes b'.program b'.view none (.one (.literal none)) := by
  have hemit : b.Lays b' (Directive.literal none).bytes := emitBytes_lays hb h
  have hpauses : b.Pauses b' := pauses_of_ok h
  exact ⟨by simpa [Phrase.directives] using hemit, hpauses.reads, .none⟩

theorem returnStatement_composes {b0 b b' : Builder} (hb0 : b0.Ready) (hb : b0.Begins b .return_)
    (h : returnStatement expression b = .ok () b') :
    ∃ (t : Stmt .statement) (c : Phrase) (m : Builder), b0.Tells m t c ∧ m.Ends b' := by
  have hready := (hb.still.lays hb0).ready
  dsimp only [returnStatement] at h
  obtain ⟨_, _, hget, h⟩ := bind_eq_ok.mp h
  obtain ⟨rfl, rfl⟩ := get_eq_ok.mp hget
  split at h
  · obtain ⟨_, _, _, h⟩ := bind_eq_ok.mp h
    obtain ⟨_, _, hfail, _⟩ := bind_eq_ok.mp h
    exact absurd hfail throw_ne_ok
  · next hin =>
    have hin : b.current ≠ 0 := by simpa [Builder.inRunnable] using hin
    have hrest {b1 : Builder} {value : Option (Expr .operand)} {c : Phrase} {ts : List Token}
        (hlays : b.Lays b1 (encode c.directives)) (hedits : b.Edits b1) (hmute : b.Mute b1)
        (hreads : b.Reads b1 ts) (hvalue : Expr.ValueCodes b1.program b1.view value c)
        (htokens : (Stmt.return_ value).tokens = .keyword .return_ :: ts)
        (hcount : ts.count .newline = 0) (hfits : ∀ e ∈ value, e.Binds .assign)
        (h : (do emit .ret; endOfLine : Compile Unit) b1 = .ok () b') :
        ∃ (t : Stmt .statement) (c : Phrase) (m : Builder), b0.Tells m t c ∧ m.Ends b' := by
      obtain ⟨_, m, hret, h⟩ := bind_eq_ok.mp h
      have hemit : b1.Lays m (Directive.plain .ret rfl).bytes := emitBytes_lays hlays.ready hret
      have hall : b.Lays m (encode (Phrase.seq c (.one (.plain .ret rfl))).directives) := by
        simpa [Phrase.directives] using hlays.trans hemit hready
      have hpauses : b1.Pauses m := pauses_of_ok hret
      refine ⟨.return_ value, _, m, hb.tells hb0 hall.toWrites
        (by simpa using hreads.trans hpauses.reads) htokens (fun read => ?_)
        (by simpa [Stmt.Binds, Stmt.expressions] using hfits) trivial
        (hmute.names.mute (mute_of_ok hret)), endOfLine_ends hemit.ready h⟩
      rw [hcount, Nat.add_zero, hall.past (hedits.trans (edits_of_ok hret))]
      have hcodes : Expr.ValueCodes m.program b.view value c := by
        rw [← hlays.view]
        exact hvalue.mono hemit.grows
      exact ⟨_, .return_ hin hcodes⟩
    obtain ⟨_, _, hcheck, h⟩ := bind_eq_ok.mp h
    obtain ⟨_, rfl⟩ := check_eq_ok hcheck
    obtain ⟨_, _, hcheck, h⟩ := bind_eq_ok.mp h
    obtain ⟨_, rfl⟩ := check_eq_ok hcheck
    split at h
    · obtain ⟨_, b1, hx, h⟩ := bind_eq_ok.mp h
      obtain ⟨hlays, hreads, hvalue⟩ := literal_none_values hready hx
      exact hrest hlays (edits_of_ok hx) (mute_of_ok hx) hreads hvalue rfl rfl (by simp) h
    · obtain ⟨_, b1, hx, h⟩ := bind_eq_ok.mp h
      obtain ⟨e, c, he, hfits, _⟩ := hexpression b b1 hready (hb.expecting rfl) hx
      exact hrest he.toLays (edits_of_ok hx) (mute_of_ok hx) he.reads (.some he.codes) rfl
        e.count_newline (by simpa using hfits) h

omit hexpression [Keeps Edits expression] [Keeps Mute expression] in
/-- A new variable is a local, or a global under its name. -/
theorem define_composes {name : String} {t : Located} {b0 b b1 b' : Builder} {isLocal : Bool}
    {value : Option (Expr .operand)} {c : Phrase} {ts : List Token} (hb0 : b0.Ready)
    (hb : b0.Begins b .declare) (hin : b.inRunnable = isLocal)
    (hlays : b.Lays b1 (encode c.directives)) (hedits : b.Edits b1) (hmute : b.Mute b1)
    (hreads : b.Reads b1 ts) (hvalue : Expr.ValueCodes b1.program b1.view value c)
    (htokens : (Stmt.declare name value).tokens = .keyword .declare :: ts)
    (hcount : ts.count .newline = 0) (hfits : ∀ e ∈ value, e.Binds .assign)
    (h : (if isLocal = true then do addLocal (some name) t; endOfLine
      else do emitWith .define (← textConstant name); endOfLine : Compile Unit) b1 = .ok () b') :
    ∃ (t : Stmt .statement) (c : Phrase) (m : Builder), b0.Tells m t c ∧ m.Ends b' := by
  have hready := (hb.still.lays hb0).ready
  cases isLocal with
  | true =>
    have hinside := hin
    have hin : b.current ≠ 0 := by simpa [Builder.inRunnable] using hin
    obtain ⟨_, m, hlocal, h⟩ := bind_eq_ok.mp h
    obtain ⟨hwrites, hlocals, _⟩ := addLocal_writes hlays.ready hlocal
    have hpauses : b1.Pauses m := pauses_of_ok hlocal
    have hall : b.Writes m (encode c.directives) := by
      simpa using hlays.toWrites.trans hwrites hready
    refine ⟨.declare name value, c, m, hb.tells hb0 hall
      (by simpa using hreads.trans hpauses.reads) htokens (fun read => ?_)
        (by simpa [Stmt.Binds, Stmt.expressions] using hfits) (fun _ => ?_) ?_,
      endOfLine_ends hwrites.ready h⟩
    have hsite : m.site read = ((b.site read).past c).withLocals (some name :: b.view.locals) := by
      have hsize := (hedits.trans (edits_of_ok hlocal)).size
      simp [Builder.site, Site.past, Site.forward, Site.withLocals, Builder.view, hlocals,
        hlays.locals, hall.current, hsize, hall.offset, Directive.length_encode]
    · rw [hcount, Nat.add_zero, hsite]
      have hcodes : Expr.ValueCodes m.program b.view value c := by
        rw [← hlays.view]
        exact hvalue.mono hwrites.grows
      exact ⟨_, .declareLocal hin hcodes⟩
    · have hfits := addLocal_fits hlocal
      rwa [hlocals, List.length_cons, hlays.locals] at hfits
    · refine hmute.trans_names ⟨fun _ => addLocal_names hlocal, fun hout => ?_⟩ hlays.current
      rw [hlays.inRunnable, hinside] at hout
      cases hout
  | false =>
    have hin : b.current = 0 := by simpa [Builder.inRunnable] using hin
    obtain ⟨index, b2, htext, h⟩ := bind_eq_ok.mp h
    obtain ⟨_, m, hdefine, h⟩ := bind_eq_ok.mp h
    obtain ⟨hentered, hpauses, hname⟩ := textConstant_names hlays.ready htext
    have hemit : b2.Lays m (Directive.define index).bytes := emitBytes_lays hentered.ready hdefine
    have hpauses' : b2.Pauses m := pauses_of_ok hdefine
    have hboth : b1.Lays m (Directive.define index).bytes := hentered.trans hemit hlays.ready
    have hall : b.Lays m (encode (Phrase.seq c (.one (.define index))).directives) := by
      simpa [Phrase.directives] using hlays.trans hboth hready
    refine ⟨.declare name value, _, m, hb.tells hb0 hall.toWrites
      (by simpa using hreads.trans (hpauses.trans hpauses').reads) htokens (fun read => ?_)
        (by simpa [Stmt.Binds, Stmt.expressions] using hfits)
        (fun hyes => absurd hyes (by simp [Builder.inRunnable, hin])) ?_,
      endOfLine_ends hemit.ready h⟩
    have hedits := (hedits.trans (edits_of_ok htext)).trans (edits_of_ok hdefine)
    · rw [hcount, Nat.add_zero, hall.past hedits]
      have hcodes : Expr.ValueCodes m.program b.view value c := by
        rw [← hlays.view]
        exact hvalue.mono hboth.grows
      have hname := hemit.constant? hname
      rw [hall.view] at hname
      exact ⟨_, .declare hin hcodes hname⟩
    · have hmute : b.Mute m := Trans.trans hmute (Trans.trans (mute_of_ok htext) (mute_of_ok hdefine))
      exact ⟨fun hinside => absurd hinside (by simp [Builder.inRunnable, hin]), hmute.names.outside⟩

theorem varDeclaration_composes {b0 b b' : Builder} (hb0 : b0.Ready) (hb : b0.Begins b .declare)
    (h : varDeclaration expression b = .ok () b') :
    ∃ (t : Stmt .statement) (c : Phrase) (m : Builder), b0.Tells m t c ∧ m.Ends b' := by
  have hready := (hb.still.lays hb0).ready
  dsimp only [varDeclaration] at h
  obtain ⟨name, b1, hname, h⟩ := bind_eq_ok.mp h
  obtain ⟨t, _, hlast, h⟩ := bind_eq_ok.mp h
  obtain ⟨_, rfl⟩ := last_eq_ok hlast
  obtain ⟨_, _, hget, h⟩ := bind_eq_ok.mp h
  obtain ⟨rfl, rfl⟩ := get_eq_ok.mp hget
  obtain ⟨_, _, hget, h⟩ := bind_eq_ok.mp h
  obtain ⟨rfl, rfl⟩ := get_eq_ok.mp hget
  obtain ⟨hreads, _⟩ := consumeName_eq_ok hname
  have hstill := still_of_ok hname
  have hlays := hstill.lays hready
  split at h
  · obtain ⟨_, _, hfail, _⟩ := bind_eq_ok.mp h
    exact absurd hfail throw_ne_ok
  · obtain ⟨given, b2, haccept, h⟩ := bind_eq_ok.mp h
    have hin : b.inRunnable = b1.inRunnable := hlays.inRunnable.symm
    rcases accept_eq_ok (by simp) haccept with ⟨rfl, hassign, hlast⟩ | ⟨rfl, rfl, _⟩
    · obtain ⟨_, b3, hx, h⟩ := bind_eq_ok.mp h
      have hfront := hlays.trans ((still_of_ok haccept).lays hlays.ready) hready
      have hedits : b.Edits b2 := hstill.edits.trans (still_of_ok haccept).edits
      obtain ⟨e, c, he, hfits, _⟩ := hexpression b2 b3 hfront.ready
        (fun _ => by rw [hlast]; rfl) hx
      have hmute : b.Mute b2 := Trans.trans hstill.mute (mute_of_ok haccept)
      refine define_composes hb0 hb hin ?_ (hedits.trans (edits_of_ok hx))
        (Trans.trans hmute (mute_of_ok hx)) (hreads.trans (hassign.trans he.reads)) (.some he.codes) rfl ?_ (by simpa using hfits) h
      · simpa using hfront.trans he.toLays hready
      · simp [e.count_newline]
    · obtain ⟨_, b3, hx, h⟩ := bind_eq_ok.mp h
      obtain ⟨hnone, hnothing, hvalue⟩ := literal_none_values hlays.ready hx
      refine define_composes hb0 hb hin ?_ (hstill.edits.trans (edits_of_ok hx))
        (Trans.trans hstill.mute (mute_of_ok hx)) (hreads.trans hnothing) hvalue rfl (by simp) (by simp) h
      simpa using hlays.trans hnone hready

end

end Compile

namespace Builder

theorem Tells.extend {b b' b'' : Builder} {k : StmtKind} {t : Stmt k} {c : Phrase}
    (h : b.Tells b' t c) (hp : b'.program.Extends b''.program b'.current) (read : Nat) :
    ∃ l, t.Codes b''.program (b.site read) (b'.site (read+t.tokens.count .newline)) c l := by
  obtain ⟨l, hl⟩ := h.codes read
  exact ⟨l, hl.mono hp (Nat.le_of_eq h.current)⟩

/-- The marker of an end of line. -/
theorem site_ended {b b' : Builder} (h : b.Lays b' Directive.newline.bytes) (he : b.Edits b')
    (read : Nat) : b'.site (read+1) = (b.site read).ended := by
  simp [site, Site.ended, h.view, he.size, h.offset, Directive.newline, Directive.bytes,
    Directive.plain, Operand.bytes]

theorem Tells.nil {b : Builder} (hb : b.Ready) : b.Tells b .nil .empty where
  toWrites := .refl hb
  reads := rfl
  codes _ := ⟨_, .nil⟩
  binds := by simp [Stmt.Binds, Stmt.expressions]
  roomy := trivial
  names := Mute.names (Std.Refl.refl b)

theorem Tells.line {b m b1 b' : Builder} {t : Stmt .statement} {rest : Stmt .block} {c d : Phrase}
    (hb : b.Ready) (h : b.Tells m t c) (hreads : m.Reads b1 [.newline])
    (hlays : m.Lays b1 Directive.newline.bytes) (hedits : m.Edits b1) (hmute : m.Mute b1)
    (hrest : b1.Tells b' rest d) : b.Tells b' (.line t rest) (.seq (.seq c .newline) d) where
  toWrites := by
    simpa [Phrase.directives, Phrase.newline] using
      (h.toWrites.trans hlays.toWrites hb).trans hrest.toWrites hb
  reads := by
    simpa [Stmt.tokens] using h.reads.trans (hreads.trans hrest.reads)
  codes read := by
    have hext := (hlays.extends rfl).trans (hrest.extends hlays.current)
    obtain ⟨l, hl⟩ := h.extend hext read
    obtain ⟨l', hl'⟩ := hrest.codes (read+t.tokens.count .newline+1)
    rw [site_ended hlays hedits] at hl'
    have hcount : read+(Stmt.line t rest).tokens.count .newline =
        read+t.tokens.count .newline+1+rest.tokens.count .newline := by
      simp [Stmt.tokens]
      omega
    rw [hcount]
    exact ⟨_, .line hl hl'⟩
  binds := List.forall_mem_append.mpr ⟨h.binds, hrest.binds⟩
  roomy := by
    obtain ⟨l, hl⟩ := h.codes 0
    have hlength := hl.length_locals
    have hrest := hlays.roomy hrest.roomy
    rw [h.inRunnable] at hrest
    simp only [site, view, List.length_map] at hlength
    rw [hlength] at hrest
    exact ⟨h.roomy, hrest⟩
  names := (h.names.mute hmute).trans hrest.names (hlays.current.trans h.current)

/-- Lines one after another; where the tokens end, the last may lack its end. -/
inductive Lists (b b' : Builder) : Prop
  | whole {t : Stmt .block} {c : Phrase} (lines : b.Tells b' t c)
  | cut {t : Stmt .block} {last : Stmt .statement} {c d : Phrase} {m : Builder}
    (lines : b.Tells m t c) (rest : m.Tells b' last d) (some : last ≠ .blank)
    (none : b'.peek.token = .eof)

theorem Lists.line {b m b1 b' : Builder} {t : Stmt .statement} {c : Phrase} (hb : b.Ready)
    (h : b.Tells m t c) (hreads : m.Reads b1 [.newline])
    (hlays : m.Lays b1 Directive.newline.bytes) (hedits : m.Edits b1) (hmute : m.Mute b1)
    (hrest : b1.Lists b') : b.Lists b' := by
  cases hrest with
  | whole lines => exact .whole (h.line hb hreads hlays hedits hmute lines)
  | cut lines rest some none =>
    exact .cut (h.line hb hreads hlays hedits hmute lines) rest some none

/-- A statement takes a token, or the end of its line does. -/
theorem Tells.upcoming_lt {b m b' : Builder} {t : Stmt .statement} {c : Phrase}
    (h : b.Tells m t c) (hends : m.Ends b') (hsome : b.peek.token ≠ .eof) :
    b'.upcoming.length < b.upcoming.length := by
  have hreads := congrArg List.length h.reads
  rw [List.length_append] at hreads
  cases hends with
  | line reads _ _ =>
    have hline := congrArg List.length reads
    rw [List.length_append, List.length_singleton] at hline
    omega
  | cut none same =>
    subst same
    cases ht : t.tokens with
    | nil =>
      have hnothing := h.reads
      rw [ht, Reads, List.nil_append] at hnothing
      rw [token_peek, hnothing, ← token_peek] at hsome
      exact absurd none hsome
    | cons first rest =>
      rw [ht, List.length_cons] at hreads
      omega

end Builder

namespace Compile

section
variable {b b' : Builder} {statement : Compile Unit}

theorem declarations_eof {closers : List Keyword} {budget : List Located} {a : Unit}
    (hnone : b.peek.token = .eof) (h : declarations statement closers budget b = .ok a b') :
    b' = b := by
  cases budget with
  | nil => exact (pure_eq_ok.mp h).2.symm
  | cons t budget =>
    unfold declarations at h
    obtain ⟨_, _, hpeek, h⟩ := bind_eq_ok.mp h
    obtain ⟨rfl, rfl⟩ := peek_eq_ok hpeek
    simp only [hnone] at h
    exact (pure_eq_ok.mp h).2.symm

variable [Keeps Builder.Reports statement] (hexecutes : Executes statement)
  (hcomposes : Composes statement)
include hexecutes hcomposes

/-- Lines are read up to one of the closers, or up to the end. -/
theorem declarations_lists {closers : List Keyword} {budget : List Located} {a : Unit}
    (hb : b.Ready) (hscoped : b.Scoped) (hbudget : b.upcoming.length ≤ budget.length)
    (h : declarations statement closers budget b = .ok a b') (hs : b'.diagnostics = #[]) :
    b.Lists b' ∧ (b'.peek.token = .eof ∨ ∃ k ∈ closers, b'.peek.token = .keyword k) := by
  induction budget generalizing b with
  | nil =>
    obtain ⟨_, rfl⟩ := pure_eq_ok.mp h
    have hnone : b.upcoming = [] := List.eq_nil_of_length_eq_zero (by simpa using hbudget)
    exact ⟨.whole (.nil hb), .inl (by rw [Builder.token_peek, hnone]; rfl)⟩
  | cons token budget ih =>
    unfold declarations at h
    obtain ⟨_, _, hpeek, h⟩ := bind_eq_ok.mp h
    obtain ⟨rfl, rfl⟩ := peek_eq_ok hpeek
    have hstep (hsome : b.peek.token ≠ .eof) (h : (declaration statement >>= fun _ =>
        declarations statement closers budget) b = .ok a b') :
        b.Lists b' ∧ (b'.peek.token = .eof ∨ ∃ k ∈ closers, b'.peek.token = .keyword k) := by
      obtain ⟨_, b1, hd, hs1, h⟩ := bind_silent h hs
      have hstatement := declaration_eq_ok hd hs1
      obtain ⟨_, _, hruns⟩ := hexecutes b b1 hb hscoped hstatement hs1
      obtain ⟨t, c, m, htells, hends⟩ := hcomposes b b1 hb hscoped hsome hstatement hs1
      have hless := htells.upcoming_lt hends hsome
      rw [List.length_cons] at hbudget
      cases hends with
      | line reads lays edits mute =>
        obtain ⟨hlists, hstops⟩ := ih hruns.ready (hruns.scope hscoped) (by omega) h
        exact ⟨.line hb htells reads lays edits mute hlists, hstops⟩
      | cut none same =>
        subst same
        cases declarations_eof none h
        refine ⟨.cut (.nil hb) htells ?_ none, .inl none⟩
        rintro rfl
        rw [htells.reads, Stmt.tokens, List.nil_append] at hless
        exact Nat.lt_irrefl _ hless
    generalize hfirst : b.peek.token = first at h hstep
    split at h
    · obtain ⟨_, rfl⟩ := pure_eq_ok.mp h
      exact ⟨.whole (.nil hb), .inl hfirst⟩
    · split at h
      · next hcloses =>
        obtain ⟨_, rfl⟩ := pure_eq_ok.mp h
        exact ⟨.whole (.nil hb), .inr ⟨_, List.contains_iff_mem.mp hcloses, hfirst⟩⟩
      · exact hstep (by simp) h
    · next hne _ => exact hstep hne h

/-- A block is lines in a scope of their own; tokens do not end before it does. -/
theorem block_tells {opener : Keyword} {closers : List Keyword} {a : Unit} (hb : b.Ready)
    (hscoped : b.Scoped) (h : block statement opener closers b = .ok a b')
    (hs : b'.diagnostics = #[]) :
    b.peek.token ≠ .eof ∧ ∃ (t : Stmt .scope) (c : Phrase), b.Tells b' t c ∧
      b.Lays b' (encode c.directives) := by
  obtain ⟨_, hcovers⟩ := block_covers hexecutes hb hscoped h hs
  dsimp only [block] at h
  obtain ⟨_, b1, hbegin, _, h⟩ := bind_silent h hs
  obtain ⟨_, _, hget, _, h⟩ := bind_silent h hs
  obtain ⟨rfl, rfl⟩ := get_eq_ok.mp hget
  obtain ⟨_, b2, hdecls, hs2, h⟩ := bind_silent h hs
  obtain ⟨_, b3, hend, _, h⟩ := bind_silent h hs
  obtain ⟨eof, _, hcheck, _, h⟩ := bind_silent h hs
  obtain ⟨heof, rfl⟩ := check_eq_ok hcheck
  cases eof with
  | true =>
    obtain ⟨_, _, _, h⟩ := bind_eq_ok.mp h
    exact absurd h throw_ne_ok
  | false =>
    obtain ⟨_, rfl⟩ := pure_eq_ok.mp h
    have hb1 := modify_eq_ok.mp hbegin
    have hopened : b.Writes b1 [] := .same hb (by rw [← hb1]) (by rw [← hb1])
    have hlocals : b1.locals = b.locals := by rw [← hb1]
    have hdepth : b1.depth = b.depth+1 := by rw [← hb1]
    have hupcoming : b1.upcoming = b.upcoming := by rw [← hb1]; rfl
    have hsite (read : Nat) : b1.site read = b.site read := by rw [← hb1]; rfl
    have hscoped1 : b1.Scoped := by
      intro l hl
      rw [hlocals] at hl
      rw [hdepth]
      exact Nat.le_succ_of_le (hscoped l hl)
    obtain ⟨_, new, hruns⟩ := declarations_runs hexecutes hopened.ready hscoped1 hdecls hs2
    have hleave : Builder.leave (b2.depth-1) b2.locals = (b.locals, new.length) := by
      rw [hruns.locals, hlocals, hruns.depth, hdepth]
      refine Builder.leave_append (fun l hl => ?_) hscoped
      rw [hruns.here l hl, hdepth]
      exact Nat.lt_succ_self _
    have hemit := endScope_eq_ok hleave hend
    have hclosed : b2.Writes {b2 with depth := b2.depth-1, locals := b.locals} [] :=
      .same hruns.ready rfl rfl
    have hpops := emitBytes_lays hclosed.ready hemit
    rw [← Phrase.encode_pops] at hpops
    have hrest := hclosed.trans hpops.toWrites hruns.ready
    have hpauses : b3.upcoming = b2.upcoming := (pauses_of_ok hemit).upcoming
    have hmore : b2.peek.token ≠ .eof := by
      rw [Builder.token_peek, ← hpauses, ← Builder.token_peek]
      intro hnone
      rw [hnone] at heof
      cases heof
    refine ⟨fun hnone => ?_, ?_⟩
    · rw [Builder.token_peek, ← hupcoming, ← Builder.token_peek] at hnone
      cases declarations_eof hnone hdecls
      exact hmore hnone
    · have hlists := declarations_lists hexecutes hcomposes hopened.ready hscoped1
        (by simp [Builder.upcoming]) hdecls hs2
      cases hlists.1 with
      | cut _ _ _ none => exact absurd none hmore
      | @whole t c lines =>
        have hwrites := hopened.trans (lines.toWrites.trans hrest hopened.ready) hb
        have hall : b.Writes b3 (encode (Phrase.seq c (.pops new.length)).directives) := by
          simpa [Phrase.directives] using hwrites
        refine ⟨.scope t, .seq c (.pops new.length),
          ⟨hall, ?_, fun read => ?_, lines.binds, ?_, ?_⟩, hall, hcovers.locals, hcovers.depth⟩
        · have hreads := lines.reads
          rwa [Builder.Reads, hupcoming, ← hpauses] at hreads
        · obtain ⟨l, hl⟩ := lines.extend (hrest.extends rfl) read
          rw [hsite] at hl
          have hscope := Stmt.Codes.scope hl
          have hnew : (b2.site (read+t.tokens.count .newline)).locals.length-
              (b.site read).locals.length = new.length := by
            simp [Builder.site, Builder.view, hruns.locals, hlocals]
          have hend : b3.site (read+t.tokens.count .newline) =
              ((b2.site (read+t.tokens.count .newline)).past (.pops new.length)).withLocals
                (b.site read).locals := by
            have hsize : b3.functions.size = b2.functions.size := (edits_of_ok hemit).size
            simp [Builder.site, Builder.view, Site.past, Site.forward, Site.withLocals, hsize,
              hpops.locals, hrest.current, hrest.offset, Directive.length_encode]
          rw [hnew, ← hend] at hscope
          exact ⟨_, hscope⟩
        · have hroomy := lines.roomy
          rwa [hopened.inRunnable, hlocals] at hroomy
        · have hmute : b.Mute b1 := by
            rw [← hb1]
            rfl
          have hmute' : b2.Mute b3 :=
            (mute_of_ok hemit : Builder.Mute {b2 with depth := b2.depth-1, locals := b.locals} b3)
          exact (hmute.trans_names lines.names hopened.current).mute hmute'

end
end Compile
end RatScript
