import RatScript.Proofs.Syntax.Statement

/-!
Branches and loops as they are compiled: jumps are laid around the code of their parts, and the ends
of their headers are marked where each kind has its marker.
-/

set_option synthInstance.maxSize 65536

namespace RatScript

open Stateful
open Directive (encode size)

namespace Compile

open Builder (Edits Mute)

theorem header_reads {b b' : Builder} {what : String} {a : Unit} (h : header what b = .ok a b') :
    b.Reads b' [.symbol .colon] ∧ b.Still b' :=
  ⟨(consume_eq_ok (by simp) h).1, still_of_ok h⟩

/-- A patch changes bytes in their place. -/
theorem patchJump_site {b b' : Builder} {at_ : Nat} {a : Unit} (hb : b.Ready)
    (h : patchJump at_ b = .ok a b') (read : Nat) : b'.site read = b.site read := by
  obtain ⟨_, _, hoffset, h⟩ := bind_eq_ok.mp h
  obtain ⟨_, rfl⟩ := offset_eq_ok hb hoffset
  generalize Word.ofNat? _ = word at h
  cases word with
  | none =>
    obtain ⟨_, _, _, h⟩ := bind_eq_ok.mp h
    exact absurd h throw_ne_ok
  | some distance =>
    cases modify_eq_ok.mp h
    have hfunction : (b.modifyChunk (·.patch at_ distance)).function.chunk =
        b.function.chunk.patch at_ distance := by
      change ((b.functions.modify b.current _)[b.current]?.getD default).chunk = _
      rw [Array.getElem?_modify, if_pos rfl, hb.here]
      rfl
    have hsize := (b.edits_modifyFunction fun g => {g with chunk := g.chunk.patch at_ distance}).size
    have hlength : (b.modifyChunk (·.patch at_ distance)).written.length = b.written.length := by
      rw [Builder.written, hfunction]
      simp [Chunk.patch, Builder.written]
    exact Site.ext rfl rfl hsize hlength rfl

section
variable {expression statement : Compile Unit} (hexpression : Parses expression .assign)
  [Keeps Edits expression] [Keeps Mute expression] [Keeps Builder.Reports statement]
  (hexecutes : Executes statement) (hcomposes : Composes statement)
include hexpression hexecutes hcomposes

theorem ifStatement_composes {b0 b b' : Builder} (hb0 : b0.Ready) (hscoped0 : b0.Scoped)
    (hb : b0.Begins b .if_) (h : ifStatement expression statement b = .ok () b')
    (hs : b'.diagnostics = #[]) :
    ∃ (t : Stmt .statement) (c : Phrase) (m : Builder), b0.Tells m t c ∧ m.Ends b' := by
  have hready := (hb.still.lays hb0).ready
  have hscoped := (hb.still.lays hb0).scope hscoped0
  dsimp only [ifStatement] at h
  obtain ⟨_, b1, htest, _, h⟩ := bind_silent h hs
  obtain ⟨_, b2, hheader, _, h⟩ := bind_silent h hs
  obtain ⟨_, b3, hline, _, h⟩ := bind_silent h hs
  obtain ⟨toElse, b4, hjump, _, h⟩ := bind_silent h hs
  obtain ⟨_, b5, hpop, _, h⟩ := bind_silent h hs
  obtain ⟨_, b6, hblock, hs6, h⟩ := bind_silent h hs
  obtain ⟨toEnd, b7, hover, _, h⟩ := bind_silent h hs
  obtain ⟨_, b8, hpatch, _, h⟩ := bind_silent h hs
  obtain ⟨_, b9, hpop', _, h⟩ := bind_silent h hs
  obtain ⟨more, b10, haccept, _, h⟩ := bind_silent h hs
  obtain ⟨e, c, he, hfits, _⟩ := hexpression b b1 hready (hb.expecting rfl) htest
  obtain ⟨hcolon, hstill⟩ := header_reads hheader
  have hheaded := hstill.lays he.ready
  have hended := endOfLine_ends hheaded.ready hline
  obtain ⟨_, hline⟩ := hended.lays hheaded.ready
  obtain ⟨hjumped, _⟩ := emitJump_lays hline.ready hjump
  have hpopped := pop_lays hjumped.ready hpop
  have hskip := hjumped.trans hpopped hline.ready
  have hpaused : b3.Pauses b5 := (pauses_of_ok hjump).trans (pauses_of_ok hpop)
  have hscoped5 := hskip.scope (hline.scope (hheaded.scope (he.toLays.scope hscoped)))
  obtain ⟨hmore, yes, d, hyes, hyesl⟩ :=
    block_tells hexecutes hcomposes hpopped.ready hscoped5 hblock hs6
  rw [Builder.token_peek, hpaused.upcoming, ← Builder.token_peek] at hmore
  obtain ⟨hnewline, hline, hedits⟩ := hended.line_of_more hmore
  obtain ⟨hfit, hgrows, hat, hopen⟩ := branch_opens hline.ready hjump hpop hyesl hover hpatch
  have hpopped' := pop_lays hopen.ready hpop'
  have hfront : b.Lays b3 (encode (Phrase.seq c .newline).directives) := by
    simpa [Phrase.directives, Phrase.newline] using
      he.toLays.trans (hheaded.trans hline he.ready) hready
  have hreads : b.Reads b6 (e.tokens++Stmt.opening++yes.tokens) := by
    have h5 := he.reads.trans (hcolon.trans (hnewline.trans hpaused.reads))
    simpa [Stmt.opening] using h5.trans hyes.reads
  have hsite5 (read : Nat) : b5.site (read+1) = ((b.site read).past c).ended.forward 4 := by
    have hskipped : b3.Edits b5 := (edits_of_ok hjump).trans (edits_of_ok hpop)
    rw [hskip.site hskipped, Builder.site_ended hline hedits, hstill.site,
      he.toLays.past (edits_of_ok htest)]
    rfl
  have hedits6 : b6.Edits b9 :=
    (edits_of_ok hover).trans ((edits_of_ok hpatch).trans (edits_of_ok hpop'))
  have hpaused6 : b6.Pauses b9 :=
    (pauses_of_ok hover).trans ((pauses_of_ok hpatch).trans (pauses_of_ok hpop'))
  have hcurrent6 : b6.current = b3.current := hyesl.current.trans hskip.current
  have hext6 : b6.program.Extends b9.program b6.current :=
    hedits6.extends (hgrows.program.trans hpopped'.grows) rfl
  have hsite9 (read : Nat) : b9.site read = (b6.site read).forward 4 := by
    have hview : b9.view = b6.view := by
      rw [hpopped'.view, hopen.view, hyesl.view, hskip.view]
    have hoffset := hpopped'.offset
    rw [hopen.offset, List.length_append, List.length_append, List.length_append] at hoffset
    have hoffset6 := hyesl.offset
    rw [hskip.offset] at hoffset6
    simp [Builder.site, Site.forward, hview, hedits6.size]
    simp [Directive.length_encode] at hoffset hoffset6
    omega
  have hroomy : yes.Roomy b.inRunnable b.locals.length :=
    he.toLays.roomy (hheaded.roomy (hline.roomy (hskip.roomy hyes.roomy)))
  have hcurrent5 : b5.current = b.current := hskip.current.trans hfront.current
  have hcurrent9 : b9.current = b.current := hedits6.current.trans (hyesl.current.trans hcurrent5)
  have hnames : b.Names b9 yes.locals yes.frames := by
    have hmute : b.Mute b5 := Trans.trans (mute_of_ok htest) (Trans.trans hstill.mute
      (Trans.trans hended.mute (Trans.trans (mute_of_ok hjump) (mute_of_ok hpop))))
    have hmute6 : b6.Mute b9 :=
      Trans.trans (mute_of_ok hover) (Trans.trans (mute_of_ok hpatch) (mute_of_ok hpop'))
    exact (hmute.trans_names hyes.names hcurrent5).mute hmute6
  -- what both ways have in common: the rest of the branch leads behind it
  have hclose {no : Phrase} {b11 m : Builder} {at_ : Unit} (hno : b9.Lays b11 (encode no.directives))
      (hpatch' : patchJump toEnd b11 = .ok at_ m) :
      size no.directives+1 < 0x10000 ∧ b.Lays m (encode (Phrase.seq (.seq c .newline)
        (.branch d no)).directives) ∧ e.Codes m.program b.view c ∧
      b6.program.Extends m.program b6.current ∧ b11.program.Extends m.program b6.current := by
    obtain ⟨hfit', hgrows', hall⟩ := branch_closes hline.ready hat hopen hpop' hno hpatch'
    have hcurrent11 : b11.current = b6.current :=
      hno.current.trans hedits6.current
    have hext11 := (edits_of_ok hpatch').extends hgrows'.program hcurrent11
    have hlays : b.Lays m (encode (Phrase.seq (.seq c .newline) (.branch d no)).directives) := by
      simpa [Phrase.directives] using hfront.trans hall hready
    have htest : e.Codes m.program b.view c := by
      rw [← he.view]
      exact he.codes.mono ((hheaded.trans hline he.ready).trans hall he.ready).grows
    exact ⟨hfit', hlays, htest, hext6.trans ((hno.extends hedits6.current).trans hext11), hext11⟩
  rcases accept_eq_ok (by simp) haccept with ⟨rfl, helse, _⟩ | ⟨rfl, rfl, _⟩
  · obtain ⟨_, b11, hheader', _, h⟩ := bind_silent h hs
    obtain ⟨_, b12, hline', _, h⟩ := bind_silent h hs
    obtain ⟨_, b13, hblock', hs13, h⟩ := bind_silent h hs
    obtain ⟨_, b14, hendif, _, h⟩ := bind_silent h hs
    obtain ⟨_, m, hpatch', _, h⟩ := bind_silent h hs
    obtain ⟨hcolon', hstill'⟩ := header_reads hheader'
    have hstill' : b9.Still b11 := Trans.trans (still_of_ok haccept) hstill'
    have hheaded' := hstill'.lays hpopped'.ready
    have hended' := endOfLine_ends hheaded'.ready hline'
    obtain ⟨_, hline'⟩ := hended'.lays hheaded'.ready
    have hscoped9 := hpopped'.scope (hopen.scope (hfront.scope hscoped))
    obtain ⟨hmore', no, n, hno, hnol⟩ := block_tells hexecutes hcomposes hline'.ready
      (hline'.scope (hheaded'.scope hscoped9)) hblock' hs13
    obtain ⟨hnewline', hline', hedits'⟩ := hended'.line_of_more hmore'
    obtain ⟨hreads', _⟩ := consume_eq_ok (by simp) hendif
    have hendif := still_of_ok hendif
    have hbranch : b9.Lays b14 (encode (Phrase.seq .newline n).directives) := by
      have hinside := hline'.trans (hnol.trans (hendif.lays hnol.ready) hline'.ready) hheaded'.ready
      simpa [Phrase.directives, Phrase.newline] using hheaded'.trans hinside hpopped'.ready
    obtain ⟨hfit', hlays, hcodes, hext, hext14⟩ := hclose hbranch hpatch'
    have hroomy' : no.Roomy b.inRunnable b.locals.length :=
      hfront.roomy (hopen.roomy (hpopped'.roomy (hheaded'.roomy (hline'.roomy hno.roomy))))
    have hpaused' : b14.Pauses m := pauses_of_ok hpatch'
    have hcurrent12 : b12.current = b9.current := hline'.current.trans hheaded'.current
    have hnames' : b9.Names m no.locals no.frames := by
      have hmute : b9.Mute b12 := Trans.trans hstill'.mute hended'.mute
      have hmute' : b13.Mute m := Trans.trans hendif.mute (mute_of_ok hpatch')
      exact (hmute.trans_names hno.names hcurrent12).mute hmute'
    have hreads : b.Reads m (e.tokens++Stmt.opening++yes.tokens++Token.keyword .else_ :: Stmt.opening++
        no.tokens++[Token.keyword .endIf]) := by
      have helse := hpaused6.reads.trans (helse.trans (hcolon'.trans hnewline'))
      simpa [Stmt.opening] using
        hreads.trans (helse.trans (hno.reads.trans (hreads'.trans hpaused'.reads)))
    refine ⟨.ifElse e yes no, _, m, hb.tells hb0 hlays.toWrites hreads rfl (fun read => ?_)
      (List.forall_mem_cons.mpr ⟨hfits, List.forall_mem_append.mpr ⟨hyes.binds, hno.binds⟩⟩)
      ⟨hroomy, hroomy'⟩ (hnames.trans hnames' hcurrent9), endOfLine_ends hlays.ready h⟩
    obtain ⟨l, hl⟩ := hyes.extend hext (read+1)
    have hcurrent13 : b13.current = b6.current := by
      rw [hnol.current, hline'.current, hheaded'.current, hedits6.current]
    have hext13 : b13.program.Extends m.program b13.current := by
      rw [hcurrent13]
      exact (hendif.edits.extends (hendif.lays hnol.ready).grows hcurrent13).trans hext14
    obtain ⟨l', hl'⟩ := hno.extend hext13 (read+1+yes.tokens.count .newline+1)
    rw [hsite5] at hl
    rw [Builder.site_ended hline' hedits', hstill'.site, hsite9] at hl'
    have hcount : read+(e.tokens++Stmt.opening++yes.tokens++Token.keyword .else_ :: Stmt.opening++
        no.tokens++[Token.keyword .endIf]).count Token.newline =
          read+1+yes.tokens.count .newline+1+no.tokens.count .newline := by
      simp [e.count_newline, Stmt.opening]
      omega
    rw [hcount, patchJump_site hbranch.ready hpatch', hendif.site]
    simp only [Phrase.directives, Phrase.newline, Directive.size_append, Directive.size_cons,
      Directive.size_nil, Directive.width_newline] at hfit'
    exact ⟨_, .ifElse hcodes hl hl' hfit (by omega)⟩
  · obtain ⟨_, b11, hendif, _, h⟩ := bind_silent h hs
    obtain ⟨_, m, hpatch', _, h⟩ := bind_silent h hs
    obtain ⟨hreads', _⟩ := consume_eq_ok (by simp) hendif
    have hno : b9.Lays b11 (encode Phrase.empty.directives) :=
      (still_of_ok hendif).lays hpopped'.ready
    obtain ⟨_, hlays, hcodes, hext, _⟩ := hclose hno hpatch'
    have hpaused' : b11.Pauses m := pauses_of_ok hpatch'
    have hreads : b.Reads m (e.tokens++Stmt.opening++yes.tokens++[Token.keyword .endIf]) := by
      simpa using hreads.trans (hpaused6.reads.trans (hreads'.trans hpaused'.reads))
    refine ⟨.if_ e yes, _, m, hb.tells hb0 hlays.toWrites hreads rfl (fun read => ?_)
      (List.forall_mem_cons.mpr ⟨hfits, hyes.binds⟩) hroomy
      (hnames.mute (Trans.trans (mute_of_ok hendif) (mute_of_ok hpatch'))),
      endOfLine_ends hlays.ready h⟩
    obtain ⟨l, hl⟩ := hyes.extend hext (read+1)
    rw [hsite5] at hl
    have hcount : read+(e.tokens++Stmt.opening++yes.tokens++[Token.keyword .endIf]).count
        Token.newline = read+1+yes.tokens.count .newline := by
      simp [e.count_newline, Stmt.opening]
      omega
    rw [hcount, patchJump_site hno.ready hpatch', (still_of_ok hendif).site, hsite9]
    exact ⟨_, .if_ hcodes hl hfit⟩

theorem whileStatement_composes {b0 b b' : Builder} (hb0 : b0.Ready) (hscoped0 : b0.Scoped)
    (hb : b0.Begins b .while_) (h : whileStatement expression statement b = .ok () b')
    (hs : b'.diagnostics = #[]) :
    ∃ (t : Stmt .statement) (c : Phrase) (m : Builder), b0.Tells m t c ∧ m.Ends b' := by
  have hready := (hb.still.lays hb0).ready
  have hscoped := (hb.still.lays hb0).scope hscoped0
  dsimp only [whileStatement] at h
  obtain ⟨start, _, hoffset, h⟩ := bind_eq_ok.mp h
  obtain ⟨hstart, rfl⟩ := offset_eq_ok hready hoffset
  obtain ⟨_, b1, htest, _, h⟩ := bind_silent h hs
  obtain ⟨_, b2, hheader, _, h⟩ := bind_silent h hs
  obtain ⟨toEnd, b3, hjump, _, h⟩ := bind_silent h hs
  obtain ⟨_, b4, hpop, _, h⟩ := bind_silent h hs
  obtain ⟨_, b5, hline, _, h⟩ := bind_silent h hs
  obtain ⟨_, b6, hblock, hs6, h⟩ := bind_silent h hs
  obtain ⟨_, b7, hclose, _, h⟩ := bind_silent h hs
  obtain ⟨_, b8, hloop, _, h⟩ := bind_silent h hs
  obtain ⟨_, b9, hpatch, _, h⟩ := bind_silent h hs
  obtain ⟨_, m, hpop', _, h⟩ := bind_silent h hs
  obtain ⟨e, c, he, hfits, _⟩ := hexpression b b1 hready (hb.expecting rfl) htest
  obtain ⟨hcolon, hstill⟩ := header_reads hheader
  have hheaded := hstill.lays he.ready
  obtain ⟨hjumped, _⟩ := emitJump_lays hheaded.ready hjump
  have hpopped := pop_lays hjumped.ready hpop
  have hskip := hjumped.trans hpopped hheaded.ready
  have hpaused : b2.Pauses b4 := (pauses_of_ok hjump).trans (pauses_of_ok hpop)
  have hended := endOfLine_ends hpopped.ready hline
  obtain ⟨_, hline⟩ := hended.lays hpopped.ready
  have hscoped5 := hline.scope (hskip.scope (hheaded.scope (he.toLays.scope hscoped)))
  obtain ⟨hmore, body, d, hbody, hbodyl⟩ :=
    block_tells hexecutes hcomposes hline.ready hscoped5 hblock hs6
  obtain ⟨hnewline, hline, hedits⟩ := hended.line_of_more hmore
  obtain ⟨hend, _⟩ := consume_eq_ok (by simp) hclose
  have hclose := still_of_ok hclose
  have hfront : b.Lays b2 (encode c.directives) := by
    simpa using he.toLays.trans hheaded hready
  have hinside : b4.Lays b7 (encode (Phrase.seq .newline d).directives) := by
    have hlines := hline.trans (hbodyl.trans (hclose.lays hbodyl.ready) hline.ready) hpopped.ready
    simpa [Phrase.directives, Phrase.newline] using hlines
  obtain ⟨hfit, htgrows, hbgrows, hall⟩ :=
    loop_lays hready hstart hfront hjump hpop hinside hloop hpatch hpop'
  have hpaused' : b7.Pauses m :=
    (pauses_of_ok hloop).trans ((pauses_of_ok hpatch).trans (pauses_of_ok hpop'))
  have hedits7 : b7.Edits m :=
    (edits_of_ok hloop).trans ((edits_of_ok hpatch).trans (edits_of_ok hpop'))
  have hreads : b.Reads m (e.tokens++Stmt.opening++body.tokens++[Token.keyword .endWhile]) := by
    have h5 := he.reads.trans (hcolon.trans (hpaused.reads.trans hnewline))
    simpa [Stmt.opening] using h5.trans (hbody.reads.trans (hend.trans hpaused'.reads))
  have hroomy : body.Roomy b.inRunnable b.locals.length :=
    he.toLays.roomy (hheaded.roomy (hskip.roomy (hline.roomy hbody.roomy)))
  have hcurrent5 : b5.current = b.current :=
    hline.current.trans (hskip.current.trans hfront.current)
  have hnames : b.Names m body.locals body.frames := by
    have hmute : b.Mute b5 := Trans.trans (mute_of_ok htest) (Trans.trans hstill.mute
      (Trans.trans (mute_of_ok hjump) (Trans.trans (mute_of_ok hpop) hended.mute)))
    have hmute' : b6.Mute m := Trans.trans hclose.mute (Trans.trans (mute_of_ok hloop)
      (Trans.trans (mute_of_ok hpatch) (mute_of_ok hpop')))
    exact (hmute.trans_names hbody.names hcurrent5).mute hmute'
  refine ⟨.while_ e body, _, m, hb.tells hb0 hall.toWrites hreads rfl (fun read => ?_)
    (List.forall_mem_cons.mpr ⟨hfits, hbody.binds⟩) hroomy hnames, endOfLine_ends hall.ready h⟩
  have hext : b6.program.Extends m.program b6.current :=
    (hclose.edits.trans hedits7).extends ((hclose.lays hbodyl.ready).grows.trans hbgrows.program) rfl
  obtain ⟨l, hl⟩ := hbody.extend hext (read+1)
  have hsite5 : b5.site (read+1) = (((b.site read).past c).forward 4).ended := by
    have hskipped : b2.Edits b4 := (edits_of_ok hjump).trans (edits_of_ok hpop)
    rw [Builder.site_ended hline hedits, hskip.site hskipped, hstill.site,
      he.toLays.past (edits_of_ok htest)]
    rfl
  have hsite : m.site (read+1+body.tokens.count .newline) =
      (b6.site (read+1+body.tokens.count .newline)).forward 4 := by
    have hview : m.view = b6.view := by
      rw [hall.view, hbodyl.view, hline.view, hskip.view, hfront.view]
    have hoffset := hall.offset
    have hoffset6 := hbodyl.offset
    rw [hline.offset, hskip.offset, hfront.offset] at hoffset6
    simp [Builder.site, Site.forward, hview, (hclose.edits.trans hedits7).size]
    simp [Directive.length_encode, Directive.length_bytes, Phrase.directives, Phrase.newline]
      at hoffset hoffset6
    omega
  have htest : e.Codes m.program b.view c := by
    rw [← hfront.view]
    exact (hheaded.codes he.codes).mono htgrows.program
  have hcount : read+(e.tokens++Stmt.opening++body.tokens++[Token.keyword .endWhile]).count
      Token.newline = read+1+body.tokens.count .newline := by
    simp [e.count_newline, Stmt.opening]
    omega
  simp only [Phrase.directives, Phrase.newline, Directive.size_append, Directive.size_cons,
    Directive.size_nil, Directive.width_newline] at hfit
  rw [hsite5] at hl
  rw [hcount, hsite]
  exact ⟨_, .while_ htest hl (by omega)⟩

omit hexpression [Keeps Edits expression] [Keeps Mute expression] in
/-- The body of a counted loop, with a slot for the counter inside a runnable. -/
theorem repeatBody_tells {b b' : Builder} {a : Unit} (hb : b.Ready) (hscoped : b.Scoped)
    (h : repeatBody statement b = .ok a b') (hs : b'.diagnostics = #[]) :
    b.peek.token ≠ .eof ∧ ∃ (t : Stmt .scope) (c : Phrase) (b1 : Builder),
      b.Lays b' (encode c.directives) ∧ b.Reads b' t.tokens ∧ t.Binds ∧
      t.Roomy b.inRunnable (if b.inRunnable then b.locals.length+1 else b.locals.length) ∧
      b.Names b' ("(repeat)" :: t.locals) t.frames ∧
      (∀ read, b'.site read = (b1.site read).withLocals b.view.locals) ∧
      ∀ read, ∃ l, t.Codes b'.program (b.site read).counting
        (b1.site (read+t.tokens.count .newline)) c l := by
  unfold repeatBody at h
  obtain ⟨_, _, hget, h⟩ := bind_eq_ok.mp h
  obtain ⟨rfl, rfl⟩ := get_eq_ok.mp hget
  cases hin : b.inRunnable with
  | false =>
    simp only [hin] at h
    have hcurrent : b.current = 0 := by simpa [Builder.inRunnable] using hin
    obtain ⟨hmore, t, c, htells, hlays⟩ := block_tells hexecutes hcomposes hb hscoped h hs
    have hroomy := htells.roomy
    rw [hin] at hroomy
    refine ⟨hmore, t, c, b', hlays, htells.reads, htells.binds, hroomy,
      ⟨fun hinside => absurd hinside (by simp [hin]), htells.names.outside⟩, fun read => ?_,
      fun read => ?_⟩
    · rw [← hlays.view]
      rfl
    · have hcounting : (b.site read).counting = b.site read := if_pos hcurrent
      rw [hcounting]
      exact htells.codes read
  | true =>
    simp only [hin] at h
    have hcurrent : b.current ≠ 0 := by simpa [Builder.inRunnable] using hin
    obtain ⟨t, _, hlast, h⟩ := bind_eq_ok.mp h
    obtain ⟨_, rfl⟩ := last_eq_ok hlast
    obtain ⟨_, b2, hbegin, h⟩ := bind_eq_ok.mp h
    obtain ⟨_, b3, hlocal, h⟩ := bind_eq_ok.mp h
    obtain ⟨b4, hblock, rfl⟩ := tryFinally_modify_eq_ok.mp h
    have hb2 := modify_eq_ok.mp hbegin
    have hscope : b.Writes b2 [] := .same hb (by rw [← hb2]) (by rw [← hb2])
    obtain ⟨hcounter, hlocals, hdepth⟩ := addLocal_writes hscope.ready hlocal
    have hfront := hscope.trans hcounter hb
    have hlocals3 : b3.locals = ⟨none, b.depth+1⟩ :: b.locals := by rw [hlocals, ← hb2]
    have hdepth3 : b3.depth = b.depth+1 := by rw [hdepth, ← hb2]
    have hupcoming : b3.upcoming = b.upcoming := by
      rw [(pauses_of_ok hlocal).upcoming, ← hb2]
      rfl
    have hscoped3 : b3.Scoped := by
      rw [Builder.Scoped, hlocals3, hdepth3]
      intro l hl
      rcases List.mem_cons.mp hl with rfl | hl
      · exact Nat.le_refl _
      · exact Nat.le_succ_of_le (hscoped l hl)
    obtain ⟨hmore, t, c, htells, hlays⟩ :=
      block_tells hexecutes hcomposes hcounter.ready hscoped3 hblock hs
    have hleft : b4.Writes {b4 with locals := b4.locals.drop 1, depth := b4.depth-1} [] :=
      .same hlays.ready rfl rfl
    have hall := hfront.trans (hlays.toWrites.trans hleft hcounter.ready) hb
    have hlocals' : b4.locals.drop 1 = b.locals := by
      rw [hlays.locals, hlocals3]
      rfl
    have hdepth' : b4.depth-1 = b.depth := by
      rw [hlays.depth, hdepth3, Nat.add_sub_cancel]
    have hcurrent4 : b4.current = b.current := hlays.current.trans hfront.current
    have hroomy := htells.roomy
    rw [hfront.inRunnable, hin, hlocals3, List.length_cons] at hroomy
    have hnames3 : b.Names b3 ["(repeat)"] [] := by
      have hopened : b.Mute b2 := by
        rw [← hb2]
        rfl
      refine hopened.trans_names ⟨fun _ => addLocal_names hlocal, fun hout => ?_⟩ hscope.current
      rw [hscope.inRunnable, hin] at hout
      cases hout
    have hnames : b.Names b4 ("(repeat)" :: t.locals) t.frames :=
      hnames3.trans htells.names hfront.current
    refine ⟨?_, t, c, b4, ⟨by simpa using hall, hlocals', hdepth'⟩, ?_, htells.binds, hroomy,
      ⟨hnames.inside, hnames.outside⟩, fun read => ?_, fun read => ?_⟩
    · rwa [Builder.token_peek, ← hupcoming, ← Builder.token_peek]
    · have hreads := htells.reads
      rwa [Builder.Reads, hupcoming] at hreads
    · simp [Builder.site, Builder.view, Site.withLocals, hlocals', Builder.written,
        Builder.function]
    · obtain ⟨l, hl⟩ := htells.extend (hleft.extends rfl) read
      have hcounting : (b.site read).counting = b3.site read := by
        have hsize : b3.functions.size = b.functions.size := by
          rw [(edits_of_ok hlocal).size, ← hb2]
        rw [Site.counting, if_neg (by exact hcurrent)]
        simp [Builder.site, Builder.view, Site.withLocals, hlocals3, hfront.current, hsize,
          hfront.offset]
      rw [hcounting]
      exact ⟨l, hl⟩

theorem repeatStatement_composes {b0 b b' : Builder} (hb0 : b0.Ready) (hscoped0 : b0.Scoped)
    (hb : b0.Begins b .repeat_) (h : repeatStatement expression statement b = .ok () b')
    (hs : b'.diagnostics = #[]) :
    ∃ (t : Stmt .statement) (c : Phrase) (m : Builder), b0.Tells m t c ∧ m.Ends b' := by
  have hready := (hb.still.lays hb0).ready
  have hscoped := (hb.still.lays hb0).scope hscoped0
  dsimp only [repeatStatement] at h
  obtain ⟨_, b1, hcount, _, h⟩ := bind_silent h hs
  obtain ⟨_, b2, hheader, _, h⟩ := bind_silent h hs
  obtain ⟨_, b3, hrepeat, _, h⟩ := bind_silent h hs
  obtain ⟨_, b4, hline, _, h⟩ := bind_silent h hs
  obtain ⟨start, _, hoffset, _, h⟩ := bind_silent h hs
  obtain ⟨e, c, he, hfits, _⟩ := hexpression b b1 hready (hb.expecting rfl) hcount
  obtain ⟨hcolon, hstill⟩ := header_reads hheader
  have hheaded := hstill.lays he.ready
  have hchecked : b2.Lays b3 (Directive.plain .repeat_ rfl).bytes :=
    emitBytes_lays hheaded.ready hrepeat
  have hpaused : b2.Pauses b3 := pauses_of_ok hrepeat
  have hended := endOfLine_ends hchecked.ready hline
  obtain ⟨_, hline⟩ := hended.lays hchecked.ready
  obtain ⟨hstart, rfl⟩ := offset_eq_ok hline.ready hoffset
  obtain ⟨_, b5, hbody, hs5, h⟩ := bind_silent h hs
  obtain ⟨_, b6, hclose, _, h⟩ := bind_silent h hs
  obtain ⟨_, b7, hend, _, h⟩ := bind_silent h hs
  obtain ⟨_, m, hloop, _, h⟩ := bind_silent h hs
  have hscoped4 := hline.scope (hchecked.scope (hheaded.scope (he.toLays.scope hscoped)))
  obtain ⟨hmore, body, d, inside, hbodyl, hbody, hbodyfits, hroomy, hnames, hsite5, hcodes⟩ :=
    repeatBody_tells hexecutes hcomposes hline.ready hscoped4 hbody hs5
  obtain ⟨hnewline, hline, hedits⟩ := hended.line_of_more hmore
  obtain ⟨hclosed, _⟩ := consume_eq_ok (by simp) hclose
  have hclose := still_of_ok hclose
  have hfront : b.Lays b4 (encode (Phrase.seq (.seq c (.one (.plain .repeat_ rfl)))
      .newline).directives) := by
    have hmarked := hheaded.trans (hchecked.trans hline hheaded.ready) he.ready
    simpa [Phrase.directives, Phrase.newline] using he.toLays.trans hmarked hready
  have hinside : b4.Lays b6 (encode d.directives) := by
    simpa using hbodyl.trans (hclose.lays hbodyl.ready) hline.ready
  obtain ⟨hfit, hgrows, hcounted⟩ := counted_lays hline.ready hstart hinside hend hloop
  have hall : b.Lays m (encode (Phrase.seq (.seq (.seq c (.one (.plain .repeat_ rfl))) .newline)
      (.counted d)).directives) := by
    simpa [Phrase.directives] using hfront.trans hcounted hready
  have hpaused' : b6.Pauses m := (pauses_of_ok hend).trans (pauses_of_ok hloop)
  have hedits6 : b5.Edits m :=
    hclose.edits.trans ((edits_of_ok hend).trans (edits_of_ok hloop))
  have hreads : b.Reads m (e.tokens++Stmt.opening++body.tokens++[Token.keyword .endRepeat]) := by
    have h4 := he.reads.trans (hcolon.trans (hpaused.reads.trans hnewline))
    simpa [Stmt.opening] using h4.trans (hbody.trans (hclosed.trans hpaused'.reads))
  rw [hfront.inRunnable, hfront.locals] at hroomy
  have hnames : b.Names m ("(repeat)" :: body.locals) body.frames := by
    have hmute : b.Mute b4 := Trans.trans (mute_of_ok hcount) (Trans.trans hstill.mute
      (Trans.trans (mute_of_ok hrepeat) hended.mute))
    have hmute' : b5.Mute m :=
      Trans.trans hclose.mute (Trans.trans (mute_of_ok hend) (mute_of_ok hloop))
    exact (hmute.trans_names hnames hfront.current).mute hmute'
  refine ⟨.repeat_ e body, _, m, hb.tells hb0 hall.toWrites hreads rfl (fun read => ?_)
    (List.forall_mem_cons.mpr ⟨hfits, hbodyfits⟩) hroomy hnames, endOfLine_ends hall.ready h⟩
  have hext : b5.program.Extends m.program b4.current :=
    hedits6.extends ((hclose.lays hbodyl.ready).grows.trans hgrows.program) hbodyl.current
  obtain ⟨l, hl⟩ := hcodes (read+1)
  have hplace : b4.current ≤ (b4.site (read+1)).counting.function := by
    unfold Site.counting
    split <;> exact Nat.le_refl _
  have hl := hl.mono hext hplace
  have hsite4 : b4.site (read+1) = (((b.site read).past c).forward 1).ended := by
    rw [Builder.site_ended hline hedits, hchecked.site (edits_of_ok hrepeat), hstill.site,
      he.toLays.past (edits_of_ok hcount)]
    rfl
  have hsite : m.site (read+1+body.tokens.count .newline) =
      ((inside.site (read+1+body.tokens.count .newline)).forward 4).withLocals
        (b.site read).locals := by
    have hview : m.view = b5.view := by rw [hall.view, hbodyl.view, hfront.view]
    have hoffset : m.written.length = b5.written.length+4 := by
      have hoffset := hcounted.offset
      have hoffset5 := hbodyl.offset
      simp [Directive.length_encode, Phrase.directives] at hoffset hoffset5
      omega
    have hforward : m.site (read+1+body.tokens.count .newline) =
        (b5.site (read+1+body.tokens.count .newline)).forward 4 := by
      simp [Builder.site, Site.forward, hview, hedits6.size, hoffset]
    rw [hforward, hsite5, hfront.view]
    rfl
  have hcount : e.Codes m.program b.view c := by
    rw [← he.view]
    have hmarked := hheaded.trans (hchecked.trans hline hheaded.ready) he.ready
    exact he.codes.mono (hmarked.trans hcounted he.ready).grows
  have hlines : read+(e.tokens++Stmt.opening++body.tokens++[Token.keyword .endRepeat]).count
      Token.newline = read+1+body.tokens.count .newline := by
    simp [e.count_newline, Stmt.opening]
    omega
  rw [hsite4] at hl
  rw [hlines, hsite]
  exact ⟨_, .repeat_ hcount hl hfit⟩

end
end Compile
end RatScript
