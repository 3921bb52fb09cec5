import RatScript.Proofs.Syntax.Control

/-!
Whole scripts as they are compiled: accepted tokens spell one script, and the program that comes of
them is its code, with a function for every runnable in it.
-/

set_option synthInstance.maxSize 65536

namespace RatScript

open Stateful
open Directive (encode size)

theorem Stmt.count_newline_paramTokens (names : List String) :
    (paramTokens names).count .newline = 0 := by
  induction names with
  | nil => rfl
  | cons x rest ih =>
    cases rest with
    | nil => rfl
    | cons y rest => simpa [paramTokens] using ih

/-- A runnable is closed: only its count of lines is entered. -/
theorem Builder.closed_extends (t b : Builder) (id : Nat) (lines : UInt16) :
    t.program.Extends (t.closed b id lines).program id := by
  have hat (id' : Nat) : (t.closed b id lines).functions[id']? =
      if id = id' then t.functions[id']?.map fun f => {f with lineCount := lines}
      else t.functions[id']? :=
    Array.getElem?_modify
  refine ⟨fun id' f hf => ?_, fun id' f hid hf => ?_⟩
  · change t.functions[id']? = some f at hf
    by_cases heq : id = id'
    · refine ⟨{f with lineCount := lines}, ?_, rfl, rfl, rfl, List.prefix_rfl⟩
      change (t.closed b id lines).functions[id']? = _
      rw [hat, if_pos heq, hf]
      rfl
    · refine ⟨f, ?_, .refl f⟩
      change (t.closed b id lines).functions[id']? = _
      rw [hat, if_neg heq, hf]
  · change (t.closed b id lines).functions[id']? = _
    rw [hat, if_neg (by omega)]
    exact hf

namespace Compile

open Builder (Edits Pauses Mute)

theorem parameters_reads {budget : List Located} {found params : Array (String × Located)}
    {b b' : Builder} (hbudget : b.upcoming.length < budget.length)
    (h : parameters budget found b = .ok params b') :
    ∃ names, names ≠ [] ∧ params.toList.map Prod.fst = found.toList.map Prod.fst++names ∧
      b.Reads b' (Stmt.paramTokens names) := by
  induction budget generalizing b found with
  | nil => simp at hbudget
  | cons t budget ih =>
    dsimp only [parameters] at h
    obtain ⟨name, b1, hname, h⟩ := bind_eq_ok.mp h
    obtain ⟨t, _, hlast, h⟩ := bind_eq_ok.mp h
    obtain ⟨_, rfl⟩ := last_eq_ok hlast
    obtain ⟨hreads, _⟩ := consumeName_eq_ok hname
    split at h
    · obtain ⟨_, _, hfail, _⟩ := bind_eq_ok.mp h
      exact absurd hfail throw_ne_ok
    · obtain ⟨more, b2, haccept, h⟩ := bind_eq_ok.mp h
      rcases accept_eq_ok (by simp) haccept with ⟨rfl, hcomma, _⟩ | ⟨rfl, rfl, _⟩
      · have hlength := congrArg List.length (hreads.trans hcomma)
        rw [List.length_cons] at hbudget
        simp only [List.length_append, List.length_cons, List.length_nil] at hlength
        obtain ⟨names, hne, hnames, hrest⟩ := ih (by omega) h
        refine ⟨name :: names, by simp, by simpa using hnames, ?_⟩
        obtain ⟨x, rest, rfl⟩ := List.exists_cons_of_ne_nil hne
        exact hreads.trans (hcomma.trans hrest)
      · obtain ⟨rfl, rfl⟩ := pure_eq_ok.mp h
        exact ⟨[name], by simp, by simp, hreads⟩

theorem parameterList_reads {params : Array (String × Located)} {b b' : Builder}
    (h : parameterList b = .ok params b') :
    b.Reads b' (.symbol .leftParen :: Stmt.paramTokens (params.toList.map Prod.fst)++
      [Token.symbol .rightParen]) := by
  dsimp only [parameterList] at h
  obtain ⟨_, b1, hopen, h⟩ := bind_eq_ok.mp h
  obtain ⟨none, _, hcheck, h⟩ := bind_eq_ok.mp h
  obtain ⟨_, rfl⟩ := check_eq_ok hcheck
  obtain ⟨hopen, _⟩ := consume_eq_ok (by simp) hopen
  cases none with
  | true =>
    obtain ⟨found, _, hpure, h⟩ := bind_eq_ok.mp h
    obtain ⟨rfl, rfl⟩ := pure_eq_ok.mp hpure
    obtain ⟨_, b2, hclose, h⟩ := bind_eq_ok.mp h
    obtain ⟨rfl, rfl⟩ := pure_eq_ok.mp h
    exact hopen.trans (consume_eq_ok (by simp) hclose).1
  | false =>
    obtain ⟨t, _, hpeek, h⟩ := bind_eq_ok.mp h
    obtain ⟨rfl, rfl⟩ := peek_eq_ok hpeek
    obtain ⟨_, _, hget, h⟩ := bind_eq_ok.mp h
    obtain ⟨rfl, rfl⟩ := get_eq_ok.mp hget
    obtain ⟨found, b2, hparams, h⟩ := bind_eq_ok.mp h
    obtain ⟨_, b3, hclose, h⟩ := bind_eq_ok.mp h
    obtain ⟨rfl, rfl⟩ := pure_eq_ok.mp h
    obtain ⟨names, _, hnames, hreads⟩ :=
      parameters_reads (by simp [Builder.upcoming]) hparams
    rw [hnames]
    exact hopen.trans (hreads.trans (consume_eq_ok (by simp) hclose).1)

/-- Parameters become locals, the last of them the newest. -/
theorem parameters_locals {params : List (String × Located)} {b b' : Builder} {a : PUnit}
    (h : (params.forM fun (name, t) => addLocal (some name) t : Compile PUnit) b = .ok a b')
    (hb : b.Ready) :
    b'.locals.map (·.name) = (params.map fun x => some x.1).reverse++b.locals.map (·.name) ∧
      b'.names = b.names.modify b.current (·++params.map Prod.fst) ∧ b.Edits b' ∧
      b.Pauses b' := by
  induction params generalizing b with
  | nil =>
    obtain ⟨_, rfl⟩ := pure_eq_ok.mp h
    exact ⟨by simp, (Builder.modify_append_nil _ _).symm, Std.Refl.refl b, Std.Refl.refl b⟩
  | cons param params ih =>
    obtain ⟨_, t, hlocal, h⟩ := bind_eq_ok.mp h
    obtain ⟨hwrites, hlocals, _⟩ := addLocal_writes hb hlocal
    obtain ⟨hrest, hnames, hedits, hpauses⟩ := ih h hwrites.ready
    refine ⟨by rw [hrest, hlocals]; simp, ?_, (edits_of_ok hlocal).trans hedits,
      (pauses_of_ok hlocal).trans hpauses⟩
    rw [hnames, addLocal_names hlocal, hwrites.current, Builder.modify_append_append]
    rfl

section
variable {statement : Compile Unit} [Keeps Builder.Reports statement]
  (hexecutes : Executes statement) (hcomposes : Composes statement)
include hexecutes hcomposes

/-- The body of a runnable, from the end of its header to its closer. -/
theorem runnableBody_tells {params : List (String × Located)} {b u : Builder} (hb : b.Ready)
    (hlocals : b.locals = []) (h : runnableBody statement params b = .ok () u)
    (hs : u.diagnostics = #[]) :
    ∃ (t : Stmt .block) (c : Phrase) (last : Builder), t.Binds ∧
      t.Roomy b.inRunnable params.length ∧
      b.Writes u (encode (.newline :: c.directives++Program.epilogue)) ∧
      b.Reads u (.newline :: t.tokens++[Token.keyword .endRunnable]) ∧
      last.functions.size = u.functions.size ∧
      (b.inRunnable = true →
        u.names = b.names.modify b.current (·++(params.map Prod.fst++t.locals))) ∧
      ∀ read, ∃ l, t.Codes u.program
        (((b.site read).withLocals (params.map fun x => some x.1).reverse).ended)
        (last.site (read+1+t.tokens.count .newline)) c l := by
  dsimp only [runnableBody] at h
  obtain ⟨_, b1, hparams, _, h⟩ := bind_silent h hs
  obtain ⟨_, b2, hline, _, h⟩ := bind_silent h hs
  obtain ⟨_, _, hget, _, h⟩ := bind_silent h hs
  obtain ⟨rfl, rfl⟩ := get_eq_ok.mp hget
  obtain ⟨_, b3, hdecls, hs3, h⟩ := bind_silent h hs
  obtain ⟨eof, _, hcheck, _, h⟩ := bind_silent h hs
  obtain ⟨heof, rfl⟩ := check_eq_ok hcheck
  obtain ⟨hwrites, _, _, hscoped⟩ := parameters_writes hb hparams
  obtain ⟨hnames, hparamnames, hedits, hpauses⟩ := parameters_locals hparams hb
  have hscoped1 : b1.Scoped := hscoped (by simp [Builder.Scoped, hlocals])
  have hended := endOfLine_ends hwrites.ready hline
  obtain ⟨_, hline⟩ := hended.lays hwrites.ready
  obtain ⟨hlists, hstops⟩ := declarations_lists hexecutes hcomposes hline.ready
    (hline.scope hscoped1) (by simp [Builder.upcoming]) hdecls hs3
  cases eof with
  | true =>
    obtain ⟨_, _, _, h⟩ := bind_eq_ok.mp h
    obtain ⟨_, _, hfail, _⟩ := bind_eq_ok.mp h
    exact absurd hfail throw_ne_ok
  | false =>
    obtain ⟨_, b4, hadvance, h⟩ := bind_eq_ok.mp h
    obtain ⟨_, b5, hnone, h⟩ := bind_eq_ok.mp h
    have hmore : b3.peek.token ≠ .eof := by
      intro heq
      rw [heq] at heof
      cases heof
    have hmore2 : b2.peek.token ≠ .eof := by
      intro heq
      cases declarations_eof heq hdecls
      exact hmore heq
    obtain ⟨hnewline, hline, hedits2⟩ := hended.line_of_more hmore2
    obtain ⟨k, hk, hcloser⟩ := hstops.resolve_left hmore
    cases List.mem_singleton.mp hk
    obtain ⟨ts, hts⟩ := upcoming_of_peek (by simp) hcloser
    obtain ⟨hafter, _⟩ := advance_reads hts hadvance
    have hclosed : b3.Reads b4 [.keyword .endRunnable] := by
      rw [Builder.Reads, hts, hafter]
      rfl
    cases hlists with
    | cut _ _ _ none => exact absurd none hmore
    | @whole t c lines =>
      have hadvanced := still_of_ok hadvance
      have hadvance := hadvanced.lays lines.ready
      have hpaused : b4.Pauses u := (pauses_of_ok hnone).trans (pauses_of_ok h)
      have hedits4 : b4.Edits u := (edits_of_ok hnone).trans (edits_of_ok h)
      have hmute4 : b4.Mute u := Trans.trans (mute_of_ok hnone) (mute_of_ok h)
      have hnone := emitBytes_lays hadvance.ready hnone
      have hret := emitBytes_lays hnone.ready h
      have hend := hadvance.trans (hnone.trans hret hadvance.ready) lines.ready
      have hroomy : t.Roomy b.inRunnable params.length := by
        have hroomy := hline.roomy lines.roomy
        have hlength := congrArg List.length hnames
        rw [hlocals] at hlength
        simp only [List.length_map, List.length_reverse, List.map_nil, List.append_nil] at hlength
        rwa [hwrites.inRunnable, hlength] at hroomy
      refine ⟨t, c, b3, lines.binds, hroomy, ?_, ?_, ?_, fun hin => ?_, fun read => ?_⟩
      · have hall := hwrites.trans (hline.toWrites.trans (lines.toWrites.trans hend.toWrites
          hline.ready) hwrites.ready) hb
        simpa [Program.epilogue, Directive.bytes, Directive.plain, Operand.bytes] using hall
      · have hall := hpauses.reads.trans (hnewline.trans (lines.reads.trans (hclosed.trans
          hpaused.reads)))
        simpa using hall
      · exact ((hadvanced.edits.trans hedits4).size).symm
      · have hcurrent2 : b2.current = b.current := hline.current.trans hwrites.current
        have hmute : b3.Mute u := Trans.trans hadvanced.mute hmute4
        have hbody := (hended.mute.trans_names lines.names hline.current).mute hmute
        rw [hbody.inside (by rwa [hwrites.inRunnable]), hparamnames, hwrites.current,
          Builder.modify_append_append]
      · obtain ⟨l, hl⟩ := lines.extend (hend.extends rfl) (read+1)
        have hsite : b1.site read =
            (b.site read).withLocals (params.map fun x => some x.1).reverse := by
          rw [hlocals, List.map_nil, List.append_nil] at hnames
          simp [Builder.site, Builder.view, Site.withLocals, hnames, hwrites.current, hedits.size,
            hwrites.offset]
        rw [Builder.site_ended hline hedits2, hsite] at hl
        exact ⟨l, hl⟩

theorem runnableDeclaration_composes {b0 b b' : Builder} (hb0 : b0.Ready)
    (hb : b0.Begins b .runnable) (h : runnableDeclaration statement b = .ok () b')
    (hs : b'.diagnostics = #[]) :
    ∃ (t : Stmt .statement) (c : Phrase) (m : Builder), b0.Tells m t c ∧ m.Ends b' := by
  have hready := (hb.still.lays hb0).ready
  dsimp only [runnableDeclaration] at h
  obtain ⟨_, _, hget, h⟩ := bind_eq_ok.mp h
  obtain ⟨rfl, rfl⟩ := get_eq_ok.mp hget
  split at h
  · obtain ⟨_, _, _, h⟩ := bind_eq_ok.mp h
    obtain ⟨_, _, hfail, _⟩ := bind_eq_ok.mp h
    exact absurd hfail throw_ne_ok
  · next hin =>
    have hscript : b.current = 0 := by simpa [Builder.inRunnable] using hin
    obtain ⟨name, b1, hname, h⟩ := bind_eq_ok.mp h
    obtain ⟨t, _, hlast, h⟩ := bind_eq_ok.mp h
    obtain ⟨_, rfl⟩ := last_eq_ok hlast
    obtain ⟨_, _, hget, h⟩ := bind_eq_ok.mp h
    obtain ⟨rfl, rfl⟩ := get_eq_ok.mp hget
    split at h
    · obtain ⟨_, _, hfail, _⟩ := bind_eq_ok.mp h
      exact absurd hfail throw_ne_ok
    · next hfresh =>
      have hnative : Native.ofName? name = none := by
        cases hn : Native.ofName? name with
        | none => rfl
        | some n => simp [hn] at hfresh
      obtain ⟨params, b2, hparams, h⟩ := bind_eq_ok.mp h
      obtain ⟨_, b3, hheader, h⟩ := bind_eq_ok.mp h
      obtain ⟨_, _, hget, h⟩ := bind_eq_ok.mp h
      obtain ⟨rfl, rfl⟩ := get_eq_ok.mp hget
      obtain ⟨hreadname, _⟩ := consumeName_eq_ok hname
      have hreadparams := parameterList_reads hparams
      obtain ⟨hcolon, hheaded⟩ := header_reads hheader
      have hstill : b.Still b3 :=
        Trans.trans (still_of_ok hname) (Trans.trans (still_of_ok hparams) hheaded)
      have hlays := hstill.lays hready
      obtain ⟨u, m1, m, lines, index, hbody, hmarkers, henter, hdefine, hend⟩ := runnable_eq_ok h
      have hsilent := runnable_silent hs henter hdefine hend
      obtain ⟨hdeclared, hentered, hemit, hconstant, _⟩ :=
        runnable_lays hexecutes hlays.ready hsilent hnative hbody henter hdefine
      obtain ⟨body, c, last, hfits, hroomy, hwrites, hreadbody, hsize, hnames, hcodes⟩ :=
        runnableBody_tells hexecutes hcomposes (Builder.ready_opened hlays.ready) rfl hbody hsilent
      have hpaused : (u.closed b3 b3.functions.size lines).Pauses m :=
        (pauses_of_ok henter).trans (pauses_of_ok hdefine)
      have hedits : (u.closed b3 b3.functions.size lines).Edits m :=
        (edits_of_ok henter).trans (edits_of_ok hdefine)
      have hsame : b3.functions.size = b.functions.size := by rw [hstill.functions]
      have hlater : 0 < b.functions.size := Nat.lt_of_le_of_lt (Nat.zero_le _) hready.there
      have hcurrent : u.current = b3.functions.size := hwrites.current
      have hgrown := (hwrites.toGrows (Builder.ready_opened hlays.ready)).function
      rw [Builder.function_opened] at hgrown
      -- the function that is left, and what its body looks like there
      have hthere : u.functions[b3.functions.size]? = some u.function := by
        rw [← hcurrent]
        exact hwrites.ready.here
      have hfunction : m.program.functions[b.functions.size]? =
          some {u.function with lineCount := lines} := by
        have hother := hedits.others b3.functions.size (by
          change b3.functions.size ≠ b3.current
          rw [hstill.current, hscript, hsame]
          omega)
        rw [← hsame]
        refine hother.trans ?_
        change (u.functions.modify b3.functions.size _)[b3.functions.size]? = _
        rw [Array.getElem?_modify, if_pos rfl, hthere]
        rfl
      have hcode : u.function.chunk.code.toList =
          encode (.newline :: c.directives++Program.epilogue) := by
        have hcode := hwrites.code
        rwa [Builder.written, Builder.written, Builder.function_opened] at hcode
      have hlines : lines.toNat = lineMarkers u.function.chunk := by
        obtain ⟨hlt, rfl⟩ := ofNat?_eq_some (hmarkers _ hthere)
        simpa using hlt
      have hindex : m.program.constant? b.view.function index =
          some (.runnable b.functions.size) := by
        rw [← hsame, ← hlays.view, ← hdeclared.view]
        have hentry := hdeclared.ready.constant? index
        rw [hconstant] at hentry
        exact hemit.grows.constant? hentry
      have hext : u.program.Extends m.program b3.functions.size := by
        refine (u.closed_extends b3 b3.functions.size lines).trans ?_
        have hfinal := hedits.extends (hentered.grows.trans hemit.grows) rfl
        exact hfinal.weaken (Nat.le_of_lt hlays.ready.there)
      have hall : b.Lays m (encode (Phrase.one (.defineRunnable index lines)).directives) := by
        simpa [Phrase.directives, Directive.defineRunnable] using
          hlays.trans (hdeclared.trans hemit hlays.ready) hready
      have hreads : b.Reads m (.name name :: .symbol .leftParen ::
          Stmt.paramTokens (params.toList.map Prod.fst)++Token.symbol .rightParen :: Stmt.opening++
          body.tokens++[Token.keyword .endRunnable]) := by
        have hheader := hreadname.trans (hreadparams.trans hcolon)
        have hinside : b3.Reads u (.newline :: body.tokens++[Token.keyword .endRunnable]) := hreadbody
        have hafter : u.Reads m [] := hpaused.reads
        simpa [Stmt.opening] using hheader.trans (hinside.trans hafter)
      have hinner : (b3.opened name params.size).inRunnable = true := by
        simp [Builder.inRunnable, Builder.opened, hsame, Nat.ne_of_gt hlater]
      rw [hinner, ← List.length_map Prod.fst] at hroomy
      have hmade : b.Names m [] [params.toList.map Prod.fst++body.locals] := by
        refine hstill.mute.trans_names ⟨fun hinside => ?_, fun _ => ?_⟩ hstill.current
        · rw [Builder.inRunnable, hstill.current, hscript] at hinside
          cases hinside
        · have hmute : u.Mute m := Trans.trans (u.mute_closed b3 b3.functions.size lines)
            (Trans.trans (mute_of_ok henter) (mute_of_ok hdefine))
          have hsize : (b3.opened name params.size).current = b3.names.length := by
            simp [Builder.opened, Builder.names]
          rw [hmute, hnames hinner, Builder.names_opened, hsize, Builder.modify_new]
      refine ⟨.runnable name (params.toList.map Prod.fst) body, _, m,
        hb.tells hb0 hall.toWrites hreads rfl (fun read => ?_) hfits hroomy hmade,
        endOfLine_ends hall.ready hend⟩
      obtain ⟨l, hl⟩ := hcodes read
      have hl := hl.mono hext (Nat.le_refl _)
      have hinside : ((b3.opened name params.size).site read).withLocals
          (params.toList.map fun x => some x.1).reverse =
            (b.site read).inside (params.toList.map Prod.fst) := by
        have hempty : (b3.opened name params.size).written = [] := by
          rw [Builder.written, Builder.function_opened]
          rfl
        rw [Builder.site, hempty]
        simp [Builder.site, Builder.view, Site.withLocals, Site.inside, Builder.opened, hsame]
      have hsite : m.site (read+1+body.tokens.count .newline) =
          {(b.site read).forward 4 with
            functions := (last.site (read+1+body.tokens.count .newline)).functions
            read := (last.site (read+1+body.tokens.count .newline)).read} := by
        have hmsize : m.functions.size = last.functions.size := by
          rw [hedits.size, hsize]
          exact Array.size_modify
        have hoffset := hall.offset
        simp [Phrase.directives, Directive.length_bytes, Directive.width, Directive.defineRunnable,
          Opcode.width, Opcode.layout, Layout.length] at hoffset
        simp [Builder.site, Site.forward, hall.view, hmsize, hoffset]
      have hcount : read+(Token.name name :: Token.symbol .leftParen ::
          Stmt.paramTokens (params.toList.map Prod.fst)++Token.symbol .rightParen :: Stmt.opening++
          body.tokens++[Token.keyword .endRunnable]).count Token.newline =
            read+1+body.tokens.count .newline := by
        simp [Stmt.opening, Stmt.count_newline_paramTokens]
        omega
      rw [hinside] at hl
      rw [hcount, hsite]
      refine ⟨_, .runnable hscript hlater hfunction hgrown.name ?_ ?_ hl hcode hlines hindex⟩
      · rw [show ({u.function with lineCount := lines} : Function).arity = u.function.arity from rfl,
          hgrown.arity]
        simp [Function.new]
      · rw [show ({u.function with lineCount := lines} : Function).enclosing =
          u.function.enclosing from rfl, hgrown.enclosing, hstill.current, hscript]
        rfl

end

theorem advance_begins {b b' : Builder} {k : Keyword} {a : Unit} (hk : b.peek.token = .keyword k)
    (h : advance b = .ok a b') : b.Begins b' k := by
  obtain ⟨ts, hts⟩ := upcoming_of_peek (by simp) hk
  obtain ⟨hafter, hlast⟩ := advance_reads hts h
  exact ⟨still_of_ok h, by rw [Builder.Reads, hts, hafter]; rfl, hlast⟩

theorem statement_composes {expression inner : Compile Unit} [Keeps Edits expression]
    [Keeps Mute expression] [Keeps Builder.Reports inner] (hexpression : Parses expression .assign)
    (hexecutes : Executes inner) (hcomposes : Composes inner) :
    Composes (statement expression inner) := by
  intro b b' hb hscoped hsome h hs
  unfold statement at h
  obtain ⟨_, _, hpeek, h⟩ := bind_eq_ok.mp h
  obtain ⟨rfl, rfl⟩ := peek_eq_ok hpeek
  have hline (h : expressionStatement expression b = .ok () b') :=
    expressionStatement_composes hexpression b b' hb hscoped hsome h hs
  generalize hfirst : b.peek.token = first at h
  split at h
  · obtain ⟨_, b1, hadvance, h⟩ := bind_eq_ok.mp h
    obtain ⟨ts, hts⟩ := upcoming_of_peek (by simp) hfirst
    obtain ⟨hafter, _⟩ := advance_reads hts hadvance
    have hstill := still_of_ok hadvance
    have hemit : b1.Lays b' Directive.newline.bytes := emitBytes_lays (hstill.lays hb).ready h
    have hpauses : b1.Pauses b' := pauses_of_ok h
    refine ⟨.blank, .empty, b, ⟨.refl hb, rfl, fun _ => ⟨_, .blank⟩,
      by simp [Stmt.Binds, Stmt.expressions], trivial, Mute.names (Std.Refl.refl b)⟩,
      .line ?_ ((hstill.lays hb).trans hemit hb) (hstill.edits.trans (edits_of_ok h))
        (Trans.trans hstill.mute (mute_of_ok h))⟩
    rw [Builder.Reads, hts, hpauses.upcoming, hafter]
    rfl
  · obtain ⟨_, b1, hadvance, h⟩ := bind_eq_ok.mp h
    exact varDeclaration_composes hexpression hb (advance_begins hfirst hadvance) h
  · obtain ⟨_, b1, hadvance, h⟩ := bind_eq_ok.mp h
    exact runnableDeclaration_composes hexecutes hcomposes hb (advance_begins hfirst hadvance) h hs
  · obtain ⟨_, b1, hadvance, h⟩ := bind_eq_ok.mp h
    exact ifStatement_composes hexpression hexecutes hcomposes hb hscoped
      (advance_begins hfirst hadvance) h hs
  · obtain ⟨_, b1, hadvance, h⟩ := bind_eq_ok.mp h
    exact whileStatement_composes hexpression hexecutes hcomposes hb hscoped
      (advance_begins hfirst hadvance) h hs
  · obtain ⟨_, b1, hadvance, h⟩ := bind_eq_ok.mp h
    exact repeatStatement_composes hexpression hexecutes hcomposes hb hscoped
      (advance_begins hfirst hadvance) h hs
  · obtain ⟨_, b1, hadvance, h⟩ := bind_eq_ok.mp h
    exact returnStatement_composes hexpression hb (advance_begins hfirst hadvance) h
  · split at h
    · exact absurd h throw_ne_ok
    · exact hline h
  · exact hline h

theorem statementAt_composes (levels : Nat) : Composes (statementAt levels) := by
  induction levels with
  | zero =>
    intro b b' _ _ _ h _
    obtain ⟨t, _, _, h⟩ := bind_eq_ok.mp h
    exact absurd h throw_ne_ok
  | succ levels ih =>
    exact statement_composes (operandAt_parses levels .assign) (statementAt_executes levels) ih

end Compile

/-- Where no token is to come any more, all up to the end of file have been read. -/
theorem Builder.upcoming_eq_nil {tokens : List Located} {b : Builder} {ts : List Token}
    (hreads : (start tokens).Reads b ts) (hnone : b.peek.token = .eof) : b.upcoming = [] := by
  cases hu : b.upcoming with
  | nil => rfl
  | cons t rest =>
    rw [token_peek_of_upcoming hu] at hnone
    subst hnone
    have hmem : Token.eof ∈ (start tokens).upcoming := by
      rw [hreads, hu]
      simp
    simp only [upcoming, start, List.mem_map] at hmem
    obtain ⟨l, hl, heof⟩ := hmem
    have hne := List.mem_takeWhile_imp hl
    simp [heof] at hne

/-- The names of the locals of every runnable in a script. -/
def Script.frames (t : Script) : List (List String) :=
  t.lines.frames++(match t.last with
    | some s => s.frames
    | none => [])

/-- Accepted tokens spell a script, up to the end of file, and the program is its code; there is room
for its locals, and functions have their names. -/
theorem compileTokens_roomy {tokens : List Located} {p : Program}
    (h : compileTokens tokens = .ok p) :
    ∃ (t : Script) (s : Site) (c : Phrase) (l : List Note) (script : Function), t.Binds ∧
      t.tokens = (tokens.takeWhile (·.token != .eof)).map (·.token) ∧ t.Codes p s c l ∧
      s.function = 0 ∧ s.functions = p.functions.size ∧ s.read = t.tokens.count .newline ∧
      p.functions[0]? = some script ∧ script.isScript = true ∧
      script.chunk.code.toList = encode c.directives ∧ t.Roomy ∧
      p.functions.toList.map (·.locals.toList) = [] :: t.frames := by
  obtain ⟨b, hb⟩ := Compile.declarations_ok (Compile.statementAt maxNesting) []
    (Builder.start tokens).rest (.start tokens)
  have hscript : Compile.script (.start tokens) = .ok () b := hb
  simp only [compileTokens, hscript] at h
  split at h
  · next hempty =>
    cases h
    have hsilent : b.diagnostics = #[] := by simpa using hempty
    have hready := Builder.ready_start tokens
    obtain ⟨hlists, hstops⟩ := Compile.declarations_lists
      (Compile.statementAt_executes maxNesting) (Compile.statementAt_composes maxNesting) hready
      (by simp [Builder.Scoped, Builder.start]) (by simp [Builder.upcoming]) hb hsilent
    have hnone : b.peek.token = .eof := hstops.resolve_right (by simp)
    -- a script that was written from the start on
    have hwhole {c : Phrase} (hwrites : (Builder.start tokens).Writes b (encode c.directives)) :
        ∃ script : Function, b.functions[0]? = some script ∧ script.isScript = true ∧
          script.chunk.code.toList = encode c.directives := by
      have hcurrent : b.current = 0 := hwrites.current
      refine ⟨b.function, ?_, ?_, hwrites.code⟩
      · rw [← hcurrent]
        exact hwrites.ready.here
      · rw [hwrites.ready.script, Builder.inRunnable, hcurrent]
        rfl
    cases hlists with
    | @whole t c lines =>
      obtain ⟨l, hl⟩ := lines.codes 0
      obtain ⟨script, hfirst, hscript, hcode⟩ := hwhole lines.toWrites
      have htokens := lines.reads
      rw [Builder.Reads, Builder.upcoming_eq_nil lines.reads hnone, List.append_nil] at htokens
      have ht : Script.tokens ⟨t, none⟩ = t.tokens := List.append_nil _
      refine ⟨⟨t, none⟩, _, c, l, script, ⟨lines.binds, by simp⟩, ?_, .whole hl, lines.current, rfl,
        ?_, hfirst, hscript, hcode, ⟨lines.roomy, by simp⟩, ?_⟩
      · rw [ht, ← htokens]
        rfl
      · rw [ht]
        exact Nat.zero_add _
      · rw [Script.frames, List.append_nil]
        exact lines.names.outside rfl
    | @cut t last c d m lines rest some none =>
      obtain ⟨l, hl⟩ := lines.extend (rest.extends rfl) 0
      obtain ⟨l', hl'⟩ := rest.codes (0+t.tokens.count .newline)
      have hboth := lines.toWrites.trans rest.toWrites hready
      rw [← Directive.encode_append] at hboth
      obtain ⟨script, hfirst, hscript, hcode⟩ := hwhole (c := .seq c d) hboth
      have hreads := lines.reads.trans rest.reads
      have htokens := hreads
      rw [Builder.Reads, Builder.upcoming_eq_nil hreads hnone, List.append_nil] at htokens
      refine ⟨⟨t, .some last⟩, _, .seq c d, _, script, ⟨lines.binds, ?_⟩, htokens.symm, .cut hl hl',
        hboth.current, rfl, ?_, hfirst, hscript, hcode, ⟨lines.roomy, ?_⟩,
        (lines.names.trans rest.names lines.current).outside rfl⟩
      · simpa using ⟨rest.binds, some⟩
      · change 0+t.tokens.count .newline+last.tokens.count .newline =
          (t.tokens++last.tokens).count .newline
        rw [List.count_append, Nat.zero_add]
      · intro s hs
        obtain rfl : last = s := by simpa using hs
        have hlength : m.locals.length = 0 := by
          have hlength := hl.length_locals
          rw [show (((Builder.start tokens).site 0).function != 0) = false from rfl,
            Stmt.localsBehind_script] at hlength
          simpa [Builder.site, Builder.view, Builder.start] using hlength
        have hroomy := rest.roomy
        rwa [lines.inRunnable, hlength] at hroomy
  · cases h

/-- Accepted tokens spell a script, up to the end of file, and the program is its code. -/
theorem compileTokens_codes {tokens : List Located} {p : Program}
    (h : compileTokens tokens = .ok p) :
    ∃ (t : Script) (s : Site) (c : Phrase) (l : List Note) (script : Function), t.Binds ∧
      t.tokens = (tokens.takeWhile (·.token != .eof)).map (·.token) ∧ t.Codes p s c l ∧
      s.function = 0 ∧ s.functions = p.functions.size ∧ s.read = t.tokens.count .newline ∧
      p.functions[0]? = some script ∧ script.isScript = true ∧
      script.chunk.code.toList = encode c.directives := by
  obtain ⟨t, s, c, l, script, hbinds, htokens, hcodes, hfunction, hfunctions, hread, hscript, hfirst,
    hcode, _, _⟩ := compileTokens_roomy h
  exact ⟨t, s, c, l, script, hbinds, htokens, hcodes, hfunction, hfunctions, hread, hscript, hfirst,
    hcode⟩

end RatScript
