import RatScript.Proofs.Syntax.Reading

/-!
Expressions as they are compiled: what is read spells one expression, grouped as binding strength
says, what is written is its code, and the next token does not belong to it any more.
-/

namespace RatScript

open Stateful
open Directive (encode size)

/-- Tokens that are an operand by themselves. -/
def Token.isAtom : Token → Bool
  | .number _ | .text _ | .name _ => true
  | .keyword .litTrue | .keyword .litFalse | .keyword .litNone => true
  | _ => false

namespace Builder

def view (b : Builder) : View := ⟨b.current, b.locals.map (·.name)⟩

theorem slotIn_view (x : String) (locals : List Local) :
    View.slotIn x (locals.map (·.name)) = slotIn x locals := by
  induction locals with
  | nil => rfl
  | cons l older ih => simp [View.slotIn, slotIn, ih]

theorem slot?_view (b : Builder) (x : String) : b.view.slot? x = b.slot? x := by
  simp [View.slot?, slot?, view, slotIn_view, inRunnable, bne_iff_ne]

theorem Ready.constant? {b : Builder} (hb : b.Ready) (index : UInt8) :
    b.program.constant? b.view.function index = b.function.chunk.constant? index := by
  show b.functions[b.current]?.bind _ = _
  rw [hb.here]
  rfl

theorem Lays.view {b b' : Builder} {bytes : List UInt8} (h : b.Lays b' bytes) : b'.view = b.view := by
  rw [Builder.view, Builder.view, h.current, h.locals]

theorem Lays.codes {b b' : Builder} {bytes : List UInt8} (h : b.Lays b' bytes) {k : ExprKind}
    {e : Expr k} {c : Phrase} (he : e.Codes b.program b.view c) : e.Codes b'.program b'.view c := by
  rw [h.view]
  exact he.mono h.grows

theorem Lays.constant? {b b' : Builder} {bytes : List UInt8} (h : b.Lays b' bytes) {index : UInt8}
    {c : Constant} (hc : b.program.constant? b.view.function index = some c) :
    b'.program.constant? b'.view.function index = some c := by
  rw [h.view]
  exact h.grows.constant? hc

theorem Lays.refers {b b' : Builder} {bytes : List UInt8} (h : b.Lays b' bytes) {x : String}
    {scope : Scope} {i : UInt8} (hx : b.view.Refers b.program x scope i) :
    b'.view.Refers b'.program x scope i := by
  rw [h.view]
  exact hx.mono h.grows

/-- The next token extends no operand of that binding strength. -/
structure Stops (b : Builder) (p : Precedence) : Prop where
  operator : ∀ i, Infix.ofToken? b.peek.token = some i → ¬p.rank ≤ i.precedence.rank
  assignment : Assignment.ofToken? b.peek.token = none

/-- There is a token to come, or the last one is no operand by itself. -/
def Expecting (b : Builder) : Prop := b.upcoming = [] → b.last.token.isAtom = false

/-- Tokens are read and the code of an expression is written. -/
structure Spells (b b' : Builder) (ts : List Token) {k : ExprKind} (e : Expr k) (c : Phrase) : Prop
    extends b.Lays b' (encode c.directives) where
  reads : b.Reads b' ts
  codes : e.Codes b'.program b'.view c

/-- One argument, and none behind it. -/
theorem Spells.only {b b' : Builder} {e : Expr .operand} {c : Phrase} (h : b.Spells b' e.tokens e c) :
    b.Spells b' (Expr.cons e .nil).tokens (.cons e .nil) (.seq c .empty) where
  toLays := by simpa [Phrase.directives] using h.toLays
  reads := by simpa [Expr.tokens, Expr.separator] using h.reads
  codes := .cons h.codes .nil

end Builder

/-- Whenever the step succeeds, it has read and written an operand of that binding strength. -/
def Parses (x : Compile Unit) (p : Precedence) : Prop :=
  ∀ b b', b.Ready → b.Expecting → x b = .ok () b' →
    ∃ (e : Expr .operand) (c : Phrase), b.Spells b' e.tokens e c ∧ e.Binds p ∧ b'.Stops p

theorem Precedence.assign_le (i : Infix) : Precedence.assign.rank ≤ i.precedence.rank := by
  cases i with
  | operator op => cases op <;> decide
  | comparison c => cases c <;> decide
  | and => decide
  | or => decide

namespace Compile

section
variable {b b' : Builder}

theorem textConstant_names {x : String} {index : UInt8} (hb : b.Ready)
    (h : textConstant x b = .ok index b') :
    b.Lays b' [] ∧ b.Pauses b' ∧
      b'.program.constant? b'.view.function index = some (.text x) := by
  obtain ⟨hlays, hname⟩ := textConstant_lays hb h
  refine ⟨hlays, pauses_of_ok h, ?_⟩
  rw [hlays.ready.constant?]
  exact Builder.constant?_of_identifier? hname

theorem resolve_refers {x : String} {v : Variable} (hb : b.Ready) (h : resolve x b = .ok v b') :
    b.Lays b' [] ∧ b'.view.Refers b'.program x v.scope v.operand := by
  obtain ⟨_, _, hget, h⟩ := bind_eq_ok.mp h
  obtain ⟨rfl, rfl⟩ := get_eq_ok.mp hget
  cases hslot : b.slot? x with
  | some slot =>
    simp only [hslot] at h
    obtain ⟨rfl, rfl⟩ := pure_eq_ok.mp h
    exact ⟨.refl hb, .frame (by rw [b.slot?_view, hslot])⟩
  | none =>
    simp only [hslot] at h
    obtain ⟨index, _, htext, h⟩ := bind_eq_ok.mp h
    obtain ⟨rfl, rfl⟩ := pure_eq_ok.mp h
    obtain ⟨hlays, _, hname⟩ := textConstant_names hb htext
    refine ⟨hlays, .global ?_ hname⟩
    rw [hlays.view, b.slot?_view, hslot]

/-- A value that enters the pool is there under its index. -/
theorem enter_names {add : Chunk → Except PoolFault (Chunk × UInt8)} {index : UInt8}
    {P : Constant → Prop} (hb : b.Ready) (h : enter add b = .ok index b')
    (hadd : ∀ chunk', add b.function.chunk = .ok (chunk', index) →
      ∃ c, P c ∧ b.function.chunk.Gains chunk' index c)
    (hP : ∀ callee, P (.runnable callee) → 0 < callee ∧ callee < b.functions.size) :
    b.Lays b' [] ∧ ∃ c, P c ∧ b'.program.constant? b'.view.function index = some c := by
  obtain ⟨hlays, c, hP, hc⟩ := enter_lays hb h hadd hP
  exact ⟨hlays, c, hP, by rw [hlays.ready.constant?, hc]⟩

theorem addNumber_names {chunk chunk' : Chunk} {digits : String} {index : UInt8}
    (h : chunk.addNumber digits = .ok (chunk', index)) :
    ∃ c, (∃ value, Number.parseFinite? digits = some value ∧ c = .number value) ∧
      chunk.Gains chunk' index c := by
  obtain ⟨value, hvalue, hgains⟩ := Chunk.addNumber_gains h
  exact ⟨_, ⟨value, hvalue, rfl⟩, hgains⟩

/-- The jump of a short-circuit leads over its right operand. -/
theorem either_lays {b1 b2 b3 : Builder} {truth : Bool} {at_ : Nat} {u v : Unit} {c : Phrase}
    (hb : b.Ready) (hjump : emitJump (.jumpIf truth) b = .ok at_ b1) (hpop : emit .pop b1 = .ok u b2)
    (hc : b2.Lays b3 (encode c.directives)) (hpatch : patchJump at_ b3 = .ok v b') :
    size c.directives+1 < 0x10000 ∧ b3.Grows b' ∧
      b.Lays b' (encode (Phrase.either truth c).directives) := by
  obtain ⟨hjump, hat⟩ := emitJump_lays hb hjump
  have hpop : b1.Lays b2 Directive.pop.bytes := emitBytes_lays hjump.ready hpop
  have hopen : b.Lays b3 ([(Opcode.jumpIf truth).toByte]++0xff :: 0xff ::
      (Directive.pop.bytes++encode c.directives)) :=
    hjump.trans (hpop.trans hc hjump.ready) hb
  have hsize : (Directive.pop.bytes++encode c.directives).length = size c.directives+1 := by
    rw [List.length_append, Directive.length_encode, Directive.length_bytes, Nat.add_comm]
    rfl
  exact patchJump_lays hb hopen hat hsize hpatch

theorem encode_comparison (c : Comparison) :
    encode (Phrase.comparison c).directives = c.opcodes.map Opcode.toByte := by
  cases c <;> rfl

end

section
variable {inner : Precedence → Compile Unit} (hinner : ∀ p, Parses (inner p) p)
include hinner

theorem arguments_spells (budget : List Located) (n : Nat) {b b' : Builder} {count : Nat}
    (hb : b.Ready) (hexpecting : b.Expecting) (h : arguments inner budget n b = .ok count b') :
    ∃ (e : Expr .operand) (rest : Expr .arguments) (c : Phrase),
      b.Spells b' (Expr.cons e rest).tokens (.cons e rest) c ∧
      (Expr.cons e rest).Binds .assign ∧ count = n+(Expr.cons e rest).length := by
  induction budget generalizing n b with
  | nil =>
    obtain ⟨_, t, hx, h⟩ := bind_eq_ok.mp h
    obtain ⟨rfl, rfl⟩ := pure_eq_ok.mp h
    obtain ⟨e, c, he, hfits, _⟩ := hinner .assign b t hb hexpecting hx
    exact ⟨e, .nil, _, he.only, ⟨⟨hfits.fits, trivial⟩, hfits.grouped, trivial⟩, by simp [Expr.length]⟩
  | cons token budget ih =>
    obtain ⟨_, t, hx, h⟩ := bind_eq_ok.mp h
    obtain ⟨more, u, hmore, h⟩ := bind_eq_ok.mp h
    obtain ⟨e, c, he, hfits, _⟩ := hinner .assign b t hb hexpecting hx
    have hstill := (still_of_ok hmore).lays he.ready
    rcases accept_eq_ok (by simp) hmore with ⟨rfl, hcomma, hlast⟩ | ⟨rfl, rfl, _⟩
    · have hexpecting' : u.Expecting := fun _ => by rw [hlast]; rfl
      obtain ⟨e', rest, d, hd, hfits', hcount⟩ := ih (n+1) hstill.ready hexpecting' h
      have hlays := he.toLays.trans (hstill.trans hd.toLays he.ready) hb
      have hcodes := hd.toLays.codes (hstill.codes he.codes)
      refine ⟨e, .cons e' rest, .seq c d, ⟨?_, ?_, .cons hcodes hd.codes⟩,
        ⟨⟨hfits.fits, hfits'.fits⟩, hfits.grouped, hfits'.grouped⟩, ?_⟩
      · simpa [Phrase.directives] using hlays
      · have hreads := he.reads.trans (hcomma.trans hd.reads)
        simpa [Expr.tokens, Expr.separator] using hreads
      · simp only [hcount, Expr.length]
        omega
    · obtain ⟨rfl, rfl⟩ := pure_eq_ok.mp h
      exact ⟨e, .nil, _, he.only, ⟨⟨hfits.fits, trivial⟩, hfits.grouped, trivial⟩, by simp [Expr.length]⟩

/-- A call reads its arguments and writes, under a constant for the name, what lays them out. -/
theorem callWith_spells {t : Located} {x : String} {arity : Nat} {b b' : Builder} {index : UInt8}
    (hb : b.Ready) (h : callWith inner t x arity b = .ok index b') :
    ∃ (args : Expr .arguments) (c : Phrase),
      b.Lays b' (encode (Phrase.seq (.one (.get .global index)) c).directives) ∧
      b.Reads b' (.symbol .leftParen :: args.tokens++[Token.symbol .rightParen]) ∧
      args.Codes b'.program b'.view c ∧ args.Binds .assign ∧ args.length = arity ∧
      b'.program.constant? b'.view.function index = some (.text x) := by
  dsimp only [callWith] at h
  obtain ⟨i, b1, htext, h⟩ := bind_eq_ok.mp h
  obtain ⟨_, b2, hget, h⟩ := bind_eq_ok.mp h
  obtain ⟨_, b3, hopen, h⟩ := bind_eq_ok.mp h
  obtain ⟨closed, _, hcheck, h⟩ := bind_eq_ok.mp h
  obtain ⟨hclosed, rfl⟩ := check_eq_ok hcheck
  obtain ⟨hlays, hpause, hname⟩ := textConstant_names hb htext
  have hemit : b1.Lays b2 (Directive.get .global i).bytes := emitBytes_lays hlays.ready hget
  have hpause2 : b.Pauses b2 := hpause.trans (pauses_of_ok hget)
  obtain ⟨hparen, hlast⟩ := consume_eq_ok (by simp) hopen
  have hstill := (still_of_ok hopen).lays hemit.ready
  have hfront : b.Lays b3 (Directive.get .global i).bytes := by
    simpa using hlays.trans (hemit.trans hstill hlays.ready) hb
  have hreads : b.Reads b3 [.symbol .leftParen] := hpause2.reads.trans hparen
  have hname3 := (hemit.trans hstill hlays.ready).constant? hname
  have hrest (args : Expr .arguments) (c : Phrase) (u : Builder)
      (hargs : b3.Spells u args.tokens args c) (hfits : args.Binds .assign)
      (h : (do
        consume (.symbol .rightParen) "')' after arguments"
        if args.length = arity then pure i
          else complain t (.argumentCount x arity args.length) : Compile UInt8) u = .ok index b') :
      ∃ (args : Expr .arguments) (c : Phrase),
        b.Lays b' (encode (Phrase.seq (.one (.get .global index)) c).directives) ∧
        b.Reads b' (.symbol .leftParen :: args.tokens++[Token.symbol .rightParen]) ∧
        args.Codes b'.program b'.view c ∧ args.Binds .assign ∧ args.length = arity ∧
        b'.program.constant? b'.view.function index = some (.text x) := by
    obtain ⟨_, v, hclose, h⟩ := bind_eq_ok.mp h
    obtain ⟨hclosing, _⟩ := consume_eq_ok (by simp) hclose
    have hend := (still_of_ok hclose).lays hargs.ready
    split at h
    · next hcount =>
      obtain ⟨rfl, rfl⟩ := pure_eq_ok.mp h
      have hall := hargs.toLays.trans hend hfront.ready
      refine ⟨args, c, ?_, ?_, hend.codes hargs.codes, hfits, hcount, hall.constant? hname3⟩
      · simpa [Phrase.directives] using hfront.trans hall hb
      · simpa using hreads.trans (hargs.reads.trans hclosing)
    · exact absurd h throw_ne_ok
  cases closed with
  | true =>
    have hnone : b3.Spells b3 (Expr.nil).tokens .nil .empty :=
      ⟨.refl hfront.ready, rfl, .nil⟩
    exact hrest .nil .empty b3 hnone ⟨trivial, trivial⟩ (by simpa [Expr.length] using h)
  | false =>
    obtain ⟨_, _, hstate, h⟩ := bind_eq_ok.mp h
    obtain ⟨rfl, rfl⟩ := get_eq_ok.mp hstate
    obtain ⟨count, u, hargs, h⟩ := bind_eq_ok.mp h
    have hexpecting : b3.Expecting := fun _ => by rw [hlast]; rfl
    obtain ⟨e, rest, c, hargs, hfits, hcount⟩ :=
      arguments_spells hinner _ 0 hfront.ready hexpecting hargs
    rw [hcount, Nat.zero_add] at h
    exact hrest _ c u hargs hfits h

theorem call_spells {t : Located} {x : String} {b b' : Builder} {a : Unit} (hb : b.Ready)
    (h : call inner t x b = .ok a b') :
    ∃ (args : Expr .arguments) (c : Phrase),
      b.Spells b' (.symbol .leftParen :: args.tokens++[Token.symbol .rightParen]) (.call x args) c ∧
      args.Binds .assign := by
  obtain ⟨_, _, hget, h⟩ := bind_eq_ok.mp h
  obtain ⟨rfl, rfl⟩ := get_eq_ok.mp hget
  cases hr : b.runnable? x with
  | some f =>
    simp only [hr] at h
    obtain ⟨index, t, hwith, h⟩ := bind_eq_ok.mp h
    obtain ⟨args, c, hlays, hreads, hcodes, hfits, hcount, hname⟩ := callWith_spells hinner hb hwith
    have hemit : t.Lays b' (Directive.call index).bytes := emitBytes_lays hlays.ready h
    obtain ⟨callee, hcallee, harity⟩ := (hlays.trans hemit hb).grows.runnable? hr
    have hcall := Expr.Codes.call (hemit.constant? hname) hcallee (hcount.trans harity.symm)
      (hemit.codes hcodes)
    refine ⟨args, _, ⟨?_, ?_, hcall⟩, hfits⟩
    · simpa [Phrase.directives] using hlays.trans hemit hb
    · simpa using hreads.trans (pauses_of_ok h).reads
  | none =>
    simp only [hr] at h
    cases hn : Native.ofName? x with
    | none =>
      simp only [hn] at h
      exact absurd h throw_ne_ok
    | some native =>
      simp only [hn] at h
      obtain ⟨index, t, hwith, h⟩ := bind_eq_ok.mp h
      obtain ⟨args, c, hlays, hreads, hcodes, hfits, hcount, hname⟩ :=
        callWith_spells hinner hb hwith
      have hemit : t.Lays b' (Directive.callNative index native).bytes :=
        emitBytes_lays hlays.ready h
      have hcall := Expr.Codes.callNative (hemit.constant? hname) hn hcount (hemit.codes hcodes)
      refine ⟨args, _, ⟨?_, ?_, hcall⟩, hfits⟩
      · simpa [Phrase.directives] using hlays.trans hemit hb
      · simpa using hreads.trans (pauses_of_ok h).reads

theorem variable_spells {t : Located} {x : String} {p : Precedence} {b b' : Builder} {a : Unit}
    (hb : b.Ready) (h : variable_ inner t x (p == .assign) b = .ok a b') :
    ∃ (e : Expr .leading) (c : Phrase) (ts : List Token), e.tokens = .name x :: ts ∧
      b.Spells b' ts e c ∧ e.Binds p ∧ ((Expr.head e).isAssignment = true → b'.Stops .assign) := by
  obtain ⟨paren, _, hcheck, h⟩ := bind_eq_ok.mp h
  obtain ⟨hparen, rfl⟩ := check_eq_ok hcheck
  cases paren with
  | true =>
    obtain ⟨args, c, hcall, hfits⟩ := call_spells hinner hb h
    exact ⟨_, c, _, rfl, hcall, ⟨hfits.fits, hfits.grouped⟩, (absurd · Bool.false_ne_true)⟩
  | false =>
    obtain ⟨v, b1, hresolve, h⟩ := bind_eq_ok.mp h
    obtain ⟨next, _, hpeek, h⟩ := bind_eq_ok.mp h
    obtain ⟨rfl, rfl⟩ := peek_eq_ok hpeek
    obtain ⟨hlays, hv⟩ := resolve_refers hb hresolve
    have hpause : b.Pauses b1 := pauses_of_ok hresolve
    generalize hassignment :
      (if (p == .assign) = true then Assignment.ofToken? b1.peek.token else none) = assignment at h
    cases assignment with
    | none =>
      have hemit : b1.Lays b' (Directive.get v.scope v.operand).bytes := by
        rw [Directive.bytes_get]
        exact emitBytes_lays hlays.ready h
      have hreads := hpause.reads.trans (pauses_of_ok h).reads
      refine ⟨.name x, _, [], rfl, ⟨?_, hreads, .name (hemit.refers hv)⟩, ⟨trivial, trivial⟩,
        (absurd · Bool.false_ne_true)⟩
      simpa [Phrase.directives] using hlays.trans hemit hb
    | some assignment =>
      have hcan : p = .assign := by
        by_contra hp
        simp [hp] at hassignment
      rw [hcan]
      have htoken : b1.peek.token = assignment.token :=
        Assignment.ofToken?_eq_some (by simpa [hcan] using hassignment)
      obtain ⟨rest, hrest⟩ := upcoming_of_peek (by cases assignment <;> simp [Assignment.token]) htoken
      obtain ⟨_, b2, hadvance, h⟩ := bind_eq_ok.mp h
      obtain ⟨hupcoming, hlast⟩ := advance_reads hrest hadvance
      have hread : b1.Reads b2 [assignment.token] := by
        rw [Builder.Reads, hrest, hupcoming]
        rfl
      have hstill := (still_of_ok hadvance).lays hlays.ready
      have hfront : b.Lays b2 [] := hlays.trans hstill hb
      have hreads := hpause.reads.trans hread
      have hv := hstill.refers hv
      -- the value is read before the instruction that assigns it is written
      have hvalue (op : Option Operator) (hop : assignment = Expr.assignment op)
          (h : (do inner .assign; emitWith (assignment.opcode v.scope) v.operand : Compile Unit) b2 =
            .ok a b') :
          ∃ (e : Expr .leading) (c : Phrase) (ts : List Token), e.tokens = .name x :: ts ∧
            b.Spells b' ts e c ∧ e.Binds .assign ∧
            ((Expr.head e).isAssignment = true → b'.Stops .assign) := by
        obtain ⟨_, b3, hvalue, h⟩ := bind_eq_ok.mp h
        have hexpecting : b2.Expecting := fun _ => by rw [hlast]; cases assignment <;> rfl
        obtain ⟨e, c, he, hfits, hstops⟩ := hinner .assign b2 b3 hstill.ready hexpecting hvalue
        have hemit : b3.Lays b' (Directive.assign assignment v.scope v.operand).bytes := by
          rw [Directive.bytes_assign]
          exact emitBytes_lays he.ready h
        have hpause' : b3.Pauses b' := pauses_of_ok h
        have hcodes := hemit.codes he.codes
        have hv := hemit.refers (he.toLays.refers hv)
        subst hop
        refine ⟨.assign x op e, _, _, rfl, ⟨?_, ?_, .assign hv hcodes⟩,
          ⟨⟨rfl, hfits.fits⟩, hfits.grouped⟩, fun _ => ?_⟩
        · have hall := hfront.trans (he.toLays.trans hemit hfront.ready) hb
          simpa [Phrase.directives] using hall
        · simpa using hreads.trans (he.reads.trans hpause'.reads)
        · refine ⟨?_, ?_⟩
          · rw [Builder.token_peek, hpause'.upcoming, ← Builder.token_peek]
            exact hstops.operator
          · rw [Builder.token_peek, hpause'.upcoming, ← Builder.token_peek]
            exact hstops.assignment
      cases assignment with
      | count up =>
        have h : emitWith (Assignment.opcode v.scope (.count up)) v.operand b2 = .ok a b' := h
        have hemit : b2.Lays b' (Directive.assign (.count up) v.scope v.operand).bytes := by
          rw [Directive.bytes_assign]
          exact emitBytes_lays hstill.ready h
        have hreads := hreads.trans (pauses_of_ok h).reads
        refine ⟨.count x up, _, _, rfl, ⟨?_, ?_, .count (hemit.refers hv)⟩, ⟨rfl, trivial⟩,
          (absurd · Bool.false_ne_true)⟩
        · simpa [Phrase.directives] using hfront.trans hemit hb
        · simpa using hreads
      | plain => exact hvalue none rfl h
      | compound op => exact hvalue (some op) rfl h

theorem leading_spells {t : Located} {p : Precedence} {b b' : Builder} {a : Unit} (hb : b.Ready)
    (hlast : b.last = t) (h : leading inner t (p == .assign) b = .ok a b') :
    ∃ (e : Expr .leading) (c : Phrase) (ts : List Token), e.tokens = t.token :: ts ∧
      b.Spells b' ts e c ∧ e.Binds p ∧ ((Expr.head e).isAssignment = true → b'.Stops .assign) := by
  have hexpecting (hatom : t.token.isAtom = false) : b.Expecting := fun _ => by rw [hlast, hatom]
  have hunary (u : Unary) (hu : t.token = u.token)
      (h : (do inner .unary; emit u.opcode : Compile Unit) b = .ok a b') :
      ∃ (e : Expr .leading) (c : Phrase) (ts : List Token), e.tokens = t.token :: ts ∧
        b.Spells b' ts e c ∧ e.Binds p ∧ ((Expr.head e).isAssignment = true → b'.Stops .assign) := by
    obtain ⟨_, b1, hx, h⟩ := bind_eq_ok.mp h
    obtain ⟨e, c, he, hfits, _⟩ :=
      hinner .unary b b1 hb (hexpecting (by rw [hu]; cases u <;> rfl)) hx
    have hemit : b1.Lays b' (Directive.unary u).bytes := emitBytes_lays he.ready h
    refine ⟨.unary u e, _, e.tokens, by rw [hu]; rfl, ⟨?_, ?_, .unary (hemit.codes he.codes)⟩,
      ⟨hfits.fits, hfits.grouped⟩, (absurd · Bool.false_ne_true)⟩
    · simpa [Phrase.directives] using he.toLays.trans hemit hb
    · simpa using he.reads.trans (pauses_of_ok h).reads
  have hliteral (value : Option Bool) (hv : t.token = literalToken value)
      (h : emit (.literal value) b = .ok a b') :
      ∃ (e : Expr .leading) (c : Phrase) (ts : List Token), e.tokens = t.token :: ts ∧
        b.Spells b' ts e c ∧ e.Binds p ∧ ((Expr.head e).isAssignment = true → b'.Stops .assign) := by
    have hemit : b.Lays b' (Directive.literal value).bytes := emitBytes_lays hb h
    refine ⟨.literal value, _, [], by rw [hv]; rfl,
      ⟨?_, (pauses_of_ok h).reads, .literal value⟩, ⟨trivial, trivial⟩,
      (absurd · Bool.false_ne_true)⟩
    simpa [Phrase.directives] using hemit
  unfold leading at h
  generalize htoken : t.token = token at h hunary hliteral hexpecting ⊢
  split at h
  · obtain ⟨_, b1, hx, h⟩ := bind_eq_ok.mp h
    obtain ⟨e, c, he, hfits, _⟩ := hinner .assign b b1 hb (hexpecting rfl) hx
    obtain ⟨hparen, _⟩ := consume_eq_ok (by simp) h
    have hstill := (still_of_ok h).lays he.ready
    refine ⟨.group e, c, e.tokens++[.symbol .rightParen], rfl, ⟨?_, he.reads.trans hparen, ?_⟩,
      ⟨hfits.fits, hfits.grouped⟩, (absurd · Bool.false_ne_true)⟩
    · simpa using he.toLays.trans hstill hb
    · exact .group (hstill.codes he.codes)
  · exact hunary .negate rfl h
  · exact hunary .not rfl h
  · exact hunary .complement rfl h
  · next digits =>
    obtain ⟨index, b1, henter, h⟩ := bind_eq_ok.mp h
    obtain ⟨hlays, _, ⟨value, hv, rfl⟩, hc⟩ :=
      enter_names hb henter (fun _ hadd => addNumber_names hadd) (by simp)
    have hemit : b1.Lays b' (Directive.constant index).bytes := emitBytes_lays hlays.ready h
    have hreads := (pauses_of_ok henter).reads.trans (pauses_of_ok h).reads
    refine ⟨.number digits, _, [], rfl, ⟨?_, hreads, .number hv (hemit.constant? hc)⟩,
      ⟨trivial, trivial⟩, (absurd · Bool.false_ne_true)⟩
    simpa [Phrase.directives] using hlays.trans hemit hb
  · next content =>
    obtain ⟨index, b1, htext, h⟩ := bind_eq_ok.mp h
    obtain ⟨hlays, hpause, hc⟩ := textConstant_names hb htext
    have hemit : b1.Lays b' (Directive.constant index).bytes := emitBytes_lays hlays.ready h
    have hreads := hpause.reads.trans (pauses_of_ok h).reads
    refine ⟨.text content, _, [], rfl, ⟨?_, hreads, .text (hemit.constant? hc)⟩,
      ⟨trivial, trivial⟩, (absurd · Bool.false_ne_true)⟩
    simpa [Phrase.directives] using hlays.trans hemit hb
  · exact hliteral (some true) rfl h
  · exact hliteral (some false) rfl h
  · exact hliteral none rfl h
  · exact variable_spells hinner hb h
  · exact absurd h throw_ne_ok

/-- The right operand of an operator, and the code that joins it to the left one. -/
theorem joined_spells (l : Expr .operand) {i : Infix} {b b' : Builder} {a : Unit} (hb : b.Ready)
    (hexpecting : b.Expecting) (h : joined inner i b = .ok a b') :
    ∃ (r : Expr .operand) (d : Phrase), b.Lays b' (encode d.directives) ∧ b.Reads b' r.tokens ∧
      r.Binds i.rightPrecedence ∧
      (∀ j, Infix.ofToken? b'.peek.token = some j → (l.join i r).Leaves j) ∧
      ∀ c, l.Codes b'.program b'.view c → (l.join i r).Codes b'.program b'.view (.seq c d) := by
  -- where the right operand stops, and nothing more is read
  have hleaves {t : Builder} {r : Expr .operand} (hpause : t.Pauses b')
      (hstops : t.Stops i.rightPrecedence) (j : Infix)
      (hj : Infix.ofToken? b'.peek.token = some j) : (l.join i r).Leaves j := by
    rw [Builder.token_peek, hpause.upcoming, ← Builder.token_peek] at hj
    exact Nat.lt_of_not_le (hstops.operator j hj)
  -- the two short-circuits
  have heither (truth : Bool) (h : (do
        let jump ← emitJump (.jumpIf truth)
        emit .pop
        inner i.rightPrecedence
        patchJump jump : Compile Unit) b = .ok a b') :
      ∃ (r : Expr .operand) (d : Phrase), b.Lays b' (encode (Phrase.either truth d).directives) ∧
        b.Reads b' r.tokens ∧ r.Binds i.rightPrecedence ∧
        (∀ j, Infix.ofToken? b'.peek.token = some j → (l.join i r).Leaves j) ∧
        size d.directives+1 < 0x10000 ∧ r.Codes b'.program b'.view d := by
    obtain ⟨at_, b1, hjump, h⟩ := bind_eq_ok.mp h
    obtain ⟨_, b2, hpop, h⟩ := bind_eq_ok.mp h
    obtain ⟨_, b3, hx, h⟩ := bind_eq_ok.mp h
    have hpause : b.Pauses b2 := (pauses_of_ok hjump).trans (pauses_of_ok hpop)
    have hready : b2.Ready := (emitBytes_lays (emitJump_lays hb hjump).1.ready hpop).ready
    have hexpecting' : b2.Expecting := by
      rw [Builder.Expecting, hpause.upcoming, hpause.last]
      exact hexpecting
    obtain ⟨r, d, hd, hfits, hstops⟩ := hinner i.rightPrecedence b2 b3 hready hexpecting' hx
    obtain ⟨hfit, hgrows, hlays⟩ := either_lays hb hjump hpop hd.toLays h
    refine ⟨r, d, hlays, ?_, hfits, hleaves (pauses_of_ok h) hstops, hfit, ?_⟩
    · simpa using hpause.reads.trans (hd.reads.trans (pauses_of_ok h).reads)
    · have hview : b'.view = b3.view := by
        rw [hlays.view, hd.view, (emitBytes_lays (emitJump_lays hb hjump).1.ready hpop).view,
          (emitJump_lays hb hjump).1.view]
      rw [hview]
      exact hd.codes.mono hgrows.program
  unfold joined at h
  split at h
  · next op =>
    obtain ⟨_, b1, hx, h⟩ := bind_eq_ok.mp h
    obtain ⟨r, d, hd, hfits, hstops⟩ := hinner _ b b1 hb hexpecting hx
    have hemit : b1.Lays b' (Directive.plain (.operator op) rfl).bytes := emitBytes_lays hd.ready h
    refine ⟨r, .seq d (.one (.plain (.operator op) rfl)), ?_, ?_, hfits,
      hleaves (pauses_of_ok h) hstops, fun c hl => .operator hl (hemit.codes hd.codes)⟩
    · simpa [Phrase.directives] using hd.toLays.trans hemit hb
    · simpa using hd.reads.trans (pauses_of_ok h).reads
  · next c =>
    obtain ⟨_, b1, hx, h⟩ := bind_eq_ok.mp h
    obtain ⟨r, d, hd, hfits, hstops⟩ := hinner _ b b1 hb hexpecting hx
    have hemit : b1.Lays b' (encode (Phrase.comparison c).directives) := by
      rw [encode_comparison]
      exact emitBytes_lays hd.ready h
    refine ⟨r, .seq d (.comparison c), ?_, ?_, hfits, hleaves (pauses_of_ok h) hstops,
      fun c hl => .comparison hl (hemit.codes hd.codes)⟩
    · simpa [Phrase.directives] using hd.toLays.trans hemit hb
    · simpa using hd.reads.trans (pauses_of_ok h).reads
  · obtain ⟨r, d, hlays, hreads, hfits, hnext, hfit, hcodes⟩ := heither false h
    exact ⟨r, _, hlays, hreads, hfits, hnext, fun c hl => .and hl hcodes hfit⟩
  · obtain ⟨r, d, hlays, hreads, hfits, hnext, hfit, hcodes⟩ := heither true h
    exact ⟨r, _, hlays, hreads, hfits, hnext, fun c hl => .or hl hcodes hfit⟩

/-- Operators and their right operands join what was read before; one that follows an assignment
would belong to its value. -/
theorem following_spells {p : Precedence} {budget : List Located} {b0 b b' : Builder} {a : Unit}
    {l : Expr .operand} {c : Phrase} (hb : b0.Ready) (hl : b0.Spells b l.tokens l c)
    (hfits : l.Binds p)
    (hleaves : ∀ i, Infix.ofToken? b.peek.token = some i → l.Leaves i)
    (hassign : l.isAssignment = true → b.Stops .assign)
    (hbudget : b.upcoming.length ≤ budget.length) (h : following inner p budget b = .ok a b') :
    ∃ (e : Expr .operand) (c : Phrase), b0.Spells b' e.tokens e c ∧ e.Binds p ∧
      ∀ i, Infix.ofToken? b'.peek.token = some i → ¬p.rank ≤ i.precedence.rank := by
  induction budget generalizing b l c with
  | nil =>
    obtain ⟨_, rfl⟩ := pure_eq_ok.mp h
    have hnone : b.upcoming = [] := List.eq_nil_of_length_eq_zero (by simpa using hbudget)
    refine ⟨l, c, hl, hfits, ?_⟩
    rw [Builder.token_peek, hnone]
    intro i hi
    cases hi
  | cons token budget ih =>
    unfold following at h
    obtain ⟨t, _, hpeek, h⟩ := bind_eq_ok.mp h
    obtain ⟨rfl, rfl⟩ := peek_eq_ok hpeek
    cases hi : Infix.ofToken? b.peek.token with
    | none =>
      simp only [hi] at h
      obtain ⟨_, rfl⟩ := pure_eq_ok.mp h
      exact ⟨l, c, hl, hfits, fun i h => by rw [hi] at h; cases h⟩
    | some i =>
      simp only [hi] at h
      split at h
      · next hrank =>
        obtain ⟨_, b1, hadvance, h⟩ := bind_eq_ok.mp h
        obtain ⟨_, b2, hjoined, h⟩ := bind_eq_ok.mp h
        have htoken := Infix.ofToken?_eq_some hi
        obtain ⟨rest, hrest⟩ := upcoming_of_peek (by cases i <;> simp [Infix.token]) htoken
        obtain ⟨hupcoming, hlast⟩ := advance_reads hrest hadvance
        have hstill := (still_of_ok hadvance).lays hl.ready
        have hexpecting : b1.Expecting := fun _ => by rw [hlast]; cases i <;> rfl
        obtain ⟨r, d, hlays, hreads, hfitr, hnext, hjoin⟩ :=
          joined_spells hinner l hstill.ready hexpecting hjoined
        have hnot : l.isAssignment = false := by
          cases hl : l.isAssignment with
          | false => rfl
          | true => exact absurd (Precedence.assign_le i) ((hassign hl).operator i hi)
        have hboth : b0.Spells b2 (l.join i r).tokens (l.join i r) (.seq c d) := by
          refine ⟨?_, ?_, hjoin c (hlays.codes (hstill.codes hl.codes))⟩
          · simpa [Phrase.directives] using
              hl.toLays.trans (hstill.trans hlays hl.ready) hb
          · have hone : b.Reads b1 [i.token] := by
              rw [Builder.Reads, hrest, hupcoming]
              rfl
            simpa [Expr.tokens] using hl.reads.trans (hone.trans hreads)
        have hlength : b2.upcoming.length ≤ budget.length := by
          have hfull := congrArg List.length hreads
          rw [hupcoming, List.length_append] at hfull
          rw [hrest, List.length_cons, List.length_cons] at hbudget
          omega
        have hbinds : (l.join i r).Binds p :=
          ⟨⟨hfits.fits, hnot, hrank, hfitr.fits⟩, hleaves i hi, hfits.grouped, hfitr.grouped⟩
        exact ih hboth hbinds hnext (absurd · Bool.false_ne_true) hlength h
      · next hrank =>
        obtain ⟨_, rfl⟩ := pure_eq_ok.mp h
        refine ⟨l, c, hl, hfits, fun j hj => ?_⟩
        rw [hi] at hj
        cases hj
        exact hrank

theorem operand_spells {p : Precedence} {b b' : Builder} {a : Unit} (hb : b.Ready)
    (hsome : b.upcoming ≠ []) (h : operand inner p b = .ok a b') :
    ∃ (e : Expr .operand) (c : Phrase), b.Spells b' e.tokens e c ∧ e.Binds p ∧ b'.Stops p := by
  dsimp only [operand] at h
  obtain ⟨_, b1, hadvance, h⟩ := bind_eq_ok.mp h
  obtain ⟨t, _, hlast, h⟩ := bind_eq_ok.mp h
  obtain ⟨rfl, rfl⟩ := last_eq_ok hlast
  obtain ⟨_, b2, hleading, h⟩ := bind_eq_ok.mp h
  obtain ⟨_, _, hget, h⟩ := bind_eq_ok.mp h
  obtain ⟨rfl, rfl⟩ := get_eq_ok.mp hget
  obtain ⟨_, b3, hfollowing, h⟩ := bind_eq_ok.mp h
  obtain ⟨t, _, hpeek, h⟩ := bind_eq_ok.mp h
  obtain ⟨rfl, rfl⟩ := peek_eq_ok hpeek
  obtain ⟨first, rest, hfirst⟩ := List.exists_cons_of_ne_nil hsome
  obtain ⟨hupcoming, hlast⟩ := advance_reads hfirst hadvance
  have hstill := (still_of_ok hadvance).lays hb
  obtain ⟨e, c, ts, hts, he, hfits, hassign⟩ := leading_spells hinner hstill.ready rfl hleading
  have hhead : b.Spells b2 (Expr.head e).tokens (.head e) c := by
    refine ⟨hstill.trans he.toLays hb, ?_, .head he.codes⟩
    have hone : b.Reads b1 [first] := by
      rw [Builder.Reads, hfirst, hupcoming]
      rfl
    have hboth := hone.trans he.reads
    rwa [Expr.tokens, hts, hlast]
  have hbudget : b2.upcoming.length ≤ b2.rest.length := by simp [Builder.upcoming]
  obtain ⟨e', c', he', hfits', hstops⟩ :=
    following_spells hinner hb hhead ⟨hfits.fits, hfits.grouped⟩ (fun _ _ => trivial) hassign hbudget
      hfollowing
  split at h
  · exact absurd h throw_ne_ok
  · next hnone =>
    obtain ⟨_, rfl⟩ := pure_eq_ok.mp h
    exact ⟨e', c', he', hfits', hstops, by simpa using hnone⟩

end

/-- With no token to come the last one is read once more, which leads nowhere. -/
theorem operandAt_stuck (levels : Nat) (p : Precedence) {b b' : Builder} {a : Unit}
    (hnone : b.upcoming = []) (hatom : b.last.token.isAtom = false) :
    operandAt levels p b ≠ .ok a b' := by
  induction levels generalizing p b' a with
  | zero =>
    intro h
    obtain ⟨t, _, _, h⟩ := bind_eq_ok.mp h
    exact absurd h throw_ne_ok
  | succ levels ih =>
    intro h
    dsimp only [operandAt, operand] at h
    obtain ⟨_, b1, hadvance, h⟩ := bind_eq_ok.mp h
    obtain ⟨t, _, hlast, h⟩ := bind_eq_ok.mp h
    obtain ⟨_, b2, hleading, _⟩ := bind_eq_ok.mp h
    have hrest : b.rest = [] := by simpa [Builder.upcoming] using hnone
    have hsame : b = b1 := by
      have h := modify_eq_ok.mp hadvance
      rwa [Builder.advance, hrest] at h
    subst hsame
    obtain ⟨rfl, rfl⟩ := last_eq_ok hlast
    unfold leading at hleading
    generalize b.last.token = token at hleading hatom
    have hinner {q : Precedence} {next : Compile Unit}
        (h : (operandAt levels q >>= fun _ => next) b = .ok () b2) : False := by
      obtain ⟨_, _, hx, _⟩ := bind_eq_ok.mp h
      exact ih q hx
    split at hleading
    · exact hinner hleading
    · exact hinner hleading
    · exact hinner hleading
    · exact hinner hleading
    all_goals first | cases hatom | exact absurd hleading throw_ne_ok

theorem operandAt_parses (levels : Nat) (p : Precedence) : Parses (operandAt levels p) p := by
  induction levels generalizing p with
  | zero =>
    intro b b' _ _ h
    obtain ⟨t, _, _, h⟩ := bind_eq_ok.mp h
    exact absurd h throw_ne_ok
  | succ levels ih =>
    intro b b' hb hexpecting h
    by_cases hsome : b.upcoming = []
    · exact absurd h (operandAt_stuck (levels+1) p hsome (hexpecting hsome))
    · exact operand_spells ih hb hsome h

end Compile
end RatScript
