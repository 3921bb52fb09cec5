import RatScript.Proofs.Compile.Resumed
import RatScript.Proofs.Compile.Acceptance

/-!
A script that is cut at the end of a line: what stands before the cut is compiled as in the whole
script, and each block that is open at the cut is reported once, the innermost first.
-/

set_option synthInstance.maxSize 65536

namespace RatScript

open Stateful

namespace Builder

/-- The blocks that are open where the tokens end, if these are open now. -/
def ahead (b : Builder) (blocks : List Block) : List Block :=
  Block.openIn (b.rest.map (·.token)) blocks

/-- The state is in a line of the last `n` tokens. -/
def MidLine (n : Nat) (b : Builder) : Prop := b.Lined ∧ b.rest.length ≤ n

/-- The state is at the start of a line of the last `n` tokens, or at their end. -/
def LineStart (n : Nat) (b : Builder) : Prop := b.AtLine ∧ b.rest.length ≤ n

/-- Tokens have run out inside blocks: all that were opened since, and only they, are reported, the
last of them by the failure itself. -/
structure RunsOut (b : Builder) (blocks base : List Block) (d : Diagnostic) (b' : Builder) : Prop where
  rest : b'.rest = []
  finish : b'.finish = b.finish
  reports : ∃ inner, b.ahead blocks = inner++base ∧
    b'.diagnostics.toList++[d] = inner.map (Block.unclosed b.finish)

section
variable {b b' b'' : Builder} {blocks blocks' base : List Block} {n m : Nat}

theorem ahead_cons {t : Located} (h : b.rest = t :: b'.rest) (blocks : List Block) :
    b'.ahead (Block.behind blocks t.token) = b.ahead blocks := by
  simp [ahead, h, Block.openIn]

theorem Within.ahead (h : b.Within b') (blocks : List Block) : b'.ahead blocks = b.ahead blocks := by
  obtain ⟨ts, hts, hinline⟩ := h.read
  have hnone : Block.openIn (ts.map (·.token)) blocks = blocks := by
    clear hts
    induction ts with
    | nil => rfl
    | cons t ts ih =>
      have hfirst := (hinline t (List.mem_cons_self ..)).2 blocks
      change Block.openIn (ts.map (·.token)) (Block.behind blocks t.token) = blocks
      rw [hfirst]
      exact ih fun t ht => hinline t (List.mem_cons_of_mem _ ht)
  rw [Block.openIn] at hnone
  rw [Builder.ahead, Builder.ahead, hts, List.map_append, Block.openIn, Block.openIn,
    List.foldl_append, hnone]

theorem RunsOut.of_ahead (h : b'.RunsOut blocks' base d b'') (hahead : b'.ahead blocks' = b.ahead blocks)
    (hfinish : b'.finish = b.finish) : b.RunsOut blocks base d b'' where
  rest := h.rest
  finish := h.finish.trans hfinish
  reports := by
    rw [← hahead, ← hfinish]
    exact h.reports

theorem MidLine.mono (h : b.MidLine n) (hn : n ≤ m) : b.MidLine m :=
  ⟨h.1, h.2.trans hn⟩

theorem LineStart.mono (h : b.LineStart n) (hn : n ≤ m) : b.LineStart m :=
  ⟨h.1, h.2.trans hn⟩

/-- Behind an end of line comes another line, if anything. -/
theorem Lined.atLine_advance (hb : b.Lined) : b.advance.AtLine := by
  obtain ⟨last, hlast, hnewline⟩ := hb.ends
  have hread := hb.rest_advance
  rcases List.eq_nil_or_concat b.advance.rest with hnil | ⟨ts, t, hts⟩
  · exact .inl hnil
  · refine .inr ⟨⟨last, ?_, hnewline⟩, fun t ht => hb.inside t (hread ▸ List.mem_cons_of_mem _ ht)⟩
    rw [hread, hts, List.concat_eq_append, ← List.cons_append, List.getLast?_concat] at hlast
    rw [hts, List.concat_eq_append, List.getLast?_concat]
    exact hlast

theorem Lined.advance (hb : b.Lined) (h : b.peek.token ≠ .newline) : b.advance.Lined := by
  refine hb.atLine_advance.resolve_left fun hnil => h ?_
  obtain ⟨last, hlast, hnewline⟩ := hb.ends
  rw [hb.rest_advance, hnil] at hlast
  cases hlast
  exact hnewline

theorem MidLine.lineStart_advance (h : b.MidLine (n+1)) : b.advance.LineStart n := by
  refine ⟨h.1.atLine_advance, ?_⟩
  have hlength := h.2
  rw [h.1.rest_advance, List.length_cons] at hlength
  omega

end

end Builder

namespace Compile

open Builder (Lined Within MidLine LineStart RunsOut)

variable {α β : Type} {tail : List Located} {finish : Position}

section
variable (tail finish)

/-- Compared with a run that has more tokens to come and succeeds without a report, the step does the
same, or it runs out of tokens inside blocks opened in it. The blocks of `base` stand around it. -/
def Cuts (P : Builder → Prop) (blocks : List Block) (x : Compile α) (Q : Builder → Prop)
    (after : α → List Block) (base : List Block) : Prop :=
  ∀ c a b', P c → x (c.resume tail finish) = .ok a b' → b'.diagnostics = #[] →
    (∃ c', b' = c'.resume tail finish ∧ x c = .ok a c' ∧ Q c' ∧ c'.finish = c.finish ∧
      c'.ahead (after a) = c.ahead blocks) ∨
    ∃ d c', x c = .error d c' ∧ c.RunsOut blocks base d c'

/-- A statement as part of a script that is cut at the end of a line. -/
def Splits (x : Compile Unit) : Prop :=
  ∀ n blocks, Cuts tail finish (MidLine (n+1)) blocks x (LineStart n) (fun _ => blocks) blocks

end

theorem endOfLine_newline {b : Builder} (h : b.peek.token = .newline) :
    endOfLine b = (do advance; emit .newline) b := by
  have haccept : accept .newline b = .ok true b.advance := by
    rw [accept_eq, if_pos (beq_iff_eq.mpr h)]
  simp only [endOfLine, bind, EStateM.bind, haccept]
  rfl

theorem endOfLine_eq_error {b : Builder} (h : b.peek.token ≠ .newline) (hmore : b.peek.token ≠ .eof) :
    endOfLine b = complain b.peek (.expected "end of line after statement") b := by
  have haccept : accept .newline b = .ok false b := by
    rw [accept_eq, if_neg (fun heq => h (eq_of_beq heq))]
  have hcheck : check .eof b = .ok false b := by
    change EStateM.Result.ok (b.peek.token == .eof) b = _
    rw [beq_eq_false_iff_ne.mpr hmore]
  simp only [endOfLine, bind, EStateM.bind, haccept, Bool.false_eq_true, if_false, hcheck]
  rfl

namespace Cuts

variable {P Q R : Builder → Prop} {blocks base : List Block} {n : Nat}

theorem seq {x : Compile α} {f : α → Compile β} {middle : α → List Block} {after : β → List Block}
    (hx : Cuts tail finish P blocks x Q middle base) (hkeeps : ∀ a, Keeps Builder.Reports (f a))
    (hf : ∀ a, Cuts tail finish Q (middle a) (f a) R after base) :
    Cuts tail finish P blocks (x >>= f) R after base := by
  intro c b b' hc h hs
  obtain ⟨a, t, ht, hst, h⟩ := bind_silent h hs
  rcases hx c a t hc ht hst with ⟨d, rfl, hd, hq, hfinish, hahead⟩ | ⟨e, d, hd, hout⟩
  · rcases hf a d b b' hq h hs with ⟨c', hb', hc', hr, hfinish', hahead'⟩ | ⟨e, c', hc', hout⟩
    · exact .inl ⟨c', hb', bind_eq_ok.mpr ⟨a, d, hd, hc'⟩, hr, hfinish'.trans hfinish,
        hahead'.trans hahead⟩
    · exact .inr ⟨e, c', bind_eq_error.mpr (.inr ⟨a, d, hd, hc'⟩), hout.of_ahead hahead hfinish⟩
  · exact .inr ⟨e, d, bind_eq_error.mpr (.inl hd), hout⟩

theorem bind {x : Compile α} {f : α → Compile β} [hkeeps : ∀ a, Keeps Builder.Reports (f a)]
    {middle : α → List Block} {after : β → List Block}
    (hx : Cuts tail finish P blocks x Q middle base)
    (hf : ∀ a, Cuts tail finish Q (middle a) (f a) R after base) :
    Cuts tail finish P blocks (x >>= f) R after base :=
  hx.seq hkeeps hf

theorem mono {P' Q' : Builder → Prop} {x : Compile α} {after : α → List Block}
    (h : Cuts tail finish P blocks x Q after base) (hp : ∀ c, P' c → P c) (hq : ∀ c, Q c → Q' c) :
    Cuts tail finish P' blocks x Q' after base := by
  intro c a b' hc hx hs
  rcases h c a b' (hp c hc) hx hs with ⟨c', hb', hc', hr, hrest⟩ | hout
  · exact .inl ⟨c', hb', hc', hq c' hr, hrest⟩
  · exact .inr hout

/-- What fails with more tokens to come is no matter. -/
theorem of_fails {x : Compile α} {after : α → List Block} (h : ∀ b a b', x b ≠ .ok a b') :
    Cuts tail finish P blocks x Q after base :=
  fun _ _ _ _ hx _ => absurd hx (h _ _ _)

theorem inner_step (blocks : List Block) {x : Compile α} [hx : Inner tail finish x] {c b' : Builder} {a : α}
    (hc : MidLine n c) (h : x (c.resume tail finish) = .ok a b') :
    ∃ c', b' = c'.resume tail finish ∧ x c = .ok a c' ∧ MidLine n c' ∧ c'.finish = c.finish ∧
      c'.ahead blocks = c.ahead blocks := by
  obtain ⟨c', hb', hc', hwithin⟩ := hx.inside c hc.1 a b' h
  exact ⟨c', hb', hc', ⟨hwithin.lined hc.1, hwithin.length.trans hc.2⟩, hwithin.finish,
    hwithin.ahead blocks⟩

theorem of_inner (x : Compile α) [Inner tail finish x] :
    Cuts tail finish (MidLine n) blocks x (MidLine n) (fun _ => blocks) base :=
  fun _ _ _ hc h _ => .inl (inner_step blocks hc h)

theorem inner {x : Compile α} [Inner tail finish x] {f : α → Compile β} {after : β → List Block}
    (hf : ∀ a, Cuts tail finish (MidLine n) blocks (f a) Q after base) :
    Cuts tail finish (MidLine n) blocks (x >>= f) Q after base := by
  intro c b b' hc h hs
  obtain ⟨a, t, ht, h⟩ := bind_eq_ok.mp h
  obtain ⟨d, rfl, hd, hmid, hfinish, hahead⟩ := inner_step blocks hc ht
  rcases hf a d b b' hmid h hs with ⟨c', hb', hc', hq, hfinish', hahead'⟩ | ⟨e, c', hc', hout⟩
  · exact .inl ⟨c', hb', bind_eq_ok.mpr ⟨a, d, hd, hc'⟩, hq, hfinish'.trans hfinish,
      hahead'.trans hahead⟩
  · exact .inr ⟨e, c', bind_eq_error.mpr (.inr ⟨a, d, hd, hc'⟩), hout.of_ahead hahead hfinish⟩

theorem of_blind (x : Compile α) [hx : Blind tail finish x] :
    Cuts tail finish (LineStart n) blocks x (LineStart n) (fun _ => blocks) base := by
  intro c a b' hc h _
  obtain ⟨c', hb', hc', hrest, hfinish⟩ := hx.same c a b' h
  refine .inl ⟨c', hb', hc', ?_, hfinish, by rw [Builder.ahead, hrest, Builder.ahead]⟩
  obtain ⟨hline, hlength⟩ := hc
  refine ⟨hline.imp (fun h => hrest.trans h) fun h => ⟨?_, ?_⟩, hrest ▸ hlength⟩
  · rw [hrest]
    exact h.ends
  · rw [hrest]
    exact h.inside

theorem get_bind {f : Builder → Compile α} {after : α → List Block}
    (hf : ∀ c, f (c.resume tail finish) = f c)
    (h : ∀ c, P c → Cuts tail finish P blocks (f c) Q after base) :
    Cuts tail finish P blocks (get >>= f) Q after base := by
  intro c a b' hc hx hs
  change f (c.resume tail finish) (c.resume tail finish) = .ok a b' at hx
  rw [hf] at hx
  exact h c hc c a b' hc hx hs

theorem ite {p : Prop} [Decidable p] {x y : Compile α} {after : α → List Block}
    (hx : p → Cuts tail finish P blocks x Q after base)
    (hy : ¬p → Cuts tail finish P blocks y Q after base) :
    Cuts tail finish P blocks (if p then x else y) Q after base := by
  split
  · exact hx ‹_›
  · exact hy ‹_›

/-- In a line the tokens are not over. -/
theorem more {f : Bool → Compile α} {after : α → List Block} (hp : ∀ c, P c → c.Lined)
    (h : Cuts tail finish P blocks (f false) Q after base) :
    Cuts tail finish P blocks (check .eof >>= f) Q after base := by
  intro c a b' hc hx hs
  have hpeek := (hp c hc).peek_resume tail finish
  have heof : (c.peek.token == .eof) = false := beq_eq_false_iff_ne.mpr (hp c hc).more
  change f ((c.resume tail finish).peek.token == .eof) _ = _ at hx
  rw [hpeek, heof] at hx
  have hsame : (check .eof >>= f) c = f false c := by
    change f (c.peek.token == .eof) c = _
    rw [heof]
  rw [hsame]
  exact h c a b' hc hx hs

/-- A step that depends on the token to come. -/
theorem peek {f : Located → Compile α} {after : α → List Block}
    (hf : ∀ t, Cuts tail finish (fun c => MidLine n c ∧ c.peek.token = t.token) blocks (f t) Q after
      base) :
    Cuts tail finish (MidLine n) blocks (peek >>= f) Q after base := by
  intro c a b' hc h hs
  rw [peek_bind, hc.1.peek_resume] at h
  rw [peek_bind]
  exact hf c.peek c a b' ⟨hc, rfl⟩ h hs

/-- A keyword is read. -/
theorem advance {k : Keyword} :
    Cuts tail finish (fun c => MidLine n c ∧ c.peek.token = .keyword k) blocks advance (MidLine n)
      (fun _ => Block.behind blocks (.keyword k)) base := by
  intro c a b' hc h _
  obtain ⟨⟨hlined, hlength⟩, hpeek⟩ := hc
  have hread := hlined.rest_advance
  refine .inl ⟨c.advance, ?_, rfl, ⟨hlined.advance (by simp [hpeek]), ?_⟩, c.finish_advance, ?_⟩
  · rw [← modify_eq_ok.mp h, hlined.advance_resume]
  · rw [hread, List.length_cons] at hlength
    omega
  · rw [← hpeek]
    exact Builder.ahead_cons hread blocks

theorem accept {k : Keyword} :
    Cuts tail finish (MidLine n) blocks (accept (.keyword k)) (MidLine n)
      (fun more => if more then Block.behind blocks (.keyword k) else blocks) base := by
  intro c a b' hc h hs
  rw [accept_eq, hc.1.peek_resume] at h
  rw [accept_eq]
  split at h
  · next heq =>
    rw [if_pos heq]
    cases h
    have hadvance : Cuts tail finish (fun c => MidLine n c ∧ c.peek.token = .keyword k) blocks
        Compile.advance (MidLine n) (fun _ => Block.behind blocks (.keyword k)) base := advance
    rcases hadvance c () _ ⟨hc, eq_of_beq heq⟩ rfl hs with
      ⟨c', hb', hc', hrest⟩ | ⟨d, c', hc', _⟩
    · cases hc'
      exact .inl ⟨_, hb', rfl, hrest⟩
    · cases hc'
  · next hne =>
    rw [if_neg hne]
    cases h
    exact .inl ⟨c, rfl, rfl, hc, rfl, rfl⟩

theorem consume {k : Keyword} {what : String} :
    Cuts tail finish (MidLine n) blocks (consume (.keyword k) what) (MidLine n)
      (fun _ => Block.behind blocks (.keyword k)) base := by
  refine accept.bind fun more => ?_
  cases more with
  | true => exact of_inner (pure ())
  | false => 
    refine of_fails fun b a b' h => ?_
    obtain ⟨_, _, _, h⟩ := bind_eq_ok.mp h
    exact absurd h throw_ne_ok

/-- An end of line is read and written down. -/
theorem newline :
    Cuts tail finish (fun c => MidLine (n+1) c ∧ c.peek.token = .newline) blocks
      (do Compile.advance; emit .newline) (LineStart n) (fun _ => blocks) base := by
  intro c a b' hc h hs
  obtain ⟨hmid, hpeek⟩ := hc
  obtain ⟨_, t, ht, h⟩ := bind_eq_ok.mp h
  rw [← modify_eq_ok.mp ht, hmid.1.advance_resume] at h
  have hemit : Cuts tail finish (LineStart n) blocks (emit .newline) (LineStart n) (fun _ => blocks)
      base := of_blind _
  rcases hemit c.advance a b' hmid.lineStart_advance h hs with ⟨c', hb', hc', hr, hfinish, hahead⟩ | ⟨d, c', hc', _⟩
  · refine .inl ⟨c', hb', bind_eq_ok.mpr ⟨(), c.advance, rfl, hc'⟩, hr,
      hfinish.trans c.finish_advance, hahead.trans ?_⟩
    rw [← Builder.ahead_cons hmid.1.rest_advance blocks, hpeek]
    rfl
  · cases hc'

theorem endOfLine_short :
    Cuts tail finish (MidLine (n+1)) blocks endOfLine (LineStart n) (fun _ => blocks) base := by
  intro c a b' hc h hs
  have hpeek := hc.1.peek_resume tail finish
  by_cases hnewline : c.peek.token = .newline
  · rw [endOfLine_newline (hpeek ▸ hnewline)] at h
    rw [endOfLine_newline hnewline]
    exact newline c a b' ⟨hc, hnewline⟩ h hs
  · rw [endOfLine_eq_error (hpeek ▸ hnewline) (hpeek ▸ hc.1.more)] at h
    cases h

theorem endOfLine :
    Cuts tail finish (MidLine n) blocks endOfLine (LineStart n) (fun _ => blocks) base :=
  endOfLine_short.mono (fun _ h => h.mono (Nat.le_succ n)) fun _ h => h

/-- What comes behind a failure is no matter either. -/
theorem of_complain {t : Located} {e : Complaint} {f : β → Compile α} {after : α → List Block} :
    Cuts tail finish P blocks (complain t e >>= f) Q after base := by
  refine of_fails fun b a b' h => ?_
  obtain ⟨_, _, hfail, _⟩ := bind_eq_ok.mp h
  exact throw_ne_ok hfail

/-- What is done after a step whether it fails or not, without looking at the tokens. -/
theorem tryFinally {x : Compile Unit} {f : Builder → Builder} {after : Unit → List Block}
    (hx : Cuts tail finish P blocks x (MidLine n) after base)
    (hf : ∀ c, f (c.resume tail finish) = (f c).resume tail finish)
    (hkept : ∀ c, (f c).rest = c.rest ∧ (f c).finish = c.finish ∧ (f c).diagnostics = c.diagnostics) :
    Cuts tail finish P blocks (tryFinally x (modify f)) (MidLine n) after base := by
  intro c a b' hc h hs
  obtain ⟨t, ht, rfl⟩ := tryFinally_modify_eq_ok.mp h
  rw [(hkept t).2.2] at hs
  rcases hx c a t hc ht hs with ⟨c', rfl, hc', ⟨hlined, hlength⟩, hfinish, hahead⟩ | ⟨d, c', hc', hout⟩
  · obtain ⟨hrest, hsame, _⟩ := hkept c'
    refine .inl ⟨f c', hf c', tryFinally_modify_eq_ok.mpr ⟨c', hc', rfl⟩, ⟨⟨?_, ?_⟩, ?_⟩,
      hsame.trans hfinish, ?_⟩
    · rw [hrest]
      exact hlined.ends
    · rw [hrest]
      exact hlined.inside
    · rw [hrest]
      exact hlength
    · rw [Builder.ahead, hrest]
      exact hahead
  · obtain ⟨hrest, hsame, hdiagnostics⟩ := hkept c'
    refine .inr ⟨d, f c', ?_, ⟨hrest.trans hout.rest, hsame.trans hout.finish, ?_⟩⟩
    · rw [tryFinally_eq, hc']
      rfl
    · rw [hdiagnostics]
      exact hout.reports

end Cuts

/-! Statements of one line. -/

section
variable (tail finish)

/-- The step ends with its line. -/
class Ends (x : Compile Unit) : Prop where
  cuts : ∀ n blocks base,
    Cuts tail finish (MidLine (n+1)) blocks x (LineStart n) (fun _ => blocks) base

end

instance : Ends tail finish endOfLine := ⟨fun _ _ _ => Cuts.endOfLine_short⟩

instance (x : Compile α) (f : α → Compile Unit) [Inner tail finish x]
    [∀ a, Ends tail finish (f a)] : Ends tail finish (x >>= f) where
  cuts n blocks base := Cuts.inner fun a =>
    (inferInstance : Ends tail finish (f a)).cuts n blocks base

instance (p : Prop) [Decidable p] (x y : Compile Unit) [Ends tail finish x] [Ends tail finish y] :
    Ends tail finish (if p then x else y) := by
  split <;> assumption

section
variable (expression : Compile Unit) [Inner tail finish expression]

instance : Ends tail finish (expressionStatement expression) := by
  dsimp only [expressionStatement]; infer_instance

instance : Ends tail finish (varDeclaration expression) := by
  unfold varDeclaration
  refine ⟨fun n blocks base => ?_⟩
  refine Cuts.inner fun name => Cuts.inner fun t => ?_
  refine .get_bind (fun _ => rfl) fun c _ => .get_bind (fun _ => rfl) fun c' _ => ?_
  exact (inferInstance : Ends tail finish _).cuts n blocks base

instance : Ends tail finish (returnStatement expression) := by
  refine ⟨fun n blocks base => .get_bind (fun _ => rfl) fun c _ => ?_⟩
  exact (inferInstance : Ends tail finish _).cuts n blocks base

end

/-! Lists of statements. -/

section
variable {statement : Compile Unit} {closers : List Keyword}

/-- Statements are over at a closer and where the tokens end. -/
theorem declarations_stop {budget : List Located} {b : Builder}
    (h : b.peek.token = .eof ∨ ∃ k ∈ closers, b.peek.token = .keyword k) :
    declarations statement closers budget b = .ok () b := by
  cases budget with
  | nil => rfl
  | cons t budget =>
    rw [declarations, peek_bind]
    rcases h with heof | ⟨k, hk, hpeek⟩
    · rw [heof]
      rfl
    · rw [hpeek]
      dsimp only
      rw [if_pos (List.contains_iff_mem.mpr hk)]
      rfl

theorem declarations_step {t : Located} {budget : List Located} {b : Builder}
    (hmore : b.peek.token ≠ .eof) (hopen : ∀ k ∈ closers, b.peek.token ≠ .keyword k) :
    declarations statement closers (t :: budget) b =
      (declaration statement >>= fun _ => declarations statement closers budget) b := by
  rw [declarations, peek_bind]
  generalize b.peek.token = token at hmore hopen
  split
  · exact absurd rfl hmore
  · next k =>
    rw [if_neg]
    exact fun hk => hopen k (List.contains_iff_mem.mp hk) rfl
  · rfl

/-- Behind the last token there is nothing to skip. -/
theorem declaration_runs_out {c c' : Builder} {d : Diagnostic} (h : statement c = .error d c')
    (hrest : c'.rest = []) :
    declaration statement c = .ok () {c' with diagnostics := c'.diagnostics.push d} := by
  have hcaught : declaration statement c = ((do
      modify fun b => {b with diagnostics := b.diagnostics.push d}
      synchronize) : Compile Unit) c' := by
    simp only [declaration, tryCatch, tryCatchThe, MonadExceptOf.tryCatch, EStateM.tryCatch, h]
    rfl
  rw [hcaught]
  cases c'
  dsimp only at hrest
  subst hrest
  rfl

theorem peek_of_rest {b : Builder} (h : b.rest = []) : b.peek = ⟨.eof, b.finish⟩ := by
  rw [Builder.peek, h]

theorem complain_unclosed {b : Builder} (opener closer : Keyword) (h : b.rest = []) :
    ((do if ← check .eof then complain (← peek) (.unclosed opener closer)) : Compile Unit) b =
      .error ⟨.unclosed opener closer, b.finish, Token.eof.spelling⟩ b := by
  have hpeek := peek_of_rest h
  refine (congrFun (if_pos ?_) b).trans ?_
  · rw [hpeek]
    rfl
  · change EStateM.Result.error
      (⟨.unclosed opener closer, b.peek.pos, b.peek.token.spelling⟩ : Diagnostic) b = _
    rw [hpeek]

section
variable [Keeps Builder.Reports statement]

/-- A block that is cut before its next statement. -/
theorem declarations_end {blocks : List Block} {budget : List Located} (budget' : List Located)
    {c b' : Builder} (hc : c.rest = [])
    (h : declarations statement closers budget (c.resume tail finish) = .ok () b')
    (hs : b'.diagnostics = #[]) :
    declarations statement closers budget' c = .ok () c ∧ ∃ inner, c.ahead blocks = inner++blocks ∧
      c.diagnostics.toList = inner.map (Block.unclosed c.finish) := by
  have hsilent : c.diagnostics = #[] :=
    ((inferInstance : Keeps Builder.Reports (declarations statement closers budget)).of_ok h).silent hs
  refine ⟨declarations_stop (.inl ?_), [], ?_, ?_⟩
  · rw [peek_of_rest hc]
  · rw [Builder.ahead, hc]
    rfl
  · rw [hsilent]
    rfl

variable (hstatement : Splits tail finish statement)
include hstatement

/-- Statements of a block that is cut: they come to the closer that they come to with more tokens,
or else what was opened in them and is open at the cut is reported. -/
theorem declarations_cut (blocks : List Block) {budget : List Located} (budget' : List Located)
    {c b' : Builder}
    (hc : c.AtLine) (hbudget : c.rest.length ≤ budget.length)
    (hbudget' : c.rest.length ≤ budget'.length)
    (h : declarations statement closers budget (c.resume tail finish) = .ok () b')
    (hs : b'.diagnostics = #[]) :
    ∃ c', declarations statement closers budget' c = .ok () c' ∧ c'.finish = c.finish ∧
      ((b' = c'.resume tail finish ∧ MidLine c.rest.length c' ∧
          (∃ k ∈ closers, c'.peek.token = .keyword k) ∧ c'.ahead blocks = c.ahead blocks) ∨
        c'.rest = [] ∧ ∃ inner, c.ahead blocks = inner++blocks ∧
          c'.diagnostics.toList = inner.map (Block.unclosed c.finish)) := by
  induction budget' generalizing budget c with
  | nil =>
    have hrest : c.rest = [] := List.eq_nil_of_length_eq_zero (Nat.le_zero.mp hbudget')
    obtain ⟨hrun, hreports⟩ := declarations_end [] hrest h hs
    exact ⟨c, hrun, rfl, .inr ⟨hrest, hreports⟩⟩
  | cons t' budget' ih =>
    rcases hc with hrest | hc
    · obtain ⟨hrun, hreports⟩ := declarations_end (t' :: budget') hrest h hs
      exact ⟨c, hrun, rfl, .inr ⟨hrest, hreports⟩⟩
    have hpeek := hc.peek_resume tail finish
    by_cases hcloser : ∃ k ∈ closers, c.peek.token = .keyword k
    · rw [declarations_stop (.inr (hpeek ▸ hcloser))] at h
      cases h
      exact ⟨c, declarations_stop (.inr hcloser), rfl,
        .inl ⟨rfl, ⟨hc, Nat.le_refl _⟩, hcloser, rfl⟩⟩
    have hopen : ∀ k ∈ closers, c.peek.token ≠ .keyword k := fun k hk heq => hcloser ⟨k, hk, heq⟩
    cases budget with
    | nil => exact absurd hc.length_pos (Nat.not_lt.mpr hbudget)
    | cons t budget =>
      rw [declarations_step (hpeek ▸ hc.more) (hpeek ▸ hopen)] at h
      rw [declarations_step hc.more hopen]
      obtain ⟨_, u, hd, hu, h⟩ := bind_silent h hs
      obtain ⟨n, hn⟩ := Nat.exists_eq_add_one.mpr hc.length_pos
      rcases hstatement n blocks c () u ⟨hc, Nat.le_of_eq hn⟩ (declaration_eq_ok hd hu) hu with
        ⟨c1, rfl, hc1, ⟨hline, hlength⟩, hfinish, hahead⟩ | ⟨d, c1, hc1, hout⟩
      · rw [hn, List.length_cons, Nat.add_le_add_iff_right] at hbudget hbudget'
        obtain ⟨c', hrun, hfinish', hend⟩ :=
          ih hline (hlength.trans hbudget) (hlength.trans hbudget') h
        have hdeclared : declaration statement c = .ok () c1 := by
          simp only [declaration, tryCatch, tryCatchThe, MonadExceptOf.tryCatch, EStateM.tryCatch, hc1]
        refine ⟨c', bind_eq_ok.mpr ⟨_, c1, hdeclared, hrun⟩, hfinish'.trans hfinish, ?_⟩
        rw [hahead, hfinish] at hend
        rcases hend with ⟨hb', ⟨hmid, hshort⟩, hrest⟩ | hover
        · exact .inl ⟨hb', ⟨hmid, hshort.trans (hlength.trans (by omega))⟩, hrest⟩
        · exact .inr hover
      · refine ⟨_, bind_eq_ok.mpr ⟨_, _, declaration_runs_out hc1 hout.rest,
          declarations_stop (.inl ?_)⟩, hout.finish, .inr ⟨hout.rest, ?_⟩⟩
        · exact congrArg Located.token (peek_of_rest hout.rest)
        · obtain ⟨inner, hahead, hreports⟩ := hout.reports
          exact ⟨inner, hahead, by rw [← hreports, Array.toList_push]⟩

/-- The statements of a block and what is done with them in the end. -/
theorem Cuts.declarations {n : Nat} {k : Block} {blocks : List Block} {rest : Compile α}
    [Keeps Builder.Reports rest] {Q : Builder → Prop} {after : α → List Block}
    (hfits : Cuts tail finish
      (fun c => MidLine n c ∧ ∃ closer ∈ closers, c.peek.token = .keyword closer) (k :: blocks) rest Q
      after blocks)
    (hout : ∀ c, c.rest = [] → ∃ c', rest c = .error (k.unclosed c.finish) c' ∧ c'.rest = [] ∧
      c'.finish = c.finish ∧ c'.diagnostics = c.diagnostics) :
    Cuts tail finish (LineStart n) (k :: blocks)
      (do Compile.declarations statement closers (← get).rest; rest) Q after blocks := by
  intro c a b' hc h hs
  obtain ⟨_, t, ht, hst, h⟩ := bind_silent (x := Compile.declarations statement closers _) h hs
  have hruns {b : Builder} {r : α} (c1 : Builder)
      (hc1 : Compile.declarations statement closers c.rest c = .ok () c1) (h : rest c1 = .ok r b) :
      (do Compile.declarations statement closers (← get).rest; rest) c = .ok r b :=
    bind_eq_ok.mpr ⟨c, c, rfl, bind_eq_ok.mpr ⟨(), c1, hc1, h⟩⟩
  have hfails {b : Builder} {d : Diagnostic} (c1 : Builder)
      (hc1 : Compile.declarations statement closers c.rest c = .ok () c1) (h : rest c1 = .error d b) :
      (do Compile.declarations statement closers (← get).rest; rest) c = .error d b :=
    bind_eq_error.mpr (.inr ⟨c, c, rfl, bind_eq_error.mpr (.inr ⟨(), c1, hc1, h⟩)⟩)
  obtain ⟨c1, hc1, hfinish, ⟨rfl, ⟨hlined, hlength⟩, hcloser, hahead⟩ | ⟨hnone, inner, hahead, hreports⟩⟩ :=
    declarations_cut hstatement (k :: blocks) c.rest hc.1
      (by simp [Builder.resume]) (Nat.le_refl _) ht hst
  · rcases hfits c1 a b' ⟨⟨hlined, hlength.trans hc.2⟩, hcloser⟩ h hs with
      ⟨c', hb', hc', hq, hfinish', hahead'⟩ | ⟨d, c', hc', hout⟩
    · exact .inl ⟨c', hb', hruns c1 hc1 hc', hq, hfinish'.trans hfinish,
        hahead'.trans hahead⟩
    · exact .inr ⟨d, c', hfails c1 hc1 hc', hout.of_ahead hahead hfinish⟩
  · obtain ⟨c', hc', hrest', hfinish', hdiagnostics⟩ := hout c1 hnone
    refine .inr ⟨_, c', hfails c1 hc1 hc', hrest', hfinish'.trans hfinish,
      inner++[k], by simp [hahead], ?_⟩
    rw [hdiagnostics, hreports, hfinish]
    simp

/-- A block that is cut asks for its closer. -/
theorem block_cuts {n : Nat} {k : Block} {blocks : List Block}
    (hk : closers.getLastD k.opener = k.closer) :
    Cuts tail finish (LineStart n) (k :: blocks) (block statement k.opener closers) (MidLine n)
      (fun _ => k :: blocks) blocks := by
  unfold block
  rw [hk]
  refine (Cuts.of_blind beginScope).bind fun _ => ?_
  refine Cuts.declarations hstatement ?_ fun c hc => ?_
  · exact (Cuts.inner fun _ => Cuts.of_inner _).mono (fun _ h => h.1) fun _ h => h
  · exact ⟨after endScope c, bind_eq_error.mpr (.inr ⟨(), after endScope c, rfl,
      complain_unclosed k.opener k.closer hc⟩), hc, rfl, rfl⟩

section
variable {expression : Compile Unit} [Inner tail finish expression] {n : Nat} {blocks : List Block}

theorem ifStatement_cuts :
    Cuts tail finish (MidLine (n+1)) (.if_ :: blocks) (ifStatement expression statement)
      (LineStart n) (fun _ => blocks) blocks := by
  have hclose (k : Block) (hk : Block.behind (k :: blocks) (.keyword .endIf) = blocks) (toEnd : Nat) :
      Cuts tail finish (MidLine n) (k :: blocks) (do
        consume (.keyword .endIf) "'endif'"
        patchJump toEnd
        endOfLine) (LineStart n) (fun _ => blocks) blocks := by
    refine Cuts.consume.bind fun _ => ?_
    rw [hk]
    exact Cuts.inner fun _ => Cuts.endOfLine
  unfold ifStatement
  refine Cuts.inner fun _ => ?_
  refine Cuts.inner fun _ => Cuts.endOfLine_short.bind fun _ => ?_
  refine (Cuts.of_blind (emitJump _)).bind fun toElse => (Cuts.of_blind (emit _)).bind fun _ => ?_
  refine (block_cuts hstatement (k := .if_) rfl).bind fun _ => ?_
  refine Cuts.inner fun toEnd => Cuts.inner fun _ => ?_
  refine Cuts.inner fun _ => Cuts.accept.bind fun more => ?_
  cases more with
  | true =>
    refine Cuts.inner fun _ => Cuts.endOfLine.bind fun _ => ?_
    exact (block_cuts hstatement (k := .else_) rfl).bind fun _ => hclose .else_ rfl toEnd
  | false => exact hclose .if_ rfl toEnd

theorem whileStatement_cuts :
    Cuts tail finish (MidLine (n+1)) (.while_ :: blocks) (whileStatement expression statement)
      (LineStart n) (fun _ => blocks) blocks := by
  unfold whileStatement
  refine Cuts.inner fun start => Cuts.inner fun _ => ?_
  refine Cuts.inner fun _ => Cuts.inner fun toEnd => ?_
  refine Cuts.inner fun _ => Cuts.endOfLine_short.bind fun _ => ?_
  refine (block_cuts hstatement (k := .while_) rfl).bind fun _ => Cuts.consume.bind fun _ => ?_
  refine Cuts.inner fun _ => Cuts.inner fun _ => ?_
  exact Cuts.inner fun _ => Cuts.endOfLine

theorem repeatBody_cuts :
    Cuts tail finish (LineStart n) (.repeat_ :: blocks) (repeatBody statement) (MidLine n)
      (fun _ => .repeat_ :: blocks) blocks := by
  have hblock : Cuts tail finish (LineStart n) (.repeat_ :: blocks)
      (block statement .repeat_ [.endRepeat]) (MidLine n) (fun _ => .repeat_ :: blocks) blocks :=
    block_cuts hstatement rfl
  have hkeeps : Keeps Builder.Reports (tryFinally (block statement .repeat_ [.endRepeat])
      (modify fun b : Builder => {b with locals := b.locals.drop 1, depth := b.depth-1})) :=
    Keeps.tryFinally inferInstance (keeps_modify fun _ => rfl)
  refine .get_bind (fun _ => rfl) fun c _ => .ite (fun _ => ?_) fun _ => hblock
  refine (Cuts.of_blind last).bind fun t => (Cuts.of_blind beginScope).bind fun _ => ?_
  exact (Cuts.of_blind (addLocal none t)).bind fun _ =>
    hblock.tryFinally (fun _ => rfl) fun _ => ⟨rfl, rfl, rfl⟩

theorem repeatStatement_cuts :
    Cuts tail finish (MidLine (n+1)) (.repeat_ :: blocks) (repeatStatement expression statement)
      (LineStart n) (fun _ => blocks) blocks := by
  unfold repeatStatement
  refine Cuts.inner fun _ => Cuts.inner fun _ => ?_
  refine Cuts.inner fun _ => Cuts.endOfLine_short.bind fun _ => ?_
  refine (Cuts.of_blind offset).bind fun start => (repeatBody_cuts hstatement).bind fun _ => ?_
  refine Cuts.consume.bind fun _ => Cuts.inner fun _ => ?_
  exact Cuts.inner fun _ => Cuts.endOfLine

end

omit [Keeps Builder.Reports statement] hstatement in
instance blind_addLocals (params : List (String × Located)) :
    Blind tail finish (params.forM fun (name, t) => addLocal (some name) t : Compile PUnit) := by
  induction params with
  | nil => simp only [List.forM]; infer_instance
  | cons x params ih => simp only [List.forM]; infer_instance

/-- The body of a runnable, from the end of its header to its closer. -/
theorem runnableBody_cuts {params : List (String × Located)} {n : Nat} {blocks : List Block} :
    Cuts tail finish (MidLine (n+1)) (.runnable :: blocks) (runnableBody statement params) (MidLine n)
      (fun _ => blocks) blocks := by
  unfold runnableBody
  refine Cuts.inner fun _ => Cuts.endOfLine_short.bind fun _ => ?_
  refine Cuts.declarations hstatement ?_ fun c hc => ?_
  · refine .more (fun c hc => hc.1.1) ?_
    refine (Cuts.advance (k := .endRunnable)).mono (fun c hc => ⟨hc.1, ?_⟩) (fun _ h => h) |>.bind
      fun _ => Cuts.inner fun _ => Cuts.of_inner (emit _)
    obtain ⟨closer, hcloser, hpeek⟩ := hc.2
    cases List.mem_singleton.mp hcloser
    exact hpeek
  · refine ⟨c, ?_, hc, rfl, rfl⟩
    have hpeek := peek_of_rest hc
    refine (congrFun (if_pos ?_) c).trans ?_
    · rw [hpeek]
      rfl
    · change EStateM.Result.error
        (⟨.unclosed .runnable .endRunnable, c.peek.pos, c.peek.token.spelling⟩ : Diagnostic) c = _
      rw [hpeek]
      rfl

omit [Keeps Builder.Reports statement] hstatement in
theorem inFunction_cuts {id n m : Nat} {body : Compile Unit} [Keeps Builder.Reports body]
    {blocks base : List Block} {after : Unit → List Block}
    (hbody : Cuts tail finish (MidLine n) blocks body (MidLine m) after base) :
    Cuts tail finish (MidLine n) blocks (inFunction id body) (MidLine m) after base := by
  unfold inFunction
  refine .get_bind (fun _ => rfl) fun c _ => .get_bind (fun _ => rfl) fun c' _ =>
    .get_bind (fun _ => rfl) fun c'' _ => ?_
  have henter : Blind tail finish (modify fun b : Builder =>
      {b with current := id, depth := 1, locals := []} : Compile Unit) :=
    .modify (fun _ => rfl) fun _ => ⟨rfl, rfl⟩
  have hleave : Keeps Builder.Reports (tryFinally body (modify fun b : Builder =>
      {b with current := c.current, depth := c'.depth, locals := c''.locals})) :=
    Keeps.tryFinally inferInstance (keeps_modify fun _ => rfl)
  exact Cuts.inner fun _ => hbody.tryFinally (fun _ => rfl) fun _ => ⟨rfl, rfl, rfl⟩

theorem runnableDeclaration_cuts {n : Nat} {blocks : List Block} :
    Cuts tail finish (MidLine (n+1)) (.runnable :: blocks) (runnableDeclaration statement)
      (LineStart n) (fun _ => blocks) blocks := by
  unfold runnableDeclaration
  refine .get_bind (fun _ => rfl) fun c _ => .ite (fun _ => ?_) fun _ => ?_
  · exact .inner fun _ => .of_complain
  refine .inner fun name => .inner fun t => ?_
  refine .get_bind (fun _ => rfl) fun c' _ => .ite (fun _ => .of_complain) fun _ => ?_
  refine .inner fun params => .inner fun _ => .get_bind (fun _ => rfl) fun b _ => ?_
  have hpush : Blind tail finish (modify fun b : Builder =>
      {b with functions := b.functions.push (.new name (some b.current) params.size)} : Compile Unit) :=
    .modify (fun _ => rfl) fun _ => ⟨rfl, rfl⟩
  have hlines (id : Nat) (lines : UInt16) : Blind tail finish (modify fun b : Builder =>
      b.modifyFunction id fun f => {f with lineCount := lines} : Compile Unit) :=
    .modify (fun _ => rfl) fun _ => ⟨rfl, rfl⟩
  have hkeeps (id : Nat) (lines : UInt16) : Keeps Builder.Reports (modify fun b : Builder =>
      b.modifyFunction id fun f => {f with lineCount := lines} : Compile Unit) :=
    keeps_modify fun _ => rfl
  refine .inner fun _ => (inFunction_cuts (runnableBody_cuts hstatement)).seq (fun _ => ?_) fun _ => ?_
  · refine Keeps.seq inferInstance fun b => ?_
    dsimp only
    split <;> infer_instance
  · refine .get_bind (fun _ => rfl) fun b _ => ?_
    dsimp only
    split
    · exact .of_fails fun _ _ _ h => throw_ne_ok h
    · exact .inner fun _ => .inner fun _ => .inner fun _ => Cuts.endOfLine

end
end

theorem statement_splits {expression inner : Compile Unit} [Keeps Builder.Reports expression]
    [Keeps Builder.Reports inner] [Inner tail finish expression] (hinner : Splits tail finish inner) :
    Splits tail finish (statement expression inner) := by
  intro n blocks
  have hopens {k : Keyword} {t : Located} (ht : t.token = .keyword k) {x : Compile Unit}
      [Keeps Builder.Reports x] (hx : Cuts tail finish (MidLine (n+1))
        (Block.behind blocks (.keyword k)) x (LineStart n) (fun _ => blocks) blocks) :
      Cuts tail finish (fun c => MidLine (n+1) c ∧ c.peek.token = t.token) blocks (do advance; x)
        (LineStart n) (fun _ => blocks) blocks := by
    rw [ht]
    exact Cuts.advance.bind fun _ => hx
  have hends {t : Located} (x : Compile Unit) [hx : Ends tail finish x] :
      Cuts tail finish (fun c => MidLine (n+1) c ∧ c.peek.token = t.token) blocks x (LineStart n)
        (fun _ => blocks) blocks :=
    (hx.cuts n blocks blocks).mono (fun _ h => h.1) fun _ h => h
  refine .peek fun t => ?_
  split
  · next ht => exact ht ▸ .newline
  · next ht => exact hopens ht (Ends.cuts n blocks blocks)
  · next ht => exact hopens ht (runnableDeclaration_cuts hinner)
  · next ht => exact hopens ht (ifStatement_cuts hinner)
  · next ht => exact hopens ht (whileStatement_cuts hinner)
  · next ht => exact hopens ht (repeatStatement_cuts hinner)
  · next ht => exact hopens ht (Ends.cuts n blocks blocks)
  · exact .ite (fun _ => .of_fails fun _ _ _ h => throw_ne_ok h) fun _ => hends _
  · exact hends _

/-- Statements of any nesting report the blocks that are open in them where the tokens run out. -/
theorem statementAt_splits (levels : Nat) : Splits tail finish (statementAt levels) := by
  induction levels with
  | zero => exact fun _ _ => .inner fun _ => .of_fails fun _ _ _ h => throw_ne_ok h
  | succ levels ih => exact statement_splits ih

end Compile
end RatScript
