import RatScript.Proofs.Compile.Runnable

/-!
Whatever the compiler accepts passes the check, and the paths through the script end at its end, with
an empty stack.
-/

set_option synthInstance.maxSize 65536

namespace RatScript

open Stateful

theorem Executes.bind_still {α : Type} {x : Compile α} [Keeps Builder.Still x]
    {f : α → Compile Unit} (hf : ∀ a, Executes (f a)) : Executes (x >>= f) := by
  intro b b' hb hscoped h hs
  obtain ⟨a, t, hx, h⟩ := bind_eq_ok.mp h
  have hlays := (Compile.still_of_ok hx).lays hb
  obtain ⟨c, new, hc⟩ := hf a t b' hlays.ready (hlays.scope hscoped) h hs
  exact ⟨_, _, (Builder.Emits.nil hlays 0).covers.runs.seq hc hb⟩

namespace Compile

theorem complain_executes (t : Located) (c : Complaint) : Executes (complain t c) :=
  fun _ _ _ _ h _ => absurd h throw_ne_ok

theorem statement_executes {expression inner : Compile Unit} [Keeps Builder.Reports inner]
    (hexpression : Compiles expression 0 1) (hinner : Executes inner) :
    Executes (statement expression inner) := by
  refine .bind_still fun t => ?_
  split
  · exact .bind_still fun _ => Compiles.executes (.emit rfl rfl (by simp) (Nat.zero_le 0))
  · exact .bind_still fun _ => varDeclaration_executes hexpression
  · exact .bind_still fun _ => runnableDeclaration_executes hinner
  · exact .bind_still fun _ => ifStatement_executes hexpression hinner
  · exact .bind_still fun _ => whileStatement_executes hexpression hinner
  · exact .bind_still fun _ => repeatStatement_executes hexpression hinner
  · exact .bind_still fun _ => returnStatement_executes hexpression
  · split
    · exact complain_executes _ _
    · exact expressionStatement_executes hexpression
  · exact expressionStatement_executes hexpression

/-- Statements of any nesting keep to the heights between statements. -/
theorem statementAt_executes (levels : Nat) : Executes (statementAt levels) := by
  induction levels with
  | zero => exact .bind_still fun t => complain_executes t _
  | succ levels ih => exact statement_executes (operandAt_compiles levels .assign) ih

theorem peek_bind {α : Type} (f : Located → Compile α) (b : Builder) :
    (peek >>= f) b = f b.peek b := rfl

theorem declaration_ok (statement : Compile Unit) (b : Builder) :
    ∃ b', declaration statement b = .ok () b' := by
  simp only [declaration, tryCatch, tryCatchThe, MonadExceptOf.tryCatch, EStateM.tryCatch]
  cases statement b with
  | ok _ t => exact ⟨t, rfl⟩
  | error d t => exact ⟨_, rfl⟩

/-- A list of declarations never fails: each failure is reported and passed over. -/
theorem declarations_ok (statement : Compile Unit) (closers : List Keyword)
    (budget : List Located) (b : Builder) :
    ∃ b', declarations statement closers budget b = .ok () b' := by
  induction budget generalizing b with
  | nil => exact ⟨b, rfl⟩
  | cons token budget ih =>
    have hstep : ∃ b', (declaration statement >>= fun _ =>
        declarations statement closers budget) b = .ok () b' := by
      obtain ⟨t, ht⟩ := declaration_ok statement b
      obtain ⟨b', hb'⟩ := ih t
      exact ⟨b', bind_eq_ok.mpr ⟨_, t, ht, hb'⟩⟩
    rw [declarations, peek_bind]
    generalize b.peek.token = first
    split
    · exact ⟨b, rfl⟩
    · split
      · exact ⟨b, rfl⟩
      · exact hstep
    · exact hstep

end Compile

theorem Builder.ready_start (tokens : List Located) : (start tokens).Ready :=
  ⟨Nat.one_pos, Nat.zero_le _, rfl, by
    intro id f hf callee hcallee
    obtain ⟨_, rfl⟩ := Array.getElem?_eq_some_iff.mp hf
    simp [start, Function.new, Chunk.empty] at hcallee⟩

/-- Accepted tokens are compiled without a report, from the empty script on. -/
theorem compileTokens_eq_ok {tokens : List Located} {p : Program}
    (h : compileTokens tokens = .ok p) :
    ∃ b c, (Builder.start tokens).Covers b c 0 0 ∧ p = b.program := by
  obtain ⟨b, hb⟩ := Compile.declarations_ok (Compile.statementAt maxNesting) []
    (Builder.start tokens).rest (.start tokens)
  have hscript : Compile.script (.start tokens) = .ok () b := hb
  simp only [compileTokens, hscript] at h
  split at h
  · next hempty =>
    cases h
    have hsilent : b.diagnostics = #[] := by simpa using hempty
    obtain ⟨c, new, hc⟩ := Compile.declarations_runs (Compile.statementAt_executes maxNesting)
      (Builder.ready_start tokens) (by simp [Builder.Scoped, Builder.start]) hb hsilent
    cases hc.script rfl
    exact ⟨b, c, hc.covers, rfl⟩
  · cases h

namespace Program

theorem verifyFrom_ok {p : Program} {fs : List Function} {id : Nat}
    (h : ∀ n f, fs[n]? = some f → ∃ hs, p.heights (id+n) f = .ok hs) :
    p.verifyFrom id fs = .ok () := by
  induction fs generalizing id with
  | nil => rfl
  | cons f fs ih =>
    obtain ⟨hs, hf⟩ := h 0 f rfl
    rw [Nat.add_zero] at hf
    rw [verifyFrom, hf]
    apply ih
    intro n g hg
    obtain ⟨hs, hn⟩ := h (n+1) g hg
    exact ⟨hs, by rw [show id+1+n = id+(n+1) by omega]; exact hn⟩

end Program

/-- A program written from the empty script on passes, and its script ends empty. -/
theorem Builder.Covers.verify {tokens : List Located} {b : Builder} {c : Phrase}
    (h : (start tokens).Covers b c 0 0) :
    b.program.verify = .ok () ∧ ∃ script, b.program.functions[0]? = some script ∧
      ∀ x, (b.program.surveyOf script).Ends x ↔ x = (script.chunk.code.size, 0) := by
  have hfirst : b.functions[0]? = some b.function := by
    have hcurrent : b.current = 0 := h.current
    rw [← hcurrent]
    exact h.ready.here
  have hgrows := (h.toGrows (ready_start tokens)).function
  have harity : b.function.arity = 0 := hgrows.arity
  have hscript : b.function.isScript = true := hgrows.isScript
  have htakes : c.Takes b.program b.function b.function.arity 0 := by
    rw [harity]
    exact h.takes 0 nofun
  obtain ⟨hheights, hends⟩ := Program.heights_script h.code hscript htakes
  refine ⟨?_, b.function, hfirst, hends⟩
  have hall (n : Nat) (f : Function) (hf : b.functions[n]? = some f) :
      ∃ hs, b.program.heights n f = .ok hs := by
    cases n with
    | zero =>
      rw [hfirst] at hf
      cases hf
      exact hheights
    | succ n =>
      obtain ⟨⟨parent, hparent, hlt⟩, _, _, d, k, hcode, hd⟩ :=
        h.fresh (n+1) f (Nat.succ_le_succ (Nat.zero_le n)) hf
      exact Program.heights_runnable hcode (by simp [Program.checkEnclosing, hparent, hlt]) hd
  have hverify : b.program.verifyFrom 0 b.functions.toList = .ok () := by
    apply Program.verifyFrom_ok
    intro n f hf
    rw [Nat.zero_add]
    exact hall n f (by simpa using hf)
  rw [Program.verify]
  simp only [Builder.program] at hverify ⊢
  rw [hfirst]
  simp only [hscript]
  exact hverify

theorem compile_eq_ok {source : String} {p : Program} (h : compile source = .ok p) :
    ∃ tokens, compileTokens tokens = .ok p := by
  unfold compile at h
  split at h
  · cases h
  · exact ⟨_, h⟩

/-- Every program that compilation gives, from tokens or from a text, passes the check; and the paths
that the check follows through its script end at the end of the script with an empty stack, and
nowhere else. -/
theorem compiled_verifies (p : Program)
    (h : (∃ tokens, compileTokens tokens = .ok p) ∨ ∃ source, compile source = .ok p) :
    p.verify = .ok () ∧ ∃ script, p.functions[0]? = some script ∧
      ∀ x, (p.surveyOf script).Ends x ↔ x = (script.chunk.code.size, 0) := by
  have htokens : ∃ tokens, compileTokens tokens = .ok p := by
    rcases h with h | ⟨source, h⟩
    · exact h
    · exact compile_eq_ok h
  obtain ⟨tokens, h⟩ := htokens
  obtain ⟨b, c, hc, rfl⟩ := compileTokens_eq_ok h
  exact hc.verify

/-- A runnable in a block of the script, with a counted loop, a local and a return inside. -/
def nestedTokens : List Located :=
  [.keyword .if_, .keyword .litTrue, .symbol .colon, .newline,
    .keyword .runnable, .name "f", .symbol .leftParen, .name "x", .symbol .rightParen,
    .symbol .colon, .newline, .keyword .repeat_, .name "x", .symbol .colon, .newline,
    .keyword .declare, .name "y", .symbol .assign, .name "x", .keyword .and, .keyword .litTrue,
    .newline, .keyword .return_, .name "y", .newline, .keyword .endRepeat, .newline,
    .keyword .endRunnable, .newline, .keyword .endIf, .newline].map (⟨·, .start⟩)

theorem compiled_verifies_nested :
    ∃ p, compileTokens nestedTokens = .ok p ∧ p.functions.size = 2 ∧
      p.verify = .ok () ∧ ∃ script, p.functions[0]? = some script ∧
        ∀ x, (p.surveyOf script).Ends x ↔ x = (script.chunk.code.size, 0) := by
  have hsize : (compileTokens nestedTokens).toOption.map (·.functions.size) = some 2 := by
    decide +kernel
  cases h : compileTokens nestedTokens with
  | error ds => simp [h, Except.toOption] at hsize
  | ok p =>
    refine ⟨p, rfl, by simpa [h, Except.toOption] using hsize, ?_⟩
    exact compiled_verifies p (.inl ⟨nestedTokens, h⟩)

end RatScript
