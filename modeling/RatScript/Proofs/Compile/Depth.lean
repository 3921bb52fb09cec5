import RatScript.Proofs.Stateful
import RatScript.Compile.Statement

/-!
Nesting too deep means nesting. Each level of blocks and subexpressions reads a token of its own,
but for a statement that is an expression. Only where the tokens are over a level reads nothing: an
operand that is missing there is looked for in the token read last, so an operator or parenthesis
at the very end is read over and over until no level is left.
-/

set_option synthInstance.maxSize 65536

namespace RatScript

open Stateful

/-- Whether a token can begin a block, a statement of its own or an operand. -/
def Token.begins : Token → Bool
  | .keyword .if_ | .keyword .while_ | .keyword .repeat_ | .keyword .runnable => true
  | .symbol .leftParen | .symbol (.operator .sub) | .symbol .not | .symbol .complement => true
  | .number _ | .text _ | .name _ => true
  | .keyword .litTrue | .keyword .litFalse | .keyword .litNone => true
  | _ => false

/-- Whether an operand that begins with the token has an operand right behind it. -/
def Token.restarts : Token → Bool
  | .symbol .leftParen | .symbol (.operator .sub) | .symbol .not | .symbol .complement => true
  | _ => false

namespace Compile

/-- Complaints that are not about nesting. -/
class Shallow (c : Complaint) : Prop where
  shallow : c ≠ .tooDeep

instance (what : String) : Shallow (.expected what) := ⟨nofun⟩

instance (k : Keyword) : Shallow (.strayCloser k) := ⟨nofun⟩

instance : Shallow .assignmentTarget := ⟨nofun⟩

instance : Shallow .returnFromScript := ⟨nofun⟩

instance (opener closer : Keyword) : Shallow (.unclosed opener closer) := ⟨nofun⟩

instance (fault : PoolFault) : Shallow (.pool fault) := ⟨nofun⟩

instance (name : String) : Shallow (.redeclaredLocal name) := ⟨nofun⟩

instance (name : String) : Shallow (.redeclaredRunnable name) := ⟨nofun⟩

instance (name : String) : Shallow (.duplicateParameter name) := ⟨nofun⟩

instance (name : String) : Shallow (.undeclaredRunnable name) := ⟨nofun⟩

instance (name : String) (arity count : Nat) : Shallow (.argumentCount name arity count) := ⟨nofun⟩

instance : Shallow .nestedRunnable := ⟨nofun⟩

instance : Shallow .jumpTooLong := ⟨nofun⟩

instance : Shallow .loopTooLong := ⟨nofun⟩

instance : Shallow .bodyTooLong := ⟨nofun⟩

instance : Shallow .tooManyLocals := ⟨nofun⟩

variable {α β : Type}

/-- From a state with `P` the step comes to another with `P`, or it fails for a reason with `E`. -/
class Answers (P : Builder → Prop) (E : Diagnostic → Prop) (x : Compile α) : Prop where
  yields : Yields P x (fun _ => P) fun d b => E d ∧ P b

section
variable {P : Builder → Prop} {E : Diagnostic → Prop}

namespace Answers

theorem seq {x : Compile α} {f : α → Compile β} (hx : Answers P E x) (hf : ∀ a, Answers P E (f a)) :
    Answers P E (x >>= f) :=
  ⟨Yields.bind hx.yields fun a => (hf a).yields⟩

instance (x : Compile α) (f : α → Compile β) [Answers P E x] [∀ a, Answers P E (f a)] :
    Answers P E (x >>= f) :=
  seq inferInstance inferInstance

instance (a : α) : Answers P E (pure a : Compile α) := ⟨Yields.pure fun _ h => h⟩

instance : Answers P E (get : Compile Builder) := ⟨fun _ h => h⟩

instance (p : Prop) [Decidable p] (x y : Compile α) [Answers P E x] [Answers P E y] :
    Answers P E (if p then x else y) := by
  split <;> assumption

theorem update {f : Builder → Builder} (h : ∀ b, P b → P (f b)) :
    Answers P E (modify f : Compile Unit) :=
  ⟨Yields.modify h⟩

theorem get_bind {f : Builder → Compile α}
    (h : ∀ b, P b → Yields (· = b) (f b) (fun _ => P) fun d b => E d ∧ P b) :
    Answers P E (get >>= f) :=
  ⟨Yields.get_bind h⟩

/-- What comes after the state is replaced. -/
theorem set_bind {b b' : Builder} {f : Unit → Compile α} (h : P b') (hf : Answers P E (f ⟨⟩)) :
    Yields (· = b) (set b' >>= f) (fun _ => P) fun d b => E d ∧ P b :=
  fun _ _ => hf.yields b' h

theorem tryFinally {x : Compile α} {f : Builder → Builder} (hx : Answers P E x)
    (hf : ∀ b, P b → P (f b)) : Answers P E (tryFinally x (modify f : Compile Unit)) where
  yields b hb := by
    have h := hx.yields b hb
    rw [tryFinally_eq]
    cases hs : x b with
    | ok a c =>
      rw [hs] at h
      exact hf c h
    | error d c =>
      rw [hs] at h
      exact ⟨h.1, hf c h.2⟩

end Answers

/-- Reasons that are excluded for complaints about nesting only. -/
class Tolerant (E : Diagnostic → Prop) : Prop where
  tolerates : ∀ d, d.complaint ≠ .tooDeep → E d

variable [Tolerant E]

instance (t : Located) (c : Complaint) [h : Shallow c] : Answers P E (complain t c : Compile α) :=
  ⟨Yields.throw fun _ hp => ⟨Tolerant.tolerates _ h.shallow, hp⟩⟩

instance : Answers P E peek := by dsimp only [peek]; infer_instance

instance : Answers P E last := by dsimp only [last]; infer_instance

instance (token : Token) : Answers P E (check token) := by dsimp only [check]; infer_instance

instance : Answers P E offset := by dsimp only [offset]; infer_instance

section
variable [Answers P E advance]

instance (token : Token) : Answers P E (accept token) := by dsimp only [accept]; infer_instance

instance (token : Token) (what : String) : Answers P E (consume token what) := by
  dsimp only [consume]; infer_instance

instance (what : String) : Answers P E (consumeName what) := by
  unfold consumeName
  refine .seq inferInstance fun t => ?_
  split <;> infer_instance

instance (what : String) : Answers P E (header what) := by dsimp only [header]; infer_instance

instance (budget : List Located) (found : Array (String × Located)) :
    Answers P E (parameters budget found) := by
  induction budget generalizing found with
  | nil => dsimp only [parameters]; infer_instance
  | cons t budget ih => dsimp only [parameters]; infer_instance

instance : Answers P E parameterList := by dsimp only [parameterList]; infer_instance

end

/-- The same tokens and reports, whatever code was written meanwhile. -/
structure SameText (b b' : Builder) : Prop where
  last : b'.last = b.last
  rest : b'.rest = b.rest
  finish : b'.finish = b.finish
  reports : b'.diagnostics = b.diagnostics

/-- What is known of a state depends on its tokens and reports alone. -/
class Textual (P : Builder → Prop) : Prop where
  same : ∀ b b', SameText b b' → P b → P b'

/-- A state stays as it is known to be when a failure is reported and its line passed over. -/
class Recovers (P : Builder → Prop) (E : Diagnostic → Prop) : Prop where
  recovers : ∀ d b, E d → P b → P {b with
    last := (skipLine b.last b.rest).1
    rest := (skipLine b.last b.rest).2
    diagnostics := b.diagnostics.push d}

section
variable [Textual P]

omit [Tolerant E] in
theorem Answers.textual {f : Builder → Builder} (h : ∀ b, SameText b (f b)) :
    Answers P E (modify f : Compile Unit) :=
  .update fun b => Textual.same b (f b) (h b)

instance (bytes : List UInt8) : Answers P E (emitBytes bytes) :=
  .textual fun _ => ⟨rfl, rfl, rfl, rfl⟩

instance (add : Chunk → Except PoolFault (Chunk × UInt8)) : Answers P E (enter add) :=
  .get_bind fun b hb => by
    cases add b.chunk with
    | ok r => exact Answers.set_bind (Textual.same b _ ⟨rfl, rfl, rfl, rfl⟩ hb) inferInstance
    | error fault => exact Yields.start hb (Answers.yields (P := P))

instance (at_ : Nat) : Answers P E (patchJump at_) := by
  unfold patchJump
  refine .seq inferInstance fun n => ?_
  split
  · exact .textual fun _ => ⟨rfl, rfl, rfl, rfl⟩
  · infer_instance

instance (name : Option String) (t : Located) : Answers P E (addLocal name t) := by
  unfold addLocal
  refine .seq inferInstance fun b => ?_
  split
  · exact .textual fun _ => ⟨rfl, rfl, rfl, rfl⟩
  · infer_instance

instance : Answers P E beginScope := .textual fun _ => ⟨rfl, rfl, rfl, rfl⟩

instance (op : Opcode) : Answers P E (emit op) := by dsimp only [emit]; infer_instance

instance (op : Opcode) (operand : UInt8) : Answers P E (emitWith op operand) := by
  dsimp only [emitWith]; infer_instance

instance (op : Opcode) : Answers P E (emitJump op) := by dsimp only [emitJump]; infer_instance

instance (start : Nat) : Answers P E (emitLoop start) := by
  unfold emitLoop
  refine .seq inferInstance fun _ => .seq inferInstance fun n => ?_
  split <;> infer_instance

instance : Answers P E endScope :=
  .get_bind fun b hb => Answers.set_bind (Textual.same b _ ⟨rfl, rfl, rfl, rfl⟩ hb) inferInstance

instance (content : String) : Answers P E (textConstant content) := by
  dsimp only [textConstant]; infer_instance

instance (name : String) : Answers P E (resolve name) := by
  unfold resolve
  refine .seq inferInstance fun b => ?_
  split <;> infer_instance

section
variable [Answers P E advance]

instance : Answers P E endOfLine := by dsimp only [endOfLine]; infer_instance

section
variable (inner : Precedence → Compile Unit) [∀ p, Answers P E (inner p)]

instance (budget : List Located) (n : Nat) : Answers P E (arguments inner budget n) := by
  induction budget generalizing n with
  | nil => dsimp only [arguments]; infer_instance
  | cons t budget ih => dsimp only [arguments]; infer_instance

instance (t : Located) (name : String) (arity : Nat) :
    Answers P E (callWith inner t name arity) := by
  dsimp only [callWith]; infer_instance

instance (t : Located) (name : String) : Answers P E (call inner t name) := by
  unfold call
  refine .seq inferInstance fun b => ?_
  split
  · infer_instance
  · split <;> infer_instance

instance (t : Located) (name : String) (canAssign : Bool) :
    Answers P E (variable_ inner t name canAssign) := by
  unfold variable_
  refine .seq inferInstance fun paren => ?_
  split
  · infer_instance
  · refine .seq inferInstance fun v => .seq inferInstance fun t => ?_
    split <;> infer_instance

instance (t : Located) (canAssign : Bool) : Answers P E (leading inner t canAssign) := by
  unfold leading
  split <;> infer_instance

instance (i : Infix) : Answers P E (joined inner i) := by
  unfold joined
  split <;> infer_instance

instance (p : Precedence) (budget : List Located) : Answers P E (following inner p budget) := by
  induction budget with
  | nil => dsimp only [following]; infer_instance
  | cons t budget ih =>
    unfold following
    refine .seq inferInstance fun t => ?_
    split <;> infer_instance

instance (p : Precedence) : Answers P E (operand inner p) := by dsimp only [operand]; infer_instance

end

section
variable (expression statement : Compile Unit) [Answers P E expression] [Answers P E statement]

instance : Answers P E (expressionStatement expression) := by
  dsimp only [expressionStatement]; infer_instance

instance : Answers P E (varDeclaration expression) := by dsimp only [varDeclaration]; infer_instance

instance : Answers P E (returnStatement expression) := by
  dsimp only [returnStatement]; infer_instance

variable [Recovers P E]

/-- A statement that fails is reported and passed over. -/
instance : Answers P E (declaration statement) where
  yields b hb := by
    have h := (inferInstance : Answers P E statement).yields b hb
    simp only [declaration, tryCatch, tryCatchThe, MonadExceptOf.tryCatch, EStateM.tryCatch]
    cases hs : statement b with
    | ok a c =>
      rw [hs] at h
      exact h
    | error d c =>
      rw [hs] at h
      exact Recovers.recovers d c h.1 h.2

instance (closers : List Keyword) (budget : List Located) :
    Answers P E (declarations statement closers budget) := by
  induction budget with
  | nil => dsimp only [declarations]; infer_instance
  | cons t budget ih =>
    unfold declarations
    refine .seq inferInstance fun t => ?_
    split <;> infer_instance

instance (opener : Keyword) (closers : List Keyword) :
    Answers P E (block statement opener closers) := by
  dsimp only [block]; infer_instance

instance : Answers P E (ifStatement expression statement) := by
  have htail (toEnd : Nat) : Answers P E (do
      consume (.keyword .endIf) "'endif'"
      patchJump toEnd
      endOfLine : Compile Unit) := inferInstance
  dsimp only [ifStatement]
  infer_instance

instance : Answers P E (whileStatement expression statement) := by
  dsimp only [whileStatement]; infer_instance

instance : Answers P E (repeatBody statement) := by
  unfold repeatBody
  have h : Answers P E (tryFinally (block statement .repeat_ [.endRepeat])
      (modify fun b : Builder => {b with locals := b.locals.drop 1, depth := b.depth-1})) :=
    .tryFinally inferInstance fun b => Textual.same b _ ⟨rfl, rfl, rfl, rfl⟩
  infer_instance

instance : Answers P E (repeatStatement expression statement) := by
  dsimp only [repeatStatement]; infer_instance

instance (params : List (String × Located)) : Answers P E (runnableBody statement params) := by
  have h : Answers P E (params.forM fun (name, t) => addLocal (some name) t : Compile PUnit) := by
    induction params with
    | nil => simp only [List.forM]; infer_instance
    | cons x params ih => simp only [List.forM]; infer_instance
  dsimp only [runnableBody]
  infer_instance

instance (id : Nat) (body : Compile Unit) [Answers P E body] :
    Answers P E (inFunction id body) := by
  unfold inFunction
  refine .seq inferInstance fun b => .seq inferInstance fun c => .seq inferInstance fun d =>
    .seq (.textual fun _ => ⟨rfl, rfl, rfl, rfl⟩) fun _ => ?_
  exact .tryFinally inferInstance fun b => Textual.same b _ ⟨rfl, rfl, rfl, rfl⟩

instance : Answers P E (runnableDeclaration statement) := by
  have hpush (name : String) (n : Nat) : Answers P E (modify fun b : Builder =>
      {b with functions := b.functions.push (.new name (some b.current) n)} : Compile Unit) :=
    .textual fun _ => ⟨rfl, rfl, rfl, rfl⟩
  have hlines (id : Nat) (lines : UInt16) : Answers P E (modify fun b : Builder =>
      b.modifyFunction id fun f => {f with lineCount := lines} : Compile Unit) :=
    .textual fun _ => ⟨rfl, rfl, rfl, rfl⟩
  have htail (id : Nat) (t : Located) (n : Nat) : Answers P E (match Word.ofNat? n with
      | none => complain t .bodyTooLong
      | some lines => do
        modify (·.modifyFunction id fun f => {f with lineCount := lines})
        let index ← enter (·.addConstant (.runnable id))
        emitBytes [Opcode.defineRunnable.toByte, index, Word.high lines, Word.low lines]
        endOfLine : Compile Unit) := by
    split <;> infer_instance
  dsimp only [runnableDeclaration]
  infer_instance

end
end

end

end

/-- The tokens up to `rest` have as many among them that begin a block or an operand. -/
def Nested (code rest : List Located) (levels : Nat) : Prop :=
  ∃ read opened : List Located, code = read++rest ∧ opened.Sublist read ∧ levels ≤ opened.length ∧
    ∀ t ∈ opened, t.token.begins

/-- The tokens end in one that has an operand right behind it. -/
def CutShort (code : List Located) : Prop :=
  ∃ t, code.getLast? = some t ∧ t.token.restarts

/-- That the nesting is too deep is said where so many levels have been opened, or at the end of
tokens that are cut short. -/
def Excused (code : List Located) (finish : Position) (d : Diagnostic) : Prop :=
  d.complaint = .tooDeep → ∃ rest, d.pos = (rest.headD ⟨.eof, finish⟩).pos ∧
    (Nested code rest (maxNesting-1) ∨ rest = [] ∧ CutShort code)

/-- The state stands inside so many levels, and its reports so far are excused. -/
structure Standing (code : List Located) (finish : Position) (levels : Nat) (b : Builder) :
    Prop where
  nested : Nested code b.rest levels
  edge : b.rest = [] → b.last.token.restarts → CutShort code
  ends : b.finish = finish
  reports : ∀ d ∈ b.diagnostics, Excused code finish d

section
variable {code : List Located} {finish : Position} {k : Nat}

theorem Nested.fewer {rest : List Located} {n : Nat} (h : Nested code rest n) (hk : k ≤ n) :
    Nested code rest k := by
  obtain ⟨read, opened, hcode, hsub, hlength, hbegins⟩ := h
  exact ⟨read, opened, hcode, hsub, hk.trans hlength, hbegins⟩

theorem Nested.skip {skipped rest : List Located} (h : Nested code (skipped++rest) k) :
    Nested code rest k := by
  obtain ⟨read, opened, hcode, hsub, hlength, hbegins⟩ := h
  exact ⟨read++skipped, opened, by rw [hcode, List.append_assoc],
    hsub.trans (List.sublist_append_left ..), hlength, hbegins⟩

theorem Nested.opens {t : Located} {rest : List Located} (h : Nested code (t :: rest) k)
    (ht : t.token.begins) : Nested code rest (k+1) := by
  obtain ⟨read, opened, hcode, hsub, hlength, hbegins⟩ := h
  have hmore : k+1 ≤ (opened++[t]).length := by
    rw [List.length_append]
    exact Nat.add_le_add_right hlength 1
  refine ⟨read++[t], opened++[t], ?_, hsub.append (List.Sublist.refl _), hmore, ?_⟩
  · rw [hcode, List.append_assoc]
    rfl
  · intro u hu
    rcases List.mem_append.mp hu with hu | hu
    · exact hbegins u hu
    · rw [List.mem_singleton.mp hu]
      exact ht

theorem Nested.cutShort {t : Located} (h : Nested code [t] k) (ht : t.token.restarts) :
    CutShort code := by
  obtain ⟨read, opened, hcode, -⟩ := h
  exact ⟨t, by rw [hcode, List.getLast?_concat], ht⟩

instance : Tolerant (Excused code finish) := ⟨fun _ hd h => absurd h hd⟩

instance : Textual (Standing code finish k) where
  same _ _ h hb :=
    ⟨h.rest ▸ hb.nested, h.rest ▸ h.last ▸ hb.edge, h.finish.trans hb.ends, h.reports ▸ hb.reports⟩

theorem Standing.fewer {n : Nat} {b : Builder} (h : Standing code finish n b) (hk : k ≤ n) :
    Standing code finish k b :=
  {h with nested := h.nested.fewer hk}

theorem Standing.skip {b b' : Builder} {skipped : List Located} (h : Standing code finish k b)
    (hrest : b.rest = skipped++b'.rest) (hlast : skipped.getLast?.getD b.last = b'.last)
    (hfinish : b'.finish = b.finish) (hreports : ∀ d ∈ b'.diagnostics, Excused code finish d) :
    Standing code finish k b' where
  nested := (hrest ▸ h.nested).skip
  edge hnil ht := by
    rw [hnil, List.append_nil] at hrest
    rw [← hlast] at ht
    rcases List.eq_nil_or_concat skipped with hskipped | ⟨before, t, hskipped⟩
    · rw [hskipped] at hrest ht
      exact h.edge hrest ht
    · rw [hskipped, List.concat_eq_append] at hrest ht
      rw [List.getLast?_concat] at ht
      exact (hrest ▸ h.nested).skip.cutShort ht
  ends := hfinish.trans h.ends
  reports := hreports

theorem skipLine_skips (last : Located) (rest : List Located) :
    ∃ skipped, rest = skipped++(skipLine last rest).2 ∧
      skipped.getLast?.getD last = (skipLine last rest).1 := by
  induction rest generalizing last with
  | nil => exact ⟨[], rfl, rfl⟩
  | cons t rest ih =>
    unfold skipLine
    split
    · exact ⟨[t], rfl, rfl⟩
    · obtain ⟨skipped, hrest, hlast⟩ := ih t
      refine ⟨t :: skipped, by rw [List.cons_append, ← hrest], ?_⟩
      rw [← hlast, List.getLast?_cons]
      rfl

instance : Recovers (Standing code finish k) (Excused code finish) where
  recovers d b hd hb := by
    obtain ⟨skipped, hrest, hlast⟩ := skipLine_skips b.last b.rest
    refine hb.skip hrest hlast rfl fun e he => ?_
    rcases Array.mem_push.mp he with he | rfl
    · exact hb.reports e he
    · exact hd

theorem Standing.further {b : Builder} (h : Standing code finish k b) :
    Standing code finish k b.advance := by
  unfold Builder.advance
  split
  · next t rest hrest =>
    have hread : b.rest = [t]++rest := hrest
    exact h.skip hread rfl rfl h.reports
  · exact h

instance : Answers (Standing code finish k) (Excused code finish) advance :=
  .update fun _ => Standing.further

/-- A token that begins something is read, and the state stands inside that. -/
theorem Standing.opens {b : Builder} {t : Located} {rest : List Located}
    (h : Standing code finish k b) (hrest : b.rest = t :: rest) (ht : t.token.begins) :
    Standing code finish (k+1) b.advance := by
  have hadvance : b.advance = {b with last := t, rest := rest} := by
    rw [Builder.advance, hrest]
  have hb := h.further
  rw [hadvance] at hb ⊢
  exact {hb with nested := (hrest ▸ h.nested).opens ht}

/-- Nothing is left to be read, and the tokens are cut short. -/
structure Hanging (code : List Located) (finish : Position) (levels : Nat) (b : Builder) :
    Prop where
  standing : Standing code finish levels b
  rest : b.rest = []
  short : CutShort code

instance : Textual (Hanging code finish k) where
  same b b' h hb := ⟨Textual.same b b' h hb.standing, h.rest.trans hb.rest, hb.short⟩

instance : Answers (Hanging code finish k) (Excused code finish) advance :=
  .update fun b hb => by
    have hadvance : b.advance = b := by rw [Builder.advance, hb.rest]
    rw [hadvance]
    exact hb

instance : Answers (Hanging code finish k) (Excused code finish) tooDeep where
  yields b hb := by
    refine ⟨fun _ => ⟨[], ?_, .inr ⟨rfl, hb.short⟩⟩, hb⟩
    change b.peek.pos = _
    rw [Builder.peek, hb.rest, ← hb.standing.ends]
    rfl

/-- Where the tokens are cut short any number of levels may be used up. -/
instance hanging_operandAt (levels : Nat) (p : Precedence) :
    Answers (Hanging code finish k) (Excused code finish) (operandAt levels p) := by
  induction levels generalizing p with
  | zero => dsimp only [operandAt]; infer_instance
  | succ levels ih => dsimp only [operandAt]; infer_instance

theorem tooDeep_answers (hk : maxNesting-1 ≤ k) :
    Answers (Standing code finish k) (Excused code finish) tooDeep where
  yields b hb := by
    refine ⟨fun _ => ⟨b.rest, ?_, .inl (hb.nested.fewer hk)⟩, hb⟩
    change b.peek.pos = _
    rw [Builder.peek, ← hb.ends]
    cases b.rest <;> rfl

/-- Nothing is left to be read. -/
structure Stopped (code : List Located) (finish : Position) (levels : Nat) (b : Builder) :
    Prop where
  standing : Standing code finish levels b
  rest : b.rest = []

instance : Textual (Stopped code finish k) where
  same b b' h hb := ⟨Textual.same b b' h hb.standing, h.rest.trans hb.rest⟩

section
variable (inner : Precedence → Compile Unit) (t : Located) (canAssign : Bool)

theorem variable_at_end (name : String) :
    Answers (Stopped code finish k) (Excused code finish) (variable_ inner t name canAssign) where
  yields b hb := by
    have hparen : check (.symbol .leftParen) b = .ok false b := by
      change EStateM.Result.ok (b.peek.token == _) b = _
      rw [Builder.peek, hb.rest]
      rfl
    refine Yields.read hparen (Yields.bind (Yields.start hb Answers.yields) fun v c hc => ?_) b rfl
    have hpeek : peek c = .ok ⟨.eof, c.finish⟩ c := by
      change EStateM.Result.ok c.peek c = _
      rw [Builder.peek, hc.rest]
    have hnone : (if canAssign then Assignment.ofToken? .eof else none) = none := by
      cases canAssign <;> rfl
    refine Yields.read hpeek ?_ c rfl
    rw [hnone]
    exact Yields.start hc Answers.yields

/-- An operand that is looked for behind the last token is that token, if anything. -/
theorem leading_at_end (ht : t.token.restarts = false) :
    Answers (Stopped code finish k) (Excused code finish) (leading inner t canAssign) := by
  unfold leading
  split
  case h_10 => exact variable_at_end inner t canAssign _
  all_goals first
    | infer_instance
    | next heq =>
      rw [heq] at ht
      cases ht

theorem operand_at_end (p : Precedence) {b : Builder} (hb : Stopped code finish k b)
    (ht : b.last.token.restarts = false) :
    Yields (· = b) (operand inner p) (fun _ => Stopped code finish k) fun d c =>
      Excused code finish d ∧ Stopped code finish k c := by
  have hadvance : advance b = .ok ⟨⟩ b := by
    change EStateM.Result.ok _ b.advance = _
    rw [Builder.advance, hb.rest]
  have hlead : Answers (Stopped code finish k) (Excused code finish)
      (leading inner b.last (p == .assign)) :=
    leading_at_end inner b.last (p == .assign) ht
  refine Yields.read hadvance (Yields.read (a := b.last) rfl ?_)
  refine Yields.bind (hlead.yields.start hb) fun _ => Yields.get_bind fun c hc => ?_
  rw [hc.rest, following]
  exact Yields.start hc Answers.yields

end

theorem leading_of_not_begins (inner : Precedence → Compile Unit) {t : Located}
    (ht : t.token.begins = false) (canAssign : Bool) :
    leading inner t canAssign = complain t (.expected "expression") := by
  unfold leading
  split
  case h_11 => rfl
  all_goals
    next heq =>
      rw [heq] at ht
      cases ht

/-- What stands inside the thing that a token begins is a level deeper. -/
theorem Standing.within {α : Type} {x : Compile α} {b : Builder} {t : Located} {rest : List Located}
    (hx : Answers (Standing code finish (k+1)) (Excused code finish) x)
    (hb : Standing code finish k b) (hrest : b.rest = t :: rest) (ht : t.token.begins) :
    Yields (· = b.advance) x (fun _ => Standing code finish k) fun d c =>
      Excused code finish d ∧ Standing code finish k c :=
  Yields.mono (hx.yields.start (hb.opens hrest ht)) (fun _ h => h)
    (fun _ _ h => h.fewer (Nat.le_succ k)) fun _ _ h => ⟨h.1, h.2.fewer (Nat.le_succ k)⟩

/-- What an operand reads first is what it begins with, so the operands in it are a level deeper. -/
theorem operand_inside (inner : Precedence → Compile Unit)
    [∀ p, Answers (Standing code finish (k+1)) (Excused code finish) (inner p)] (p : Precedence)
    {b : Builder} {t : Located} {rest : List Located} (hb : Standing code finish k b)
    (hrest : b.rest = t :: rest) :
    Yields (· = b) (operand inner p) (fun _ => Standing code finish k) fun d c =>
      Excused code finish d ∧ Standing code finish k c := by
  have hlast : last b.advance = .ok t b.advance := by
    change EStateM.Result.ok b.advance.last _ = _
    rw [Builder.advance, hrest]
  have hadvance : Yields (· = b) advance (fun _ => (· = b.advance)) fun d c =>
      Excused code finish d ∧ Standing code finish k c := by
    rintro _ rfl
    rfl
  refine Yields.bind hadvance fun _ => Yields.read hlast ?_
  cases ht : t.token.begins with
  | true => exact hb.within inferInstance hrest ht
  | false =>
    rw [leading_of_not_begins inner ht]
    refine Yields.bind (Yields.throw (Q := fun _ _ => False) fun _ hc => ?_) ?_
    · exact ⟨nofun, hc ▸ hb.further⟩
    · exact fun _ _ h => h.elim

theorem operandAt_answers {levels : Nat} (h : maxNesting-1 ≤ k+levels) (p : Precedence) :
    Answers (Standing code finish k) (Excused code finish) (operandAt levels p) := by
  induction levels generalizing k p with
  | zero => exact tooDeep_answers h
  | succ levels ih =>
    have hinner (p : Precedence) :
        Answers (Standing code finish (k+1)) (Excused code finish) (operandAt levels p) :=
      ih (by omega) p
    refine ⟨fun b hb => ?_⟩
    cases hrest : b.rest with
    | cons t rest => exact operand_inside (operandAt levels) p hb hrest b rfl
    | nil =>
      cases ht : b.last.token.restarts with
      | false =>
        exact (operand_at_end (operandAt levels) p ⟨hb, hrest⟩ ht).mono (fun _ h => h)
          (fun _ _ h => h.standing) (fun _ _ h => ⟨h.1, h.2.standing⟩) b rfl
      | true =>
        exact (hanging_operandAt (levels+1) p).yields.mono (fun _ h => h)
          (fun _ _ h => h.standing) (fun _ _ h => ⟨h.1, h.2.standing⟩) b
          ⟨hb, hrest, hb.edge hrest ht⟩

/-- A keyword that begins a block is read before the block is. -/
theorem reads_opener {x : Compile Unit} {b : Builder} {word : Keyword}
    (hx : Answers (Standing code finish (k+1)) (Excused code finish) x)
    (hb : Standing code finish k b) (hpeek : b.peek.token = .keyword word)
    (hword : (Token.keyword word).begins) :
    Yields (· = b) (do advance; x) (fun _ => Standing code finish k) fun d c =>
      Excused code finish d ∧ Standing code finish k c := by
  have hadvance : Yields (· = b) advance (fun _ => (· = b.advance)) fun d c =>
      Excused code finish d ∧ Standing code finish k c := by
    rintro _ rfl
    rfl
  cases hrest : b.rest with
  | nil =>
    rw [Builder.peek, hrest] at hpeek
    cases hpeek
  | cons t rest =>
    rw [Builder.peek, hrest] at hpeek
    exact Yields.bind hadvance fun _ => hb.within hx hrest (hpeek ▸ hword)

theorem statementAt_answers {levels : Nat} (h : maxNesting ≤ k+levels) :
    Answers (Standing code finish k) (Excused code finish) (statementAt levels) := by
  induction levels generalizing k with
  | zero => exact tooDeep_answers (by omega)
  | succ levels ih =>
    have hhere :
        Answers (Standing code finish k) (Excused code finish) (operandAt levels .assign) :=
      operandAt_answers (by omega) _
    have hinner :
        Answers (Standing code finish (k+1)) (Excused code finish) (operandAt levels .assign) :=
      operandAt_answers (by omega) _
    have hblock : Answers (Standing code finish (k+1)) (Excused code finish) (statementAt levels) :=
      ih (by omega)
    refine ⟨fun b hb => ?_⟩
    have hpeek : peek b = .ok b.peek b := rfl
    refine Yields.read hpeek ?_ b rfl
    split
    case h_3 heq => exact reads_opener inferInstance hb heq rfl
    case h_4 heq => exact reads_opener inferInstance hb heq rfl
    case h_5 heq => exact reads_opener inferInstance hb heq rfl
    case h_6 heq => exact reads_opener inferInstance hb heq rfl
    all_goals exact Yields.start hb Answers.yields

end

theorem standing_start (tokens : List Located) :
    Standing (Builder.start tokens).rest (Builder.start tokens).finish 0 (.start tokens) where
  nested := ⟨[], [], rfl, List.Sublist.refl _, Nat.le_refl 0, nofun⟩
  edge hnil ht := by
    cases tokens with
    | nil => cases ht
    | cons t tokens =>
      change List.takeWhile (fun u : Located => u.token != .eof) (t :: tokens) = [] at hnil
      rw [List.takeWhile_cons] at hnil
      split at hnil
      · cases hnil
      · next heof =>
        rw [Bool.not_eq_true, bne_eq_false_iff_eq] at heof
        change t.token.restarts = true at ht
        rw [heof] at ht
        cases ht
  ends := rfl
  reports _ hd := absurd hd (Array.not_mem_empty _)

end Compile

open Compile

/-- As many opening parentheses as there may be levels. -/
def openings : List Located :=
  (List.range maxNesting).map fun n => ⟨.symbol .leftParen, ⟨1, n+1⟩⟩

end RatScript
