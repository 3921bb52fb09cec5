import RatScript.Proofs.Compile.Acceptance
import RatScript.Proofs.Compile.Resumed

/-!
A statement leaves the context of the compiler as it found it, whether it is accepted or not: the same
function and depth, and the same locals but for those it declared itself. The one exception is a `repeat`
that finds no slot for its counter: the scope it has opened stays open.
-/

set_option synthInstance.maxSize 65536

namespace RatScript

open Stateful

theorem Stateful.after_bind {ε σ α β : Type} {x : EStateM ε σ α} {f : α → EStateM ε σ β} {s t : σ}
    {a : α} (h : x s = .ok a t) : after (x >>= f) s = after (f a) t := by
  simp only [after, bind, EStateM.bind, h]

theorem Stateful.after_tryFinally {ε σ α : Type} (x : EStateM ε σ α) (f : σ → σ) (s : σ) :
    after (tryFinally x (modify f)) s = f (after x s) := by
  rw [after, tryFinally_eq, after]
  cases x s <;> rfl

/-- Reported of a `repeat` whose counter finds no slot, at the end of its header. -/
def Diagnostic.uncounted (d : Diagnostic) : Bool :=
  d.complaint == .tooManyLocals &&
    (d.lexeme == Token.newline.spelling || d.lexeme == (Symbol.colon).spelling)

namespace Builder

/-- The same context. -/
structure Same (b b' : Builder) : Prop where
  depth : b'.depth = b.depth
  locals : b'.locals = b.locals

/-- The same context, with new locals of the current scope in front. -/
structure Extends (b b' : Builder) : Prop where
  depth : b'.depth = b.depth
  locals : ∃ new, b'.locals = new++b.locals ∧ ∀ l ∈ new, l.depth = b.depth

/-- The same function, and contexts so related, unless a counter of this runnable found no slot. -/
def Unless (R : Builder → Builder → Prop) (b b' : Builder) : Prop :=
  b'.current = b.current ∧ ∃ ds, b'.diagnostics.toList = b.diagnostics.toList++ds ∧
    (b.Scoped → (b.inRunnable = true ∧ ∃ d ∈ ds, d.uncounted = true) ∨ R b b')

abbrev Returns : Builder → Builder → Prop := Unless Extends

section
variable {b b' b'' : Builder}

theorem Same.extends_ (h : b.Same b') : b.Extends b' := ⟨h.depth, [], h.locals, nofun⟩

theorem Extends.scoped (h : b.Extends b') (hb : b.Scoped) : b'.Scoped := by
  obtain ⟨new, hlocals, hnew⟩ := h.locals
  intro l hl
  rw [hlocals, List.mem_append] at hl
  rw [h.depth]
  rcases hl with hl | hl
  · exact Nat.le_of_eq (hnew l hl)
  · exact hb l hl

theorem Extends.trans (h : b.Extends b') (k : b'.Extends b'') : b.Extends b'' := by
  obtain ⟨new, hlocals, hnew⟩ := h.locals
  obtain ⟨more, hlocals', hmore⟩ := k.locals
  refine ⟨k.depth.trans h.depth, more++new, by rw [hlocals', hlocals, List.append_assoc], ?_⟩
  exact List.forall_mem_append.mpr ⟨fun l hl => (hmore l hl).trans h.depth, hnew⟩

theorem Unless.mono {R S : Builder → Builder → Prop} (h : b.Unless R b') (hRS : R b b' → S b b') :
    b.Unless S b' := by
  obtain ⟨hcurrent, ds, hreports, h⟩ := h
  exact ⟨hcurrent, ds, hreports, fun hb => (h hb).imp_right hRS⟩

theorem Returns.of_eq (hcurrent : b'.current = b.current) (hreports : b'.diagnostics = b.diagnostics)
    (hdepth : b'.depth = b.depth) (hlocals : b'.locals = b.locals) : b.Returns b' :=
  ⟨hcurrent, [], by simp [hreports], fun _ => .inr (Same.extends_ ⟨hdepth, hlocals⟩)⟩

theorem inRunnable_of_current (h : b'.current = b.current) : b'.inRunnable = b.inRunnable := by
  rw [inRunnable, h, inRunnable]

instance : Std.Refl Returns := ⟨fun _ => .of_eq rfl rfl rfl rfl⟩

theorem Returns.trans (h : b.Returns b') (k : b'.Returns b'') : b.Returns b'' := by
  obtain ⟨hcurrent, ds, hreports, h⟩ := h
  obtain ⟨hcurrent', ds', hreports', k⟩ := k
  refine ⟨hcurrent'.trans hcurrent, ds++ds', by rw [hreports', hreports, List.append_assoc],
    fun hb => ?_⟩
  rcases h hb with ⟨hin, d, hd, hstray⟩ | hextends
  · exact .inl ⟨hin, d, List.mem_append_left _ hd, hstray⟩
  · rcases k (hextends.scoped hb) with ⟨hin, d, hd, hstray⟩ | hextends'
    · exact .inl ⟨inRunnable_of_current hcurrent ▸ hin, d, List.mem_append_right _ hd, hstray⟩
    · exact .inr (hextends.trans hextends')

instance : Trans Returns Returns Returns := ⟨Returns.trans⟩

end

end Builder

namespace Compile

open Builder (Returns Reports)

theorem returns_modify {f : Builder → Builder} (hcurrent : ∀ b, (f b).current = b.current)
    (hreports : ∀ b, (f b).diagnostics = b.diagnostics) (hdepth : ∀ b, (f b).depth = b.depth)
    (hlocals : ∀ b, (f b).locals = b.locals) : Keeps Returns (modify f : Compile Unit) :=
  Keeps.modify fun b => .of_eq (hcurrent b) (hreports b) (hdepth b) (hlocals b)

instance : Keeps Returns advance := by
  refine Keeps.modify fun b => ?_
  unfold Builder.advance
  split <;> exact .of_eq rfl rfl rfl rfl

instance (bytes : List UInt8) : Keeps Returns (emitBytes bytes) :=
  returns_modify (fun _ => rfl) (fun _ => rfl) (fun _ => rfl) fun _ => rfl

instance (add : Chunk → Except PoolFault (Chunk × UInt8)) : Keeps Returns (enter add) :=
  Keeps.get_bind fun b => by
    cases add b.chunk <;> exact .of_eq rfl rfl rfl rfl

instance (at_ : Nat) : Keeps Returns (patchJump at_) := by
  unfold patchJump
  refine Keeps.seq inferInstance fun n => ?_
  split
  · exact returns_modify (fun _ => rfl) (fun _ => rfl) (fun _ => rfl) fun _ => rfl
  · infer_instance

instance : Keeps Returns synchronize :=
  returns_modify (fun _ => rfl) (fun _ => rfl) (fun _ => rfl) fun _ => rfl

instance (name : Option String) (t : Located) : Keeps Returns (addLocal name t) := by
  refine Keeps.get_bind fun b => ?_
  split
  · exact ⟨rfl, [], (List.append_nil _).symm, fun _ => .inr ⟨rfl, [⟨name, b.depth⟩], rfl, by simp⟩⟩
  · exact .of_eq rfl rfl rfl rfl

section
variable {α β : Type}

/-- The state after a part of a statement that began in `b`: what it failed for counts as reported. -/
def Tamed (b : Builder) : EStateM.Result Diagnostic Builder α → Prop
  | .ok _ b' => b.Returns b'
  | .error d b' => b.Returns {b' with diagnostics := b'.diagnostics.push d}

class Tame (x : Compile α) : Prop where
  tame : ∀ b, Tamed b (x b)

namespace Tamed

variable {x : Compile α} {b c : Builder}

theorem seq {f : α → Compile β} (hx : Tamed b (x b))
    (hf : ∀ a b', x b = .ok a b' → Tamed b' (f a b')) : Tamed b ((x >>= f) b) := by
  simp only [bind, EStateM.bind]
  cases hxb : x b with
  | ok a b' =>
    rw [hxb] at hx
    have k := hf a b' hxb
    dsimp only
    cases hfb : f a b' <;> rw [hfb] at k <;> exact Builder.Returns.trans hx k
  | error d b' =>
    rw [hxb] at hx
    exact hx

theorem of_after (h : b.Returns (after x c)) : Tamed b (x c) := by
  cases hx : x c with
  | ok a b' => rwa [after_of_ok hx] at h
  | error d b' =>
    rw [after_of_error hx] at h
    obtain ⟨hcurrent, ds, hreports, hextends⟩ := h
    refine ⟨hcurrent, ds++[d], by simp [hreports], fun hb => ?_⟩
    rcases hextends hb with ⟨hin, e, he, hstray⟩ | hextends
    · exact .inl ⟨hin, e, List.mem_append_left _ he, hstray⟩
    · exact .inr ⟨hextends.depth, hextends.locals⟩

theorem of_keeps (h : Keeps Returns x) (b : Builder) : Tamed b (x b) := of_after (h.keeps b)

end Tamed

end

/-- A statement that fails is reported with what it failed for. -/
instance (statement : Compile Unit) [h : Tame statement] : Keeps Returns (declaration statement) where
  keeps b := by
    have htame := h.tame b
    unfold after
    simp only [declaration, tryCatch, tryCatchThe, MonadExceptOf.tryCatch, EStateM.tryCatch]
    cases hx : statement b with
    | ok a b' =>
      rw [hx] at htame
      exact htame
    | error d b' =>
      rw [hx] at htame
      exact Builder.Returns.trans htame ((inferInstance : Keeps Returns synchronize).keeps _)

instance (statement : Compile Unit) [Tame statement] (closers : List Keyword)
    (budget : List Located) : Keeps Returns (declarations statement closers budget) := by
  induction budget with
  | nil => dsimp only [declarations]; infer_instance
  | cons t budget ih =>
    unfold declarations
    refine Keeps.seq inferInstance fun t => ?_
    split <;> infer_instance

/-- What comes behind the statements of a block leaves off their locals. -/
theorem endScope_same {b b1 b2 b' : Builder} {a : Unit} (hdepth : b1.depth = b.depth+1)
    (hlocals : b1.locals = b.locals) (hb : b.Scoped) (h : b1.Extends b2)
    (hend : endScope b2 = .ok a b') : b.Same b' := by
  obtain ⟨new, hnew, hhere⟩ := h.locals
  have hleave : Builder.leave (b2.depth-1) b2.locals = (b.locals, new.length) := by
    rw [hnew, hlocals, h.depth, hdepth, Nat.add_sub_cancel]
    refine Builder.leave_append (fun l hl => ?_) hb
    rw [hhere l hl, hdepth]
    exact Nat.lt_succ_self _
  rw [← modify_eq_ok.mp (endScope_eq_ok hleave hend)]
  exact ⟨by rw [← Nat.add_sub_cancel b.depth 1, ← hdepth, ← h.depth]; rfl, rfl⟩

section
variable (statement : Compile Unit) [Tame statement]

/-- A block ends with the locals it began with. -/
theorem block_same (opener : Keyword) (closers : List Keyword) (b : Builder) :
    b.Unless Builder.Same (after (block statement opener closers) b) := by
  let b1 : Builder := {b with depth := b.depth+1}
  obtain ⟨b2, h2⟩ := declarations_ok statement closers b1.rest b1
  obtain ⟨b3, h3⟩ : ∃ b3, endScope b2 = .ok () b3 := ⟨_, rfl⟩
  have hclose : Keeps Eq (do
      if ← check .eof then
        complain (← peek) (.unclosed opener (closers.getLastD opener)) : Compile Unit) := inferInstance
  have hafter : after (block statement opener closers) b = b3 := by
    have hbegin : beginScope b = .ok () b1 := rfl
    have hget : (get : Compile Builder) b1 = .ok b1 b1 := rfl
    rw [block, after_bind hbegin, after_bind hget, after_bind h2, after_bind h3]
    exact (hclose.keeps b3).symm
  have hkeeps : Keeps Returns (declarations statement closers b1.rest) := inferInstance
  obtain ⟨hcurrent, ds, hreports, hextends⟩ := hkeeps.of_ok h2
  have hend : b3.current = b2.current ∧ b3.diagnostics = b2.diagnostics := by
    cases h3
    exact ⟨rfl, rfl⟩
  rw [hafter]
  refine ⟨hend.1.trans hcurrent, ds, by rw [hend.2, hreports], fun hb => ?_⟩
  rcases hextends fun l hl => Nat.le_succ_of_le (hb l hl) with hstray | h
  · exact .inl hstray
  · exact .inr (@endScope_same b b1 b2 b3 () rfl rfl hb h h3)

instance (opener : Keyword) (closers : List Keyword) :
    Keeps Returns (block statement opener closers) where
  keeps b := (block_same statement opener closers b).mono Builder.Same.extends_

/-- What a `repeat` says where its counter finds no slot. -/
theorem uncounted_header {t : Located} (h : t.token = .newline ∨ t.token = .symbol .colon) :
    Diagnostic.uncounted ⟨.tooManyLocals, t.pos, t.token.spelling⟩ = true := by
  rcases h with h | h <;> rw [h] <;> rfl

theorem repeatBody_tame {b : Builder} (h : b.last.token = .newline ∨ b.last.token = .symbol .colon) :
    Tamed b (repeatBody statement b) := by
  cases hin : b.inRunnable with
  | false =>
    have hbody : repeatBody statement b = block statement .repeat_ [.endRepeat] b := by
      change (if b.inRunnable then _ else _ : Compile Unit) b = _
      rw [hin]
      rfl
    rw [hbody]
    exact .of_keeps inferInstance b
  | true =>
    let b1 : Builder := {b with depth := b.depth+1}
    have hbody : repeatBody statement b = (do
        addLocal none b.last
        try block statement .repeat_ [.endRepeat]
        finally modify fun b => {b with locals := b.locals.drop 1, depth := b.depth-1} :
          Compile Unit) b1 := by
      change (if b.inRunnable then _ else _ : Compile Unit) b = _
      rw [hin]
      rfl
    rw [hbody]
    by_cases hroom : b.locals.length < maxLocals
    · let b2 : Builder := {b1.modifyFunction b1.current fun f =>
        {f with locals := f.locals.push "(repeat)"} with locals := ⟨none, b1.depth⟩ :: b.locals}
      have hadd : addLocal none b.last b1 = .ok () b2 := by
        change (if b.locals.length < maxLocals then _ else _ : Compile Unit) b1 = _
        rw [if_pos hroom]
        rfl
      have hblock := block_same statement .repeat_ [.endRepeat] b2
      refine .of_after ?_
      rw [after_bind hadd, after_tryFinally]
      obtain ⟨hcurrent, ds, hreports, hsame⟩ := hblock
      refine ⟨hcurrent, ds, hreports, fun hb => ?_⟩
      have hscoped : b2.Scoped :=
        List.forall_mem_cons.mpr ⟨Nat.le_refl _, fun l hl => Nat.le_succ_of_le (hb l hl)⟩
      rcases hsame hscoped with hstray | ⟨hdepth, hlocals⟩
      · exact .inl hstray
      · exact .inr (Builder.Same.extends_ ⟨by rw [hdepth]; rfl, by rw [hlocals]; rfl⟩)
    · have hadd : addLocal none b.last b1 =
          .error ⟨.tooManyLocals, b.last.pos, b.last.token.spelling⟩ b1 := by
        change (if b.locals.length < maxLocals then _ else _ : Compile Unit) b1 = _
        rw [if_neg hroom]
        rfl
      simp only [bind, EStateM.bind, hadd]
      exact ⟨rfl, [_], by simp [b1], fun _ => .inl ⟨hin, _, List.mem_singleton_self _, uncounted_header h⟩⟩

/-! What a header of a `repeat` ends with. -/

theorem accept_last {token : Token} {b b' : Builder} (ht : token ≠ .eof)
    (h : accept token b = .ok true b') : b'.last.token = token := by
  rw [accept_eq] at h
  split at h
  · next heq =>
    cases h
    rw [← eq_of_beq heq] at ht ⊢
    unfold Builder.peek at ht ⊢
    unfold Builder.advance
    cases hrest : b.rest with
    | nil => simp [hrest] at ht
    | cons t rest => rfl
  · cases h

theorem header_last {what : String} {b b' : Builder} {a : Unit} (h : header what b = .ok a b') :
    b'.last.token = .symbol .colon := by
  obtain ⟨more, b1, haccept, h⟩ := bind_eq_ok.mp h
  cases more with
  | true =>
    cases h
    exact accept_last nofun haccept
  | false =>
    obtain ⟨_, _, _, h⟩ := bind_eq_ok.mp h
    exact absurd h throw_ne_ok

theorem emit_last {op : Opcode} {b b' : Builder} {a : Unit} (h : emit op b = .ok a b') :
    b'.last = b.last := by
  rw [← modify_eq_ok.mp h]
  rfl

theorem endOfLine_last {b b' : Builder} {a : Unit} (h : endOfLine b = .ok a b') :
    b'.last.token = .newline ∨ b'.last = b.last := by
  obtain ⟨more, b1, haccept, h⟩ := bind_eq_ok.mp h
  cases more with
  | true => exact .inl (emit_last h ▸ accept_last nofun haccept)
  | false =>
    have hsame : b1 = b := by
      rw [accept_eq] at haccept
      split at haccept <;> cases haccept
      rfl
    obtain ⟨done, b2, hcheck, h⟩ := bind_eq_ok.mp h
    cases hcheck
    split at h
    · cases h
      exact .inr (by rw [hsame])
    · obtain ⟨_, _, _, h⟩ := bind_eq_ok.mp h
      exact absurd h throw_ne_ok

section
variable (expression : Compile Unit) [Keeps Returns expression]

instance : Keeps Returns (expressionStatement expression) := by
  dsimp only [expressionStatement]; infer_instance

instance : Keeps Returns (varDeclaration expression) := by dsimp only [varDeclaration]; infer_instance

instance : Keeps Returns (ifStatement expression statement) := by
  have htail (toEnd : Nat) : Keeps Returns (do
      consume (.keyword .endIf) "'endif'"
      patchJump toEnd
      endOfLine : Compile Unit) := inferInstance
  dsimp only [ifStatement]
  infer_instance

instance : Keeps Returns (whileStatement expression statement) := by
  dsimp only [whileStatement]; infer_instance

instance : Keeps Returns (returnStatement expression) := by
  dsimp only [returnStatement]; infer_instance

instance : Tame (repeatStatement expression statement) where
  tame b := by
    dsimp only [repeatStatement]
    refine .seq (.of_keeps inferInstance b) fun _ b1 _ => ?_
    refine .seq (.of_keeps inferInstance b1) fun _ b2 hheader => ?_
    refine .seq (.of_keeps inferInstance b2) fun _ b3 hemit => ?_
    refine .seq (.of_keeps inferInstance b3) fun _ b4 hline => ?_
    refine .seq (.of_keeps inferInstance b4) fun start b5 hoffset => ?_
    refine .seq (repeatBody_tame statement ?_) fun _ b6 _ => .of_keeps inferInstance b6
    cases hoffset
    rcases endOfLine_last hline with hnewline | hsame
    · exact .inl hnewline
    · rw [hsame, emit_last hemit]
      exact .inr (header_last hheader)

end

/-- Whatever is done inside, the context is the same behind a runnable. -/
theorem inFunction_returns (id : Nat) {body : Compile Unit} (hbody : Keeps Builder.Reports body) :
    Keeps Returns (inFunction id body) where
  keeps b := by
    obtain ⟨ds, hds⟩ := hbody.keeps {b with current := id, depth := 1, locals := []}
    have hafter : after (inFunction id body) b =
        {after body {b with current := id, depth := 1, locals := []} with
          current := b.current, depth := b.depth, locals := b.locals} :=
      after_tryFinally body _ _
    rw [hafter]
    exact ⟨rfl, ds, hds.symm, fun _ => .inr (Builder.Same.extends_ ⟨rfl, rfl⟩)⟩

instance [Keeps Builder.Reports statement] : Keeps Returns (runnableDeclaration statement) := by
  have hpush (name : String) (n : Nat) : Keeps Returns (modify fun b : Builder =>
      {b with functions := b.functions.push (.new name (some b.current) n)} : Compile Unit) :=
    returns_modify (fun _ => rfl) (fun _ => rfl) (fun _ => rfl) fun _ => rfl
  have hlines (id : Nat) (lines : UInt16) : Keeps Returns (modify fun b : Builder =>
      b.modifyFunction id fun f => {f with lineCount := lines} : Compile Unit) :=
    returns_modify (fun _ => rfl) (fun _ => rfl) (fun _ => rfl) fun _ => rfl
  have hbody (id : Nat) (params : List (String × Located)) :
      Keeps Returns (inFunction id (runnableBody statement params)) :=
    inFunction_returns id inferInstance
  have htail (id : Nat) (t : Located) (n : Nat) : Keeps Returns (match Word.ofNat? n with
      | none => complain t .bodyTooLong
      | some lines => do
        modify (·.modifyFunction id fun f => {f with lineCount := lines})
        let index ← enter (·.addConstant (.runnable id))
        emitBytes [Opcode.defineRunnable.toByte, index, Word.high lines, Word.low lines]
        endOfLine : Compile Unit) := by
    split <;> infer_instance
  dsimp only [runnableDeclaration]
  infer_instance

end

instance (expression inner : Compile Unit) [Keeps Returns expression] [Tame inner]
    [Keeps Builder.Reports inner] : Tame (statement expression inner) where
  tame b := by
    refine .seq (.of_keeps inferInstance b) fun t b1 _ => @Tame.tame _ _ ?_ b1
    split
    case h_6 =>
      refine ⟨fun c => .seq (.of_keeps inferInstance c) fun _ d _ => ?_⟩
      exact (inferInstance : Tame (repeatStatement expression inner)).tame d
    all_goals exact ⟨Tamed.of_keeps inferInstance⟩

instance tame_statementAt (levels : Nat) : Tame (statementAt levels) := by
  induction levels with
  | zero => exact ⟨Tamed.of_keeps (inferInstance : Keeps Returns tooDeep)⟩
  | succ levels ih => unfold statementAt; infer_instance

/-- A declaration, accepted or reported, leaves the current function, the depth and the locals as they
were, but for new locals of the same depth, unless a `repeat` in it finds no slot for its counter; and
in the script that makes no difference either. -/
theorem declaration_returns (levels : Nat) {b : Builder} (h : b.Scoped) :
    ∃ b', declaration (statementAt levels) b = .ok () b' ∧ b'.current = b.current ∧
      ∃ ds, b'.diagnostics.toList = b.diagnostics.toList++ds ∧
        ((b.inRunnable = true ∧ ∃ d ∈ ds, d.uncounted = true) ∨
          b'.depth = b.depth ∧ ∃ new, b'.locals = new++b.locals ∧ ∀ l ∈ new, l.depth = b.depth) := by
  obtain ⟨b', hb'⟩ := declaration_ok (statementAt levels) b
  have hkeeps : Keeps Returns (declaration (statementAt levels)) := inferInstance
  obtain ⟨hcurrent, ds, hreports, hextends⟩ := hkeeps.of_ok hb'
  exact ⟨b', hb', hcurrent, ds, hreports, (hextends h).imp_right fun k => ⟨k.depth, k.locals⟩⟩

/-- In front of this code, in the body of a runnable with so many locals. -/
def inBody (locals : Nat) (code : List Token) : Builder :=
  {Builder.start (code.map (⟨·, .start⟩)) with
    functions := #[.new "<script>" none 0, .new "f" (some 0) 0]
    current := 1
    depth := 1
    locals := List.replicate locals ⟨some "x", 1⟩}

theorem inBody_scoped (locals : Nat) (code : List Token) : (inBody locals code).Scoped := by
  intro l hl
  rw [List.eq_of_mem_replicate hl]
  exact Nat.le_refl 1

theorem declaration_returns_declaring :
    let b := inBody 1 [.keyword .declare, .name "y", .symbol .assign, .name "x", .newline]
    b.Scoped ∧ ∃ b', declaration (statementAt 1) b = .ok () b' ∧ b'.current = b.current ∧
      ∃ ds, b'.diagnostics.toList = b.diagnostics.toList++ds ∧
        ((b.inRunnable = true ∧ ∃ d ∈ ds, d.uncounted = true) ∨
          b'.depth = b.depth ∧ ∃ new, b'.locals = new++b.locals ∧ ∀ l ∈ new, l.depth = b.depth) :=
  ⟨inBody_scoped _ _, declaration_returns 1 (inBody_scoped _ _)⟩

/-- The scope of a `repeat` that finds no slot for its counter stays open. -/
theorem declaration_strays :
    let b := inBody maxLocals [.keyword .repeat_, .keyword .litTrue, .symbol .colon, .newline,
      .keyword .endRepeat, .newline]
    b.depth = 1 ∧ (after (declaration (statementAt 2)) b).depth = 2 := by
  decide +kernel

end Compile
end RatScript
