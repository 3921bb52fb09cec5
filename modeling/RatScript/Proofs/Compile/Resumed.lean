import RatScript.Proofs.Stateful
import RatScript.Compile.Statement

/-!
Two compilations side by side: one has more tokens to come than the other. What a line needs for its
expressions stands before its end, so as long as the line is whole both go on in the same way.
-/

set_option synthInstance.maxSize 65536

namespace RatScript

open Stateful

/-- Blocks that statements can stand in. -/
inductive Block where
  | if_
  | else_
  | while_
  | repeat_
  | runnable
  deriving DecidableEq

namespace Block

def opener : Block → Keyword
  | if_ => .if_
  | else_ => .else_
  | while_ => .while_
  | repeat_ => .repeat_
  | runnable => .runnable

def closer : Block → Keyword
  | if_ | else_ => .endIf
  | while_ => .endWhile
  | repeat_ => .endRepeat
  | runnable => .endRunnable

/-- The blocks open behind a token, innermost first; `else` ends one block and starts another. -/
def behind (blocks : List Block) : Token → List Block
  | .keyword .if_ => if_ :: blocks
  | .keyword .else_ => else_ :: blocks.tail
  | .keyword .while_ => while_ :: blocks
  | .keyword .repeat_ => repeat_ :: blocks
  | .keyword .runnable => runnable :: blocks
  | .keyword .endIf | .keyword .endWhile | .keyword .endRepeat | .keyword .endRunnable => blocks.tail
  | _ => blocks

/-- The blocks that are open behind all of the tokens. -/
def openIn (tokens : List Token) (blocks : List Block) : List Block := tokens.foldl behind blocks

/-- What is reported of a block that is still open where the tokens end. -/
def unclosed (finish : Position) (k : Block) : Diagnostic :=
  ⟨.unclosed k.opener k.closer, finish, Token.eof.spelling⟩

end Block

/-- Tokens inside a line that neither open nor close a block. -/
def Token.Inline (t : Token) : Prop := t ≠ .newline ∧ ∀ blocks, Block.behind blocks t = blocks

theorem Token.inline_symbol (s : Symbol) : Inline (.symbol s) := ⟨by simp, fun _ => rfl⟩

theorem Token.inline_name (x : String) : Inline (.name x) := ⟨by simp, fun _ => rfl⟩

theorem Infix.inline {t : Token} {i : Infix} (h : ofToken? t = some i) : t.Inline := by
  unfold ofToken? at h
  split at h <;> cases h <;> exact ⟨by simp, fun _ => rfl⟩

theorem Assignment.inline {t : Token} {a : Assignment} (h : ofToken? t = some a) : t.Inline := by
  unfold ofToken? at h
  split at h <;> cases h <;> exact ⟨by simp, fun _ => rfl⟩

namespace Builder

/-- The state with more tokens to come, and with the place where those end. -/
def resume (tail : List Located) (finish : Position) (b : Builder) : Builder :=
  {b with rest := b.rest++tail, finish := finish}

/-- The tokens to come are whole lines, one at least. -/
structure Lined (b : Builder) : Prop where
  ends : ∃ t ∈ b.rest.getLast?, t.token = .newline
  inside : ∀ t ∈ b.rest, t.token ≠ .eof

/-- The tokens to come are whole lines, or there are none. -/
def AtLine (b : Builder) : Prop := b.rest = [] ∨ b.Lined

/-- Tokens of one line are read, and no block is opened or closed. -/
structure Within (b b' : Builder) : Prop where
  read : ∃ ts, b.rest = ts++b'.rest ∧ ∀ t ∈ ts, t.token.Inline
  finish : b'.finish = b.finish

section
variable {b b' b'' : Builder}

theorem Within.refl (b : Builder) : b.Within b := ⟨⟨[], rfl, by simp⟩, rfl⟩

theorem Within.trans (h : b.Within b') (k : b'.Within b'') : b.Within b'' := by
  obtain ⟨⟨ts, hts, hinline⟩, hfinish⟩ := h
  obtain ⟨⟨us, hus, hmore⟩, hfinish'⟩ := k
  refine ⟨⟨ts++us, by rw [hts, hus, List.append_assoc], fun t ht => ?_⟩, hfinish'.trans hfinish⟩
  exact (List.mem_append.mp ht).elim (hinline t) (hmore t)

theorem Within.length (h : b.Within b') : b'.rest.length ≤ b.rest.length := by
  obtain ⟨ts, hts, _⟩ := h.read
  rw [hts, List.length_append]
  omega

/-- A line is never read to its end. -/
theorem Within.lined (h : b.Within b') (hb : b.Lined) : b'.Lined := by
  obtain ⟨ts, hts, hinline⟩ := h.read
  obtain ⟨last, hlast, hnewline⟩ := hb.ends
  refine ⟨?_, fun t ht => hb.inside t (hts ▸ List.mem_append_right _ ht)⟩
  have hne : b'.rest ≠ [] := by
    intro hnil
    rw [hnil, List.append_nil] at hts
    exact (hinline last (hts ▸ List.mem_of_mem_getLast? hlast)).1 hnewline
  rw [hts, List.getLast?_append_of_ne_nil _ hne] at hlast
  exact ⟨last, hlast, hnewline⟩

theorem Lined.exists_cons (hb : b.Lined) : ∃ t ts, b.rest = t :: ts := by
  obtain ⟨last, hlast, _⟩ := hb.ends
  exact List.exists_cons_of_ne_nil (List.ne_nil_of_mem (List.mem_of_mem_getLast? hlast))

theorem Lined.length_pos (hb : b.Lined) : 0 < b.rest.length := by
  obtain ⟨t, ts, hrest⟩ := hb.exists_cons
  simp [hrest]

theorem Lined.peek (hb : b.Lined) : b.peek ∈ b.rest := by
  obtain ⟨t, ts, hrest⟩ := hb.exists_cons
  simp [Builder.peek, hrest]

theorem Lined.more (hb : b.Lined) : b.peek.token ≠ .eof := hb.inside _ hb.peek

theorem Lined.peek_resume (hb : b.Lined) (tail : List Located) (finish : Position) :
    (b.resume tail finish).peek = b.peek := by
  obtain ⟨t, ts, hrest⟩ := hb.exists_cons
  simp [Builder.peek, resume, hrest]

theorem Lined.advance_resume (hb : b.Lined) (tail : List Located) (finish : Position) :
    (b.resume tail finish).advance = b.advance.resume tail finish := by
  obtain ⟨t, ts, hrest⟩ := hb.exists_cons
  simp [Builder.advance, resume, hrest]

theorem Lined.rest_advance (hb : b.Lined) : b.rest = b.peek :: b.advance.rest := by
  obtain ⟨t, ts, hrest⟩ := hb.exists_cons
  simp [Builder.advance, Builder.peek, hrest]

theorem finish_advance (b : Builder) : b.advance.finish = b.finish := by
  unfold Builder.advance
  split <;> rfl

theorem Lined.within_advance (hb : b.Lined) (h : b.peek.token.Inline) : b.Within b.advance :=
  ⟨⟨[b.peek], hb.rest_advance, by simpa using h⟩, b.finish_advance⟩

end

end Builder

namespace Compile

open Builder (Lined Within)

variable {α β : Type}

section
variable (tail : List Located) (finish : Position)

/-- The step looks at no token to come: with more of them it does the same. -/
class Blind (x : Compile α) : Prop where
  same : ∀ c a b', x (c.resume tail finish) = .ok a b' →
    ∃ c', b' = c'.resume tail finish ∧ x c = .ok a c' ∧ c'.rest = c.rest ∧ c'.finish = c.finish

/-- In a whole line the one step succeeds with more tokens to come only as the other does without
them. -/
def Inside (x y : Compile α) (c : Builder) : Prop :=
  ∀ a b', x (c.resume tail finish) = .ok a b' →
    ∃ c', b' = c'.resume tail finish ∧ y c = .ok a c' ∧ c.Within c'

/-- In any whole line the step does the same with more tokens to come. -/
class Inner (x : Compile α) : Prop where
  inside : ∀ c : Builder, c.Lined → Inside tail finish x x c

end

variable {tail : List Located} {finish : Position}

namespace Blind

instance (a : α) : Blind tail finish (pure a : Compile α) where
  same c _ _ h := by
    obtain ⟨rfl, rfl⟩ := pure_eq_ok.mp h
    exact ⟨c, rfl, rfl, rfl, rfl⟩

instance (t : Located) (e : Complaint) : Blind tail finish (complain t e : Compile α) where
  same _ _ _ h := absurd h throw_ne_ok

theorem seq {x : Compile α} {f : α → Compile β} (hx : Blind tail finish x)
    (hf : ∀ a, Blind tail finish (f a)) : Blind tail finish (x >>= f) where
  same c a b' h := by
    obtain ⟨v, u, hu, h⟩ := bind_eq_ok.mp h
    obtain ⟨d, rfl, hd, hrest, hfinish⟩ := hx.same c v u hu
    obtain ⟨c', hb', hc', hrest', hfinish'⟩ := (hf v).same d a b' h
    exact ⟨c', hb', bind_eq_ok.mpr ⟨v, d, hd, hc'⟩, hrest'.trans hrest, hfinish'.trans hfinish⟩

instance (x : Compile α) (f : α → Compile β) [Blind tail finish x] [∀ a, Blind tail finish (f a)] :
    Blind tail finish (x >>= f) :=
  seq inferInstance inferInstance

instance (p : Prop) [Decidable p] (x y : Compile α) [Blind tail finish x] [Blind tail finish y] :
    Blind tail finish (if p then x else y) := by
  split <;> assumption

/-- What is read of the state is not about the tokens to come. -/
theorem get_bind {f : Builder → Compile α} (hf : ∀ c, f (c.resume tail finish) = f c)
    (h : ∀ c, Blind tail finish (f c)) : Blind tail finish (get >>= f) where
  same c a b' hx := by
    change f (c.resume tail finish) (c.resume tail finish) = .ok a b' at hx
    rw [hf] at hx
    exact (h c).same c a b' hx

theorem modify {f : Builder → Builder}
    (hf : ∀ c, f (c.resume tail finish) = (f c).resume tail finish)
    (h : ∀ c, (f c).rest = c.rest ∧ (f c).finish = c.finish) :
    Blind tail finish (modify f : Compile Unit) where
  same c a b' hx := by
    refine ⟨f c, ?_, rfl, h c⟩
    rw [← hf]
    exact (modify_eq_ok.mp hx).symm

end Blind

instance : Blind tail finish last := .get_bind (fun _ => rfl) fun _ => inferInstance

instance : Blind tail finish offset := .get_bind (fun _ => rfl) fun _ => inferInstance

instance (bytes : List UInt8) : Blind tail finish (emitBytes bytes) :=
  .modify (fun _ => rfl) fun _ => ⟨rfl, rfl⟩

instance (op : Opcode) : Blind tail finish (emit op) := by dsimp only [emit]; infer_instance

instance (op : Opcode) (operand : UInt8) : Blind tail finish (emitWith op operand) := by
  dsimp only [emitWith]; infer_instance

instance (op : Opcode) : Blind tail finish (emitJump op) := by dsimp only [emitJump]; infer_instance

instance (add : Chunk → Except PoolFault (Chunk × UInt8)) : Blind tail finish (enter add) where
  same c a b' h := by
    obtain ⟨_, _, hget, h⟩ := bind_eq_ok.mp h
    obtain ⟨rfl, rfl⟩ := get_eq_ok.mp hget
    have hsame : (c.resume tail finish).chunk = c.chunk := rfl
    rw [hsame] at h
    cases hchunk : add c.chunk with
    | error fault =>
      rw [hchunk] at h
      exact absurd h throw_ne_ok
    | ok r =>
      rw [hchunk] at h
      obtain ⟨_, _, hset, h⟩ := bind_eq_ok.mp h
      cases set_eq_ok.mp hset
      obtain ⟨rfl, rfl⟩ := pure_eq_ok.mp h
      refine ⟨c.modifyChunk fun _ => r.1, rfl, ?_, rfl, rfl⟩
      refine bind_eq_ok.mpr ⟨c, c, rfl, ?_⟩
      rw [hchunk]
      rfl

instance (content : String) : Blind tail finish (textConstant content) := by
  dsimp only [textConstant]; infer_instance

instance (name : String) : Blind tail finish (resolve name) := by
  refine .get_bind (fun _ => rfl) fun c => ?_
  split <;> infer_instance

instance (f : Chunk → Chunk) : Blind tail finish (modify (·.modifyChunk f) : Compile Unit) :=
  .modify (fun _ => rfl) fun _ => ⟨rfl, rfl⟩

instance (at_ : Nat) : Blind tail finish (patchJump at_) := by
  unfold patchJump
  refine .seq inferInstance fun n => ?_
  split <;> infer_instance

instance (start : Nat) : Blind tail finish (emitLoop start) := by
  unfold emitLoop
  refine .seq inferInstance fun _ => .seq inferInstance fun n => ?_
  split <;> infer_instance

instance (name : Option String) (t : Located) : Blind tail finish (addLocal name t) := by
  refine .get_bind (fun _ => rfl) fun c => ?_
  have hadd : Blind tail finish (modify fun b : Builder =>
      {b.modifyFunction b.current fun f => {f with locals := f.locals.push (name.getD "(repeat)")}
        with locals := ⟨name, b.depth⟩ :: b.locals} : Compile Unit) :=
    .modify (fun _ => rfl) fun _ => ⟨rfl, rfl⟩
  infer_instance

instance : Blind tail finish beginScope := .modify (fun _ => rfl) fun _ => ⟨rfl, rfl⟩

instance : Blind tail finish endScope where
  same c a b' h := by
    obtain ⟨_, _, hget, h⟩ := bind_eq_ok.mp h
    obtain ⟨rfl, rfl⟩ := get_eq_ok.mp hget
    obtain ⟨_, _, hset, h⟩ := bind_eq_ok.mp h
    cases set_eq_ok.mp hset
    exact ⟨after endScope c, (modify_eq_ok.mp h).symm, rfl, rfl, rfl⟩

/-! Inside a line. -/

section
variable {c : Builder}

theorem Inside.bind {x y : Compile α} {f g : α → Compile β} (hc : c.Lined)
    (hx : Inside tail finish x y c)
    (hf : ∀ a c', y c = .ok a c' → c'.Lined → c.Within c' → Inside tail finish (f a) (g a) c') :
    Inside tail finish (x >>= f) (y >>= g) c := by
  intro b b' h
  obtain ⟨a, u, hu, h⟩ := bind_eq_ok.mp h
  obtain ⟨d, rfl, hd, hwithin⟩ := hx a u hu
  obtain ⟨c', hb', hc', hwithin'⟩ := hf a d hd (hwithin.lined hc) hwithin b b' h
  exact ⟨c', hb', bind_eq_ok.mpr ⟨a, d, hd, hc'⟩, hwithin.trans hwithin'⟩

/-- What is read off both states is the same. -/
theorem Inside.read {x : Compile α} {f g : α → Compile β} {a : α}
    (hx : x (c.resume tail finish) = .ok a (c.resume tail finish)) (hy : x c = .ok a c)
    (hf : Inside tail finish (f a) (g a) c) : Inside tail finish (x >>= f) (x >>= g) c := by
  intro b b' h
  obtain ⟨v, u, hu, h⟩ := bind_eq_ok.mp h
  cases hx.symm.trans hu
  obtain ⟨c', hb', hc', hwithin⟩ := hf b b' h
  exact ⟨c', hb', bind_eq_ok.mpr ⟨a, c, hy, hc'⟩, hwithin⟩

theorem Inside.get {f g : Builder → Compile α}
    (hf : Inside tail finish (f (c.resume tail finish)) (g c) c) :
    Inside tail finish (get >>= f) (get >>= g) c := hf

theorem Inside.peek {f g : Located → Compile α} (hc : c.Lined)
    (hf : Inside tail finish (f c.peek) (g c.peek) c) :
    Inside tail finish (peek >>= f) (peek >>= g) c := by
  refine Inside.read ?_ rfl hf
  change EStateM.Result.ok (c.resume tail finish).peek _ = _
  rw [hc.peek_resume]

theorem Inside.advance (hc : c.Lined) (h : c.peek.token.Inline) :
    Inside tail finish advance advance c := by
  intro a b' hb'
  refine ⟨c.advance, ?_, rfl, hc.within_advance h⟩
  rw [← modify_eq_ok.mp hb', hc.advance_resume]

end

namespace Inner

instance of_blind (x : Compile α) [h : Blind tail finish x] : Inner tail finish x where
  inside c _ a b' hx := by
    obtain ⟨c', hb', hc', hrest, hfinish⟩ := h.same c a b' hx
    exact ⟨c', hb', hc', ⟨⟨[], by rw [hrest]; rfl, by simp⟩, hfinish⟩⟩

theorem seq {x : Compile α} {f : α → Compile β} (hx : Inner tail finish x)
    (hf : ∀ a, Inner tail finish (f a)) : Inner tail finish (x >>= f) where
  inside c hc := .bind hc (hx.inside c hc) fun a c' _ hc' _ => (hf a).inside c' hc'

instance (x : Compile α) (f : α → Compile β) [Inner tail finish x]
    [∀ a, Inner tail finish (f a)] : Inner tail finish (x >>= f) :=
  seq inferInstance inferInstance

instance (p : Prop) [Decidable p] (x y : Compile α) [Inner tail finish x] [Inner tail finish y] :
    Inner tail finish (if p then x else y) := by
  split <;> assumption

theorem get_bind {f : Builder → Compile α} (hf : ∀ c, f (c.resume tail finish) = f c)
    (h : ∀ c, Inner tail finish (f c)) : Inner tail finish (get >>= f) where
  inside c hc a b' hx := by
    change f (c.resume tail finish) (c.resume tail finish) = .ok a b' at hx
    rw [hf] at hx
    exact (h c).inside c hc a b' hx

end Inner

instance : Inner tail finish peek where
  inside c hc a b' h := by
    cases h
    rw [hc.peek_resume]
    exact ⟨c, rfl, rfl, .refl c⟩

instance (token : Token) : Inner tail finish (check token) := by dsimp only [check]; infer_instance

theorem accept_eq (token : Token) (b : Builder) :
    accept token b = if b.peek.token == token then .ok true b.advance else .ok false b := by
  change (if b.peek.token == token then _ else _ : Compile Bool) b = _
  split <;> rfl

theorem inner_accept {token : Token} (ht : token.Inline) : Inner tail finish (accept token) where
  inside c hc a b' h := by
    rw [accept_eq, hc.peek_resume] at h
    rw [accept_eq]
    split at h
    · next heq =>
      cases h
      rw [hc.advance_resume, if_pos heq]
      exact ⟨_, rfl, rfl, hc.within_advance (eq_of_beq heq ▸ ht)⟩
    · next hne =>
      cases h
      rw [if_neg hne]
      exact ⟨c, rfl, rfl, .refl c⟩

instance (s : Symbol) : Inner tail finish (accept (.symbol s)) := inner_accept (Token.inline_symbol s)

instance (s : Symbol) (what : String) : Inner tail finish (consume (.symbol s) what) := by
  dsimp only [consume]; infer_instance

instance (what : String) : Inner tail finish (header what) := by dsimp only [header]; infer_instance

instance (what : String) : Inner tail finish (consumeName what) where
  inside c hc := by
    refine .peek hc ?_
    split
    · next word hword =>
      exact .bind hc (.advance hc (hword ▸ Token.inline_name word)) fun _ c' _ hc' _ =>
        (inferInstance : Inner tail finish (pure word)).inside c' hc'
    · intro a b' h
      exact absurd h throw_ne_ok

theorem rest_of_accept {token : Token} {c c' : Builder} (hc : c.Lined)
    (h : accept token c = .ok true c') : c.rest.length = c'.rest.length+1 := by
  rw [accept_eq] at h
  split at h
  · cases h
    rw [hc.rest_advance, List.length_cons]
  · cases h

section
variable (inner : Precedence → Compile Unit) [∀ p, Inner tail finish (inner p)]

/-- As long as there is a budget for every token to come, it makes no difference. -/
theorem arguments_inside (budget budget' : List Located) (n : Nat) {c : Builder} (hc : c.Lined)
    (h : c.rest.length ≤ budget.length) (h' : c.rest.length ≤ budget'.length) :
    Inside tail finish (arguments inner budget n) (arguments inner budget' n) c := by
  induction budget generalizing budget' n c with
  | nil => exact absurd hc.length_pos (Nat.not_lt.mpr h)
  | cons t budget ih =>
    cases budget' with
    | nil => exact absurd hc.length_pos (Nat.not_lt.mpr h')
    | cons t' budget' =>
      refine .bind hc ((inferInstance : Inner tail finish (inner .assign)).inside c hc)
        fun _ c1 _ hc1 hwithin => ?_
      refine .bind hc1 ((inferInstance : Inner tail finish (accept _)).inside c1 hc1)
        fun more c2 haccept hc2 _ => ?_
      cases more with
      | true =>
        have hlength := hwithin.length
        have hread := rest_of_accept hc1 haccept
        simp only [List.length_cons] at h h'
        exact ih budget' (n+1) hc2 (by omega) (by omega)
      | false => exact (inferInstance : Inner tail finish (pure (n+1))).inside c2 hc2

instance (k : Nat → Compile α) [∀ n, Inner tail finish (k n)] :
    Inner tail finish (do k (← arguments inner (← get).rest 0)) where
  inside c hc := by
    refine .get (.bind hc (arguments_inside inner _ _ 0 hc ?_ (Nat.le_refl _)) fun n c' _ hc' _ =>
      (inferInstance : Inner tail finish (k n)).inside c' hc')
    simp [Builder.resume]

instance (t : Located) (name : String) (arity : Nat) :
    Inner tail finish (callWith inner t name arity) := by
  dsimp only [callWith]; infer_instance

instance (t : Located) (name : String) : Inner tail finish (call inner t name) := by
  refine .get_bind (fun _ => rfl) fun c => ?_
  split
  · infer_instance
  · split <;> infer_instance

instance (t : Located) (name : String) (canAssign : Bool) :
    Inner tail finish (variable_ inner t name canAssign) := by
  unfold variable_
  refine .seq inferInstance fun paren => ?_
  split
  · infer_instance
  · refine .seq inferInstance fun v => ⟨fun c hc => .peek hc ?_⟩
    split
    · exact (inferInstance : Inner tail finish (emitWith _ _)).inside c hc
    · next assignment h =>
      have hinline : c.peek.token.Inline := by
        split at h
        · exact Assignment.inline h
        · cases h
      exact .bind hc (.advance hc hinline) fun _ c' _ hc' _ =>
        (inferInstance : Inner tail finish (do
          if assignment.hasOperand then inner .assign
          emitWith (assignment.opcode v.scope) v.operand)).inside c' hc'

instance (t : Located) (canAssign : Bool) : Inner tail finish (leading inner t canAssign) := by
  unfold leading
  split <;> infer_instance

/-- What an operand starts with is no end of line and opens no block. -/
theorem inline_of_leading {t : Located} {canAssign : Bool} {b b' : Builder} {a : Unit}
    (h : leading inner t canAssign b = .ok a b') : t.token.Inline := by
  obtain ⟨token, pos⟩ := t
  dsimp only [leading] at h
  split at h
  case h_11 => exact absurd h throw_ne_ok
  all_goals exact ⟨by simp, fun _ => rfl⟩

instance (i : Infix) : Inner tail finish (joined inner i) := by
  unfold joined
  split <;> infer_instance

theorem following_inside (p : Precedence) (budget budget' : List Located) {c : Builder}
    (hc : c.Lined) (h : c.rest.length ≤ budget.length) (h' : c.rest.length ≤ budget'.length) :
    Inside tail finish (following inner p budget) (following inner p budget') c := by
  induction budget generalizing budget' c with
  | nil => exact absurd hc.length_pos (Nat.not_lt.mpr h)
  | cons t budget ih =>
    cases budget' with
    | nil => exact absurd hc.length_pos (Nat.not_lt.mpr h')
    | cons t' budget' =>
      have hstop : Inside tail finish (pure ()) (pure ()) c :=
        (inferInstance : Inner tail finish (pure ())).inside c hc
      refine .peek hc ?_
      cases hi : Infix.ofToken? c.peek.token with
      | none => exact hstop
      | some i =>
        dsimp only
        split
        · refine .bind hc (.advance hc (Infix.inline hi)) fun _ c1 hadvance hc1 _ => ?_
          refine .bind hc1 ((inferInstance : Inner tail finish (joined inner i)).inside c1 hc1)
            fun _ c2 _ hc2 hwithin => ?_
          have hlength := hwithin.length
          have hread := congrArg List.length hc.rest_advance
          rw [modify_eq_ok.mp hadvance] at hread
          simp only [List.length_cons] at h h' hread
          exact ih budget' hc2 (by omega) (by omega)
        · exact hstop

omit [∀ p, Inner tail finish (inner p)] in
/-- The first token of an operand is read before it is looked at. -/
theorem inline_of_operand {p : Precedence} {c b' : Builder} {a : Unit} (hc : c.Lined)
    (h : operand inner p (c.resume tail finish) = .ok a b') : c.peek.token.Inline := by
  obtain ⟨_, u, hu, h⟩ := bind_eq_ok.mp h
  rw [← modify_eq_ok.mp hu, hc.advance_resume] at h
  obtain ⟨t, _, hlast, h⟩ := bind_eq_ok.mp h
  cases hlast
  obtain ⟨_, _, hleading, _⟩ := bind_eq_ok.mp h
  have hread : (c.advance.resume tail finish).last = c.peek := by
    obtain ⟨t, ts, hrest⟩ := hc.exists_cons
    simp [Builder.advance, Builder.peek, Builder.resume, hrest]
  exact hread ▸ inline_of_leading inner hleading

instance (p : Precedence) : Inner tail finish (operand inner p) where
  inside c hc a b' h := by
    have hinline := inline_of_operand inner hc h
    refine Inside.bind hc (.advance hc hinline) (fun _ c1 _ hc1 _ => ?_) a b' h
    refine .bind hc1 ((inferInstance : Inner tail finish last).inside c1 hc1) fun t c2 _ hc2 _ => ?_
    refine .bind hc2 ((inferInstance : Inner tail finish (leading inner t _)).inside c2 hc2)
      fun _ c3 _ hc3 _ => .get ?_
    refine .bind hc3 (following_inside inner p _ _ hc3 (by simp [Builder.resume]) (Nat.le_refl _))
      fun _ c4 _ hc4 _ => ?_
    exact (inferInstance : Inner tail finish (do
      let t ← peek
      if (Assignment.ofToken? t.token).isSome then complain t .assignmentTarget)).inside c4 hc4

end

instance : Inner tail finish (tooDeep : Compile Unit) := by dsimp only [tooDeep]; infer_instance

instance inner_operandAt (levels : Nat) (p : Precedence) : Inner tail finish (operandAt levels p) := by
  induction levels generalizing p with
  | zero => dsimp only [operandAt]; infer_instance
  | succ levels ih => dsimp only [operandAt]; infer_instance

theorem parameters_inside (budget budget' : List Located) (found : Array (String × Located))
    {c : Builder} (hc : c.Lined) (h : c.rest.length ≤ budget.length)
    (h' : c.rest.length ≤ budget'.length) :
    Inside tail finish (parameters budget found) (parameters budget' found) c := by
  induction budget generalizing budget' found c with
  | nil => exact absurd hc.length_pos (Nat.not_lt.mpr h)
  | cons t budget ih =>
    cases budget' with
    | nil => exact absurd hc.length_pos (Nat.not_lt.mpr h')
    | cons t' budget' =>
      refine .bind hc ((inferInstance : Inner tail finish (consumeName _)).inside c hc)
        fun name c1 _ hc1 hname => ?_
      refine .bind hc1 ((inferInstance : Inner tail finish last).inside c1 hc1)
        fun t c2 _ hc2 hlast => ?_
      dsimp only
      split
      · intro _ _ h
        obtain ⟨_, _, hfail, _⟩ := bind_eq_ok.mp h
        exact absurd hfail throw_ne_ok
      · refine .bind hc2 ((inferInstance : Inner tail finish (accept _)).inside c2 hc2)
          fun more c3 haccept hc3 _ => ?_
        cases more with
        | true =>
          have hlength := hname.length
          have hlength' := hlast.length
          have hread := rest_of_accept hc2 haccept
          simp only [List.length_cons] at h h'
          exact ih budget' _ hc3 (by omega) (by omega)
        | false => exact (inferInstance : Inner tail finish (pure (found.push (name, t)))).inside c3 hc3

instance (k : Array (String × Located) → Compile α) [∀ found, Inner tail finish (k found)] :
    Inner tail finish (do k (← parameters ((← peek) :: (← get).rest) #[])) where
  inside c hc := by
    refine .peek hc (.get (.bind hc (parameters_inside _ _ #[] hc ?_ ?_) fun found c' _ hc' _ =>
      (inferInstance : Inner tail finish (k found)).inside c' hc'))
    · simp [Builder.resume]
      omega
    · simp

instance : Inner tail finish parameterList := by dsimp only [parameterList]; infer_instance

end Compile
end RatScript
