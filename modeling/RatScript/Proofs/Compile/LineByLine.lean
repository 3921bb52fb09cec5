import RatScript.Proofs.Compile.FirstLines

/-!
A script without blocks and runnables is compiled line by line: each of its lines alongside the same
line as a script of its own. What differs is the code and the constants that stand before, and the
lines behind. So each line has its own report, but for a line that fails at its very end: the line
behind that one is skipped with it.
-/

set_option synthInstance.maxSize 65536

namespace RatScript

open Stateful

/-- A line of a script: what comes behind it, where the tokens end, how much code stands before and
what was reported before. -/
structure Span where
  line : List Located
  tail : List Located
  finish : Position
  before : Nat
  reported : Array Diagnostic

/-- Tokens up to the end of a line, or in the last line up to the last one. -/
def IsLine (tail : List Located) : List Located → Prop
  | [] => tail = []
  | t :: rest => if t.token = .newline then rest = [] else t.token ≠ .eof ∧ IsLine tail rest

/-- Whether a statement that starts with the token has a body of lines. -/
def Token.opens : Token → Bool
  | .keyword .if_ | .keyword .while_ | .keyword .repeat_ | .keyword .runnable => true
  | _ => false

/-- The report of a line that was read to its end before it failed. -/
def Diagnostic.atEnd (d : Diagnostic) : Bool :=
  d.complaint == .expected "expression" && d.lexeme == Token.newline.spelling

/-- The token is of the line, or it is the end of all tokens. -/
class Span.Has (s : Span) (t : Located) : Prop where
  has : t ∈ s.line ∨ t = ⟨.eof, s.finish⟩

namespace Builder

/-- Nothing but the script is being compiled. -/
def Bare (b : Builder) : Prop := b.current = 0 ∧ ∃ f, b.functions = #[f]

theorem Bare.modifyChunk {b : Builder} (h : b.Bare) (f : Chunk → Chunk) :
    (b.modifyChunk f).Bare := by
  obtain ⟨hcurrent, g, hg⟩ := h
  refine ⟨hcurrent, {g with chunk := f g.chunk}, ?_⟩
  rw [Builder.modifyChunk, modifyFunction, hcurrent, hg]
  rfl

theorem Bare.chunk_modifyChunk {b : Builder} (h : b.Bare) (f : Chunk → Chunk) :
    (b.modifyChunk f).chunk = f b.chunk := by
  obtain ⟨hcurrent, g, hg⟩ := h
  exact Builder.chunk_modifyChunk (by rw [hcurrent, hg]; exact Nat.one_pos) f

theorem Bare.runnable?_eq {b : Builder} (h : b.Bare) (name : String) : b.runnable? name = none := by
  obtain ⟨-, f, hf⟩ := h
  rw [runnable?, hf]
  rfl

theorem Bare.inRunnable_eq {b : Builder} (h : b.Bare) : b.inRunnable = false := by
  rw [inRunnable, h.1]
  rfl

theorem Bare.slot?_eq {b : Builder} (h : b.Bare) (name : String) : b.slot? name = none := by
  rw [slot?, h.inRunnable_eq]
  rfl

/-- Two compilations have come to the same token of a line, the one in a script, the other where
the line stands alone. -/
structure Abreast (s : Span) (b c : Builder) : Prop where
  rest : b.rest = c.rest++s.tail
  line : c.rest <:+ s.line
  finish : b.finish = s.finish
  ending : c.finish = s.finish
  script : b.Bare
  alone : c.Bare
  size : b.chunk.code.size = c.chunk.code.size+s.before
  reports : b.diagnostics = s.reported
  silent : c.diagnostics = #[]

/-- They have also read the same token last, one of the line. -/
structure Beside (s : Span) (b c : Builder) : Prop extends b.Abreast s c where
  last : b.last = c.last
  read : c.last ∈ s.line

end Builder

namespace Compile

open Builder (Abreast Beside Bare)

variable {α β γ δ : Type}

/-- How two compilations of a line may end: with results that go together, with the same report, or
in want of room for a constant. -/
inductive Alike (s : Span) (V : α → β → Prop) (Q : List Located → Prop) (start : Builder) :
    EStateM.Result Diagnostic Builder α → EStateM.Result Diagnostic Builder β → Prop
  | done {a a' b c} (value : V a a') (beside : Beside s b c) (line : Q c.rest)
      (onward : c.rest <:+ start.rest) : Alike s V Q start (.ok a b) (.ok a' c)
  | failed {d b c} (abreast : Abreast s b c) (cites : ∃ t, s.Has t ∧ d.pos = t.pos)
      (line : if d.atEnd then c.rest = [] else IsLine s.tail c.rest) :
      Alike s V Q start (.error d b) (.error d c)
  | full {d b r} (kind : d.kind = .constantsOverflow) : Alike s V Q start (.error d b) r
  | filled {d c r} (kind : d.kind = .constantsOverflow) : Alike s V Q start r (.error d c)

/-- Two steps that do the same to a line. -/
def Twin (s : Span) (V : α → β → Prop) (Q : List Located → Prop) (x : Compile α) (y : Compile β) :
    Prop :=
  ∀ b c, Beside s b c → IsLine s.tail c.rest → Alike s V Q c (x b) (y c)

/-- Two steps that do the same to a line, and give the same. -/
class TwinsTo (s : Span) (Q : List Located → Prop) (x y : Compile α) : Prop where
  twin : Twin s Eq Q x y

/-- Two steps inside a line. -/
abbrev Twins (s : Span) (x y : Compile α) : Prop := TwinsTo s (IsLine s.tail) x y

section
variable {s : Span} {V : α → β → Prop} {W : γ → δ → Prop} {Q : List Located → Prop}

namespace Alike

theorem back {c start : Builder} {r : EStateM.Result Diagnostic Builder α}
    {r' : EStateM.Result Diagnostic Builder β} (h : Alike s V Q c r r')
    (honward : c.rest <:+ start.rest) : Alike s V Q start r r' := by
  cases h with
  | done value beside line onward => exact .done value beside line (onward.trans honward)
  | failed abreast cites line => exact .failed abreast cites line
  | full kind => exact .full kind
  | filled kind => exact .filled kind

theorem bind {b c start : Builder} {x : Compile α} {y : Compile β} {f : α → Compile γ}
    {g : β → Compile δ} (hx : Alike s V (IsLine s.tail) start (x b) (y c))
    (hf : ∀ a a' b c, V a a' → Beside s b c → IsLine s.tail c.rest → c.rest <:+ start.rest →
      Alike s W Q c (f a b) (g a' c)) : Alike s W Q start ((x >>= f) b) ((y >>= g) c) := by
  simp only [Bind.bind, EStateM.bind]
  generalize x b = r at hx ⊢
  generalize y c = r' at hx ⊢
  cases hx with
  | done value beside line onward => exact (hf _ _ _ _ value beside line onward).back onward
  | failed abreast cites line => exact .failed abreast cites line
  | full kind => exact .full kind
  | filled kind => exact .filled kind

end Alike

theorem Twin.bind {x : Compile α} {y : Compile β} {f : α → Compile γ} {g : β → Compile δ}
    (hx : Twin s V (IsLine s.tail) x y) (hf : ∀ a a', V a a' → Twin s W Q (f a) (g a')) :
    Twin s W Q (x >>= f) (y >>= g) :=
  fun b c hb hline => (hx b c hb hline).bind fun a a' b c hv hb hline _ => hf a a' hv b c hb hline

namespace TwinsTo

theorem seq {x y : Compile α} {f g : α → Compile β} (hx : Twins s x y)
    (hf : ∀ a, TwinsTo s Q (f a) (g a)) : TwinsTo s Q (x >>= f) (y >>= g) where
  twin := hx.twin.bind fun a _ h => h ▸ (hf a).twin

instance (x y : Compile α) (f g : α → Compile β) [Twins s x y] [∀ a, TwinsTo s Q (f a) (g a)] :
    TwinsTo s Q (x >>= f) (y >>= g) :=
  seq inferInstance inferInstance

instance (a : α) : Twins s (pure a : Compile α) (pure a) where
  twin _ _ hb hline := .done rfl hb hline (List.suffix_refl _)

instance (p : Prop) [Decidable p] (x y x' y' : Compile α) [TwinsTo s Q x x'] [TwinsTo s Q y y'] :
    TwinsTo s Q (if p then x else y) (if p then x' else y') := by
  split <;> assumption

end TwinsTo

/-- Complaints that do not come from the end of a line that was read. -/
class Timely (c : Complaint) : Prop where
  timely : c ≠ .expected "expression"

instance : Timely (.expected "')' after arguments") := ⟨by decide⟩

instance : Timely (.expected "')' after expression") := ⟨by decide⟩

instance : Timely (.expected "'(' after runnable name") := ⟨by decide⟩

instance : Timely (.expected "variable name after 'rat'") := ⟨by decide⟩

instance : Timely (.expected "end of line after statement") := ⟨by decide⟩

instance : Timely .assignmentTarget := ⟨nofun⟩

instance : Timely .returnFromScript := ⟨nofun⟩

instance : Timely .jumpTooLong := ⟨nofun⟩

instance : Timely .tooDeep := ⟨nofun⟩

instance (k : Keyword) : Timely (.strayCloser k) := ⟨nofun⟩

instance (name : String) : Timely (.undeclaredRunnable name) := ⟨nofun⟩

instance (name : String) (arity count : Nat) : Timely (.argumentCount name arity count) := ⟨nofun⟩

theorem complain_alike {b c : Builder} (hb : Abreast s b c) (hline : IsLine s.tail c.rest)
    (t : Located) [ht : s.Has t] (e : Complaint) [he : Timely e] :
    Alike s V Q c (complain t e b : EStateM.Result Diagnostic Builder α)
      (complain t e c : EStateM.Result Diagnostic Builder β) := by
  refine .failed hb ⟨t, ht, rfl⟩ ?_
  rw [if_neg]
  · exact hline
  · rw [Diagnostic.atEnd, Bool.and_eq_true, beq_iff_eq]
    exact fun h => he.timely h.1

instance (t : Located) [s.Has t] (e : Complaint) [Timely e] :
    TwinsTo s Q (complain t e : Compile α) (complain t e) where
  twin _ _ hb hline := complain_alike hb.toAbreast hline t e

theorem peek_eq {b c : Builder} (hb : Abreast s b c) (hline : IsLine s.tail c.rest) :
    b.peek = c.peek ∧ s.Has c.peek := by
  have hrest := hb.rest
  unfold Builder.peek
  cases hc : c.rest with
  | nil =>
    rw [hc] at hrest hline
    have htail : s.tail = [] := hline
    rw [htail] at hrest
    rw [hrest, hb.finish, hb.ending]
    exact ⟨rfl, ⟨.inr rfl⟩⟩
  | cons t rest =>
    have hread : t ∈ c.rest := hc ▸ List.mem_cons_self ..
    rw [hc] at hrest
    rw [hrest]
    exact ⟨rfl, ⟨.inl (hb.line.subset hread)⟩⟩

instance (t : {t // s.Has t}) : s.Has t.1 := t.2

instance (f g : Located → Compile α) [h : ∀ t : {t // s.Has t}, TwinsTo s Q (f t.1) (g t.1)] :
    TwinsTo s Q (peek >>= f) (peek >>= g) where
  twin b c hb hline := by
    obtain ⟨hpeek, hhas⟩ := peek_eq hb.toAbreast hline
    change Alike s _ _ c (f b.peek b) (g c.peek c)
    rw [hpeek]
    exact (h ⟨c.peek, hhas⟩).twin b c hb hline

theorem last_twins {f g : Located → Compile α} (h : ∀ t, s.Has t → TwinsTo s Q (f t) (g t)) :
    TwinsTo s Q (last >>= f) (last >>= g) where
  twin b c hb hline := by
    change Alike s _ _ c (f b.last b) (g c.last c)
    rw [hb.last]
    exact (h c.last ⟨.inl hb.read⟩).twin b c hb hline

instance (f g : Located → Compile α) [h : ∀ t : {t // s.Has t}, TwinsTo s Q (f t.1) (g t.1)] :
    TwinsTo s Q (last >>= f) (last >>= g) :=
  last_twins fun t ht => h ⟨t, ht⟩

instance (token : Token) : Twins s (check token) (check token) := by
  dsimp only [check]; infer_instance

/-- Inside a line a token is read that does not end it. -/
theorem advance_beside {b c : Builder} (hb : Abreast s b c) (hline : IsLine s.tail c.rest)
    (hinside : c.peek.token ≠ .newline) (hlast : c.rest = [] → Beside s b c) :
    Beside s b.advance c.advance ∧ IsLine s.tail c.advance.rest ∧ c.advance.rest <:+ c.rest := by
  have hrest := hb.rest
  cases hc : c.rest with
  | nil =>
    rw [hc] at hrest hline
    have htail : s.tail = [] := hline
    rw [htail] at hrest
    have hadvance : b.advance = b ∧ c.advance = c := by
      rw [Builder.advance, Builder.advance, hc, hrest]
      exact ⟨rfl, rfl⟩
    rw [hadvance.1, hadvance.2, hc]
    exact ⟨hlast hc, hline, List.suffix_refl _⟩
  | cons t rest =>
    have hread : t ∈ s.line := hb.line.subset (hc ▸ List.mem_cons_self ..)
    have hon : rest <:+ c.rest := hc ▸ List.suffix_cons ..
    rw [Builder.peek, hc] at hinside
    rw [hc] at hrest hline
    rw [IsLine, if_neg hinside] at hline
    rw [Builder.advance, Builder.advance, hc, hrest]
    exact ⟨⟨⟨rfl, hon.trans hb.line, hb.finish, hb.ending, hb.script, hb.alone, hb.size, hb.reports,
      hb.silent⟩, rfl, hread⟩, hline.2, List.suffix_cons ..⟩

/-- The end of a line is read, and with it the line is over. -/
theorem advance_end {b c : Builder} (hb : Abreast s b c) (hline : IsLine s.tail c.rest)
    (hend : c.peek.token = .newline) :
    Beside s b.advance c.advance ∧ c.advance.rest = [] ∧ c.advance.last.token = .newline := by
  have hrest := hb.rest
  cases hc : c.rest with
  | nil =>
    rw [peek_of_rest hc] at hend
    cases hend
  | cons t rest =>
    have hread : t ∈ s.line := hb.line.subset (hc ▸ List.mem_cons_self ..)
    rw [Builder.peek, hc] at hend
    rw [hc, IsLine, if_pos hend] at hline
    rw [hc, hline] at hrest
    rw [Builder.advance, Builder.advance, hc, hrest, hline]
    exact ⟨⟨⟨rfl, List.nil_suffix, hb.finish, hb.ending, hb.script, hb.alone, hb.size, hb.reports,
      hb.silent⟩, rfl, hread⟩, rfl, hend⟩

theorem accept_twins {token : Token} (h : token ≠ .newline) :
    Twins s (accept token) (accept token) where
  twin b c hb hline := by
    obtain ⟨hpeek, -⟩ := peek_eq hb.toAbreast hline
    rw [accept_eq, accept_eq, hpeek]
    split
    · next heq =>
      have hinside : c.peek.token ≠ .newline := (eq_of_beq heq).symm ▸ h
      obtain ⟨hb', hline', hon⟩ := advance_beside hb.toAbreast hline hinside fun _ => hb
      exact .done rfl hb' hline' hon
    · exact .done rfl hb hline (List.suffix_refl _)

instance (x : Symbol) : Twins s (accept (.symbol x)) (accept (.symbol x)) := accept_twins nofun

instance (x : Symbol) (what : String) [Timely (.expected what)] :
    Twins s (consume (.symbol x) what) (consume (.symbol x) what) := by
  dsimp only [consume]; infer_instance

instance (what : String) [Timely (.expected what)] :
    Twins s (consumeName what) (consumeName what) where
  twin b c hb hline := by
    obtain ⟨hpeek, hhas⟩ := peek_eq hb.toAbreast hline
    unfold consumeName
    rw [peek_bind, peek_bind, hpeek]
    cases hword : c.peek.token with
    | name word =>
      have hinside : c.peek.token ≠ .newline := by
        rw [hword]
        exact nofun
      obtain ⟨hb', hline', hon⟩ := advance_beside hb.toAbreast hline hinside fun _ => hb
      exact .done rfl hb' hline' hon
    | _ => exact complain_alike hb.toAbreast hline c.peek (.expected what)

theorem get_twins {f g : Builder → Compile α} (h : ∀ b c, Beside s b c → TwinsTo s Q (f b) (g c)) :
    TwinsTo s Q (get >>= f) (get >>= g) where
  twin b c hb hline := (h b c hb).twin b c hb hline

/-! A result that is not the same is handed on to what makes no use of it. -/

instance (x x' : Compile α) (f f' : α → Compile β) (g g' : β → Compile γ)
    [h : TwinsTo s Q (x >>= fun a => f a >>= g) (x' >>= fun a => f' a >>= g')] :
    TwinsTo s Q (x >>= f >>= g) (x' >>= f' >>= g') := by
  rw [bind_assoc, bind_assoc]
  exact h

instance (p : Prop) [Decidable p] (x y x' y' : Compile α) (f g : α → Compile β)
    [TwinsTo s Q (x >>= f) (x' >>= g)] [TwinsTo s Q (y >>= f) (y' >>= g)] :
    TwinsTo s Q ((if p then x else y) >>= f) ((if p then x' else y') >>= g) := by
  split <;> assumption

instance (a a' : α) (f g : α → Compile β) [h : TwinsTo s Q (f a) (g a')] :
    TwinsTo s Q (pure a >>= f) (pure a' >>= g) := by
  rw [pure_bind, pure_bind]
  exact h

instance (t : Located) [s.Has t] (e : Complaint) [Timely e] (f g : α → Compile β) :
    TwinsTo s Q (complain t e >>= f) (complain t e >>= g) where
  twin _ _ hb hline := complain_alike hb.toAbreast hline t e

/-! Code and constants. -/

theorem modifyChunk_beside {b c : Builder} (hb : Beside s b c) (f g : Chunk → Chunk) {n : Nat}
    (hf : (f b.chunk).code.size = b.chunk.code.size+n)
    (hg : (g c.chunk).code.size = c.chunk.code.size+n) :
    Beside s (b.modifyChunk f) (c.modifyChunk g) := by
  have hsize : (b.modifyChunk f).chunk.code.size = (c.modifyChunk g).chunk.code.size+s.before := by
    rw [hb.script.chunk_modifyChunk, hb.alone.chunk_modifyChunk, hf, hg, hb.size]
    omega
  exact ⟨⟨hb.rest, hb.line, hb.finish, hb.ending, hb.script.modifyChunk f, hb.alone.modifyChunk g,
    hsize, hb.reports, hb.silent⟩, hb.last, hb.read⟩

theorem emitBytes_twins {bytes bytes' : List UInt8} (h : bytes.length = bytes'.length) :
    Twins s (emitBytes bytes) (emitBytes bytes') where
  twin b c hb hline := by
    have hsize := Chunk.size_append b.chunk bytes
    rw [h] at hsize
    exact .done rfl (modifyChunk_beside hb _ _ hsize (Chunk.size_append ..)) hline
      (List.suffix_refl _)

instance (bytes : List UInt8) : Twins s (emitBytes bytes) (emitBytes bytes) := emitBytes_twins rfl

instance (op : Opcode) : Twins s (emit op) (emit op) := by dsimp only [emit]; infer_instance

instance (op : Opcode) (operand operand' : UInt8) :
    Twins s (emitWith op operand) (emitWith op operand') :=
  emitBytes_twins rfl

instance (fault : PoolFault) : Timely (.pool fault) := ⟨nofun⟩

/-- A constant that may or may not find room, or that never can be one. -/
def Stores (add : Chunk → Except PoolFault (Chunk × UInt8)) : Prop :=
  (∃ literal, ∀ chunk, add chunk = .error (.unrepresentable literal)) ∨
    ∀ chunk, add chunk = .error .full ∨ ∃ r, add chunk = .ok r ∧ r.1.code = chunk.code

theorem addConstant_stores (chunk : Chunk) (constant : Constant) :
    chunk.addConstant constant = .error .full ∨
      ∃ r, chunk.addConstant constant = .ok r ∧ r.1.code = chunk.code := by
  unfold Chunk.addConstant
  split
  · exact .inr ⟨_, rfl, rfl⟩
  · exact .inl rfl

theorem addText_stores (content : String) : Stores (·.addText content) := by
  refine .inr fun chunk => ?_
  dsimp only [Chunk.addText]
  split
  · exact .inr ⟨_, rfl, rfl⟩
  · exact addConstant_stores chunk _

theorem addNumber_stores (digits : String) : Stores (·.addNumber digits) := by
  unfold Stores Chunk.addNumber
  cases Number.parseFinite? digits with
  | none => exact .inl ⟨digits, fun _ => rfl⟩
  | some value => exact .inr fun chunk => addConstant_stores chunk (.number value)

instance (first second second' third : UInt8) :
    Twins s (emitBytes [first, second, third]) (emitBytes [first, second', third]) :=
  emitBytes_twins rfl

/-- The index of a constant may be another, since other constants stand before it. -/
theorem enter_twin {add : Chunk → Except PoolFault (Chunk × UInt8)} (hadd : Stores add) :
    Twin s (fun _ _ => True) (IsLine s.tail) (enter add) (enter add) := by
  intro b c hb hline
  have hlast : s.Has c.last := ⟨.inl hb.read⟩
  have hfault {fault : PoolFault} {b : Builder} (h : add b.chunk = .error fault) :
      enter add b = complain b.last (.pool fault) b := by
    refine bind_eq_error.mpr (.inr ⟨b, b, rfl, ?_⟩)
    rw [h]
    rfl
  have hroom {r : Chunk × UInt8} {b : Builder} (h : add b.chunk = .ok r) :
      enter add b = .ok r.2 (b.modifyChunk fun _ => r.1) := by
    refine bind_eq_ok.mpr ⟨b, b, rfl, ?_⟩
    rw [h]
    rfl
  rcases hadd with ⟨literal, hnever⟩ | hadd
  · rw [hfault (hnever _), hfault (hnever _), hb.last]
    exact complain_alike hb.toAbreast hline c.last _
  · rcases hadd b.chunk with h | ⟨r, hr, hcode⟩
    · rw [hfault h]
      exact .full rfl
    · rcases hadd c.chunk with h | ⟨r', hr', hcode'⟩
      · rw [hfault h]
        exact .filled rfl
      · rw [hroom hr, hroom hr']
        have hsize : r.1.code.size = b.chunk.code.size+0 := by rw [hcode, Nat.add_zero]
        have hsize' : r'.1.code.size = c.chunk.code.size+0 := by rw [hcode', Nat.add_zero]
        exact .done trivial (modifyChunk_beside hb _ _ hsize hsize') hline (List.suffix_refl _)

instance (digits : String) (f g : UInt8 → Compile α) [h : ∀ i j, TwinsTo s Q (f i) (g j)] :
    TwinsTo s Q (enter (·.addNumber digits) >>= f) (enter (·.addNumber digits) >>= g) where
  twin := (enter_twin (addNumber_stores digits)).bind fun i j _ => (h i j).twin

instance (content : String) (f g : UInt8 → Compile α) [h : ∀ i j, TwinsTo s Q (f i) (g j)] :
    TwinsTo s Q (textConstant content >>= f) (textConstant content >>= g) where
  twin := (enter_twin (addText_stores content)).bind fun i j _ => (h i j).twin

/-- In the script there are no locals. -/
theorem resolve_twins {name : String} {f g : Variable → Compile α}
    (h : ∀ i j, TwinsTo s Q (f ⟨.global, i⟩) (g ⟨.global, j⟩)) :
    TwinsTo s Q (resolve name >>= f) (resolve name >>= g) := by
  unfold resolve
  rw [bind_assoc, bind_assoc]
  refine get_twins fun b c hb => ?_
  rw [hb.script.slot?_eq, hb.alone.slot?_eq]
  dsimp only
  rw [bind_assoc, bind_assoc]
  infer_instance

theorem offset_twin : Twin s (fun n m => n = m+s.before) (IsLine s.tail) offset offset :=
  fun _ _ hb hline => .done hb.size hb hline (List.suffix_refl _)

/-- A jump over a part of the line goes as far in the script as it goes alone. -/
theorem emitJump_twin (op : Opcode) :
    Twin s (fun n m => n = m+s.before) (IsLine s.tail) (emitJump op) (emitJump op) := by
  intro b c hb hline
  have hsize (chunk : Chunk) :
      (chunk.append [op.toByte, 0xff, 0xff]).code.size = chunk.code.size+3 := Chunk.size_append ..
  have hb' : Beside s (b.modifyChunk (·.append [op.toByte, 0xff, 0xff]))
      (c.modifyChunk (·.append [op.toByte, 0xff, 0xff])) :=
    modifyChunk_beside hb _ _ (hsize _) (hsize _)
  refine .done ?_ hb' hline (List.suffix_refl _)
  have hc : (c.modifyChunk (·.append [op.toByte, 0xff, 0xff])).chunk.code.size =
      c.chunk.code.size+3 := by
    rw [hb.alone.chunk_modifyChunk, hsize]
  have hall := hb'.size
  change (b.modifyChunk (·.append [op.toByte, 0xff, 0xff])).chunk.code.size-2 =
    (c.modifyChunk (·.append [op.toByte, 0xff, 0xff])).chunk.code.size-2+s.before
  omega

theorem patchJump_twins {n m : Nat} (h : n = m+s.before) : Twins s (patchJump n) (patchJump m) := by
  refine ⟨offset_twin.bind fun a a' ha => ?_⟩
  have hdistance : a-(n+2) = a'-(m+2) := by omega
  rw [hdistance]
  have hpatch (at_ : Nat) (distance : UInt16) (chunk : Chunk) :
      (chunk.patch at_ distance).code.size = chunk.code.size+0 := by
    simp [Chunk.patch]
  cases Word.ofNat? (a'-(m+2)) with
  | some distance =>
    exact fun b c hb hline =>
      .done rfl (modifyChunk_beside hb _ _ (hpatch ..) (hpatch ..)) hline (List.suffix_refl _)
  | none =>
    exact (inferInstance : Twins s (do complain (← last) .jumpTooLong : Compile Unit) _).twin

/-! Expressions. -/

theorem length_advance {b : Builder} (h : b.peek.token ≠ .eof) :
    b.rest.length = b.advance.rest.length+1 := by
  unfold Builder.peek at h
  unfold Builder.advance
  cases hrest : b.rest with
  | nil =>
    rw [hrest] at h
    exact absurd rfl h
  | cons t rest => rfl

section
variable (inner : Precedence → Compile Unit) [hinner : ∀ p, Twins s (inner p) (inner p)]

/-- Where the tokens are over, no argument follows. -/
theorem arguments_over (budget : List Located) (n : Nat) :
    ∃ k : Unit → Compile Nat, arguments inner budget n = inner .assign >>= k ∧
      ∀ b : Builder, b.peek.token = .eof → k () b = .ok (n+1) b := by
  cases budget with
  | nil => exact ⟨_, rfl, fun _ _ => rfl⟩
  | cons t budget =>
    refine ⟨_, rfl, fun b hb => bind_eq_ok.mpr ⟨false, b, ?_, rfl⟩⟩
    rw [accept_eq, hb]
    rfl

theorem arguments_at_end (budget budget' : List Located) (n : Nat) {b c : Builder}
    (hb : Beside s b c) (hline : IsLine s.tail c.rest) (hnil : c.rest = []) :
    Alike s Eq (IsLine s.tail) c (arguments inner budget n b) (arguments inner budget' n c) := by
  obtain ⟨k, hk, hover⟩ := arguments_over inner budget n
  obtain ⟨k', hk', hover'⟩ := arguments_over inner budget' n
  rw [hk, hk']
  refine ((hinner .assign).twin b c hb hline).bind fun _ _ b' c' _ hb' hline' hon => ?_
  have hrest : c'.rest = [] := List.suffix_nil.mp (hnil ▸ hon)
  have hpeek : c'.peek.token = .eof := by rw [peek_of_rest hrest]
  rw [hover b' ((peek_eq hb'.toAbreast hline').1 ▸ hpeek), hover' c' hpeek]
  exact .done rfl hb' hline' (List.suffix_refl _)

/-- As long as there is a budget for every token of the line, it makes no difference. -/
theorem arguments_alike (budget budget' : List Located) (n : Nat) {b c : Builder}
    (hb : Beside s b c) (hline : IsLine s.tail c.rest) (h : c.rest.length ≤ budget.length)
    (h' : c.rest.length ≤ budget'.length) :
    Alike s Eq (IsLine s.tail) c (arguments inner budget n b) (arguments inner budget' n c) := by
  induction budget generalizing budget' n b c with
  | nil =>
    have hnil : c.rest = [] := List.eq_nil_of_length_eq_zero (Nat.le_zero.mp h)
    exact arguments_at_end inner _ _ n hb hline hnil
  | cons t budget ih =>
    cases budget' with
    | nil =>
      have hnil : c.rest = [] := List.eq_nil_of_length_eq_zero (Nat.le_zero.mp h')
      exact arguments_at_end inner _ _ n hb hline hnil
    | cons t' budget' =>
      refine ((hinner .assign).twin b c hb hline).bind fun _ _ b1 c1 _ hb1 hline1 hon1 => ?_
      have hpeek := (peek_eq hb1.toAbreast hline1).1
      simp only [bind, EStateM.bind, accept_eq, hpeek]
      by_cases hcomma : c1.peek.token == .symbol .comma
      · rw [if_pos hcomma, if_pos hcomma]
        have hcomma := eq_of_beq hcomma
        obtain ⟨hb2, hline2, hon2⟩ :=
          advance_beside hb1.toAbreast hline1 (by simp [hcomma]) fun _ => hb1
        have hlength := length_advance (b := c1) (by simp [hcomma])
        have hshort := hon1.length_le
        rw [List.length_cons] at h h'
        exact (ih budget' (n+1) hb2 hline2 (by omega) (by omega)).back hon2
      · rw [if_neg hcomma, if_neg hcomma]
        exact .done rfl hb1 hline1 (List.suffix_refl _)

instance (k k' : Nat → Compile α) [hk : ∀ n, Twins s (k n) (k' n)] :
    Twins s (do k (← arguments inner (← get).rest 0))
      (do k' (← arguments inner (← get).rest 0)) where
  twin b c hb hline := by
    have hbudget : c.rest.length ≤ b.rest.length := by
      rw [hb.rest, List.length_append]
      omega
    exact (arguments_alike inner b.rest c.rest 0 hb hline hbudget (Nat.le_refl _)).bind
      fun n _ b' c' h hb' hline' _ => h ▸ (hk n).twin b' c' hb' hline'

instance (k k' : Nat → Compile α) (f g : α → Compile β)
    [∀ n, Twins s (k n >>= f) (k' n >>= g)] :
    Twins s ((do k (← arguments inner (← get).rest 0)) >>= f)
      ((do k' (← arguments inner (← get).rest 0)) >>= g) := by
  simp only [bind_assoc]
  infer_instance

/-- The index of the name may be another. -/
instance (t : Located) [s.Has t] (name : String) (arity : Nat) (f g : UInt8 → Compile α)
    [h : ∀ i j, Twins s (f i) (g j)] :
    Twins s (callWith inner t name arity >>= f) (callWith inner t name arity >>= g) := by
  dsimp only [callWith]
  infer_instance

instance (t : Located) [s.Has t] (name : String) :
    Twins s (call inner t name) (call inner t name) := by
  refine get_twins fun b c hb => ?_
  rw [hb.script.runnable?_eq, hb.alone.runnable?_eq]
  dsimp only
  split <;> infer_instance

instance (t : Located) [s.Has t] (name : String) (canAssign : Bool) :
    Twins s (variable_ inner t name canAssign) (variable_ inner t name canAssign) := by
  unfold variable_
  refine .seq inferInstance fun paren => ?_
  split
  · infer_instance
  · refine resolve_twins fun i j => ⟨fun b c hb hline => ?_⟩
    rw [peek_bind, peek_bind, (peek_eq hb.toAbreast hline).1]
    cases hassign : (if canAssign then Assignment.ofToken? c.peek.token else none) with
    | none => exact (inferInstance : Twins s (emitWith _ i) (emitWith _ j)).twin b c hb hline
    | some assignment =>
      have hinside : c.peek.token ≠ .newline := by
        split at hassign
        · exact (Assignment.inline hassign).1
        · cases hassign
      obtain ⟨hb', hline', hon⟩ := advance_beside hb.toAbreast hline hinside fun _ => hb
      have htwins : Twins s
          (do
            if assignment.hasOperand then inner .assign
            emitWith (assignment.opcode .global) i)
          (do
            if assignment.hasOperand then inner .assign
            emitWith (assignment.opcode .global) j) := inferInstance
      exact (htwins.twin _ _ hb' hline').back hon

/-- A token that begins no operand is spelled like the end of a line only if it is one. -/
theorem newline_of_spelling {token : Token} (h : token.spelling = Token.newline.spelling)
    (hnumber : ∀ digits, token ≠ .number digits) (hname : ∀ word, token ≠ .name word) :
    token = .newline := by
  have hfirst := congrArg (fun text : String => text.toList.head?) h
  cases token with
  | number digits => exact absurd rfl (hnumber digits)
  | name word => exact absurd rfl (hname word)
  | newline => rfl
  | eof => exact absurd h (by decide)
  | text content => simp [Token.spelling] at hfirst
  | comment remark => simp [Token.spelling] at hfirst
  | keyword k => cases k <;> exact absurd h (by decide)
  | symbol x =>
    have hchars : x.chars = ['\\', 'n'] := by
      simpa [Token.spelling, Symbol.spelling] using congrArg String.toList h
    cases x with
    | operator op => cases op <;> cases hchars
    | compound op => cases op <;> cases hchars
    | comparison c => cases c <;> cases hchars
    | _ => cases hchars

theorem leading_alike (t : Located) [s.Has t] (canAssign : Bool) {b c : Builder} (hb : Beside s b c)
    (hline : IsLine s.tail c.rest) (hend : t.token = .newline → c.rest = []) :
    Alike s Eq (IsLine s.tail) c (leading inner t canAssign b) (leading inner t canAssign c) := by
  have hcases : Twins s (leading inner t canAssign) (leading inner t canAssign) ∨
      leading inner t canAssign = complain t (.expected "expression") ∧
        (t.token.spelling = Token.newline.spelling → t.token = .newline) := by
    unfold leading
    split
    case h_11 hnumber _ _ _ _ hname =>
      exact .inr ⟨rfl, fun h => newline_of_spelling h hnumber hname⟩
    all_goals exact .inl inferInstance
  rcases hcases with htwins | ⟨hfails, hspelled⟩
  · exact htwins.twin b c hb hline
  · rw [hfails]
    refine .failed hb.toAbreast ⟨t, inferInstance, rfl⟩ ?_
    split
    · next hatEnd =>
      rw [Diagnostic.atEnd, Bool.and_eq_true, beq_iff_eq, beq_iff_eq] at hatEnd
      exact hend (hspelled hatEnd.2)
    · exact hline

instance (i : Infix) : Twins s (joined inner i) (joined inner i) := by
  unfold joined
  split
  · infer_instance
  · infer_instance
  · refine ⟨(emitJump_twin _).bind fun n m h => ?_⟩
    have := patchJump_twins h
    exact (inferInstance : Twins s _ _).twin
  · refine ⟨(emitJump_twin _).bind fun n m h => ?_⟩
    have := patchJump_twins h
    exact (inferInstance : Twins s _ _).twin

omit hinner in
theorem following_over (p : Precedence) (budget : List Located) {b : Builder}
    (h : b.peek.token = .eof) : following inner p budget b = .ok () b := by
  cases budget with
  | nil => rfl
  | cons t budget =>
    rw [following, peek_bind, h]
    rfl

omit hinner in
theorem following_at_end (p : Precedence) {budget budget' : List Located} {b c : Builder}
    (hb : Beside s b c) (hline : IsLine s.tail c.rest) (hover : c.peek.token = .eof) :
    Alike s Eq (IsLine s.tail) c (following inner p budget b) (following inner p budget' c) := by
  rw [following_over inner p _ ((peek_eq hb.toAbreast hline).1 ▸ hover),
    following_over inner p _ hover]
  exact .done rfl hb hline (List.suffix_refl _)

theorem following_alike (p : Precedence) (budget budget' : List Located) {b c : Builder}
    (hb : Beside s b c) (hline : IsLine s.tail c.rest) (h : c.rest.length ≤ budget.length)
    (h' : c.rest.length ≤ budget'.length) :
    Alike s Eq (IsLine s.tail) c (following inner p budget b) (following inner p budget' c) := by
  induction budget generalizing budget' b c with
  | nil =>
    have hover : c.peek.token = .eof := by
      rw [peek_of_rest (List.eq_nil_of_length_eq_zero (Nat.le_zero.mp h))]
    exact following_at_end inner p hb hline hover
  | cons t budget ih =>
    by_cases hover : c.peek.token = .eof
    · exact following_at_end inner p hb hline hover
    have hlength := length_advance hover
    cases budget' with
    | nil => exact absurd h' (by rw [List.length_nil]; omega)
    | cons t' budget' =>
      rw [following, following, peek_bind, peek_bind, (peek_eq hb.toAbreast hline).1]
      cases hi : Infix.ofToken? c.peek.token with
      | none => exact .done rfl hb hline (List.suffix_refl _)
      | some i =>
        dsimp only
        split
        · obtain ⟨hb', hline', hon⟩ :=
            advance_beside hb.toAbreast hline (Infix.inline hi).1 fun _ => hb
          have hjoined : Twins s (joined inner i) (joined inner i) := inferInstance
          refine ((hjoined.twin _ _ hb' hline').bind fun _ _ b2 c2 _ hb2 hline2 hon2 => ?_).back hon
          have hshort := hon2.length_le
          rw [List.length_cons] at h h'
          exact ih budget' hb2 hline2 (by omega) (by omega)
        · exact .done rfl hb hline (List.suffix_refl _)

omit hinner in
theorem operand_eq (p : Precedence) (b : Builder) :
    operand inner p b =
      (do
        leading inner b.advance.last (p == .assign)
        following inner p (← get).rest
        let t ← peek
        if (Assignment.ofToken? t.token).isSome then complain t .assignmentTarget : Compile Unit)
      b.advance := rfl

omit hinner in
/-- An operand that is looked for where the line ends has read that end before it fails. -/
theorem operand_at_end_of_line (p : Precedence) {b c : Builder} (hb : Abreast s b c)
    (hline : IsLine s.tail c.rest) (hend : c.peek.token = .newline) :
    Alike s Eq (IsLine s.tail) c (operand inner p b) (operand inner p c) := by
  obtain ⟨hb', hover, hread⟩ := advance_end hb hline hend
  have hfails : leading inner c.advance.last (p == .assign) =
      complain c.advance.last (.expected "expression") := by
    unfold leading
    rw [hread]
  rw [operand_eq, operand_eq, hb'.last, hfails]
  refine .failed hb'.toAbreast ⟨c.advance.last, ⟨.inl hb'.read⟩, rfl⟩ ?_
  rw [hread]
  exact hover

/-- The first token of an operand is read before it is looked at, even where the line ends. -/
theorem operand_alike (p : Precedence) {b c : Builder} (hb : Abreast s b c)
    (hline : IsLine s.tail c.rest) (hlast : c.rest = [] → Beside s b c) :
    Alike s Eq (IsLine s.tail) c (operand inner p b) (operand inner p c) := by
  by_cases hnewline : c.peek.token = .newline
  · exact operand_at_end_of_line inner p hb hline hnewline
  · obtain ⟨hb', hline', hon⟩ := advance_beside hb hline hnewline hlast
    have hend : c.advance.last.token = .newline → c.advance.rest = [] := by
      intro hread
      cases hc : c.rest with
      | nil =>
        rw [Builder.advance, hc]
        exact hc
      | cons t rest =>
        rw [Builder.advance, hc] at hread
        rw [Builder.peek, hc] at hnewline
        exact absurd hread hnewline
    have hhas : s.Has c.advance.last := ⟨.inl hb'.read⟩
    rw [operand_eq, operand_eq, hb'.last]
    refine ((leading_alike inner c.advance.last (p == .assign) hb' hline' hend).bind
      fun _ _ b1 c1 _ hb1 hline1 _ => ?_).back hon
    have hbudget : c1.rest.length ≤ b1.rest.length := by
      rw [hb1.rest, List.length_append]
      omega
    refine (following_alike inner p b1.rest c1.rest hb1 hline1 hbudget (Nat.le_refl _)).bind
      fun _ _ b2 c2 _ hb2 hline2 _ => ?_
    have htarget : Twins s
        (do
          let t ← peek
          if (Assignment.ofToken? t.token).isSome then complain t .assignmentTarget)
        (do
          let t ← peek
          if (Assignment.ofToken? t.token).isSome then complain t .assignmentTarget) :=
      inferInstance
    exact htarget.twin b2 c2 hb2 hline2

end

instance twins_operandAt (levels : Nat) (p : Precedence) :
    Twins s (operandAt levels p) (operandAt levels p) := by
  induction levels generalizing p with
  | zero => dsimp only [operandAt, tooDeep]; infer_instance
  | succ levels ih => exact ⟨fun b c hb hline => operand_alike _ p hb.toAbreast hline fun _ => hb⟩

/-- The first operand of a line. -/
theorem operandAt_alike (levels : Nat) (p : Precedence) {b c : Builder} (hb : Abreast s b c)
    (hline : IsLine s.tail c.rest) (hmore : c.rest ≠ []) :
    Alike s Eq (IsLine s.tail) c (operandAt levels p b) (operandAt levels p c) := by
  cases levels with
  | zero =>
    obtain ⟨hpeek, hhas⟩ := peek_eq hb hline
    change Alike s _ _ c (complain b.peek .tooDeep b) (complain c.peek .tooDeep c)
    rw [hpeek]
    exact complain_alike hb hline c.peek .tooDeep
  | succ levels => exact operand_alike _ p hb hline fun hnil => absurd hnil hmore

/-! Statements. -/

/-- The end of a line is read, and written as a mark. -/
theorem newline_alike {b c : Builder} (hb : Abreast s b c) (hline : IsLine s.tail c.rest)
    (hend : c.peek.token = .newline) :
    Alike s Eq (· = []) c ((do advance; emit .newline : Compile Unit) b)
      ((do advance; emit .newline : Compile Unit) c) := by
  obtain ⟨hb', hover, -⟩ := advance_end hb hline hend
  have hsize (chunk : Chunk) :
      (chunk.append [Opcode.newline.toByte]).code.size = chunk.code.size+1 := Chunk.size_append ..
  exact .done rfl (modifyChunk_beside hb' _ _ (hsize _) (hsize _)) hover
    (hover.symm ▸ List.nil_suffix)

theorem endOfLine_eof {b : Builder} (h : b.peek.token = .eof) : endOfLine b = .ok () b := by
  have haccept : accept .newline b = .ok false b := by
    rw [accept_eq, h]
    rfl
  have hcheck : check .eof b = .ok true b := by
    change EStateM.Result.ok (b.peek.token == .eof) b = _
    rw [h]
    rfl
  simp only [endOfLine, bind, EStateM.bind, haccept, Bool.false_eq_true, if_false, hcheck]
  rfl

/-- Inside a line no token is the end of all tokens. -/
theorem rest_of_eof {c : Builder} (hline : IsLine s.tail c.rest) (h : c.peek.token = .eof) :
    c.rest = [] := by
  cases hc : c.rest with
  | nil => rfl
  | cons t rest =>
    rw [Builder.peek, hc] at h
    rw [hc, IsLine, h] at hline
    exact absurd rfl hline.1

instance : TwinsTo s (· = []) endOfLine endOfLine where
  twin b c hb hline := by
    have hpeek := (peek_eq hb.toAbreast hline).1
    by_cases hend : c.peek.token = .newline
    · rw [endOfLine_newline hend, endOfLine_newline (hpeek ▸ hend)]
      exact newline_alike hb.toAbreast hline hend
    by_cases hover : c.peek.token = .eof
    · rw [endOfLine_eof hover, endOfLine_eof (hpeek ▸ hover)]
      exact .done rfl hb (rest_of_eof hline hover) (List.suffix_refl _)
    · obtain ⟨hpeek, hhas⟩ := peek_eq hb.toAbreast hline
      rw [endOfLine_eq_error hend hover, endOfLine_eq_error (hpeek ▸ hend) (hpeek ▸ hover), hpeek]
      exact complain_alike hb.toAbreast hline c.peek _

section
variable (expression : Compile Unit) [Twins s expression expression]

instance : TwinsTo s (· = []) (varDeclaration expression) (varDeclaration expression) := by
  dsimp only [varDeclaration]
  refine .seq inferInstance fun name => last_twins fun t ht => get_twins fun b c hb =>
    get_twins fun b' c' _ => ?_
  rw [hb.script.inRunnable_eq, hb.alone.inRunnable_eq]
  simp only [Bool.false_and, Bool.false_eq_true, if_false]
  infer_instance

instance : TwinsTo s (· = []) (returnStatement expression) (returnStatement expression) := by
  dsimp only [returnStatement]
  refine get_twins fun b c hb => ?_
  rw [hb.script.inRunnable_eq, hb.alone.inRunnable_eq]
  simp only [Bool.not_false, if_true]
  infer_instance

/-- An expression statement, from the start of its line. -/
theorem expressionStatement_alike (levels : Nat) {b c : Builder} (hb : Abreast s b c)
    (hline : IsLine s.tail c.rest) (hmore : c.rest ≠ []) :
    Alike s Eq (· = []) c (expressionStatement (operandAt levels .assign) b)
      (expressionStatement (operandAt levels .assign) c) := by
  have hrest : TwinsTo s (· = []) (do emit .pop; endOfLine : Compile Unit)
      (do emit .pop; endOfLine) :=
    inferInstance
  exact (operandAt_alike levels .assign hb hline hmore).bind fun _ _ b' c' _ hb' hline' _ =>
    hrest.twin b' c' hb' hline'

theorem statement_alike (levels : Nat) {b c : Builder} (hb : Abreast s b c)
    (hline : IsLine s.tail c.rest) (hmore : c.rest ≠ []) (hplain : c.peek.token.opens = false) :
    Alike s Eq (· = []) c (statementAt (levels+1) b) (statementAt (levels+1) c) := by
  obtain ⟨hpeek, hhas⟩ := peek_eq hb hline
  have hexpression := expressionStatement_alike levels hb hline hmore
  have hread (hinside : c.peek.token ≠ .newline) (x : Compile Unit) [hx : TwinsTo s (· = []) x x] :
      Alike s Eq (· = []) c (x b.advance) (x c.advance) := by
    obtain ⟨hb', hline', hon⟩ := advance_beside hb hline hinside fun hnil => absurd hnil hmore
    exact (hx.twin _ _ hb' hline').back hon
  rw [statementAt, statement, peek_bind, peek_bind, hpeek]
  cases htoken : c.peek.token with
  | newline => exact newline_alike hb hline htoken
  | keyword k =>
    rw [htoken] at hread hplain
    cases k with
    | declare => exact hread (by simp) (varDeclaration (operandAt levels .assign))
    | return_ => exact hread (by simp) (returnStatement (operandAt levels .assign))
    | if_ | while_ | repeat_ | runnable => cases hplain
    | _ => first | exact hexpression | exact complain_alike hb hline c.peek _
  | _ => exact hexpression

end

end

/-! Lines. -/

theorem skipLine_append {tail line : List Located} (h : IsLine tail line) (last : Located) :
    (skipLine last (line++tail)).2 = tail := by
  induction line generalizing last with
  | nil =>
    have htail : tail = [] := h
    rw [htail]
    rfl
  | cons t line ih =>
    rw [IsLine] at h
    rw [List.cons_append, skipLine]
    split at h
    · next hend =>
      rw [h, if_pos (beq_iff_eq.mpr hend)]
      rfl
    · next hend =>
      rw [if_neg (fun heq => hend (eq_of_beq heq))]
      exact ih h.2 t

theorem skipLine_alone {tail line : List Located} (h : IsLine tail line) (last : Located) :
    (skipLine last line).2 = [] := by
  induction line generalizing last with
  | nil => rfl
  | cons t line ih =>
    rw [IsLine] at h
    rw [skipLine]
    split at h
    · next hend =>
      rw [h, if_pos (beq_iff_eq.mpr hend)]
    · next hend =>
      rw [if_neg (fun heq => hend (eq_of_beq heq))]
      exact ih h.2 t

theorem declaration_of_ok {statement : Compile Unit} {b b' : Builder}
    (h : statement b = .ok () b') : declaration statement b = .ok () b' := by
  simp only [declaration, tryCatch, tryCatchThe, MonadExceptOf.tryCatch, EStateM.tryCatch, h]

theorem declaration_of_error {statement : Compile Unit} {b b' : Builder} {d : Diagnostic}
    (h : statement b = .error d b') :
    declaration statement b = .ok () {b' with
      last := (skipLine b'.last b'.rest).1
      rest := (skipLine b'.last b'.rest).2
      diagnostics := b'.diagnostics.push d} := by
  simp only [declaration, tryCatch, tryCatchThe, MonadExceptOf.tryCatch, EStateM.tryCatch, h]
  rfl

end Compile

open Compile

/-- What is reported of a script, if anything. -/
def reportsOf : Except (List Diagnostic) Program → List Diagnostic
  | .ok _ => []
  | .error ds => ds

/-- What is reported of a line that stands alone. -/
def reportsAlone (finish : Position) (line : List Located) : List Diagnostic :=
  reportsOf (compileTokens (line++[⟨.eof, finish⟩]))

/-- Tokens line by line, with the ends of the lines. -/
def splitLines : List Located → List (List Located)
  | [] => []
  | t :: rest =>
    if t.token = .newline then [t] :: splitLines rest
    else
      match splitLines rest with
      | [] => [[t]]
      | line :: more => (t :: line) :: more

/-- What is reported of lines one by one. A line is passed over if the one before it failed where it
ends. -/
def reportsByLine (finish : Position) : (passed : Bool) → List (List Located) → List Diagnostic
  | _, [] => []
  | true, _ :: more => reportsByLine finish false more
  | false, line :: more =>
    reportsAlone finish line++
      reportsByLine finish ((reportsAlone finish line).any Diagnostic.atEnd) more

/-- Lines one after another, each with a token and only the last without an end. -/
def AreLines : List (List Located) → Prop
  | [] => True
  | line :: more => line ≠ [] ∧ IsLine more.flatten line ∧ AreLines more

theorem AreLines.skip {lines : List (List Located)} (h : AreLines lines) (last : Located) :
    (skipLine last lines.flatten).2 = lines.tail.flatten := by
  cases lines with
  | nil => rfl
  | cons line more => exact skipLine_append h.2.1 last

theorem AreLines.each {lines : List (List Located)} (h : AreLines lines) {line : List Located}
    (hline : line ∈ lines) : line ≠ [] ∧ ∃ tail, IsLine tail line := by
  induction lines with
  | nil => cases hline
  | cons first more ih =>
    rcases List.mem_cons.mp hline with rfl | hline
    · exact ⟨h.1, _, h.2.1⟩
    · exact ih h.2.2 hline

theorem splitLines_spec {code : List Located} (h : ∀ t ∈ code, t.token ≠ .eof) :
    (splitLines code).flatten = code ∧ AreLines (splitLines code) := by
  induction code with
  | nil => exact ⟨rfl, trivial⟩
  | cons t code ih =>
    obtain ⟨hcode, hlines⟩ := ih fun u hu => h u (List.mem_cons_of_mem _ hu)
    have ht := h t (List.mem_cons_self ..)
    unfold splitLines
    split
    · next hend =>
      refine ⟨by rw [List.flatten_cons, hcode]; rfl, List.cons_ne_nil _ _, ?_, hlines⟩
      rw [IsLine, if_pos hend]
    · next hend =>
      split
      · next hnil =>
        rw [hnil] at hcode
        refine ⟨by rw [← hcode]; rfl, List.cons_ne_nil _ _, ?_, trivial⟩
        rw [IsLine, if_neg hend]
        exact ⟨ht, rfl⟩
      · next line more hcons =>
        rw [hcons] at hcode hlines
        refine ⟨by rw [← hcode]; rfl, List.cons_ne_nil _ _, ?_, hlines.2.2⟩
        rw [IsLine, if_neg hend]
        exact ⟨ht, hlines.2.1⟩

/-- The state at the start of a line that stands alone. -/
def Builder.atLine (finish : Position) (line : List Located) : Builder :=
  ⟨line.headD ⟨.eof, finish⟩, line, finish, #[.new "<script>" none 0], 0, 0, [], #[]⟩

section
variable {finish : Position} {line : List Located} {c : Builder} {d : Diagnostic}

theorem reportsOf_tokens (hline : ∀ t ∈ line, t.token ≠ .eof)
    (h : script (.atLine finish line) = .ok () c) :
    reportsOf (compileTokens (line++[⟨.eof, finish⟩])) = c.diagnostics.toList := by
  have hscript : script (.start (line++[⟨.eof, finish⟩])) = .ok () c := by
    rw [Builder.start_of_eof finish hline]
    exact h
  rw [compileTokens_of_script hscript]
  split
  · next hempty =>
    rw [Array.isEmpty_iff.mp hempty]
    rfl
  · rfl

theorem script_atLine (finish : Position) (hmore : line ≠ []) (hline : ∀ t ∈ line, t.token ≠ .eof) :
    ∃ budget, script (.atLine finish line) =
      (declaration (statementAt maxNesting) >>= fun _ =>
        declarations (statementAt maxNesting) [] budget) (.atLine finish line) := by
  obtain ⟨t, rest, rfl⟩ := List.exists_cons_of_ne_nil hmore
  refine ⟨rest, declarations_step (t := t) ?_ fun _ hk => absurd hk List.not_mem_nil⟩
  exact hline t (List.mem_cons_self ..)

/-- A line without a fault. -/
theorem reportsAlone_of_ok (hmore : line ≠ []) (hline : ∀ t ∈ line, t.token ≠ .eof)
    (h : statementAt maxNesting (.atLine finish line) = .ok () c) (hover : c.rest = [])
    (hsilent : c.diagnostics = #[]) : reportsAlone finish line = [] := by
  obtain ⟨budget, hscript⟩ := script_atLine finish hmore hline
  have hstop : declarations (statementAt maxNesting) [] budget c = .ok () c :=
    declarations_stop (.inl (by rw [peek_of_rest hover]))
  have hrun : script (.atLine finish line) = .ok () c :=
    hscript.trans (bind_eq_ok.mpr ⟨_, c, declaration_of_ok h, hstop⟩)
  rw [reportsAlone, reportsOf_tokens hline hrun, hsilent]

/-- A line with a fault: the rest of it is passed over, and nothing is left. -/
theorem reportsAlone_of_error (hmore : line ≠ []) (hline : ∀ t ∈ line, t.token ≠ .eof)
    (h : statementAt maxNesting (.atLine finish line) = .error d c)
    (hover : (skipLine c.last c.rest).2 = []) (hsilent : c.diagnostics = #[]) :
    reportsAlone finish line = [d] := by
  obtain ⟨budget, hscript⟩ := script_atLine finish hmore hline
  have hrun : script (.atLine finish line) = .ok () {c with
      last := (skipLine c.last c.rest).1
      rest := (skipLine c.last c.rest).2
      diagnostics := c.diagnostics.push d} := by
    refine hscript.trans (bind_eq_ok.mpr ⟨_, _, declaration_of_error h, ?_⟩)
    refine declarations_stop (.inl ?_)
    rw [peek_of_rest hover]
  rw [reportsAlone, reportsOf_tokens hline hrun, hsilent]
  rfl

theorem mem_declarations {statement : Compile Unit} [Keeps Builder.Reports statement]
    {budget : List Located} {b b' : Builder} (h : statement b = .error d c)
    (hb' : (declaration statement >>= fun _ => declarations statement [] budget) b = .ok () b') :
    d ∈ b'.diagnostics.toList := by
  obtain ⟨_, b1, h1, h2⟩ := bind_eq_ok.mp hb'
  rw [declaration_of_error h] at h1
  cases h1
  have hkeeps : Keeps Builder.Reports (declarations statement [] budget) := inferInstance
  exact (hkeeps.of_ok h2).subset (by simp)

/-- Whatever is left of a line with a fault, the fault is reported. -/
theorem mem_reportsAlone (hmore : line ≠ []) (hline : ∀ t ∈ line, t.token ≠ .eof)
    (h : statementAt maxNesting (.atLine finish line) = .error d c) :
    d ∈ reportsAlone finish line := by
  obtain ⟨budget, hscript⟩ := script_atLine finish hmore hline
  obtain ⟨b', hb'⟩ := declarations_ok (statementAt maxNesting) [] line (.atLine finish line)
  have hrun : script (.atLine finish line) = .ok () b' := hb'
  rw [reportsAlone, reportsOf_tokens hline hrun]
  exact mem_declarations h (hscript ▸ hrun)

end

/-- One line of a script has the reports it has alone, and with it the line behind it is passed over
if it failed where it ends. -/
theorem declaration_by_line {finish : Position} {line : List Located} {more : List (List Located)}
    (hlines : AreLines (line :: more)) (hcode : ∀ t ∈ line, t.token ≠ .eof)
    (hplain : ∀ t ∈ line, t.token.opens = false)
    (hroom : ∀ d ∈ reportsAlone finish line, d.kind ≠ .constantsOverflow) {b : Builder}
    (hb : b.Bare) (hfinish : b.finish = finish) (hrest : b.rest = line++more.flatten) :
    ∃ b', declaration (statementAt maxNesting) b = .ok () b' ∧
      ((∃ d ∈ b'.diagnostics.toList, d.kind = .constantsOverflow) ∨
        b'.Bare ∧ b'.finish = finish ∧
          b'.rest =
            (if (reportsAlone finish line).any Diagnostic.atEnd then more.tail else more).flatten ∧
          b'.diagnostics.toList = b.diagnostics.toList++reportsAlone finish line) := by
  obtain ⟨hmore, hline, hrests⟩ := hlines
  have hbeside : b.Abreast ⟨line, more.flatten, finish, b.chunk.code.size, b.diagnostics⟩
      (.atLine finish line) :=
    ⟨hrest, List.suffix_refl _, hfinish, rfl, hb, ⟨rfl, _, rfl⟩, (Nat.zero_add _).symm, rfl, rfl⟩
  have hfirst : (Builder.atLine finish line).peek.token.opens = false := by
    obtain ⟨t, rest, rfl⟩ := List.exists_cons_of_ne_nil hmore
    exact hplain t (List.mem_cons_self ..)
  have halike := statement_alike 255 hbeside hline hmore hfirst
  generalize hwhole : statementAt (255+1) b = r at halike
  generalize halone : statementAt (255+1) (.atLine finish line) = r' at halike
  cases halike with
  | @done _ _ b1 c1 _ hbeside1 hover _ =>
    refine ⟨b1, declaration_of_ok hwhole, .inr ⟨hbeside1.script, hbeside1.finish, ?_⟩⟩
    rw [reportsAlone_of_ok hmore hcode halone hover hbeside1.silent, hbeside1.rest, hover,
      hbeside1.reports]
    exact ⟨rfl, (List.append_nil _).symm⟩
  | @failed d b1 c1 hbeside1 _ hstop =>
    have hskip : (skipLine c1.last c1.rest).2 = [] ∧
        (skipLine b1.last b1.rest).2 = (if d.atEnd then more.tail else more).flatten := by
      rw [hbeside1.rest]
      cases hatEnd : d.atEnd with
      | true =>
        rw [hatEnd, if_pos rfl] at hstop
        rw [hstop]
        exact ⟨rfl, hrests.skip b1.last⟩
      | false =>
        rw [hatEnd] at hstop
        exact ⟨skipLine_alone hstop c1.last, skipLine_append hstop b1.last⟩
    refine ⟨_, declaration_of_error hwhole, .inr ⟨hbeside1.script, hbeside1.finish, ?_⟩⟩
    rw [reportsAlone_of_error hmore hcode halone hskip.1 hbeside1.silent, List.any_cons,
      List.any_nil, Bool.or_false]
    refine ⟨hskip.2, ?_⟩
    rw [Array.toList_push, hbeside1.reports]
  | full kind => exact ⟨_, declaration_of_error hwhole, .inl ⟨_, by simp, kind⟩⟩
  | filled kind => exact absurd kind (hroom _ (mem_reportsAlone hmore hcode halone))

/-- Lines of a script that are compiled one after another are reported one by one. -/
theorem declarations_by_line {finish : Position} {lines : List (List Located)}
    (hlines : AreLines lines) (hcode : ∀ line ∈ lines, ∀ t ∈ line, t.token ≠ .eof)
    (hplain : ∀ line ∈ lines, ∀ t ∈ line, t.token.opens = false)
    (hroom : ∀ line ∈ lines, ∀ d ∈ reportsAlone finish line, d.kind ≠ .constantsOverflow)
    (passed : Bool) {b : Builder} (hb : b.Bare) (hfinish : b.finish = finish)
    (hrest : b.rest = (if passed then lines.tail else lines).flatten)
    {budget : List Located} (hbudget : b.rest.length ≤ budget.length) :
    ∃ b', declarations (statementAt maxNesting) [] budget b = .ok () b' ∧
      ((∃ d ∈ b'.diagnostics.toList, d.kind = .constantsOverflow) ∨
        b'.diagnostics.toList = b.diagnostics.toList++reportsByLine finish passed lines) := by
  induction lines generalizing passed b budget with
  | nil =>
    have hover : b.rest = [] := by
      rw [hrest]
      cases passed <;> rfl
    refine ⟨b, declarations_stop (.inl (by rw [peek_of_rest hover])), .inr ?_⟩
    cases passed <;> rw [reportsByLine, List.append_nil]
  | cons line more ih =>
    have ih := @ih hlines.2.2 (fun l hl => hcode l (List.mem_cons_of_mem _ hl))
      (fun l hl => hplain l (List.mem_cons_of_mem _ hl))
      (fun l hl => hroom l (List.mem_cons_of_mem _ hl))
    cases passed with
    | true => exact ih false hb hfinish hrest hbudget
    | false =>
      have hmore := List.length_pos_iff.mpr hlines.1
      have hrest : b.rest = line++more.flatten := hrest
      rw [hrest, List.length_append] at hbudget
      obtain ⟨u, budget, rfl⟩ := List.exists_cons_of_length_pos (l := budget) (by omega)
      rw [List.length_cons] at hbudget
      have hpeek : b.peek.token ≠ .eof := by
        obtain ⟨t, rest, rfl⟩ := List.exists_cons_of_ne_nil hlines.1
        rw [Builder.peek, hrest]
        exact hcode _ (List.mem_cons_self ..) t (List.mem_cons_self ..)
      rw [declarations_step hpeek fun _ hk => absurd hk List.not_mem_nil]
      obtain ⟨b1, hb1, hreports⟩ := declaration_by_line hlines (hcode line (List.mem_cons_self ..))
        (hplain line (List.mem_cons_self ..)) (hroom line (List.mem_cons_self ..)) hb hfinish hrest
      rcases hreports with ⟨d, hd, hkind⟩ | ⟨hbare, hfinish1, hrest1, hreports⟩
      · obtain ⟨b', hb'⟩ := declarations_ok (statementAt maxNesting) [] budget b1
        have hkeeps : Keeps Builder.Reports (declarations (statementAt maxNesting) [] budget) :=
          inferInstance
        exact ⟨b', bind_eq_ok.mpr ⟨_, b1, hb1, hb'⟩, .inl ⟨d, (hkeeps.of_ok hb').subset hd, hkind⟩⟩
      · have htail : more.tail.flatten.length ≤ more.flatten.length := by
          cases more with
          | nil => exact Nat.le_refl 0
          | cons next more => simp
        have hshort : b1.rest.length ≤ budget.length := by
          rw [hrest1]
          split <;> omega
        obtain ⟨b', hb', hmade⟩ := ih _ hbare hfinish1 hrest1 hshort
        refine ⟨b', bind_eq_ok.mpr ⟨_, b1, hb1, hb'⟩, hmade.imp id fun h => ?_⟩
        rw [h, hreports, reportsByLine, List.append_assoc]

/-- A line that stands alone has one report at most, and that is about one of its tokens or about
the end of all tokens. -/
theorem reportsAlone_cases {finish : Position} {line tail : List Located} (hline : IsLine tail line)
    (hmore : line ≠ []) (hcode : ∀ t ∈ line, t.token ≠ .eof)
    (hplain : ∀ t ∈ line, t.token.opens = false)
    (hroom : ∀ d ∈ reportsAlone finish line, d.kind ≠ .constantsOverflow) :
    reportsAlone finish line = [] ∨ ∃ d, reportsAlone finish line = [d] ∧
      ∃ t, (t ∈ line ∨ t = ⟨.eof, finish⟩) ∧ d.pos = t.pos := by
  have hlast : IsLine [] line := by
    clear hmore hcode hplain hroom
    induction line with
    | nil => rfl
    | cons t line ih =>
      rw [IsLine] at hline ⊢
      split at hline
      · next hend => rwa [if_pos hend]
      · next hend =>
        rw [if_neg hend]
        exact ⟨hline.1, ih hline.2⟩
  have hbeside : (Builder.atLine finish line).Abreast ⟨line, [], finish, 0, #[]⟩
      (.atLine finish line) :=
    ⟨(List.append_nil _).symm, List.suffix_refl _, rfl, rfl, ⟨rfl, _, rfl⟩, ⟨rfl, _, rfl⟩, rfl, rfl,
      rfl⟩
  have hfirst : (Builder.atLine finish line).peek.token.opens = false := by
    obtain ⟨t, rest, rfl⟩ := List.exists_cons_of_ne_nil hmore
    exact hplain t (List.mem_cons_self ..)
  have halike := statement_alike 255 hbeside hlast hmore hfirst
  generalize hrun : statementAt (255+1) (.atLine finish line) = r at halike
  cases r with
  | ok a c =>
    cases halike with
    | done _ hbeside1 hover _ =>
      exact .inl (reportsAlone_of_ok hmore hcode hrun hover hbeside1.silent)
  | error d c =>
    have hkind := hroom d (mem_reportsAlone hmore hcode hrun)
    cases halike with
    | failed hbeside1 hcites hstop =>
      obtain ⟨t, ⟨ht⟩, hpos⟩ := hcites
      refine .inr ⟨d, reportsAlone_of_error hmore hcode hrun ?_ hbeside1.silent, t, ht, hpos⟩
      split at hstop
      · rw [hstop]
        rfl
      · exact skipLine_alone hstop c.last
    | full kind => exact absurd kind hkind
    | filled kind => exact absurd kind hkind

theorem reportsByLine_eq_nil {finish : Position} {lines : List (List Located)} :
    reportsByLine finish false lines = [] ↔ ∀ line ∈ lines, reportsAlone finish line = [] := by
  induction lines with
  | nil => simp [reportsByLine]
  | cons line more ih =>
    rw [reportsByLine, List.append_eq_nil_iff, List.forall_mem_cons]
    refine and_congr_right fun h => ?_
    rw [h]
    exact ih

theorem exists_ok_iff {tokens : List Located} :
    (∃ p, compileTokens tokens = .ok p) ↔ reportsOf (compileTokens tokens) = [] := by
  obtain ⟨b, hb⟩ := declarations_ok (statementAt maxNesting) [] (Builder.start tokens).rest
    (.start tokens)
  rw [compileTokens_of_script hb]
  split
  · simp [reportsOf]
  · next hsome => simpa [reportsOf] using hsome

/-- The end of file is the last token, and the only one of its kind. -/
theorem scanCode_code {source : String} {code : List Located} {finish : Position}
    (h : scanCode source = .ok (code++[⟨.eof, finish⟩])) : ∀ t ∈ code, t.token ≠ .eof := by
  obtain ⟨_, hscan, hcode⟩ := Except.map_eq_ok h
  obtain ⟨out, hout, rfl⟩ := Except.map_eq_ok hscan
  obtain ⟨more, last, hmore, -, hend⟩ := Scan.tokensFrom_ends hout
  have hlast : [(⟨.eof, last⟩ : Located)].filter (!·.isComment) = [⟨.eof, last⟩] := rfl
  rw [hmore, List.filter_append, hlast] at hcode
  obtain ⟨rfl, -⟩ := List.append_inj' hcode rfl
  intro t ht
  exact hend t (by simpa using (List.mem_filter.mp ht).1)

/-- A script without blocks and runnables, with room for its constants, is reported line by line:
each line that has a report alone has the same one in the script, in the order of the lines, but for
those behind a line that failed where it ends. It is accepted if all its lines are. -/
theorem compile_by_line {source : String} {code : List Located} {finish : Position}
    (hscan : scanCode source = .ok (code++[⟨.eof, finish⟩]))
    (hplain : ∀ t ∈ code, t.token.opens = false)
    (hroom : ∀ d ∈ reportsOf (compile source), d.kind ≠ .constantsOverflow)
    (hrooms : ∀ line ∈ splitLines code, ∀ d ∈ reportsAlone finish line,
      d.kind ≠ .constantsOverflow) :
    reportsOf (compile source) = reportsByLine finish false (splitLines code) ∧
      ((∃ p, compile source = .ok p) ↔ ∀ line ∈ splitLines code, reportsAlone finish line = []) ∧
      ∀ line ∈ splitLines code, reportsAlone finish line = [] ∨
        ∃ d, reportsAlone finish line = [d] ∧
          ∃ t, (t ∈ line ∨ t = ⟨.eof, finish⟩) ∧ d.pos = t.pos := by
  have hcode := scanCode_code hscan
  obtain ⟨hflat, hlines⟩ := splitLines_spec hcode
  have hin {line : List Located} (hline : line ∈ splitLines code) {t : Located} (ht : t ∈ line) :
      t ∈ code := hflat ▸ List.mem_flatten_of_mem hline ht
  have hcompile : compile source = compileTokens (code++[⟨.eof, finish⟩]) := by
    rw [compile, hscan]
  have hreports : reportsOf (compile source) = reportsByLine finish false (splitLines code) := by
    have hrest : (Builder.atLine finish code).rest = (splitLines code).flatten := hflat.symm
    have hcodes : ∀ line ∈ splitLines code, ∀ t ∈ line, t.token ≠ .eof :=
      fun _ hline _ ht => hcode _ (hin hline ht)
    have hplains : ∀ line ∈ splitLines code, ∀ t ∈ line, t.token.opens = false :=
      fun _ hline _ ht => hplain _ (hin hline ht)
    obtain ⟨b, hb, hfull | hmade⟩ := declarations_by_line hlines hcodes hplains hrooms false
      ⟨rfl, _, rfl⟩ rfl hrest (Nat.le_refl _)
    · have hmem : reportsOf (compile source) = b.diagnostics.toList := by
        rw [hcompile]
        exact reportsOf_tokens hcode hb
      rw [← hmem] at hfull
      obtain ⟨d, hd, hkind⟩ := hfull
      exact absurd hkind (hroom d hd)
    · rw [hcompile]
      exact (reportsOf_tokens hcode hb).trans hmade
  refine ⟨hreports, ?_, ?_⟩
  · rw [hcompile, exists_ok_iff, ← hcompile, hreports, reportsByLine_eq_nil]
  · intro line hline
    obtain ⟨hmore, tail, hends⟩ := hlines.each hline
    exact reportsAlone_cases hends hmore (fun t ht => hcode t (hin hline ht))
      (fun t ht => hplain t (hin hline ht)) (hrooms line hline)

/-- A faulty line, a fair one, and another faulty one. -/
def faulty : List Located :=
  [⟨.symbol .rightParen, ⟨1, 1⟩⟩, ⟨.newline, ⟨1, 2⟩⟩, ⟨.number "1", ⟨2, 1⟩⟩, ⟨.newline, ⟨2, 2⟩⟩,
    ⟨.keyword .declare, ⟨3, 1⟩⟩]

theorem compile_by_line_faulty :
    scanCode ")\n1\nrat" = .ok (faulty++[⟨.eof, ⟨3, 4⟩⟩]) ∧
      reportsOf (compile ")\n1\nrat") =
        [⟨.expected "expression", ⟨1, 1⟩, ")"⟩,
          ⟨.expected "variable name after 'rat'", ⟨3, 4⟩, "EOF"⟩] ∧
      reportsOf (compile ")\n1\nrat") = reportsByLine ⟨3, 4⟩ false (splitLines faulty) := by
  have hscan : scanCode ")\n1\nrat" = .ok (faulty++[⟨.eof, ⟨3, 4⟩⟩]) := by decide +kernel
  refine ⟨hscan, by decide +kernel, (compile_by_line hscan ?_ ?_ ?_).1⟩
  · decide
  · decide +kernel
  · decide +kernel

/-- The fault of the second line is passed over with it. -/
theorem passes_over :
    reportsOf (compile "1 +\n)\n") = [⟨.expected "expression", ⟨1, 4⟩, "\\n"⟩] ∧
      reportsOf (compile ")\n") = [⟨.expected "expression", ⟨1, 1⟩, ")"⟩] := by
  decide +kernel

end RatScript
