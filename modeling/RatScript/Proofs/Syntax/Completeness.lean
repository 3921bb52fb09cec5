import RatScript.Proofs.Compile.Acceptance
import RatScript.Proofs.Syntax.Grammar
import RatScript.Proofs.Syntax.Operand

/-!
Expressions that the compiler takes: wherever the tokens to come spell one and it calls what there
is, it is read to its end, unless a limit is hit. What is then written is known from what the
compiler has read, and from tokens spelling one tree only.
-/

namespace RatScript

open Stateful
open Directive (encode size)

namespace Builder

/-- How many arguments a name is called with. -/
def arity? (b : Builder) (x : String) : Option Nat :=
  match b.runnable? x with
  | some f => some f.arity
  | none => (Native.ofName? x).map Native.arity

/-- These tokens are to come, and calls are as in the table. -/
structure Awaits (b : Builder) (a : String → Option Nat) (ts : List Token) : Prop where
  upcoming : b.upcoming = ts
  arities : ∀ x, b.arity? x = a x

/-- A limit that is hit: the constants of a function or what a number can be, the length of a jump,
or, if the code is deep enough for that, levels of nesting. -/
inductive Hits (b : Builder) (deep : Prop) (numbers : List String) : Complaint → Prop
  | pool (h : Chunk.capacity ≤ b.chunk.constants.size) : Hits b deep numbers (.pool .full)
  | number {digits : String} (h : digits ∈ numbers) (hv : Number.parseFinite? digits = none) :
    Hits b deep numbers (.pool (.unrepresentable digits))
  | jump (h : 0x10000 ≤ b.chunk.code.size) : Hits b deep numbers .jumpTooLong
  | nesting (h : deep) : Hits b deep numbers .tooDeep

theorem Hits.mono {b : Builder} {deep deep' : Prop} {ns ns' : List String} {c : Complaint}
    (h : b.Hits deep ns c) (hdeep : deep → deep') (hns : ns ⊆ ns') : b.Hits deep' ns' c := by
  cases h with
  | pool h => exact .pool h
  | number h hv => exact .number (hns h) hv
  | jump h => exact .jump h
  | nesting h => exact .nesting (hdeep h)

theorem find?_arity {x : String} {l l' : List Function}
    (h : l'.map (fun f => (f.name, f.arity)) = l.map fun f => (f.name, f.arity)) :
    (l'.find? (·.name == x)).map (·.arity) = (l.find? (·.name == x)).map (·.arity) := by
  induction l generalizing l' with
  | nil =>
    rw [List.map_nil, List.map_eq_nil_iff] at h
    rw [h]
  | cons f l ih =>
    cases l' with
    | nil => cases h
    | cons g l' =>
      simp only [List.map_cons, List.cons.injEq, Prod.mk.injEq] at h
      obtain ⟨⟨hname, harity⟩, hrest⟩ := h
      rw [List.find?_cons, List.find?_cons, hname]
      cases f.name == x with
      | true => exact congrArg some harity
      | false => exact ih hrest

theorem arity?_congr {b b' : Builder}
    (h : b'.functions.toList.map (fun f => (f.name, f.arity)) =
      b.functions.toList.map fun f => (f.name, f.arity)) (x : String) : b'.arity? x = b.arity? x := by
  have hdrop : (b'.functions.toList.drop 1).map (fun f => (f.name, f.arity)) =
      (b.functions.toList.drop 1).map fun f => (f.name, f.arity) := by
    rw [List.map_drop, List.map_drop, h]
  have hfind : (b'.runnable? x).map (·.arity) = (b.runnable? x).map (·.arity) := find?_arity hdrop
  unfold arity?
  cases hb : b.runnable? x <;> cases hb' : b'.runnable? x <;> simp_all

theorem arity?_modifyChunk (b : Builder) (f : Chunk → Chunk) (x : String) :
    (b.modifyChunk f).arity? x = b.arity? x := by
  refine arity?_congr ?_ x
  rw [modifyChunk, modifyFunction, Array.toList_modify]
  apply List.ext_getElem?
  intro i
  simp only [List.getElem?_map, List.getElem?_modify]
  cases b.functions.toList[i]? with
  | none => rfl
  | some g =>
    simp only [Option.map_some]
    split <;> rfl

end Builder

namespace Compile

open Builder (Awaits Hits)
open RatScript.Expr (Behind)

variable {a : String → Option Nat} {ts : List Token} {α β : Type} {Q : α → Builder → Prop}
  {E : Diagnostic → Builder → Prop} {token : Token}

/-! Steps while tokens are awaited. -/

theorem modifyChunk_awaits (f : Chunk → Chunk) :
    Yields (Awaits · a ts) (modify (·.modifyChunk f) : Compile Unit) (fun _ => (Awaits · a ts)) E :=
  Yields.modify fun b hb => ⟨hb.upcoming, fun x => (b.arity?_modifyChunk f x).trans (hb.arities x)⟩

theorem emitBytes_awaits (bytes : List UInt8) :
    Yields (Awaits · a ts) (emitBytes bytes) (fun _ => (Awaits · a ts)) E := modifyChunk_awaits _

theorem enter_awaits {add : Chunk → Except PoolFault (Chunk × UInt8)}
    (hadd : ∀ (b : Builder) fault, add b.chunk = .error fault →
      E ⟨.pool fault, b.last.pos, b.last.token.spelling⟩ b) :
    Yields (Awaits · a ts) (enter add) (fun _ => (Awaits · a ts)) E := by
  refine Yields.get_bind fun b hb => ?_
  cases hchunk : add b.chunk with
  | ok r =>
    rintro b rfl
    exact ⟨hb.upcoming, fun x => (b.arity?_modifyChunk _ x).trans (hb.arities x)⟩
  | error fault =>
    rintro b rfl
    exact hadd b fault hchunk

theorem full_of_addConstant {chunk : Chunk} {c : Constant} {fault : PoolFault}
    (h : chunk.addConstant c = .error fault) :
    fault = .full ∧ Chunk.capacity ≤ chunk.constants.size := by
  unfold Chunk.addConstant at h
  split at h
  · cases h
  · next hfull =>
    cases h
    exact ⟨rfl, Nat.le_of_not_lt hfull⟩

variable {deep : Prop} {ns : List String}

theorem textConstant_awaits (x : String) :
    Yields (Awaits · a ts) (textConstant x) (fun _ => (Awaits · a ts))
      fun d b => b.Hits deep ns d.complaint := by
  refine enter_awaits fun b fault h => ?_
  unfold Chunk.addText at h
  split at h
  · cases h
  · obtain ⟨rfl, hfull⟩ := full_of_addConstant h
    exact .pool hfull

theorem number_awaits {digits : String} (hdigits : digits ∈ ns) :
    Yields (Awaits · a ts) (enter (·.addNumber digits)) (fun _ => (Awaits · a ts))
      fun d b => b.Hits deep ns d.complaint := by
  refine enter_awaits fun b fault h => ?_
  unfold Chunk.addNumber at h
  split at h
  · obtain ⟨rfl, hfull⟩ := full_of_addConstant h
    exact .pool hfull
  · next hnone =>
    cases h
    exact .number hdigits hnone

theorem get_awaits {f : Builder → Compile α}
    (h : ∀ b : Builder, b.Awaits a ts → Yields (Awaits · a ts) (f b) Q E) :
    Yields (Awaits · a ts) (get >>= f) Q E :=
  Yields.get_bind fun b hb => Yields.start hb (h b hb)

theorem peek_awaits {f : Located → Compile α}
    (h : ∀ t : Located, t.token = ts.headD .eof → Yields (Awaits · a ts) (f t) Q E) :
    Yields (Awaits · a ts) (peek >>= f) Q E :=
  get_awaits fun b hb => h b.peek (by rw [b.token_peek, hb.upcoming])

theorem check_awaits {f : Bool → Compile α}
    (h : Yields (Awaits · a ts) (f (ts.headD .eof == token)) Q E) :
    Yields (Awaits · a ts) (check token >>= f) Q E :=
  peek_awaits fun t ht => by
    rw [← ht] at h
    exact h

theorem advance_awaits {t : Token} : Yields (Awaits · a (t :: ts)) advance
    (fun _ b => b.Awaits a ts ∧ b.last.token = t) E := by
  refine Yields.modify fun b hb => ?_
  have hupcoming := hb.upcoming
  unfold Builder.upcoming at hupcoming
  cases hr : b.rest with
  | nil => simp [hr] at hupcoming
  | cons l rest =>
    simp only [hr, List.map_cons, List.cons.injEq] at hupcoming
    simp only [Builder.advance, hr]
    exact ⟨⟨hupcoming.2, hb.arities⟩, hupcoming.1⟩

theorem advance_bind {t : Token} {f : Unit → Compile α} (h : Yields (Awaits · a ts) (f ()) Q E) :
    Yields (Awaits · a (t :: ts)) (advance >>= f) Q E :=
  Yields.bind advance_awaits fun _ => h.mono (fun _ hb => hb.1) (fun _ _ h => h) fun _ _ h => h

theorem bind_fact {x : Compile α} {f : α → Compile β} {P R : Builder → Prop} {φ : α → Prop}
    {Q : β → Builder → Prop} (hx : Yields P x (fun a b => R b ∧ φ a) E)
    (hf : ∀ a, φ a → Yields R (f a) Q E) : Yields P (x >>= f) Q E :=
  Yields.bind hx fun a b hb => hf a hb.2 b hb.1

theorem last_awaits {f : Located → Compile α}
    (h : ∀ t : Located, t.token = token → Yields (Awaits · a ts) (f t) Q E) :
    Yields (fun b => b.Awaits a ts ∧ b.last.token = token) (last >>= f) Q E :=
  Yields.get_bind fun b hb => Yields.start hb.1 (h b.last hb.2)

theorem accept_awaits : Yields (Awaits · a (token :: ts)) (accept token)
    (fun found b => b.Awaits a ts ∧ found = true) E := by
  refine check_awaits ?_
  rw [List.headD_cons, beq_self_eq_true, if_pos rfl]
  exact advance_bind (Yields.pure fun _ hb => ⟨hb, rfl⟩)

theorem accept_other (h : ts.headD .eof ≠ token) : Yields (Awaits · a ts) (accept token)
    (fun found b => b.Awaits a ts ∧ found = false) E := by
  refine check_awaits ?_
  rw [beq_false_of_ne h, if_neg Bool.false_ne_true]
  exact Yields.pure fun _ hb => ⟨hb, rfl⟩

theorem consume_awaits (what : String) :
    Yields (Awaits · a (token :: ts)) (consume token what) (fun _ => (Awaits · a ts)) E :=
  bind_fact accept_awaits fun found hfound => by
    rw [hfound]
    exact Yields.pure fun _ hb => hb

theorem resolve_awaits (x : String) : Yields (Awaits · a ts) (resolve x) (fun _ => (Awaits · a ts))
    fun d b => b.Hits deep ns d.complaint := by
  refine get_awaits fun b _ => ?_
  split
  · exact Yields.pure fun _ hb => hb
  · exact Yields.bind (textConstant_awaits x) fun _ => Yields.pure fun _ hb => hb

theorem offset_awaits {f : Nat → Compile α} (h : ∀ n, Yields (Awaits · a ts) (f n) Q E) :
    Yields (Awaits · a ts) (offset >>= f) Q E := get_awaits fun b _ => h b.chunk.code.size

theorem emitJump_awaits (op : Opcode) :
    Yields (Awaits · a ts) (emitJump op) (fun _ => (Awaits · a ts)) E :=
  Yields.bind (emitBytes_awaits _) fun _ => offset_awaits fun _ => Yields.pure fun _ hb => hb

theorem patchJump_awaits (at_ : Nat) : Yields (Awaits · a ts) (patchJump at_)
    (fun _ => (Awaits · a ts)) fun d b => b.Hits deep ns d.complaint := by
  intro b hb
  unfold patchJump
  refine Yields.read (x := offset) (s := b) rfl ?_ b rfl
  split
  · exact Yields.start hb (modifyChunk_awaits _)
  · next hnone =>
    rintro _ rfl
    refine .jump ?_
    unfold Word.ofNat? at hnone
    split at hnone
    · cases hnone
    · omega

/-! Parts of expressions. -/

/-- The operand is read to its end wherever it is awaited, or a limit is hit. -/
def Accepted (inner : Precedence → Compile Unit) (levels : Nat) (a : String → Option Nat)
    (x : Expr .operand) : Prop :=
  ∀ p rest, x.Binds p → Behind p rest → (∀ s ∈ x.signatures, a s.1 = some s.2) →
    Yields (Awaits · a (x.tokens++rest)) (inner p) (fun _ => (Awaits · a rest))
      fun d b => b.Hits (levels < x.depth) x.numbers d.complaint

section
variable {inner : Precedence → Compile Unit} {levels : Nat} {rest : List Token}

theorem headD_of_behind {p : Precedence} (h : Behind p rest) :
    rest.headD .eof ≠ .symbol .leftParen ∧ Assignment.ofToken? (rest.headD .eof) = none ∧
      ∀ i, Infix.ofToken? (rest.headD .eof) = some i → i.precedence.rank < p.rank := by
  cases rest with
  | nil => exact ⟨(fun h => by cases h), rfl, fun _ h => by cases h⟩
  | cons t rest =>
    exact ⟨fun heq => h.call (congrArg some heq), h.assignment t rfl, h.operator t rfl⟩

theorem arguments_awaits (first : Expr .operand) (more : Expr .arguments)
    (hsmall : ∀ x : Expr .operand, x.tokens.length ≤ (Expr.cons first more).tokens.length →
      Accepted inner levels a x)
    (hbinds : (Expr.cons first more).Binds .assign)
    (hcalls : ∀ s ∈ (Expr.cons first more).signatures, a s.1 = some s.2) (budget : List Located)
    (n : Nat) (hbudget : (Expr.cons first more).tokens.length < budget.length) :
    Yields (Awaits · a ((Expr.cons first more).tokens++.symbol .rightParen :: rest))
      (arguments inner budget n)
      (fun count b => b.Awaits a (.symbol .rightParen :: rest) ∧
        count = n+(Expr.cons first more).length)
      fun d b => b.Hits (levels < (Expr.cons first more).depth) (Expr.cons first more).numbers
        d.complaint := by
  cases budget with
  | nil => simp at hbudget
  | cons t budget =>
    have hfirst {ts : List Token} (hts : Behind .assign ts) :
        Yields (Awaits · a (first.tokens++ts)) (inner .assign) (fun _ => (Awaits · a ts))
          fun d b => b.Hits (levels < (Expr.cons first more).depth) (Expr.cons first more).numbers
            d.complaint :=
      (hsmall first (by simp only [Expr.tokens, List.length_append]; omega) .assign ts
        ⟨hbinds.fits.1, hbinds.grouped.1⟩ hts
        fun s hs => hcalls s (List.mem_append_left _ hs)).mono (fun _ h => h) (fun _ _ h => h)
        fun d b h => h.mono (lt_max_of_lt_left ·) (List.subset_append_left _ _)
    cases more with
    | nil =>
      have hbehind : Behind .assign (.symbol .rightParen :: rest) := Expr.behind_break rfl
      simp only [Expr.tokens, Expr.separator, List.append_nil]
      refine Yields.bind (hfirst hbehind) fun _ => bind_fact (accept_other (by simp)) fun found hfound => ?_
      rw [hfound]
      exact Yields.pure fun _ hb => ⟨hb, by simp [Expr.length]⟩
    | cons second more =>
      have htokens : (Expr.cons first (.cons second more)).tokens =
          first.tokens++.symbol .comma :: (Expr.cons second more).tokens := by
        simp [Expr.tokens, Expr.separator]
      rw [htokens] at hsmall hbudget ⊢
      rw [List.append_assoc, List.cons_append]
      refine Yields.bind (hfirst (Expr.behind_break rfl)) fun _ =>
        bind_fact accept_awaits fun found hfound => ?_
      rw [hfound]
      have hrest := arguments_awaits second more
        (fun x hx => hsmall x (by simp only [List.length_append, List.length_cons]; omega))
        ⟨hbinds.fits.2, hbinds.grouped.2⟩ (fun s hs => hcalls s (List.mem_append_right _ hs))
        budget (n+1) (by simp only [List.length_append, List.length_cons] at hbudget; omega)
      refine hrest.mono (fun _ h => h) (fun count b hb => ⟨hb.1, ?_⟩) fun d b h =>
        h.mono (lt_max_of_lt_right ·) (List.subset_append_right _ _)
      rw [hb.2]
      simp only [Expr.length]
      omega

variable {args : Expr .arguments} {x : String} {t : Located}

theorem callWith_awaits
    (hsmall : ∀ x : Expr .operand, x.tokens.length ≤ args.tokens.length → Accepted inner levels a x)
    (hbinds : args.Binds .assign) (hcalls : ∀ s ∈ args.signatures, a s.1 = some s.2) :
    Yields (Awaits · a (.symbol .leftParen :: (args.tokens++.symbol .rightParen :: rest)))
      (callWith inner t x args.length) (fun _ => (Awaits · a rest))
      fun d b => b.Hits (levels < args.depth) args.numbers d.complaint := by
  have hend {n : Nat} (hn : n = args.length) {index : UInt8} :
      Yields (Awaits · a (.symbol .rightParen :: rest)) (do
          consume (.symbol .rightParen) "')' after arguments"
          if n = args.length then return index
          else complain t (.argumentCount x args.length n) : Compile UInt8)
        (fun _ => (Awaits · a rest))
        fun d b => b.Hits (levels < args.depth) args.numbers d.complaint :=
    Yields.bind (consume_awaits _) fun _ => by
      rw [if_pos hn]
      exact Yields.pure fun _ hb => hb
  refine Yields.bind (textConstant_awaits x) fun index => Yields.bind (emitBytes_awaits _) fun _ =>
    Yields.bind (consume_awaits _) fun _ => check_awaits ?_
  dsimp only
  cases args with
  | nil =>
    simp only [Expr.tokens, List.nil_append, List.headD_cons, beq_self_eq_true, if_true, pure_bind]
    exact hend (by simp [Expr.length])
  | cons first more =>
    have hstart : ((Expr.cons first more).tokens++Token.symbol .rightParen :: rest).headD .eof ≠
        .symbol .rightParen := by
      obtain ⟨t, ts, hts, ht⟩ := first.operand_starts
      simp only [Expr.tokens, hts, List.cons_append, List.headD_cons]
      rintro rfl
      cases ht
    rw [beq_false_of_ne hstart, if_neg Bool.false_ne_true]
    refine get_awaits fun b hb => bind_fact (arguments_awaits first more hsmall hbinds hcalls b.rest 0 ?_)
      fun n hn => hend (by rw [hn, Nat.zero_add])
    have hlength := congrArg List.length hb.upcoming
    simp only [Builder.upcoming, List.length_map, List.length_append, List.length_cons] at hlength
    omega

theorem call_awaits
    (hsmall : ∀ x : Expr .operand, x.tokens.length ≤ args.tokens.length → Accepted inner levels a x)
    (hbinds : args.Binds .assign)
    (hcalls : ∀ s ∈ (Expr.call x args).signatures, a s.1 = some s.2) :
    Yields (Awaits · a (.symbol .leftParen :: (args.tokens++.symbol .rightParen :: rest)))
      (call inner t x) (fun _ => (Awaits · a rest))
      fun d b => b.Hits (levels < args.depth) args.numbers d.complaint := by
  have hx := hcalls (x, args.length) (List.mem_cons_self ..)
  have hargs := fun s hs => hcalls s (List.mem_cons_of_mem _ hs)
  refine get_awaits fun b hb => ?_
  have harity := (hb.arities x).trans hx
  unfold Builder.arity? at harity
  cases hr : b.runnable? x with
  | some f =>
    simp only [hr, Option.some.injEq] at harity
    simp only [harity]
    exact Yields.bind (callWith_awaits hsmall hbinds hargs) fun _ => emitBytes_awaits _
  | none =>
    simp only [hr] at harity
    obtain ⟨native, hnative, harity⟩ := Option.map_eq_some_iff.mp harity
    simp only [hnative, harity]
    exact Yields.bind (callWith_awaits hsmall hbinds hargs) fun _ => emitBytes_awaits _

/-- What starts with a name. -/
theorem variable_awaits {e : Expr .leading} {p : Precedence} {ts : List Token}
    (htokens : e.tokens = .name x :: ts)
    (hsmall : ∀ x : Expr .operand, x.tokens.length < e.tokens.length → Accepted inner levels a x)
    (hbinds : e.Binds p) (hrest : Behind .unary rest)
    (hassign : (Expr.head e).isAssignment = true → Behind .assign rest)
    (hcalls : ∀ s ∈ e.signatures, a s.1 = some s.2) :
    Yields (Awaits · a (ts++rest)) (variable_ inner t x (p == .assign)) (fun _ => (Awaits · a rest))
      fun d b => b.Hits (levels+1 < e.depth) e.numbers d.complaint := by
  cases e with
  | name y =>
    cases htokens
    obtain ⟨hparen, hnone, _⟩ := headD_of_behind hrest
    rw [List.nil_append]
    refine check_awaits ?_
    rw [beq_false_of_ne hparen, if_neg Bool.false_ne_true]
    refine Yields.bind (resolve_awaits x) fun v => peek_awaits fun t ht => ?_
    have hget : (if (p == .assign) = true then Assignment.ofToken? t.token else none) = none := by
      rw [ht]
      split
      · exact hnone
      · rfl
    simp only [hget]
    exact emitBytes_awaits _
  | count y up =>
    cases htokens
    obtain rfl : p = .assign := hbinds.fits
    refine check_awaits ?_
    have hparen : ((Assignment.count up).token == Token.symbol .leftParen) = false := by
      cases up <;> rfl
    simp only [List.cons_append, List.headD_cons, hparen, if_neg Bool.false_ne_true]
    refine Yields.bind (resolve_awaits x) fun v => peek_awaits fun t ht => ?_
    have hcount : (if (Precedence.assign == .assign) = true then Assignment.ofToken? t.token
        else none) = some (.count up) := by
      rw [ht]
      exact Assignment.ofToken?_token (.count up)
    simp only [hcount]
    exact advance_bind (emitBytes_awaits _)
  | assign y op value =>
    cases htokens
    obtain rfl : p = .assign := hbinds.fits.1
    refine check_awaits ?_
    have hparen : ((Expr.assignment op).token == Token.symbol .leftParen) = false := by
      cases op <;> rfl
    simp only [List.cons_append, List.headD_cons, hparen, if_neg Bool.false_ne_true]
    refine Yields.bind (resolve_awaits x) fun v => peek_awaits fun t ht => ?_
    have hassigned : (if (Precedence.assign == .assign) = true then Assignment.ofToken? t.token
        else none) = some (Expr.assignment op) := by
      rw [ht]
      exact Assignment.ofToken?_token (Expr.assignment op)
    have hoperand : (Expr.assignment op).hasOperand = true := by cases op <;> rfl
    simp only [hassigned, hoperand, if_true]
    refine advance_bind (Yields.bind ?_ fun _ => emitBytes_awaits _)
    exact (hsmall value (by simp only [Expr.tokens, List.length_cons]; omega) .assign rest
      ⟨hbinds.fits.2, hbinds.grouped⟩ (hassign rfl) hcalls).mono (fun _ h => h) (fun _ _ h => h)
      fun d b h => h.mono Nat.succ_lt_succ (List.Subset.refl _)
  | call y args =>
    simp only [Expr.tokens, List.cons_append, List.cons.injEq, Token.name.injEq] at htokens
    obtain ⟨rfl, rfl⟩ := htokens
    simp only [List.cons_append, List.append_assoc, List.nil_append]
    refine check_awaits ?_
    simp only [List.headD_cons, beq_self_eq_true, if_true]
    have hargs (x : Expr .operand) (hx : x.tokens.length ≤ args.tokens.length) :
        Accepted inner levels a x := hsmall x (by
      simp only [Expr.tokens, List.length_cons, List.length_append]
      omega)
    exact (call_awaits hargs ⟨hbinds.fits, hbinds.grouped⟩ hcalls).mono (fun _ h => h)
      (fun _ _ h => h) fun d b h => h.mono Nat.succ_lt_succ (List.Subset.refl _)
  | literal value => rcases value with _ | _ | _ <;> cases htokens
  | unary u => cases u <;> cases htokens
  | _ => cases htokens

theorem leading_awaits {e : Expr .leading} {p : Precedence} {ts : List Token}
    (htokens : e.tokens = t.token :: ts)
    (hsmall : ∀ x : Expr .operand, x.tokens.length < e.tokens.length → Accepted inner levels a x)
    (hbinds : e.Binds p) (hrest : Behind .unary rest)
    (hassign : (Expr.head e).isAssignment = true → Behind .assign rest)
    (hcalls : ∀ s ∈ e.signatures, a s.1 = some s.2) :
    Yields (Awaits · a (ts++rest)) (leading inner t (p == .assign)) (fun _ => (Awaits · a rest))
      fun d b => b.Hits (levels+1 < e.depth) e.numbers d.complaint := by
  have hname (x : String) (ht : t.token = .name x) : Yields (Awaits · a (ts++rest))
      (leading inner t (p == .assign)) (fun _ => (Awaits · a rest))
      fun d b => b.Hits (levels+1 < e.depth) e.numbers d.complaint := by
    unfold leading
    rw [ht] at htokens ⊢
    exact variable_awaits htokens hsmall hbinds hrest hassign hcalls
  cases e with
  | name x => exact hname x (List.cons.inj htokens).1.symm
  | count x up => exact hname x (List.cons.inj htokens).1.symm
  | assign x op value => exact hname x (List.cons.inj htokens).1.symm
  | call x args =>
    simp only [Expr.tokens, List.cons_append, List.cons.injEq] at htokens
    exact hname x htokens.1.symm
  | number digits =>
    obtain ⟨ht, rfl⟩ := List.cons.inj htokens
    unfold leading
    rw [← ht]
    exact Yields.bind (number_awaits (by simp [Expr.numbers])) fun _ => emitBytes_awaits _
  | text content =>
    obtain ⟨ht, rfl⟩ := List.cons.inj htokens
    unfold leading
    rw [← ht]
    exact Yields.bind (textConstant_awaits content) fun _ => emitBytes_awaits _
  | literal value =>
    obtain ⟨ht, rfl⟩ := List.cons.inj htokens
    unfold leading
    rw [← ht]
    rcases value with _ | _ | _ <;> exact emitBytes_awaits _
  | group inside =>
    simp only [Expr.tokens, List.cons_append, List.cons.injEq] at htokens
    obtain ⟨ht, rfl⟩ := htokens
    unfold leading
    rw [← ht, List.append_assoc]
    have hinside := hsmall inside (by
      simp only [Expr.tokens, List.length_append, List.length_cons]
      omega) .assign (.symbol .rightParen :: rest) ⟨hbinds.fits, hbinds.grouped⟩
      (Expr.behind_break rfl) hcalls
    exact Yields.bind (hinside.mono (fun _ h => h) (fun _ _ h => h) fun _ _ h =>
      h.mono Nat.succ_lt_succ (List.Subset.refl _)) fun _ => consume_awaits _
  | unary u inside =>
    obtain ⟨ht, rfl⟩ := List.cons.inj htokens
    unfold leading
    rw [← ht]
    have hinside := (hsmall inside (by
      simp only [Expr.tokens, List.length_cons]
      omega) .unary rest ⟨hbinds.fits, hbinds.grouped⟩ hrest hcalls).mono (fun _ h => h)
      (fun _ _ h => h) fun _ b h => h.mono (Nat.succ_lt_succ : levels < inside.depth → _)
        (List.Subset.refl _)
    cases u <;> exact Yields.bind hinside fun _ => emitBytes_awaits _

theorem joined_awaits {i : Infix} {r : Expr .operand} (hr : Accepted inner levels a r)
    (hbinds : r.Binds i.rightPrecedence) (hrest : Behind i.rightPrecedence rest)
    (hcalls : ∀ s ∈ r.signatures, a s.1 = some s.2) :
    Yields (Awaits · a (r.tokens++rest)) (joined inner i) (fun _ => (Awaits · a rest))
      fun d b => b.Hits (levels < r.depth) r.numbers d.complaint := by
  have hright := hr i.rightPrecedence rest hbinds hrest hcalls
  cases i with
  | operator op => exact Yields.bind hright fun _ => emitBytes_awaits _
  | comparison c => exact Yields.bind hright fun _ => emitBytes_awaits _
  | and =>
    exact Yields.bind (emitJump_awaits _) fun _ => Yields.bind (emitBytes_awaits _) fun _ =>
      Yields.bind hright fun _ => patchJump_awaits _
  | or =>
    exact Yields.bind (emitJump_awaits _) fun _ => Yields.bind (emitBytes_awaits _) fun _ =>
      Yields.bind hright fun _ => patchJump_awaits _

theorem following_awaits {p : Precedence} {xs : List (Infix × Expr .operand)}
    (hsmall : ∀ y ∈ xs, Accepted inner levels a y.2) (hxs : Expr.Follow p xs)
    (hdeep : ∀ y ∈ xs, levels < y.2.depth → deep) (hns : ∀ y ∈ xs, y.2.numbers ⊆ ns)
    (hcalls : ∀ y ∈ xs, ∀ s ∈ y.2.signatures, a s.1 = some s.2) (hrest : Behind p rest)
    (budget : List Located) (hbudget : (xs.flatMap Expr.pairTokens).length ≤ budget.length) :
    Yields (Awaits · a (xs.flatMap Expr.pairTokens++rest)) (following inner p budget)
      (fun _ => (Awaits · a rest)) fun d b => b.Hits deep ns d.complaint := by
  induction xs generalizing budget with
  | nil =>
    cases budget with
    | nil => exact Yields.pure fun _ hb => hb
    | cons l budget =>
      refine peek_awaits fun t ht => ?_
      rw [List.flatMap_nil, List.nil_append] at ht
      cases hi : Infix.ofToken? t.token with
      | none => exact Yields.pure fun _ hb => hb
      | some i =>
        have hlt := (headD_of_behind hrest).2.2 i (ht ▸ hi)
        dsimp only
        rw [if_neg (Nat.not_le.mpr hlt)]
        exact Yields.pure fun _ hb => hb
  | cons y xs ih =>
    obtain ⟨i, r⟩ := y
    obtain ⟨hi, hr, hnext, hxs⟩ := hxs
    cases budget with
    | nil => simp [Expr.pairTokens] at hbudget
    | cons l budget =>
      have htokens : ((i, r) :: xs).flatMap Expr.pairTokens++rest =
          i.token :: (r.tokens++(xs.flatMap Expr.pairTokens++rest)) := by
        simp [Expr.pairTokens]
      rw [htokens]
      refine peek_awaits fun t ht => ?_
      rw [List.headD_cons] at ht
      simp only [ht, i.ofToken?_token, hi, if_true]
      have hjoined := (joined_awaits (hsmall (i, r) (List.mem_cons_self ..)) hr
          (Expr.behind_follow hi hnext hrest) (hcalls (i, r) (List.mem_cons_self ..))).mono
          (fun _ h => h) (fun _ _ h => h) fun _ _ h => h.mono
          (hdeep (i, r) (List.mem_cons_self ..)) (hns (i, r) (List.mem_cons_self ..))
      refine advance_bind (Yields.bind hjoined fun _ => ?_)
      refine ih (fun y hy => hsmall y (List.mem_cons_of_mem _ hy)) hxs
        (fun y hy => hdeep y (List.mem_cons_of_mem _ hy))
        (fun y hy => hns y (List.mem_cons_of_mem _ hy))
        (fun y hy => hcalls y (List.mem_cons_of_mem _ hy)) budget ?_
      simp only [List.flatMap_cons, Expr.pairTokens, List.length_append, List.length_cons]
        at hbudget
      omega

theorem first_within (e : Expr .operand) : e.first.depth ≤ e.depth ∧ e.first.numbers ⊆ e.numbers ∧
    e.first.signatures ⊆ e.signatures := by
  cases e with
  | head first =>
    rw [Expr.first_head]
    exact ⟨Nat.le_refl _, List.Subset.refl _, List.Subset.refl _⟩
  | join left i right =>
    obtain ⟨hdepth, hnumbers, hcalls⟩ := first_within left
    rw [Expr.first_join]
    exact ⟨hdepth.trans (le_max_left _ _), List.subset_append_of_subset_left _ hnumbers,
      List.subset_append_of_subset_left _ hcalls⟩

theorem more_within (e : Expr .operand) : ∀ y ∈ e.more, y.2.depth < e.depth ∧
    y.2.numbers ⊆ e.numbers ∧ y.2.signatures ⊆ e.signatures := by
  cases e with
  | head => simp
  | join left i right =>
    intro y hy
    rw [Expr.more_join, List.mem_append, List.mem_singleton] at hy
    rcases hy with hy | rfl
    · obtain ⟨hdepth, hnumbers, hcalls⟩ := more_within left y hy
      exact ⟨hdepth.trans_le (le_max_left _ _), List.subset_append_of_subset_left _ hnumbers,
        List.subset_append_of_subset_left _ hcalls⟩
    · exact ⟨Nat.lt_of_succ_le (le_max_right _ _), List.subset_append_right _ _,
        List.subset_append_right _ _⟩

theorem operand_awaits {e : Expr .operand} {p : Precedence}
    (hsmall : ∀ x : Expr .operand, x.tokens.length < e.tokens.length → Accepted inner levels a x)
    (hbinds : e.Binds p) (hrest : Behind p rest) (hcalls : ∀ s ∈ e.signatures, a s.1 = some s.2) :
    Yields (Awaits · a (e.tokens++rest)) (operand inner p) (fun _ => (Awaits · a rest))
      fun d b => b.Hits (levels+1 < e.depth) e.numbers d.complaint := by
  obtain ⟨hfirst, hmore⟩ := hbinds.follow
  obtain ⟨token, ts, hts, _⟩ := e.first.leading_starts
  have hsize := congrArg List.length e.tokens_eq
  rw [List.length_append] at hsize
  obtain ⟨hdepth, hnumbers, hfirstCalls⟩ := first_within e
  have hwithin := more_within e
  have hpair (y : Infix × Expr .operand) (hy : y ∈ e.more) : y.2.tokens.length < e.tokens.length := by
    have hle : (Expr.pairTokens y).length ≤ (e.more.flatMap Expr.pairTokens).length := by
      rw [List.length_flatMap]
      exact List.le_sum_of_mem (List.mem_map_of_mem hy)
    rw [Expr.pairTokens, List.length_cons] at hle
    omega
  rw [e.tokens_eq, hts, List.cons_append, List.cons_append, List.append_assoc]
  refine Yields.bind advance_awaits fun _ => last_awaits fun t ht => ?_
  have hleading := leading_awaits (ht ▸ hts) (fun x hx => hsmall x (by omega)) hfirst (hrest.head e.more)
    (fun hassign => hbinds.behind_of_assignment hassign hrest)
    fun s hs => hcalls s (hfirstCalls hs)
  refine Yields.bind (hleading.mono (fun _ h => h) (fun _ _ h => h) fun _ _ h =>
    h.mono (·.trans_le hdepth) hnumbers) fun _ => get_awaits fun b hb => ?_
  have hbudget : (e.more.flatMap Expr.pairTokens).length ≤ b.rest.length := by
    have hlength := congrArg List.length hb.upcoming
    simp only [Builder.upcoming, List.length_map, List.length_append] at hlength
    omega
  refine Yields.bind (following_awaits (fun y hy => hsmall y.2 (hpair y hy)) hmore
    (fun y hy h => Nat.lt_of_le_of_lt h (hwithin y hy).1) (fun y hy => (hwithin y hy).2.1)
    (fun y hy s hs => hcalls s ((hwithin y hy).2.2 hs)) hrest b.rest hbudget) fun _ =>
    peek_awaits fun t ht => ?_
  rw [ht, (headD_of_behind hrest).2.1, if_neg (by simp)]
  exact Yields.pure fun _ hb => hb

end

theorem depth_pos (e : Expr .operand) : 0 < e.depth := by
  cases e with
  | head first => cases first <;> exact Nat.succ_pos _
  | join left i right => exact (Nat.succ_pos _).trans_le (le_max_right _ _)

theorem operandAt_accepted (levels : Nat) (a : String → Option Nat) (e : Expr .operand) :
    Accepted (operandAt levels) levels a e := by
  induction hn : e.tokens.length using Nat.strong_induction_on generalizing e levels with
  | _ n ih =>
    subst hn
    intro p rest hbinds hrest hcalls
    cases levels with
    | zero =>
      exact peek_awaits fun t _ => Yields.throw fun b _ => .nesting (depth_pos e)
    | succ levels => exact operand_awaits (fun x hx => ih _ hx levels x rfl) hbinds hrest hcalls

/-- An operand where an assignment may stand is compiled as the grammar says. If the tokens to come
spell a tree whose calls are of what is there, up to a token that can only stand behind it, the
tokens are read and the code of the tree is written, unless a limit is hit. Whatever is compiled, in
turn, was the spelling of a tree, and the code is that of the tree. -/
theorem operandAt_grammar (levels : Nat) {b : Builder} (hb : b.Ready) :
    (∀ (e : Expr .operand) (n : Nat) (ts rest : List Token), Expr.Spelled .assign true n e ts →
      b.upcoming = ts++rest → Behind .assign rest →
      (∀ s ∈ e.signatures, b.arity? s.1 = some s.2) →
      match operandAt levels .assign b with
      | .ok _ b' => b'.upcoming = rest ∧ ∃ c : Phrase, b.Lays b' (encode c.directives) ∧
          e.Codes b'.program b'.view c
      | .error d b' => b'.Hits (levels < n) e.numbers d.complaint) ∧
    (∀ b' : Builder, b.upcoming ≠ [] → operandAt levels .assign b = .ok () b' →
      ∃ (e : Expr .operand) (n : Nat) (ts : List Token) (c : Phrase), Expr.Spelled .assign true n e ts ∧
        b.Reads b' ts ∧ b'.Stops .assign ∧ b.Lays b' (encode c.directives) ∧
        e.Codes b'.program b'.view c) := by
  have hparses := operandAt_parses levels .assign b
  constructor
  · intro e n ts rest hspelled hupcoming hrest hcalls
    obtain ⟨w, hw, rfl, rfl, hdepth⟩ := Expr.spelled_iff.mp hspelled
    rw [w.signatures_ungrouped] at hcalls
    have hexpecting : b.Expecting := fun hnone => by
      obtain ⟨t, ts, hts, _⟩ := w.operand_starts
      rw [hupcoming, hts] at hnone
      cases hnone
    have haccepted := operandAt_accepted levels b.arity? w .assign rest hw hrest hcalls b
      ⟨hupcoming, fun _ => rfl⟩
    cases hrun : operandAt levels .assign b with
    | ok u b' =>
      rw [hrun] at haccepted
      obtain ⟨w', c, hspells, hw', _⟩ := hparses b' hb hexpecting hrun
      have hreads : w.tokens++rest = w'.tokens++rest := by
        rw [← hupcoming, ← haccepted.upcoming]
        exact hspells.reads
      obtain ⟨rfl, _⟩ := w.operand_unique w' .assign rest rest hw hw' hrest hrest hreads
      exact ⟨haccepted.upcoming, c, hspells.toLays, hspells.codes.ungrouped⟩
    | error d b' =>
      rw [hrun] at haccepted
      exact haccepted.mono (·.trans_le hdepth) (w.numbers_ungrouped ▸ List.Subset.refl _)
  · intro b' hsome hrun
    obtain ⟨w, c, hspells, hw, hstops⟩ := hparses b' hb (absurd · hsome) hrun
    exact ⟨w.ungrouped, w.depth, w.tokens, c, Expr.spelled_iff.mpr ⟨w, hw, rfl, rfl, Nat.le_refl _⟩,
      hspells.reads, hstops, hspells.toLays, hspells.codes.ungrouped⟩

/-- Tokens at no place in particular. -/
def unplaced (ts : List Token) : List Located := ts.map fun t => ⟨t, .start⟩

/-- `a = 5 - 2 - (1 - x)`, at the end of a line. -/
def subtracting : List Token :=
  [.name "a", .symbol .assign, .number "5", .symbol (.operator .sub), .number "2",
    .symbol (.operator .sub), .symbol .leftParen, .number "1", .symbol (.operator .sub), .name "x",
    .symbol .rightParen]

/-- It groups to the left; brackets are for what would not. -/
def subtracted : Expr .operand :=
  .head (.assign "a" none (.join
    (.join (.head (.number "5")) (.operator .sub) (.head (.number "2"))) (.operator .sub)
    (.join (.head (.number "1")) (.operator .sub) (.head (.name "x")))))

theorem subtracting_spells : Expr.Spelled .assign true 5 subtracted subtracting :=
  have hminus : Precedence.assign.rank ≤ (Infix.operator .sub).precedence.rank := by decide
  have hleft : Expr.Spelled (Infix.operator .sub).leftPrecedence true 4
      (.join (.head (.number "5")) (.operator .sub) (.head (.number "2"))) _ :=
    .join (by decide) .number .number
  .assign (.join hminus hleft (.brackets (.join hminus .number .name)))

theorem operandAt_grammar_subtracting :
    let b := Builder.start (unplaced (subtracting++[.newline]))
    b.Ready ∧ ∃ (b' : Builder) (c : Phrase), operandAt 5 .assign b = .ok () b' ∧
      b'.upcoming = [.newline] ∧ b.Lays b' (encode c.directives) ∧
      subtracted.Codes b'.program b'.view c := by
  intro b
  have hb : b.Ready := Builder.ready_start _
  refine ⟨hb, ?_⟩
  have hruns : (match operandAt 5 .assign b with
    | .ok _ _ => true
    | .error _ _ => false) = true := by decide +kernel
  have hgrammar := (operandAt_grammar 5 hb).1 subtracted 5 subtracting [.newline] subtracting_spells
    (by decide +kernel) (Expr.behind_break rfl) (by simp [subtracted, Expr.signatures])
  cases hrun : operandAt 5 .assign b with
  | ok u b' =>
    rw [hrun] at hgrammar
    obtain ⟨hrest, c, hlays, hcodes⟩ := hgrammar
    exact ⟨b', c, rfl, hrest, hlays, hcodes⟩
  | error d b' =>
    rw [hrun] at hruns
    cases hruns

end Compile
end RatScript
