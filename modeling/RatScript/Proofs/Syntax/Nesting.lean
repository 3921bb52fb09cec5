import RatScript.Proofs.Compile.Resumed
import RatScript.Proofs.Syntax.Tree

/-!
Blocks of syntax trees: all that a statement opens it closes again, and within the tokens of a block
there is always a block open.
-/

namespace RatScript

namespace Block

/-- The tokens close what they open, and nothing that was open before. -/
structure Balanced (ts : List Token) : Prop where
  closes : ∀ blocks, openIn ts blocks = blocks
  keeps : ∀ blocks us, us <+: ts → blocks <:+ openIn us blocks

/-- The tokens of a block: one is open from the first of them to the last. -/
structure Enclosed (ts : List Token) : Prop where
  closes : ∀ blocks, openIn ts blocks = blocks
  inside : ∀ blocks us, us <+: ts → us ≠ [] → us ≠ ts → ∃ k, k :: blocks <:+ openIn us blocks

theorem openIn_append (ts us : List Token) (blocks : List Block) :
    openIn (ts++us) blocks = openIn us (openIn ts blocks) :=
  List.foldl_append

theorem prefix_append_cases {α : Type} {us ts vs : List α} (h : us <+: ts++vs) :
    us <+: ts ∨ ∃ ws, us = ts++ws ∧ ws <+: vs := by
  obtain ⟨more, hmore⟩ := h
  rcases List.append_eq_append_iff.mp hmore with ⟨ws, hts, _⟩ | ⟨ws, hus, hvs⟩
  · exact .inl ⟨ws, hts.symm⟩
  · exact .inr ⟨ws, hus, more, hvs.symm⟩

namespace Balanced

theorem nil : Balanced [] where
  closes _ := rfl
  keeps blocks us h := by
    rw [List.prefix_nil.mp h]
    exact List.suffix_rfl

theorem append {ts us : List Token} (h : Balanced ts) (k : Balanced us) : Balanced (ts++us) where
  closes blocks := by rw [openIn_append, h.closes, k.closes]
  keeps blocks vs hvs := by
    rcases prefix_append_cases hvs with hvs | ⟨ws, rfl, hws⟩
    · exact h.keeps blocks vs hvs
    · rw [openIn_append, h.closes]
      exact k.keeps blocks ws hws

theorem of_plain {ts : List Token} (h : ∀ t ∈ ts, ∀ blocks, behind blocks t = blocks) :
    Balanced ts := by
  have hclosed (us : List Token) (hus : ∀ t ∈ us, t ∈ ts) (blocks : List Block) :
      openIn us blocks = blocks := by
    induction us with
    | nil => rfl
    | cons t us ih =>
      change openIn us (behind blocks t) = blocks
      rw [h t (hus t (List.mem_cons_self ..))]
      exact ih fun t ht => hus t (List.mem_cons_of_mem _ ht)
  refine ⟨hclosed ts fun _ ht => ht, fun blocks us hus => ?_⟩
  rw [hclosed us fun _ ht => hus.subset ht]

end Balanced

/-- The tokens lead from inside one block to inside another at the same place, and never out. -/
structure Stays (k k' : Block) (ts : List Token) : Prop where
  ends : ∀ blocks, openIn ts (k :: blocks) = k' :: blocks
  keeps : ∀ blocks us, us <+: ts → ∃ l, l :: blocks <:+ openIn us (k :: blocks)

namespace Stays

variable {k l m : Block} {ts us : List Token}

theorem of_balanced (k : Block) (h : Balanced ts) : Stays k k ts where
  ends _ := h.closes _
  keeps _ us hus := ⟨k, h.keeps _ us hus⟩

theorem append (h : Stays k l ts) (h' : Stays l m us) : Stays k m (ts++us) where
  ends blocks := by rw [openIn_append, h.ends, h'.ends]
  keeps blocks vs hvs := by
    rcases prefix_append_cases hvs with hvs | ⟨ws, rfl, hws⟩
    · exact h.keeps blocks vs hvs
    · rw [openIn_append, h.ends]
      exact h'.keeps blocks ws hws

theorem turn {t : Token} (h : ∀ blocks, behind (k :: blocks) t = l :: blocks) : Stays k l [t] where
  ends := h
  keeps blocks us hus := by
    rcases List.prefix_cons_iff.mp hus with rfl | ⟨us, rfl, hus⟩
    · exact ⟨k, List.suffix_rfl⟩
    · rw [List.prefix_nil.mp (List.cons_prefix_cons.mp hus).2]
      exact ⟨l, by rw [← h blocks]; exact List.suffix_rfl⟩

/-- A block with its opener and its closer. -/
theorem enclosed {opener closer : Token} (h : Stays k l ts)
    (hopener : ∀ blocks, behind blocks opener = k :: blocks)
    (hcloser : ∀ blocks, behind (l :: blocks) closer = blocks) :
    Enclosed (opener :: (ts++[closer])) where
  closes blocks := by
    change openIn (ts++[closer]) (behind blocks opener) = blocks
    rw [hopener, openIn_append, h.ends]
    exact hcloser blocks
  inside blocks us hus hne hall := by
    obtain ⟨u, us, rfl⟩ := List.exists_cons_of_ne_nil hne
    obtain ⟨rfl, hinside⟩ := List.cons_prefix_cons.mp hus
    change ∃ k, k :: blocks <:+ openIn us (behind blocks u)
    rw [hopener]
    rcases prefix_append_cases hinside with hus | ⟨ws, rfl, hws⟩
    · exact h.keeps blocks us hus
    · rcases List.prefix_cons_iff.mp hws with rfl | ⟨ws', rfl, hws'⟩
      · rw [List.append_nil, h.ends]
        exact ⟨l, List.suffix_rfl⟩
      · rw [List.prefix_nil.mp hws'] at hall
        exact absurd rfl hall

end Stays

theorem Enclosed.balanced {ts : List Token} (h : Enclosed ts) : Balanced ts where
  closes := h.closes
  keeps blocks us hus := by
    by_cases hne : us = []
    · rw [hne]
      exact List.suffix_rfl
    by_cases hall : us = ts
    · rw [hall, h.closes]
    obtain ⟨k, hk⟩ := h.inside blocks us hus hne hall
    exact (List.suffix_cons k blocks).trans hk

end Block

section
variable (blocks : List Block)

@[simp] theorem Block.behind_number (digits : String) : behind blocks (.number digits) = blocks := rfl

@[simp] theorem Block.behind_text (content : String) : behind blocks (.text content) = blocks := rfl

@[simp] theorem Block.behind_name (x : String) : behind blocks (.name x) = blocks := rfl

@[simp] theorem Block.behind_symbol (s : Symbol) : behind blocks (.symbol s) = blocks := rfl

@[simp] theorem Block.behind_newline : behind blocks .newline = blocks := rfl

@[simp] theorem Block.behind_literal (value : Option Bool) :
    behind blocks (literalToken value) = blocks := by
  rcases value with _ | _ | _ <;> rfl

@[simp] theorem Block.behind_infix (i : Infix) : behind blocks i.token = blocks := by cases i <;> rfl

@[simp] theorem Block.behind_unary (u : Unary) : behind blocks u.token = blocks := by cases u <;> rfl

@[simp] theorem Block.behind_assignment (a : Assignment) : behind blocks a.token = blocks := by
  cases a <;> rfl

end

/-- Expressions open no blocks. -/
theorem Expr.behind_tokens {k : ExprKind} (e : Expr k) :
    ∀ t ∈ e.tokens, ∀ blocks, Block.behind blocks t = blocks := by
  have hseparator (e : Expr .arguments) :
      ∀ t ∈ e.separator, ∀ blocks, Block.behind blocks t = blocks := by
    cases e <;> simp [separator]
  induction e with
  | number | text | name | literal | count | nil => simp [tokens]
  | group _ ih | call _ _ ih => simpa [tokens, or_imp, forall_and] using ih
  | unary _ _ ih | assign _ _ _ ih | head _ ih => simpa [tokens] using ih
  | join _ _ _ ihleft ihright => simpa [tokens, or_imp, forall_and] using ⟨ihleft, ihright⟩
  | cons _ rest ihfirst ihrest =>
    simpa [tokens, or_imp, forall_and] using ⟨ihfirst, hseparator rest, ihrest⟩

namespace Stmt

open Block (Balanced Stays Enclosed)

/-- Statements that are a block. -/
inductive IsBlock : Stmt .statement → Prop
  | if_ (test : Expr .operand) (yes : Stmt .scope) : IsBlock (.if_ test yes)
  | ifElse (test : Expr .operand) (yes no : Stmt .scope) : IsBlock (.ifElse test yes no)
  | while_ (test : Expr .operand) (body : Stmt .scope) : IsBlock (.while_ test body)
  | repeat_ (count : Expr .operand) (body : Stmt .scope) : IsBlock (.repeat_ count body)
  | runnable (name : String) (params : List String) (body : Stmt .block) :
    IsBlock (.runnable name params body)

theorem behind_paramTokens (params : List String) :
    ∀ t ∈ paramTokens params, ∀ blocks, Block.behind blocks t = blocks := by
  induction params with
  | nil => simp [paramTokens]
  | cons x rest ih =>
    cases rest with
    | nil => simp [paramTokens]
    | cons y rest => simpa [paramTokens] using ih

theorem balanced_header (test : Expr .operand) : Balanced (test.tokens++opening) :=
  .append (.of_plain test.behind_tokens) (.of_plain (by simp [opening]))

section
variable {k : Block} {opener closer : Token} {header body more : List Token}
  (hopener : ∀ blocks, Block.behind blocks opener = k :: blocks)
  (hheader : Balanced header) (hbody : Balanced body)
include hopener hheader hbody

theorem enclosed_of_body (hcloser : ∀ blocks, Block.behind (k :: blocks) closer = blocks) :
    Enclosed (opener :: (header++body++[closer])) :=
  (Stays.of_balanced k (hheader.append hbody)).enclosed hopener hcloser

theorem enclosed_of_bodies {l : Block} {middle : Token}
    (hmiddle : ∀ blocks, Block.behind (k :: blocks) middle = l :: blocks) (hmore : Balanced more)
    (hcloser : ∀ blocks, Block.behind (l :: blocks) closer = blocks) :
    Enclosed (opener :: (header++body++[middle]++(opening++more)++[closer])) := by
  have hopening : Balanced opening := .of_plain (by simp [opening])
  exact (((Stays.of_balanced k (hheader.append hbody)).append (.turn hmiddle)).append
    (.of_balanced l (hopening.append hmore))).enclosed hopener hcloser

end

section
variable (test : Expr .operand) {body no : Stmt .scope}

theorem enclosed_if (h : Balanced body.tokens) : Enclosed (if_ test body).tokens :=
  enclosed_of_body (fun _ => rfl) (balanced_header test) h fun _ => rfl

theorem enclosed_while (h : Balanced body.tokens) : Enclosed (while_ test body).tokens :=
  enclosed_of_body (fun _ => rfl) (balanced_header test) h fun _ => rfl

theorem enclosed_repeat (h : Balanced body.tokens) : Enclosed (repeat_ test body).tokens :=
  enclosed_of_body (fun _ => rfl) (balanced_header test) h fun _ => rfl

theorem enclosed_ifElse (h : Balanced body.tokens) (hno : Balanced no.tokens) :
    Enclosed (ifElse test body no).tokens := by
  have henclosed : Enclosed (.keyword .if_ :: (test.tokens++opening++body.tokens++
      [Token.keyword .else_]++(opening++no.tokens)++[Token.keyword .endIf])) :=
    enclosed_of_bodies (fun _ => rfl) (balanced_header test) h (fun _ => rfl) hno fun _ => rfl
  simpa [tokens] using henclosed

theorem enclosed_runnable (name : String) (params : List String) {body : Stmt .block}
    (h : Balanced body.tokens) : Enclosed (runnable name params body).tokens := by
  have hheader : Balanced (.name name :: .symbol .leftParen :: paramTokens params++
      Token.symbol .rightParen :: opening) := by
    refine .of_plain ?_
    simpa [opening, or_imp, forall_and] using behind_paramTokens params
  have henclosed : Enclosed (.keyword .runnable :: ((.name name :: .symbol .leftParen ::
      paramTokens params++Token.symbol .rightParen :: opening)++body.tokens++[Token.keyword .endRunnable])) :=
    enclosed_of_body (fun _ => rfl) hheader h fun _ => rfl
  simpa [tokens] using henclosed

end

/-- A statement closes all that it opens. -/
theorem balanced {k : StmtKind} (t : Stmt k) : Balanced t.tokens := by
  have hdeclare (blocks : List Block) : Block.behind blocks (.keyword .declare) = blocks := rfl
  have hreturn (blocks : List Block) : Block.behind blocks (.keyword .return_) = blocks := rfl
  induction t with
  | blank | nil => exact .nil
  | expression e => exact .of_plain e.behind_tokens
  | declare x value =>
    cases value with
    | none => exact .of_plain (by simp [tokens, hdeclare])
    | some e => exact .of_plain (by simpa [tokens, hdeclare] using e.behind_tokens)
  | return_ value =>
    cases value with
    | none => exact .of_plain (by simp [tokens, hreturn])
    | some e => exact .of_plain (by simpa [tokens, hreturn] using e.behind_tokens)
  | if_ test yes ih => exact (enclosed_if test ih).balanced
  | ifElse test yes no ihyes ihno => exact (enclosed_ifElse test ihyes ihno).balanced
  | while_ test body ih => exact (enclosed_while test ih).balanced
  | repeat_ count body ih => exact (enclosed_repeat count ih).balanced
  | runnable name params body ih => exact (enclosed_runnable name params ih).balanced
  | line first rest ihfirst ihrest =>
    exact ihfirst.append (.append (.of_plain (by simp) : Balanced [.newline]) ihrest)
  | scope lines ih => exact ih

/-- In a statement that is a block there is a block open from its first token to its last. -/
theorem IsBlock.enclosed {t : Stmt .statement} (h : t.IsBlock) : Enclosed t.tokens := by
  cases h with
  | if_ test yes => exact enclosed_if test yes.balanced
  | ifElse test yes no => exact enclosed_ifElse test yes.balanced no.balanced
  | while_ test body => exact enclosed_while test body.balanced
  | repeat_ count body => exact enclosed_repeat count body.balanced
  | runnable name params body => exact enclosed_runnable name params body.balanced

end Stmt
end RatScript
