import RatScript.Proofs.Syntax.Tree

/-!
Tokens spell at most one tree. Two trees of a kind that spell the beginnings of one list of tokens
are the same if nothing behind either could belong to it.
-/

namespace RatScript

theorem Infix.token_injective {i j : Infix} (h : i.token = j.token) : i = j := by
  cases i <;> cases j <;> simp_all [token]

theorem Infix.ofToken?_token (i : Infix) : ofToken? i.token = some i := by
  cases i <;> rfl

theorem Infix.precedence_le_right (i : Infix) : i.precedence.rank ≤ i.rightPrecedence.rank := by
  cases i with
  | operator op => cases op <;> decide
  | comparison | and | or => simp [precedence, rightPrecedence, Precedence.rank]

theorem Assignment.ofToken?_token (a : Assignment) : ofToken? a.token = some a := by
  cases a with
  | count up => cases up <;> rfl
  | plain | compound => rfl

namespace Expr

/-- The first token belongs to no operand of that binding strength before it. -/
structure Behind (p : Precedence) (ts : List Token) : Prop where
  operator : ∀ t ∈ ts.head?, ∀ i, Infix.ofToken? t = some i → i.precedence.rank < p.rank
  assignment : ∀ t ∈ ts.head?, Assignment.ofToken? t = none
  call : ts.head? ≠ some (.symbol .leftParen)

theorem Behind.weaken {p q : Precedence} {ts : List Token} (h : Behind p ts)
    (hle : p.rank ≤ q.rank) : Behind q ts :=
  ⟨fun t ht i hi => Nat.lt_of_lt_of_le (h.operator t ht i hi) hle, h.assignment, h.call⟩

/-- Tokens that can only stand behind a whole operand. -/
def isBreak : Token → Bool
  | .symbol .rightParen | .symbol .comma | .symbol .colon | .newline => true
  | _ => false

theorem behind_nil (p : Precedence) : Behind p [] := ⟨by simp, by simp, by simp⟩

theorem behind_break {p : Precedence} {t : Token} {ts : List Token} (ht : isBreak t = true) :
    Behind p (t :: ts) := by
  have hnone : Infix.ofToken? t = none ∧ Assignment.ofToken? t = none ∧ t ≠ .symbol .leftParen := by
    unfold isBreak at ht
    split at ht <;> simp_all [Infix.ofToken?, Assignment.ofToken?]
  refine ⟨?_, ?_, by simpa using hnone.2.2⟩ <;> simp [hnone.1, hnone.2.1]

theorem behind_infix {p : Precedence} {i : Infix} {ts : List Token}
    (hi : i.precedence.rank < p.rank) : Behind p (i.token :: ts) := by
  refine ⟨?_, ?_, ?_⟩
  · simpa [i.ofToken?_token] using hi
  · cases i <;> simp [Infix.token, Assignment.ofToken?]
  · cases i <;> simp [Infix.token]

/-! An operand as its head and the operators behind it. -/

/-- What an operand starts with. -/
def first : Expr .operand → Expr .leading
  | head e => e
  | join left _ _ => left.first

/-- The operators behind the head, each with its right operand. -/
def more : Expr .operand → List (Infix × Expr .operand)
  | head _ => []
  | join left i right => left.more++[(i, right)]

@[simp] theorem first_head (e : Expr .leading) : (head e).first = e := by rw [first]

@[simp] theorem first_join (left : Expr .operand) (i : Infix) (right : Expr .operand) :
    (join left i right).first = left.first := by rw [first]

@[simp] theorem more_head (e : Expr .leading) : (head e).more = [] := by rw [more]

@[simp] theorem more_join (left : Expr .operand) (i : Infix) (right : Expr .operand) :
    (join left i right).more = left.more++[(i, right)] := by rw [more]

def pairTokens (x : Infix × Expr .operand) : List Token := x.1.token :: x.2.tokens

theorem tokens_eq (e : Expr .operand) : e.tokens = e.first.tokens++e.more.flatMap pairTokens := by
  cases e with
  | head => simp [tokens]
  | join left i right =>
    have ih := tokens_eq left
    simp [tokens, pairTokens, ih]

theorem ext_first_more {e e' : Expr .operand} (hfirst : e.first = e'.first)
    (hmore : e.more = e'.more) : e = e' := by
  cases e with
  | head a =>
    cases e' with
    | head b => simpa using hfirst
    | join => simp at hmore
  | join left i right =>
    cases e' with
    | head => simp at hmore
    | join left' j right' =>
      simp only [first_join, more_join] at hfirst hmore
      obtain ⟨hmore, hlast⟩ := List.append_inj' hmore rfl
      obtain rfl := ext_first_more hfirst hmore
      simp_all

/-- Operators that may stand behind a head, one after another. -/
def Follow (p : Precedence) : List (Infix × Expr .operand) → Prop
  | [] => True
  | (i, right) :: rest => p.rank ≤ i.precedence.rank ∧ right.Binds i.rightPrecedence ∧
      (∀ j ∈ rest.head?.map Prod.fst, j.precedence.rank < i.rightPrecedence.rank) ∧ Follow p rest

theorem follow_append {p : Precedence} {xs : List (Infix × Expr .operand)} {i : Infix}
    {right : Expr .operand} (hxs : Follow p xs) (hi : p.rank ≤ i.precedence.rank)
    (hright : right.Binds i.rightPrecedence)
    (hlast : ∀ x ∈ xs.getLast?, i.precedence.rank < x.1.rightPrecedence.rank) :
    Follow p (xs++[(i, right)]) := by
  induction xs with
  | nil => exact ⟨hi, hright, by simp, trivial⟩
  | cons x rest ih =>
    obtain ⟨j, r⟩ := x
    obtain ⟨hj, hr, hnext, hrest⟩ := hxs
    refine ⟨hj, hr, ?_, ih hrest ?_⟩
    · cases rest with
      | nil => simpa using hlast
      | cons y rest => simpa using hnext
    · intro y hy
      apply hlast y
      rw [List.getLast?_cons]
      simp only [Option.mem_def] at hy
      simp [hy]

theorem Binds.follow {p : Precedence} {e : Expr .operand} (h : e.Binds p) :
    e.first.Binds p ∧ Follow p e.more := by
  cases e with
  | head =>
    rw [first_head, more_head]
    exact ⟨⟨h.fits, h.grouped⟩, trivial⟩
  | join left i right =>
    obtain ⟨hleft, _, hi, hright⟩ := h.fits
    obtain ⟨hleaves, hgrouped, hgrouped'⟩ := h.grouped
    obtain ⟨hfirst, hmore⟩ := Binds.follow (e := left) ⟨hleft, hgrouped⟩
    rw [first_join, more_join]
    refine ⟨hfirst, follow_append hmore hi ⟨hright, hgrouped'⟩ ?_⟩
    cases left with
    | head => simp
    | join =>
      rw [Leaves] at hleaves
      simpa using hleaves

/-- Behind an assignment there is no operator: it would belong to its value. -/
theorem Binds.more_eq_nil {p : Precedence} {e : Expr .operand} (h : e.Binds p)
    (hassign : (head e.first).isAssignment = true) : e.more = [] := by
  cases e with
  | head => rw [more_head]
  | join left i right =>
    rw [first_join] at hassign
    have hleft : left.Binds p := ⟨h.fits.1, h.grouped.2.1⟩
    have hnone := Binds.more_eq_nil hleft hassign
    cases left with
    | head a =>
      have hnot : (head a).isAssignment = false := h.fits.2.1
      rw [first_head, hnot] at hassign
      cases hassign
    | join => simp at hnone

theorem Binds.behind_of_assignment {p : Precedence} {e : Expr .operand} {ts : List Token}
    (h : e.Binds p) (hassign : (head e.first).isAssignment = true) (hts : Behind p ts) :
    Behind .assign (e.more.flatMap pairTokens++ts) := by
  rw [h.more_eq_nil hassign]
  have hp : p = .assign := by
    have hfirst := h.follow.1.fits
    generalize e.first = a at hassign hfirst
    cases a with
    | assign => exact hfirst.1
    | _ => cases hassign
  exact hp ▸ hts

theorem Behind.head {p : Precedence} {ts : List Token} (hts : Behind p ts)
    (xs : List (Infix × Expr .operand)) : Behind .unary (xs.flatMap pairTokens++ts) := by
  cases xs with
  | nil => exact hts.weaken (by cases p <;> decide)
  | cons x rest =>
    refine behind_infix ?_
    generalize x.1 = i
    cases i with
    | operator op => cases op <;> decide
    | comparison c => cases c <;> decide
    | and | or => decide

/-! Uniqueness, by the number of tokens. -/

/-- Another operand whose tokens come first in the same list is the same. -/
def Unique (e : Expr .operand) : Prop :=
  ∀ (e' : Expr .operand) (p : Precedence) (ts ts' : List Token), e.Binds p → e'.Binds p → Behind p ts →
    Behind p ts' → e.tokens++ts = e'.tokens++ts' → e = e' ∧ ts = ts'

theorem behind_follow {p : Precedence} {xs : List (Infix × Expr .operand)} {ts : List Token}
    {i : Infix} (hi : p.rank ≤ i.precedence.rank)
    (hnext : ∀ j ∈ xs.head?.map Prod.fst, j.precedence.rank < i.rightPrecedence.rank)
    (hts : Behind p ts) : Behind i.rightPrecedence (xs.flatMap pairTokens++ts) := by
  cases xs with
  | nil => exact hts.weaken (hi.trans i.precedence_le_right)
  | cons x rest => exact behind_infix (hnext x.1 (by simp))

theorem follow_unique {p : Precedence} {xs ys : List (Infix × Expr .operand)}
    {ts ts' : List Token} (hunique : ∀ x ∈ xs, x.2.Unique) (hxs : Follow p xs) (hys : Follow p ys)
    (hts : Behind p ts) (hts' : Behind p ts')
    (h : xs.flatMap pairTokens++ts = ys.flatMap pairTokens++ts') : xs = ys ∧ ts = ts' := by
  induction xs generalizing ys with
  | nil =>
    cases ys with
    | nil => exact ⟨rfl, h⟩
    | cons y rest =>
      simp only [List.flatMap_nil, List.nil_append] at h
      have hlt := hts.operator y.1.token (by simp [h, pairTokens]) y.1 y.1.ofToken?_token
      exact absurd hys.1 (Nat.not_le.mpr hlt)
  | cons x rest ih =>
    cases ys with
    | nil =>
      simp only [List.flatMap_nil, List.nil_append] at h
      have hlt := hts'.operator x.1.token (by simp [← h, pairTokens]) x.1 x.1.ofToken?_token
      exact absurd hxs.1 (Nat.not_le.mpr hlt)
    | cons y rest' =>
      obtain ⟨i, right⟩ := x
      obtain ⟨j, right'⟩ := y
      simp only [List.flatMap_cons, pairTokens, List.cons_append, List.cons.injEq,
        List.append_assoc] at h
      obtain ⟨hij, h⟩ := h
      obtain rfl := Infix.token_injective hij
      obtain ⟨hi, hright, hnext, hrest⟩ := hxs
      obtain ⟨_, hright', hnext', hrest'⟩ := hys
      have hboth := hunique (i, right) (List.mem_cons_self ..) right' i.rightPrecedence _ _ hright
        hright' (behind_follow hi hnext hts) (behind_follow hi hnext' hts') h
      obtain ⟨rfl, hmore⟩ := hboth
      obtain ⟨rfl, rfl⟩ := ih (fun x hx => hunique x (List.mem_cons_of_mem _ hx)) hrest hrest' hmore
      exact ⟨rfl, rfl⟩

theorem literalToken_injective {a b : Option Bool} (h : literalToken a = literalToken b) : a = b := by
  rcases a with _ | _ | _ <;> rcases b with _ | _ | _ <;> simp_all [literalToken]

theorem Unary.token_injective {u v : Unary} (h : u.token = v.token) : u = v := by
  cases u <;> cases v <;> simp_all [Unary.token]

/-- The tokens that an operand can start with. -/
def isFirst : Token → Bool
  | .number _ | .text _ | .name _ => true
  | .keyword .litTrue | .keyword .litFalse | .keyword .litNone => true
  | .symbol .leftParen | .symbol (.operator .sub) | .symbol .not | .symbol .complement => true
  | _ => false

theorem leading_starts (e : Expr .leading) : ∃ t ts, e.tokens = t :: ts ∧ isFirst t = true := by
  cases e with
  | literal value => rcases value with _ | _ | _ <;> exact ⟨_, _, rfl, rfl⟩
  | unary u => cases u <;> exact ⟨_, _, rfl, rfl⟩
  | _ => exact ⟨_, _, rfl, rfl⟩

theorem operand_starts (e : Expr .operand) : ∃ t ts, e.tokens = t :: ts ∧ isFirst t = true := by
  obtain ⟨t, ts, hts, ht⟩ := e.first.leading_starts
  exact ⟨t, ts++e.more.flatMap pairTokens, by rw [e.tokens_eq, hts, List.cons_append], ht⟩

theorem not_behind_assignment {p : Precedence} {a : Assignment} {ts : List Token} :
    ¬ Behind p (a.token :: ts) := fun h => by
  have hnone := h.assignment a.token (by simp)
  simp [a.ofToken?_token] at hnone

theorem not_behind_paren {p : Precedence} {ts : List Token} :
    ¬ Behind p (.symbol .leftParen :: ts) := fun h => h.call rfl

theorem arguments_unique (a : Expr .arguments)
    (hsmall : ∀ e : Expr .operand, e.tokens.length ≤ a.tokens.length → e.Unique)
    (a' : Expr .arguments) (ts ts' : List Token) (ha : a.Binds .assign) (ha' : a'.Binds .assign)
    (h : a.tokens++.symbol .rightParen :: ts = a'.tokens++.symbol .rightParen :: ts') :
    a = a' ∧ ts = ts' := by
  have hnone (e : Expr .operand) (ts ts' : List Token) :
      .symbol .rightParen :: ts ≠ e.tokens++ts' := by
    obtain ⟨t, more, hmore, ht⟩ := e.operand_starts
    rw [hmore, List.cons_append]
    intro heq
    obtain ⟨rfl, _⟩ := List.cons.inj heq
    cases ht
  have hbehind (rest : Expr .arguments) (ts : List Token) :
      Behind .assign (rest.separator++(rest.tokens++.symbol .rightParen :: ts)) := by
    cases rest with
    | nil => exact behind_break rfl
    | cons => exact behind_break rfl
  cases a with
  | nil =>
    cases a' with
    | nil => simpa [tokens] using h
    | cons e rest => exact absurd (by simpa [tokens] using h) (hnone e ts _)
  | cons e rest =>
    cases a' with
    | nil => exact absurd (by simpa [tokens] using h.symm) (hnone e ts' _)
    | cons e' rest' =>
      simp only [tokens, List.append_assoc] at h hsmall
      have hlength (x : Expr .operand) (hx : x.tokens.length ≤ rest.tokens.length) : x.Unique :=
        hsmall x (by simp only [List.length_append]; omega)
      obtain ⟨rfl, hmore⟩ := hsmall e (by simp) e' .assign _ _ ⟨ha.fits.1, ha.grouped.1⟩
        ⟨ha'.fits.1, ha'.grouped.1⟩ (hbehind rest ts) (hbehind rest' ts') h
      have hsame : rest.tokens++.symbol .rightParen :: ts =
          rest'.tokens++.symbol .rightParen :: ts' := by
        cases rest <;> cases rest' <;> simp_all [separator, tokens]
      obtain ⟨rfl, rfl⟩ := arguments_unique rest hlength rest' ts ts' ⟨ha.fits.2, ha.grouped.2⟩
        ⟨ha'.fits.2, ha'.grouped.2⟩ hsame
      exact ⟨rfl, rfl⟩

/-- What a name is followed by tells what it is the beginning of. -/
theorem name_unique {x : String} {e : Expr .leading} {p : Precedence} {ts ts' : List Token}
    (hts : Behind p ts) (h : .name x :: ts = e.tokens++ts') : e = .name x ∧ ts = ts' := by
  cases e with
  | name y =>
    simp only [tokens, List.singleton_append, List.cons.injEq, Token.name.injEq] at h
    obtain ⟨rfl, rfl⟩ := h
    exact ⟨rfl, rfl⟩
  | count y up =>
    obtain ⟨_, rfl⟩ := List.cons.inj h
    exact absurd hts not_behind_assignment
  | assign y op value =>
    obtain ⟨_, rfl⟩ := List.cons.inj h
    exact absurd hts not_behind_assignment
  | call y arguments =>
    obtain ⟨_, rfl⟩ := List.cons.inj h
    exact absurd hts not_behind_paren
  | literal value => rcases value with _ | _ | _ <;> cases h
  | unary u => cases u <;> cases h
  | _ => cases h

theorem leading_unique (e : Expr .leading)
    (hsmall : ∀ x : Expr .operand, x.tokens.length < e.tokens.length → x.Unique)
    (e' : Expr .leading) (p : Precedence) (ts ts' : List Token) (he : e.Binds p) (he' : e'.Binds p)
    (hts : Behind .unary ts) (hts' : Behind .unary ts')
    (hassign : (head e).isAssignment = true → Behind .assign ts)
    (hassign' : (head e').isAssignment = true → Behind .assign ts')
    (h : e.tokens++ts = e'.tokens++ts') : e = e' ∧ ts = ts' := by
  cases e with
  | number digits =>
    cases e' with
    | number => simp_all [tokens]
    | literal value => rcases value with _ | _ | _ <;> cases h
    | unary u => cases u <;> cases h
    | _ => cases h
  | text content =>
    cases e' with
    | text => simp_all [tokens]
    | literal value => rcases value with _ | _ | _ <;> cases h
    | unary u => cases u <;> cases h
    | _ => cases h
  | literal value =>
    cases e' with
    | literal value' =>
      obtain ⟨hvalue, rfl⟩ := List.cons.inj h
      exact ⟨by rw [literalToken_injective hvalue], rfl⟩
    | unary u => rcases value with _ | _ | _ <;> cases u <;> cases h
    | _ => rcases value with _ | _ | _ <;> cases h
  | group inside =>
    cases e' with
    | group inside' =>
      simp only [tokens, List.cons_append, List.cons.injEq, List.append_assoc, true_and] at h
      obtain ⟨rfl, hmore⟩ := hsmall inside (by simp [tokens]) inside' .assign _ _
        ⟨he.fits, he.grouped⟩ ⟨he'.fits, he'.grouped⟩ (behind_break rfl) (behind_break rfl) h
      exact ⟨rfl, by simpa using hmore⟩
    | literal value => rcases value with _ | _ | _ <;> cases h
    | unary u => cases u <;> cases h
    | _ => cases h
  | unary u inside =>
    cases e' with
    | unary v inside' =>
      obtain ⟨huv, hrest⟩ := List.cons.inj h
      obtain rfl := Unary.token_injective huv
      obtain ⟨rfl, hmore⟩ := hsmall inside (by simp [tokens]) inside' .unary _ _
        ⟨he.fits, he.grouped⟩ ⟨he'.fits, he'.grouped⟩ hts hts' hrest
      exact ⟨rfl, hmore⟩
    | literal value => rcases value with _ | _ | _ <;> cases u <;> cases h
    | _ => cases u <;> cases h
  | name x =>
    obtain ⟨rfl, rfl⟩ := name_unique hts h
    exact ⟨rfl, rfl⟩
  | count x up =>
    cases e' with
    | name y =>
      obtain ⟨heq, _⟩ := name_unique hts' h.symm
      cases heq
    | count y up' =>
      simp only [tokens, List.cons_append, List.nil_append, List.cons.injEq, Token.name.injEq] at h
      obtain ⟨rfl, hup, rfl⟩ := h
      cases up <;> cases up' <;> simp_all [Assignment.token]
    | assign y op value => cases op <;> cases up <;> cases h
    | call y arguments => cases up <;> cases h
    | literal value => rcases value with _ | _ | _ <;> cases h
    | unary u => cases u <;> cases h
    | _ => cases h
  | assign x op value =>
    cases e' with
    | name y =>
      obtain ⟨heq, _⟩ := name_unique hts' h.symm
      cases heq
    | assign y op' value' =>
      simp only [tokens, List.cons_append, List.cons.injEq, Token.name.injEq] at h
      obtain ⟨rfl, hop, h⟩ := h
      obtain rfl : op = op' := by cases op <;> cases op' <;> simp_all [assignment, Assignment.token]
      obtain ⟨rfl, hmore⟩ := hsmall value (by simp [tokens]) value' .assign _ _
        ⟨he.fits.2, he.grouped⟩ ⟨he'.fits.2, he'.grouped⟩ (hassign rfl) (hassign' rfl) h
      exact ⟨rfl, hmore⟩
    | count y up => cases op <;> cases up <;> cases h
    | call y arguments => cases op <;> cases h
    | literal value => rcases value with _ | _ | _ <;> cases h
    | unary u => cases u <;> cases h
    | _ => cases h
  | call x arguments =>
    cases e' with
    | name y =>
      obtain ⟨heq, _⟩ := name_unique hts' h.symm
      cases heq
    | call y arguments' =>
      simp only [tokens, List.cons_append, List.cons.injEq, Token.name.injEq, List.append_assoc,
        List.nil_append, true_and] at h
      obtain ⟨rfl, h⟩ := h
      obtain ⟨rfl, rfl⟩ := arguments_unique arguments
        (fun x hx => hsmall x (by simp [tokens]; omega)) arguments' ts ts'
        ⟨he.fits, he.grouped⟩ ⟨he'.fits, he'.grouped⟩ h
      exact ⟨rfl, rfl⟩
    | count y up => cases up <;> cases h
    | assign y op value => cases op <;> cases h
    | literal value => rcases value with _ | _ | _ <;> cases h
    | unary u => cases u <;> cases h
    | _ => cases h

/-- An operand is told by its tokens. -/
theorem operand_unique (e : Expr .operand) : e.Unique := by
  induction hn : e.tokens.length using Nat.strong_induction_on generalizing e with
  | _ n ih =>
    subst hn
    intro e' p ts ts' he he' hts hts' h
    obtain ⟨hfirst, hmore⟩ := he.follow
    obtain ⟨hfirst', hmore'⟩ := he'.follow
    rw [e.tokens_eq, e'.tokens_eq, List.append_assoc, List.append_assoc] at h
    have hsize := congrArg List.length e.tokens_eq
    rw [List.length_append] at hsize
    have hsmall (x : Expr .operand) (hx : x.tokens.length < e.tokens.length) : x.Unique :=
      ih _ hx x rfl
    obtain ⟨hsame, hrest⟩ := e.first.leading_unique (fun x hx => hsmall x (by omega)) e'.first p _ _
      hfirst hfirst' (hts.head _) (hts'.head _)
      (fun hassign => he.behind_of_assignment hassign hts)
      (fun hassign => he'.behind_of_assignment hassign hts') h
    have hpairs : ∀ x ∈ e.more, x.2.Unique := by
      intro x hx
      have hle : (pairTokens x).length ≤ (e.more.flatMap pairTokens).length := by
        rw [List.length_flatMap]
        exact List.le_sum_of_mem (List.mem_map_of_mem hx)
      rw [pairTokens, List.length_cons] at hle
      exact hsmall x.2 (by omega)
    obtain ⟨hsame', hts⟩ := follow_unique hpairs hmore hmore' hts hts' hrest
    exact ⟨ext_first_more hsame hsame', hts⟩

end Expr

namespace Stmt

/-- What can stand behind a part of a script: the end of a line, or nothing, behind a statement, and
a keyword that closes a block behind lines. -/
def Behind : StmtKind → List Token → Prop
  | .statement, ts => ∀ t ∈ ts.head?, t = .newline
  | _, ts => ∃ k : Keyword, k.closes = true ∧ ts.head? = some (.keyword k)

theorem behind_operand {ts : List Token} (h : Behind .statement ts) (p : Precedence) :
    Expr.Behind p ts := by
  cases ts with
  | nil => exact Expr.behind_nil p
  | cons t rest =>
    obtain rfl : t = .newline := h t (by simp)
    exact Expr.behind_break rfl

/-- A statement starts with no end of a line and closes no block. -/
theorem statement_starts (t : Stmt .statement) : t.tokens = [] ∧ t = .blank ∨
    ∃ token more, t.tokens = token :: more ∧ token ≠ .newline ∧
      ∀ k, token = .keyword k → k.closes = false := by
  have hkeyword (k : Keyword) (hk : k.closes = false) (more : List Token) :
      ∃ token rest, .keyword k :: more = token :: rest ∧ token ≠ .newline ∧
        ∀ k, token = .keyword k → k.closes = false :=
    ⟨_, _, rfl, by simp, fun _ h => by cases h; exact hk⟩
  cases t with
  | blank => exact .inl ⟨rfl, rfl⟩
  | expression e =>
    obtain ⟨token, more, hmore, hfirst⟩ := e.operand_starts
    refine .inr ⟨token, more, hmore, ?_, ?_⟩
    · rintro rfl
      cases hfirst
    · rintro k rfl
      cases k <;> first | rfl | cases hfirst
  | declare x value => cases value <;> exact .inr (hkeyword .declare rfl _)
  | return_ value => cases value <;> exact .inr (hkeyword .return_ rfl _)
  | if_ => exact .inr (hkeyword .if_ rfl _)
  | ifElse => exact .inr (hkeyword .if_ rfl _)
  | while_ => exact .inr (hkeyword .while_ rfl _)
  | repeat_ => exact .inr (hkeyword .repeat_ rfl _)
  | runnable => exact .inr (hkeyword .runnable rfl _)

theorem paramTokens_unique (xs ys : List String) (ts ts' : List Token)
    (h : paramTokens xs++.symbol .rightParen :: ts = paramTokens ys++.symbol .rightParen :: ts') :
    xs = ys ∧ ts = ts' := by
  induction xs generalizing ys with
  | nil =>
    rcases ys with _ | ⟨y, _ | ⟨y', ys⟩⟩ <;> simp_all [paramTokens]
  | cons x xs ih =>
    cases xs with
    | nil => rcases ys with _ | ⟨y, _ | ⟨y', ys⟩⟩ <;> simp_all [paramTokens]
    | cons x' xs =>
      rcases ys with _ | ⟨y, _ | ⟨y', ys⟩⟩
      · simp [paramTokens] at h
      · simp [paramTokens] at h
      · simp only [paramTokens, List.cons_append, List.cons.injEq, Token.name.injEq, true_and] at h
        obtain ⟨rfl, h⟩ := h
        obtain ⟨hxs, hts⟩ := ih (y' :: ys) h
        exact ⟨by rw [hxs], hts⟩

/-- The keyword that a statement starts with. -/
def lead : Stmt .statement → Option Keyword
  | blank | expression _ => none
  | declare _ _ => some .declare
  | if_ _ _ | ifElse _ _ _ => some .if_
  | while_ _ _ => some .while_
  | repeat_ _ _ => some .repeat_
  | return_ _ => some .return_
  | runnable _ _ _ => some .runnable

theorem lead_of_tokens {t : Stmt .statement} {k : Keyword} {ts more : List Token}
    (hk : Expr.isFirst (.keyword k) = false) (hts : Behind .statement ts)
    (h : .keyword k :: more = t.tokens++ts) : t.lead = some k := by
  cases t with
  | blank =>
    have hnewline := hts (.keyword k) (by simp [← show _ = ts from h])
    cases hnewline
  | expression e =>
    obtain ⟨token, rest, hrest, hfirst⟩ := e.operand_starts
    rw [tokens, hrest] at h
    obtain ⟨rfl, _⟩ := List.cons.inj h
    rw [hk] at hfirst
    cases hfirst
  | declare x value => cases value <;> cases h <;> rfl
  | return_ value => cases value <;> cases h <;> rfl
  | _ =>
    cases h
    rfl

/-- An expression at the end of a statement. -/
theorem value_unique {e e' : Expr .operand} {ts ts' : List Token} (he : e.Binds .assign)
    (he' : e'.Binds .assign) (hts : Behind .statement ts) (hts' : Behind .statement ts')
    (h : e.tokens++ts = e'.tokens++ts') : e = e' ∧ ts = ts' :=
  e.operand_unique e' .assign ts ts' he he' (behind_operand hts _) (behind_operand hts' _) h

/-- No statement ends before an expression. -/
theorem not_behind_operand {e : Expr .operand} {ts : List Token} :
    ¬ Behind .statement (e.tokens++ts) := by
  intro hts
  obtain ⟨token, more, hmore, hfirst⟩ := e.operand_starts
  obtain rfl := hts token (by simp [hmore])
  cases hfirst

/-- An expression at the head of a block. -/
theorem header_unique {e e' : Expr .operand} {ts ts' : List Token} (he : e.Binds .assign)
    (he' : e'.Binds .assign) (h : e.tokens++(opening++ts) = e'.tokens++(opening++ts')) :
    e = e' ∧ ts = ts' := by
  obtain ⟨rfl, hmore⟩ := e.operand_unique e' .assign _ _ he he' (Expr.behind_break rfl)
    (Expr.behind_break rfl) h
  exact ⟨rfl, by simpa [opening] using hmore⟩

theorem behind_closer {k : Keyword} (hk : k.closes = true) (ts : List Token) :
    Behind .scope (.keyword k :: ts) := ⟨k, hk, rfl⟩

theorem behind_newline (ts : List Token) : Behind .statement (.newline :: ts) := by
  simp [Behind]

/-- Behind lines there is no line more. -/
theorem not_behind_line {t : Stmt .statement} {ts : List Token} :
    ¬ Behind .block (t.tokens++.newline :: ts) := by
  rintro ⟨k, hk, hhead⟩
  rcases t.statement_starts with ⟨hnone, _⟩ | ⟨token, more, hmore, _, hopens⟩
  · simp [hnone] at hhead
  · rw [hmore] at hhead
    simp only [List.cons_append, List.head?_cons, Option.some.injEq] at hhead
    simp [hopens k hhead] at hk

/-- A part of a script is told by its tokens. -/
theorem unique {k : StmtKind} (t : Stmt k) : ∀ (t' : Stmt k) (ts ts' : List Token), t.Binds →
    t'.Binds → Behind k ts → Behind k ts' → t.tokens++ts = t'.tokens++ts' → t = t' ∧ ts = ts' := by
  induction t with
  | blank =>
    intro t' ts ts' _ _ hts _ h
    rcases t'.statement_starts with ⟨_, rfl⟩ | ⟨token, more, hmore, hne, _⟩
    · exact ⟨rfl, h⟩
    · rw [hmore] at h
      exact absurd (hts token (by simp [show ts = _ from h])) hne
  | expression e =>
    intro t' ts ts' ht ht' hts hts' h
    cases t' with
    | blank =>
      rw [tokens, tokens, List.nil_append] at h
      exact absurd (h ▸ hts') not_behind_operand
    | expression e' =>
      obtain ⟨rfl, hmore⟩ := value_unique (ht e (by simp [expressions]))
        (ht' e' (by simp [expressions])) hts hts' h
      exact ⟨rfl, hmore⟩
    | declare x value =>
      have hlead : (expression e).lead = some .declare := by
        cases value <;> exact lead_of_tokens rfl hts h.symm
      cases hlead
    | return_ value =>
      have hlead : (expression e).lead = some .return_ := by
        cases value <;> exact lead_of_tokens rfl hts h.symm
      cases hlead
    | _ =>
      have hlead := lead_of_tokens (t := .expression e) rfl hts h.symm
      cases hlead
  | declare x value =>
    intro t' ts ts' ht ht' hts hts' h
    have hlead : t'.lead = some .declare := by
      cases value <;> exact lead_of_tokens rfl hts' h
    cases t' with
    | declare y value' =>
      cases value with
      | none =>
        cases value' with
        | none =>
          simp only [tokens, List.cons_append, List.nil_append, List.cons.injEq,
            Token.name.injEq, true_and] at h
          exact ⟨by rw [h.1], h.2⟩
        | some e' =>
          simp only [tokens, List.cons_append, List.nil_append, List.cons.injEq, true_and] at h
          have hnewline := hts (.symbol .assign) (by simp [h.2])
          cases hnewline
      | some e =>
        cases value' with
        | none =>
          simp only [tokens, List.cons_append, List.nil_append, List.cons.injEq, true_and] at h
          have hnewline := hts' (.symbol .assign) (by simp [← h.2])
          cases hnewline
        | some e' =>
          simp only [tokens, List.cons_append, List.cons.injEq, Token.name.injEq, true_and] at h
          obtain ⟨rfl, hmore⟩ := value_unique (ht e (by simp [expressions]))
            (ht' e' (by simp [expressions])) hts hts' h.2
          exact ⟨by rw [h.1], hmore⟩
    | _ => cases hlead
  | return_ value =>
    intro t' ts ts' ht ht' hts hts' h
    have hlead : t'.lead = some .return_ := by
      cases value <;> exact lead_of_tokens rfl hts' h
    cases t' with
    | return_ value' =>
      cases value with
      | none =>
        cases value' with
        | none => exact ⟨rfl, List.append_cancel_left h⟩
        | some e' =>
          obtain ⟨_, hmore⟩ := List.cons.inj h
          exact absurd (show ts = _ from hmore) fun heq => not_behind_operand (heq ▸ hts)
      | some e =>
        cases value' with
        | none =>
          obtain ⟨_, hmore⟩ := List.cons.inj h
          exact absurd (show _ = ts' from hmore) fun heq => not_behind_operand (heq ▸ hts')
        | some e' =>
          obtain ⟨_, hmore⟩ := List.cons.inj h
          obtain ⟨rfl, hrest⟩ := value_unique (ht e (by simp [expressions]))
            (ht' e' (by simp [expressions])) hts hts' hmore
          exact ⟨rfl, hrest⟩
    | _ => cases hlead
  | if_ test yes ih =>
    intro t' ts ts' ht ht' hts hts' h
    have hlead : t'.lead = some .if_ := lead_of_tokens rfl hts' h
    obtain ⟨htest, hyes⟩ := List.forall_mem_cons.mp ht
    cases t' with
    | if_ test' yes' =>
      obtain ⟨htest', hyes'⟩ := List.forall_mem_cons.mp ht'
      simp only [tokens, List.cons_append, List.cons.injEq, List.append_assoc, true_and,
        List.nil_append] at h
      obtain ⟨rfl, hinside⟩ := header_unique htest htest' h
      obtain ⟨rfl, hend⟩ := ih yes' _ _ hyes hyes' (behind_closer rfl _) (behind_closer rfl _) hinside
      exact ⟨rfl, by simpa using hend⟩
    | ifElse test' yes' no' =>
      obtain ⟨htest', hboth⟩ := List.forall_mem_cons.mp ht'
      obtain ⟨hyes', _⟩ := List.forall_mem_append.mp hboth
      simp only [tokens, List.cons_append, List.cons.injEq, List.append_assoc, true_and,
        List.nil_append] at h
      obtain ⟨rfl, hinside⟩ := header_unique htest htest' h
      obtain ⟨_, hend⟩ := ih yes' _ _ hyes hyes' (behind_closer rfl _) (behind_closer rfl _) hinside
      cases hend
    | _ => cases hlead
  | ifElse test yes no ihyes ihno =>
    intro t' ts ts' ht ht' hts hts' h
    have hlead : t'.lead = some .if_ := lead_of_tokens rfl hts' h
    obtain ⟨htest, hboth⟩ := List.forall_mem_cons.mp ht
    obtain ⟨hyes, hno⟩ := List.forall_mem_append.mp hboth
    cases t' with
    | if_ test' yes' =>
      obtain ⟨htest', hyes'⟩ := List.forall_mem_cons.mp ht'
      simp only [tokens, List.cons_append, List.cons.injEq, List.append_assoc, true_and,
        List.nil_append] at h
      obtain ⟨rfl, hinside⟩ := header_unique htest htest' h
      obtain ⟨_, hend⟩ :=
        ihyes yes' _ _ hyes hyes' (behind_closer rfl _) (behind_closer rfl _) hinside
      cases hend
    | ifElse test' yes' no' =>
      obtain ⟨htest', hboth'⟩ := List.forall_mem_cons.mp ht'
      obtain ⟨hyes', hno'⟩ := List.forall_mem_append.mp hboth'
      simp only [tokens, List.cons_append, List.cons.injEq, List.append_assoc, true_and,
        List.nil_append] at h
      obtain ⟨rfl, hinside⟩ := header_unique htest htest' h
      obtain ⟨rfl, helse⟩ :=
        ihyes yes' _ _ hyes hyes' (behind_closer rfl _) (behind_closer rfl _) hinside
      simp only [List.cons.injEq, true_and, List.append_cancel_left_eq] at helse
      obtain ⟨rfl, hend⟩ := ihno no' _ _ hno hno' (behind_closer rfl _) (behind_closer rfl _) helse
      exact ⟨rfl, by simpa using hend⟩
    | _ => cases hlead
  | while_ test body ih =>
    intro t' ts ts' ht ht' hts hts' h
    have hlead : t'.lead = some .while_ := lead_of_tokens rfl hts' h
    obtain ⟨htest, hbody⟩ := List.forall_mem_cons.mp ht
    cases t' with
    | while_ test' body' =>
      obtain ⟨htest', hbody'⟩ := List.forall_mem_cons.mp ht'
      simp only [tokens, List.cons_append, List.cons.injEq, List.append_assoc, true_and,
        List.nil_append] at h
      obtain ⟨rfl, hinside⟩ := header_unique htest htest' h
      obtain ⟨rfl, hend⟩ :=
        ih body' _ _ hbody hbody' (behind_closer rfl _) (behind_closer rfl _) hinside
      exact ⟨rfl, by simpa using hend⟩
    | _ => cases hlead
  | repeat_ count body ih =>
    intro t' ts ts' ht ht' hts hts' h
    have hlead : t'.lead = some .repeat_ := lead_of_tokens rfl hts' h
    obtain ⟨hcount, hbody⟩ := List.forall_mem_cons.mp ht
    cases t' with
    | repeat_ count' body' =>
      obtain ⟨hcount', hbody'⟩ := List.forall_mem_cons.mp ht'
      simp only [tokens, List.cons_append, List.cons.injEq, List.append_assoc, true_and,
        List.nil_append] at h
      obtain ⟨rfl, hinside⟩ := header_unique hcount hcount' h
      obtain ⟨rfl, hend⟩ :=
        ih body' _ _ hbody hbody' (behind_closer rfl _) (behind_closer rfl _) hinside
      exact ⟨rfl, by simpa using hend⟩
    | _ => cases hlead
  | runnable name params body ih =>
    intro t' ts ts' ht ht' hts hts' h
    have hlead : t'.lead = some .runnable := lead_of_tokens rfl hts' h
    cases t' with
    | runnable name' params' body' =>
      simp only [tokens, List.cons_append, List.cons.injEq, List.append_assoc, true_and,
        List.nil_append, Token.name.injEq] at h
      obtain ⟨rfl, hparams⟩ := h
      obtain ⟨rfl, hinside⟩ := paramTokens_unique params params' _ _ hparams
      rw [List.append_cancel_left_eq] at hinside
      obtain ⟨rfl, hend⟩ := ih body' _ _ ht ht' (behind_closer rfl _) (behind_closer rfl _) hinside
      exact ⟨rfl, by simpa using hend⟩
    | _ => cases hlead
  | nil =>
    intro t' ts ts' _ _ hts _ h
    cases t' with
    | nil => exact ⟨rfl, h⟩
    | line first rest =>
      rw [tokens, tokens, List.nil_append, List.append_assoc, List.cons_append] at h
      exact absurd (h ▸ hts) not_behind_line
  | line first rest ihfirst ihrest =>
    intro t' ts ts' ht ht' hts hts' h
    obtain ⟨hfirst, hrest⟩ := List.forall_mem_append.mp ht
    cases t' with
    | nil =>
      rw [tokens, tokens, List.nil_append, List.append_assoc, List.cons_append] at h
      exact absurd (h ▸ hts') not_behind_line
    | line first' rest' =>
      obtain ⟨hfirst', hrest'⟩ := List.forall_mem_append.mp ht'
      simp only [tokens, List.append_assoc, List.cons_append] at h
      obtain ⟨rfl, hmore⟩ := ihfirst first' _ _ hfirst hfirst' (behind_newline _) (behind_newline _) h
      simp only [List.cons.injEq, true_and] at hmore
      obtain ⟨rfl, hend⟩ := ihrest rest' ts ts' hrest hrest' hts hts' hmore
      exact ⟨rfl, hend⟩
  | scope lines ih =>
    intro t' ts ts' ht ht' hts hts' h
    cases t' with
    | scope lines' =>
      obtain ⟨rfl, hend⟩ := ih lines' ts ts' ht ht' hts hts' h
      exact ⟨rfl, hend⟩

end Stmt

namespace Script

/-- Tokens of a last line without its end. -/
def lastTokens : Option (Stmt .statement) → List Token
  | some s => s.tokens
  | none => []

theorem lines_unique (lines lines' : Stmt .block) (last last' : Option (Stmt .statement))
    (hlines : lines.Binds) (hlines' : lines'.Binds) (hlast : ∀ s ∈ last, s.Binds ∧ s ≠ .blank)
    (hlast' : ∀ s ∈ last', s.Binds ∧ s ≠ .blank)
    (h : lines.tokens++lastTokens last = lines'.tokens++lastTokens last') :
    lines = lines' ∧ last = last' := by
  -- a last line is no line of its own
  have hnone (last : Option (Stmt .statement)) (hlast : ∀ s ∈ last, s.Binds ∧ s ≠ .blank)
      (first : Stmt .statement) (hfirst : first.Binds) (more : List Token) :
      lastTokens last ≠ first.tokens++.newline :: more := by
    intro heq
    cases last with
    | none => simp [lastTokens] at heq
    | some s =>
      obtain ⟨_, hend⟩ := s.unique first [] _ (hlast s rfl).1 hfirst (by simp [Stmt.Behind])
        (Stmt.behind_newline more) (by simpa [lastTokens] using heq)
      cases hend
  cases lines with
  | nil =>
    cases lines' with
    | nil =>
      refine ⟨rfl, ?_⟩
      simp only [Stmt.tokens, List.nil_append] at h
      cases last with
      | none =>
        cases last' with
        | none => rfl
        | some s =>
          rcases s.statement_starts with ⟨_, hblank⟩ | ⟨_, _, hmore, _⟩
          · exact absurd hblank (hlast' s rfl).2
          · simp [lastTokens, hmore] at h
      | some s =>
        cases last' with
        | none =>
          rcases s.statement_starts with ⟨_, hblank⟩ | ⟨_, _, hmore, _⟩
          · exact absurd hblank (hlast s rfl).2
          · simp [lastTokens, hmore] at h
        | some s' =>
          obtain ⟨rfl, _⟩ := s.unique s' [] [] (hlast s rfl).1 (hlast' s' rfl).1
            (by simp [Stmt.Behind]) (by simp [Stmt.Behind]) (by simpa [lastTokens] using h)
          rfl
    | line first rest =>
      obtain ⟨hfirst, _⟩ := List.forall_mem_append.mp hlines'
      rw [Stmt.tokens, Stmt.tokens, List.nil_append, List.append_assoc, List.cons_append] at h
      exact absurd h (hnone last hlast first hfirst _)
  | line first rest =>
    obtain ⟨hfirst, hrest⟩ := List.forall_mem_append.mp hlines
    cases lines' with
    | nil =>
      rw [Stmt.tokens, Stmt.tokens, List.nil_append, List.append_assoc, List.cons_append] at h
      exact absurd h.symm (hnone last' hlast' first hfirst _)
    | line first' rest' =>
      obtain ⟨hfirst', hrest'⟩ := List.forall_mem_append.mp hlines'
      simp only [Stmt.tokens, List.append_assoc, List.cons_append] at h
      obtain ⟨rfl, hmore⟩ := first.unique first' _ _ hfirst hfirst' (Stmt.behind_newline _)
        (Stmt.behind_newline _) h
      simp only [List.cons.injEq, true_and] at hmore
      obtain ⟨rfl, rfl⟩ := lines_unique rest rest' last last' hrest hrest' hlast hlast' hmore
      exact ⟨rfl, rfl⟩

/-- Tokens spell at most one script. -/
theorem unique {t t' : Script} (ht : t.Binds) (ht' : t'.Binds) (h : t.tokens = t'.tokens) :
    t = t' := by
  obtain ⟨lines, last⟩ := t
  obtain ⟨lines', last'⟩ := t'
  obtain ⟨rfl, rfl⟩ := lines_unique lines lines' last last' ht.lines ht'.lines ht.last ht'.last h
  rfl

end Script
end RatScript
