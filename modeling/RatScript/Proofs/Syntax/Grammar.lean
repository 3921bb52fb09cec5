import RatScript.Proofs.Syntax.Code
import RatScript.Proofs.Syntax.Unique

/-!
The grammar of expressions as it is documented: which tokens spell a tree, with brackets where
binding strength asks for them and wherever else. The operands that are grouped as binding strength
says, with their brackets, are the spellings of what they are without brackets.
-/

namespace RatScript

@[reducible] def ExprKind.bare : ExprKind → ExprKind
  | leading => operand
  | operand => operand
  | arguments => arguments

namespace Infix

/-- How strongly the left operand has to bind. -/
def leftPrecedence : Infix → Precedence
  | operator op => (operator op).precedence
  | comparison _ => .compare
  | and => .compare
  | or => .and

/-- An operator groups to the left or, as the weaker ones do, to the right. -/
theorem groups (i : Infix) :
    (i.leftPrecedence.rank = i.precedence.rank ∧ i.rightPrecedence.rank = i.precedence.rank+1 ∧
      3 < i.precedence.rank) ∨
    (i.leftPrecedence.rank = i.precedence.rank+1 ∧ i.rightPrecedence.rank = i.precedence.rank ∧
      1 < i.precedence.rank ∧ i.precedence.rank ≤ 3) := by
  cases i with
  | operator op => cases op <;> decide
  | comparison | and | or => simp [leftPrecedence, precedence, rightPrecedence, Precedence.rank]

/-- An operator is left to the one on the right of it if it binds strongly enough to be its left
operand. -/
theorem lt_right_iff (i j : Infix) : i.precedence.rank < j.rightPrecedence.rank ↔
    i.leftPrecedence.rank ≤ j.precedence.rank := by
  have hi := i.groups
  have hj := j.groups
  omega

end Infix

theorem Precedence.eq_assign {p : Precedence} (h : p.rank ≤ Precedence.assign.rank) : p = .assign := by
  cases p <;> first | rfl | exact absurd h (by decide)

theorem Precedence.le_unary (p : Precedence) : p.rank ≤ Precedence.unary.rank := by
  cases p <;> decide

theorem Precedence.assign_rank_le (p : Precedence) : Precedence.assign.rank ≤ p.rank := by
  cases p <;> decide

namespace Expr

/-- The tree without its brackets. -/
def ungrouped : {k : ExprKind} → Expr k → Expr k.bare
  | _, number digits => head (number digits)
  | _, text content => head (text content)
  | _, literal value => head (literal value)
  | _, group inside => inside.ungrouped
  | _, unary u inside => head (unary u inside.ungrouped)
  | _, name x => head (name x)
  | _, count x up => head (count x up)
  | _, assign x op value => head (assign x op value.ungrouped)
  | _, call x arguments => head (call x arguments.ungrouped)
  | _, head first => first.ungrouped
  | _, join left i right => join left.ungrouped i right.ungrouped
  | _, nil => nil
  | _, cons first rest => cons first.ungrouped rest.ungrouped

/-- Levels of nesting in an expression: brackets, right operands, arguments and values that are
assigned are one deeper. -/
def depth : {k : ExprKind} → Expr k → Nat
  | _, group inside => inside.depth+1
  | _, unary _ inside => inside.depth+1
  | _, assign _ _ value => value.depth+1
  | _, call _ arguments => arguments.depth+1
  | _, head first => first.depth
  | _, join left _ right => max left.depth (right.depth+1)
  | _, nil => 0
  | _, cons first rest => max first.depth rest.depth
  | _, _ => 1

/-- Calls with the counts of their arguments. -/
def signatures : {k : ExprKind} → Expr k → List (String × Nat)
  | _, group inside => inside.signatures
  | _, unary _ inside => inside.signatures
  | _, assign _ _ value => value.signatures
  | _, call x arguments => (x, arguments.length) :: arguments.signatures
  | _, head first => first.signatures
  | _, join left _ right => left.signatures++right.signatures
  | _, cons first rest => first.signatures++rest.signatures
  | _, _ => []

/-- Literals of numbers. -/
def numbers : {k : ExprKind} → Expr k → List String
  | _, number digits => [digits]
  | _, group inside => inside.numbers
  | _, unary _ inside => inside.numbers
  | _, assign _ _ value => value.numbers
  | _, call _ arguments => arguments.numbers
  | _, head first => first.numbers
  | _, join left _ right => left.numbers++right.numbers
  | _, cons first rest => first.numbers++rest.numbers
  | _, _ => []

/-- The tokens spell the tree as an operand of some binding strength, with so many levels of nesting.
An assignment takes all that follows, so it stands where nothing binds more strongly; counting up or
down takes only the name, but has to stand where an assignment could start. -/
inductive Spelled : Precedence → (start : Bool) → (levels : Nat) → {k : ExprKind} → Expr k →
    List Token → Prop
  | number {p : Precedence} {start : Bool} {n : Nat} {digits : String} :
    Spelled p start (n+1) (head (number digits)) [.number digits]
  | text {p : Precedence} {start : Bool} {n : Nat} {content : String} :
    Spelled p start (n+1) (head (text content)) [.text content]
  | literal {p : Precedence} {start : Bool} {n : Nat} {value : Option Bool} :
    Spelled p start (n+1) (head (literal value)) [literalToken value]
  | name {p : Precedence} {start : Bool} {n : Nat} {x : String} :
    Spelled p start (n+1) (head (name x)) [.name x]
  | count {p : Precedence} {n : Nat} {x : String} {up : Bool} :
    Spelled p true (n+1) (head (count x up)) [.name x, (Assignment.count up).token]
  | assign {n : Nat} {x : String} {op : Option Operator} {value : Expr .operand} {ts : List Token}
    (hvalue : Spelled .assign true n value ts) :
    Spelled .assign true (n+1) (head (assign x op value)) (.name x :: (assignment op).token :: ts)
  | call {p : Precedence} {start : Bool} {n : Nat} {x : String} {args : Expr .arguments}
    {ts : List Token} (hargs : Spelled .assign true n args ts) :
    Spelled p start (n+1) (head (call x args))
      (.name x :: .symbol .leftParen :: ts++[.symbol .rightParen])
  | unary {p : Precedence} {start : Bool} {n : Nat} {u : Unary} {e : Expr .operand} {ts : List Token}
    (he : Spelled .unary false n e ts) : Spelled p start (n+1) (head (unary u e)) (u.token :: ts)
  | join {p : Precedence} {start : Bool} {n : Nat} {l r : Expr .operand} {i : Infix}
    {ts us : List Token} (hi : p.rank ≤ i.precedence.rank)
    (hl : Spelled i.leftPrecedence start (n+1) l ts) (hr : Spelled i.rightPrecedence false n r us) :
    Spelled p start (n+1) (join l i r) (ts++i.token :: us)
  | brackets {p : Precedence} {start : Bool} {n : Nat} {e : Expr .operand} {ts : List Token}
    (he : Spelled .assign true n e ts) :
    Spelled p start (n+1) e (.symbol .leftParen :: ts++[.symbol .rightParen])
  | nil {p : Precedence} {start : Bool} {n : Nat} : Spelled p start n nil []
  | cons {p : Precedence} {start : Bool} {n : Nat} {e : Expr .operand} {rest : Expr .arguments}
    {ts us : List Token} (he : Spelled .assign true n e ts) (hrest : Spelled p start n rest us) :
    Spelled p start n (cons e rest) (ts++rest.separator++us)

/-! Spellings and trees with brackets. -/

/-- How strongly an operand binds by its outermost operator. -/
def strength : {k : ExprKind} → Expr k → Nat
  | _, assign _ _ _ => Precedence.assign.rank
  | _, head first => first.strength
  | _, join _ i _ => i.precedence.rank
  | _, _ => Precedence.unary.rank

theorem strength_of_isAssignment {e : Expr .operand} (h : e.isAssignment = true) :
    e.strength = Precedence.assign.rank := by
  cases e with
  | head first => cases first <;> first | rfl | cases h
  | join => cases h

theorem one_le_strength {k : ExprKind} (e : Expr k) : Precedence.assign.rank ≤ e.strength := by
  induction e with
  | head _ ih => exact ih
  | join _ i => exact i.precedence.assign_rank_le
  | assign => exact Nat.le_refl _
  | _ => exact Precedence.unary.assign_rank_le

theorem rank_le_strength {k : ExprKind} {e : Expr k} {p : Precedence} (h : e.Fits p) :
    p.rank ≤ e.strength := by
  induction e with
  | head _ ih => exact ih h
  | join => exact h.2.2.1
  | assign =>
    rw [h.1]
    rfl
  | _ => exact p.le_unary

/-- A left operand that leaves an operator to the right of it, and is no assignment, binds as
strongly as that operator asks. -/
theorem left_le_strength {e : Expr .operand} {i : Infix} (hassign : e.isAssignment = false)
    (hleaves : e.Leaves i) : i.leftPrecedence.rank ≤ e.strength := by
  cases e with
  | head first =>
    cases first with
    | assign => simp [isAssignment] at hassign
    | _ => exact i.leftPrecedence.le_unary
  | join _ j => exact (i.lt_right_iff j).mp hleaves

theorem leaves_of_strength {e : Expr .operand} {i : Infix}
    (h : i.leftPrecedence.rank ≤ e.strength) : e.Leaves i := by
  cases e with
  | head => trivial
  | join _ j => exact (i.lt_right_iff j).mpr h

theorem separator_ungrouped (a : Expr .arguments) :
    separator (ungrouped a : Expr .arguments) = a.separator := by
  cases a <;> rfl

theorem length_ungrouped (a : Expr .arguments) :
    length (ungrouped a : Expr .arguments) = a.length := by
  cases a with
  | nil => rfl
  | cons first rest =>
    simp only [ungrouped, length, length_ungrouped rest]

theorem signatures_ungrouped {k : ExprKind} (e : Expr k) : e.ungrouped.signatures = e.signatures := by
  induction e with
  | call x a ih => simp only [ungrouped, signatures, ih, length_ungrouped]
  | group _ ih | unary _ _ ih | assign _ _ _ ih | head _ ih =>
    simpa only [ungrouped, signatures] using ih
  | join _ _ _ ihl ihr | cons _ _ ihl ihr => simp only [ungrouped, signatures, ihl, ihr]
  | _ => rfl

theorem numbers_ungrouped {k : ExprKind} (e : Expr k) : e.ungrouped.numbers = e.numbers := by
  induction e with
  | call _ _ ih | group _ ih | unary _ _ ih | assign _ _ _ ih | head _ ih =>
    simpa only [ungrouped, numbers] using ih
  | join _ _ _ ihl ihr | cons _ _ ihl ihr => simp only [ungrouped, numbers, ihl, ihr]
  | _ => rfl

/-- Brackets leave no trace in the code. -/
theorem Codes.ungrouped {p : Program} {v : View} {k : ExprKind} {e : Expr k} {c : Phrase}
    (h : e.Codes p v c) : e.ungrouped.Codes p v c := by
  induction h with
  | number hv hc => exact .head (.number hv hc)
  | text hc => exact .head (.text hc)
  | literal value => exact .head (.literal value)
  | group _ ih | head _ ih => exact ih
  | unary _ ih => exact .head (.unary ih)
  | name hx => exact .head (.name hx)
  | count hx => exact .head (.count hx)
  | assign hx _ ih => exact .head (.assign hx ih)
  | call hx hcallee hcount _ ih =>
    exact .head (.call hx hcallee ((length_ungrouped _).trans hcount) ih)
  | callNative hx hnative hcount _ ih =>
    exact .head (.callNative hx hnative ((length_ungrouped _).trans hcount) ih)
  | operator _ _ ihl ihr => exact .operator ihl ihr
  | comparison _ _ ihl ihr => exact .comparison ihl ihr
  | and _ _ hfit ihl ihr => exact .and ihl ihr hfit
  | or _ _ hfit ihl ihr => exact .or ihl ihr hfit
  | nil => exact .nil
  | cons _ _ ihe ihrest => exact .cons ihe ihrest

/-- What is grouped as binding strength says spells what it is without brackets. -/
theorem spelled {k : ExprKind} (e : Expr k) {p q : Precedence} {start : Bool} {n : Nat}
    (hfits : e.Fits q) (hgrouped : e.Grouped) (hp : p.rank ≤ e.strength)
    (hstart : q = .assign → start = true) (hn : e.depth ≤ n) :
    Spelled p start n e.ungrouped e.tokens := by
  induction e generalizing p q start n with
  | nil => exact .nil
  | cons first rest ihf ihr =>
    obtain ⟨hfirst, hrest⟩ := max_le_iff.mp hn
    have hp : p.rank ≤ rest.strength := by cases rest <;> exact p.le_unary
    have h := Spelled.cons (ihf hfits.1 hgrouped.1 first.one_le_strength (fun _ => rfl) hfirst)
      (ihr hfits.2 hgrouped.2 hp hstart hrest)
    rwa [separator_ungrouped] at h
  | head _ ih => exact ih hfits hgrouped hp hstart hn
  | number | text | literal | name =>
    obtain ⟨n, rfl⟩ := Nat.exists_eq_add_of_le' hn
    constructor
  | group inside ih =>
    obtain ⟨n, rfl⟩ := Nat.exists_eq_add_of_le' (Nat.le_of_add_left_le hn)
    exact .brackets (ih hfits hgrouped inside.one_le_strength (fun _ => rfl)
      (Nat.le_of_succ_le_succ hn))
  | unary u inside ih =>
    obtain ⟨n, rfl⟩ := Nat.exists_eq_add_of_le' (Nat.le_of_add_left_le hn)
    exact .unary (ih hfits hgrouped (rank_le_strength hfits) (fun h => by cases h)
      (Nat.le_of_succ_le_succ hn))
  | count x up =>
    obtain ⟨n, rfl⟩ := Nat.exists_eq_add_of_le' hn
    obtain rfl := hstart hfits
    exact .count
  | assign x op value ih =>
    obtain ⟨n, rfl⟩ := Nat.exists_eq_add_of_le' (Nat.le_of_add_left_le hn)
    obtain rfl := hstart hfits.1
    obtain rfl := Precedence.eq_assign hp
    exact .assign (ih hfits.2 hgrouped value.one_le_strength (fun _ => rfl)
      (Nat.le_of_succ_le_succ hn))
  | call x args ih =>
    obtain ⟨n, rfl⟩ := Nat.exists_eq_add_of_le' (Nat.le_of_add_left_le hn)
    exact .call (ih hfits hgrouped args.one_le_strength (fun _ => rfl) (Nat.le_of_succ_le_succ hn))
  | join left i right ihl ihr =>
    obtain ⟨hleft, hright⟩ := max_le_iff.mp hn
    obtain ⟨n, rfl⟩ := Nat.exists_eq_add_of_le' (Nat.le_of_add_left_le hright)
    obtain ⟨hfl, hassign, hi, hfr⟩ := hfits
    obtain ⟨hleaves, hgl, hgr⟩ := hgrouped
    have hnot : i.rightPrecedence = .assign → false = true := fun h => by
      have hgroups := i.groups
      simp only [h, Precedence.rank] at hgroups
      omega
    exact .join hp (ihl hfl hgl (left_le_strength hassign hleaves) hstart hleft)
      (ihr hfr hgr (rank_le_strength hfr) hnot (Nat.le_of_succ_le_succ hright))

/-- A tree that something with brackets spells. -/
def Written : {k : ExprKind} → Precedence → (start : Bool) → (levels : Nat) → Expr k →
    List Token → Prop
  | .operand, p, start, n, e, ts => ∃ w : Expr .operand, w.ungrouped = e ∧ w.tokens = ts ∧
      w.depth ≤ n ∧ w.Grouped ∧ p.rank ≤ w.strength ∧
      ∀ q, q.rank ≤ p.rank → (start = true → q = .assign) → w.Fits q
  | .arguments, _, _, n, e, ts => ∃ w : Expr .arguments, w.ungrouped = e ∧ w.tokens = ts ∧
      w.depth ≤ n ∧ w.Grouped ∧ w.Fits .assign
  | .leading, _, _, _, _, _ => True

theorem Spelled.written {k : ExprKind} {e : Expr k} {p : Precedence} {start : Bool} {n : Nat}
    {ts : List Token} (h : Spelled p start n e ts) : Written p start n e ts := by
  induction h with
  | @number p start n digits =>
    exact ⟨head (.number digits), rfl, rfl, Nat.le_add_left _ _, trivial, p.le_unary,
      fun _ _ _ => trivial⟩
  | @text p start n content =>
    exact ⟨head (.text content), rfl, rfl, Nat.le_add_left _ _, trivial, p.le_unary,
      fun _ _ _ => trivial⟩
  | @literal p start n value =>
    exact ⟨head (.literal value), rfl, rfl, Nat.le_add_left _ _, trivial, p.le_unary,
      fun _ _ _ => trivial⟩
  | @name p start n x =>
    exact ⟨head (.name x), rfl, rfl, Nat.le_add_left _ _, trivial, p.le_unary,
      fun _ _ _ => trivial⟩
  | @count p n x up =>
    exact ⟨head (.count x up), rfl, rfl, Nat.le_add_left _ _, trivial, p.le_unary,
      fun _ _ hq => hq rfl⟩
  | @assign n x op value ts _ ih =>
    obtain ⟨w, rfl, rfl, hdepth, hgrouped, _, hfits⟩ := ih
    exact ⟨head (.assign x op w), rfl, rfl, Nat.succ_le_succ hdepth, hgrouped, Nat.le_refl _,
      fun q _ hq => ⟨hq rfl, hfits .assign (Nat.le_refl _) fun _ => rfl⟩⟩
  | @call p start n x args ts _ ih =>
    obtain ⟨w, rfl, rfl, hdepth, hgrouped, hfits⟩ := ih
    exact ⟨head (.call x w), rfl, rfl, Nat.succ_le_succ hdepth, hgrouped, p.le_unary,
      fun _ _ _ => hfits⟩
  | @unary p start n u e ts _ ih =>
    obtain ⟨w, rfl, rfl, hdepth, hgrouped, _, hfits⟩ := ih
    exact ⟨head (.unary u w), rfl, rfl, Nat.succ_le_succ hdepth, hgrouped, p.le_unary,
      fun _ _ _ => hfits .unary (Nat.le_refl _) fun h => by cases h⟩
  | @join p start n l r i ts us hi _ _ ihl ihr =>
    obtain ⟨w, rfl, rfl, hdepth, hgrouped, hstrength, hfits⟩ := ihl
    obtain ⟨w', rfl, rfl, hdepth', hgrouped', _, hfits'⟩ := ihr
    have hgroups := i.groups
    refine ⟨.join w i w', rfl, rfl, max_le hdepth (Nat.succ_le_succ hdepth'),
      ⟨leaves_of_strength hstrength, hgrouped, hgrouped'⟩, hi, fun q hq hstart =>
      ⟨hfits q (by omega) hstart, ?_, hq.trans hi, hfits' _ (Nat.le_refl _) fun h => by cases h⟩⟩
    cases hassign : w.isAssignment with
    | false => rfl
    | true =>
      have hone : Precedence.assign.rank = 1 := rfl
      rw [strength_of_isAssignment hassign, hone] at hstrength
      omega
  | @brackets p start n e ts _ ih =>
    obtain ⟨w, rfl, rfl, hdepth, hgrouped, _, hfits⟩ := ih
    exact ⟨head (.group w), rfl, rfl, Nat.succ_le_succ hdepth, hgrouped, p.le_unary,
      fun _ _ _ => hfits .assign (Nat.le_refl _) fun _ => rfl⟩
  | nil => exact ⟨.nil, rfl, rfl, Nat.zero_le _, trivial, trivial⟩
  | @cons p start n e rest ts us _ _ ihe ihrest =>
    obtain ⟨w, rfl, rfl, hdepth, hgrouped, _, hfits⟩ := ihe
    obtain ⟨w', rfl, rfl, hdepth', hgrouped', hfits'⟩ := ihrest
    exact ⟨.cons w w', rfl, by rw [separator_ungrouped]; rfl, max_le hdepth hdepth',
      ⟨hgrouped, hgrouped'⟩, hfits .assign (Nat.le_refl _) fun _ => rfl, hfits'⟩

/-- The spellings of a tree are the trees with brackets that are grouped as binding strength says. -/
theorem spelled_iff {e : Expr .operand} {n : Nat} {ts : List Token} :
    Spelled .assign true n e ts ↔
      ∃ w : Expr .operand, w.Binds .assign ∧ w.ungrouped = e ∧ w.tokens = ts ∧ w.depth ≤ n := by
  constructor
  · intro h
    obtain ⟨w, he, hts, hdepth, hgrouped, _, hfits⟩ := h.written
    exact ⟨w, ⟨hfits .assign (Nat.le_refl _) fun _ => rfl, hgrouped⟩, he, hts, hdepth⟩
  · rintro ⟨w, hw, rfl, rfl, hdepth⟩
    exact w.spelled hw.fits hw.grouped w.one_le_strength (fun _ => rfl) hdepth

/-- What is spelled is told by the tokens. -/
theorem Spelled.unique {e e' : Expr .operand} {n n' : Nat} {ts ts' rest rest' : List Token}
    (h : Spelled .assign true n e ts) (h' : Spelled .assign true n' e' ts')
    (hrest : Behind .assign rest) (hrest' : Behind .assign rest') (heq : ts++rest = ts'++rest') :
    e = e' ∧ ts = ts' ∧ rest = rest' := by
  obtain ⟨w, hw, rfl, rfl, _⟩ := spelled_iff.mp h
  obtain ⟨w', hw', rfl, rfl, _⟩ := spelled_iff.mp h'
  obtain ⟨rfl, hsame⟩ := w.operand_unique w' .assign rest rest' hw hw' hrest hrest' heq
  exact ⟨rfl, rfl, hsame⟩

end Expr
end RatScript
