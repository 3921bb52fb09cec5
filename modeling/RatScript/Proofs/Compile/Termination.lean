import RatScript.Proofs.Compile.Acceptance
import RatScript.Proofs.Compile.Depth

/-!
Compiling ends, whatever the tokens are. Loops go on only while tokens are left, and each round reads
one of them. Calls within calls are counted, and one that is too deep fails at once, even where
there is nothing left to be read.
-/

set_option synthInstance.maxSize 65536

namespace RatScript.Compile

open Stateful

/-! Tokens are read forward. -/

/-- What is still to come are the last of some tokens. -/
structure Among (code : List Located) (finish : Position) (b : Builder) : Prop where
  rest : b.rest <:+ code
  ends : b.finish = finish

/-- Failures of any kind. -/
def AnyFailure (_ : Diagnostic) : Prop := True

section
variable {α : Type} {code : List Located} {finish : Position}

theorem skipLine_suffix (last : Located) (rest : List Located) :
    (skipLine last rest).2 <:+ rest := by
  obtain ⟨skipped, hrest, -⟩ := skipLine_skips last rest
  exact ⟨skipped, hrest.symm⟩

instance : Tolerant AnyFailure := ⟨fun _ _ => trivial⟩

instance : Textual (Among code finish) where
  same _ _ h hb := ⟨h.rest ▸ hb.rest, h.finish.trans hb.ends⟩

instance : Recovers (Among code finish) AnyFailure where
  recovers _ b _ hb := ⟨(skipLine_suffix b.last b.rest).trans hb.rest, hb.ends⟩

instance : Answers (Among code finish) AnyFailure advance :=
  .update fun b hb => by
    unfold Builder.advance
    split
    · next t rest hrest =>
      exact ⟨(List.suffix_cons t rest).trans (hrest ▸ hb.rest), hb.ends⟩
    · exact hb

instance : Answers (Among code finish) AnyFailure tooDeep :=
  ⟨fun _ hb => ⟨trivial, hb⟩⟩

instance (levels : Nat) (p : Precedence) :
    Answers (Among code finish) AnyFailure (operandAt levels p) := by
  induction levels generalizing p with
  | zero => dsimp only [operandAt]; infer_instance
  | succ levels ih => dsimp only [operandAt]; infer_instance

instance (expression inner : Compile Unit) [Answers (Among code finish) AnyFailure expression]
    [Answers (Among code finish) AnyFailure inner] :
    Answers (Among code finish) AnyFailure (statement expression inner) := by
  unfold statement
  refine .seq inferInstance fun t => ?_
  split
  case h_8 => split <;> infer_instance
  all_goals infer_instance

instance (levels : Nat) : Answers (Among code finish) AnyFailure (statementAt levels) := by
  induction levels with
  | zero => dsimp only [statementAt]; infer_instance
  | succ levels ih => dsimp only [statementAt]; infer_instance

theorem among_after {x : Compile α} (hx : Answers (Among code finish) AnyFailure x) {b : Builder}
    (hb : Among code finish b) : Among code finish (after x b) :=
  Yields.after (hx.yields.mono (fun _ h => h) (fun _ _ h => h) fun _ _ h => h.2) hb

/-- The tokens still to come after a step are the last of those that were to come before. -/
theorem suffix_after {x : Compile α} {b : Builder}
    (hx : Answers (Among b.rest b.finish) AnyFailure x) : (after x b).rest <:+ b.rest :=
  (among_after hx ⟨List.suffix_rfl, rfl⟩).rest

theorem suffix_of_ok {x : Compile α} {a : α} {b c : Builder}
    (hx : Answers (Among b.rest b.finish) AnyFailure x) (h : x b = .ok a c) : c.rest <:+ b.rest :=
  after_of_ok h ▸ suffix_after hx

end

/-! Statements read at least one token. -/

/-- Where there are tokens left the step, if it succeeds, reads one. -/
def Reads {α : Type} (x : Compile α) : Prop :=
  ∀ b a c, x b = .ok a c → b.rest ≠ [] → c.rest.length < b.rest.length

theorem advance_shorter {b : Builder} (hrest : b.rest ≠ []) :
    b.advance.rest.length < b.rest.length := by
  obtain ⟨t, rest, hrest⟩ := List.exists_cons_of_ne_nil hrest
  rw [Builder.advance, hrest]
  exact Nat.lt_succ_self _

namespace Reads

variable {α β : Type}

theorem advance : Reads advance := by
  rintro b _ _ ⟨⟩ hrest
  exact advance_shorter hrest

theorem complain (t : Located) (c : Complaint) : Reads (complain t c : Compile α) :=
  fun _ _ _ h => absurd h throw_ne_ok

theorem seq {x : Compile α} {f : α → Compile β} (hx : Reads x)
    (hf : ∀ a code finish, Answers (Among code finish) AnyFailure (f a)) : Reads (x >>= f) := by
  intro b _ c h hrest
  obtain ⟨a, t, hfirst, h⟩ := bind_eq_ok.mp h
  exact Nat.lt_of_le_of_lt (suffix_of_ok (hf a _ _) h).length_le (hx b a t hfirst hrest)

theorem peek_bind {f : Located → Compile α} (hf : ∀ t, Reads (f t)) : Reads (peek >>= f) :=
  fun b a c h => hf b.peek b a c h

theorem operandAt (levels : Nat) (p : Precedence) : Reads (operandAt levels p) := by
  cases levels with
  | zero => exact peek_bind fun t => complain t .tooDeep
  | succ levels => exact seq advance fun _ _ _ => inferInstance

theorem expressionStatement (levels : Nat) :
    Reads (expressionStatement (Compile.operandAt levels .assign)) :=
  seq (operandAt levels .assign) fun _ _ _ => inferInstance

theorem statementAt (levels : Nat) : Reads (statementAt levels) := by
  cases levels with
  | zero => exact peek_bind fun t => complain t .tooDeep
  | succ levels =>
    refine peek_bind fun t => ?_
    split
    case h_8 =>
      split
      · exact complain _ _
      · exact expressionStatement levels
    case h_9 => exact expressionStatement levels
    all_goals exact seq advance fun _ _ _ => inferInstance

end Reads

section
variable {b c : Builder}

theorem skipLine_shorter (last : Located) {rest : List Located} (hrest : rest ≠ []) :
    (skipLine last rest).2.length < rest.length := by
  obtain ⟨t, rest, rfl⟩ := List.exists_cons_of_ne_nil hrest
  rw [skipLine]
  split
  · exact Nat.lt_succ_self _
  · exact Nat.lt_succ_of_le (skipLine_suffix t rest).length_le

/-- A statement reads a token, or it fails and a token is skipped. -/
theorem declaration_reads (levels : Nat) (hrest : b.rest ≠ []) :
    (after (declaration (statementAt levels)) b).rest.length < b.rest.length := by
  unfold after declaration
  simp only [tryCatch, tryCatchThe, MonadExceptOf.tryCatch, EStateM.tryCatch]
  cases hs : statementAt levels b with
  | ok _ c => exact Reads.statementAt levels b _ c hs hrest
  | error d c =>
    have hle : c.rest.length ≤ b.rest.length :=
      (after_of_error hs ▸ suffix_after inferInstance : c.rest <:+ b.rest).length_le
    change (skipLine c.last c.rest).2.length < b.rest.length
    rcases eq_or_ne c.rest [] with hc | hc
    · rw [hc]
      exact List.length_pos_iff.mpr hrest
    · exact Nat.lt_of_lt_of_le (skipLine_shorter c.last hc) hle

end

/-! Loops, as they are without a bound on their rounds. -/

/-- What a round of a loop comes to: the loop stops with a result, or it goes on. -/
inductive Round (α β : Type) where
  | stop (result : α)
  | again (next : β)

/-- A loop ends after so many rounds, and this is what it comes to. -/
inductive Finishes {α β : Type} (round : β → Compile (Round α β)) :
    Nat → β → Builder → EStateM.Result Diagnostic Builder α → Prop
  | stop {x b a c} : round x b = .ok (.stop a) c → Finishes round 1 x b (.ok a c)
  | fail {x b d c} : round x b = .error d c → Finishes round 1 x b (.error d c)
  | again {x b y c n r} : round x b = .ok (.again y) c → Finishes round n y c r →
    Finishes round (n+1) x b r

section
variable {α β : Type}

theorem bind_eq_bind {x : Compile α} {f g : α → Compile β} {b : Builder}
    (h : ∀ a t, x b = .ok a t → f a t = g a t) : (x >>= f) b = (x >>= g) b := by
  simp only [bind, EStateM.bind]
  cases hx : x b with
  | ok a t => exact h a t hx
  | error d t => rfl

/-- What follows a round of a loop, if `next` stands for the loop. -/
def Round.go (next : β → Compile α) : Round α β → Compile α
  | stop a => pure a
  | again y => next y

/-- A loop in which every round that goes on reads a token ends, within as many rounds as there are
tokens, and with what a bounded loop comes to that may have as many. -/
theorem ends_within {round : β → Compile (Round α β)} (loop : List Located → β → Compile α)
    (extra : Nat)
    (hreads : ∀ x b y c, round x b = .ok (.again y) c → c.rest.length < b.rest.length)
    (hround : ∀ budget x b, b.rest.length+extra ≤ budget.length →
      loop budget x b = (round x >>= Round.go (loop budget.tail)) b)
    {budget : List Located} {b : Builder} (x : β) (hb : b.rest.length+extra ≤ budget.length) :
    ∃ n ≤ b.rest.length+1, Finishes round n x b (loop budget x b) := by
  induction budget generalizing x b with
  | nil =>
    rw [hround [] x b hb]
    simp only [bind, EStateM.bind]
    cases h : round x b with
    | ok r c =>
      cases r with
      | stop a => exact ⟨1, Nat.le_add_left .., .stop h⟩
      | again y =>
        have hless := hreads x b y c h
        rw [List.length_nil] at hb
        omega
    | error d c => exact ⟨1, Nat.le_add_left .., .fail h⟩
  | cons t budget ih =>
    rw [hround _ x b hb]
    simp only [bind, EStateM.bind]
    cases h : round x b with
    | ok r c =>
      cases r with
      | stop a => exact ⟨1, Nat.le_add_left .., .stop h⟩
      | again y =>
        have hless := hreads x b y c h
        rw [List.length_cons] at hb
        obtain ⟨n, hn, hends⟩ := ih y (by omega : c.rest.length+extra ≤ budget.length)
        exact ⟨n+1, by omega, .again h hends⟩
    | error d c => exact ⟨1, Nat.le_add_left .., .fail h⟩

end

def statementRound (statement : Compile Unit) (closers : List Keyword) (_ : Unit) :
    Compile (Round Unit Unit) := do
  match (← peek).token with
  | .eof => return .stop ()
  | .keyword k =>
    if closers.contains k then return .stop ()
    else
      declaration statement
      return .again ()
  | _ =>
    declaration statement
    return .again ()

def argumentRound (inner : Precedence → Compile Unit) (n : Nat) : Compile (Round Nat Nat) := do
  inner .assign
  if ← accept (.symbol .comma) then return .again (n+1) else return .stop (n+1)

def parameterRound (found : Array (String × Located)) :
    Compile (Round (Array (String × Located)) (Array (String × Located))) := do
  let name ← consumeName "parameter name"
  let t ← last
  if found.any (·.1 == name) then complain t (.duplicateParameter name)
  let found := found.push (name, t)
  if ← accept (.symbol .comma) then return .again found else return .stop found

def operatorRound (inner : Precedence → Compile Unit) (p : Precedence) (_ : Unit) :
    Compile (Round Unit Unit) := do
  match Infix.ofToken? (← peek).token with
  | none => return .stop ()
  | some i =>
    if p.rank ≤ i.precedence.rank then
      advance
      joined inner i
      return .again ()
    else return .stop ()

def skipRound (_ : Unit) : Compile (Round Unit Unit) := do
  match (← peek).token with
  | .eof => return .stop ()
  | .newline =>
    advance
    return .stop ()
  | _ =>
    advance
    return .again ()

theorem peek_of_nil {b : Builder} (h : b.rest = []) : b.peek.token = .eof := by
  rw [Builder.peek, h]

theorem declarations_cons (statement : Compile Unit) (closers : List Keyword) (t : Located)
    (budget : List Located) :
    declarations statement closers (t :: budget) = statementRound statement closers () >>=
      Round.go fun _ => declarations statement closers budget := by
  simp only [declarations, statementRound, bind_assoc]
  refine bind_congr fun u => ?_
  cases u.token with
  | eof => rfl
  | keyword k =>
    dsimp only
    split
    · rfl
    · simp only [bind_assoc, pure_bind, Round.go]
  | _ => simp only [bind_assoc, pure_bind, Round.go]

theorem arguments_cons (inner : Precedence → Compile Unit) (t : Located) (budget : List Located)
    (n : Nat) :
    arguments inner (t :: budget) n =
      argumentRound inner n >>= Round.go (arguments inner budget) := by
  simp only [arguments, argumentRound, bind_assoc]
  refine bind_congr fun _ => bind_congr fun comma => ?_
  split <;> rfl

theorem parameters_cons (t : Located) (budget : List Located) (found : Array (String × Located)) :
    parameters (t :: budget) found = parameterRound found >>= Round.go (parameters budget) := by
  simp only [parameters, parameterRound, bind_assoc]
  refine bind_congr fun name => bind_congr fun u => ?_
  split
  · simp only [bind_assoc]
    refine bind_congr fun _ => bind_congr fun comma => ?_
    split <;> rfl
  · simp only [bind_assoc]
    refine bind_congr fun comma => ?_
    split <;> rfl

theorem following_cons (inner : Precedence → Compile Unit) (p : Precedence) (t : Located)
    (budget : List Located) :
    following inner p (t :: budget) =
      operatorRound inner p () >>= Round.go fun _ => following inner p budget := by
  simp only [following, operatorRound, bind_assoc]
  refine bind_congr fun u => ?_
  cases Infix.ofToken? u.token with
  | none => rfl
  | some i =>
    dsimp only
    split
    · simp only [bind_assoc, pure_bind, Round.go]
    · rfl

/-! Rounds that go on read a token. -/

section
variable {b c : Builder}

theorem rest_ne_nil (h : b.peek.token ≠ .eof) : b.rest ≠ [] :=
  fun hnil => h (peek_of_nil hnil)

theorem accept_reads {token : Token} (htoken : token ≠ .eof) (h : accept token b = .ok true c) :
    c.rest.length < b.rest.length := by
  change (if b.peek.token == token then (do advance; return true) else return false :
    Compile Bool) b = _ at h
  split at h
  · next heq =>
    cases h
    exact advance_shorter (rest_ne_nil ((beq_iff_eq.mp heq).symm ▸ htoken))
  · cases h

theorem consumeName_reads {what name : String} (h : consumeName what b = .ok name c) :
    c.rest.length < b.rest.length := by
  rw [consumeName, peek_bind] at h
  cases htoken : b.peek.token with
  | name word =>
    rw [htoken] at h
    cases h
    exact advance_shorter (rest_ne_nil (htoken ▸ nofun))
  | _ =>
    rw [htoken] at h
    cases h

theorem statementRound_reads {levels : Nat} {closers : List Keyword} {x y : Unit}
    (h : statementRound (statementAt levels) closers x b = .ok (.again y) c) :
    c.rest.length < b.rest.length := by
  have hstatement (hne : b.peek.token ≠ .eof)
      (h : (do declaration (statementAt levels); return .again () : Compile (Round Unit Unit)) b =
        .ok (.again y) c) : c.rest.length < b.rest.length := by
    obtain ⟨_, t, hdeclaration, hagain⟩ := bind_eq_ok.mp h
    cases hagain
    rw [← after_of_ok hdeclaration]
    exact declaration_reads levels (rest_ne_nil hne)
  rw [statementRound, peek_bind] at h
  cases htoken : b.peek.token with
  | eof =>
    rw [htoken] at h
    cases h
  | keyword k =>
    rw [htoken] at h
    dsimp only at h
    split at h
    · cases h
    · exact hstatement (htoken ▸ nofun) h
  | _ =>
    rw [htoken] at h
    exact hstatement (htoken ▸ nofun) h

theorem argumentRound_reads {levels n m : Nat}
    (h : argumentRound (operandAt levels) n b = .ok (.again m) c) :
    c.rest.length < b.rest.length := by
  obtain ⟨_, t, hoperand, h⟩ := bind_eq_ok.mp h
  obtain ⟨comma, u, hcomma, h⟩ := bind_eq_ok.mp h
  have hle := (suffix_of_ok inferInstance hoperand).length_le
  cases comma with
  | true =>
    have hother : Token.symbol .comma ≠ .eof := nofun
    cases h
    exact Nat.lt_of_lt_of_le (accept_reads hother hcomma) hle
  | false => cases h

theorem parameterRound_reads {found more : Array (String × Located)}
    (h : parameterRound found b = .ok (.again more) c) : c.rest.length < b.rest.length := by
  obtain ⟨name, t, hname, h⟩ := bind_eq_ok.mp h
  have hlt := consumeName_reads hname
  have hle := (suffix_of_ok inferInstance h).length_le
  omega

theorem operatorRound_reads {levels : Nat} {p : Precedence} {x y : Unit}
    (h : operatorRound (operandAt levels) p x b = .ok (.again y) c) :
    c.rest.length < b.rest.length := by
  rw [operatorRound, peek_bind] at h
  cases hi : Infix.ofToken? b.peek.token with
  | none =>
    rw [hi] at h
    cases h
  | some i =>
    have hne : b.rest ≠ [] := rest_ne_nil fun heof => by
      rw [heof] at hi
      cases hi
    rw [hi] at h
    dsimp only at h
    split at h
    · obtain ⟨_, t, hadvance, h⟩ := bind_eq_ok.mp h
      have hlt := Reads.advance b _ t hadvance hne
      have hle := (suffix_of_ok inferInstance h).length_le
      omega
    · cases h

end

/-- Loops of the compiler, each without a bound, come to what they come to with a bound of as many
rounds as there are tokens left. -/
structure LoopsEnd (levels : Nat) (b : Builder) : Prop where
  statements : ∀ closers, ∃ n ≤ b.rest.length+1,
    Finishes (statementRound (statementAt levels) closers) n () b
      (declarations (statementAt levels) closers b.rest b)
  arguments : ∀ k, ∃ n ≤ b.rest.length+1,
    Finishes (argumentRound (operandAt levels)) n k b (arguments (operandAt levels) b.rest k b)
  operators : ∀ p, ∃ n ≤ b.rest.length+1,
    Finishes (operatorRound (operandAt levels) p) n () b (following (operandAt levels) p b.rest b)
  parameters : ∀ found, ∃ n ≤ b.rest.length+1,
    Finishes parameterRound n found b (parameters (b.peek :: b.rest) found b)
  skips : ∃ n ≤ b.rest.length+1, Finishes skipRound n () b (synchronize b)

theorem statements_end (levels : Nat) (closers : List Keyword) (b : Builder) :
    ∃ n ≤ b.rest.length+1, Finishes (statementRound (statementAt levels) closers) n () b
      (declarations (statementAt levels) closers b.rest b) := by
  refine ends_within (fun budget _ => declarations (statementAt levels) closers budget) 0
    (fun _ _ _ _ => statementRound_reads) (fun budget _ b hb => ?_) () (Nat.le_refl _)
  cases budget with
  | nil =>
    have hnil : b.rest = [] := List.length_eq_zero_iff.mp (Nat.le_zero.mp hb)
    rw [statementRound, bind_assoc, peek_bind, peek_of_nil hnil]
    rfl
  | cons t budget => exact congrFun (declarations_cons _ _ _ _) b

theorem arguments_end (levels k : Nat) (b : Builder) :
    ∃ n ≤ b.rest.length+1, Finishes (argumentRound (operandAt levels)) n k b
      (arguments (operandAt levels) b.rest k b) := by
  refine ends_within (arguments (operandAt levels)) 0 (fun _ _ _ _ => argumentRound_reads)
    (fun budget k b hb => ?_) k (Nat.le_refl _)
  cases budget with
  | nil =>
    have hnil : b.rest = [] := List.length_eq_zero_iff.mp (Nat.le_zero.mp hb)
    rw [argumentRound, bind_assoc]
    refine bind_eq_bind fun _ t ht => ?_
    have hover : t.rest = [] := List.suffix_nil.mp (hnil ▸ suffix_of_ok inferInstance ht)
    have hcomma : accept (.symbol .comma) t = .ok false t := by
      change (if t.peek.token == _ then (do advance; return true) else return false :
        Compile Bool) t = _
      rw [peek_of_nil hover]
      rfl
    rw [bind_assoc]
    change _ = (accept (.symbol .comma) >>= _) t
    simp only [bind, EStateM.bind, hcomma]
    rfl
  | cons t budget => exact congrFun (arguments_cons _ _ _ _) b

theorem operators_end (levels : Nat) (p : Precedence) (b : Builder) :
    ∃ n ≤ b.rest.length+1, Finishes (operatorRound (operandAt levels) p) n () b
      (following (operandAt levels) p b.rest b) := by
  refine ends_within (fun budget _ => following (operandAt levels) p budget) 0
    (fun _ _ _ _ => operatorRound_reads) (fun budget _ b hb => ?_) () (Nat.le_refl _)
  cases budget with
  | nil =>
    have hnil : b.rest = [] := List.length_eq_zero_iff.mp (Nat.le_zero.mp hb)
    rw [operatorRound, bind_assoc, peek_bind, peek_of_nil hnil]
    rfl
  | cons t budget => exact congrFun (following_cons _ _ _ _) b

theorem parameters_end (found : Array (String × Located)) (b : Builder) :
    ∃ n ≤ b.rest.length+1, Finishes parameterRound n found b
      (parameters (b.peek :: b.rest) found b) := by
  refine ends_within parameters 1 (fun _ _ _ _ => parameterRound_reads) (fun budget found b hb => ?_)
    found (Nat.le_refl _)
  cases budget with
  | nil => cases hb
  | cons t budget => exact congrFun (parameters_cons _ _ _) b

theorem synchronize_eq (b : Builder) : synchronize b = .ok ()
    {b with last := (skipLine b.last b.rest).1, rest := (skipLine b.last b.rest).2} := rfl

theorem skips_end (b : Builder) (hcode : ∀ t ∈ b.rest, t.token ≠ .eof) :
    ∃ n ≤ b.rest.length+1, Finishes skipRound n () b (synchronize b) := by
  induction hrest : b.rest generalizing b with
  | nil =>
    have hround : skipRound () b = .ok (.stop ()) b := by
      rw [skipRound, peek_bind, peek_of_nil hrest]
      rfl
    have hskip : synchronize b = .ok () b := by
      rw [synchronize_eq, hrest, skipLine, ← hrest]
    exact ⟨1, Nat.le_refl _, hskip ▸ .stop hround⟩
  | cons t rest ih =>
    have hpeek : b.peek = t := by rw [Builder.peek, hrest]
    have hadvance : b.advance = {b with last := t, rest := rest} := by rw [Builder.advance, hrest]
    have heof : t.token ≠ .eof := hcode t (hrest ▸ List.mem_cons_self)
    by_cases hline : t.token = .newline
    · have hround : skipRound () b = .ok (.stop ()) b.advance := by
        rw [skipRound, peek_bind, hpeek, hline]
        rfl
      have hskip : synchronize b = .ok () b.advance := by
        rw [synchronize_eq, hrest, skipLine, if_pos (beq_iff_eq.mpr hline), hadvance]
      exact ⟨1, Nat.le_add_left .., hskip ▸ .stop hround⟩
    · have hround : skipRound () b = .ok (.again ()) b.advance := by
        rw [skipRound, peek_bind, hpeek]
        cases htoken : t.token with
        | eof => exact absurd htoken heof
        | newline => exact absurd htoken hline
        | _ => rfl
      have hskip : synchronize b = synchronize b.advance := by
        rw [synchronize_eq, synchronize_eq, hrest, skipLine,
          if_neg (fun h => hline (beq_iff_eq.mp h)), hadvance]
      have hlater : b.advance.rest = rest := by rw [hadvance]
      have hcode' : ∀ u ∈ b.advance.rest, u.token ≠ .eof :=
        fun u hu => hcode u (hrest ▸ List.mem_cons_of_mem t (hlater ▸ hu))
      obtain ⟨n, hn, hends⟩ := ih b.advance hcode' hlater
      exact ⟨n+1, Nat.succ_le_succ hn, hskip ▸ .again hround hends⟩

theorem loops_end (levels : Nat) {b : Builder} (hcode : ∀ t ∈ b.rest, t.token ≠ .eof) :
    LoopsEnd levels b where
  statements closers := statements_end levels closers b
  arguments k := arguments_end levels k b
  operators p := operators_end levels p b
  parameters found := parameters_end found b
  skips := skips_end b hcode

/-! Calls within calls. -/

/-- The calls that are counted as nested. -/
inductive Call where
  | operand (p : Precedence)
  | statement

/-- A call within so many others; `inside` are the calls in it. -/
def callAt (inside : Nat → Call → Compile Unit) (nesting : Nat) (call : Call) : Compile Unit :=
  if maxNesting ≤ nesting then tooDeep
  else
    match call with
    | .operand p => operand (fun q => inside (nesting+1) (.operand q)) p
    | .statement =>
      statement (inside (nesting+1) (.operand .assign)) (inside (nesting+1) .statement)

/-- The same call, by the levels that are left. -/
def Call.left (nesting : Nat) : Call → Compile Unit
  | operand p => operandAt (maxNesting-nesting) p
  | statement => statementAt (maxNesting-nesting)

/-- Calls are unfolded as often as there are levels left, and once more. No call is left that is
deeper, so what stands for deeper ones does not matter. -/
theorem iterate_callAt (inside : Nat → Call → Compile Unit) (nesting : Nat) (call : Call) :
    (callAt^[maxNesting-nesting+1] inside) nesting call = call.left nesting := by
  induction hleft : maxNesting-nesting generalizing nesting call with
  | zero =>
    have hdeep : maxNesting ≤ nesting := Nat.le_of_sub_eq_zero hleft
    rw [Function.iterate_one, callAt.eq_def, if_pos hdeep]
    cases call <;> rw [Call.left, hleft] <;> rfl
  | succ levels ih =>
    have hinside (call : Call) :
        (callAt^[levels+1] inside) (nesting+1) call = call.left (nesting+1) :=
      ih (nesting+1) call (by omega)
    have hlevels : maxNesting-(nesting+1) = levels := by omega
    rw [Function.iterate_succ_apply', callAt.eq_def, if_neg (by omega)]
    cases call with
    | operand p =>
      simp only [hinside, Call.left, hleft, hlevels]
      rfl
    | statement =>
      simp only [hinside, Call.left, hleft, hlevels]
      rfl

/-! The whole script. -/

theorem not_eof_of_suffix {tokens : List Located} {b : Builder}
    (h : b.rest <:+ (Builder.start tokens).rest) : ∀ t ∈ b.rest, t.token ≠ .eof := by
  intro t ht heof
  have hmem : t ∈ tokens.takeWhile (·.token != .eof) := h.subset ht
  have hbefore := List.mem_takeWhile_imp hmem
  rw [heof] at hbefore
  cases hbefore

/-- Statements that nothing closes are read to the end of the tokens. -/
theorem declarations_over {levels : Nat} {budget : List Located} {b c : Builder}
    (hcode : ∀ t ∈ b.rest, t.token ≠ .eof) (hb : b.rest.length ≤ budget.length)
    (h : declarations (statementAt levels) [] budget b = .ok () c) : c.rest = [] := by
  induction budget generalizing b with
  | nil =>
    cases h
    exact List.length_eq_zero_iff.mp (Nat.le_zero.mp hb)
  | cons u budget ih =>
    have hon (hne : b.rest ≠ []) (h : (do declaration (statementAt levels)
                                          declarations (statementAt levels) [] budget :
        Compile Unit) b = .ok () c) : c.rest = [] := by
      obtain ⟨_, t, hdeclaration, h⟩ := bind_eq_ok.mp h
      have hlt := declaration_reads levels hne
      have hsuffix := suffix_of_ok inferInstance hdeclaration
      rw [after_of_ok hdeclaration] at hlt
      rw [List.length_cons] at hb
      exact ih (fun v hv => hcode v (hsuffix.subset hv)) (by omega) h
    rw [declarations, peek_bind] at h
    cases hrest : b.rest with
    | nil =>
      rw [peek_of_nil hrest] at h
      cases h
      exact hrest
    | cons t rest =>
      have hne : b.rest ≠ [] := hrest ▸ List.cons_ne_nil t rest
      have heof : b.peek.token ≠ .eof := by
        rw [Builder.peek, hrest]
        exact hcode t (hrest ▸ List.mem_cons_self)
      cases htoken : b.peek.token with
      | eof => exact absurd htoken heof
      | _ =>
        rw [htoken] at h
        exact hon hne h

/-- Compiling ends, whatever the tokens are, and with all of them read, up to the first end of file.
Tokens are only ever read forward; a statement at any nesting, if there is a token left, reads one or
fails and is passed over by one; all loops end, within as many rounds as there are tokens left; and
no call is nested deeper than the levels that are left, whatever stands for calls that are. -/
theorem terminates (tokens : List Located) :
    (∃ b, script (.start tokens) = .ok () b ∧ b.rest = []) ∧
    (Builder.start tokens).rest = tokens.takeWhile (·.token != .eof) ∧
    (∀ b, b.rest <:+ (Builder.start tokens).rest → ∀ levels,
      (∀ p, (after (operandAt levels p) b).rest <:+ b.rest) ∧
      (after (statementAt levels) b).rest <:+ b.rest ∧
      (after (declaration (statementAt levels)) b).rest <:+ b.rest ∧
      (b.peek.token ≠ .eof →
        (after (declaration (statementAt levels)) b).rest.length < b.rest.length) ∧
      LoopsEnd levels b) ∧
    ∀ inside nesting call,
      (callAt^[maxNesting-nesting+1] inside) nesting call = call.left nesting := by
  refine ⟨?_, rfl, fun b hb levels => ⟨fun p => ?_, ?_, ?_, fun hne => ?_, ?_⟩, iterate_callAt⟩
  · obtain ⟨b, hscript⟩ := declarations_ok (statementAt maxNesting) [] _ (.start tokens)
    have hcode := not_eof_of_suffix (b := .start tokens) List.suffix_rfl
    exact ⟨b, hscript, declarations_over hcode (Nat.le_refl _) hscript⟩
  · exact suffix_after inferInstance
  · exact suffix_after inferInstance
  · exact suffix_after inferInstance
  · exact declaration_reads levels (rest_ne_nil hne)
  · exact loops_end levels (not_eof_of_suffix hb)

end RatScript.Compile
