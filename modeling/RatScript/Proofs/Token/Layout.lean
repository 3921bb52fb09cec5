import RatScript.Proofs.Token.Spelling
import RatScript.Proofs.Token.Scan

/-!
How a script is laid out: gaps and spellings of tokens in turn, each token placed where its spelling
starts. The scan finds the tokens of a script exactly if they are laid out in it.
-/

namespace RatScript

namespace Position

/-- The position behind the first characters of a script: one line more than ends of lines stand
there, and one column more than characters behind the last of them. -/
def behind (cs : List Char) : Position :=
  ⟨cs.count '\n'+1, (cs.reverse.takeWhile (· != '\n')).length+1⟩

/-- Reading order. -/
def Before (p q : Position) : Prop := p.line < q.line ∨ p.line = q.line ∧ p.col < q.col

theorem Before.trans {p q r : Position} (h : p.Before q) (k : q.Before r) : p.Before r := by
  unfold Before at *
  omega

theorem behind_concat (cs : List Char) (c : Char) : behind (cs ++ [c]) = (behind cs).advance c := by
  by_cases hc : c = '\n'
  · simp [behind, advance, hc]
  · simp [behind, advance, hc]

theorem behind_append (cs ds : List Char) : behind (cs ++ ds) = (behind cs).after ds := by
  induction ds generalizing cs with
  | nil => simp [after]
  | cons d ds ih =>
    rw [List.append_cons, ih, behind_concat]
    rfl

theorem before_advance (p : Position) (c : Char) : p.Before (p.advance c) := by
  unfold advance
  split
  · exact .inl (Nat.lt_succ_self _)
  · exact .inr ⟨rfl, Nat.lt_succ_self _⟩

theorem before_after (p : Position) {cs : List Char} (h : cs ≠ []) : p.Before (p.after cs) := by
  induction cs generalizing p with
  | nil => exact absurd rfl h
  | cons c cs ih =>
    by_cases hcs : cs = []
    · rw [hcs]
      exact before_advance p c
    · exact (before_advance p c).trans (ih (p.advance c) hcs)

end Position

namespace Scan

/-- Behind the characters `before`, a text is laid out as these tokens: in front of each stands a gap,
and behind the last gap nothing but the end of file. -/
inductive Laid : List Char → List Char → List Located → Prop where
  | last {before gap : List Char} (hgap : ∀ c ∈ gap, isGap c = true) :
    Laid before gap [⟨.eof, .behind (before ++ gap)⟩]
  | token {before gap cs rest : List Char} {t : Token} {ts : List Located}
    (hgap : ∀ c ∈ gap, isGap c = true) (ht : t.Spelled cs rest)
    (hrest : Laid (before ++ gap ++ cs) rest ts) :
    Laid before (gap ++ cs ++ rest) (⟨t, .behind (before ++ gap)⟩ :: ts)

theorem Laid.gap {before cs : List Char} {c : Char} {ts : List Located} (hc : isGap c = true)
    (h : Laid (before ++ [c]) cs ts) : Laid before (c :: cs) ts := by
  cases h with
  | last hgap =>
    rw [← List.append_cons]
    exact .last (List.forall_mem_cons.mpr ⟨hc, hgap⟩)
  | token hgap ht hrest =>
    rw [List.append_assoc before] at hrest ⊢
    exact .token (List.forall_mem_cons.mpr ⟨hc, hgap⟩) ht hrest

theorem tokensFrom_gap {gap : List Char} (hgap : ∀ c ∈ gap, isGap c = true) (pos : Position)
    (found : Array Located) (cs : List Char) :
    tokensFrom pos found (gap ++ cs) = tokensFrom (pos.after gap) found cs := by
  induction gap generalizing pos with
  | nil => rfl
  | cons c gap ih =>
    obtain ⟨hc, hgap⟩ := List.forall_mem_cons.mp hgap
    rw [List.cons_append, tokensFrom, if_pos hc, ih hgap]
    rfl

/-- The scan finds what is laid out, and nothing else. -/
theorem tokensFrom_eq_ok {before cs : List Char} {found out : Array Located} :
    tokensFrom (.behind before) found cs = .ok out ↔
      ∃ ts, Laid before cs ts ∧ out.toList = found.toList ++ ts := by
  constructor
  · intro h
    generalize hpos : Position.behind before = pos at h
    fun_induction tokensFrom pos found cs generalizing before with
    | case1 pos found =>
      cases h
      subst hpos
      have hlast := @Laid.last before [] (by simp)
      rw [List.append_nil] at hlast
      exact ⟨_, hlast, by simp⟩
    | case2 pos found c cs hgap ih =>
      obtain ⟨ts, hts, hout⟩ := ih (by rw [Position.behind_concat, hpos]) h
      exact ⟨ts, hts.gap hgap, hout⟩
    | case3 pos found c cs _ l hl ih =>
      obtain ⟨more, rest, rfl, hmore, hspelled⟩ := lexeme_spelled hl
      rw [hmore, List.take_left, List.drop_left] at ih h
      obtain ⟨ts, hts, hout⟩ := ih (by rw [Position.behind_append, hpos]) h
      subst hpos
      have htoken := @Laid.token before [] _ _ _ _ (by simp) hspelled (by simpa using hts)
      rw [List.append_nil] at htoken
      exact ⟨_, htoken, by simpa using hout⟩
    | case4 => cases h
  · rintro ⟨ts, hlaid, hout⟩
    induction hlaid generalizing found with
    | @last before gap hgap =>
      have hscan := tokensFrom_gap hgap (.behind before) found []
      rw [List.append_nil, ← Position.behind_append, tokensFrom] at hscan
      rw [hscan, Array.toList_inj.mp (hout.trans (Array.toList_push ..).symm)]
    | @token before gap cs rest t ts hgap ht _ ih =>
      obtain ⟨c, more, rfl⟩ := List.exists_cons_of_ne_nil (ne_nil_of_spelled ht)
      rw [List.append_assoc, tokensFrom_gap hgap, ← Position.behind_append, List.cons_append, tokensFrom,
        if_neg (by simp [not_isGap_of_spelled ht]), lexeme_of_spelled ht]
      simp only [List.take_left, List.drop_left, ← Position.behind_append]
      exact ih (by simpa using hout)

/-- Each token stands behind the ones before it. -/
theorem Laid.ordered {before cs : List Char} {ts : List Located} (h : Laid before cs ts) :
    (∀ t ∈ ts, t.pos = .behind before ∨ (Position.behind before).Before t.pos) ∧
      ts.Pairwise fun t u => t.pos.Before u.pos := by
  have hgap (before gap : List Char) : Position.behind (before ++ gap) = .behind before ∨
      (Position.behind before).Before (.behind (before ++ gap)) := by
    by_cases hempty : gap = []
    · exact .inl (by rw [hempty, List.append_nil])
    · exact .inr (Position.behind_append before gap ▸ Position.before_after _ hempty)
  induction h with
  | @last before gap _ => exact ⟨by simpa using hgap before gap, List.pairwise_singleton ..⟩
  | @token before gap cs rest t ts _ ht _ ih =>
    obtain ⟨hbehind, hpairs⟩ := ih
    have hstep : (Position.behind (before ++ gap)).Before (.behind (before ++ gap ++ cs)) :=
      Position.behind_append (before ++ gap) cs ▸ Position.before_after _ (ne_nil_of_spelled ht)
    have hlater (u : Located) (hu : u ∈ ts) : (Position.behind (before ++ gap)).Before u.pos := by
      rcases hbehind u hu with heq | hu
      · exact heq ▸ hstep
      · exact hstep.trans hu
    refine ⟨List.forall_mem_cons.mpr ⟨hgap before gap, fun u hu => ?_⟩,
      List.pairwise_cons.mpr ⟨hlater, hpairs⟩⟩
    rcases hgap before gap with heq | hfirst
    · exact .inr (heq ▸ hlater u hu)
    · exact .inr (hfirst.trans (hlater u hu))

end Scan

theorem scan_eq_ok {source : String} {tokens : List Located} :
    scan source = .ok tokens ↔ Scan.Laid [] source.toList tokens := by
  constructor
  · intro h
    obtain ⟨out, hout, rfl⟩ := Except.map_eq_ok h
    have hstart : Position.start = .behind [] := rfl
    rw [hstart] at hout
    obtain ⟨ts, hlaid, hts⟩ := Scan.tokensFrom_eq_ok.mp hout
    rw [hts]
    exact hlaid
  · intro h
    have hout : Scan.tokensFrom .start #[] source.toList = .ok tokens.toArray :=
      Scan.tokensFrom_eq_ok.mpr ⟨tokens, h, rfl⟩
    rw [scan, hout]
    rfl

/-- A script falls into gaps and spellings: the tokens found are laid out in it, and no others are. They
stand one behind the other, each end of line of the script is one of them, and the end of file is the
last one and only that. -/
theorem scan_factors {source : String} {tokens : List Located} (h : scan source = .ok tokens) :
    Scan.Laid [] source.toList tokens ∧
      (∀ others, Scan.Laid [] source.toList others → others = tokens) ∧
      (tokens.Pairwise fun t u => t.pos.Before u.pos) ∧
      (tokens.map (·.token)).count .newline = source.toList.count '\n' ∧
      ∃ found last, tokens = found ++ [⟨.eof, last⟩] ∧ ∀ t ∈ found, t.token ≠ .eof := by
  have hlaid := scan_eq_ok.mp h
  obtain ⟨out, hout, rfl⟩ := Except.map_eq_ok h
  obtain ⟨found, last, hfound, hcount, hend⟩ := Scan.tokensFrom_ends hout
  refine ⟨hlaid, fun others hothers => ?_, hlaid.ordered.2, ?_, found, last, by simpa using hfound, hend⟩
  · have hsame := (scan_eq_ok.mpr hothers).symm.trans h
    cases hsame
    rfl
  · rw [← hcount, hfound]
    simp [List.count_append]

theorem scan_factors_assigning :
    scan " x<<=1.5 # half\n" = .ok [⟨.name "x", ⟨1, 2⟩⟩, ⟨.symbol (.compound .shiftLeft), ⟨1, 3⟩⟩,
      ⟨.number "1.5", ⟨1, 6⟩⟩, ⟨.comment "half", ⟨1, 10⟩⟩, ⟨.newline, ⟨1, 16⟩⟩, ⟨.eof, ⟨2, 1⟩⟩] ∧
    Scan.Laid [] " x<<=1.5 # half\n".toList [⟨.name "x", ⟨1, 2⟩⟩,
      ⟨.symbol (.compound .shiftLeft), ⟨1, 3⟩⟩, ⟨.number "1.5", ⟨1, 6⟩⟩, ⟨.comment "half", ⟨1, 10⟩⟩,
      ⟨.newline, ⟨1, 16⟩⟩, ⟨.eof, ⟨2, 1⟩⟩] := by
  have hscan : scan " x<<=1.5 # half\n" = .ok [⟨.name "x", ⟨1, 2⟩⟩,
      ⟨.symbol (.compound .shiftLeft), ⟨1, 3⟩⟩, ⟨.number "1.5", ⟨1, 6⟩⟩, ⟨.comment "half", ⟨1, 10⟩⟩,
      ⟨.newline, ⟨1, 16⟩⟩, ⟨.eof, ⟨2, 1⟩⟩] := by decide +kernel
  exact ⟨hscan, (scan_factors hscan).1⟩

end RatScript
