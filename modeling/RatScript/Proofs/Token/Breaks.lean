import Mathlib
import RatScript.Proofs.Token.Scan

/-!
Scripts are read line by line: no token reaches over the end of its line, so what stands before an end
of line is read the same whether anything follows or not.
-/

namespace RatScript

namespace Scan

section
variable {q : Char → Bool} (hq : q '\n' = false) (cs rest : List Char)
include hq

theorem takeWhile_newline : (cs ++ '\n' :: rest).takeWhile q = cs.takeWhile q := by
  induction cs with
  | nil => simp [hq]
  | cons c cs ih =>
    simp only [List.cons_append, List.takeWhile_cons, ih]

theorem dropWhile_newline :
    (cs ++ '\n' :: rest).dropWhile q = cs.dropWhile q ++ '\n' :: rest := by
  induction cs with
  | nil => simp [hq]
  | cons c cs ih =>
    simp only [List.cons_append, List.dropWhile_cons, ih]
    split <;> rfl

end

theorem quoted_newline {quote : Char} (hquote : quote ≠ '\n') (n : Nat) (content cs rest : List Char)
    (l : Lexeme) :
    quoted quote n content (cs ++ '\n' :: rest) = .ok l ↔ quoted quote n content cs = .ok l := by
  have hend : ('\n' == quote) = false := beq_eq_false_iff_ne.mpr hquote.symm
  fun_induction quoted quote n content cs with
  | case1 n content =>
    rw [List.nil_append, quoted.eq_def]
    simp [hend]
  | case2 n content c cs hc =>
    rw [List.cons_append, quoted.eq_def]
    simp [hc]
  | case3 n content c cs hc hline =>
    rw [List.cons_append, quoted.eq_def]
    simp [hc, hline]
  | case4 n content c hc hline hescape =>
    rw [List.cons_append, quoted.eq_def]
    simp [hc, hline, hescape, unescape?]
  | case5 n content c hc hline hescape e cs d hd ih =>
    rw [List.cons_append, quoted.eq_def]
    simp [hc, hline, hescape, hd, ih]
  | case6 n content c hc hline hescape e cs hd =>
    rw [List.cons_append, quoted.eq_def]
    simp [hc, hline, hescape, hd]
  | case7 n content c cs hc hline hescape ih =>
    rw [List.cons_append, quoted.eq_def]
    simp [hc, hline, hescape, ih]

theorem number_newline (c : Char) (cs rest : List Char) :
    number c (cs ++ '\n' :: rest) = number c cs := by
  have hdigit : Char.isDigit '\n' = false := rfl
  simp only [number, takeWhile_newline hdigit, dropWhile_newline hdigit]
  generalize cs.dropWhile Char.isDigit = behind
  rcases behind with _ | ⟨d, _ | ⟨e, behind⟩⟩
  · rfl
  · by_cases hd : d = '.' <;> simp [hd, hdigit]
  · by_cases hd : d = '.' <;> simp [hd, takeWhile_newline hdigit]

theorem symbol?_newline (cs rest : List Char) : symbol? (cs ++ '\n' :: rest) = symbol? cs := by
  have htable : ∀ e ∈ symbolTable, '\n' ∉ e.1 := by decide
  have hsame (chars : List Char) (hchars : '\n' ∉ chars) :
      chars.isPrefixOf (cs ++ '\n' :: rest) = chars.isPrefixOf cs := by
    induction chars generalizing cs with
    | nil => rfl
    | cons c chars ih =>
      obtain ⟨hc, hchars⟩ := not_or.mp (List.mem_cons.not.mp hchars)
      cases cs with
      | nil => simp [List.isPrefixOf, Ne.symm hc]
      | cons d cs => simp [List.isPrefixOf, ih cs hchars]
  unfold symbol?
  congr 1
  generalize symbolTable = table at htable
  induction table with
  | nil => rfl
  | cons e table ih =>
    have hfirst := hsame e.1 (htable e (List.mem_cons_self ..))
    simp only [List.find?_cons, hfirst, ih fun e he => htable e (List.mem_cons_of_mem _ he)]

/-- A token is the same whether its line goes on or ends behind it. -/
theorem lexeme_newline (c : Char) (cs rest : List Char) (l : Lexeme) :
    lexeme c (cs ++ '\n' :: rest) = .ok l ↔ lexeme c cs = .ok l := by
  unfold lexeme
  split
  · rfl
  · next hc =>
    have hquote : c ≠ '\n' := by simpa using hc
    have hline : comment (cs ++ '\n' :: rest) = comment cs := by
      simp only [comment, takeWhile_newline (q := (· != '\n')) rfl]
    have hword : word c (cs ++ '\n' :: rest) = word c cs := by
      simp only [word, takeWhile_newline (q := isNamePart) (by decide)]
    rw [hline, number_newline, hword, ← List.cons_append, symbol?_newline]
    split
    · rfl
    · split
      · exact quoted_newline hquote 0 [] cs rest l
      · rfl

theorem quoted_more {quote : Char} {n : Nat} {content cs : List Char} {l : Lexeme}
    (h : quoted quote n content cs = .ok l) : l.more ≤ n+cs.length := by
  fun_induction quoted quote n content cs with
  | case1 | case3 | case4 | case6 => cases h
  | case2 n content c cs =>
    cases h
    simp
  | case5 n content c _ _ _ e cs d hd ih =>
    have := ih h
    simp only [List.length_cons]
    omega
  | case7 n content c cs _ _ _ ih =>
    have := ih h
    simp only [List.length_cons]
    omega

theorem number_more (c : Char) (cs : List Char) : (number c cs).more ≤ cs.length := by
  have hsplit := congrArg List.length (List.takeWhile_append_dropWhile (p := Char.isDigit) (l := cs))
  rw [List.length_append] at hsplit
  simp only [number]
  split
  · next d behind hbehind =>
    rw [hbehind, List.length_cons, List.length_cons] at hsplit
    have hfraction := (List.takeWhile_prefix Char.isDigit (l := behind)).length_le
    split
    · simp only [List.length_append, List.length_cons]
      omega
    · omega
  · omega

theorem symbol?_more {c : Char} {cs : List Char} {l : Lexeme} (h : symbol? (c :: cs) = some l) :
    l.more ≤ cs.length := by
  obtain ⟨⟨chars, s⟩, hfind, rfl⟩ := Option.map_eq_some_iff.mp h
  have hfound := List.find?_some hfind
  have hprefix : chars <+: c :: cs := List.isPrefixOf_iff_prefix.mp hfound
  have hlength := hprefix.length_le
  simp only [List.length_cons] at hlength
  change chars.length-1 ≤ cs.length
  omega

/-- A token takes characters that are there. -/
theorem lexeme_more {c : Char} {cs : List Char} {l : Lexeme} (h : lexeme c cs = .ok l) :
    l.more ≤ cs.length := by
  unfold lexeme at h
  split at h
  · cases h
    exact Nat.zero_le _
  · split at h
    · cases h
      exact (List.takeWhile_prefix _).length_le
    · split at h
      · simpa using quoted_more h
      · split at h
        · cases h
          exact number_more c cs
        · split at h
          · cases h
            exact (List.takeWhile_prefix _).length_le
          · split at h
            · next hsymbol =>
              cases h
              exact symbol?_more hsymbol
            · cases h

theorem after_append (pos : Position) (cs ds : List Char) :
    pos.after (cs++ds) = (pos.after cs).after ds :=
  List.foldl_append

/-- The scan of two texts with an end of line between them: the first one is read to its end, then its
end of line, then the second one. -/
theorem tokensFrom_newline {pos : Position} {found out : Array Located} {cs rest : List Char} :
    tokensFrom pos found (cs ++ '\n' :: rest) = .ok out ↔
      ∃ read : Array Located, tokensFrom pos found cs = .ok (read.push ⟨.eof, pos.after cs⟩) ∧
        tokensFrom ((pos.after cs).advance '\n') (read.push ⟨.newline, pos.after cs⟩) rest =
          .ok out := by
  fun_induction tokensFrom pos found cs with
  | case1 pos found =>
    have hline : lexeme '\n' rest = .ok ⟨.newline, 0⟩ := rfl
    have hgap : isGap '\n' = false := rfl
    rw [List.nil_append, tokensFrom, hgap, hline]
    simp [Position.after, Array.push_eq_push]
  | case2 pos found c cs hgap ih =>
    rw [List.cons_append, tokensFrom, if_pos hgap, ih]
    rfl
  | case3 pos found c cs hgap l hl ih =>
    have hmore := lexeme_more hl
    rw [List.cons_append, tokensFrom, if_neg hgap, (lexeme_newline c cs rest l).mpr hl]
    have hafter : (pos.after (c :: cs.take l.more)).after (cs.drop l.more) = pos.after (c :: cs) := by
      rw [← after_append, List.cons_append, List.take_append_drop]
    simp only [List.take_append_of_le_length hmore, List.drop_append_of_le_length hmore]
    rw [ih, hafter]
  | case4 pos found c cs hgap stop hstop =>
    rw [List.cons_append, tokensFrom, if_neg hgap]
    cases hl : lexeme c (cs ++ '\n' :: rest) with
    | error _ => simp
    | ok l =>
      rw [lexeme_newline, hstop] at hl
      cases hl

/-- The tokens found before are only carried along. -/
theorem tokensFrom_found (pos : Position) (found : Array Located) (cs : List Char) :
    tokensFrom pos found cs = (tokensFrom pos #[] cs).map (found++·) := by
  suffices h : ∀ more, tokensFrom pos (found++more) cs = (tokensFrom pos more cs).map (found++·) by
    simpa using h #[]
  intro more
  fun_induction tokensFrom pos more cs with
  | case1 pos more =>
    rw [tokensFrom, Array.push_eq_append, Array.append_assoc, ← Array.push_eq_append]
    rfl
  | case2 pos more c cs hgap ih => rw [tokensFrom, if_pos hgap, ih]
  | case3 pos more c cs hgap l hl ih =>
    have hpush : (found++more).push ⟨l.token, pos⟩ = found++more.push ⟨l.token, pos⟩ := by
      rw [Array.push_eq_append, Array.push_eq_append, Array.append_assoc]
    rw [tokensFrom, if_neg hgap, hl, ← ih, ← hpush]
  | case4 pos more c cs hgap stop hstop =>
    rw [tokensFrom, if_neg hgap, hstop]
    rfl

end Scan

theorem scanCode_eq_ok {source : String} {tokens : List Located} :
    scanCode source = .ok tokens ↔ ∃ out : Array Located,
      Scan.tokensFrom .start #[] source.toList = .ok out ∧
        tokens = out.toList.filter (!·.isComment) := by
  unfold scanCode scan
  cases Scan.tokensFrom .start #[] source.toList <;> simp [Except.map, eq_comm]

/-- The tokens of two texts with an end of line between them, without comments. -/
theorem scanCode_newline {source : String} {first second : List Char} {tokens : List Located}
    (hsource : source.toList = first ++ '\n' :: second) :
    scanCode source = .ok tokens ↔
      ∃ read out : Array Located,
        Scan.tokensFrom .start #[] first = .ok (read.push ⟨.eof, Position.start.after first⟩) ∧
        Scan.tokensFrom ((Position.start.after first).advance '\n') #[] second = .ok out ∧
        tokens = read.toList.filter (!·.isComment)++⟨.newline, Position.start.after first⟩ ::
          out.toList.filter (!·.isComment) := by
  have hnewline (pos : Position) : (!Located.isComment ⟨.newline, pos⟩) = true := rfl
  rw [scanCode_eq_ok, hsource]
  constructor
  · rintro ⟨out, hout, rfl⟩
    obtain ⟨read, hfirst, hsecond⟩ := Scan.tokensFrom_newline.mp hout
    rw [Scan.tokensFrom_found] at hsecond
    obtain ⟨rest, hrest, rfl⟩ := Except.map_eq_ok hsecond
    exact ⟨read, rest, hfirst, hrest, by simp [hnewline]⟩
  · rintro ⟨read, out, hfirst, hrest, rfl⟩
    have hout := Scan.tokensFrom_found ((Position.start.after first).advance '\n')
      (read.push ⟨.newline, Position.start.after first⟩) second
    rw [hrest] at hout
    exact ⟨_, Scan.tokensFrom_newline.mpr ⟨read, hfirst, hout⟩, by simp [hnewline]⟩

end RatScript
