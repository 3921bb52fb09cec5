import Mathlib
import RatScript.Token.Scan

/-!
How tokens are spelled in scripts. The scan takes a token off the characters exactly if a spelling of it
stands there that no longer one of its kind continues.
-/

namespace RatScript

namespace Scan

/-! What spellings look like. -/

def IsDigits (cs : List Char) : Prop := cs ≠ [] ∧ ∀ c ∈ cs, c.isDigit = true

/-- Digits, with or without a point and more digits behind. -/
def IsNumeral (cs : List Char) : Prop :=
  IsDigits cs ∨ ∃ whole fraction, IsDigits whole ∧ IsDigits fraction ∧ cs = whole ++ '.' :: fraction

def IsWord (cs : List Char) : Prop :=
  ∃ c part, cs = c :: part ∧ isNameStart c = true ∧ ∀ d ∈ part, isNamePart d = true

def IsRemark (cs : List Char) : Prop := ∃ line, cs = '#' :: line ∧ '\n' ∉ line

def IsSymbol (cs : List Char) : Prop := ∃ s : Symbol, s.chars = cs

/-- A text and what stands between its quotes for it. -/
inductive Quoted (quote : Char) : List Char → List Char → Prop where
  | nil : Quoted quote [] []
  | plain {c : Char} {content cs : List Char} (hquote : c ≠ quote) (hescape : c ≠ '\\')
      (hline : c ≠ '\n') (h : Quoted quote content cs) : Quoted quote (c :: content) (c :: cs)
  | escape {e d : Char} {content cs : List Char} (hd : unescape? e = some d)
      (h : Quoted quote content cs) : Quoted quote (d :: content) ('\\' :: e :: cs)

/-- Characters with a property that no more of what follows them can keep. -/
structure Longest (p : List Char → Prop) (cs rest : List Char) : Prop where
  holds : p cs
  longest : ∀ more, more <+: rest → p (cs ++ more) → more = []

theorem Longest.unique {p : List Char → Prop} {cs rest cs' rest' : List Char}
    (h : Longest p cs rest) (h' : Longest p cs' rest') (hsame : cs ++ rest = cs' ++ rest') :
    cs = cs' ∧ rest = rest' := by
  rcases List.append_eq_append_iff.mp hsame with ⟨more, rfl, hrest⟩ | ⟨more, rfl, hrest⟩
  · obtain rfl := h.longest more ⟨rest', hrest.symm⟩ h'.holds
    simpa using hrest
  · obtain rfl := h'.longest more ⟨rest, hrest.symm⟩ h.holds
    simpa using hrest.symm

end Scan

/-- In front of `rest` the characters `cs` spell the token. -/
def Token.Spelled (cs rest : List Char) : Token → Prop
  | .newline => cs = ['\n']
  | .comment remark =>
    Scan.Longest Scan.IsRemark cs rest ∧ remark = String.ofList (Text.trim cs.tail)
  | .text content => ∃ quote inside, (quote = '"' ∨ quote = '\x27') ∧
    Scan.Quoted quote content.toList inside ∧ cs = quote :: inside ++ [quote]
  | .number digits => cs = digits.toList ∧ Scan.Longest Scan.IsNumeral cs rest
  | .name word =>
    cs = word.toList ∧ Scan.Longest Scan.IsWord cs rest ∧ ∀ k : Keyword, k.spelling ≠ word
  | .keyword k => cs = k.spelling.toList ∧ Scan.Longest Scan.IsWord cs rest
  | .symbol s => cs = s.chars ∧ Scan.Longest Scan.IsSymbol cs rest
  | .eof => False

namespace Scan

/-! Runs of characters with a property. -/

section
variable {q : Char → Bool} {cs more : List Char}

theorem all_takeWhile (q : Char → Bool) (cs : List Char) : ∀ c ∈ cs.takeWhile q, q c = true :=
  fun _ h => List.mem_takeWhile_imp h

/-- What stands behind a run does not go on with it. -/
theorem eq_nil_of_prefix_dropWhile (h : more <+: cs.dropWhile q) (hq : ∀ c ∈ more, q c = true) :
    more = [] := by
  cases more with
  | nil => rfl
  | cons d more =>
    obtain ⟨rest, hrest⟩ := h
    have hd := List.head?_dropWhile_not q cs
    rw [← hrest] at hd
    simp [hq d (List.mem_cons_self ..)] at hd

end

theorem word_spelled {c : Char} (hc : isNameStart c = true) (cs : List Char) :
    (word c cs).token.Spelled (c :: cs.takeWhile isNamePart) (cs.dropWhile isNamePart) := by
  have hlongest : Longest IsWord (c :: cs.takeWhile isNamePart) (cs.dropWhile isNamePart) := by
    refine ⟨⟨c, _, rfl, hc, all_takeWhile _ _⟩, fun more hmore ⟨d, part, heq, _, hpart⟩ => ?_⟩
    cases heq
    exact eq_nil_of_prefix_dropWhile hmore fun d hd => hpart d (List.mem_append_right _ hd)
  simp only [word]
  cases hk : Keyword.ofSpelling? (String.ofList (c :: cs.takeWhile isNamePart)) with
  | some k =>
    have hword := eq_of_beq (List.find?_some (p := fun j : Keyword => j.spelling == _) hk)
    exact ⟨by rw [hword, String.toList_ofList], hlongest⟩
  | none =>
    refine ⟨String.toList_ofList.symm, hlongest, fun k hword => ?_⟩
    have hnone := List.find?_eq_none.mp hk k (by cases k <;> decide)
    exact hnone (beq_iff_eq.mpr hword)

theorem comment_spelled (cs : List Char) :
    (comment cs).token.Spelled ('#' :: cs.takeWhile (· != '\n')) (cs.dropWhile (· != '\n')) := by
  refine ⟨⟨⟨_, rfl, ?_⟩, fun more hmore ⟨line, heq, hline⟩ => ?_⟩, rfl⟩
  · intro hmem
    simpa using all_takeWhile _ _ _ hmem
  · cases heq
    refine eq_nil_of_prefix_dropWhile hmore fun d hd => ?_
    have hne : d ≠ '\n' := by
      rintro rfl
      exact hline (List.mem_append_right _ hd)
    simpa using hne

theorem number_spelled {c : Char} (hc : c.isDigit = true) (cs : List Char) :
    ∃ more rest, cs = more ++ rest ∧
      number c cs = ⟨.number (String.ofList (c :: more)), more.length⟩ ∧
      Longest IsNumeral (c :: more) rest := by
  have hwhole : ∀ d ∈ c :: cs.takeWhile Char.isDigit, d.isDigit = true :=
    List.forall_mem_cons.mpr ⟨hc, all_takeWhile _ _⟩
  have hdigits : IsDigits (c :: cs.takeWhile Char.isDigit) := ⟨by simp, hwhole⟩
  have hsplit := List.takeWhile_append_dropWhile (p := Char.isDigit) (l := cs)
  have hpoint : Char.isDigit '.' = false := rfl
  -- a numeral is cut at its point by dropping digits
  have hfraction {more whole fraction : List Char} (hw : IsDigits whole)
      (h : c :: cs.takeWhile Char.isDigit ++ more = whole ++ '.' :: fraction) :
      more.dropWhile Char.isDigit = '.' :: fraction := by
    rw [← List.dropWhile_append_of_pos hwhole, h, List.dropWhile_append_of_pos hw.2,
      List.dropWhile_cons_of_neg (by simp)]
  by_cases hbehind : ∃ d rest, cs.dropWhile Char.isDigit = '.' :: d :: rest ∧ d.isDigit = true
  · obtain ⟨d, rest, hdrop, hd⟩ := hbehind
    refine ⟨cs.takeWhile Char.isDigit ++ '.' :: d :: rest.takeWhile Char.isDigit,
      rest.dropWhile Char.isDigit, ?_, ?_, ?_, ?_⟩
    · rw [List.append_assoc, List.cons_append, List.cons_append, List.takeWhile_append_dropWhile,
        ← hdrop, hsplit]
    · simp only [number, hdrop, hd, if_true]
    · exact .inr ⟨_, d :: rest.takeWhile Char.isDigit, hdigits,
        ⟨by simp, List.forall_mem_cons.mpr ⟨hd, all_takeWhile _ _⟩⟩, rfl⟩
    · rintro more hmore (hall | ⟨whole, fraction, hw, hf, heq⟩)
      · have := hall.2 '.' (by simp)
        cases this
      · rw [List.cons_append, List.append_assoc] at heq
        have hcut := hfraction hw heq
        rw [List.cons_append, List.dropWhile_cons_of_neg (by simp)] at hcut
        cases hcut
        exact eq_nil_of_prefix_dropWhile hmore fun e he => hf.2 e (by simp [he])
  · refine ⟨cs.takeWhile Char.isDigit, cs.dropWhile Char.isDigit, hsplit.symm, ?_, .inl hdigits, ?_⟩
    · simp only [number]
      split
      · next d rest hdrop =>
        rw [if_neg fun hd => hbehind ⟨d, rest, hdrop, hd⟩]
      · rfl
    · rintro more hmore (hall | ⟨whole, fraction, hw, hf, heq⟩)
      · exact eq_nil_of_prefix_dropWhile hmore fun e he => hall.2 e (by simp [he])
      · have hcut := hfraction hw heq
        obtain ⟨rest, hrest⟩ := hmore
        have hstop := List.head?_dropWhile_not Char.isDigit cs
        cases more with
        | nil => rfl
        | cons e more =>
          rw [← hrest] at hstop
          have he : e.isDigit = false := by simpa using hstop
          rw [List.dropWhile_cons_of_neg (by simp [he])] at hcut
          cases hcut
          obtain ⟨d, fraction, rfl⟩ := List.exists_cons_of_ne_nil hf.1
          exact absurd ⟨d, fraction ++ rest, hrest.symm, hf.2 d (by simp)⟩ hbehind

theorem mem_symbolTable (s : Symbol) : (s.chars, s) ∈ symbolTable := by
  cases s with
  | operator op => cases op <;> decide
  | compound op => cases op <;> decide
  | comparison c => cases c <;> decide
  | _ => decide

theorem symbol?_spelled {c : Char} {cs : List Char} {l : Lexeme} (h : symbol? (c :: cs) = some l) :
    ∃ s more rest, cs = more ++ rest ∧ l = ⟨.symbol s, more.length⟩ ∧
      Token.Spelled (c :: more) rest (.symbol s) := by
  have hentries : ∀ e ∈ symbolTable, e.1 = e.2.chars ∧ e.1 ≠ [] := by decide
  have hordered : symbolTable.Pairwise fun a b => b.1.length ≤ a.1.length := by decide
  obtain ⟨⟨chars, s⟩, hfind, rfl⟩ := Option.map_eq_some_iff.mp h
  obtain ⟨hfront, before, behind, htable, hbefore⟩ := List.find?_eq_some_iff_append.mp hfind
  obtain ⟨hs, hne⟩ := hentries (chars, s) (List.mem_of_find?_eq_some hfind)
  obtain ⟨rest, hrest⟩ := List.isPrefixOf_iff_prefix.mp hfront
  obtain ⟨d, more, rfl⟩ := List.exists_cons_of_ne_nil hne
  cases hrest
  refine ⟨s, more, rest, rfl, rfl, hs, ⟨s, hs.symm⟩, fun longer hlonger ⟨t, ht⟩ => ?_⟩
  -- a longer symbol would stand before this one in the table
  have hmem := mem_symbolTable t
  rw [htable, List.mem_append, List.mem_cons] at hmem
  rw [htable, List.pairwise_append, List.pairwise_cons] at hordered
  have hlength : t.chars.length ≤ (c :: more).length := by
    rcases hmem with hmem | hmem | hmem
    · have hpart : t.chars <+: c :: (more ++ rest) := by
        rw [ht, List.cons_append, List.cons_prefix_cons, List.prefix_append_right_inj]
        exact ⟨rfl, hlonger⟩
      have hnot : (!t.chars.isPrefixOf (c :: (more ++ rest))) = true := hbefore _ hmem
      rw [List.isPrefixOf_iff_prefix.mpr hpart] at hnot
      cases hnot
    · exact Nat.le_of_eq (congrArg (·.1.length) hmem)
    · exact hordered.2.1.1 _ hmem
  rw [ht, List.length_append] at hlength
  exact List.length_eq_zero_iff.mp (by omega)

theorem quoted_eq_ok {quote : Char} (hquote : quote ≠ '\\') {n : Nat} {found cs : List Char}
    {l : Lexeme} :
    quoted quote n found cs = .ok l ↔ ∃ content inside rest, Quoted quote content inside ∧
      cs = inside ++ quote :: rest ∧
      l = ⟨.text (String.ofList (found.reverse ++ content)), n+inside.length+1⟩ := by
  constructor
  · intro h
    fun_induction quoted quote n found cs with
    | case1 | case3 | case4 | case6 => cases h
    | case2 n found c cs hc =>
      cases h
      exact ⟨[], [], cs, .nil, by rw [eq_of_beq hc]; rfl, by simp⟩
    | case5 n found c _ _ hescape e cs d hd ih =>
      obtain ⟨content, inside, rest, hinside, rfl, rfl⟩ := ih h
      refine ⟨d :: content, '\\' :: e :: inside, rest, .escape hd hinside, ?_, ?_⟩
      · rw [eq_of_beq hescape]
        rfl
      · simp
        omega
    | case7 n found c cs hc hend hescape ih =>
      obtain ⟨content, inside, rest, hinside, rfl, rfl⟩ := ih h
      refine ⟨c :: content, c :: inside, rest, .plain (by simpa using hc) (by simpa using hescape)
        (by simpa using hend) hinside, rfl, ?_⟩
      simp
      omega
  · rintro ⟨content, inside, rest, hinside, rfl, rfl⟩
    induction hinside generalizing n found with
    | nil =>
      rw [List.nil_append, quoted.eq_def]
      simp
    | @plain c content cs hc hescape hend _ ih =>
      rw [List.cons_append, quoted.eq_def]
      simp only [beq_eq_false_iff_ne.mpr hc, beq_eq_false_iff_ne.mpr hend,
        beq_eq_false_iff_ne.mpr hescape, Bool.false_eq_true, if_false]
      rw [ih]
      simp
      omega
    | @escape e d content cs hd _ ih =>
      rw [List.cons_append, List.cons_append, quoted.eq_def]
      simp only [beq_eq_false_iff_ne.mpr hquote.symm, hd, Bool.false_eq_true, if_false,
        beq_self_eq_true, if_true, show ('\\' == '\n') = false from rfl]
      rw [ih]
      simp
      omega

/-! What a token can start with. -/

/-- No digit starts a word. -/
theorem isNameStart_of_isDigit {c : Char} (h : c.isDigit = true) : isNameStart c = false := by
  have hbounds : 48 ≤ c.toNat ∧ c.toNat ≤ 57 := by
    simpa [Char.isDigit, UInt32.le_iff_toNat_le] using h
  have hletter : c.isAlpha = false := by
    simp only [Char.isAlpha, Char.isUpper, Char.isLower, Bool.or_eq_false_iff]
    constructor <;> simp [UInt32.le_iff_toNat_le] <;> omega
  have hline : c ≠ '_' := by
    rintro rfl
    cases h
  rw [isNameStart, Text.isAlphabetic, if_pos (by omega), hletter, beq_eq_false_iff_ne.mpr hline]
  rfl

/-- Characters that are skipped or have a rule of their own. -/
def special : List Char := [' ', '\t', '\r', '\n', '#', '"', '\x27']

theorem not_mem_special {q : Char → Bool} (hq : special.all (!q ·) = true) {c : Char}
    (h : q c = true) : c ∉ special := by
  intro hc
  have hnot := List.all_eq_true.mp hq c hc
  rw [h] at hnot
  cases hnot

theorem isNameStart_special : special.all (!isNameStart ·) = true := by decide

theorem isDigit_special : special.all (!Char.isDigit ·) = true := by decide

theorem isGap_of_not_mem_special {c : Char} (h : c ∉ special) : isGap c = false := by
  simp only [special, List.mem_cons, not_or] at h
  simp [isGap, h]

/-- Symbols start with characters that start nothing else. -/
theorem symbol_start {s : Symbol} {c : Char} {more : List Char} (h : s.chars = c :: more) :
    c ∉ special ∧ c.isDigit = false ∧ isNameStart c = false := by
  cases s with
  | operator op => cases op <;> cases h <;> decide
  | compound op => cases op <;> cases h <;> decide
  | comparison c => cases c <;> cases h <;> decide
  | _ => cases h; decide

theorem symbol_chars_injective : Function.Injective Symbol.chars := by
  have htable : ∀ e ∈ symbolTable, ∀ e' ∈ symbolTable, e.1 = e'.1 → e.2 = e'.2 := by decide
  exact fun s t => htable _ (mem_symbolTable s) _ (mem_symbolTable t)

theorem lexeme_spelled {c : Char} {cs : List Char} {l : Lexeme} (h : lexeme c cs = .ok l) :
    ∃ more rest, cs = more ++ rest ∧ l.more = more.length ∧ l.token.Spelled (c :: more) rest := by
  have hrun (q : Char → Bool) : cs = cs.takeWhile q ++ cs.dropWhile q :=
    List.takeWhile_append_dropWhile.symm
  unfold lexeme at h
  split at h
  · next hc =>
    cases h
    exact ⟨[], cs, rfl, rfl, by rw [eq_of_beq hc]; rfl⟩
  split at h
  · next hc =>
    cases h
    exact ⟨_, _, hrun (· != '\n'), rfl, eq_of_beq hc ▸ comment_spelled cs⟩
  split at h
  · next hc =>
    have hquote : c = '"' ∨ c = '\x27' := by simpa using hc
    obtain ⟨content, inside, rest, hinside, rfl, rfl⟩ :=
      (quoted_eq_ok (by rcases hquote with rfl | rfl <;> decide)).mp h
    refine ⟨inside ++ [c], rest, by simp, by simp, c, inside, hquote, ?_, rfl⟩
    simpa using hinside
  split at h
  · next hc =>
    obtain ⟨more, rest, rfl, hnumber, hlongest⟩ := number_spelled hc cs
    rw [hnumber] at h
    cases h
    exact ⟨more, rest, rfl, rfl, String.toList_ofList.symm, hlongest⟩
  split at h
  · next hc =>
    cases h
    exact ⟨_, _, hrun isNamePart, rfl, word_spelled hc cs⟩
  split at h
  · next hsymbol =>
    cases h
    obtain ⟨s, more, rest, rfl, rfl, hs⟩ := symbol?_spelled hsymbol
    exact ⟨more, rest, rfl, rfl, hs⟩
  · cases h

section
variable {c : Char} {cs : List Char}

theorem lexeme_plain (hc : c ∉ special) :
    lexeme c cs =
      if c.isDigit then .ok (number c cs)
      else if isNameStart c then .ok (word c cs)
      else match symbol? (c :: cs) with
        | some l => .ok l
        | none => .error ⟨.unexpected c, 0⟩ := by
  simp only [special, List.mem_cons, not_or] at hc
  obtain ⟨_, _, _, hline, hremark, hdouble, hsingle, _⟩ := hc
  unfold lexeme
  cases symbol? (c :: cs) <;>
    simp only [beq_eq_false_iff_ne.mpr hline, beq_eq_false_iff_ne.mpr hremark,
      beq_eq_false_iff_ne.mpr hdouble, beq_eq_false_iff_ne.mpr hsingle, Bool.or_self,
      Bool.false_eq_true, if_false]

theorem lexeme_number (hc : c.isDigit = true) : lexeme c cs = .ok (number c cs) := by
  rw [lexeme_plain (not_mem_special isDigit_special hc), if_pos hc]

theorem lexeme_word (hc : isNameStart c = true) : lexeme c cs = .ok (word c cs) := by
  have hdigit : c.isDigit ≠ true := by
    intro h
    rw [isNameStart_of_isDigit h] at hc
    cases hc
  rw [lexeme_plain (not_mem_special isNameStart_special hc), if_neg hdigit, if_pos hc]

end

section
variable {c : Char} {more rest : List Char}

theorem takeWhile_of_word (h : Longest IsWord (c :: more) rest) :
    isNameStart c = true ∧ (more ++ rest).takeWhile isNamePart = more := by
  obtain ⟨⟨d, part, heq, hd, hpart⟩, hlongest⟩ := h
  cases heq
  refine ⟨hd, ?_⟩
  have hnone : rest.takeWhile isNamePart = [] := by
    refine hlongest _ (List.takeWhile_prefix _) ⟨c, _, rfl, hd, ?_⟩
    exact List.forall_mem_append.mpr ⟨hpart, all_takeWhile _ _⟩
  rw [List.takeWhile_append_of_pos hpart, hnone, List.append_nil]

theorem Longest.first_digit (h : Longest IsNumeral (c :: more) rest) : c.isDigit = true := by
  rcases h.holds with hall | ⟨whole, fraction, hwhole, _, heq⟩
  · exact hall.2 c (by simp)
  · obtain ⟨d, whole, rfl⟩ := List.exists_cons_of_ne_nil hwhole.1
    cases heq
    exact hwhole.2 c (by simp)

/-- A token is read off its spelling. -/
theorem lexeme_of_spelled {t : Token} (h : t.Spelled (c :: more) rest) :
    lexeme c (more ++ rest) = .ok ⟨t, more.length⟩ := by
  cases t with
  | newline =>
    cases h
    rfl
  | comment remark =>
    obtain ⟨hlongest, rfl⟩ := h
    obtain ⟨line, heq, _⟩ := hlongest.holds
    cases heq
    obtain ⟨hmore, _⟩ := hlongest.unique (comment_spelled (more ++ rest)).1 (by simp)
    have hline : (more ++ rest).takeWhile (· != '\n') = more := (List.cons.inj hmore).2.symm
    change Except.ok (comment (more ++ rest)) = _
    rw [comment, hline]
    rfl
  | text content =>
    obtain ⟨quote, inside, hquote, hinside, heq⟩ := h
    cases heq
    have hread : quoted c 0 [] (inside ++ [c] ++ rest) =
        .ok ⟨.text (String.ofList content.toList), inside.length+1⟩ :=
      (quoted_eq_ok (by rcases hquote with rfl | rfl <;> decide)).mpr
        ⟨_, inside, rest, hinside, by simp, by simp⟩
    rw [String.ofList_toList] at hread
    rcases hquote with rfl | rfl <;> simpa [lexeme] using hread
  | number digits =>
    obtain ⟨hdigits, hlongest⟩ := h
    have hc := hlongest.first_digit
    obtain ⟨more', rest', hsplit, hnumber, hlongest'⟩ := number_spelled hc (more ++ rest)
    obtain ⟨heq, _⟩ := hlongest.unique hlongest' (by simp [hsplit])
    cases heq
    rw [lexeme_number hc, hnumber, hdigits, String.ofList_toList]
  | name x =>
    obtain ⟨hx, hlongest, hfree⟩ := h
    obtain ⟨hc, htake⟩ := takeWhile_of_word hlongest
    have hnone : Keyword.ofSpelling? x = none :=
      List.find?_eq_none.mpr fun k _ => by simpa using hfree k
    rw [lexeme_word hc, word, htake, hx, String.ofList_toList, hnone]
  | keyword k =>
    obtain ⟨hk, hlongest⟩ := h
    obtain ⟨hc, htake⟩ := takeWhile_of_word hlongest
    have hsome : Keyword.ofSpelling? k.spelling = some k := by cases k <;> decide
    rw [lexeme_word hc, word, htake, hk, String.ofList_toList, hsome]
  | symbol s =>
    obtain ⟨hs, hlongest⟩ := h
    obtain ⟨hplain, hdigit, hstart⟩ := symbol_start hs.symm
    obtain ⟨l, hl⟩ : ∃ l, symbol? (c :: (more ++ rest)) = some l := by
      refine Option.isSome_iff_exists.mp (Option.isSome_map.trans ?_)
      refine List.find?_isSome.mpr ⟨_, mem_symbolTable s, ?_⟩
      exact List.isPrefixOf_iff_prefix.mpr ⟨rest, by rw [← hs]; rfl⟩
    obtain ⟨s', more', rest', hsplit, rfl, hs', hlongest'⟩ := symbol?_spelled hl
    obtain ⟨heq, _⟩ := hlongest.unique hlongest' (by simp [hsplit])
    have hsame : s = s' := symbol_chars_injective (hs.symm.trans (heq.trans hs'))
    cases heq
    simp [lexeme_plain hplain, hdigit, hstart, hl, hsame]
  | eof => cases h

/-- A spelling starts with no gap. -/
theorem not_isGap_of_spelled {t : Token} (h : t.Spelled (c :: more) rest) : isGap c = false := by
  cases t with
  | newline => cases h; rfl
  | comment remark =>
    obtain ⟨line, heq, _⟩ := h.1.holds
    cases heq
    rfl
  | text content =>
    obtain ⟨quote, inside, hquote, _, heq⟩ := h
    cases heq
    rcases hquote with rfl | rfl <;> rfl
  | number digits =>
    exact isGap_of_not_mem_special (not_mem_special isDigit_special h.2.first_digit)
  | name x =>
    exact isGap_of_not_mem_special
      (not_mem_special isNameStart_special (takeWhile_of_word h.2.1).1)
  | keyword k =>
    exact isGap_of_not_mem_special (not_mem_special isNameStart_special (takeWhile_of_word h.2).1)
  | symbol s => exact isGap_of_not_mem_special (symbol_start h.1.symm).1
  | eof => cases h

end

/-- There is something to every spelling. -/
theorem ne_nil_of_spelled {t : Token} {cs rest : List Char} (h : t.Spelled cs rest) : cs ≠ [] := by
  rintro rfl
  cases t with
  | newline => cases h
  | comment remark =>
    obtain ⟨_, heq, _⟩ := h.1.holds
    cases heq
  | text content =>
    obtain ⟨_, _, _, _, heq⟩ := h
    cases heq
  | number digits =>
    rcases h.2.holds with hall | ⟨whole, _, _, _, heq⟩
    · exact hall.1 rfl
    · simp at heq
  | name x =>
    obtain ⟨_, _, heq, _⟩ := h.2.1.holds
    cases heq
  | keyword k =>
    obtain ⟨_, _, heq, _⟩ := h.2.holds
    cases heq
  | symbol s =>
    have htable : ∀ e ∈ symbolTable, e.1 ≠ [] := by decide
    exact htable _ (mem_symbolTable s) h.1.symm
  | eof => cases h

theorem lexeme_eq_ok {c : Char} {cs : List Char} {l : Lexeme} :
    lexeme c cs = .ok l ↔
      ∃ more rest, cs = more ++ rest ∧ l.more = more.length ∧ l.token.Spelled (c :: more) rest := by
  constructor
  · exact lexeme_spelled
  · rintro ⟨more, rest, rfl, hmore, hspelled⟩
    rw [lexeme_of_spelled hspelled, ← hmore]

end Scan
end RatScript
