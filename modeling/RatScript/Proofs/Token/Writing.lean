import RatScript.Proofs.Token.Layout

/-!
Tokens written down: a script that spells tokens with single spaces between them is scanned to these
tokens again.
-/

namespace RatScript

/-- Ways to quote a text. -/
inductive QuoteStyle where
  | double
  | single
  deriving DecidableEq

namespace QuoteStyle

def char : QuoteStyle → Char
  | double => '"'
  | single => '\x27'

end QuoteStyle

namespace Token

/-- What stands between quotes for a text: quote, `\` and end of line are written as escapes. -/
def escaped (quote : Char) : List Char → List Char
  | [] => []
  | c :: cs =>
    if c = quote ∨ c = '\\' then '\\' :: c :: escaped quote cs
    else if c = '\n' then '\\' :: 'n' :: escaped quote cs
    else c :: escaped quote cs

/-- The token as it is written in a script. -/
def written (style : QuoteStyle) : Token → List Char
  | number digits => digits.toList
  | text content => style.char :: escaped style.char content.toList ++ [style.char]
  | name word => word.toList
  | comment remark => '#' :: remark.toList
  | keyword k => k.spelling.toList
  | symbol s => s.chars
  | newline => ['\n']
  | eof => []

/-- Tokens other than comments and the end of file, with a number or name that can be written. -/
def Writable : Token → Prop
  | number digits => Scan.IsNumeral digits.toList
  | name word => Scan.IsWord word.toList ∧ ∀ k : Keyword, k.spelling ≠ word
  | comment _ | eof => False
  | text _ | keyword _ | symbol _ | newline => True

end Token

namespace Scan

/-! No number, word or symbol goes over a space. -/

theorem IsDigits.not_mem_space {cs : List Char} (h : IsDigits cs) : ' ' ∉ cs := by
  intro hmem
  cases h.2 _ hmem

theorem IsNumeral.not_mem_space {cs : List Char} (h : IsNumeral cs) : ' ' ∉ cs := by
  rcases h with h | ⟨whole, fraction, hwhole, hfraction, rfl⟩
  · exact h.not_mem_space
  · simp [hwhole.not_mem_space, hfraction.not_mem_space]

theorem IsWord.not_mem_space {cs : List Char} (h : IsWord cs) : ' ' ∉ cs := by
  have hstart : isNameStart ' ' = false := by decide
  have hpart : isNamePart ' ' = false := by decide
  obtain ⟨c, part, rfl, hc, hall⟩ := h
  intro hmem
  rcases List.mem_cons.mp hmem with rfl | hmem
  · rw [hstart] at hc
    cases hc
  · rw [hall _ hmem] at hpart
    cases hpart

/-- Small letters start words and stand in them. -/
theorem isNameStart_of_isLower {c : Char} (h : c.isLower = true) : isNameStart c = true := by
  have hascii : c.toNat < 128 := by
    simp only [Char.isLower, Bool.and_eq_true, decide_eq_true_eq, UInt32.le_iff_toNat_le] at h
    exact Nat.lt_of_le_of_lt h.2 (by decide)
  rw [isNameStart, Text.isAlphabetic, if_pos hascii, Char.isAlpha, h, Bool.or_true, Bool.true_or]

theorem isNamePart_of_isNameStart {c : Char} (h : isNameStart c = true) : isNamePart c = true := by
  simp only [isNameStart, isNamePart, Text.isAlphanumeric, Bool.or_eq_true] at *
  tauto

theorem isWord_keyword (k : Keyword) : IsWord k.spelling.toList := by
  have hletters : ∀ c ∈ k.spelling.toList, c.isLower = true :=
    List.all_eq_true.mp (by cases k <;> decide)
  have hmore : k.spelling.toList ≠ [] := by cases k <;> decide
  obtain ⟨c, part, hspelling⟩ := List.exists_cons_of_ne_nil hmore
  rw [hspelling] at hletters
  obtain ⟨hc, hpart⟩ := List.forall_mem_cons.mp hletters
  exact ⟨c, part, hspelling, isNameStart_of_isLower hc, fun d hd =>
    isNamePart_of_isNameStart (isNameStart_of_isLower (hpart d hd))⟩

theorem IsSymbol.not_mem_space {cs : List Char} (h : IsSymbol cs) : ' ' ∉ cs := by
  have htable : ∀ e ∈ symbolTable, ' ' ∉ e.1 := by decide
  obtain ⟨s, rfl⟩ := h
  exact htable _ (mem_symbolTable s)

section
variable {rest : List Char}

/-- What follows is nothing, or a space first. -/
def Apart (rest : List Char) : Prop := ∀ c ∈ rest.head?, c = ' '

theorem Longest.of_apart {p : List Char → Prop} (hp : ∀ cs, p cs → ' ' ∉ cs) {cs : List Char}
    (hrest : Apart rest) (h : p cs) : Longest p cs rest := by
  refine ⟨h, fun more hmore hlonger => ?_⟩
  cases more with
  | nil => rfl
  | cons c more =>
    obtain ⟨behind, rfl⟩ := hmore
    have hc : c = ' ' := hrest c rfl
    exact absurd (by simp [hc]) (hp _ hlonger)

theorem quoted_escaped (style : QuoteStyle) (content : List Char) :
    Quoted style.char content (Token.escaped style.char content) := by
  have hquote : unescape? style.char = some style.char := by cases style <;> rfl
  induction content with
  | nil => exact .nil
  | cons c cs ih =>
    rw [Token.escaped]
    split
    · next hc =>
      rcases hc with rfl | rfl
      · exact .escape hquote ih
      · exact .escape rfl ih
    · next hc =>
      obtain ⟨hstyle, hescape⟩ := not_or.mp hc
      split
      · next hline =>
        subst hline
        exact .escape rfl ih
      · next hline => exact .plain hstyle hescape hline ih

theorem spelled_written (style : QuoteStyle) {t : Token} (ht : t.Writable) (hrest : Apart rest) :
    t.Spelled (t.written style) rest := by
  cases t with
  | number digits => exact ⟨rfl, .of_apart (fun _ => IsNumeral.not_mem_space) hrest ht⟩
  | text content =>
    exact ⟨style.char, _, by cases style <;> simp [QuoteStyle.char], quoted_escaped style _, rfl⟩
  | name x => exact ⟨rfl, .of_apart (fun _ => IsWord.not_mem_space) hrest ht.1, ht.2⟩
  | keyword k =>
    exact ⟨rfl, .of_apart (fun _ => IsWord.not_mem_space) hrest (isWord_keyword k)⟩
  | symbol s => exact ⟨rfl, .of_apart (fun _ => IsSymbol.not_mem_space) hrest ⟨s, rfl⟩⟩
  | newline => rfl
  | comment | eof => cases ht

end

/-- Tokens with single spaces between them are laid out, behind any gap. -/
theorem laid_written {tokens : List (QuoteStyle × Token)} (h : ∀ t ∈ tokens, t.2.Writable)
    {before gap : List Char} (hgap : ∀ c ∈ gap, isGap c = true) :
    ∃ ts, Laid before (gap ++ [' '].intercalate (tokens.map fun t => t.2.written t.1)) ts ∧
      ts.map (·.token) = tokens.map (·.2) ++ [.eof] := by
  induction tokens generalizing before gap with
  | nil => exact ⟨_, by simpa using Laid.last hgap, rfl⟩
  | cons t tokens ih =>
    obtain ⟨ht, htokens⟩ := List.forall_mem_cons.mp h
    cases tokens with
    | nil =>
      have hspelled : t.2.Spelled (t.2.written t.1) [] := spelled_written t.1 ht nofun
      have hend : Laid (before ++ gap ++ t.2.written t.1) [] _ := .last nofun
      exact ⟨_, by simpa [List.intercalate] using Laid.token hgap hspelled hend, rfl⟩
    | cons u tokens =>
      obtain ⟨ts, hts, hsame⟩ := @ih htokens (before ++ gap ++ t.2.written t.1) [' '] (by simp [isGap])
      have happart (cs : List Char) : Apart ([' '] ++ cs) := by simp [Apart]
      have hlaid := Laid.token hgap (spelled_written t.1 ht (happart _)) hts
      exact ⟨_, by simpa [List.intercalate] using hlaid, by simp [hsame]⟩

end Scan

/-- Scanning undoes writing, whichever way each text is quoted. -/
theorem scanCode_written (tokens : List (QuoteStyle × Token)) (h : ∀ t ∈ tokens, t.2.Writable) :
    ∃ ts, scanCode (String.ofList ([' '].intercalate (tokens.map fun t => t.2.written t.1))) =
        .ok ts ∧ ts.map (·.token) = tokens.map (·.2) ++ [.eof] := by
  obtain ⟨ts, hlaid, htokens⟩ := @Scan.laid_written tokens h [] [] nofun
  have hkeep : ∀ t ∈ ts, (!t.isComment) = true := by
    intro t ht
    have hmem : t.token ∈ tokens.map (·.2) ++ [.eof] := htokens ▸ List.mem_map_of_mem ht
    rcases List.mem_append.mp hmem with hmem | hmem
    · obtain ⟨u, hu, heq⟩ := List.mem_map.mp hmem
      have hu := h u hu
      rw [heq] at hu
      unfold Located.isComment
      split
      · next hcomment =>
        rw [hcomment] at hu
        cases hu
      · rfl
    · simp [Located.isComment, List.mem_singleton.mp hmem]
  refine ⟨ts, ?_, htokens⟩
  rw [scanCode, scan_eq_ok.mpr (by simpa using hlaid)]
  exact congrArg Except.ok (List.filter_eq_self.mpr hkeep)

/-- A name that begins with a keyword, and a text with its own quote and an end of line in it. -/
def assigning : List (QuoteStyle × Token) :=
  [(.double, .name "ifs"), (.double, .symbol .assign), (.single, .text "a'\n")]

theorem scanCode_written_assigning :
    (∀ t ∈ assigning, t.2.Writable) ∧
      ∃ ts, scanCode "ifs = 'a\\'\\n'" = .ok ts ∧
        ts.map (·.token) = [.name "ifs", .symbol .assign, .text "a'\n", .eof] := by
  have hword : Scan.IsWord "ifs".toList :=
    ⟨'i', ['f', 's'], rfl, by decide, List.all_eq_true.mp (by decide)⟩
  have hwritable : ∀ t ∈ assigning, t.2.Writable := by
    simp only [assigning, List.forall_mem_cons]
    exact ⟨⟨hword, fun k => by cases k <;> decide⟩, trivial, trivial, nofun⟩
  exact ⟨hwritable, scanCode_written assigning hwritable⟩

end RatScript
