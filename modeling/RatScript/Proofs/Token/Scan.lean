import Mathlib
import RatScript.Token.Scan

/-!
Ends of lines in scripts. Each newline character becomes one token, no other token holds one, and the
end of file comes last and once.
-/

namespace RatScript

namespace Scan

/-- The token takes these characters: it is an end of line exactly if they are, and no token but it
holds one. -/
structure Spells (t : Token) (cs : List Char) : Prop where
  ends : cs.count '\n' = [t].count .newline
  inside : t ≠ .eof

theorem Spells.of_not_mem {t : Token} {cs : List Char} (hcs : '\n' ∉ cs) (ht : t ≠ .newline)
    (hend : t ≠ .eof) : Spells t cs :=
  ⟨by rw [List.count_eq_zero_of_not_mem hcs, List.count_singleton, if_neg (by simpa using ht)], hend⟩

/-- What a rule takes off the characters stands at their start. -/
theorem not_mem_take {part cs : List Char} (h : part <+: cs) (hpart : '\n' ∉ part) :
    '\n' ∉ cs.take part.length := by
  rwa [← List.prefix_iff_eq_take.mp h]

theorem quoted_spells {quote : Char} (hquote : quote ≠ '\n') {n : Nat} {content cs : List Char}
    {l : Lexeme} (h : quoted quote n content cs = .ok l) :
    (∃ content, l.token = .text content) ∧ ∃ k, l.more = n+k ∧ '\n' ∉ cs.take k := by
  fun_induction quoted quote n content cs with
  | case1 | case3 | case4 | case6 => cases h
  | case2 n content c cs hc =>
    cases h
    refine ⟨⟨_, rfl⟩, 1, rfl, ?_⟩
    simpa [← eq_of_beq hc] using hquote.symm
  | case5 n content c _ hend hescape e cs d hd ih =>
    obtain ⟨htext, k, hmore, hk⟩ := ih h
    have he : e ≠ '\n' := by
      rintro rfl
      cases hd
    refine ⟨htext, k+2, by omega, ?_⟩
    have hc : '\n' ≠ c := fun heq => hend (by simp [← heq])
    simp [hk, hc, he.symm]
  | case7 n content c cs _ hend _ ih =>
    obtain ⟨htext, k, hmore, hk⟩ := ih h
    refine ⟨htext, k+1, by omega, ?_⟩
    have hc : '\n' ≠ c := fun heq => hend (by simp [← heq])
    simp [hk, hc]

theorem not_mem_takeWhile {q : Char → Bool} (hq : q '\n' = false) (cs : List Char) :
    '\n' ∉ cs.takeWhile q := by
  intro hmem
  rw [List.mem_takeWhile_imp hmem] at hq
  cases hq

theorem number_spells (c : Char) (cs : List Char) :
    (∃ digits, (number c cs).token = .number digits) ∧ '\n' ∉ cs.take (number c cs).more := by
  refine ⟨⟨_, rfl⟩, ?_⟩
  have hwhole := not_mem_takeWhile (q := Char.isDigit) rfl cs
  have hprefix := List.takeWhile_prefix Char.isDigit (l := cs)
  simp only [number]
  split
  · next d rest hrest =>
    split
    · next hd =>
      refine not_mem_take ?_ ?_
      · conv_rhs => rw [← List.takeWhile_append_dropWhile (p := Char.isDigit) (l := cs), hrest]
        rw [List.prefix_append_right_inj, List.cons_prefix_cons, List.cons_prefix_cons]
        exact ⟨rfl, rfl, List.takeWhile_prefix _⟩
      · have hd' : '\n' ≠ d := by
          rintro rfl
          cases hd
        have hfraction := not_mem_takeWhile (q := Char.isDigit) rfl rest
        simp [hwhole, hd', hfraction]
    · exact not_mem_take hprefix hwhole
  · exact not_mem_take hprefix hwhole

theorem symbol?_spells {c : Char} {cs : List Char} {l : Lexeme} (h : symbol? (c :: cs) = some l) :
    (∃ s, l.token = .symbol s) ∧ '\n' ∉ c :: cs.take l.more := by
  have htable : ∀ e ∈ symbolTable, '\n' ∉ e.1 ∧ e.1 ≠ [] := by decide
  obtain ⟨⟨chars, s⟩, hfind, rfl⟩ := Option.map_eq_some_iff.mp h
  have hfound := List.find?_some hfind
  have hprefix : chars <+: c :: cs := List.isPrefixOf_iff_prefix.mp hfound
  obtain ⟨hchars, hne⟩ := htable _ (List.mem_of_find?_eq_some hfind)
  refine ⟨⟨s, rfl⟩, ?_⟩
  have htake := not_mem_take hprefix hchars
  rwa [← Nat.sub_add_cancel (List.length_pos_iff.mpr hne), List.take_succ_cons] at htake

theorem lexeme_spells {c : Char} {cs : List Char} {l : Lexeme} (h : lexeme c cs = .ok l) :
    Spells l.token (c :: cs.take l.more) := by
  unfold lexeme at h
  split at h
  · next hc =>
    cases h
    exact ⟨by simp [eq_of_beq hc], by simp⟩
  · next hc =>
    have hfirst : '\n' ≠ c := fun heq => hc (by simp [← heq])
    split at h
    · cases h
      refine .of_not_mem ?_ (by simp [comment]) (by simp [comment])
      have hline := not_mem_takeWhile (q := (· != '\n')) rfl cs
      simpa [comment, hfirst] using not_mem_take (List.takeWhile_prefix _) hline
    · split at h
      · obtain ⟨⟨content, htoken⟩, k, hmore, hk⟩ := quoted_spells hfirst.symm h
        rw [Nat.zero_add] at hmore
        rw [htoken, hmore]
        exact .of_not_mem (by simpa [hfirst] using hk) (by simp) (by simp)
      · split at h
        · cases h
          obtain ⟨⟨digits, htoken⟩, hmore⟩ := number_spells c cs
          rw [htoken]
          exact .of_not_mem (by simpa [hfirst] using hmore) (by simp) (by simp)
        · split at h
          · cases h
            have hpart := not_mem_takeWhile (q := isNamePart) (by decide) cs
            have htake := not_mem_take (List.takeWhile_prefix isNamePart) hpart
            refine .of_not_mem (by simpa [word, hfirst] using htake) ?_ ?_
            · simp only [word]
              split <;> simp
            · simp only [word]
              split <;> simp
          · split at h
            · next hsymbol =>
              cases h
              obtain ⟨⟨s, htoken⟩, hmore⟩ := symbol?_spells hsymbol
              rw [htoken]
              exact .of_not_mem hmore (by simp) (by simp)
            · cases h

/-- Behind the tokens found before come those of the characters left, then the end of file. -/
theorem tokensFrom_ends {pos : Position} {found out : Array Located} {cs : List Char}
    (h : tokensFrom pos found cs = .ok out) :
    ∃ (more : List Located) (last : Position), out.toList = found.toList++more++[⟨.eof, last⟩] ∧
      (more.map (·.token)).count .newline = cs.count '\n' ∧ ∀ t ∈ more, t.token ≠ .eof := by
  fun_induction tokensFrom pos found cs with
  | case1 pos found =>
    cases h
    exact ⟨[], pos, by simp, rfl, by simp⟩
  | case2 pos found c cs hgap ih =>
    obtain ⟨more, last, hout, hcount, hend⟩ := ih h
    have hc : c ≠ '\n' := by
      rintro rfl
      cases hgap
    exact ⟨more, last, hout, by rw [hcount, List.count_cons_of_ne hc], hend⟩
  | case3 pos found c cs _ l hl ih =>
    obtain ⟨more, last, hout, hcount, hend⟩ := ih h
    have hspells := lexeme_spells hl
    refine ⟨⟨l.token, pos⟩ :: more, last, by simp [hout], ?_, ?_⟩
    · calc (l.token :: more.map (·.token)).count .newline
          = [l.token].count .newline+(cs.drop l.more).count '\n' := by
            rw [← hcount, ← List.count_append]
            rfl
        _ = (c :: cs).count '\n' := by
            rw [← hspells.ends, ← List.count_append, List.cons_append, List.take_append_drop]
    · simpa using ⟨hspells.inside, hend⟩
  | case4 => cases h

end Scan

theorem Except.map_eq_ok {ε α β : Type} {x : Except ε α} {f : α → β} {b : β}
    (h : x.map f = .ok b) : ∃ a, x = .ok a ∧ f a = b := by
  cases x with
  | error e => cases h
  | ok a =>
    cases h
    exact ⟨a, rfl, rfl⟩

/-- Up to the end of file the tokens of a script have as many ends of lines as the script. -/
theorem scanCode_ends {source : String} {tokens : List Located} (h : scanCode source = .ok tokens) :
    ((tokens.takeWhile (·.token != .eof)).map (·.token)).count .newline =
      source.toList.count '\n' := by
  obtain ⟨_, hscan, rfl⟩ := Except.map_eq_ok h
  obtain ⟨out, hout, rfl⟩ := Except.map_eq_ok hscan
  obtain ⟨more, last, hmore, hcount, hend⟩ := Scan.tokensFrom_ends hout
  have hcode : (out.toList.filter (!·.isComment)).takeWhile (·.token != .eof) =
      more.filter (!·.isComment) := by
    rw [hmore, List.filter_append]
    have hlast : [(⟨.eof, last⟩ : Located)].filter (!·.isComment) = [⟨.eof, last⟩] := rfl
    rw [hlast, List.takeWhile_append_of_pos]
    · simp
    · intro t ht
      simpa using hend t (by simpa using (List.mem_filter.mp ht).1)
  have hkeep (t : Located) (ht : t.isComment = true) : t.token ≠ .newline := by
    intro hnewline
    simp [Located.isComment, hnewline] at ht
  rw [hcode, ← hcount]
  clear hcode hmore hcount hend
  induction more with
  | nil => rfl
  | cons t more ih =>
    cases hcomment : t.isComment with
    | false => simp [hcomment, List.count_cons, ih]
    | true => simp [hcomment, ih, hkeep t hcomment]

end RatScript
