import RatScript.Proofs.Meaning.DeedPath
import RatScript.Proofs.Meaning.Lexical
import RatScript.Proofs.Token.Joined

/-!
A script below another. Its text stands behind an end of line, its tree goes on where the other ends,
and its deeds come behind those of the other.
-/

namespace RatScript

/-! Tokens. -/

namespace Scan

/-- Tokens that were read stand in front of whatever comes behind them. -/
theorem code_read {read rest : List Located} (h : ∀ t ∈ read, t.token ≠ .eof) :
    ((read++rest).filter (!·.isComment)).takeWhile (·.token != .eof) =
      read.filter (!·.isComment)++(rest.filter (!·.isComment)).takeWhile (·.token != .eof) := by
  rw [List.filter_append, List.takeWhile_append_of_pos]
  exact fun t ht => bne_iff_ne.mpr (h t (List.mem_filter.mp ht).1)

theorem code_lower (n : Nat) (tokens : List Located) :
    (((tokens.map (·.lower n)).filter (!·.isComment)).takeWhile (·.token != .eof)).map (·.token) =
      ((tokens.filter (!·.isComment)).takeWhile (·.token != .eof)).map (·.token) := by
  rw [List.filter_map, List.takeWhile_map, List.map_map]
  rfl

end Scan

/-- The code of two texts with an end of line between them. -/
theorem scanCode_joined {first second : String} {tokens more : List Located}
    (h : scanCode first = .ok tokens) (h' : scanCode second = .ok more) :
    ∃ all, scanCode (first ++ "\n" ++ second) = .ok all ∧
      (all.takeWhile (·.token != .eof)).map (·.token) =
        (tokens.takeWhile (·.token != .eof)).map (·.token)++.newline ::
          (more.takeWhile (·.token != .eof)).map (·.token) := by
  obtain ⟨out, hout, rfl⟩ := scanCode_eq_ok.mp h
  obtain ⟨out', hout', rfl⟩ := scanCode_eq_ok.mp h'
  obtain ⟨read, rfl⟩ := Scan.tokensFrom_finish hout
  have hread (t : Located) (ht : t ∈ read.toList) : t.token ≠ .eof := by
    rw [← Scan.filter_read hout] at ht
    exact bne_iff_ne.mp (List.mem_filter.mp ht).2
  have hchars : (first ++ "\n" ++ second).toList = first.toList ++ '\n' :: second.toList := by simp
  rw [show Position.start.after first.toList = .behind first.toList from
    (Position.behind_append [] first.toList).symm] at hout
  refine ⟨_, scanCode_eq_ok.mpr ⟨_, hchars ▸ Scan.tokensFrom_joined.mpr ⟨read, out', hout, hout', rfl⟩,
    rfl⟩, ?_⟩
  have hnewline (rest : List Located) (pos : Position) :
      (((⟨.newline, pos⟩ :: rest).filter (!·.isComment)).takeWhile (·.token != .eof)).map (·.token) =
        .newline :: ((rest.filter (!·.isComment)).takeWhile (·.token != .eof)).map (·.token) := rfl
  have heof (pos : Position) :
      ([⟨.eof, pos⟩].filter (!Located.isComment ·)).takeWhile (·.token != .eof) = [] := rfl
  simp only [Array.toList_append, Array.toList_push, Array.toList_map, List.append_assoc,
    List.singleton_append, Scan.code_read hread, List.map_append, hnewline, Scan.code_lower, heof,
    List.append_nil]

/-! Trees. -/

namespace Stmt

/-- Lines above others. -/
def above (below : Stmt .block) : {k : StmtKind} → Stmt k → Stmt k
  | _, nil => below
  | _, line first rest => line first (above below rest)
  | _, t => t

variable (below : Stmt .block)

theorem tokens_above : (t : Stmt .block) → (above below t).tokens = t.tokens++below.tokens
  | nil => rfl
  | line first rest => by rw [above, tokens, tokens, tokens_above rest, List.append_assoc]; rfl

theorem deeds_above : (t : Stmt .block) → (above below t).deeds = t.deeds++below.deeds
  | nil => rfl
  | line first rest => by simp only [above, deeds, deeds_above rest, List.append_assoc]

theorem expressions_above :
    (t : Stmt .block) → (above below t).expressions = t.expressions++below.expressions
  | nil => rfl
  | line first rest => by
    rw [above, expressions, expressions, expressions_above rest, List.append_assoc]

end Stmt

namespace Script

variable {t t' : Script} {first second : String}

/-- A script above another one. -/
def above (t t' : Script) : Script where
  lines := Stmt.above (.line (t.last.getD .blank) t'.lines) t.lines
  last := t'.last

theorem tokens_above (t t' : Script) : (t.above t').tokens = t.tokens++.newline :: t'.tokens := by
  obtain ⟨lines, last⟩ := t
  cases last <;> simp [above, tokens, Stmt.tokens_above, Stmt.tokens]

theorem deeds_above (t t' : Script) : (t.above t').deeds = t.deeds++.newline :: t'.deeds := by
  obtain ⟨lines, last⟩ := t
  cases last <;> simp [above, deeds, Stmt.deeds_above, Stmt.deeds]

theorem Binds.above (h : t.Binds) (h' : t'.Binds) : (t.above t').Binds := by
  refine ⟨fun e he => ?_, h'.last⟩
  rw [Script.above, Stmt.expressions_above, Stmt.expressions, List.mem_append, List.mem_append] at he
  rcases he with he | he | he
  · exact h.lines e he
  · cases hlast : t.last with
    | none => simp [hlast, Stmt.expressions] at he
    | some s =>
      rw [hlast] at he
      exact (h.last s hlast).1 e he
  · exact h'.lines e he

theorem Spells.above (h : t.Spells first) (h' : t'.Spells second) :
    (t.above t').Spells (first ++ "
" ++ second) := by
  obtain ⟨tokens, hscan, htokens⟩ := h.tokens
  obtain ⟨more, hscan', hmore⟩ := h'.tokens
  obtain ⟨all, hall, hcode⟩ := scanCode_joined hscan hscan'
  refine ⟨h.binds.above h'.binds, all, hall, ?_⟩
  rw [tokens_above, htokens, hmore, hcode]

end Script

/-! Programs. -/

/-- The text declares no runnable. -/
def DeclaresNone (source : String) : Prop :=
  ∀ tokens ∈ (scanCode source).toOption, ∀ t ∈ tokens, t.token ≠ .keyword .runnable

instance : DecidablePred DeclaresNone := fun source =>
  inferInstanceAs (Decidable (∀ tokens ∈ (scanCode source).toOption, ∀ t ∈ tokens,
    t.token ≠ .keyword .runnable))

theorem Stmt.routines_eq_nil {k : StmtKind} {t : Stmt k} (h : .keyword .runnable ∉ t.tokens)
    (row : Nat) : t.routines row = [] := by
  induction t generalizing row with
  | blank | expression | declare | return_ | nil => rfl
  | runnable => simp [tokens] at h
  | if_ _ _ ih | while_ _ _ ih | repeat_ _ _ ih => exact ih (by simp_all [tokens]) _
  | scope _ ih => exact ih h row
  | ifElse _ _ _ ihyes ihno =>
    rw [routines, ihyes (by simp_all [tokens]), ihno (by simp_all [tokens]), List.append_nil]
  | line _ _ ihfirst ihrest =>
    rw [routines, ihfirst (by simp_all [tokens]), ihrest (by simp_all [tokens]), List.append_nil]

theorem Script.routines_eq_nil {t : Script} (h : .keyword .runnable ∉ t.tokens) :
    t.routines = [] := by
  obtain ⟨lines, last⟩ := t
  rw [tokens, List.mem_append, not_or] at h
  rw [routines, Stmt.routines_eq_nil h.1, List.nil_append]
  cases last with
  | none => rfl
  | some s => exact Stmt.routines_eq_nil h.2 _

theorem Script.Spells.declares_none {t : Script} {source : String} (h : t.Spells source)
    (hnone : DeclaresNone source) : .keyword .runnable ∉ t.tokens := by
  obtain ⟨tokens, hscan, htokens⟩ := h.tokens
  rw [htokens]
  intro hmem
  obtain ⟨l, hl, heq⟩ := List.mem_map.mp hmem
  exact hnone tokens (by rw [hscan]; rfl) l ((List.takeWhile_sublist _).mem hl) heq

theorem Script.Spells.count_newline {t : Script} {source : String} (h : t.Spells source) :
    t.tokens.count .newline = source.toList.count '\n' := by
  obtain ⟨tokens, hscan, htokens⟩ := h.tokens
  rw [htokens, scanCode_ends hscan]

/-- A script without runnables does its deeds, whatever it is compiled to. -/
theorem Script.Spells.enacts {t : Script} {source : String} {p : Program} (ht : t.Spells source)
    (hnone : .keyword .runnable ∉ t.tokens) (h : compile source = .ok p) :
    ∃ f, p.Enacts f t.deeds ∧ p.functions.size = 1 ∧ Deed.total t.deeds = t.tokens.count .newline := by
  have hcompile := h
  unfold compile at h
  obtain ⟨tokens, hscan, htokens⟩ := ht.tokens
  rw [hscan] at h
  obtain ⟨t', s, c, l, top, hbinds, htokens', hcodes, _, _, hread, hfirst, _, hcode⟩ :=
    compileTokens_codes h
  obtain rfl := Script.unique ht.binds hbinds (htokens.trans htokens'.symm)
  obtain ⟨_, _, _, _, hmakes⟩ := ht.makes hcompile
  have hsize : p.functions.size = 1 := by
    rw [hmakes.size_eq, routines_eq_nil hnone]
    rfl
  obtain ⟨b, _, hcovers, rfl⟩ := compileTokens_eq_ok h
  obtain ⟨hverify, script, hscript, hends⟩ := hcovers.verify
  have htells := hcodes.tells hsize
  have haccount : s.read = 0+Directive.total c.directives := hcodes.account.read
  cases hfirst.symm.trans hscript
  cases hfirst.symm.trans hcovers.script.1
  refine ⟨_, ⟨hverify, hfirst, hcovers.script.2, fun x => (hends x).mp, _, hcode, htells⟩, hsize, ?_⟩
  rw [← htells.total_eq, ← hread, haccount, Nat.zero_add]

end RatScript
