import RatScript.Proofs.Compile.OpenBlocks
import RatScript.Proofs.Token.Breaks

/-!
The first lines of a script that is accepted: they are accepted too, or reported for the blocks that
are open at their end, and for nothing else.
-/

namespace RatScript

open Stateful

/-- The blocks that are open at the end of a text, innermost first. -/
def openBlocks (source : String) : List Block :=
  match scanCode source with
  | .ok tokens => Block.openIn (tokens.map (·.token)) []
  | .error _ => []

theorem openBlocks_of_scan {source : String} {tokens : List Located}
    (h : scanCode source = .ok tokens) :
    openBlocks source = Block.openIn (tokens.map (·.token)) [] := by
  rw [openBlocks, h]

namespace Builder

variable {code more : List Located} {finish : Position}

theorem start_of_eof (finish : Position) (hcode : ∀ t ∈ code, t.token ≠ .eof) :
    start (code++[Located.mk .eof finish]) =
      ⟨code.headD ⟨.eof, finish⟩, code, finish, #[.new "<script>" none 0], 0, 0, [], #[]⟩ := by
  have htake : (code++[Located.mk .eof finish]).takeWhile (·.token != .eof) = code := by
    rw [List.takeWhile_append_of_pos fun t ht => by simpa using hcode t ht]
    simp
  have hfind : (code++[Located.mk .eof finish]).find? (·.token == .eof) = some ⟨.eof, finish⟩ := by
    rw [List.find?_append, List.find?_eq_none.mpr fun t ht => by simpa using hcode t ht]
    rfl
  simp only [start, htake, hfind]
  cases code <;> rfl

/-- The start of a script as the start of its first lines with more tokens to come. -/
theorem start_append (finish finish' : Position) (hne : code ≠ [])
    (hcode : ∀ t ∈ code, t.token ≠ .eof)
    (hmore : ∀ t ∈ more, t.token ≠ .eof) :
    start (code++more++[Located.mk .eof finish]) =
      (start (code++[Located.mk .eof finish'])).resume more finish := by
  rw [start_of_eof _ hcode,
    start_of_eof _ fun t ht => (List.mem_append.mp ht).elim (hcode t) (hmore t)]
  obtain ⟨t, ts, rfl⟩ := List.exists_cons_of_ne_nil hne
  rfl

end Builder

namespace Compile

theorem compileTokens_of_script {tokens : List Located} {b : Builder}
    (h : script (.start tokens) = .ok () b) :
    compileTokens tokens =
      if b.diagnostics.isEmpty then .ok ⟨b.functions⟩ else .error b.diagnostics.toList := by
  rw [compileTokens, h]

/-- Tokens of whole lines in front of others that are accepted with them. -/
theorem compileTokens_lines {code more : List Located} {t : Located} {finish finish' : Position}
    {p : Program} (ht : t.token = .newline) (hcode : ∀ t ∈ code, t.token ≠ .eof)
    (hmore : ∀ t ∈ more, t.token ≠ .eof)
    (h : compileTokens (code++[t]++more++[Located.mk .eof finish']) = .ok p) {blocks : List Block}
    (hblocks : Block.openIn ((code++[t]).map (·.token)) [] = blocks) :
    blocks = [] ∧ (∃ q, compileTokens (code++[t]++[Located.mk .eof finish]) = .ok q) ∨
      blocks ≠ [] ∧ compileTokens (code++[t]++[Located.mk .eof finish]) =
        .error (blocks.map (Block.unclosed finish)) := by
  have hlines : ∀ u ∈ code++[t], u.token ≠ .eof := by
    intro u hu
    rcases List.mem_append.mp hu with hu | hu
    · exact hcode u hu
    · rw [List.mem_singleton.mp hu, ht]
      simp
  have hresume := Builder.start_append finish' finish (by simp) hlines hmore
  have hstart := Builder.start_of_eof finish hlines
  obtain ⟨b, hb⟩ := declarations_ok (statementAt maxNesting) []
    (Builder.start (code++[t]++more++[Located.mk .eof finish'])).rest
    (.start (code++[t]++more++[Located.mk .eof finish']))
  rw [compileTokens_of_script hb] at h
  have hsilent : b.diagnostics = #[] := by
    split at h
    · next hempty => simpa using hempty
    · cases h
  rw [hresume] at hb
  generalize hc : Builder.start (code++[t]++[Located.mk .eof finish]) = c at hb hstart
  have hrest : c.rest = code++[t] := by rw [hstart]
  have hfinish : c.finish = finish := by rw [hstart]
  have hline : c.Lined := by
    refine ⟨⟨t, ?_, ht⟩, hrest ▸ hlines⟩
    rw [hrest]
    simp
  obtain ⟨c', hrun, _, hend⟩ := declarations_cut (statementAt_splits maxNesting) [] c.rest
    (.inr hline) (by simp [Builder.resume]) (Nat.le_refl _) hb hsilent
  rcases hend with ⟨_, _, ⟨k, hk, _⟩, _⟩ | ⟨_, inner, hahead, hreports⟩
  · cases hk
  rw [Builder.ahead, hrest, hblocks, List.append_nil] at hahead
  subst hahead
  rw [hfinish] at hreports
  rw [compileTokens_of_script (hc ▸ hrun)]
  cases blocks with
  | nil =>
    rw [List.map_nil, Array.toList_eq_nil_iff] at hreports
    exact .inl ⟨rfl, _, if_pos (by rw [hreports]; rfl)⟩
  | cons k blocks =>
    refine .inr ⟨List.cons_ne_nil _ _, ?_⟩
    rw [hreports, if_neg]
    rw [Array.isEmpty_iff, ← Array.toList_eq_nil_iff, hreports]
    exact List.cons_ne_nil _ _

end Compile

/-- The tokens of a script with an end of line in it, and those of its lines up to there. -/
theorem scanCode_lines {source cut : String} {first second : List Char} {tokens : List Located}
    (hsource : source.toList = first ++ '\n' :: second) (hcut : cut.toList = first++['\n'])
    (h : scanCode source = .ok tokens) :
    ∃ (code more : List Located) (finish : Position),
      tokens = code++[⟨.newline, Position.start.after first⟩]++more++[Located.mk .eof finish] ∧
      scanCode cut = .ok (code++[⟨.newline, Position.start.after first⟩]++
        [Located.mk .eof (Position.start.after cut.toList)]) ∧
      (∀ t ∈ code, t.token ≠ .eof) ∧ ∀ t ∈ more, t.token ≠ .eof := by
  obtain ⟨read, out, hread, hout, rfl⟩ := (scanCode_newline hsource).mp h
  obtain ⟨code, last, hcode, _, hinside⟩ := Scan.tokensFrom_ends hread
  obtain ⟨more, finish, hmore, _, hinside'⟩ := Scan.tokensFrom_ends hout
  have hfinish : (Position.start.after first).advance '\n' = Position.start.after cut.toList := by
    rw [hcut, Scan.after_append]
    rfl
  have hempty (pos : Position) : Scan.tokensFrom pos #[] [] = .ok #[⟨.eof, pos⟩] := by
    rw [Scan.tokensFrom]
    rfl
  have hread' : read.toList = code := by
    rw [Array.toList_push] at hcode
    exact (List.append_inj' hcode rfl).1
  have heof (pos : Position) : (!Located.isComment ⟨.eof, pos⟩) = true := rfl
  refine ⟨code.filter (!·.isComment), more.filter (!·.isComment), finish, ?_, ?_,
    fun t ht => hinside t (List.mem_of_mem_filter ht), fun t ht => hinside' t (List.mem_of_mem_filter ht)⟩
  · have hlast : [Located.mk .eof finish].filter (!·.isComment) = [Located.mk .eof finish] := rfl
    rw [hread', hmore, List.nil_append, List.filter_append, hlast]
    simp
  · refine (scanCode_newline hcut).mpr ⟨read, _, hread, hempty _, ?_⟩
    rw [hread', hfinish]
    simp [heof]

theorem openIn_eof (tokens : List Token) (blocks : List Block) :
    Block.openIn (tokens++[Token.eof]) blocks = Block.openIn tokens blocks := by
  rw [Block.openIn, List.foldl_append]
  rfl

theorem scanCode_empty : scanCode "" = .ok [⟨.eof, .start⟩] := by
  rw [scanCode_eq_ok]
  exact ⟨#[⟨.eof, .start⟩], by simp [Scan.tokensFrom], rfl⟩

/-- Whole lines from the start of a script that is accepted. -/
theorem compile_lines {source cut rest : String} {p : Program} (hsource : source = cut++rest)
    (hlines : cut = "" ∨ ∃ body, cut = body++"\n") (h : compile source = .ok p) :
    openBlocks cut = [] ∧ (∃ q, compile cut = .ok q) ∨
      openBlocks cut ≠ [] ∧ compile cut =
        .error ((openBlocks cut).map (Block.unclosed (Position.start.after cut.toList))) := by
  rcases hlines with rfl | ⟨body, rfl⟩
  · refine .inl ⟨by rw [openBlocks_of_scan scanCode_empty]; rfl, ?_⟩
    exact ⟨_, by rw [compile, scanCode_empty]; rfl⟩
  have hchars : source.toList = body.toList ++ '\n' :: rest.toList := by simp [hsource]
  have hcut : (body++"\n").toList = body.toList ++ '\n' :: [] := by simp
  unfold compile at h
  cases hscan : scanCode source with
  | error e =>
    rw [hscan] at h
    cases h
  | ok tokens =>
    rw [hscan] at h
    obtain ⟨code, more, finish, rfl, hscancut, hcode, hmore⟩ := scanCode_lines hchars hcut hscan
    have hopen : openBlocks (body++"\n") = Block.openIn ((code++
        [Located.mk .newline (Position.start.after body.toList)]).map (·.token)) [] := by
      rw [openBlocks_of_scan hscancut, List.map_append, List.map_singleton, openIn_eof]
    rw [compile, hscancut, hopen]
    exact Compile.compileTokens_lines rfl hcode hmore h rfl

end RatScript
