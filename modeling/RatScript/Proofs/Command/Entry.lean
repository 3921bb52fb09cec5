import RatScript.Command.Run
import RatScript.Proofs.Compile.FirstLines
import RatScript.Proofs.Syntax.Nesting

/-!
Scripts that break off at the end of a line, and dialogues: the lines of a block are kept until the
last of them is there, and then the block is run.
-/

namespace RatScript

/-! A line without anything in it. -/

namespace Scan

theorem isBlank_of_trim {cs : List Char} (h : Text.trim cs = []) :
    ∀ c ∈ cs, Text.isBlank c = true := by
  have hback : (cs.dropWhile Text.isBlank).reverse.dropWhile Text.isBlank = [] :=
    List.reverse_eq_nil_iff.mp h
  intro c hc
  rw [← List.takeWhile_append_dropWhile (p := Text.isBlank) (l := cs)] at hc
  rcases List.mem_append.mp hc with hc | hc
  · exact List.mem_takeWhile_imp hc
  · exact List.dropWhile_eq_nil_iff.mp hback c (List.mem_reverse.mpr hc)

/-- A token that starts with white space is neither a keyword nor a comment. -/
theorem lexeme_blank {c : Char} {cs : List Char} {l : Lexeme} (hc : Text.isBlank c = true)
    (h : lexeme c cs = .ok l) :
    Located.isComment ⟨l.token, .start⟩ = false ∧ ∀ k, l.token ≠ .keyword k := by
  have hwords (k : Keyword) : ∀ c ∈ k.spelling.toList.head?, Text.isBlank c = false := by
    cases k <;> simp [Keyword.spelling] <;> decide
  unfold lexeme at h
  split at h
  · cases h
    exact ⟨rfl, by simp⟩
  · split at h
    · next hremark =>
      rw [eq_of_beq hremark] at hc
      exact absurd hc (by decide)
    · next hnewline _ =>
      have hfirst : c ≠ '\n' := by simpa using hnewline
      split at h
      · obtain ⟨⟨content, htoken⟩, _⟩ := quoted_spells hfirst h
        exact ⟨by rw [htoken]; rfl, by simp [htoken]⟩
      · split at h
        · cases h
          exact ⟨rfl, by simp [number]⟩
        · split at h
          · cases h
            simp only [word]
            cases hk : Keyword.ofSpelling? (String.ofList (c :: cs.takeWhile isNamePart)) with
            | none => exact ⟨rfl, by simp⟩
            | some k =>
              have hspelled := List.find?_some hk
              have hfirst := hwords k c (by
                rw [eq_of_beq hspelled, String.toList_ofList]
                rfl)
              rw [hfirst] at hc
              cases hc
          · split at h
            · next hsymbol =>
              cases h
              obtain ⟨⟨s, htoken⟩, _⟩ := symbol?_spells hsymbol
              exact ⟨by rw [htoken]; rfl, by simp [htoken]⟩
            · cases h

/-- The first token behind a blank line is no keyword. -/
theorem tokensFrom_blank {pos : Position} {cs rest : List Char} {out : Array Located}
    (hcs : ∀ c ∈ cs, Text.isBlank c = true)
    (h : tokensFrom pos #[] (cs ++ '\n' :: rest) = .ok out) :
    ∃ t more, out.toList = t :: more ∧ t.isComment = false ∧ ∀ k, t.token ≠ .keyword k := by
  have hfirst {t : Located} {pos : Position} {cs : List Char}
      (h : tokensFrom pos #[t] cs = .ok out) : ∃ more, out.toList = t :: more := by
    rw [tokensFrom_found] at h
    obtain ⟨more, _, rfl⟩ := Except.map_eq_ok h
    exact ⟨more.toList, by simp⟩
  induction cs generalizing pos with
  | nil =>
    have hline : lexeme '\n' rest = .ok ⟨.newline, 0⟩ := rfl
    rw [List.nil_append, tokensFrom, if_neg (by decide), hline] at h
    obtain ⟨more, hmore⟩ := hfirst h
    exact ⟨_, more, hmore, rfl, by simp⟩
  | cons c cs ih =>
    rw [List.cons_append, tokensFrom] at h
    split at h
    · exact ih (fun c hc => hcs c (List.mem_cons_of_mem _ hc)) h
    · cases hl : lexeme c (cs ++ '\n' :: rest) with
      | error stop =>
        rw [hl] at h
        cases h
      | ok l =>
        rw [hl] at h
        obtain ⟨more, hmore⟩ := hfirst h
        obtain ⟨hcomment, hkeyword⟩ := lexeme_blank (hcs c (List.mem_cons_self ..)) hl
        exact ⟨_, more, hmore, hcomment, hkeyword⟩

end Scan

namespace Dialogue

/-- The text of an entry. -/
def joined (lines : List String) : String := String.join (lines.map (·++"\n"))

theorem joined_cons (line : String) (lines : List String) :
    joined (line :: lines) = line++"\n"++joined lines := by
  simp [joined]

/-- The prompts for the lines of an entry, behind what is kept of it already. -/
def prompts (pending : String) : Nat → List String
  | 0 => []
  | n+1 => prompt pending :: List.replicate n ".. "

end Dialogue

namespace Command

open Dialogue

variable {inputs : List (List UInt8)} {lines : List String}

/-- The bytes read are these lines, as they are meant. -/
def Reads (inputs : List (List UInt8)) (lines : List String) : Prop :=
  List.Forall₂ (fun bytes line => ∃ text, textOfBytes? bytes = some text ∧ heed text = line) inputs lines

/-- The machine after a program was run on it in a dialogue. -/
def perform (listing : Bool) (turns : Nat) (p : Program) (m : Machine) : Machine :=
  ((if listing then m.print p.listing else m).runAndReport p turns).2

/-- Lines are kept as long as a block is open in them, and run with the last one. -/
theorem converse_entry (listing : Bool) (turns : Nat) (m : Machine) {pending : String} {p : Program}
    (rest : List (List UInt8)) (hreads : Reads inputs lines) (hne : lines ≠ [])
    (hblank : pending = "" → ∀ line ∈ lines.head?, Text.trim line.toList ≠ [])
    (hkept : ∀ kept more, lines = kept++more → kept ≠ [] → more ≠ [] →
      ∃ ds, compile (pending++joined kept) = .error ds ∧ isUnclosed ds = true)
    (hrun : compile (pending++joined lines) = .ok p) :
    converse listing turns m pending (inputs++rest) = converse listing turns
      (perform listing turns p ((prompts pending lines.length).foldl Machine.print m)) "" rest := by
  induction hreads generalizing pending m with
  | nil => exact absurd rfl hne
  | @cons bytes line inputs lines hread hreads ih =>
    obtain ⟨text, htext, rfl⟩ := hread
    have hasked : ¬(pending = "" ∧ Text.trim (heed text).toList = []) := fun ⟨hnone, htrim⟩ =>
      hblank hnone _ rfl htrim
    rw [List.cons_append, converse, htext]
    dsimp only
    rw [enter, if_neg hasked]
    dsimp only
    cases lines with
    | nil =>
      cases hreads
      have hentry : pending++joined [heed text] = pending++heed text++"\n" := by
        rw [joined_cons, ← String.append_assoc, ← String.append_assoc]
        simp [joined]
      rw [← hentry, hrun]
      rfl
    | cons next lines =>
      obtain ⟨ds, hds, hunclosed⟩ := hkept [heed text] (next :: lines) rfl (by simp) (by simp)
      have hentry (more : List String) :
          pending++heed text++"\n"++joined more = pending++joined (heed text :: more) := by
        rw [joined_cons, ← String.append_assoc, ← String.append_assoc]
      have hentered : pending++heed text++"\n" = pending++joined [heed text] := by
        rw [← hentry]
        simp [joined]
      have hpending : pending++heed text++"\n" ≠ "" := by
        intro hnone
        have hlength := congrArg String.length hnone
        simp at hlength
      rw [hentered, hds]
      dsimp only
      rw [if_pos hunclosed, ← hentered]
      dsimp only
      rw [ih (m.print (prompt pending)) (by simp) (fun hnone => absurd hnone hpending) ?_ ?_]
      · simp [prompts, prompt, List.replicate_succ]
      · intro kept more hmore hkeptne hmorene
        rw [hentry]
        exact hkept (heed text :: kept) more (by rw [hmore]; rfl) (by simp) hmorene
      · rw [hentry]
        exact hrun

end Command

/-- The text is one statement and the end of its line, and the statement is a block. -/
def IsBlockText (source : String) : Prop :=
  ∃ (tokens : List Located) (t : Stmt .statement), scanCode source = .ok tokens ∧ t.IsBlock ∧
    tokens.map (·.token) = t.tokens++[.newline, .eof]

theorem Stmt.IsBlock.exists_keywords {t : Stmt .statement} (h : t.IsBlock) :
    ∃ k l ts, t.tokens = .keyword k :: (ts++[Token.keyword l]) := by
  cases h <;> exact ⟨_, _, _, rfl⟩

namespace Dialogue

theorem exists_body {lines : List String} (hne : lines ≠ []) :
    ∃ body, joined lines = body++"\n" := by
  obtain ⟨init, last, rfl⟩ := (List.eq_nil_or_concat lines).resolve_left hne
  exact ⟨joined init++last, by simp [joined, String.append_assoc]⟩

theorem joined_append (kept more : List String) : joined (kept++more) = joined kept++joined more := by
  simp [joined]

/-- A block does not start with an empty line. -/
theorem trim_ne_nil {line rest : String} (h : IsBlockText (line++"\n"++rest)) :
    Text.trim line.toList ≠ [] := by
  intro hblank
  obtain ⟨tokens, t, hscan, hblock, htokens⟩ := h
  obtain ⟨out, hout, rfl⟩ := scanCode_eq_ok.mp hscan
  have hchars : (line++"\n"++rest).toList = line.toList ++ '\n' :: rest.toList := by simp
  rw [hchars] at hout
  obtain ⟨u, more, hmore, hcomment, hkeyword⟩ :=
    Scan.tokensFrom_blank (Scan.isBlank_of_trim hblank) hout
  obtain ⟨k, l, ts, hts⟩ := hblock.exists_keywords
  rw [hmore, hts, List.filter_cons, if_pos (by rw [hcomment]; rfl)] at htokens
  exact hkeyword k (List.cons.inj htokens).1

/-- Wherever a block is cut at the end of a line, there is a block open. -/
theorem openBlocks_ne_nil {kept more : List String} (h : IsBlockText (joined kept++joined more))
    (hkept : kept ≠ []) (hmore : more ≠ []) : openBlocks (joined kept) ≠ [] := by
  obtain ⟨tokens, t, hscan, hblock, htokens⟩ := h
  obtain ⟨body, hbody⟩ := exists_body hkept
  obtain ⟨body', hbody'⟩ := exists_body hmore
  have hchars : (joined kept++joined more).toList = body.toList ++ '\n' :: (joined more).toList := by
    simp [hbody]
  have hcut : (joined kept).toList = body.toList++['\n'] := by simp [hbody]
  obtain ⟨code, behind, finish, rfl, hscancut, hcode, hbehind⟩ := scanCode_lines hchars hcut hscan
  generalize hline : Located.mk .newline (Position.start.after body.toList) = line at *
  have hnewline : line.token = .newline := by rw [← hline]
  -- a line is missing at the cut, and with it the token that ends it
  have hmissing : behind ≠ [] := by
    rintro rfl
    have hall := scanCode_ends hscan
    have hpart := scanCode_ends hscancut
    have htake (pos : Position) : (code++[line]++[Located.mk .eof pos]).takeWhile (·.token != .eof) =
        code++[line] := by
      rw [List.takeWhile_append_of_pos]
      · simp
      · intro u hu
        rcases List.mem_append.mp hu with hu | hu
        · simpa using hcode u hu
        · simp [List.mem_singleton.mp hu, hnewline]
    rw [List.append_nil, htake] at hall
    rw [htake, hall, String.toList_append, List.count_append] at hpart
    have hends : 0 < (joined more).toList.count '\n' := by simp [hbody']
    omega
  rw [openBlocks_of_scan hscancut, List.map_append, List.map_singleton, openIn_eof]
  have hread : (code++[line]).map (·.token)++behind.map (·.token) = t.tokens++[Token.newline] := by
    have hall : (code++[line]).map (·.token)++behind.map (·.token)++[Token.eof] =
        t.tokens++[Token.newline]++[Token.eof] := by simpa using htokens
    exact (List.append_inj' hall rfl).1
  obtain ⟨k, l, ts, hts⟩ := hblock.exists_keywords
  have hinside : (code++[line]).map (·.token) <+: t.tokens := by
    rcases Block.prefix_append_cases ⟨_, hread⟩ with hinside | ⟨ws, hws, hend⟩
    · exact hinside
    · rcases List.prefix_cons_iff.mp hend with rfl | ⟨ws', rfl, _⟩
      · rw [hws, List.append_nil]
      · have hlength := congrArg List.length hread
        rw [hws] at hlength
        simp only [List.length_append, List.length_cons, List.length_nil, List.length_map] at hlength
        exact absurd (List.eq_nil_of_length_eq_zero (by omega)) hmissing
  have hproper : (code++[line]).map (·.token) ≠ t.tokens := by
    intro heq
    rw [hts, List.map_append, List.map_singleton, ← List.cons_append] at heq
    have hlast := (List.append_inj' heq rfl).2
    rw [hnewline] at hlast
    cases hlast
  obtain ⟨k, hk⟩ := hblock.enclosed.inside [] _ hinside (by simp) hproper
  exact List.ne_nil_of_mem (hk.subset (List.mem_singleton_self k))

end Dialogue

/-- A loop with a choice in it. -/
def looped : List String :=
  ["while none: # never", "if true:", "print(1)", "else:", "print(2)", "endif", "endwhile"]

theorem isBlockText_looped : IsBlockText (Dialogue.joined looped) := by
  let shown (digits : String) : Stmt .scope := .scope (.line (.expression
    (.head (.call "print" (.cons (.head (.number digits)) .nil)))) .nil)
  have htokens : (scanCode (Dialogue.joined looped)).toOption.map (·.map (·.token)) =
      some ((Stmt.while_ (.head (.literal none)) (.scope (.line (.ifElse (.head (.literal (some true)))
        (shown "1") (shown "2")) .nil))).tokens++[Token.newline, .eof]) := by decide +kernel
  cases hscan : scanCode (Dialogue.joined looped) with
  | error e => simp [hscan, Except.toOption] at htokens
  | ok tokens =>
    rw [hscan] at htokens
    exact ⟨tokens, _, hscan, .while_ _ _, Option.some.inj htokens⟩

end RatScript
