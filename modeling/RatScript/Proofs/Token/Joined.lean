import RatScript.Proofs.Token.Breaks
import RatScript.Proofs.Token.Layout

/-!
Scripts joined at an end of line: the tokens of both, those of the second further down.
-/

namespace RatScript

/-- The same place so many lines further down. -/
def Position.lower (n : Nat) (p : Position) : Position := ⟨p.line+n, p.col⟩

def Located.lower (n : Nat) (t : Located) : Located := ⟨t.token, t.pos.lower n⟩

namespace Position

theorem lower_advance (n : Nat) (p : Position) (c : Char) :
    (p.lower n).advance c = (p.advance c).lower n := by
  unfold advance lower
  split
  · simp only [Nat.add_right_comm]
  · rfl

theorem lower_after (n : Nat) (p : Position) (cs : List Char) :
    (p.lower n).after cs = (p.after cs).lower n := by
  induction cs generalizing p with
  | nil => rfl
  | cons c cs ih =>
    have hc := ih (p.advance c)
    rw [← lower_advance] at hc
    exact hc

/-- Behind an end of line the columns start again. -/
theorem behind_newline (cs : List Char) : (behind cs).advance '\n' = start.lower (cs.count '\n'+1) := by
  simp [behind, advance, lower, start, Nat.add_comm]

end Position

namespace Scan

/-- Further down the same tokens are found. -/
theorem tokensFrom_lower {n : Nat} {pos : Position} {found out : Array Located} {cs : List Char} :
    tokensFrom (pos.lower n) (found.map (·.lower n)) cs = .ok out ↔
      ∃ tokens, tokensFrom pos found cs = .ok tokens ∧ out = tokens.map (·.lower n) := by
  fun_induction tokensFrom pos found cs with
  | case1 pos found =>
    rw [tokensFrom]
    simp [Located.lower, eq_comm]
  | case2 pos found c cs hgap ih => rw [tokensFrom, if_pos hgap, Position.lower_advance, ih]
  | case3 pos found c cs hgap l hl ih =>
    rw [tokensFrom, if_neg hgap, hl, ← ih, Array.map_push, ← Position.lower_after]
    rfl
  | case4 pos found c cs hgap stop hstop =>
    rw [tokensFrom, if_neg hgap, hstop]
    simp

/-- What is found ends where the characters do. -/
theorem tokensFrom_finish {pos : Position} {found out : Array Located} {cs : List Char}
    (h : tokensFrom pos found cs = .ok out) :
    ∃ read : Array Located, out = read.push ⟨.eof, pos.after cs⟩ := by
  fun_induction tokensFrom pos found cs with
  | case1 pos found =>
    cases h
    exact ⟨found, rfl⟩
  | case2 pos found c cs _ ih => exact ih h
  | case3 pos found c cs _ l _ ih =>
    obtain ⟨read, hread⟩ := ih h
    rw [← after_append, List.cons_append, List.take_append_drop] at hread
    exact ⟨read, hread⟩
  | case4 => cases h

/-- Without its end of file, what is found is what was read. -/
theorem filter_read {pos last : Position} {read : Array Located} {cs : List Char}
    (h : tokensFrom pos #[] cs = .ok (read.push ⟨.eof, last⟩)) :
    (read.push ⟨.eof, last⟩).toList.filter (·.token != .eof) = read.toList := by
  obtain ⟨more, end_, hmore, _, hend⟩ := tokensFrom_ends h
  have hread : read.toList = more := by simpa using congrArg List.dropLast hmore
  have hkeep : more.filter (·.token != .eof) = more :=
    List.filter_eq_self.mpr fun t ht => bne_iff_ne.mpr (hend t ht)
  rw [Array.toList_push, List.filter_append, hread, hkeep]
  exact List.append_nil _

/-- The second of two texts is read as it is by itself, further down. -/
theorem tokensFrom_joined {first second : List Char} {out : Array Located} :
    tokensFrom .start #[] (first ++ '\n' :: second) = .ok out ↔
      ∃ (read more : Array Located),
        tokensFrom .start #[] first = .ok (read.push ⟨.eof, .behind first⟩) ∧
        tokensFrom .start #[] second = .ok more ∧
        out = read.push ⟨.newline, .behind first⟩ ++ more.map (·.lower (first.count '\n'+1)) := by
  have hafter : Position.start.after first = .behind first := (Position.behind_append [] first).symm
  have hlower (out : Array Located) :
      tokensFrom ((Position.behind first).advance '\n') #[] second = .ok out ↔
        ∃ more, tokensFrom .start #[] second = .ok more ∧
          out = more.map (·.lower (first.count '\n'+1)) := by
    rw [Position.behind_newline, ← tokensFrom_lower, Array.map_empty]
  rw [tokensFrom_newline, hafter]
  refine exists_congr fun read => ?_
  rw [exists_and_left, tokensFrom_found _ (read.push _)]
  refine and_congr_right fun _ => ?_
  constructor
  · intro h
    obtain ⟨rest, hrest, rfl⟩ := Except.map_eq_ok h
    obtain ⟨more, hmore, rfl⟩ := (hlower rest).mp hrest
    exact ⟨more, hmore, rfl⟩
  · rintro ⟨more, hmore, rfl⟩
    rw [(hlower _).mpr ⟨more, hmore, rfl⟩]
    rfl

end Scan

theorem scan_toOption_eq_some {source : String} {tokens : List Located} :
    (scan source).toOption = some tokens ↔
      ∃ out, Scan.tokensFrom .start #[] source.toList = .ok out ∧ out.toList = tokens := by
  unfold scan
  cases Scan.tokensFrom .start #[] source.toList <;> simp [Except.map, Except.toOption]

/-- A script that goes on behind an end of line is scanned exactly if what stands before it is and what
stands behind it is. -/
theorem scan_joined (first second : String) :
    (scan (first ++ "\n" ++ second)).toOption =
      (scan first).toOption.bind fun tokens => (scan second).toOption.map fun more =>
        tokens.filter (·.token != .eof) ++ ⟨.newline, .behind first.toList⟩ ::
          more.map (·.lower (first.toList.count '\n'+1)) := by
  have hchars : (first ++ "\n" ++ second).toList = first.toList ++ '\n' :: second.toList := by simp
  ext tokens
  simp only [Option.bind_eq_some_iff, Option.map_eq_some_iff, scan_toOption_eq_some, hchars,
    Scan.tokensFrom_joined]
  constructor
  · rintro ⟨_, ⟨read, more, hfirst, hsecond, rfl⟩, rfl⟩
    refine ⟨_, ⟨_, hfirst, rfl⟩, _, ⟨more, hsecond, rfl⟩, ?_⟩
    rw [Scan.filter_read hfirst]
    simp
  · rintro ⟨_, ⟨out, hfirst, rfl⟩, _, ⟨more, hsecond, rfl⟩, rfl⟩
    obtain ⟨read, rfl⟩ := Scan.tokensFrom_finish hfirst
    rw [Scan.filter_read hfirst]
    rw [show Position.start.after first.toList = .behind first.toList from
      (Position.behind_append [] first.toList).symm] at hfirst
    exact ⟨_, ⟨read, more, hfirst, hsecond, rfl⟩, by simp⟩

end RatScript
