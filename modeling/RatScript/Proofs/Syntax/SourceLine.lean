import RatScript.Proofs.Compile.Acceptance
import RatScript.Proofs.Machine.Pointers
import RatScript.Proofs.Syntax.Lines
import RatScript.Proofs.Syntax.Script
import RatScript.Proofs.Token.Scan

/-!
Source lines of a compiled program. The notes of a script hold every instruction of every function
once, and the line that replaying markers gives for an instruction is the one it was written on. A
fault of a run is given the line of the instruction that failed.
-/

namespace RatScript

open Directive (size encode place)

namespace Directive

/-- A note of a ledger is about the directive behind some of the others. -/
theorem split_of_ledger {function offset read : Nat} {ds : List Directive} {n : Note}
    (h : n ∈ ledger function offset read ds) :
    ∃ before after, ds = before++after ∧
      n = ⟨function, offset+size before, read+total before⟩ := by
  induction ds generalizing offset read with
  | nil => simp [ledger] at h
  | cons d ds ih =>
    rcases List.mem_cons.mp h with rfl | h
    · exact ⟨[], d :: ds, rfl, rfl⟩
    · obtain ⟨before, after, rfl, rfl⟩ := ih h
      exact ⟨d :: before, after, rfl, by simp [Nat.add_assoc]⟩

theorem offsets_ledger (function offset read : Nat) (ds : List Directive) :
    (ledger function offset read ds).map (·.offset) = (place offset ds).map (·.offset) := by
  induction ds generalizing offset read with
  | nil => rfl
  | cons d ds ih => simp [ledger, place, ih, at_]

theorem foldl_lines (offset line : Nat) (ds : List Directive) :
    (place offset ds).foldl (fun line i => line+i.lines) line = line+total ds := by
  induction ds generalizing offset line with
  | nil => rfl
  | cons d ds ih => simp [place, ih, Nat.add_assoc]

/-- The line within a chunk, behind some of its directives. -/
theorem lineAt_encode {chunk : Chunk} {before after : List Directive}
    (h : chunk.code.toList = encode (before++after)) :
    chunk.lineAt (size before) = 1+total before := by
  have hbefore : (place 0 before).filter (·.offset < size before) = place 0 before := by
    rw [List.filter_eq_self]
    intro i hi
    have hbounds := place_bounds hi
    simp only [Instruction.next, Opcode.width] at hbounds
    simp only [decide_eq_true_eq]
    omega
  have hafter : (place (size before) after).filter (·.offset < size before) = [] := by
    rw [List.filter_eq_nil_iff]
    intro i hi
    simpa using (place_bounds hi).1
  rw [Chunk.lineAt, Chunk.instructions, decode_encode h, place_append, List.filter_append, hbefore,
    Nat.zero_add, hafter, List.append_nil, foldl_lines]

/-- The line of a definition that no other one of the same runnable stands before. -/
theorem definitionLine?_place {chunk : Chunk} {id line offset : Nat} {before after : List Directive}
    {index : UInt8} {lines : UInt16}
    (hother : ∀ i ∈ definitions before, chunk.constant? i ≠ some (.runnable id))
    (hindex : chunk.constant? index = some (.runnable id)) :
    chunk.definitionLine? id line (place offset (before++.defineRunnable index lines :: after)) =
      some (line+total before) := by
  induction before generalizing line offset with
  | nil => simp [place, Chunk.definitionLine?, at_, defineRunnable, hindex]
  | cons d before ih =>
    rw [List.cons_append, place, Chunk.definitionLine?]
    have hrest : chunk.definitionLine? id (line+d.lines)
        (place (offset+d.width) (before++.defineRunnable index lines :: after)) =
        some (line+d.lines+total before) := by
      refine ih fun i hi => hother i ?_
      simp only [definitions, List.filterMap_cons]
      split <;> simp_all [definitions]
    split
    · next j _ hoperand =>
      have hj : chunk.constant? j ≠ some (.runnable id) := by
        apply hother
        have hd : d.operand = .runnable j _ := hoperand
        simp [definitions, hd]
      rw [if_neg hj, lines_at, hrest, total_cons, Nat.add_assoc]
    · rw [lines_at, hrest, total_cons, Nat.add_assoc]

end Directive

theorem Program.sourceLine_eq {p : Program} {id : Nat} {f : Function}
    (hf : p.functions[id]? = some f) (offset : Nat) :
    p.sourceLine id offset = p.startLine id+f.chunk.lineAt offset-1 := by
  simp only [sourceLine, function?, hf]

/-- A script and its runnables, with the notes about all their instructions. -/
structure Program.Noted (p : Program) (s : Site) (ds : List Directive) (l : List Note) : Prop where
  account : Note.Account p .start s ds l
  complete : s.functions = p.functions.size
  script : ∃ f, p.functions[0]? = some f ∧ f.enclosing = none ∧ f.chunk.code.toList = encode ds

namespace Program.Noted

variable {p : Program} {s : Site} {ds : List Directive} {l : List Note}

/-- Each runnable is defined once. -/
theorem defined_once (h : p.Noted s ds l) {id : Nat} {before after : List Directive} {index : UInt8}
    {lines : UInt16} (hsplit : ds = before++.defineRunnable index lines :: after)
    (hindex : p.constant? 0 index = some (.runnable id)) :
    ∀ i ∈ Directive.definitions before, p.constant? 0 i ≠ some (.runnable id) := by
  have hnodup : ((Directive.definitions ds).map (p.constant? 0)).Nodup := by
    rw [show p.constant? 0 = p.constant? Site.start.function from rfl, h.account.defines]
    refine List.Nodup.map ?_ List.nodup_range'
    intro a b hab
    simpa using hab
  have hdefinitions : Directive.definitions ds =
      Directive.definitions before++index :: Directive.definitions after := by
    rw [hsplit, Directive.definitions_append]
    rfl
  rw [hdefinitions, List.map_append, List.map_cons] at hnodup
  intro i hi hconst
  have hdisjoint := (List.nodup_append.mp hnodup).2.2
  exact hdisjoint _ (List.mem_map_of_mem hi) _ List.mem_cons_self (hconst.trans hindex.symm)

theorem startLine_script (h : p.Noted s ds l) : p.startLine 0 = 1 := by
  obtain ⟨f, hf, henclosing, _⟩ := h.script
  unfold startLine
  simp [function?, hf, henclosing]

/-- A runnable begins on the line of its definition. -/
theorem startLine_runnable (h : p.Noted s ds l) {id : Nat} {f : Function}
    {before after : List Directive} {index : UInt8} {lines : UInt16} (hid : 0 < id)
    (hf : p.functions[id]? = some f) (henclosing : f.enclosing = some 0)
    (hsplit : ds = before++.defineRunnable index lines :: after)
    (hindex : p.constant? 0 index = some (.runnable id)) :
    p.startLine id = 1+Directive.total before := by
  obtain ⟨script, hscript, _, hcode⟩ := h.script
  have hconst (i : UInt8) : p.constant? 0 i = script.chunk.constant? i := by
    simp [constant?, hscript]
  have hline : script.chunk.runnableLine? id = some (1+Directive.total before) := by
    rw [Chunk.runnableLine?, Chunk.instructions, Directive.decode_encode hcode, hsplit]
    apply Directive.definitionLine?_place
    · intro i hi
      rw [← hconst]
      exact h.defined_once hsplit hindex i hi
    · rw [← hconst]
      exact hindex
  unfold startLine
  simp only [function?, hf, henclosing, hid, hscript, hline, h.startLine_script, if_true,
    Option.getD_some]
  omega

/-- Notes of a function: those of its directives, from the line its code begins on. -/
theorem notes_of_function (h : p.Noted s ds l) {id : Nat} {f : Function}
    (hf : p.functions[id]? = some f) :
    ∃ (body : List Directive) (read : Nat), f.chunk.code.toList = encode body ∧
      p.startLine id = 1+read ∧
      l.filter (·.function = id) = Directive.ledger id 0 read body := by
  rcases Nat.eq_zero_or_pos id with rfl | hid
  · obtain ⟨script, hscript, _, hcode⟩ := h.script
    rw [hscript] at hf
    cases hf
    exact ⟨ds, 0, hcode, h.startLine_script, h.account.own⟩
  · have hlt : id < s.functions := by
      rw [h.complete]
      exact (Array.getElem?_eq_some_iff.mp hf).1
    obtain ⟨g, body, index, lines, before, after, hg, henclosing, hcode, hsplit, hindex, hnotes⟩ :=
      h.account.bodies id hid hlt
    rw [hf] at hg
    cases hg
    refine ⟨body, _, hcode, ?_, hnotes⟩
    rw [h.startLine_runnable hid hf henclosing hsplit hindex]
    exact congrArg (1+·) (Nat.zero_add _).symm

/-- The notes hold every instruction of every function once, in order. -/
theorem offsets (h : p.Noted s ds l) {id : Nat} {f : Function} (hf : p.functions[id]? = some f) :
    (l.filter (·.function = id)).map (·.offset) = f.chunk.instructions.map (·.offset) := by
  obtain ⟨body, read, hcode, _, hnotes⟩ := h.notes_of_function hf
  rw [hnotes, Directive.offsets_ledger, Chunk.instructions, Directive.decode_encode hcode]

theorem function_of_mem (h : p.Noted s ds l) {n : Note} (hn : n ∈ l) :
    ∃ f, p.functions[n.function]? = some f := by
  have hlt : n.function < p.functions.size := by
    have hcomplete := h.complete
    have hfunctions := h.account.functions
    have hstart : Site.start.functions = 1 ∧ Site.start.function = 0 := ⟨rfl, rfl⟩
    have hother := h.account.others n hn
    omega
  exact ⟨_, Array.getElem?_eq_getElem hlt⟩

/-- The source line of an instruction is the one it was written on. -/
theorem sourceLine_of_mem (h : p.Noted s ds l) {n : Note} (hn : n ∈ l) :
    p.sourceLine n.function n.offset = 1+n.read := by
  obtain ⟨f, hf⟩ := h.function_of_mem hn
  obtain ⟨body, read, hcode, hstart, hnotes⟩ := h.notes_of_function hf
  have hmem : n ∈ Directive.ledger n.function 0 read body := by
    rw [← hnotes]
    exact List.mem_filter.mpr ⟨hn, by simp⟩
  obtain ⟨before, after, rfl, heq⟩ := Directive.split_of_ledger hmem
  have hline : f.chunk.lineAt n.offset = 1+Directive.total before := by
    rw [heq, Nat.zero_add]
    exact Directive.lineAt_encode hcode
  have hread : n.read = read+Directive.total before := congrArg Note.read heq
  rw [sourceLine_eq hf, hstart, hline]
  omega

/-- The end of the script is on the line behind all that was read. -/
theorem sourceLine_end (h : p.Noted s ds l) {f : Function} (hf : p.functions[0]? = some f) :
    p.sourceLine 0 f.chunk.code.size = 1+s.read := by
  obtain ⟨g, hg, _, hcode⟩ := h.script
  rw [hf] at hg
  cases hg
  have hsize : f.chunk.code.size = size ds := by
    rw [← Directive.length_encode, ← hcode, Array.length_toList]
  have hline : f.chunk.lineAt (size ds) = 1+Directive.total ds :=
    Directive.lineAt_encode (by rw [List.append_nil]; exact hcode)
  have hread : s.read = 0+Directive.total ds := h.account.read
  rw [sourceLine_eq hf, h.startLine_script, hsize, hline]
  omega

/-- An instruction's offset has a note. -/
theorem exists_note (h : p.Noted s ds l) {id : Nat} {f : Function} (hf : p.functions[id]? = some f)
    {i : Instruction} (hi : i ∈ f.chunk.instructions) :
    ∃ n ∈ l, n.function = id ∧ n.offset = i.offset := by
  have hmem : i.offset ∈ (l.filter (·.function = id)).map (·.offset) := by
    rw [h.offsets hf]
    exact List.mem_map_of_mem hi
  obtain ⟨n, hn, hoffset⟩ := List.mem_map.mp hmem
  obtain ⟨hn, hid⟩ := List.mem_filter.mp hn
  exact ⟨n, hn, by simpa using hid, hoffset⟩

end Program.Noted

theorem Script.Codes.account {p : Program} {t : Script} {s : Site} {c : Phrase} {l : List Note}
    (h : t.Codes p s c l) : Note.Account p .start s c.directives l := by
  have hstart : Site.start.function < Site.start.functions := Nat.one_pos
  cases h with
  | whole hlines => exact hlines.account hstart
  | cut hlines hlast =>
    have hfirst := hlines.account hstart
    have hs := Nat.lt_of_lt_of_le hstart hfirst.functions
    exact hfirst.seq (hlast.account (Nat.lt_of_le_of_lt (Nat.le_of_eq hfirst.function) hs)) hstart

theorem compileTokens_verify {tokens : List Located} {p : Program}
    (h : compileTokens tokens = .ok p) : p.verify = .ok () := by
  obtain ⟨b, c, hc, rfl⟩ := compileTokens_eq_ok h
  exact hc.verify.1

/-- A machine in the middle of a program: the script is at its end and the next turn finishes it, or
the innermost call is at the instruction of a note, and a fault there is on the line of the note. -/
def Machine.Blames (p : Program) (l : List Note) (m : Machine) : Prop :=
  ∃ (fr : Frame) (rest : List Frame) (f : Function), m.frames = fr :: rest ∧
    p.functions[fr.function]? = some f ∧
    (m.advance p = (.finished, m) ∨
      ∃ n ∈ l, n.function = fr.function ∧ n.offset = fr.ip ∧
        ∀ fault m', Exec.step p fr.function f m = .error fault m' →
          m.advance p = (.failed ⟨fault, 1+n.read⟩, m'))

theorem Program.Noted.blames {p : Program} {s : Site} {ds : List Directive} {l : List Note}
    {m : Machine} (h : p.Noted s ds l) (hm : m.Stands p) : m.Blames p l := by
  obtain ⟨hne, hall⟩ := hm
  obtain ⟨fr, rest, hframes⟩ := List.exists_cons_of_ne_nil hne
  obtain ⟨f, height, hf, harrives⟩ := hall fr (hframes ▸ List.mem_cons_self ..)
  refine ⟨fr, rest, f, hframes, hf, ?_⟩
  unfold Arrives at harrives
  split at harrives
  · next hend =>
    left
    unfold Machine.advance
    simp only [hframes, hf]
    rw [if_pos (Nat.le_of_eq hend.symm), harrives]
    rfl
  · obtain ⟨g, hg, ⟨i, hi, hoffset⟩, _⟩ := harrives
    rw [hf] at hg
    cases hg
    right
    obtain ⟨n, hn, hfunction, hplace⟩ := h.exists_note hf hi
    refine ⟨n, hn, hfunction, hplace.trans hoffset, ?_⟩
    intro fault m' hstep
    have hip : ¬ f.chunk.code.size ≤ fr.ip := by
      obtain ⟨byte, hbyte, _⟩ := Instruction.decode_of_mem (by simpa [Chunk.instructions] using hi)
      rw [hoffset] at hbyte
      exact Nat.not_le.mpr (Array.getElem?_eq_some_iff.mp hbyte).1
    have hline : p.sourceLine fr.function fr.ip = 1+n.read := by
      rw [← h.sourceLine_of_mem hn, hfunction, hplace, hoffset]
    unfold Machine.advance
    simp only [hframes, hf, if_neg hip, hstep, hline]

/-- A text that compiles spells a script. The notes of its code hold every instruction of every
function once, in order; the source line of an instruction is one more than the ends of lines that
were read when it was written, and that of the script's end one more than those in the text. On any
machine, in any turn, a fault has the line of the instruction that raised it. -/
theorem compiled_lines (source : String) (p : Program) (h : compile source = .ok p) :
    ∃ (tokens : List Located) (t : Script) (s : Site) (c : Phrase) (l : List Note),
      scanCode source = .ok tokens ∧ t.Fits ∧
      t.tokens = (tokens.takeWhile (·.token != .eof)).map (·.token) ∧ t.Codes p s c l ∧
      (∀ id f, p.functions[id]? = some f →
        (l.filter (·.function = id)).map (·.offset) = f.chunk.instructions.map (·.offset)) ∧
      (∀ n ∈ l, p.sourceLine n.function n.offset = 1+n.read) ∧
      (∃ f, p.functions[0]? = some f ∧
        p.sourceLine 0 f.chunk.code.size = 1+source.toList.count '\n') ∧
      ∀ (start m : Machine) (turns : Nat), start.interpret p turns = (.running, m) → m.Blames p l := by
  unfold compile at h
  split at h
  · cases h
  · next tokens hscan =>
    obtain ⟨t, s, c, l, script, hbinds, htokens, hcodes, _, hfunctions, hread, hscript, hfirst, hcode⟩ :=
      compileTokens_codes h
    have hnoted : p.Noted s c.directives l :=
      ⟨hcodes.account, hfunctions, script, hscript, by simpa [Function.isScript] using hfirst, hcode⟩
    refine ⟨tokens, t, s, c, l, hscan, hbinds.fits, htokens, hcodes, fun id f => hnoted.offsets,
      fun n => hnoted.sourceLine_of_mem, ⟨script, hscript, ?_⟩, fun start m turns hrun => ?_⟩
    · rw [hnoted.sourceLine_end hscript, hread, htokens, scanCode_ends hscan]
    · exact hnoted.blames (Machine.interpret_stands (compileTokens_verify h) hrun)

/-- A runnable inside a block, with code of the block before it and of the script behind it. -/
def sheltered : String :=
  "if true:\nprint(1)\nrunnable f(x):\nreturn -x\nendrunnable\nendif\n# twice\nprint(f(f(2)))\n"

theorem sheltered_code : (compile sheltered).toOption.map (fun p => (p.functions.size,
    p.functions[1]?.map (·.chunk.instructions.map (·.offset)), p.sourceLine 1 3)) =
      some (2, some [0, 1, 3, 4, 5, 6, 7], 4) := by
  decide +kernel

/-- The negation in the runnable was written behind three ends of lines. -/
theorem compiled_lines_sheltered :
    ∃ p, compile sheltered = .ok p ∧ p.functions.size = 2 ∧
      ∃ l : List Note, (∀ n ∈ l, p.sourceLine n.function n.offset = 1+n.read) ∧ ⟨1, 3, 3⟩ ∈ l ∧
        ∀ (start m : Machine) (turns : Nat), start.interpret p turns = (.running, m) →
          m.Blames p l := by
  have hcode := sheltered_code
  cases h : compile sheltered with
  | error ds => simp [h, Except.toOption] at hcode
  | ok p =>
    simp only [h, Except.toOption, Option.map_some, Option.some.injEq, Prod.mk.injEq] at hcode
    obtain ⟨hsize, hoffsets, hline⟩ := hcode
    obtain ⟨f, hf, hoffsets⟩ := Option.map_eq_some_iff.mp hoffsets
    obtain ⟨_, _, _, _, l, _, _, _, _, hall, hlines, _, hblames⟩ := compiled_lines sheltered p h
    refine ⟨p, rfl, hsize, l, hlines, ?_, hblames⟩
    have hmem : 3 ∈ (l.filter (·.function = 1)).map (·.offset) := by
      rw [hall 1 f hf, hoffsets]
      simp
    obtain ⟨⟨function, offset, read⟩, hn, hoffset⟩ := List.mem_map.mp hmem
    obtain ⟨hn, hfunction⟩ := List.mem_filter.mp hn
    obtain rfl : function = 1 := by simpa using hfunction
    subst hoffset
    have hread := hlines _ hn
    rw [hline] at hread
    obtain rfl : read = 3 := by
      simp only at hread
      omega
    exact hn

end RatScript
