import RatScript.Proofs.Code.Passage

/-!
Phrases: code built from directives by the few shapes of jumps that statements and expressions
have. A phrase that takes the stack from one height to another, wherever it stands, has consistent
heights; a function made of one passes the check.
-/

namespace RatScript

inductive Phrase where
  | empty
  | one (d : Directive)
  | seq (first second : Phrase)
  /-- Keeps the value on top if it is as `truth` says, else puts the right one in its place. -/
  | either (truth : Bool) (right : Phrase)
  | branch (yes no : Phrase)
  | loop (test body : Phrase)
  | counted (body : Phrase)

namespace Phrase

open Directive (size encode place)

def directives : Phrase → List Directive
  | empty => []
  | one d => [d]
  | seq first second => first.directives++second.directives
  | either truth right =>
    .jumpIf truth (size right.directives+1) :: .pop :: right.directives
  | branch yes no =>
    .jumpIf false (size yes.directives+4) :: .pop :: yes.directives++
      .jump (size no.directives+1) :: .pop :: no.directives
  | loop test body =>
    test.directives++.jumpIf false (size body.directives+4) :: .pop :: body.directives++
      [.back (size test.directives+size body.directives+7), .pop]
  | counted body =>
    body.directives++[.endRepeat, .back (size body.directives+4)]

/-- In the function, the phrase takes the stack from one height to another. -/
inductive Takes (p : Program) (f : Function) : Phrase → Nat → Nat → Prop
  | empty (h : Nat) : Takes p f .empty h h
  | one {d : Directive} {e : Effect} {h : Nat} (hd : d.Stands p f e h) :
    Takes p f (.one d) h (h-e.pops+e.pushes)
  | seq {first second : Phrase} {h k l : Nat} (hf : Takes p f first h k)
    (hs : Takes p f second k l) : Takes p f (.seq first second) h l
  | either {truth : Bool} {right : Phrase} {h : Nat} (hr : Takes p f right h (h+1))
    (hfit : size right.directives+1 < 0x10000) : Takes p f (.either truth right) (h+1) (h+1)
  | branch {yes no : Phrase} {h k : Nat} (hy : Takes p f yes h k) (hn : Takes p f no h k)
    (hfity : size yes.directives+4 < 0x10000) (hfitn : size no.directives+1 < 0x10000) :
    Takes p f (.branch yes no) (h+1) k
  | loop {test body : Phrase} {h : Nat} (ht : Takes p f test h (h+1)) (hb : Takes p f body h h)
    (hfit : size test.directives+size body.directives+7 < 0x10000) :
    Takes p f (.loop test body) h h
  | counted {body : Phrase} {h : Nat} (hb : Takes p f body (h+1) (h+1))
    (hfit : size body.directives+4 < 0x10000) : Takes p f (.counted body) (h+1) h

end Phrase

namespace Survey

/-- A phrase that takes the stack from one height to another is a passage wherever it is placed. -/
theorem passage_of_takes {s : Survey} {c : Phrase} {h k : Nat}
    (hc : c.Takes s.program s.function h k) (a e : Nat) (hp : s.Places a c.directives)
    (he : e = a+Directive.size c.directives) (hs : e ≤ s.size) :
    s.Passage a e h k fun _ => False := by
  induction hc generalizing a e with
  | empty h =>
    cases he
    exact Passage.nil s a h _
  | one hd => exact Passage.straight hd (places_cons.mp hp).1 he
  | @seq first second h k l _ _ ihf ihs =>
    simp only [Phrase.directives, Directive.size_append, places_append] at hp he
    have hfirst := ihf a _ hp.1 rfl (by omega)
    have hsecond := ihs _ e hp.2 (by omega) hs
    exact hfirst.seq hsecond (by omega) (by omega) (by simp) (by simp)
  | @either truth right h _ hfit ih =>
    simp only [Phrase.directives, Directive.size_cons, places_cons,
      Directive.width_pop, Directive.width_jumpIf] at hp he
    have hjump : s.Passage a (a+3) (h+1) (h+1) (· = (e, h+1)) :=
      .jumpIf hp.1 (by omega) (by omega) (by omega) rfl (by rw [he]; congr 1; omega)
    have hpop : s.Passage (a+3) (a+3+1) (h+1) h fun _ => False := .pop hp.2.1 rfl
    have hright := ih (a+3+1) e hp.2.2 (by omega) hs
    have hrest := hpop.seq hright (Z := fun _ => False) (by omega) (by omega) (by simp) (by simp)
    exact hjump.seq hrest (by omega) (by omega) (fun y hy => .inl hy) (by simp)
  | @branch yes no h k _ _ hfity hfitn ihy ihn =>
    simp only [Phrase.directives, List.cons_append, Directive.size_cons, Directive.size_append,
      places_cons, places_append, Directive.width_pop, Directive.width_jumpIf,
      Directive.width_jump] at hp he
    obtain ⟨pjump, ppop, pyes, pover, ppop', pno⟩ := hp
    generalize hy : Directive.size yes.directives = y at *
    generalize hn : Directive.size no.directives = n at *
    have hjump : s.Passage a (a+3) (h+1) (h+1) (· = (a+3+1+y+3, h+1)) :=
      .jumpIf pjump (by omega) (by omega) (by omega) rfl (by congr 1; omega)
    have hpop : s.Passage (a+3) (a+3+1) (h+1) h fun _ => False := .pop ppop rfl
    have hyes := ihy (a+3+1) (a+3+1+y) pyes (by omega) (by omega)
    have hover : s.Passage (a+3+1+y) (a+3+1+y+3) k (h+1) (· = (e, k)) :=
      .jump pover (by omega) (by omega) rfl (by rw [he]; congr 1; omega)
    have hpop' : s.Passage (a+3+1+y+3) (a+3+1+y+3+1) (h+1) h fun _ => False := .pop ppop' rfl
    have hno := ihn (a+3+1+y+3+1) e pno (by omega) hs
    have h1 := hyes.seq hover (Z := (· = (e, k))) (by omega) (by omega) (by simp)
      (fun y hy => .inr hy)
    have h2 := hpop.seq h1 (Z := (· = (e, k))) (by omega) (by omega) (by simp)
      (fun y hy => .inr hy)
    have h3 := hjump.seq h2 (Z := (· = (e, k))) (by omega) (by omega) (fun y hy => .inl hy)
      (fun y hy => .inr hy)
    have h4 := hpop'.seq hno (Z := fun _ => False) (by omega) (by omega) (by simp) (by simp)
    exact h3.seq h4 (by omega) (by omega) (fun y hy => .inl hy) (by simp)
  | @loop test body h _ _ hfit iht ihb =>
    simp only [Phrase.directives, List.append_assoc, List.cons_append, Directive.size_cons,
      Directive.size_append, Directive.size_nil, places_cons, places_append, Directive.width_pop,
      Directive.width_jumpIf, Directive.width_back] at hp he
    obtain ⟨ptest, pjump, ppop, pbody, pback, ppop', _⟩ := hp
    generalize ht : Directive.size test.directives = t at *
    generalize hb : Directive.size body.directives = b at *
    have htest := iht a (a+t) ptest (by omega) (by omega)
    have hjump : s.Passage (a+t) (a+t+3) (h+1) (h+1) (· = (a+t+3+1+b+3, h+1)) :=
      .jumpIf pjump (by omega) (by omega) (by omega) rfl (by congr 1; omega)
    have hpop : s.Passage (a+t+3) (a+t+3+1) (h+1) h fun _ => False := .pop ppop rfl
    have hbody := ihb (a+t+3+1) (a+t+3+1+b) pbody (by omega) (by omega)
    have hback : s.Passage (a+t+3+1+b) (a+t+3+1+b+3) h (h+1) (· = (a, h)) :=
      .back pback (by omega) (by omega) (by omega) rfl (by congr 1; omega)
    have hpop' : s.Passage (a+t+3+1+b+3) e (h+1) h fun _ => False := .pop ppop' (by omega)
    have h1 := hbody.seq hback (Z := (· = (a, h))) (by omega) (by omega) (by simp)
      (fun y hy => .inr hy)
    have h2 := hpop.seq h1 (Z := (· = (a, h))) (by omega) (by omega) (by simp)
      (fun y hy => .inr hy)
    have h3 := hjump.seq h2 (Z := (· = (a, h))) (by omega) (by omega) (fun y hy => .inl hy)
      (fun y hy => .inr hy)
    have h4 := htest.seq h3 (Z := fun _ => False) (by omega) (by omega) (by simp)
      (fun y hy => .inl hy)
    exact h4.seq hpop' (by omega) (by omega) (by simp) (by simp)
  | @counted body h _ hfit ih =>
    simp only [Phrase.directives, Directive.size_cons, Directive.size_append, Directive.size_nil,
      places_cons, places_append, Directive.width_endRepeat, Directive.width_back] at hp he
    obtain ⟨pbody, pend, pback, _⟩ := hp
    generalize hb : Directive.size body.directives = b at *
    have hbody := ih a (a+b) pbody (by omega) (by omega)
    have hend : s.Passage (a+b) (a+b+1) (h+1) (h+1) (· = (e, h)) :=
      .endRepeat pend pback rfl (by rw [he]; congr 1)
    have hback : s.Passage (a+b+1) e (h+1) h (· = (a, h+1)) :=
      .back pback (by omega) (by omega) (by omega) (by omega) (by congr 1; omega)
    have h1 := hend.seq hback (Z := (· = (a, h+1))) (by omega) (by omega) (fun y hy => .inl hy)
      (fun y hy => .inr hy)
    exact hbody.seq h1 (by omega) (by omega) (by simp) (fun y hy => .inl hy)

/-- In a script some path goes through a phrase from its start to its end. -/
theorem reaches_of_takes {s : Survey} {c : Phrase} {h k : Nat}
    (hc : c.Takes s.program s.function h k) (hscript : s.function.isScript = true) (a e : Nat)
    (hp : s.Places a c.directives) (he : e = a+Directive.size c.directives) (hs : e ≤ s.size)
    (hr : s.Reaches (a, h)) : s.Reaches (e, k) := by
  have step {d : Directive} {t : Effect} {a h : Nat} (hd : d.Stands s.program s.function t h)
      (hp : s.start? a = some (d.at_ a)) (ha : a < s.size) (hr : s.Reaches (a, h)) :
      s.Reaches (a+d.width, h-t.pops+t.pushes) := by
    obtain ⟨next, hn, _, hm⟩ := successors_straight hd a
    have hne : d.op ≠ .ret := by
      intro hret
      rw [hd.returns hret] at hscript
      cases hscript
    exact hr.next ⟨Nat.ne_of_lt ha, _, next, hp, hn, hm hne⟩
  have jumped {truth : Bool} {n a h e : Nat}
      (hp : s.start? a = some ((Directive.jumpIf truth n).at_ a)) (hn : n < 0x10000)
      (he : e = a+3+n) (hs : e ≤ s.size) (hr : s.Reaches (a, h+1)) : s.Reaches (e, h+1) := by
    subst he
    have hjump : s.successors ((Directive.jumpIf truth n).at_ a) (h+1) = _ :=
      successors_jumpIf (Nat.succ_pos h) hn hs
    exact hr.next ⟨Nat.ne_of_lt (by omega : a < s.size), _, _, hp, hjump, by simp⟩
  induction hc generalizing a e with
  | empty h =>
    cases he
    exact hr
  | @one d t h hd =>
    have hw := d.width_pos
    simp only [Phrase.directives, Directive.size_cons, Directive.size_nil] at he
    rw [he]
    exact step hd (places_cons.mp hp).1 (by omega) hr
  | @seq first second h k l _ _ ihf ihs =>
    simp only [Phrase.directives, Directive.size_append, places_append] at hp he
    exact ihs _ e hp.2 (by omega) hs (ihf a _ hp.1 rfl (by omega) hr)
  | either _ hfit ih =>
    simp only [Phrase.directives, Directive.size_cons, places_cons,
      Directive.width_pop, Directive.width_jumpIf] at hp he
    exact jumped hp.1 hfit (by omega) hs hr
  | @branch yes no h k _ _ hfity hfitn ihy ihn =>
    simp only [Phrase.directives, List.cons_append, Directive.size_cons, Directive.size_append,
      places_cons, places_append, Directive.width_pop, Directive.width_jumpIf,
      Directive.width_jump] at hp he
    obtain ⟨pjump, ppop, pyes, pover, ppop', pno⟩ := hp
    have hjump : s.Reaches (a+3+1+Directive.size yes.directives+3, h+1) :=
      jumped pjump hfity (by omega) (by omega) hr
    have hpop := step (Directive.pop_stands _ _ h) ppop' (by omega) hjump
    exact ihn _ e pno (by omega) hs hpop
  | @loop test body h _ _ hfit iht ihb =>
    simp only [Phrase.directives, List.append_assoc, List.cons_append, Directive.size_cons,
      Directive.size_append, Directive.size_nil, places_cons, places_append, Directive.width_pop,
      Directive.width_jumpIf, Directive.width_back] at hp he
    obtain ⟨ptest, pjump, ppop, pbody, pback, ppop', _⟩ := hp
    generalize ht : Directive.size test.directives = t at *
    generalize hb : Directive.size body.directives = b at *
    have htest := iht a _ ptest rfl (by omega) hr
    have hjump : s.Reaches (a+t+3+1+b+3, h+1) := jumped pjump (by omega) (by omega) (by omega) htest
    have hpop := step (Directive.pop_stands _ _ h) ppop' (by omega) hjump
    rw [show e = a+t+3+1+b+3+1 by omega]
    exact hpop
  | @counted body h _ hfit ih =>
    simp only [Phrase.directives, Directive.size_cons, Directive.size_append, Directive.size_nil,
      places_cons, places_append, Directive.width_endRepeat, Directive.width_back] at hp he
    obtain ⟨pbody, pend, pback, _⟩ := hp
    have hbody := ih a _ pbody rfl (by omega) hr
    have hend := successors_endRepeat (h := h) pback
    refine hbody.next ⟨Nat.ne_of_lt (by omega : a+_ < s.size), _, _, pend, hend, ?_⟩
    simp [he, Nat.add_assoc]

end Survey

namespace Phrase

open Directive (size encode place)

/-- What holds of directives that stand somewhere and of those that jump holds of all of a phrase. -/
theorem Takes.forall_mem {p : Program} {f : Function} {c : Phrase} {h k : Nat}
    {P : Directive → Prop} (hc : c.Takes p f h k)
    (hstands : ∀ d e h, Directive.Stands p f d e h → P d)
    (hjumps : ∀ d : Directive, d.op.straight = false → P d) :
    ∀ d ∈ c.directives, P d := by
  have hpop : P .pop := hstands _ _ _ (Directive.pop_stands p f 0)
  induction hc with
  | empty => simp [directives]
  | one hs => simpa [directives] using hstands _ _ _ hs
  | seq _ _ ihf ihs =>
    intro d hd
    rcases List.mem_append.mp hd with hd | hd
    · exact ihf d hd
    · exact ihs d hd
  | either _ _ ih =>
    intro d hd
    simp only [directives, List.mem_cons] at hd
    rcases hd with rfl | rfl | hd
    · exact hjumps _ rfl
    · exact hpop
    · exact ih d hd
  | branch _ _ _ _ ihy ihn =>
    intro d hd
    simp only [directives, List.mem_cons, List.mem_append] at hd
    rcases hd with (rfl | rfl | hd) | rfl | rfl | hd
    · exact hjumps _ rfl
    · exact hpop
    · exact ihy d hd
    · exact hjumps _ rfl
    · exact hpop
    · exact ihn d hd
  | loop _ _ _ iht ihb =>
    intro d hd
    simp only [directives, List.mem_cons, List.mem_append, List.not_mem_nil, or_false] at hd
    rcases hd with (hd | rfl | rfl | hd) | rfl | rfl
    · exact iht d hd
    · exact hjumps _ rfl
    · exact hpop
    · exact ihb d hd
    · exact hjumps _ rfl
    · exact hpop
  | counted _ _ ih =>
    intro d hd
    simp only [directives, List.mem_cons, List.mem_append, List.not_mem_nil, or_false] at hd
    rcases hd with hd | rfl | rfl
    · exact ih d hd
    · exact hjumps _ rfl
    · exact hjumps _ rfl

section
variable {p : Program} {f : Function} {c : Phrase} {h k : Nat} (hc : c.Takes p f h k)
include hc

theorem Takes.checked : ∀ d ∈ c.directives, f.checkOperand p (d.at_ 0) = .ok () := by
  refine hc.forall_mem (fun _ _ _ hs => hs.checked) ?_
  rintro ⟨op, operand, _⟩ hop
  cases op <;> cases operand <;> first | rfl | nomatch hop

theorem Takes.returns : ∀ d ∈ c.directives, d.op = .ret → f.isScript = false := by
  refine hc.forall_mem (fun _ _ _ hs => hs.returns) ?_
  rintro d hop hret
  rw [hret] at hop
  cases hop

end
end Phrase

namespace Program

open Directive (size encode place)

theorem checkOperands_place {p : Program} {f : Function} {ds : List Directive}
    (h : ∀ d ∈ ds, f.checkOperand p (d.at_ 0) = .ok ()) (offset : Nat) :
    p.checkOperands f (place offset ds) = .ok () := by
  induction ds generalizing offset with
  | nil => rfl
  | cons d ds ih =>
    have hd : f.checkOperand p (d.at_ offset) = .ok () := h d (by simp)
    rw [place, checkOperands, hd]
    exact ih (fun e he => h e (List.mem_cons_of_mem _ he)) _

/-- The survey that the check of a function makes. -/
def surveyOf (p : Program) (f : Function) : Survey := p.survey f f.chunk.decode.1

theorem places_surveyOf {p : Program} {f : Function} {ds : List Directive}
    (h : f.chunk.code.toList = encode ds) : (p.surveyOf f).Places 0 ds := by
  intro i hi
  have hsize : f.chunk.code.size = size ds := by
    rw [← Directive.length_encode, ← h, Array.length_toList]
  have hb := (Directive.place_bounds hi).2
  rw [surveyOf, Directive.decode_encode h]
  refine p.start?_survey f (Directive.place_offsets_nodup 0 ds) (by simpa using hi) ?_
  simp only [Instruction.next, Opcode.width] at hb
  omega

/-- A function written from directives that pass their checks has heights if consistent ones exist. -/
theorem heights_ok {p : Program} {f : Function} {id : Nat} {ds : List Directive}
    (hcode : f.chunk.code.toList = encode ds) (henc : checkEnclosing id f = .ok ())
    (hchecked : ∀ d ∈ ds, f.checkOperand p (d.at_ 0) = .ok ()) {H : Nat → Option Nat}
    (hcons : (p.surveyOf f).Consistent H) (hin : (p.surveyOf f).Admits H (0, f.arity)) :
    ∃ hs, p.heights id f = .ok hs := by
  obtain ⟨hs, hok⟩ := (Survey.explore_entry_ok_iff (p.surveyOf f)).mpr ⟨H, hcons, hin⟩
  refine ⟨hs, ?_⟩
  rw [surveyOf, Directive.decode_encode hcode] at hok
  simp only [heights, henc, Directive.decode_encode hcode, checkOperands_place hchecked, bind,
    Except.bind]
  exact hok

/-- A script made of a phrase passes, and the paths through it end at its end, at the height the
phrase leaves, and nowhere else. -/
theorem heights_script {p : Program} {f : Function} {c : Phrase} {k : Nat}
    (hcode : f.chunk.code.toList = encode c.directives) (hscript : f.isScript = true)
    (hc : c.Takes p f f.arity k) :
    (∃ hs, p.heights 0 f = .ok hs) ∧
    ∀ x, (p.surveyOf f).Ends x ↔ x = (f.chunk.code.size, k) := by
  have hsize : f.chunk.code.size = size c.directives := by
    rw [← Directive.length_encode, ← hcode, Array.length_toList]
  obtain ⟨H, hr, hin⟩ := Survey.passage_of_takes (s := p.surveyOf f) hc 0 f.chunk.code.size
    (places_surveyOf hcode) (by omega) (Nat.le_refl _)
  have henc : checkEnclosing 0 f = .ok () := by
    have hnone : f.enclosing = none := by simpa [Function.isScript] using hscript
    simp [checkEnclosing, hnone]
  have hexit (y : Nat × Nat) (hy : y = (f.chunk.code.size, k) ∨ False) :
      y.1 = (p.surveyOf f).size := by
    rcases hy with rfl | hy
    · rfl
    · exact hy.elim
  refine ⟨?_, fun x => ⟨?_, ?_⟩⟩
  · refine heights_ok hcode henc hc.checked
      (hr.consistent fun y hy => ⟨hexit y hy, hscript⟩) ?_
    rcases hin with hin | hin
    · have hlt := (hr.within _ _ hin).2
      rw [Survey.Admits, if_neg (by exact Nat.ne_of_lt hlt)]
      exact hin
    · have h0 : 0 = (p.surveyOf f).size := congrArg Prod.fst hin
      rw [Survey.Admits, if_pos h0]
      exact hscript
  · rintro ⟨hreach, hstop⟩
    rcases hr.of_reaches (hin.imp_right .inl) hexit hreach with hh | hh | hh
    · obtain ⟨i, next, hi, hn, _⟩ := hr.leads _ _ hh
      have hop : i.op ≠ .ret := by
        intro hret
        have hmem := (mem_of_start? hi).1
        rw [Directive.decode_encode hcode, List.mem_toArray] at hmem
        obtain ⟨d, hd, hop⟩ := Directive.exists_of_mem_place hmem
        rw [hc.returns d hd (hop ▸ hret)] at hscript
        cases hscript
      obtain ⟨y, hy⟩ := List.exists_mem_of_ne_nil _ (Survey.successors_ne_nil hn hop)
      exact absurd ⟨Nat.ne_of_lt (hr.within _ _ hh).2, i, next, hi, hn, hy⟩ (hstop y)
    · exact hh
    · exact hh.elim
  · rintro rfl
    refine ⟨Survey.reaches_of_takes (s := p.surveyOf f) hc hscript 0 f.chunk.code.size
      (places_surveyOf hcode) (by omega) (Nat.le_refl _) .entry, ?_⟩
    rintro y ⟨hne, _⟩
    exact hne rfl

/-- What every runnable ends with. -/
def epilogue : List Directive := [.plain (.literal none) rfl, .plain .ret rfl]

theorem heights_runnable {p : Program} {f : Function} {id : Nat} {c : Phrase} {k : Nat}
    (hcode : f.chunk.code.toList = encode (c.directives++epilogue))
    (henc : checkEnclosing id f = .ok ()) (hc : c.Takes p f f.arity k) :
    ∃ hs, p.heights id f = .ok hs := by
  have hnone : Directive.Stands p f (.plain (.literal none) rfl) ⟨0, 1⟩ k :=
    ⟨rfl, rfl, rfl, by simp, nofun, by rintro slot ⟨⟩⟩
  have hbody : (Phrase.seq c (.one (.plain (.literal none) rfl))).Takes p f f.arity (k+1) :=
    .seq hc (.one hnone)
  have hplaces := places_surveyOf (p := p) hcode
  rw [show c.directives++epilogue =
    (c.directives++[Directive.plain (.literal none) rfl])++[Directive.plain .ret rfl] by simp [epilogue],
    Survey.places_append, Survey.places_cons] at hplaces
  have hsize : f.chunk.code.size = size (c.directives++epilogue) := by
    rw [← Directive.length_encode, ← hcode, Array.length_toList]
  generalize hb : size (c.directives++[Directive.plain (.literal none) rfl]) = b at hplaces
  have hb' : f.chunk.code.size = b+1 ∧ 0 < b := by
    rw [hsize, ← hb]
    simp [epilogue, Directive.width, Directive.plain, Opcode.width, Opcode.layout, Layout.length]
  obtain ⟨H, hr, hin⟩ := Survey.passage_of_takes (s := p.surveyOf f) hbody 0 b hplaces.1
    (by simp [Phrase.directives, hb]) (by rw [Survey.size]; change b ≤ f.chunk.code.size; omega)
  have hret : (p.surveyOf f).successors ((Directive.plain .ret rfl).at_ b) (k+1) = .ok [] :=
    Survey.successors_eq_ok.mpr ⟨⟨1, 0⟩, rfl, by simp, by rintro slot ⟨⟩, rfl⟩
  have hplace : (p.surveyOf f).start? b = some ((Directive.plain .ret rfl).at_ b) := by
    simpa using hplaces.2.1
  have hend := Survey.Region.single (e := f.chunk.code.size) (by omega) hplace hret
  have hall := hr.beside (Z := fun _ => False) hend (by omega) (by omega)
    (by rintro y (rfl | hy); exact .inr (.inl (if_pos rfl)); exact hy.elim) (by simp)
  refine heights_ok hcode henc ?_ (hall.consistent (by simp)) ?_
  · intro d hd
    simp only [epilogue, List.mem_append, List.mem_cons, List.not_mem_nil, or_false] at hd
    rcases hd with hd | rfl | rfl
    · exact hc.checked d hd
    · rfl
    · rfl
  · have h0 : H 0 = some f.arity := by
      rcases hin with hin | hin
      · exact hin
      · have := congrArg Prod.fst hin
        simp at this
        omega
    rw [Survey.Admits, if_neg (by change ¬ 0 = f.chunk.code.size; omega)]
    simp [h0]

end Program
end RatScript
