import RatScript.Proofs.Code.HeightRule
import RatScript.Proofs.Code.Phrase

/-!
Callees on the stack. The code of a call fetches what it calls first, and the call finds it under its
arguments. Tags tell which cells are such callees: as long as one is there, no instruction takes it off
or writes to it, and no jump leads in between.
-/

namespace RatScript

open Directive (size place)

/-- What is known of the cells of an active call at one of its instructions, the newest first: the name
that a cell was fetched by to be called, or nothing. -/
abbrev Tags := List (Option String)

/-- What an instruction puts on the stack: the value of a global that is to be called, or nothing that
is told of. -/
inductive Instruction.Puts (f : Function) (i : Instruction) : Tags → Prop
  | plain (n : Nat) : Puts f i (.replicate n none)
  | callee {index : UInt8} {x : String} (hop : i.op = .get .global)
    (hoperand : i.operand = .constant index) (hx : f.chunk.constant? index = some (.text x)) :
    Puts f i [some x]

/-- An instruction leaves tagged cells alone, a call has its own below its arguments, and what comes
next is of some kind. -/
structure Program.Bears (p : Program) (f : Function) (i : Instruction) (s : Tags)
    (Q : Nat → Tags → Prop) : Prop where
  slot : ∀ b, i.operand = .slot b → s.reverse[b.toNat]? = some none
  call : ∀ index x callee, i.op = .call → i.operand = .constant index →
    f.chunk.constant? index = some (.text x) → p.runnable? x = some callee →
      s[callee.arity]? = some (some x)
  onward : ∀ e, p.Charges f i e → i.removes e ≤ s.length ∧ ∀ y, f.Follows i e s.length y →
    ∃ added, i.Puts f added ∧ y.2 = (added++s.drop (i.removes e)).length ∧
      Q y.1 (added++s.drop (i.removes e))

theorem Program.Bears.mono {p : Program} {f : Function} {i : Instruction} {s : Tags}
    {Q R : Nat → Tags → Prop} (h : p.Bears f i s Q) (hqr : ∀ o t, Q o t → R o t) : p.Bears f i s R where
  slot := h.slot
  call := h.call
  onward e he := by
    refine ⟨(h.onward e he).1, fun y hy => ?_⟩
    obtain ⟨added, hputs, hheight, hq⟩ := (h.onward e he).2 y hy
    exact ⟨added, hputs, hheight, hqr _ _ hq⟩

/-- A directive that takes the tags of the cells from some to others, wherever it stands. -/
structure Directive.Carries (p : Program) (f : Function) (d : Directive) (s t : Tags) : Prop where
  straight : d.op.straight = true
  slot : ∀ b, d.operand = .slot b → s.reverse[b.toNat]? = some none
  call : ∀ index x callee, d.op = .call → d.operand = .constant index →
    f.chunk.constant? index = some (.text x) → p.runnable? x = some callee →
      s[callee.arity]? = some (some x)
  onward : ∀ a e, p.Charges f (d.at_ a) e → e.pops ≤ s.length ∧ ∃ added, (d.at_ a).Puts f added ∧
    added.length = e.pushes ∧ t = added++s.drop e.pops

/-- The value on top is taken off, which is no callee. -/
theorem Directive.pop_carries (p : Program) (f : Function) (s : Tags) :
    Directive.pop.Carries p f (none :: s) s where
  straight := rfl
  slot := nofun
  call := nofun
  onward a e he := by
    obtain rfl := he.effect_eq (by nofun) (by nofun)
    exact ⟨Nat.le_add_left 1 _, [], .plain 0, rfl, rfl⟩

/-- In the function, the phrase takes the tags of the cells from some to others. -/
inductive Phrase.Carries (p : Program) (f : Function) : Phrase → Tags → Tags → Prop
  | empty (s : Tags) : Carries p f .empty s s
  | one {d : Directive} {s t : Tags} (hd : d.Carries p f s t) : Carries p f (.one d) s t
  | seq {first second : Phrase} {s t u : Tags} (hf : Carries p f first s t)
    (hs : Carries p f second t u) : Carries p f (.seq first second) s u
  | either {truth : Bool} {right : Phrase} {s : Tags} (hr : Carries p f right s (none :: s))
    (hfit : size right.directives+1 < 0x10000) :
    Carries p f (.either truth right) (none :: s) (none :: s)
  | branch {yes no : Phrase} {s t : Tags} (hy : Carries p f yes s t) (hn : Carries p f no s t)
    (hfity : size yes.directives+4 < 0x10000) (hfitn : size no.directives+1 < 0x10000) :
    Carries p f (.branch yes no) (none :: s) t
  | loop {test body : Phrase} {s : Tags} (ht : Carries p f test s (none :: s))
    (hb : Carries p f body s s) (hfit : size test.directives+size body.directives+7 < 0x10000) :
    Carries p f (.loop test body) s s
  | counted {body : Phrase} {s : Tags} (hb : Carries p f body (none :: s) (none :: s))
    (hfit : size body.directives+4 < 0x10000) : Carries p f (.counted body) (none :: s) s

/-! Tags for each instruction. -/

/-- Instructions with the tags of the cells where they stand. -/
abbrev Tagging := List (Instruction × Tags)

namespace Tagging

def At (marks : Tagging) (offset : Nat) (s : Tags) : Prop :=
  ∃ x ∈ marks, x.1.offset = offset ∧ x.2 = s

theorem At.mono {marks more : Tagging} (hmore : marks ⊆ more) {offset : Nat} {s : Tags}
    (h : marks.At offset s) : more.At offset s := by
  obtain ⟨x, hx, h⟩ := h
  exact ⟨x, hmore hx, h⟩

/-- Leads to one offset, with some tags. -/
def Exit (offset : Nat) (s : Tags) (o : Nat) (t : Tags) : Prop := o = offset ∧ t = s

/-- Directives of a function, from an offset on, take the tags from those at the start to those at the
end, or out by an exit of some kind. -/
def Along (p : Program) (f : Function) (a : Nat) (ds : List Directive) (s t : Tags)
    (X : Nat → Tags → Prop) : Prop :=
  ∃ marks : Tagging, marks.map Prod.fst = place a ds ∧
    (∀ x ∈ marks, p.Bears f x.1 x.2 fun o q => marks.At o q ∨ Exit (a+size ds) t o q ∨ X o q) ∧
    (marks.At a s ∨ ds = [] ∧ s = t)

/-- Leaves by no other exit. -/
abbrev Through (p : Program) (f : Function) (a : Nat) (ds : List Directive) (s t : Tags) : Prop :=
  Along p f a ds s t fun _ _ => False

namespace Along

variable {p : Program} {f : Function} {a : Nat} {d : Directive} {ds es : List Directive}
  {s t u : Tags} {X Y Z : Nat → Tags → Prop}

theorem nil : Along p f a [] s s X := ⟨[], rfl, List.forall_mem_nil _, .inr ⟨rfl, rfl⟩⟩

/-- One list of directives after another. The first may also leave to the end of the second, the second
back to the start of the first. -/
theorem seq (h : Along p f a ds s t X) (k : Along p f (a+size ds) es t u Y)
    (hx : ∀ o q, X o q → Exit (a+size ds+size es) u o q ∨ Z o q)
    (hy : ∀ o q, Y o q → Exit a s o q ∨ Z o q) : Along p f a (ds++es) s u Z := by
  obtain ⟨marks, hplace, hbears, hentry⟩ := h
  obtain ⟨more, hplace', hbears', hentry'⟩ := k
  have hfirst : marks ⊆ marks++more := List.subset_append_left ..
  have hsecond : more ⊆ marks++more := List.subset_append_right ..
  have hmiddle : At (marks++more) (a+size ds) t ∨ Exit (a+size (ds++es)) u (a+size ds) t := by
    rcases hentry' with h | ⟨rfl, rfl⟩
    · exact .inl (h.mono hsecond)
    · exact .inr ⟨by simp, rfl⟩
  have hstart : At (marks++more) a s ∨ Exit (a+size (ds++es)) u a s := by
    rcases hentry with h | ⟨rfl, rfl⟩
    · exact .inl (h.mono hfirst)
    · exact hmiddle
  refine ⟨marks++more, ?_, ?_, ?_⟩
  · rw [List.map_append, hplace, hplace', Directive.place_append]
  · refine List.forall_mem_append.mpr
      ⟨fun x hm => (hbears x hm).mono ?_, fun x hm => (hbears' x hm).mono ?_⟩
    · rintro o q (hq | ⟨rfl, rfl⟩ | hq)
      · exact .inl (hq.mono hfirst)
      · exact hmiddle.imp_right .inl
      · refine .inr ((hx o q hq).imp_left fun hq => ?_)
        rwa [Nat.add_assoc, ← Directive.size_append] at hq
    · rintro o q (hq | ⟨rfl, rfl⟩ | hq)
      · exact .inl (hq.mono hsecond)
      · exact .inr (.inl ⟨by rw [Directive.size_append, Nat.add_assoc], rfl⟩)
      · rcases hy o q hq with ⟨rfl, rfl⟩ | hq
        · exact hstart.imp_right .inl
        · exact .inr (.inr hq)
  · refine hstart.imp_right fun ⟨hend, hsame⟩ => ⟨?_, hsame⟩
    cases hds : ds++es with
    | nil => rfl
    | cons d ds =>
      have := d.width_pos
      rw [hds, Directive.size_cons] at hend
      omega

theorem one (h : p.Bears f (d.at_ a) s fun o q => Exit (a+d.width) t o q ∨ X o q) :
    Along p f a [d] s t X := by
  refine ⟨[(d.at_ a, s)], rfl, List.forall_mem_singleton.mpr (h.mono fun o q hq => .inr ?_),
    .inl ⟨_, List.mem_singleton_self _, rfl, rfl⟩⟩
  simpa using hq

theorem straight (h : d.Carries p f s t) : Along p f a [d] s t X := by
  have hend : (d.at_ a).op ≠ .endRepeat := by
    intro hend
    have hop := h.straight
    rw [show d.op = .endRepeat from hend] at hop
    cases hop
  refine one ⟨h.slot, h.call, fun e he => ?_⟩
  obtain ⟨hpops, added, hputs, hlength, rfl⟩ := h.onward a e he
  rw [Instruction.removes, if_neg hend]
  refine ⟨hpops, fun y hy => ⟨added, hputs, ?_⟩⟩
  cases hy with
  | next => exact ⟨by simp [hlength, Nat.add_comm], .inl ⟨rfl, rfl⟩⟩
  | jump htarget =>
    have hop := h.straight
    rcases Instruction.jumps_of_target? (i := d.at_ a) d.laid htarget with hj | hj | ⟨truth, hj⟩ <;>
      rw [show d.op = _ from hj] at hop <;> cases hop
  | out hout => exact absurd hout hend

/-- What is put on the stack where nothing is taken off or put on it. -/
theorem bears_still {i : Instruction} {Q : Nat → Tags → Prop} (hslot : ∀ b, i.operand ≠ .slot b)
    (hcall : i.op ≠ .call) (hnative : i.op ≠ .callNative) (hend : i.op ≠ .endRepeat)
    (heffect : i.op.effect = ⟨0, 0⟩)
    (honward : ∀ y, f.Follows i ⟨0, 0⟩ s.length y → y.2 = s.length ∧ Q y.1 s) : p.Bears f i s Q where
  slot b hb := absurd hb (hslot b)
  call _ _ _ hop := absurd hop hcall
  onward e he := by
    obtain rfl := (he.effect_eq hcall hnative).trans heffect
    rw [Instruction.removes, if_neg hend]
    refine ⟨Nat.zero_le _, fun y hy => ⟨[], .plain 0, honward y hy⟩⟩

section
variable {n : Nat}

theorem jumpIf {truth : Bool} (hn : n < 0x10000) :
    Along p f a [.jumpIf truth n] s s (Exit (a+3+n) s) := by
  refine one (bears_still nofun nofun nofun nofun rfl fun y hy => ?_)
  cases hy with
  | next => exact ⟨rfl, .inl ⟨rfl, rfl⟩⟩
  | jump ht =>
    cases ht
    exact ⟨rfl, .inr ⟨congrArg (a+3+·) (UInt16.toNat_ofNat_of_lt hn), rfl⟩⟩
  | out hend => cases hend

theorem jump (hn : n < 0x10000) : Along p f a [.jump n] s t (Exit (a+3+n) s) := by
  refine one (bears_still nofun nofun nofun nofun rfl fun y hy => ?_)
  cases hy with
  | next _ hjump => exact absurd rfl hjump
  | jump ht =>
    cases ht
    exact ⟨rfl, .inr ⟨congrArg (a+3+·) (UInt16.toNat_ofNat_of_lt hn), rfl⟩⟩
  | out hend => cases hend

theorem back (hn : n < 0x10000) : Along p f a [.back n] s t (Exit (a+3-n) s) := by
  refine one (bears_still nofun nofun nofun nofun rfl fun y hy => ?_)
  cases hy with
  | next _ _ hloop => exact absurd rfl hloop
  | jump ht =>
    have hdistance : (UInt16.ofNat n).toNat = n := UInt16.toNat_ofNat_of_lt hn
    simp only [Instruction.target?, Directive.at_, Directive.back, hdistance] at ht
    split at ht
    · cases ht
      exact ⟨rfl, .inr ⟨rfl, rfl⟩⟩
    · cases ht
  | out hend => cases hend

/-- The count of a loop is taken off the stack, and put back unless it is used up. -/
theorem endRepeat (hloop : (Directive.back n).at_ (a+1) ∈ f.chunk.instructions) :
    Along p f a [.endRepeat] (none :: s) (none :: s) (Exit (a+4) s) := by
  refine one ⟨nofun, nofun, fun e he => ?_⟩
  obtain rfl := he.effect_eq (by nofun) (by nofun)
  refine ⟨Nat.le_add_left 1 _, fun y hy => ?_⟩
  cases hy with
  | next => exact ⟨[none], .plain 1, rfl, .inl ⟨rfl, rfl⟩⟩
  | jump ht => cases ht
  | @out j _ hj hoffset =>
    obtain rfl := Instruction.eq_of_offset hj hloop hoffset
    exact ⟨[], .plain 0, rfl, .inr ⟨rfl, rfl⟩⟩

end

theorem then_ (h : Through p f a ds s t) {b : Nat} (hb : b = a+size ds) (k : Along p f b es t u X) :
    Along p f a (ds++es) s u X := by
  subst hb
  exact seq h k (fun _ _ => False.elim) fun _ _ => .inr

theorem pop : Along p f a [.pop] (none :: s) s X := straight (Directive.pop_carries p f s)

theorem either (truth : Bool) {right : Phrase}
    (hright : Through p f (a+4) right.directives s (none :: s))
    (hfit : size right.directives+1 < 0x10000) :
    Through p f a (Phrase.either truth right).directives (none :: s) (none :: s) := by
  have hrest : Through p f (a+3) (.pop :: right.directives) (none :: s) (none :: s) :=
    then_ pop rfl hright
  refine (jumpIf hfit).seq hrest ?_ fun _ _ => .inr
  rintro o q ⟨rfl, rfl⟩
  exact .inl ⟨by simp; omega, rfl⟩

theorem branch {yes no : Phrase} (hyes : Through p f (a+4) yes.directives s t)
    (hno : Through p f (a+size yes.directives+8) no.directives s t)
    (hfit : size yes.directives+4 < 0x10000) (hfit' : size no.directives+1 < 0x10000) :
    Through p f a (Phrase.branch yes no).directives (none :: s) t := by
  have hover : Along p f (a+4+size yes.directives) [.jump (size no.directives+1)] t (none :: s) _ :=
    jump hfit'
  -- the way around the first part leads to its end, the one around the second to the end of all
  have hfirst : Along p f a (.jumpIf false (size yes.directives+4) :: .pop ::
      (yes.directives++[Directive.jump (size no.directives+1)])) (none :: s) (none :: s)
      (Exit (a+4+size yes.directives+3+(size no.directives+1)) t) := by
    have hinside := then_ (a := a+3) (pop (s := s)) rfl (then_ hyes rfl hover)
    refine (jumpIf hfit).seq hinside ?_ fun _ _ => .inr
    rintro o q ⟨rfl, rfl⟩
    exact .inl ⟨by simp; omega, rfl⟩
  have hlast : Through p f (a+size yes.directives+7) (.pop :: no.directives) (none :: s) t :=
    then_ pop rfl hno
  have hwhole := hfirst.seq (Z := fun _ _ => False) (cast (by congr 1; simp; omega) hlast) (by
    rintro o q ⟨rfl, rfl⟩
    exact .inl ⟨by simp; omega, rfl⟩) fun _ _ => False.elim
  simpa [Phrase.directives] using hwhole

theorem loop {test body : Phrase} (htest : Through p f a test.directives s (none :: s))
    (hbody : Through p f (a+size test.directives+4) body.directives s s)
    (hfit : size test.directives+size body.directives+7 < 0x10000) :
    Through p f a (Phrase.loop test body).directives s s := by
  have hback : Along p f (a+size test.directives+4+size body.directives)
      [.back (size test.directives+size body.directives+7)] s (none :: s) _ := back hfit
  -- out of the loop, and back to its test
  have hround : Along p f (a+size test.directives) (.jumpIf false (size body.directives+4) :: .pop ::
      (body.directives++[Directive.back (size test.directives+size body.directives+7)])) (none :: s)
      (none :: s) (Exit a s) := by
    have hinside := then_ (a := a+size test.directives+3) (pop (s := s)) rfl (then_ hbody rfl hback)
    refine (jumpIf (by omega)).seq hinside ?_ ?_
    · rintro o q ⟨rfl, rfl⟩
      exact .inl ⟨by simp; omega, rfl⟩
    · rintro o q ⟨rfl, rfl⟩
      exact .inr ⟨by omega, rfl⟩
  have hall : Through p f a (test.directives++Directive.jumpIf false (size body.directives+4) :: .pop ::
      (body.directives++[Directive.back (size test.directives+size body.directives+7)])) s (none :: s) := by
    refine seq htest hround (fun _ _ => False.elim) ?_
    rintro o q ⟨rfl, rfl⟩
    exact .inl ⟨rfl, rfl⟩
  have hwhole := then_ hall rfl (pop (X := fun _ _ => False))
  simpa [Phrase.directives] using hwhole

/-- The count is on top in front of each pass. Behind the loop it is gone. -/
theorem counted {body : Phrase} (hbody : Through p f a body.directives (none :: s) (none :: s))
    (hloop : (Directive.back (size body.directives+4)).at_ (a+size body.directives+1) ∈
      f.chunk.instructions) (hfit : size body.directives+4 < 0x10000) :
    Through p f a (Phrase.counted body).directives (none :: s) s := by
  have hback : Along p f (a+size body.directives+1) [.back (size body.directives+4)] (none :: s) s _ :=
    back hfit
  have hlast : Along p f (a+size body.directives) [.endRepeat, .back (size body.directives+4)]
      (none :: s) s (Exit a (none :: s)) := by
    refine (endRepeat hloop).seq hback ?_ ?_
    · rintro o q ⟨rfl, rfl⟩
      exact .inl ⟨rfl, rfl⟩
    · rintro o q ⟨rfl, rfl⟩
      exact .inr ⟨by omega, rfl⟩
  refine seq hbody hlast (fun _ _ => False.elim) ?_
  rintro o q ⟨rfl, rfl⟩
  exact .inl ⟨rfl, rfl⟩

end Along
end Tagging

open Tagging (Along Through)

variable {p : Program} {f : Function}

/-- A phrase that carries tags does so wherever it is placed in the function. -/
theorem Phrase.Carries.through {c : Phrase} {s t : Tags} (h : c.Carries p f s t) (a : Nat)
    (hplace : place a c.directives ⊆ f.chunk.instructions) : Through p f a c.directives s t := by
  induction h generalizing a with
  | empty => exact .nil
  | one hd => exact .straight hd
  | seq _ _ ihf ihs =>
    rw [directives, Directive.place_append] at hplace
    obtain ⟨hfirst, hsecond⟩ := List.append_subset.mp hplace
    exact (ihf a hfirst).then_ rfl (ihs _ hsecond)
  | either _ hfit ih =>
    simp only [directives, place, Directive.width_jumpIf, Directive.width_pop, List.cons_subset] at hplace
    exact .either _ (ih _ hplace.2.2) hfit
  | branch _ _ hfity hfitn ihy ihn =>
    simp only [directives, List.cons_append, place, Directive.place_append, Directive.width_jumpIf,
      Directive.width_pop, Directive.width_jump, List.cons_subset, List.append_subset] at hplace
    obtain ⟨_, _, hyes, _, _, hno⟩ := hplace
    refine .branch (ihy _ hyes) (ihn _ ?_) hfity hfitn
    convert hno using 2
    omega
  | loop _ _ hfit iht ihb =>
    simp only [directives, List.append_assoc, List.cons_append, place, Directive.place_append,
      Directive.width_jumpIf, Directive.width_pop, List.cons_subset, List.append_subset] at hplace
    obtain ⟨htest, _, _, hbody, _⟩ := hplace
    exact .loop (iht _ htest) (ihb _ hbody) hfit
  | counted _ hfit ih =>
    simp only [directives, place, Directive.place_append, Directive.width_endRepeat,
      List.cons_subset, List.append_subset] at hplace
    obtain ⟨hbody, _, hback, _⟩ := hplace
    exact .counted (ih _ hbody) hback hfit

/-- The instructions of a function have tags that follow from each other, from arguments without tags
on. -/
structure Function.Tagged (p : Program) (f : Function) (marks : Tagging) : Prop where
  code : marks.map Prod.fst = f.chunk.instructions
  bears : ∀ x ∈ marks, p.Bears f x.1 x.2 fun o s => marks.At o s ∨ o = f.chunk.code.size
  entry : marks.At 0 (.replicate f.arity none) ∨ f.chunk.code.size = 0

theorem Phrase.Carries.tagged {c : Phrase} {t : Tags}
    (h : c.Carries p f (.replicate f.arity none) t)
    (hcode : f.chunk.code.toList = Directive.encode c.directives) : ∃ marks, f.Tagged p marks := by
  have hinstructions : f.chunk.instructions = place 0 c.directives := by
    rw [Chunk.instructions, Directive.decode_encode hcode]
  have hsize : f.chunk.code.size = size c.directives := by
    rw [← Array.length_toList, hcode, Directive.length_encode]
  obtain ⟨marks, hplace, hbears, hentry⟩ := h.through 0 (fun i hi => hinstructions ▸ hi)
  refine ⟨marks, hplace.trans hinstructions.symm, fun x hx => (hbears x hx).mono ?_,
    hentry.imp_right fun hempty => by rw [hsize, hempty.1]; rfl⟩
  rintro o q (hq | ⟨rfl, _⟩ | hq)
  · exact .inl hq
  · exact .inr (by rw [hsize, Nat.zero_add])
  · exact hq.elim

end RatScript
