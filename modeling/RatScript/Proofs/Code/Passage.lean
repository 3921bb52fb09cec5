import RatScript.Proofs.Code.Directive
import RatScript.Proofs.Code.Exploration

/-!
Passages: stretches of code that are entered at their start and left by known exits, with known
heights. They are put together one after another, as the code is.
-/

namespace RatScript

namespace Directive

def plain (op : Opcode) (h : op.layout = .none) : Directive := ⟨op, .none, h.symm⟩

def pop : Directive := plain .pop rfl

def endRepeat : Directive := plain .endRepeat rfl

def jump (distance : Nat) : Directive := ⟨.jump, .jump (UInt16.ofNat distance), rfl⟩

def jumpIf (truth : Bool) (distance : Nat) : Directive :=
  ⟨.jumpIf truth, .jump (UInt16.ofNat distance), rfl⟩

def back (distance : Nat) : Directive := ⟨.loop, .loop (UInt16.ofNat distance), rfl⟩

@[simp] theorem width_pop : pop.width = 1 := rfl
@[simp] theorem width_jump (n : Nat) : (jump n).width = 3 := rfl
@[simp] theorem width_jumpIf (truth : Bool) (n : Nat) : (jumpIf truth n).width = 3 := rfl
@[simp] theorem width_back (n : Nat) : (back n).width = 3 := rfl
@[simp] theorem width_endRepeat : endRepeat.width = 1 := rfl

@[simp] theorem bytes_pop : pop.bytes = [Opcode.pop.toByte] := rfl

@[simp] theorem bytes_endRepeat : endRepeat.bytes = [Opcode.endRepeat.toByte] := rfl

@[simp] theorem bytes_jump (n : Nat) : (jump n).bytes =
    [Opcode.jump.toByte, Word.high (.ofNat n), Word.low (.ofNat n)] := rfl

@[simp] theorem bytes_jumpIf (truth : Bool) (n : Nat) : (jumpIf truth n).bytes =
    [(Opcode.jumpIf truth).toByte, Word.high (.ofNat n), Word.low (.ofNat n)] := rfl

@[simp] theorem bytes_back (n : Nat) : (back n).bytes =
    [Opcode.loop.toByte, Word.high (.ofNat n), Word.low (.ofNat n)] := rfl

end Directive

/-- Operations that lead to the next instruction or, as a return, nowhere. -/
def Opcode.straight : Opcode → Bool
  | jump | jumpIf _ | loop | endRepeat => false
  | _ => true

/-- A directive stands well at a height in a function, with the effect it has there. Only runnables
return. -/
structure Directive.Stands (p : Program) (f : Function) (d : Directive) (e : Effect) (height : Nat) :
    Prop where
  straight : d.op.straight = true
  checked : f.checkOperand p (d.at_ 0) = .ok ()
  effect : (Survey.mk p f #[]).effect (d.at_ 0) = .ok e
  enough : e.pops ≤ height
  returns : d.op = .ret → f.isScript = false
  live : ∀ slot, d.operand = .slot slot → f.isScript = false ∧ slot.toNat < height

theorem Directive.pop_stands (p : Program) (f : Function) (h : Nat) :
    Directive.pop.Stands p f ⟨1, 0⟩ (h+1) :=
  ⟨rfl, rfl, rfl, by simp, nofun, by rintro slot ⟨⟩⟩

namespace Survey

open Directive (place)

/-- The survey finds these directives from an offset on. -/
def Places (s : Survey) (offset : Nat) (ds : List Directive) : Prop :=
  ∀ i ∈ place offset ds, s.start? i.offset = some i

theorem places_cons {s : Survey} {offset : Nat} {d : Directive} {ds : List Directive} :
    s.Places offset (d :: ds) ↔
      s.start? offset = some (d.at_ offset) ∧ s.Places (offset+d.width) ds := by
  simp [Places, place, Directive.at_]

theorem places_append {s : Survey} {offset : Nat} {ds es : List Directive} :
    s.Places offset (ds++es) ↔ s.Places offset ds ∧ s.Places (offset+Directive.size ds) es := by
  simp only [Places, Directive.place_append, List.mem_append]
  exact ⟨fun h => ⟨fun i hi => h i (.inl hi), fun i hi => h i (.inr hi)⟩,
    fun h i hi => hi.elim (h.1 i) (h.2 i)⟩

/-- Heights for offsets from `a` up to `e`: a path from one of them goes on to another or leaves
by an exit, an offset with a height. -/
structure Region (s : Survey) (a e : Nat) (Exit : Nat × Nat → Prop) (H : Nat → Option Nat) :
    Prop where
  within : ∀ offset height, H offset = some height → a ≤ offset ∧ offset < e
  leads : ∀ offset height, H offset = some height →
    s.Proceeds offset height fun y => H y.1 = some y.2 ∨ Exit y

namespace Region

theorem single {s : Survey} {a e height : Nat} {i : Instruction} {next : List (Nat × Nat)}
    (he : a < e) (hi : s.start? a = some i) (hn : s.successors i height = .ok next) :
    s.Region a e (· ∈ next) fun offset => if offset = a then some height else none where
  within offset k h := by
    split at h
    · omega
    · cases h
  leads offset k h := by
    split at h
    · next he =>
      cases h
      subst offset
      exact ⟨i, next, hi, hn, fun y hy => .inr hy⟩
    · cases h

/-- Two regions side by side, if the exits of each lead into one of them or out of both. -/
theorem beside {s : Survey} {a m e : Nat} {X Y Z : Nat × Nat → Prop} {H K : Nat → Option Nat}
    (hx : s.Region a m X H) (hy : s.Region m e Y K) (hm : a ≤ m) (he : m ≤ e)
    (hxz : ∀ y, X y → H y.1 = some y.2 ∨ K y.1 = some y.2 ∨ Z y)
    (hyz : ∀ y, Y y → H y.1 = some y.2 ∨ K y.1 = some y.2 ∨ Z y) :
    s.Region a e Z fun offset => (H offset).or (K offset) := by
  have hboth {y : Nat × Nat} (h : H y.1 = some y.2 ∨ K y.1 = some y.2 ∨ Z y) :
      (H y.1).or (K y.1) = some y.2 ∨ Z y := by
    rcases h with h | h | h
    · exact .inl (by simp [h])
    · cases hl : H y.1 with
      | none => exact .inl (by simp [h])
      | some k =>
        have h1 := (hx.within _ _ hl).2
        have h2 := (hy.within _ _ h).1
        omega
    · exact .inr h
  constructor
  · intro offset height h
    rcases Option.or_eq_some_iff.mp h with h | ⟨_, h⟩
    · have := hx.within offset height h
      omega
    · have := hy.within offset height h
      omega
  · intro offset height h
    rcases Option.or_eq_some_iff.mp h with h | ⟨_, h⟩
    · refine (hx.leads offset height h).mono ?_
      rintro y (hy | hy)
      · exact hboth (.inl hy)
      · exact hboth (hxz y hy)
    · refine (hy.leads offset height h).mono ?_
      rintro y (hy | hy)
      · exact hboth (.inr (.inl hy))
      · exact hboth (hyz y hy)

end Region

section
variable {s : Survey} {a h n : Nat}

/-- A directive that leads on leads to the one behind it; only a return leads nowhere. -/
theorem successors_straight {d : Directive} {t : Effect}
    (hd : Directive.Stands s.program s.function d t h) (a : Nat) :
    ∃ next, s.successors (d.at_ a) h = .ok next ∧
      (∀ y ∈ next, y = (a+d.width, h-t.pops+t.pushes)) ∧
      (d.op ≠ .ret → (a+d.width, h-t.pops+t.pushes) ∈ next) := by
  have hn : ∃ next, s.onward (d.at_ a) h (h-t.pops+t.pushes) = .ok next ∧
      (∀ y ∈ next, y = (a+d.width, h-t.pops+t.pushes)) ∧
      (d.op ≠ .ret → (a+d.width, h-t.pops+t.pushes) ∈ next) := by
    have hs := hd.straight
    simp only [onward, show (d.at_ a).op = d.op from rfl]
    cases hop : d.op <;> simp_all [Opcode.straight]
  obtain ⟨next, hn, hx⟩ := hn
  exact ⟨next, successors_eq_ok.mpr ⟨t, hd.effect, hd.enough, hd.live, hn⟩, hx⟩

/-- A directive without an effect of its own leads where it leads. -/
theorem successors_neutral {d : Directive} {next : List (Nat × Nat)}
    (heffect : s.effect (d.at_ a) = .ok ⟨0, 0⟩) (hslot : d.op.layout ≠ .slot)
    (hn : s.onward (d.at_ a) h h = .ok next) : s.successors (d.at_ a) h = .ok next := by
  have hlive : s.SlotLive (d.at_ a) h := by
    intro slot h
    rw [← d.laid, show d.operand = .slot slot from h] at hslot
    exact absurd rfl hslot
  exact successors_eq_ok.mpr ⟨_, heffect, by simp, hlive, hn⟩

theorem target_forward {i : Instruction} (hi : i.operand = .jump (UInt16.ofNat n))
    (hn : n < 0x10000) (hs : i.next+n ≤ s.size) : s.target i = .ok (i.next+n) := by
  simp [target, Instruction.target?, hi, Nat.mod_eq_of_lt hn, hs]

theorem target_back {i : Instruction} (hi : i.operand = .loop (UInt16.ofNat n))
    (hn : n < 0x10000) (hle : n ≤ i.next) (hs : i.next ≤ s.size) :
    s.target i = .ok (i.next-n) := by
  have h : i.next-n ≤ s.size := by omega
  simp [target, Instruction.target?, hi, Nat.mod_eq_of_lt hn, hle, h]

theorem successors_jumpIf {truth : Bool} (hh : 0 < h) (hn : n < 0x10000)
    (hs : a+3+n ≤ s.size) :
    s.successors ((Directive.jumpIf truth n).at_ a) h = .ok [(a+3, h), (a+3+n, h)] := by
  have ht : s.target ((Directive.jumpIf truth n).at_ a) = .ok (a+3+n) := target_forward rfl hn hs
  refine successors_neutral rfl nofun ?_
  simp only [onward, ht, Directive.at_, Directive.jumpIf] at *
  rw [if_neg (by omega)]
  rfl

theorem successors_jump (hn : n < 0x10000) (hs : a+3+n ≤ s.size) :
    s.successors ((Directive.jump n).at_ a) h = .ok [(a+3+n, h)] := by
  have ht : s.target ((Directive.jump n).at_ a) = .ok (a+3+n) := target_forward rfl hn hs
  refine successors_neutral rfl nofun ?_
  simp only [onward, ht, Directive.at_, Directive.jump] at *
  rfl

theorem successors_back (hn : n < 0x10000) (hle : n ≤ a+3) (hs : a+3 ≤ s.size) :
    s.successors ((Directive.back n).at_ a) h = .ok [(a+3-n, h)] := by
  have ht : s.target ((Directive.back n).at_ a) = .ok (a+3-n) := target_back rfl hn hle hs
  refine successors_neutral rfl nofun ?_
  simp only [onward, ht, Directive.at_, Directive.back] at *
  rfl

theorem successors_endRepeat (hl : s.start? (a+1) = some ((Directive.back n).at_ (a+1))) :
    s.successors (Directive.endRepeat.at_ a) (h+1) =
      .ok [(a+4, h), (a+1, h+1)] := by
  have hout : s.afterLoop (Directive.endRepeat.at_ a) = .ok (a+4) := by
    simp only [afterLoop]
    rw [show (Directive.endRepeat.at_ a).next = a+1 from rfl, hl]
    rfl
  refine successors_neutral rfl nofun ?_
  simp only [onward, hout, Directive.at_, Directive.endRepeat, Directive.plain] at *
  rfl

end

/-- A stretch of code that is entered at its start with one height and left at its end with
another, or by one of some exits. -/
def Passage (s : Survey) (a e h k : Nat) (Exit : Nat × Nat → Prop) : Prop :=
  ∃ H, s.Region a e (fun y => y = (e, k) ∨ Exit y) H ∧ (H a = some h ∨ (a, h) = (e, k))

namespace Passage

theorem nil (s : Survey) (a h : Nat) (X : Nat × Nat → Prop) : s.Passage a a h h X :=
  ⟨fun _ => none, ⟨by simp, by simp⟩, .inr rfl⟩

theorem single {s : Survey} {a e h k : Nat} {i : Instruction} {next : List (Nat × Nat)}
    {X : Nat × Nat → Prop} (hw : a < e) (hi : s.start? a = some i)
    (hn : s.successors i h = .ok next) (hx : ∀ y ∈ next, y = (e, k) ∨ X y) :
    s.Passage a e h k X := by
  obtain ⟨hwithin, hleads⟩ := Region.single hw hi hn
  refine ⟨_, ⟨hwithin, ?_⟩, .inl (if_pos rfl)⟩
  intro offset height h
  exact (hleads offset height h).mono (fun y hy => hy.imp_right (hx y))

/-- One passage after another. The first may also leave to the end of the second, the second back
to the start of the first. -/
theorem seq {s : Survey} {a m e h j k : Nat} {X Y Z : Nat × Nat → Prop}
    (hf : s.Passage a m h j X) (hs : s.Passage m e j k Y) (hm : a ≤ m) (he : m ≤ e)
    (hxz : ∀ y, X y → y = (e, k) ∨ Z y) (hyz : ∀ y, Y y → y = (a, h) ∨ Z y) :
    s.Passage a e h k Z := by
  obtain ⟨H, hH, hin⟩ := hf
  obtain ⟨K, hK, hmid⟩ := hs
  have hmiddle : K m = some j ∨ (m, j) = (e, k) := hmid
  have hstart : H a = some h ∨ K a = some h ∨ (a, h) = (e, k) := by
    rcases hin with hin | hin
    · exact .inl hin
    · cases hin
      exact .inr hmiddle
  refine ⟨fun offset => (H offset).or (K offset), hH.beside hK hm he ?_ ?_, ?_⟩
  · rintro y (rfl | hy)
    · exact .inr (hmiddle.imp_right .inl)
    · exact .inr (.inr (hxz y hy))
  · rintro y (rfl | hy)
    · exact .inr (.inr (.inl rfl))
    · rcases hyz y hy with rfl | hz
      · exact hstart.imp_right (.imp_right .inl)
      · exact .inr (.inr (.inr hz))
  · rcases hstart with h1 | h1 | h1
    · exact .inl (by simp [h1])
    · cases hl : H a with
      | none => exact .inl (by simp [hl, h1])
      | some l =>
        have h2 := (hH.within a l hl).2
        have h3 := (hK.within a h h1).1
        omega
    · exact .inr h1

section
variable {s : Survey} {a e h k n : Nat} {X : Nat × Nat → Prop}

theorem straight {d : Directive} {t : Effect} (hd : Directive.Stands s.program s.function d t h)
    (hp : s.start? a = some (d.at_ a)) (he : e = a+d.width) :
    s.Passage a e h (h-t.pops+t.pushes) X := by
  obtain ⟨next, hn, hx, _⟩ := successors_straight hd a
  have hw := d.width_pos
  exact single (by omega) hp hn (fun y hy => .inl (he ▸ hx y hy))

theorem jumpIf {truth : Bool} (hp : s.start? a = some ((Directive.jumpIf truth n).at_ a))
    (hh : 0 < h) (hn : n < 0x10000) (hs : a+3+n ≤ s.size) (he : e = a+3) (hx : X (a+3+n, h)) :
    s.Passage a e h h X := by
  refine single (by omega) hp (successors_jumpIf hh hn hs) ?_
  intro y hy
  simp only [List.mem_cons, List.not_mem_nil, or_false] at hy
  rcases hy with rfl | rfl
  · exact .inl (he ▸ rfl)
  · exact .inr hx

theorem jump (hp : s.start? a = some ((Directive.jump n).at_ a)) (hn : n < 0x10000)
    (hs : a+3+n ≤ s.size) (he : e = a+3) (hx : X (a+3+n, h)) : s.Passage a e h k X := by
  refine single (by omega) hp (successors_jump hn hs) ?_
  intro y hy
  rw [List.mem_singleton] at hy
  exact .inr (hy ▸ hx)

theorem back (hp : s.start? a = some ((Directive.back n).at_ a)) (hn : n < 0x10000)
    (hle : n ≤ a+3) (hs : a+3 ≤ s.size) (he : e = a+3) (hx : X (a+3-n, h)) :
    s.Passage a e h k X := by
  refine single (by omega) hp (successors_back hn hle hs) ?_
  intro y hy
  rw [List.mem_singleton] at hy
  exact .inr (hy ▸ hx)

theorem endRepeat (hp : s.start? a = some (Directive.endRepeat.at_ a))
    (hl : s.start? (a+1) = some ((Directive.back n).at_ (a+1))) (he : e = a+1)
    (hx : X (a+4, h)) : s.Passage a e (h+1) (h+1) X := by
  refine single (by omega) hp (successors_endRepeat hl) ?_
  intro y hy
  simp only [List.mem_cons, List.not_mem_nil, or_false] at hy
  rcases hy with rfl | rfl
  · exact .inr hx
  · exact .inl (he ▸ rfl)

theorem pop (hp : s.start? a = some (Directive.pop.at_ a)) (he : e = a+1) :
    s.Passage a e (h+1) h X :=
  straight (Directive.pop_stands _ _ h) hp he

end
end Passage

/-- Heights for a whole function are consistent if it is left at the end only, and only as a
script. -/
theorem Region.consistent {s : Survey} {X : Nat × Nat → Prop} {H : Nat → Option Nat}
    (hr : s.Region 0 s.size X H) (hx : ∀ y, X y → y.1 = s.size ∧ s.function.isScript = true) :
    s.Consistent H := by
  intro offset height h
  refine ⟨(hr.within offset height h).2, (hr.leads offset height h).mono ?_⟩
  rintro y (hy | hy)
  · have hlt := (hr.within _ _ hy).2
    rw [Admits, if_neg (by omega)]
    exact hy
  · rw [Admits, if_pos (hx y hy).1]
    exact (hx y hy).2

theorem Region.of_reaches {s : Survey} {X : Nat × Nat → Prop} {H : Nat → Option Nat}
    (hr : s.Region 0 s.size X H) (hin : H 0 = some s.function.arity ∨ X (0, s.function.arity))
    (hx : ∀ y, X y → y.1 = s.size) {y : Nat × Nat} (h : s.Reaches y) :
    H y.1 = some y.2 ∨ X y := by
  induction h with
  | entry => exact hin
  | @next x y _ hl ih =>
    obtain ⟨hend, i, next, hi, hn, hm⟩ := hl
    rcases ih with ih | ih
    · obtain ⟨j, next', hj, hn', hall⟩ := hr.leads x.1 x.2 ih
      rw [hi] at hj
      cases hj
      rw [hn] at hn'
      cases hn'
      exact hall _ hm
    · exact absurd (hx _ ih) hend

end Survey
end RatScript
