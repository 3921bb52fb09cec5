import RatScript.Proofs.Code.HeightRule
import RatScript.Proofs.Syntax.Scoping

/-!
Stages of the execution of a runnable's body. To each instruction belongs what is known where a call
stands at it: the cells in scope, the declaration that is being executed, and how many cells there are.
An instruction takes away no cell that is in scope; what is known changes between instructions only.
-/

namespace RatScript

open Directive (size place)

structure Stage where
  /-- Cells in scope, the newest first. They are at the bottom of the cells of the call. -/
  cells : List Cell
  making : Option Declaration
  height : Nat

namespace Stage

/-- Between statements. -/
def plain (cells : List Cell) : Stage := ⟨cells, none, cells.length⟩

def raise (g : Stage) (n : Nat) : Stage := {g with height := g.height+n}

@[simp] theorem cells_plain (cells : List Cell) : (plain cells).cells = cells := rfl

@[simp] theorem cells_raise (g : Stage) (n : Nat) : (g.raise n).cells = g.cells := rfl

@[simp] theorem making_raise (g : Stage) (n : Nat) : (g.raise n).making = g.making := rfl

@[simp] theorem height_raise (g : Stage) (n : Nat) : (g.raise n).height = g.height+n := rfl

@[simp] theorem raise_zero (g : Stage) : g.raise 0 = g := rfl

theorem raise_raise (g : Stage) (m n : Nat) : (g.raise m).raise n = g.raise (m+n) := by
  simp [raise, Nat.add_assoc]

/-- What changes on coming to an offset: a declaration begins there or is complete, the count on top
is that of a loop, or a cell goes out of scope. -/
inductive Turns (offset : Nat) : Stage → Stage → Prop
  | begins {cells : List Cell} {d : Declaration} (hd : d.start = offset) :
    Turns offset (plain cells) ⟨cells, some d, cells.length⟩
  | ends {cells : List Cell} {d : Declaration} (hd : d.finish = offset) (hlt : d.start < d.finish) :
    Turns offset ⟨cells, some d, cells.length+1⟩ (plain (.declared d :: cells))
  | counts {cells : List Cell} : Turns offset ((plain cells).raise 1) (plain (.counter :: cells))
  | forgets {c : Cell} {cells : List Cell} {height : Nat} :
    Turns offset ⟨c :: cells, none, height⟩ ⟨cells, none, height⟩

abbrev Becomes (offset : Nat) : Stage → Stage → Prop := Relation.ReflTransGen (Turns offset)

/-- Where a stage may be, from one offset up to another: the declarations in scope are complete, and
the one that is being executed has its code there. -/
structure Serves (g : Stage) (a e : Nat) : Prop where
  complete : ∀ d, .declared d ∈ g.cells → d.start < d.finish ∧ d.finish ≤ a
  making : ∀ d ∈ g.making, d.start ≤ a ∧ e ≤ d.finish ∧ (a = d.start → g.height = g.cells.length)

variable {g : Stage} {a e b c : Nat}

theorem Serves.part (h : g.Serves a e) (n : Nat) (ha : a ≤ b) (he : c ≤ e) (hn : b = a → n = 0) :
    (g.raise n).Serves b c where
  complete d hd := ⟨(h.complete d hd).1, (h.complete d hd).2.trans ha⟩
  making d hd := by
    obtain ⟨hstart, hfinish, hheight⟩ := h.making d hd
    refine ⟨hstart.trans ha, he.trans hfinish, fun hb => ?_⟩
    have hsame : b = a := by omega
    rw [hn hsame]
    exact hheight (by omega)

/-- What comes behind the start. -/
theorem Serves.later (h : g.Serves a e) (n : Nat) (ha : a < b) (he : c ≤ e) : (g.raise n).Serves b c :=
  h.part n (Nat.le_of_lt ha) he (by omega)

/-- Behind code that leaves fewer values than it takes bytes. -/
theorem Serves.behind {n w : Nat} (h : g.Serves a e) (hn : n ≤ w) (he : c ≤ e) :
    (g.raise n).Serves (a+w) c :=
  h.part n (Nat.le_add_right a w) he (by omega)

theorem Serves.first (h : g.Serves a e) (he : c ≤ e) : g.Serves a c :=
  h.part 0 (Nat.le_refl a) he fun _ => rfl

theorem plain_serves {cells : List Cell}
    (h : ∀ d, .declared d ∈ cells → d.start < d.finish ∧ d.finish ≤ a) (e : Nat) :
    (plain cells).Serves a e :=
  ⟨h, nofun⟩

end Stage

open Stage (Becomes)

/-- Some of the instructions have a stage that one comes to at an offset. -/
def Finds (marks : List (Instruction × Stage)) (offset : Nat) (g : Stage) : Prop :=
  ∃ x ∈ marks, x.1.offset = offset ∧ Becomes offset g x.2

theorem Finds.mono {marks more : List (Instruction × Stage)} (hmore : marks ⊆ more) {offset : Nat}
    {g : Stage} (h : Finds marks offset g) : Finds more offset g := by
  obtain ⟨x, hx, hoffset, hbecomes⟩ := h
  exact ⟨x, hmore hx, hoffset, hbecomes⟩

theorem Finds.start {marks : List (Instruction × Stage)} {offset : Nat} {g j : Stage}
    (h : Finds marks offset j) (hg : Becomes offset g j) : Finds marks offset g := by
  obtain ⟨x, hx, hoffset, hbecomes⟩ := h
  exact ⟨x, hx, hoffset, hg.trans hbecomes⟩

/-- An instruction of a function leaves the cells in scope alone, and leads on to offsets and stages
of some kind. -/
structure Program.Passes (p : Program) (f : Function) (x : Instruction × Stage)
    (Q : Nat → Stage → Prop) : Prop where
  serves : x.2.Serves x.1.offset (x.1.offset+1)
  onward : ∀ e, p.Charges f x.1 e → x.2.cells.length+x.1.removes e ≤ x.2.height ∧
    ∀ y, f.Follows x.1 e x.2.height y → Q y.1 {x.2 with height := y.2}

theorem Program.Passes.mono {p : Program} {f : Function} {x : Instruction × Stage}
    {Q R : Nat → Stage → Prop} (h : p.Passes f x Q) (hqr : ∀ o g, Q o g → R o g) : p.Passes f x R :=
  ⟨h.serves, fun e he => ⟨(h.onward e he).1, fun y hy => hqr _ _ ((h.onward e he).2 y hy)⟩⟩

theorem Program.Passes.cells_le {p : Program} {f : Function} {x : Instruction × Stage}
    {Q : Nat → Stage → Prop} (h : p.Passes f x Q) {e : Effect} (he : p.Charges f x.1 e)
    {y : Nat × Nat} (hy : f.Follows x.1 e x.2.height y) : x.2.cells.length ≤ y.2 := by
  have hroom := (h.onward e he).1
  unfold Instruction.removes at hroom
  by_cases hend : x.1.op = .endRepeat
  · obtain rfl := he.effect_eq (by simp [hend]) (by simp [hend])
    have heffect : x.1.op.effect = ⟨0, 0⟩ := by rw [hend]; rfl
    rw [if_pos hend] at hroom
    cases hy <;> simp only [heffect] <;> omega
  · rw [if_neg hend] at hroom
    cases hy with
    | next | jump => simp only; omega
    | out hout => exact absurd hout hend

/-- Leaves to one offset, at one stage. -/
def Exit (offset : Nat) (g : Stage) (o : Nat) (q : Stage) : Prop := o = offset ∧ q = g

/-- The instruction of a name looks it up in the slot of its newest cell, or among the global variables
if there is none. -/
inductive Use.Names (f : Function) (u : Use) : Instruction → Prop
  | slot {slot : Nat} (h : u.slot? = some slot) :
    Names f u ((u.directive .frame (.ofNat slot)).at_ u.offset)
  | global {index : UInt8} (h : u.slot? = none) (hindex : f.chunk.constant? index = some (.text u.name)) :
    Names f u ((u.directive .global index).at_ u.offset)

theorem Use.Names.offset_eq {f : Function} {u : Use} {i : Instruction} (h : u.Names f i) :
    i.offset = u.offset := by
  cases h <;> rfl

/-- An instruction is that of a name, or one that names no slot. -/
inductive Tells (f : Function) (i : Instruction) (cells : List Cell) : List Use → Prop
  | nothing (h : i.operand.layout ≠ .slot) : Tells f i cells []
  | name {u : Use} (h : u.Names f i) (hcells : u.cells = cells) : Tells f i cells [u]

/-- Directives of a function, from an offset on, have stages: from the first at the start to the last at
the end, or out by an exit of some kind. The names in them have instructions at which their cells are in
scope, and no others name slots. -/
def Tour (p : Program) (f : Function) (a : Nat) (ds : List Directive) (g g' : Stage)
    (X : Nat → Stage → Prop) (us : List Use) : Prop :=
  ∃ marks : List (Instruction × Stage), marks.map Prod.fst = place a ds ∧
    (∀ x ∈ marks, p.Passes f x fun o q =>
      Finds marks o q ∨ o = a+size ds ∧ Becomes o q g' ∨ X o q) ∧
    (Finds marks a g ∨ ds = [] ∧ Becomes a g g') ∧
    (∀ u ∈ us, ∃ x ∈ marks, u.Names f x.1 ∧ x.2.cells = u.cells) ∧
    ∀ x ∈ marks, x.1.operand.layout = .slot → ∃ u ∈ us, u.Names f x.1

/-- Operations that go straight on, with an effect of their own; that of a call is its callee's. -/
def Opcode.settled : Opcode → Bool
  | call | callNative => false
  | op => op.straight

theorem Opcode.settled_spec {op : Opcode} (h : op.settled = true) :
    op.straight = true ∧ op ≠ .call ∧ op ≠ .callNative := by
  cases op <;> simp_all [settled, straight]

namespace Tour

variable {p : Program} {f : Function} {a : Nat} {d : Directive} {ds es : List Directive}
  {g j l g' : Stage} {X Y Z : Nat → Stage → Prop} {us vs : List Use}

theorem nil (h : Becomes a g g') : Tour p f a [] g g' X [] :=
  ⟨[], rfl, List.forall_mem_nil _, .inr ⟨rfl, h⟩, List.forall_mem_nil _, List.forall_mem_nil _⟩

theorem start (h : Tour p f a ds j g' X us) (hg : Becomes a g j) : Tour p f a ds g g' X us := by
  obtain ⟨marks, hplace, hpasses, hentry, huses⟩ := h
  refine ⟨marks, hplace, hpasses, ?_, huses⟩
  rcases hentry with hentry | ⟨hempty, hentry⟩
  · exact .inl (hentry.start hg)
  · exact .inr ⟨hempty, hg.trans hentry⟩

theorem finish (h : Tour p f a ds g j X us) (hj : Becomes (a+size ds) j g') :
    Tour p f a ds g g' X us := by
  obtain ⟨marks, hplace, hpasses, hentry, huses⟩ := h
  refine ⟨marks, hplace, fun x hx => (hpasses x hx).mono ?_, ?_, huses⟩
  · rintro o q (hq | ⟨rfl, hq⟩ | hq)
    · exact .inl hq
    · exact .inr (.inl ⟨rfl, hq.trans hj⟩)
    · exact .inr (.inr hq)
  · rcases hentry with hentry | ⟨rfl, hentry⟩
    · exact .inl hentry
    · exact .inr ⟨rfl, hentry.trans hj⟩

/-- One tour after another. The first may also leave to the end of the second, the second back to the
start of the first. -/
theorem seq (h : Tour p f a ds g j X us) (k : Tour p f (a+size ds) es j l Y vs)
    (hx : ∀ o q, X o q → o = a+size ds+size es ∧ Becomes o q l ∨ Z o q)
    (hy : ∀ o q, Y o q → o = a ∧ Becomes o q g ∨ Z o q) :
    Tour p f a (ds++es) g l Z (us++vs) := by
  obtain ⟨marks, hplace, hpasses, hentry, huses, hslots⟩ := h
  obtain ⟨more, hplace', hpasses', hentry', huses', hslots'⟩ := k
  have hfirst : marks ⊆ marks++more := List.subset_append_left ..
  have hsecond : more ⊆ marks++more := List.subset_append_right ..
  have hmiddle (q : Stage) (hq : Becomes (a+size ds) q j) : Finds (marks++more) (a+size ds) q ∨
      a+size ds = a+size (ds++es) ∧ Becomes (a+size ds) q l := by
    rcases hentry' with hentry' | ⟨rfl, hentry'⟩
    · exact .inl ((hentry'.start hq).mono hsecond)
    · exact .inr ⟨by simp, hq.trans hentry'⟩
  have hstart (q : Stage) (hq : Becomes a q g) : Finds (marks++more) a q ∨
      a = a+size (ds++es) ∧ Becomes a q l := by
    rcases hentry with hentry | ⟨rfl, hentry⟩
    · exact .inl ((hentry.start hq).mono hfirst)
    · exact hmiddle q (hq.trans hentry)
  refine ⟨marks++more, ?_, ?_, ?_, ?_, ?_⟩
  · rw [List.map_append, hplace, hplace', Directive.place_append]
  · refine List.forall_mem_append.mpr
      ⟨fun x hm => (hpasses x hm).mono ?_, fun x hm => (hpasses' x hm).mono ?_⟩
    · rintro o q (hq | ⟨rfl, hq⟩ | hq)
      · exact .inl (hq.mono hfirst)
      · exact (hmiddle q hq).imp_right .inl
      · refine .inr ((hx o q hq).imp_left fun ⟨ho, hq⟩ => ⟨?_, hq⟩)
        rw [ho, Directive.size_append, Nat.add_assoc]
    · rintro o q (hq | ⟨rfl, hq⟩ | hq)
      · exact .inl (hq.mono hsecond)
      · exact .inr (.inl ⟨by rw [Directive.size_append, Nat.add_assoc], hq⟩)
      · rcases hy o q hq with ⟨rfl, hq⟩ | hq
        · exact (hstart q hq).imp_right .inl
        · exact .inr (.inr hq)
  · rcases hstart g .refl with h | ⟨hend, h⟩
    · exact .inl h
    · refine .inr ⟨?_, h⟩
      cases hds : ds++es with
      | nil => rfl
      | cons d ds =>
        rw [hds, Directive.size_cons] at hend
        have := d.width_pos
        omega
  · refine List.forall_mem_append.mpr ⟨fun u hu => ?_, fun u hu => ?_⟩
    · obtain ⟨x, hm, h⟩ := huses u hu
      exact ⟨x, hfirst hm, h⟩
    · obtain ⟨x, hm, h⟩ := huses' u hu
      exact ⟨x, hsecond hm, h⟩
  · refine List.forall_mem_append.mpr ⟨fun x hm hslot => ?_, fun x hm hslot => ?_⟩
    · obtain ⟨u, hu, h⟩ := hslots x hm hslot
      exact ⟨u, List.mem_append_left _ hu, h⟩
    · obtain ⟨u, hu, h⟩ := hslots' x hm hslot
      exact ⟨u, List.mem_append_right _ hu, h⟩

theorem one (hserves : g.Serves a (a+1)) (hon : ∀ e, p.Charges f (d.at_ a) e →
      g.cells.length+(d.at_ a).removes e ≤ g.height ∧ ∀ y, f.Follows (d.at_ a) e g.height y →
        y.1 = a+d.width ∧ Becomes y.1 {g with height := y.2} g' ∨ X y.1 {g with height := y.2})
    (hus : Tells f (d.at_ a) g.cells us) : Tour p f a [d] g g' X us := by
  have hmem : (d.at_ a, g) ∈ [(d.at_ a, g)] := List.mem_singleton_self _
  refine ⟨[(d.at_ a, g)], rfl, List.forall_mem_singleton.mpr ⟨hserves, fun e he => ?_⟩,
    .inl ⟨_, hmem, rfl, .refl⟩, ?_⟩
  · refine ⟨(hon e he).1, fun y hy => .inr (((hon e he).2 y hy).imp_left fun h => ?_)⟩
    simpa using h
  · cases hus with
    | nothing hslot =>
      exact ⟨nofun, List.forall_mem_singleton.mpr fun h => absurd h hslot⟩
    | @name u hnames hcells =>
      refine ⟨List.forall_mem_singleton.mpr ⟨_, hmem, hnames, hcells.symm⟩, ?_⟩
      exact List.forall_mem_singleton.mpr fun _ => ⟨u, List.mem_singleton_self _, hnames⟩

/-- A directive that goes straight on, with a known effect on values over those of a stage. -/
theorem straight {t : Effect} {n : Nat} (hop : d.op.straight = true)
    (ht : ∀ e, p.Charges f (d.at_ a) e → e = t) (hserves : (g.raise n).Serves a (a+1))
    (hroom : g.cells.length ≤ g.height) (hpops : t.pops ≤ n)
    (hus : Tells f (d.at_ a) g.cells us) :
    Tour p f a [d] (g.raise n) (g.raise (n-t.pops+t.pushes)) X us := by
  refine one hserves (fun e he => ?_) hus
  obtain rfl := ht e he
  have hend : d.op ≠ .endRepeat := by
    intro hend
    rw [hend] at hop
    cases hop
  constructor
  · rw [Instruction.removes, if_neg (show (d.at_ a).op ≠ .endRepeat from hend)]
    simp only [Stage.cells_raise, Stage.height_raise]
    omega
  · intro y hy
    cases hy with
    | next =>
      refine .inl ⟨rfl, ?_⟩
      have hheight : g.height+n-e.pops+e.pushes = g.height+(n-e.pops+e.pushes) := by omega
      simp only [Stage.height_raise, hheight]
      exact .refl
    | jump htarget =>
      have hjumps := Instruction.jumps_of_target? (i := d.at_ a) d.laid htarget
      rcases hjumps with h | h | ⟨truth, h⟩ <;> rw [show d.op = _ from h] at hop <;> cases hop
    | out hout => exact absurd hout hend

/-- The same where the effect is told by the operation. -/
theorem usual {n : Nat} (hop : d.op.settled = true) (hserves : (g.raise n).Serves a (a+1))
    (hroom : g.cells.length ≤ g.height) (hpops : d.op.effect.pops ≤ n)
    (hus : Tells f (d.at_ a) g.cells us) :
    Tour p f a [d] (g.raise n) (g.raise (n-d.op.effect.pops+d.op.effect.pushes)) X us := by
  obtain ⟨hstraight, hcall, hnative⟩ := Opcode.settled_spec hop
  exact straight hstraight (fun _ he => he.effect_eq hcall hnative) hserves hroom hpops hus

/-- The same where no slot is named. -/
theorem silent {n : Nat} (hop : d.op.settled = true) (hslot : (d.operand.layout == .slot) = false)
    (hserves : (g.raise n).Serves a (a+1)) (hroom : g.cells.length ≤ g.height)
    (hpops : d.op.effect.pops ≤ n) :
    Tour p f a [d] (g.raise n) (g.raise (n-d.op.effect.pops+d.op.effect.pushes)) X [] :=
  usual hop hserves hroom hpops (.nothing (beq_eq_false_iff_ne.mp hslot))

theorem pop (hserves : (g.raise 1).Serves a (a+1)) (hroom : g.cells.length ≤ g.height) :
    Tour p f a [.pop] (g.raise 1) g X [] :=
  silent rfl rfl hserves hroom (Nat.le_refl 1)

theorem newline (hserves : g.Serves a (a+1)) (hroom : g.cells.length ≤ g.height) :
    Tour p f a [.newline] g g X [] :=
  silent (n := 0) rfl rfl hserves hroom (Nat.le_refl 0)

section
variable {n : Nat}

theorem jumpIf {truth : Bool} (hserves : g.Serves a (a+1)) (hroom : g.cells.length ≤ g.height)
    (hn : n < 0x10000) : Tour p f a [.jumpIf truth n] g g (Exit (a+3+n) g) [] := by
  refine one hserves (fun e he => ?_) (.nothing nofun)
  obtain rfl := he.effect_eq (by nofun) (by nofun)
  refine ⟨hroom, fun y hy => ?_⟩
  cases hy with
  | next => exact .inl ⟨rfl, .refl⟩
  | jump ht =>
    cases ht
    have hdistance : (UInt16.ofNat n).toNat = n := UInt16.toNat_ofNat_of_lt hn
    rw [hdistance]
    exact .inr ⟨rfl, rfl⟩
  | out hend => cases hend

theorem jump (hserves : g.Serves a (a+1)) (hroom : g.cells.length ≤ g.height)
    (hn : n < 0x10000) : Tour p f a [.jump n] g g' (Exit (a+3+n) g) [] := by
  refine one hserves (fun e he => ?_) (.nothing nofun)
  obtain rfl := he.effect_eq (by nofun) (by nofun)
  refine ⟨hroom, fun y hy => ?_⟩
  cases hy with
  | next _ hjump => exact absurd rfl hjump
  | jump ht =>
    cases ht
    have hdistance : (UInt16.ofNat n).toNat = n := UInt16.toNat_ofNat_of_lt hn
    rw [hdistance]
    exact .inr ⟨rfl, rfl⟩
  | out hend => cases hend

theorem back (hserves : g.Serves a (a+1)) (hroom : g.cells.length ≤ g.height)
    (hn : n < 0x10000) : Tour p f a [.back n] g g' (Exit (a+3-n) g) [] := by
  refine one hserves (fun e he => ?_) (.nothing nofun)
  obtain rfl := he.effect_eq (by nofun) (by nofun)
  refine ⟨hroom, fun y hy => ?_⟩
  cases hy with
  | next _ _ hloop => exact absurd rfl hloop
  | jump ht =>
    have hdistance : (UInt16.ofNat n).toNat = n := UInt16.toNat_ofNat_of_lt hn
    simp only [Instruction.target?, Directive.at_, Directive.back, hdistance] at ht
    split at ht
    · cases ht
      exact .inr ⟨rfl, rfl⟩
    · cases ht
  | out hend => cases hend

/-- The count of a loop is taken off the stack, and put back unless it is used up. -/
theorem endRepeat (hserves : (g.raise 1).Serves a (a+1)) (hroom : g.cells.length ≤ g.height)
    (hloop : (Directive.back n).at_ (a+1) ∈ f.chunk.instructions) :
    Tour p f a [.endRepeat] (g.raise 1) (g.raise 1) (Exit (a+4) g) [] := by
  refine one hserves (fun e he => ?_) (.nothing nofun)
  obtain rfl := he.effect_eq (by nofun) (by nofun)
  refine ⟨Nat.succ_le_succ hroom, fun y hy => ?_⟩
  cases hy with
  | next => exact .inl ⟨rfl, .refl⟩
  | jump ht => cases ht
  | @out j _ hj hoffset =>
    obtain rfl := Instruction.eq_of_offset hj hloop hoffset
    exact .inr ⟨rfl, rfl⟩

/-- Nothing of a call is left where it returns. -/
theorem ret (hserves : (g.raise 1).Serves a (a+1)) (hroom : g.cells.length ≤ g.height) :
    Tour p f a [.plain .ret rfl] (g.raise 1) g' X [] := by
  refine one hserves (fun e he => ?_) (.nothing nofun)
  obtain rfl := he.effect_eq (by nofun) (by nofun)
  refine ⟨Nat.succ_le_succ hroom, fun y hy => ?_⟩
  cases hy with
  | next hret => exact absurd rfl hret
  | jump ht => cases ht
  | out hend => cases hend

end

/-! Jumps as expressions and statements have them. Nothing leaves their code but at its end. -/

/-- Leaves by no other exit. -/
abbrev Closed (p : Program) (f : Function) (a : Nat) (ds : List Directive) (g g' : Stage)
    (us : List Use) : Prop :=
  Tour p f a ds g g' (fun _ _ => False) us

theorem Closed.before (h : Closed p f a ds g j us) (k : Tour p f (a+size ds) es j l X vs) :
    Tour p f a (ds++es) g l X (us++vs) :=
  seq (X := fun _ _ => False) h k (fun _ _ hx => hx.elim) fun _ _ => .inr

theorem Closed.then {b : Nat} (h : Closed p f a ds g j us) (hb : b = a+size ds)
    (k : Closed p f b es j l vs) : Closed p f a (ds++es) g l (us++vs) :=
  h.before (hb ▸ k)

theorem either (truth : Bool) {right : Phrase}
    (hright : Closed p f (a+4) right.directives g (g.raise 1) us)
    (hserves : (g.raise 1).Serves a (a+4)) (hroom : g.cells.length ≤ g.height)
    (hfit : size right.directives+1 < 0x10000) :
    Closed p f a (Phrase.either truth right).directives (g.raise 1) (g.raise 1) us := by
  have hjump : Tour p f a [.jumpIf truth (size right.directives+1)] (g.raise 1) (g.raise 1) _ [] :=
    jumpIf (hserves.first (by omega)) (Nat.le_succ_of_le hroom) hfit
  have hpop : Closed p f (a+3) [.pop] (g.raise 1) g [] :=
    pop (hserves.later 0 (by omega) (by omega)) hroom
  refine hjump.seq (Closed.before hpop hright) ?_ fun _ _ => .inr
  rintro o q ⟨rfl, rfl⟩
  exact .inl ⟨by simp; omega, .refl⟩

section
variable (hserves : ∀ n b, a ≤ b → (g.raise n).Serves b (b+1)) (hroom : g.cells.length ≤ g.height)
include hserves hroom

theorem branch {yes no : Phrase} (hyes : Closed p f (a+4) yes.directives g g us)
    (hno : Closed p f (a+size yes.directives+8) no.directives g g vs)
    (hfit : size yes.directives+4 < 0x10000) (hfit' : size no.directives+1 < 0x10000) :
    Closed p f a (Phrase.branch yes no).directives (g.raise 1) g (us++vs) := by
  have hjump : Tour p f a [.jumpIf false (size yes.directives+4)] (g.raise 1) (g.raise 1) _ [] :=
    jumpIf (hserves 1 _ (Nat.le_refl a)) (Nat.le_succ_of_le hroom) hfit
  have hpop {b : Nat} (hb : a ≤ b) : Closed p f b [.pop] (g.raise 1) g [] :=
    pop (hserves 1 _ hb) hroom
  have hover : Tour p f (a+4+size yes.directives) [.jump (size no.directives+1)] g (g.raise 1) _ [] :=
    jump (hserves 0 _ (by omega)) hroom hfit'
  -- the way around the first part leads to its end, the one around the second to the end of all
  have hfirst : Tour p f a (.jumpIf false (size yes.directives+4) :: .pop ::
      (yes.directives++[Directive.jump (size no.directives+1)])) (g.raise 1) (g.raise 1)
      (Exit (a+4+size yes.directives+3+(size no.directives+1)) g) (us++[]) := by
    refine hjump.seq (Closed.before (hpop (by omega)) (Closed.before hyes hover)) ?_ fun _ _ => .inr
    rintro o q ⟨rfl, rfl⟩
    exact .inl ⟨by simp; omega, .refl⟩
  have hlast : Closed p f (a+size yes.directives+7) (.pop :: no.directives) (g.raise 1) g vs :=
    Closed.before (hpop (by omega)) hno
  rw [List.append_nil] at hfirst
  have hwhole := hfirst.seq (Z := fun _ _ => False) (cast (by congr 1; simp; omega) hlast) (by
    rintro o q ⟨rfl, rfl⟩
    exact .inl ⟨by simp; omega, .refl⟩) fun _ _ => False.elim
  simpa [Phrase.directives] using hwhole

theorem loop {test body : Phrase} (htest : Closed p f a test.directives g (g.raise 1) us)
    (hbody : Closed p f (a+size test.directives+4) body.directives g g vs)
    (hfit : size test.directives+size body.directives+7 < 0x10000) :
    Closed p f a (Phrase.loop test body).directives g g (us++vs) := by
  have hjump : Tour p f (a+size test.directives) [.jumpIf false (size body.directives+4)] (g.raise 1)
      (g.raise 1) _ [] :=
    jumpIf (hserves 1 _ (by omega)) (Nat.le_succ_of_le hroom) (by omega)
  have hpop {b : Nat} (hb : a ≤ b) : Closed p f b [.pop] (g.raise 1) g [] :=
    pop (hserves 1 _ hb) hroom
  have hback : Tour p f (a+size test.directives+4+size body.directives)
      [.back (size test.directives+size body.directives+7)] g (g.raise 1) _ [] :=
    back (hserves 0 _ (by omega)) hroom hfit
  -- out of the loop, and back to its test
  have hround : Tour p f (a+size test.directives) (.jumpIf false (size body.directives+4) :: .pop ::
      (body.directives++[Directive.back (size test.directives+size body.directives+7)])) (g.raise 1)
      (g.raise 1) (Exit a g) (vs++[]) := by
    refine hjump.seq (Closed.before (hpop (by omega)) (Closed.before hbody hback)) ?_ ?_
    · rintro o q ⟨rfl, rfl⟩
      exact .inl ⟨by simp; omega, .refl⟩
    · rintro o q ⟨rfl, rfl⟩
      exact .inr ⟨by omega, rfl⟩
  rw [List.append_nil] at hround
  have hall : Closed p f a (test.directives++Directive.jumpIf false (size body.directives+4) :: .pop ::
      (body.directives++[Directive.back (size test.directives+size body.directives+7)])) g (g.raise 1)
      (us++vs) := by
    refine seq (X := fun _ _ => False) htest hround (fun _ _ => False.elim) ?_
    rintro o q ⟨rfl, rfl⟩
    exact .inl ⟨rfl, .refl⟩
  have hwhole := Closed.before hall (hpop (by omega))
  simpa [Phrase.directives] using hwhole

end

/-- The count is the newest cell in the body. Behind the loop it is gone. -/
theorem counted {cells : List Cell} {body : Phrase}
    (hbody : Closed p f a body.directives (.plain (.counter :: cells)) (.plain (.counter :: cells)) us)
    (hserves : ∀ n b, a ≤ b → ((Stage.plain cells).raise n).Serves b (b+1))
    (hloop : (Directive.back (size body.directives+4)).at_ (a+size body.directives+1) ∈
      f.chunk.instructions)
    (hfit : size body.directives+4 < 0x10000) :
    Closed p f a (Phrase.counted body).directives ((Stage.plain cells).raise 1) (.plain cells) us := by
  have hroom : cells.length ≤ (Stage.plain cells).height := Nat.le_refl _
  have hend : Tour p f (a+size body.directives) [.endRepeat] ((Stage.plain cells).raise 1)
      ((Stage.plain cells).raise 1) _ [] :=
    endRepeat (hserves 1 _ (by omega)) hroom hloop
  have hback : Tour p f (a+size body.directives+1) [.back (size body.directives+4)]
      ((Stage.plain cells).raise 1) (.plain cells) _ [] :=
    back (hserves 1 _ (by omega)) (Nat.le_succ_of_le hroom) hfit
  have hlast : Tour p f (a+size body.directives) [.endRepeat, .back (size body.directives+4)]
      ((Stage.plain cells).raise 1) (.plain cells) (Exit a ((Stage.plain cells).raise 1)) [] := by
    refine hend.seq hback ?_ ?_
    · rintro o q ⟨rfl, rfl⟩
      exact .inl ⟨rfl, .refl⟩
    · rintro o q ⟨rfl, rfl⟩
      exact .inr ⟨by omega, rfl⟩
  have hwhole := seq (X := fun _ _ => False) (Z := fun _ _ => False)
    (hbody.start (.single .counts)) (hlast.start (.single .forgets)) (fun _ _ => False.elim)
    (by
      rintro o q ⟨rfl, rfl⟩
      exact .inl ⟨rfl, .refl⟩)
  rwa [List.append_nil] at hwhole

end Tour
end RatScript
