import RatScript.Proofs.Syntax.Code

/-!
Scoping. The tree alone tells what is in scope where a name stands in the body of a runnable: the
cells that parameters, declarations and counted loops around it have made so far, the newest first.
With the widths of the code it also tells where the name is looked up.
-/

namespace RatScript

open Directive (size)

/-- A declaration of a variable in the body of a runnable, with the offsets at which its code begins
and ends. -/
structure Declaration where
  name : String
  start : Nat
  finish : Nat
  deriving DecidableEq

/-- A cell on the stack of a call. The one of a counted loop has no name. -/
inductive Cell where
  | parameter (name : String)
  | declared (d : Declaration)
  | counter
  deriving DecidableEq

namespace Cell

def name? : Cell → Option String
  | parameter x => some x
  | declared d => some d.name
  | counter => none

/-- The slot of the newest cell of a name. -/
def slotIn (x : String) : List Cell → Option Nat
  | [] => none
  | c :: older => if c.name? = some x then some older.length else slotIn x older

theorem slotIn_eq (x : String) (cells : List Cell) :
    View.slotIn x (cells.map name?) = slotIn x cells := by
  induction cells with
  | nil => rfl
  | cons c older ih => simp only [List.map_cons, View.slotIn, slotIn, ih, List.length_map]

/-- A cell is the newest of a name, over those that are in the slots before its own. -/
def Newest (x : String) (cells : List Cell) (slot : Nat) (c : Cell) : Prop :=
  ∃ newer older, cells = newer++c :: older ∧ older.length = slot ∧ c.name? = some x ∧
    ∀ d ∈ newer, d.name? ≠ some x

theorem slotIn_eq_some {x : String} {cells : List Cell} {slot : Nat} :
    slotIn x cells = some slot ↔ ∃ c, Newest x cells slot c := by
  induction cells with
  | nil => simp [slotIn, Newest]
  | cons d cells ih =>
    rw [slotIn]
    split
    · next hname =>
      constructor
      · intro h
        cases h
        exact ⟨d, [], cells, rfl, rfl, hname, nofun⟩
      · rintro ⟨c, newer, older, hcells, rfl, _, hnewer⟩
        cases newer with
        | nil =>
          cases hcells
          rfl
        | cons e newer =>
          cases hcells
          exact absurd hname (hnewer _ (List.mem_cons_self ..))
    · next hname =>
      rw [ih]
      constructor
      · rintro ⟨c, newer, older, rfl, hslot, hc, hnewer⟩
        exact ⟨c, d :: newer, older, rfl, hslot, hc, List.forall_mem_cons.mpr ⟨hname, hnewer⟩⟩
      · rintro ⟨c, newer, older, hcells, hslot, hc, hnewer⟩
        cases newer with
        | nil =>
          cases hcells
          exact absurd hc hname
        | cons e newer =>
          cases hcells
          exact ⟨c, newer, older, rfl, hslot, hc, (List.forall_mem_cons.mp hnewer).2⟩

theorem slotIn_eq_none {x : String} {cells : List Cell} :
    slotIn x cells = none ↔ ∀ c ∈ cells, c.name? ≠ some x := by
  induction cells with
  | nil => simp [slotIn]
  | cons d cells ih =>
    rw [slotIn, List.forall_mem_cons, ← ih]
    split
    · next hname => simp [hname]
    · next hname => exact (and_iff_right hname).symm

theorem Newest.cell {x : String} {cells : List Cell} {slot : Nat} {c : Cell}
    (h : Newest x cells slot c) : cells.reverse[slot]? = some c := by
  obtain ⟨newer, older, rfl, rfl, _⟩ := h
  simp

end Cell

/-- A place in the body of a runnable: an offset of its code, and the cells in scope there. -/
structure Sight where
  offset : Nat
  cells : List Cell

namespace Sight

def forward (s : Sight) (n : Nat) : Sight := {s with offset := s.offset+n}

/-- Behind a declaration whose code takes so many bytes. -/
def declaring (s : Sight) (x : String) (width : Nat) : Sight :=
  ⟨s.offset+width, .declared ⟨x, s.offset, s.offset+width⟩ :: s.cells⟩

def counting (s : Sight) : Sight := {s with cells := .counter :: s.cells}

/-- Behind a scope, whose own cells are taken off one by one. -/
def closing (s outside : Sight) : Sight :=
  ⟨s.offset+(s.cells.length-outside.cells.length), outside.cells⟩

end Sight

/-- A name that stands for a variable, to be read or assigned to. -/
structure Use where
  name : String
  target : Option Assignment
  /-- Where in the code the variable is looked up. -/
  offset : Nat
  /-- What is in scope. -/
  cells : List Cell

namespace Use

def slot? (u : Use) : Option Nat := Cell.slotIn u.name u.cells

def directive (u : Use) : Scope → UInt8 → Directive :=
  match u.target with
  | none => .get
  | some a => .assign a

end Use

namespace Infix

/-- Bytes in front of the right operand, where it may be left out. -/
def lead : Infix → Nat
  | and | or => 4
  | _ => 0

/-- Bytes behind the right operand. -/
def trail : Infix → Nat
  | operator _ => 1
  | comparison c => size (Phrase.comparison c).directives
  | and | or => 0

end Infix

namespace Expr

/-- Bytes of code. -/
def width : {k : ExprKind} → Expr k → Nat
  | _, number _ | _, text _ | _, name _ | _, count _ _ => 2
  | _, literal _ => 1
  | _, group e | _, head e => e.width
  | _, unary _ e => e.width+1
  | _, assign _ _ e => e.width+2
  | _, call x arguments => 2+arguments.width+(if (Native.ofName? x).isSome then 3 else 2)
  | _, join left i right => left.width+(i.lead+right.width+i.trail)
  | _, nil => 0
  | _, cons first rest => first.width+rest.width

/-- Names of variables in the order in which they are looked up, from an offset on. -/
def uses (cells : List Cell) : {k : ExprKind} → Expr k → Nat → List Use
  | _, name x, offset => [⟨x, none, offset, cells⟩]
  | _, count x up, offset => [⟨x, some (.count up), offset, cells⟩]
  | _, assign x op e, offset =>
    e.uses cells offset++[⟨x, some (assignment op), offset+e.width, cells⟩]
  | _, group e, offset | _, head e, offset | _, unary _ e, offset => e.uses cells offset
  | _, call _ arguments, offset => arguments.uses cells (offset+2)
  | _, join left i right, offset =>
    left.uses cells offset++right.uses cells (offset+left.width+i.lead)
  | _, cons first rest, offset => first.uses cells offset++rest.uses cells (offset+first.width)
  | _, _, _ => []

/-- The same of a value that may be left out. -/
def valueWidth : Option (Expr .operand) → Nat
  | none => 1
  | some e => e.width

def valueUses (cells : List Cell) : Option (Expr .operand) → Nat → List Use
  | none, _ => []
  | some e, offset => e.uses cells offset

end Expr

namespace Stmt

/-- The place behind a part of a body. -/
def after : {k : StmtKind} → Stmt k → Sight → Sight
  | _, expression e, s => s.forward (e.width+1)
  | _, declare x value, s => s.declaring x (Expr.valueWidth value)
  | _, if_ test yes, s => (yes.after (s.forward (test.width+5))).forward 4
  | _, ifElse test yes no, s => no.after ((yes.after (s.forward (test.width+5))).forward 5)
  | _, while_ test body, s => (body.after (s.forward (test.width+5))).forward 4
  | _, repeat_ count body, s =>
    ⟨(body.after (s.forward (count.width+2)).counting).offset+4, s.cells⟩
  | _, return_ value, s => s.forward (Expr.valueWidth value+1)
  | _, runnable _ _ _, s => s.forward 4
  | _, line first rest, s => rest.after ((first.after s).forward 1)
  | _, scope lines, s => (lines.after s).closing s
  | _, blank, s | _, nil, s => s

/-- Names of variables in a part of a body. -/
def uses : {k : StmtKind} → Stmt k → Sight → List Use
  | _, expression e, s => e.uses s.cells s.offset
  | _, declare _ value, s | _, return_ value, s => Expr.valueUses s.cells value s.offset
  | _, if_ test yes, s =>
    test.uses s.cells s.offset++yes.uses (s.forward (test.width+5))
  | _, ifElse test yes no, s =>
    test.uses s.cells s.offset++yes.uses (s.forward (test.width+5))++
      no.uses ((yes.after (s.forward (test.width+5))).forward 5)
  | _, while_ test body, s => test.uses s.cells s.offset++body.uses (s.forward (test.width+5))
  | _, repeat_ count body, s =>
    count.uses s.cells s.offset++body.uses (s.forward (count.width+2)).counting
  | _, line first rest, s => first.uses s++rest.uses ((first.after s).forward 1)
  | _, scope lines, s => lines.uses s
  | _, _, _ => []

end Stmt

/-! A byte tells every slot. -/

/-- Cells of names have slots that a byte can tell. -/
def Cell.Told (cells : List Cell) : Prop :=
  ∀ slot c, cells.reverse[slot]? = some c → c ≠ .counter → slot < Compile.maxLocals

theorem Cell.Told.cons {c : Cell} {cells : List Cell} (h : Told cells)
    (hc : c ≠ .counter → cells.length < Compile.maxLocals) : Told (c :: cells) := by
  intro slot d hcell hd
  rw [List.reverse_cons] at hcell
  by_cases hslot : slot < cells.length
  · rw [List.getElem?_append_left (by simpa using hslot)] at hcell
    exact h slot d hcell hd
  · rw [List.getElem?_append_right (by simpa using hslot), List.getElem?_singleton] at hcell
    split at hcell
    · next hzero =>
      cases hcell
      have := hc hd
      rw [List.length_reverse] at hzero
      omega
    · cases hcell

theorem Expr.cells_of_mem_uses {k : ExprKind} {e : Expr k} {cells : List Cell} {offset : Nat}
    {u : Use} (hu : u ∈ e.uses cells offset) : u.cells = cells := by
  induction e generalizing offset with
  | number | text | literal | nil => cases hu
  | name | count => exact (List.mem_singleton.mp hu) ▸ rfl
  | group _ ih | head _ ih | unary _ _ ih => exact ih hu
  | call _ _ ih => exact ih hu
  | assign _ _ _ ih =>
    rcases List.mem_append.mp hu with hu | hu
    · exact ih hu
    · exact (List.mem_singleton.mp hu) ▸ rfl
  | join _ _ _ ihl ihr =>
    rcases List.mem_append.mp hu with hu | hu
    · exact ihl hu
    · exact ihr hu
  | cons _ _ ihfirst ihrest =>
    rcases List.mem_append.mp hu with hu | hu
    · exact ihfirst hu
    · exact ihrest hu

theorem Expr.cells_of_mem_valueUses {value : Option (Expr .operand)} {cells : List Cell}
    {offset : Nat} {u : Use} (hu : u ∈ valueUses cells value offset) : u.cells = cells := by
  cases value with
  | none => cases hu
  | some e => exact cells_of_mem_uses hu

/-- Where there is room for all locals, the slot of every name is one that a byte can tell. -/
theorem Stmt.Roomy.told {k : StmtKind} {t : Stmt k} {v : Sight} (h : t.Roomy true v.cells.length)
    (hv : Cell.Told v.cells) :
    (t.after v).cells.length = t.localsBehind true v.cells.length ∧
      Cell.Told (t.after v).cells ∧ ∀ u ∈ t.uses v, Cell.Told u.cells := by
  have hexpr {e : Expr .operand} {v : Sight} {offset : Nat} (hv : Cell.Told v.cells) :
      ∀ u ∈ e.uses v.cells offset, Cell.Told u.cells :=
    fun u hu => Expr.cells_of_mem_uses hu ▸ hv
  have hvalue {value : Option (Expr .operand)} {v : Sight} {offset : Nat} (hv : Cell.Told v.cells) :
      ∀ u ∈ Expr.valueUses v.cells value offset, Cell.Told u.cells :=
    fun u hu => Expr.cells_of_mem_valueUses hu ▸ hv
  induction t generalizing v with
  | blank | nil | runnable => exact ⟨rfl, hv, nofun⟩
  | expression => exact ⟨rfl, hv, hexpr hv⟩
  | return_ => exact ⟨rfl, hv, hvalue hv⟩
  | declare x value => exact ⟨rfl, hv.cons fun _ => h rfl, hvalue hv⟩
  | if_ test yes ih =>
    obtain ⟨hlength, htold, huses⟩ := ih (v := v.forward (test.width+5)) h hv
    exact ⟨hlength.trans (localsBehind_scope _ _ _), htold,
      List.forall_mem_append.mpr ⟨hexpr hv, huses⟩⟩
  | while_ test body ih =>
    obtain ⟨hlength, htold, huses⟩ := ih (v := v.forward (test.width+5)) h hv
    exact ⟨hlength.trans (localsBehind_scope _ _ _), htold,
      List.forall_mem_append.mpr ⟨hexpr hv, huses⟩⟩
  | ifElse test yes no ihyes ihno =>
    obtain ⟨hlength, htold, huses⟩ := ihyes (v := v.forward (test.width+5)) h.1 hv
    have hsame := hlength.trans (localsBehind_scope _ _ _)
    obtain ⟨hlength', htold', huses'⟩ :=
      ihno (v := (yes.after (v.forward (test.width+5))).forward 5) (by
        rw [show ((yes.after (v.forward (test.width+5))).forward 5).cells.length = v.cells.length from
          hsame]
        exact h.2) htold
    refine ⟨(hlength'.trans (localsBehind_scope _ _ _)).trans hsame, htold', ?_⟩
    exact List.forall_mem_append.mpr
      ⟨List.forall_mem_append.mpr ⟨hexpr hv, huses⟩, huses'⟩
  | repeat_ count body ih =>
    obtain ⟨_, _, huses⟩ := ih (v := (v.forward (count.width+2)).counting) h (hv.cons fun hc => absurd rfl hc)
    exact ⟨rfl, hv, List.forall_mem_append.mpr ⟨hexpr hv, huses⟩⟩
  | line first rest ihfirst ihrest =>
    obtain ⟨hlength, htold, huses⟩ := ihfirst h.1 hv
    obtain ⟨hlength', htold', huses'⟩ := ihrest (v := (first.after v).forward 1) (by
      rw [show ((first.after v).forward 1).cells.length = _ from hlength]
      exact h.2) htold
    refine ⟨?_, htold', List.forall_mem_append.mpr ⟨huses, huses'⟩⟩
    rw [localsBehind, ← hlength]
    exact hlength'
  | scope lines ih => exact ⟨rfl, hv, (ih h hv).2.2⟩

end RatScript
