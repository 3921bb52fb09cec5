import RatScript.Proofs.Meaning.Anywhere

/-!
Compound assignments beside the plain ones they stand for. The one reads its variable behind its
operand and refuses a declared runnable as a target, the other reads it first and refuses a runnable
as an operand; with an operand that leaves the variable alone nobody can tell them apart.
-/

namespace RatScript

open Stateful Machine
open Directive (size encode)

/-! What an expression does not assign to is as it was. -/

namespace View

theorem eq_of_slotIn {x y : String} {locals : List (Option String)} {k : Nat}
    (hx : slotIn x locals = some k) (hy : slotIn y locals = some k) : x = y := by
  induction locals with
  | nil => cases hx
  | cons l older ih =>
    rw [slotIn] at hx hy
    split at hx
    · next hl =>
      cases hx
      split at hy
      · next hl' => exact Option.some.inj (hl.symm.trans hl')
      · exact absurd (slotIn_lt hy) (Nat.lt_irrefl _)
    · split at hy
      · cases hy
        exact absurd (slotIn_lt hx) (Nat.lt_irrefl _)
      · exact ih hx hy

end View

namespace Store.Spares

variable {xs : List String} {σ τ : Store} {x : String}

theorem lookup (h : Spares xs σ τ) (hx : x ∉ xs) : τ.locals.lookup x = σ.locals.lookup x := by
  have hnames : (τ.locals.map fun l => some l.1) = σ.locals.map fun l => some l.1 := by
    change τ.locals.map (some ∘ Prod.fst) = σ.locals.map (some ∘ Prod.fst)
    rw [← List.map_map, ← List.map_map, h.names]
  cases hslot : View.slotIn x (σ.locals.map fun l => some l.1) with
  | none =>
    rw [View.lookup_of_slotIn_none hslot, View.lookup_of_slotIn_none (hnames ▸ hslot)]
  | some k =>
    obtain ⟨_, c, hbefore, hcell, _⟩ := View.lookup_of_slotIn hslot
    obtain ⟨_, d, hafter, hcell', _⟩ := View.lookup_of_slotIn (hnames ▸ hslot)
    have hsame : τ.cells[k]? = σ.cells[k]? := h.cells k fun y hy hyslot => by
      rw [List.map_map] at hyslot
      exact hx (View.eq_of_slotIn hslot hyslot ▸ hy)
    have hcd : d = c := Option.some.inj (hcell'.symm.trans (hsame.trans hcell))
    rw [hbefore, hafter, hcd]

theorem global (h : Spares xs σ τ) (hx : x ∉ xs) : τ.globals x = σ.globals x := h.globals x (.inl hx)

end Store.Spares

/-! Reading a variable, and reading one that is to be changed. -/

namespace Walk

variable {x : String} {line : Nat} {σ τ : Store} {a : Content}

theorem read_local (hx : σ.locals.lookup x = some a) : read line x σ = .ok a σ := by
  simp only [read, Bind.bind, EStateM.bind, get, getThe, MonadStateOf.get, EStateM.get, hx]
  rfl

theorem assignable_local (hx : σ.locals.lookup x = some a) : assignable line x σ = .ok a σ := by
  simp only [assignable, Bind.bind, EStateM.bind, get, getThe, MonadStateOf.get, EStateM.get, hx]
  rfl

theorem global_eq : global line x σ =
    match σ.globals x with
    | some a => .ok a σ
    | none => .error (.failed ⟨.undefined x, line⟩) σ := by
  simp only [global, Bind.bind, EStateM.bind, get, getThe, MonadStateOf.get, EStateM.get]
  cases σ.globals x <;> rfl

theorem read_global (hx : σ.locals.lookup x = none) : read line x σ = global line x σ := by
  simp only [read, Bind.bind, EStateM.bind, get, getThe, MonadStateOf.get, EStateM.get, hx]

theorem assignable_global (hx : σ.locals.lookup x = none) : assignable line x σ =
    match σ.globals x with
    | some a => if a.isCallable then .error (.failed ⟨.assignRunnable x, line⟩) σ else .ok a σ
    | none => .error (.failed ⟨.undefined x, line⟩) σ := by
  simp only [assignable, Bind.bind, EStateM.bind, get, getThe, MonadStateOf.get, EStateM.get, hx,
    global_eq]
  cases σ.globals x with
  | none => rfl
  | some a => cases hcallable : a.isCallable <;> simp [hcallable] <;> rfl

theorem read_written (x : String) (d : Content) (τ : Store) (line : Nat) :
    ∃ ρ, (do write x d; return d : Walk Content) τ = .ok d ρ ∧ read line x ρ = .ok d ρ := by
  cases hx : τ.locals.lookup x with
  | some b =>
    refine ⟨{τ with locals := Store.rebind x d τ.locals}, ?_, read_local (Exec.lookup_rebind hx d)⟩
    simp only [write, modify, modifyGet, MonadStateOf.modifyGet, EStateM.modifyGet, Bind.bind,
      EStateM.bind, hx]
    rfl
  | none =>
    let ρ : Store := {τ with globals := Function.update τ.globals x (some d)}
    have hnone : ρ.locals.lookup x = none := hx
    have hsome : ρ.globals x = some d := Function.update_self ..
    refine ⟨ρ, ?_, ?_⟩
    · simp only [write, modify, modifyGet, MonadStateOf.modifyGet, EStateM.modifyGet, Bind.bind,
        EStateM.bind, hx]
      rfl
    · rw [read_global hnone, global_eq, hsome]

/-- What a variable is read as, and what it is as a target once something else has been done. -/
theorem read_assignable {xs : List String} (h : Store.Spares xs σ τ) (hx : x ∉ xs) (line : Nat) :
    (∃ a, read line x σ = .ok a σ ∧ assignable line x τ = .ok a τ) ∨
    (∃ a, a.isCallable = true ∧ read line x σ = .ok a σ ∧
      assignable line x τ = .error (.failed ⟨.assignRunnable x, line⟩) τ) ∨
    (read line x σ = .error (.failed ⟨.undefined x, line⟩) σ ∧
      assignable line x τ = .error (.failed ⟨.undefined x, line⟩) τ) := by
  have hlookup := h.lookup hx
  have hglobal := h.global hx
  cases hlocal : σ.locals.lookup x with
  | some a =>
    exact .inl ⟨a, read_local hlocal, assignable_local (hlookup.trans hlocal)⟩
  | none =>
    rw [read_global hlocal, global_eq, assignable_global (hlookup.trans hlocal), hglobal]
    cases σ.globals x with
    | none => exact .inr (.inr ⟨rfl, rfl⟩)
    | some a =>
      cases ha : a.isCallable with
      | true => exact .inr (.inl ⟨a, ha, rfl, if_pos ha⟩)
      | false => exact .inl ⟨a, rfl, if_neg (by simp [ha])⟩

end Walk

/-- Runnables are no operands. -/
theorem Content.apply_callable {a : Content} (ha : a.isCallable = true) (op : Operator) (b : Content) :
    ∃ f, a.apply op b = .error f ∧ f.kind = .typeError := by
  cases a with
  | native | runnable =>
    unfold apply
    split <;> exact ⟨_, rfl, rfl⟩
  | none | number | bool | text => cases ha

namespace Expr

variable {x : String} {op : Operator} {e r : Expr .operand} {line : Nat} {σ τ : Store} {a c : Content}
  {s : Stop}

/-- The variable is computed with and given the result, in one. -/
def updating (x : String) (op : Operator) (e : Expr .operand) : Expr .operand :=
  .head (.assign x (some op) e)

/-- The variable is given what is computed with it. -/
def reassigning (x : String) (op : Operator) (e : Expr .operand) : Expr .operand :=
  .head (.assign x none (.join (.head (.name x)) (.operator op) e))

theorem eval_updating (op : Operator) (heval : e.eval line σ = .ok c τ)
    (ha : Walk.assignable line x τ = .ok a τ) :
    (updating x op e).eval line σ =
      match a.apply op c with
      | .ok d => (do Walk.write x d; return d : Walk Content) τ
      | .error f => .error (.failed ⟨f, line⟩) τ := by
  simp only [updating, eval, Bind.bind, EStateM.bind, heval, ha]
  cases a.apply op c <;> rfl

theorem eval_updating_error (heval : e.eval line σ = .ok c τ)
    (hx : Walk.assignable line x τ = .error s τ) : (updating x op e).eval line σ = .error s τ := by
  simp only [updating, eval, Bind.bind, EStateM.bind, heval, hx]
  rfl

theorem eval_reassigning (op : Operator) (ha : Walk.read line x σ = .ok a σ)
    (heval : e.eval line σ = .ok c τ)
    (hx : ∀ d, a.apply op c = .ok d → Walk.assignable line x τ = .ok a τ) :
    (reassigning x op e).eval line σ =
      match a.apply op c with
      | .ok d => (do Walk.write x d; return d : Walk Content) τ
      | .error f => .error (.failed ⟨f, line⟩) τ := by
  simp only [reassigning, eval, Bind.bind, EStateM.bind, ha, heval]
  cases happly : a.apply op c with
  | ok d =>
    simp only [Walk.lift, pure, EStateM.pure, hx d happly]
    rfl
  | error f => rfl

theorem eval_reassigning_error (hx : Walk.read line x σ = .error s σ) :
    (reassigning x op e).eval line σ = .error s σ := by
  simp only [reassigning, eval, Bind.bind, EStateM.bind, hx]

/-- Both get the same value and leave the same variables, or both fail in the same way. -/
theorem eval_either (op : Operator) (hcalls : e.calls = []) (hx : x ∉ e.targets)
    (heval : e.eval line σ = .ok c τ) :
    (∃ d ρ, (updating x op e).eval line σ = .ok d ρ ∧ (reassigning x op e).eval line σ = .ok d ρ ∧
      Walk.read line x ρ = .ok d ρ) ∨
    ∃ f g ρ, f.kind = g.kind ∧ (updating x op e).eval line σ = .error (.failed ⟨f, line⟩) τ ∧
      (reassigning x op e).eval line σ = .error (.failed ⟨g, line⟩) ρ := by
  have hspares : Store.Spares e.targets σ τ :=
    (e.eval_spares hcalls (List.Subset.refl _) line).of_ok heval
  rcases Walk.read_assignable hspares hx line with
    ⟨a, hread, hassign⟩ | ⟨a, ha, hread, hassign⟩ | ⟨hread, hassign⟩
  · have hupdating := eval_updating op heval hassign
    have hreassigning := eval_reassigning op hread heval fun _ _ => hassign
    cases happly : a.apply op c with
    | ok d =>
      obtain ⟨ρ, hwrite, hwritten⟩ := Walk.read_written x d τ line
      simp only [happly, hwrite] at hupdating hreassigning
      exact .inl ⟨d, ρ, hupdating, hreassigning, hwritten⟩
    | error f =>
      simp only [happly] at hupdating hreassigning
      exact .inr ⟨f, f, τ, rfl, hupdating, hreassigning⟩
  · obtain ⟨f, hf, hkind⟩ := Content.apply_callable ha op c
    have hreassigning := eval_reassigning op hread heval fun d hd => by simp [hf] at hd
    simp only [hf] at hreassigning
    exact .inr ⟨.assignRunnable x, f, τ, hkind.symm, eval_updating_error heval hassign, hreassigning⟩
  · exact .inr ⟨_, _, σ, rfl, eval_updating_error heval hassign, eval_reassigning_error hread⟩

/-- Brackets do not show in what an expression does. -/
theorem reassigning_group (x : String) (op : Operator) (line : Nat)
    (hr : r = e ∨ r = .head (.group e)) :
    (reassigning x op r).eval line = (reassigning x op e).eval line ∧ r.calls = e.calls ∧
      r.targets = e.targets := by
  rcases hr with rfl | rfl <;> exact ⟨rfl, rfl, rfl⟩

end Expr

namespace Machine

variable {p q : Program} {v : View} {x : String} {op : Operator} {e r : Expr .operand}
  {c d : Phrase} {m m' : Machine} {offset offset' base : Nat} {callers callers' : List Frame}
  {line : Nat} {a : Content} {ρ : Store}

open RatScript.Expr (updating reassigning)

/-- In two machines with the same variables and cells, `x op= e` in the one and `x = x op e` in the
other either both get behind their code with the same value on top and in `x`, and with the same
variables and cells otherwise, or fail with faults of the same kind. -/
theorem Ready.compound_agrees (hm : m.Ready p v (updating x op e) c offset base callers)
    (hm' : m'.Ready q v (reassigning x op r) d offset' base callers')
    (hr : r = e ∨ r = .head (.group e)) (hcalls : e.calls = []) (hx : x ∉ e.targets)
    (hcontents : m'.contents = m.contents)
    (hstore : m'.store v base m.contents = m.store v base m.contents)
    (heval : e.eval line (m.store v base m.contents) = .ok a ρ) :
    match (updating x op e).eval line (m.store v base m.contents) with
    | .ok b σ => Walk.read line x σ = .ok b σ ∧ ∃ cells n₁ m₁ n₂ m₂,
        m.runFor p n₁ = (.running, m₁) ∧
        m₁.Settled p v base callers (e.targets++[x]) m.contents (offset+size c.directives) [b] σ
          cells ∧
        m'.runFor q n₂ = (.running, m₂) ∧
        m₂.Settled q v base callers' (e.targets++[x]) m.contents (offset'+size d.directives) [b] σ
          cells
    | .error (.failed f) _ => ∃ g l₁ n₁ m₁ l₂ n₂ m₂, g.kind = f.fault.kind ∧
        m.runFor p n₁ = (.failed ⟨f.fault, l₁⟩, m₁) ∧ m'.runFor q n₂ = (.failed ⟨g, l₂⟩, m₂)
    | .error .tired _ => False := by
  obtain ⟨hgroup, hcalls', htargets⟩ := Expr.reassigning_group x op line hr
  -- one more name stands for the cells that have none
  obtain ⟨y, hnames, hslots⟩ := v.exists_fresh ((updating x op e).names++(reassigning x op r).names)
  simp only [List.mem_append, not_or] at hnames
  have hfilled : m'.filled v y base = m.filled v y base := by
    unfold filled
    rw [hcontents, hstore]
  have hrun := hm.computes hcalls hnames.1 hslots line
  have hrun' := hm'.computes (hcalls'.trans hcalls) hnames.2 hslots line
  rw [hfilled, hgroup] at hrun'
  have hbase := hm.based
  rw [← hm.wellFormed.length_contents] at hbase
  have hwithout := Machine.filled_without hbase hslots
  have hignores := (e.eval_ignores hcalls (fun h => hnames.1 (List.mem_append_left _ h)) line).ignores
    (m.filled v y base)
  have hboth := ((updating x op e).eval_ignores hcalls hnames.1 line).ignores (m.filled v y base)
  rw [hwithout] at hignores hboth
  rw [heval] at hignores
  cases hvalue : e.eval line (m.filled v y base) with
  | error => simp [hvalue] at hignores
  | ok b τ =>
    rcases Expr.eval_either op hcalls hx hvalue with
      ⟨b, τ, hupdating, hreassigning, hread⟩ | ⟨f, g, τ', hkind, hupdating, hreassigning⟩
    · simp only [hupdating] at hrun hboth
      simp only [hreassigning] at hrun'
      obtain ⟨n₁, m₁, hrun, hm₁⟩ := hrun
      obtain ⟨n₂, m₂, hrun', hm₂⟩ := hrun'
      have hxy : x ≠ y := fun h => hnames.1 (by simp [updating, Expr.names, h])
      have hread' := (Walk.Ignores.read hxy line).ignores τ
      rw [hread] at hread'
      have hsame : (reassigning x op r).targets = e.targets++[x] := congrArg (·++[x]) htargets
      rw [hcontents, hsame] at hm₂
      rw [hboth]
      exact ⟨hread', _, n₁, m₁, n₂, m₂, hrun, hm₁, hrun', hm₂⟩
    · simp only [hupdating] at hrun hboth
      simp only [hreassigning] at hrun'
      obtain ⟨n₁, m₁, _, _, l₁, hrun, _⟩ := hrun
      obtain ⟨n₂, m₂, _, _, l₂, hrun', _⟩ := hrun'
      rw [hboth]
      exact ⟨g, l₁, n₁, m₁, l₂, n₂, m₂, hkind.symm, hrun, hrun'⟩

/-- A runnable that doubles its parameter in both ways. -/
def twofold : Program where
  functions := #[
    { name := "<script>", arity := 0, locals := #[], chunk := ⟨#[], #[]⟩, enclosing := none,
      lineCount := 0 },
    { name := "double", arity := 1, locals := #["n"],
      chunk := ⟨#[25, 0, 40, 0, 25, 0, 25, 0, 7, 26, 0], #[]⟩, enclosing := some 0, lineCount := 0 }]

/-- Called with a number, at an offset. -/
def doubler (ip : Nat) : Machine :=
  {new {} quiet with
    stack := #[.none, .number (.ofInt 1)]
    frames := [⟨1, ip, 0⟩]
    pools := #[#[], #[]]}

theorem doubler_wellFormed (ip : Nat) : (doubler ip).WellFormed twofold where
  counted := {
    config := rfl
    bound := rfl
    swept := rfl
    pinned := fun _ h => h.elim
    typed := fun _ _ _ => trivial
    sound := Heap.sound_empty
    counts := fun r => by
      simp [doubler, new, held, Globals.empty, Heap.empty, Heap.refs, Heap.refs?, Heap.live?]
    kept := fun r l hl => by simp [doubler, new, Heap.empty, Heap.live?] at hl
    named := by simp [doubler, new, Globals.empty]
    room := show 2 ≤ 1024 by omega
    bases := by simp [doubler, new] }
  pools := .cons .nil (.cons .nil .nil)
  traced := nofun

theorem compound_agrees_doubling :
    ∃ n₁ m₁ n₂ m₂, (doubler 0).runFor twofold n₁ = (.running, m₁) ∧
      (doubler 4).runFor twofold n₂ = (.running, m₂) ∧ m₁.contents = m₂.contents ∧
      m₁.contents[2]? = some (.number (.add (.ofInt 1) (.ofInt 1))) := by
  let v : View := ⟨1, [some "n"]⟩
  have hn : v.Refers twofold "n" .frame 0 := .frame rfl
  have hheld (ip : Nat) : ∀ slot ∈ v.slot? "n", 0+slot.toNat+1 < (doubler ip).stack.size := by
    rintro _ ⟨⟩
    exact show 0+0+1 < 2 by omega
  have hupdating : (doubler 0).Ready twofold v (updating "n" .add (.head (.name "n"))) _ 0 0 [] :=
    ⟨.head (.assign hn (.head (.name hn))), by decide, ⟨_, rfl, ⟨[25, 0, 25, 0, 7, 26, 0], by decide⟩⟩,
      doubler_wellFormed 0, rfl, by decide, by simpa [updating, Expr.names] using hheld 0,
      show 2+1 ≤ 1024 by omega⟩
  have hreassigning :
      (doubler 4).Ready twofold v (reassigning "n" .add (.head (.name "n"))) _ 4 0 [] :=
    ⟨.head (.assign hn (.operator (.head (.name hn)) (.head (.name hn)))), by decide,
      ⟨_, rfl, ⟨[], by decide⟩⟩, doubler_wellFormed 4, rfl, by decide,
      by simpa [reassigning, Expr.names] using hheld 4, show 2+2 ≤ 1024 by omega⟩
  have hagree := hupdating.compound_agrees hreassigning (.inl rfl) rfl (by decide) rfl rfl
    (show (Expr.head (.name "n")).eval 1 _ = .ok _ _ from rfl)
  obtain ⟨_, cells, n₁, m₁, n₂, m₂, hrun₁, hm₁, hrun₂, hm₂⟩ := hagree
  refine ⟨n₁, m₁, n₂, m₂, hrun₁, hrun₂, hm₁.contents.trans hm₂.contents.symm, ?_⟩
  have hlength : cells.length = 2 := hm₁.length
  rw [hm₁.contents, List.getElem?_append_right (by omega), hlength]
  rfl

end Machine
end RatScript
