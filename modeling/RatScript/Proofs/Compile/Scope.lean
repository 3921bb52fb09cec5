import RatScript.Proofs.Compile.Expression

/-!
Between statements the stack of a runnable holds its locals and nothing else: a declaration adds a
local and its value, and the end of a block takes off what the block declared.
-/

set_option synthInstance.maxSize 65536

namespace RatScript

open Stateful

theorem Compile.bind_silent {α β : Type} {x : Compile α} {f : α → Compile β}
    [h : ∀ a, Keeps Builder.Reports (f a)] {b b' : Builder} {r : β}
    (hx : (x >>= f) b = .ok r b') (hs : b'.diagnostics = #[]) :
    ∃ a t, x b = .ok a t ∧ t.diagnostics = #[] ∧ f a t = .ok r b' := by
  obtain ⟨a, t, hx, hf⟩ := bind_eq_ok.mp hx
  exact ⟨a, t, hx, ((h a).of_ok hf).silent hs, hf⟩

namespace Builder

/-- The height between statements: inside a runnable the stack holds the locals in scope. -/
def Level (b : Builder) (h : Nat) : Prop := b.inRunnable = true → h = b.locals.length

/-- No local is declared deeper than the scope. -/
def Scoped (b : Builder) : Prop := ∀ l ∈ b.locals, l.depth ≤ b.depth

/-- A phrase is written that takes the stack from `m` values above the locals to `n`. -/
structure Covers (b b' : Builder) (c : Phrase) (m n : Nat) : Prop
    extends b.Lays b' (Directive.encode c.directives) where
  takes : ∀ h, b.Level h → c.Takes b'.program b'.function (h+m) (h+n)

/-- A phrase is written that leaves the values of new locals, all of the current scope. -/
structure Runs (b b' : Builder) (c : Phrase) (new : List Local) : Prop
    extends b.Writes b' (Directive.encode c.directives) where
  locals : b'.locals = new++b.locals
  depth : b'.depth = b.depth
  here : ∀ l ∈ new, l.depth = b.depth
  script : b.inRunnable = false → new = []
  takes : ∀ h, b.Level h → c.Takes b'.program b'.function h (h+new.length)

section
variable {b b' b'' : Builder} {c d : Phrase} {m n l : Nat} {new more : List Local}

theorem Lays.level {bytes : List UInt8} (h : b.Lays b' bytes) {k : Nat} (hl : b.Level k) :
    b'.Level k := by
  rw [Level, h.inRunnable, h.locals]
  exact hl

theorem Lays.scope {bytes : List UInt8} (h : b.Lays b' bytes) (hs : b.Scoped) : b'.Scoped := by
  rw [Scoped, h.locals, h.depth]
  exact hs

theorem Emits.covers (h : b.Emits b' c m n) : b.Covers b' c m n where
  toLays := h.toLays
  takes k hl := h.takes k fun hin => Nat.le_of_eq (hl hin).symm

namespace Covers

theorem seq (h : b.Covers b' c m n) (k : b'.Covers b'' d n l) (hb : b.Ready) :
    b.Covers b'' (.seq c d) m l where
  toLays := by simpa [Phrase.directives] using h.toLays.trans k.toLays hb
  takes j hl := by
    have hg := k.toGrows h.ready
    exact .seq ((h.takes j hl).mono hg.program hg.function) (k.takes j (h.level hl))

theorem still (h : b.Covers b' c m n) (k : b'.Still b'') (hb : b.Ready) :
    b.Covers b'' c m n where
  toLays := by simpa using h.toLays.trans (k.lays h.ready) hb
  takes j hl := by
    have hg := (k.lays h.ready).toGrows h.ready
    exact (h.takes j hl).mono hg.program hg.function

theorem runs (h : b.Covers b' c 0 0) : b.Runs b' c [] where
  toWrites := h.toWrites
  locals := h.locals
  depth := h.depth
  here := by simp
  script _ := rfl
  takes := h.takes

end Covers

namespace Runs

theorem covers (h : b.Runs b' c []) : b.Covers b' c 0 0 :=
  ⟨⟨h.toWrites, h.locals, h.depth⟩, h.takes⟩

theorem scope (h : b.Runs b' c new) (hs : b.Scoped) : b'.Scoped := by
  intro l hl
  rw [h.locals, List.mem_append] at hl
  rw [h.depth]
  rcases hl with hl | hl
  · exact Nat.le_of_eq (h.here l hl)
  · exact hs l hl

theorem level (h : b.Runs b' c new) {k : Nat} (hl : b.Level k) : b'.Level (k+new.length) := by
  intro hin
  rw [h.inRunnable] at hin
  rw [h.locals, List.length_append, hl hin, Nat.add_comm]

theorem seq (h : b.Runs b' c new) (k : b'.Runs b'' d more) (hb : b.Ready) :
    b.Runs b'' (.seq c d) (more++new) where
  toWrites := by simpa [Phrase.directives] using h.toWrites.trans k.toWrites hb
  locals := by rw [k.locals, h.locals, List.append_assoc]
  depth := k.depth.trans h.depth
  here l hl := by
    rcases List.mem_append.mp hl with hl | hl
    · exact (k.here l hl).trans h.depth
    · exact h.here l hl
  script hin := by rw [h.script hin, k.script (by rw [h.inRunnable]; exact hin), List.append_nil]
  takes j hl := by
    have hg := k.toGrows h.ready
    have hk := k.takes _ (h.level hl)
    rw [Nat.add_assoc, Nat.add_comm new.length, ← List.length_append] at hk
    exact .seq ((h.takes j hl).mono hg.program hg.function) hk

end Runs
end

theorem leave_append {depth : Nat} {new older : List Local} (hnew : ∀ l ∈ new, depth < l.depth)
    (holder : ∀ l ∈ older, l.depth ≤ depth) : leave depth (new++older) = (older, new.length) := by
  induction new with
  | nil =>
    cases older with
    | nil => rfl
    | cons l older => exact if_neg (Nat.not_lt.mpr (holder l (by simp)))
  | cons l new ih =>
    rw [List.cons_append, leave, if_pos (hnew l (by simp)),
      ih (fun k hk => hnew k (List.mem_cons_of_mem _ hk))]
    rfl

end Builder

/-- As many values are taken off the stack. -/
def Phrase.pops : Nat → Phrase
  | 0 => .empty
  | n+1 => .seq (.one .pop) (pops n)

theorem Phrase.encode_pops (n : Nat) :
    Directive.encode (pops n).directives = List.replicate n Opcode.pop.toByte := by
  induction n with
  | zero => rfl
  | succ n ih =>
    rw [pops, directives, Directive.encode_append, ih]
    rfl

theorem Phrase.takes_pops (p : Program) (f : Function) (h n : Nat) :
    (pops n).Takes p f (h+n) h := by
  induction n with
  | zero => exact .empty h
  | succ n ih => exact .seq (.one (Directive.pop_stands p f (h+n))) ih

/-- Whenever the step succeeds and nothing is reported, it runs as a statement does. -/
def Executes (x : Compile Unit) : Prop :=
  ∀ b b', b.Ready → b.Scoped → x b = .ok () b' → b'.diagnostics = #[] → ∃ c new, b.Runs b' c new

theorem Compiles.executes {x : Compile Unit} (h : Compiles x 0 0) : Executes x := by
  intro b b' hb _ hx _
  obtain ⟨c, hc⟩ := h b () b' hb hx
  exact ⟨c, [], hc.covers.runs⟩

namespace Compile

variable {b b' : Builder}

theorem addLocal_writes {name : Option String} {t : Located} {a : Unit} (hb : b.Ready)
    (h : addLocal name t b = .ok a b') :
    b.Writes b' [] ∧ b'.locals = ⟨name, b.depth⟩ :: b.locals ∧ b'.depth = b.depth := by
  obtain ⟨_, _, hget, h⟩ := bind_eq_ok.mp h
  obtain ⟨rfl, rfl⟩ := get_eq_ok.mp hget
  split at h
  · have hcode : b.function.chunk.code.toList = b.written++[] := (List.append_nil _).symm
    have hcurrent : b'.current = b.current := by rw [← modify_eq_ok.mp h]; rfl
    obtain ⟨hwrites, _⟩ := (Builder.Writes.refl hb).edit hb
      (fun f => {f with locals := f.locals.push (name.getD "(repeat)")}) hcurrent
      (by rw [← modify_eq_ok.mp h]; rfl) ⟨rfl, rfl, rfl, List.prefix_rfl⟩ hcode hb.pool
      hb.callees
    exact ⟨hwrites, by rw [← modify_eq_ok.mp h], by rw [← modify_eq_ok.mp h]; rfl⟩
  · exact absurd h throw_ne_ok

theorem addLocal_fits {name : Option String} {t : Located} {a : Unit}
    (h : addLocal name t b = .ok a b') : b'.locals.length ≤ maxLocals := by
  obtain ⟨_, _, hget, h⟩ := bind_eq_ok.mp h
  obtain ⟨rfl, rfl⟩ := get_eq_ok.mp hget
  split at h
  · next hlt =>
    rw [← modify_eq_ok.mp h]
    exact hlt
  · exact absurd h throw_ne_ok

theorem endScope_eq_ok {kept : List Local} {n : Nat} {a : Unit}
    (hl : Builder.leave (b.depth-1) b.locals = (kept, n)) (h : endScope b = .ok a b') :
    emitBytes (List.replicate n Opcode.pop.toByte) {b with depth := b.depth-1, locals := kept} =
      .ok a b' := by
  obtain ⟨_, _, hget, h⟩ := bind_eq_ok.mp h
  obtain ⟨rfl, rfl⟩ := get_eq_ok.mp hget
  rw [hl] at h
  obtain ⟨_, _, hset, h⟩ := bind_eq_ok.mp h
  cases set_eq_ok.mp hset
  exact h

/-- Without reports, a declaration is a statement that succeeded. -/
theorem declaration_eq_ok {statement : Compile Unit} {a : Unit}
    (h : declaration statement b = .ok a b') (hs : b'.diagnostics = #[]) :
    statement b = .ok () b' := by
  simp only [declaration, tryCatch, tryCatchThe, MonadExceptOf.tryCatch, EStateM.tryCatch] at h
  cases hx : statement b with
  | ok a t =>
    rw [hx] at h
    exact h
  | error d t =>
    simp only [hx] at h
    obtain ⟨_, u, hpush, h⟩ := bind_eq_ok.mp h
    have hu : u.diagnostics = t.diagnostics.push d := by
      rw [← modify_eq_ok.mp hpush]
      rfl
    have hsilent := ((inferInstance : Keeps Builder.Reports synchronize).of_ok h).silent hs
    rw [hu] at hsilent
    exact absurd hsilent Array.push_ne_empty

section
variable {statement : Compile Unit} [Keeps Builder.Reports statement]
  (hstatement : Executes statement)
include hstatement

theorem declarations_runs {closers : List Keyword} {budget : List Located} {a : Unit}
    (hb : b.Ready) (hscoped : b.Scoped) (h : declarations statement closers budget b = .ok a b')
    (hs : b'.diagnostics = #[]) : ∃ c new, b.Runs b' c new := by
  have hnil (b : Builder) (hb : b.Ready) : b.Runs b .empty [] :=
    (Builder.Emits.nil (.refl hb) 0).covers.runs
  induction budget generalizing b with
  | nil =>
    obtain ⟨_, rfl⟩ := pure_eq_ok.mp h
    exact ⟨_, _, hnil b hb⟩
  | cons token budget ih =>
    have hstep (h : (declaration statement >>= fun _ =>
        declarations statement closers budget) b = .ok a b') : ∃ c new, b.Runs b' c new := by
      obtain ⟨_, t, hd, ht, h⟩ := bind_silent h hs
      obtain ⟨c, new, hc⟩ := hstatement b t hb hscoped (declaration_eq_ok hd ht) ht
      obtain ⟨d, more, hd⟩ := ih hc.ready (hc.scope hscoped) h
      exact ⟨_, _, hc.seq hd hb⟩
    unfold declarations at h
    obtain ⟨t, _, hpeek, h⟩ := bind_eq_ok.mp h
    obtain ⟨_, _, hget, hpure⟩ := bind_eq_ok.mp hpeek
    obtain ⟨rfl, rfl⟩ := get_eq_ok.mp hget
    obtain ⟨_, rfl⟩ := pure_eq_ok.mp hpure
    generalize t.token = first at h
    split at h
    · obtain ⟨_, rfl⟩ := pure_eq_ok.mp h
      exact ⟨_, _, hnil b hb⟩
    · split at h
      · obtain ⟨_, rfl⟩ := pure_eq_ok.mp h
        exact ⟨_, _, hnil b hb⟩
      · exact hstep h
    · exact hstep h

/-- A block leaves the stack and the locals as it found them. -/
theorem block_covers {opener : Keyword} {closers : List Keyword} {a : Unit} (hb : b.Ready)
    (hscoped : b.Scoped) (h : block statement opener closers b = .ok a b')
    (hs : b'.diagnostics = #[]) : ∃ c, b.Covers b' c 0 0 := by
  dsimp only [block] at h
  obtain ⟨_, b1, hbegin, _, h⟩ := bind_silent h hs
  obtain ⟨_, _, hget, _, h⟩ := bind_silent h hs
  obtain ⟨rfl, rfl⟩ := get_eq_ok.mp hget
  obtain ⟨_, b2, hdecls, hs2, h⟩ := bind_silent h hs
  obtain ⟨_, b3, hend, _, h⟩ := bind_silent h hs
  have hb1 := modify_eq_ok.mp hbegin
  have hscope : b.Writes b1 [] := .same hb (by rw [← hb1]) (by rw [← hb1])
  have hlocals1 : b1.locals = b.locals := by rw [← hb1]
  have hdepth1 : b1.depth = b.depth+1 := by rw [← hb1]
  have hscoped1 : b1.Scoped := by
    intro l hl
    rw [hlocals1] at hl
    rw [hdepth1]
    exact Nat.le_succ_of_le (hscoped l hl)
  obtain ⟨c, new, hc⟩ := declarations_runs hstatement hscope.ready hscoped1 hdecls hs2
  have hleave : Builder.leave (b2.depth-1) b2.locals = (b.locals, new.length) := by
    rw [hc.locals, hlocals1, hc.depth, hdepth1, Nat.add_sub_cancel]
    refine Builder.leave_append ?_ hscoped
    intro l hl
    rw [hc.here l hl, hdepth1]
    exact Nat.lt_succ_self _
  have hemit := endScope_eq_ok hleave hend
  have hclosed : b2.Writes {b2 with depth := b2.depth-1, locals := b.locals} [] :=
    .same hc.ready rfl rfl
  have hpops := emitBytes_lays hclosed.ready hemit
  have hlast : b3.Still b' := still_of_ok h
  have hlast := hlast.lays hpops.ready
  rw [← Phrase.encode_pops] at hpops
  have hwrites := hscope.trans (hc.toWrites.trans (hclosed.trans
    (hpops.toWrites.trans hlast.toWrites hclosed.ready) hc.ready) hscope.ready) hb
  have hgrows := (hclosed.toGrows hc.ready).trans
    ((hpops.toGrows hclosed.ready).trans (hlast.toGrows hpops.ready))
  refine ⟨.seq c (.pops new.length), ⟨?_, ?_, ?_⟩, ?_⟩
  · simpa [Phrase.directives] using hwrites
  · rw [hlast.locals, hpops.locals]
  · rw [hlast.depth, hpops.depth, hc.depth, hdepth1, Nat.add_sub_cancel]
  · intro k hl
    have hl1 : b1.Level k := by
      rw [Builder.Level, hscope.inRunnable, hlocals1]
      exact hl
    exact .seq ((hc.takes k hl1).mono hgrows.program hgrows.function) (Phrase.takes_pops _ _ k _)

end
end Compile
end RatScript
