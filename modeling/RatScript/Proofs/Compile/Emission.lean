import RatScript.Proofs.Compile.Writing

/-!
Steps of the compiler that write phrases: which directives a function can take at what heights, and
how phrases that steps write one after another are put together.
-/

namespace RatScript

open Stateful

namespace Builder

/-- A height with room for the locals in scope. In the script none are on the stack. -/
def Room (b : Builder) (h : Nat) : Prop := b.inRunnable = true → b.locals.length ≤ h

/-- A directive that can stand in the current function wherever the stack is high enough. -/
structure Offers (b : Builder) (d : Directive) (e : Effect) : Prop where
  straight : d.op.straight = true
  checked : b.function.checkOperand b.program (d.at_ 0) = .ok ()
  effect : (Survey.mk b.program b.function #[]).effect (d.at_ 0) = .ok e
  returns : d.op = .ret → b.inRunnable = true
  live : ∀ slot, d.operand = .slot slot → b.inRunnable = true ∧ slot.toNat < b.locals.length

namespace Offers

variable {b b' : Builder} {d : Directive} {e : Effect}

theorem stands (ho : b.Offers d e) (hb : b.Ready) {h m : Nat} (hr : b.Room h) (hm : e.pops ≤ m) :
    d.Stands b.program b.function e (h+m) where
  straight := ho.straight
  checked := ho.checked
  effect := ho.effect
  enough := by omega
  returns hret := by
    rw [hb.script, ho.returns hret]
    rfl
  live slot hslot := by
    obtain ⟨hin, hlt⟩ := ho.live slot hslot
    have hle := hr hin
    exact ⟨by rw [hb.script, hin]; rfl, by omega⟩

theorem lays {bytes : List UInt8} (ho : b.Offers d e) (hb : b.Ready) (hl : b.Lays b' bytes) :
    b'.Offers d e where
  straight := ho.straight
  checked := Function.checkOperand_of_grows hl.grows (hl.toGrows hb).function ho.checked
  effect := Survey.effect_of_grows hl.grows (hl.toGrows hb).function ho.effect
  returns := by
    rw [hl.inRunnable]
    exact ho.returns
  live := by
    rw [hl.inRunnable, hl.locals]
    exact ho.live

end Offers

section
variable {b : Builder} {op : Opcode} {index : UInt8}

theorem offers_plain (hop : op.straight = true) (hl : op.layout = .none)
    (hret : op = .ret → b.inRunnable = true) : b.Offers (.plain op hl) op.effect where
  straight := hop
  checked := rfl
  effect := by cases op <;> rfl
  returns := hret
  live := nofun

theorem offers_constant {c : Constant} (hc : b.function.chunk.constant? index = some c)
    (hn : ∀ id, c ≠ .runnable id) : b.Offers ⟨.constant, .constant index, rfl⟩ ⟨0, 1⟩ where
  straight := rfl
  checked := by
    simp only [Function.checkOperand, Directive.at_, Function.checkConstant, hc]
  effect := rfl
  returns := nofun
  live := nofun

theorem offers_slot (hop : op.straight = true) (hl : op.layout = .slot)
    (hin : b.inRunnable = true) (hlt : index.toNat < b.locals.length) :
    b.Offers ⟨op, .slot index, hl.symm⟩ op.effect where
  straight := hop
  checked := rfl
  effect := by cases op <;> rfl
  returns _ := hin
  live slot hslot := by
    cases hslot
    exact ⟨hin, hlt⟩

variable {name : String} (hid : b.function.identifier? index = some name)
include hid

theorem constant?_of_identifier? : b.function.chunk.constant? index = some (.text name) := by
  unfold Function.identifier? at hid
  split at hid
  · next h =>
    cases hid
    exact h
  · cases hid

theorem offers_named (hop : op.straight = true) (hl : op.layout = .constant) (hne : op ≠ .call) :
    b.Offers ⟨op, .constant index, hl.symm⟩ op.effect where
  straight := hop
  checked := by
    simp only [Function.checkOperand, Directive.at_, Function.checkConstant,
      constant?_of_identifier? hid]
    cases op <;> first | rfl | cases hl
  effect := by cases op <;> first | exact absurd rfl hne | rfl
  returns hret := by
    cases hret
    cases hl
  live := nofun

theorem offers_call {callee : Function} (hc : b.program.runnable? name = some callee) :
    b.Offers ⟨.call, .constant index, rfl⟩ ⟨callee.arity+1, 1⟩ where
  straight := rfl
  checked := by
    simp only [Function.checkOperand, Directive.at_, Function.checkConstant,
      constant?_of_identifier? hid]
  effect := by simp only [Survey.effect, Directive.at_, hid, hc]
  returns := nofun
  live := nofun

theorem offers_callNative (n : UInt8) :
    b.Offers ⟨.callNative, .native index n, rfl⟩ ⟨n.toNat+1, 1⟩ where
  straight := rfl
  checked := by
    simp only [Function.checkOperand, Directive.at_, Function.checkConstant,
      constant?_of_identifier? hid]
  effect := rfl
  returns := nofun
  live := nofun

end

/-- A phrase is written that takes the stack from `m` values to `n`, above any height with room for
the locals. -/
structure Emits (b b' : Builder) (c : Phrase) (m n : Nat) : Prop
    extends b.Lays b' (Directive.encode c.directives) where
  takes : ∀ h, b.Room h → c.Takes b'.program b'.function (h+m) (h+n)

namespace Emits

variable {b b' b'' : Builder} {c d : Phrase} {m n l : Nat}

theorem nil (h : b.Lays b' []) (m : Nat) : b.Emits b' .empty m m :=
  ⟨h, fun h _ => .empty (h+m)⟩

theorem one {d : Directive} {e : Effect} (hb : b.Ready) (h : b.Lays b' d.bytes)
    (ho : b.Offers d e) (hm : e.pops ≤ m) : b.Emits b' (.one d) m (m-e.pops+e.pushes) where
  toLays := by simpa [Phrase.directives] using h
  takes j hr := by
    have hg := h.toGrows hb
    have ht := Phrase.Takes.one ((ho.stands hb hr hm).mono hg.program hg.function)
    rw [show j+m-e.pops+e.pushes = j+(m-e.pops+e.pushes) by omega] at ht
    exact ht

theorem seq (hb : b.Ready) (h : b.Emits b' c m n) (k : b'.Emits b'' d n l) :
    b.Emits b'' (.seq c d) m l where
  toLays := by simpa [Phrase.directives] using h.toLays.trans k.toLays hb
  takes j hr := by
    have hg := k.toGrows h.ready
    have hr' : b'.Room j := by
      rw [Room, h.inRunnable, h.locals]
      exact hr
    exact .seq ((h.takes j hr).mono hg.program hg.function) (k.takes j hr')

/-- Values below are left alone. -/
theorem raise (h : b.Emits b' c m n) (j : Nat) : b.Emits b' c (j+m) (j+n) where
  toLays := h.toLays
  takes l hr := by
    have hr' : b.Room (l+j) := fun hin => Nat.le_add_right_of_le (hr hin)
    rw [← Nat.add_assoc, ← Nat.add_assoc]
    exact h.takes (l+j) hr'

end Emits
end Builder

/-- Whenever the step succeeds, it writes a phrase that takes the stack from `m` values to `n`. -/
def Compiles {α : Type} (x : Compile α) (m n : Nat) : Prop :=
  ∀ b a b', b.Ready → x b = .ok a b' → ∃ c, b.Emits b' c m n

namespace Compiles

open Builder (Still)

variable {α β : Type} {m n k : Nat}

theorem still {x : Compile α} [Keeps Still x] : Compiles x m m := by
  intro b a b' hb h
  have hs : b.Still b' := Compile.still_of_ok h
  exact ⟨_, .nil (hs.lays hb) m⟩

theorem bind {x : Compile α} {f : α → Compile β} (hx : Compiles x m n)
    (hf : ∀ a, Compiles (f a) n k) : Compiles (x >>= f) m k := by
  intro b r b'' hb h
  obtain ⟨a, b', h1, h2⟩ := bind_eq_ok.mp h
  obtain ⟨c, hc⟩ := hx b a b' hb h1
  obtain ⟨d, hd⟩ := hf a b' r b'' hc.ready h2
  exact ⟨_, hc.seq hb hd⟩

theorem ite {p : Prop} [Decidable p] {x y : Compile α} (hx : Compiles x m n)
    (hy : Compiles y m n) : Compiles (if p then x else y) m n := by
  split
  · exact hx
  · exact hy

theorem complain (t : Located) (c : Complaint) : Compiles (Compile.complain t c : Compile α) m n :=
  fun _ _ _ _ h => absurd h throw_ne_ok

theorem raise {x : Compile α} (hx : Compiles x m n) (j : Nat) : Compiles x (j+m) (j+n) := by
  intro b a b' hb h
  obtain ⟨c, hc⟩ := hx b a b' hb h
  exact ⟨c, hc.raise j⟩

theorem emit {op : Opcode} (hop : op.straight = true) (hl : op.layout = .none) (hne : op ≠ .ret)
    (hm : op.effect.pops ≤ m) :
    Compiles (Compile.emit op) m (m-op.effect.pops+op.effect.pushes) := by
  intro b a b' hb h
  have hlays : b.Lays b' (Directive.plain op hl).bytes := Compile.emitBytes_lays hb h
  exact ⟨_, .one hb hlays (Builder.offers_plain hop hl fun hret => absurd hret hne) hm⟩

theorem endOfLine : Compiles Compile.endOfLine m m := by
  dsimp only [Compile.endOfLine]
  refine still.bind fun _ => ite ?_ ?_
  · exact emit rfl rfl (by simp) (Nat.zero_le m)
  · exact still

end Compiles
end RatScript
