import RatScript.Proofs.Compile.Emission

/-!
Expressions put one value on the stack: whatever an operand consists of, what is written for it is
a phrase from one height to the next.
-/

namespace RatScript

open Stateful

theorem Function.Grows.identifier? {f g : Function} (h : f.Grows g) {index : UInt8} {name : String}
    (hid : f.identifier? index = some name) : g.identifier? index = some name := by
  unfold Function.identifier? at hid ⊢
  split at hid
  · next hc =>
    rw [h.constant? hc]
    exact hid
  · cases hid

theorem Builder.slotIn_lt {name : String} {locals : List Local} {k : Nat}
    (h : slotIn name locals = some k) : k < locals.length := by
  induction locals with
  | nil => cases h
  | cons l older ih =>
    unfold slotIn at h
    split at h
    · cases h
      simp
    · exact Nat.lt_succ_of_lt (ih h)

namespace Compile

/-- The byte of the variable names a local in scope or the text of a global. -/
def Variable.Known (b : Builder) (v : Variable) : Prop :=
  match v.scope with
  | .frame => b.inRunnable = true ∧ v.operand.toNat < b.locals.length
  | .global => ∃ name, b.function.identifier? v.operand = some name

def Variable.layout (v : Variable) : Layout :=
  match v.scope with
  | .frame => .slot
  | .global => .constant

theorem Variable.Known.lays {b b' : Builder} {v : Variable} {bytes : List UInt8} (hv : v.Known b)
    (hb : b.Ready) (hl : b.Lays b' bytes) : v.Known b' := by
  unfold Known at hv ⊢
  split
  · next hs =>
    rw [hs] at hv
    rw [hl.inRunnable, hl.locals]
    exact hv
  · next hs =>
    rw [hs] at hv
    obtain ⟨name, hname⟩ := hv
    exact ⟨name, (hl.toGrows hb).function.identifier? hname⟩

/-- Operations on variables can be used on a known one. -/
theorem Variable.Known.offers {b : Builder} {v : Variable} (hv : v.Known b) {op : Opcode}
    (hop : op.straight = true) (hl : op.layout = v.layout) (hne : op ≠ .call) :
    ∃ d : Directive, d.bytes = [op.toByte, v.operand] ∧ b.Offers d op.effect := by
  obtain ⟨scope, index⟩ := v
  cases scope with
  | global =>
    obtain ⟨name, hname⟩ := hv
    exact ⟨_, rfl, Builder.offers_named hname hop hl hne⟩
  | frame => exact ⟨_, rfl, Builder.offers_slot hop hl hv.1 hv.2⟩

theorem resolve_known {name : String} {b b' : Builder} {v : Variable} (hb : b.Ready)
    (h : resolve name b = .ok v b') : b.Lays b' [] ∧ v.Known b' := by
  obtain ⟨_, _, hget, h⟩ := bind_eq_ok.mp h
  obtain ⟨rfl, rfl⟩ := get_eq_ok.mp hget
  cases hslot : b.slot? name with
  | some slot =>
    simp only [hslot] at h
    obtain ⟨rfl, rfl⟩ := pure_eq_ok.mp h
    refine ⟨.refl hb, ?_⟩
    unfold Builder.slot? at hslot
    split at hslot
    · next hin =>
      obtain ⟨k, hk, rfl⟩ := Option.map_eq_some_iff.mp hslot
      have hlt := Builder.slotIn_lt hk
      have hle : k%256 ≤ k := Nat.mod_le k 256
      exact ⟨hin, by simp; omega⟩
    · cases hslot
  | none =>
    simp only [hslot] at h
    obtain ⟨index, _, htext, h⟩ := bind_eq_ok.mp h
    obtain ⟨rfl, rfl⟩ := pure_eq_ok.mp h
    obtain ⟨hlays, hname⟩ := textConstant_lays hb htext
    exact ⟨hlays, name, hname⟩

/-- An operation on a known variable writes itself. -/
theorem emitWith_compiles {op : Opcode} {v : Variable} {m : Nat} {b b' : Builder} {a : Unit}
    (hb : b.Ready) (hv : v.Known b) (hop : op.straight = true) (hl : op.layout = v.layout)
    (hne : op ≠ .call) (hm : op.effect.pops ≤ m) (h : emitWith op v.operand b = .ok a b') :
    ∃ c, b.Emits b' c m (m-op.effect.pops+op.effect.pushes) := by
  obtain ⟨d, hd, ho⟩ := hv.offers hop hl hne
  have hlays : b.Lays b' d.bytes := by
    rw [hd]
    exact emitBytes_lays hb h
  exact ⟨_, .one hb hlays ho hm⟩

/-- A value enters the pool and is fetched from there. -/
theorem constant_compiles {add : Chunk → Except PoolFault (Chunk × UInt8)}
    (hadd : ∀ {chunk chunk' : Chunk} {index : UInt8}, chunk.constants.size ≤ Chunk.capacity →
      add chunk = .ok (chunk', index) →
      ∃ c, (∀ id, c ≠ .runnable id) ∧ chunk.Gains chunk' index c) :
    Compiles (enter add >>= fun index => emitWith .constant index) 0 1 := by
  intro b a b' hb h
  obtain ⟨index, t, henter, h⟩ := bind_eq_ok.mp h
  obtain ⟨hlays, c, hn, hc⟩ := enter_lays hb henter (fun _ => hadd hb.pool)
    (fun callee h => absurd rfl (h callee))
  have hemit : t.Lays b' (Directive.mk .constant (.constant index) rfl).bytes :=
    emitBytes_lays hlays.ready h
  have hfetch := Builder.Emits.one hlays.ready hemit (Builder.offers_constant hc hn) (Nat.zero_le 0)
  exact ⟨_, (Builder.Emits.nil hlays 0).seq hb hfetch⟩

/-- A test and its denial. -/
theorem comparison_compiles (c : Comparison) :
    Compiles (emitBytes (c.opcodes.map Opcode.toByte)) 2 1 := by
  have hdenied (t : Test) :
      Compiles (emitBytes [(Opcode.test t).toByte, Opcode.not.toByte]) 2 1 := by
    intro b a b' hb h
    have hlays := emitBytes_lays hb h
    refine ⟨.seq (.one (.plain (.test t) rfl)) (.one (.plain .not rfl)), hlays, ?_⟩
    intro j hr
    have hr' : b'.Room j := by
      rw [Builder.Room, hlays.inRunnable, hlays.locals]
      exact hr
    have htest : b'.Offers (.plain (.test t) rfl) _ := Builder.offers_plain rfl rfl (by simp)
    have hnot : b'.Offers (.plain .not rfl) _ := Builder.offers_plain rfl rfl (by simp)
    exact .seq (.one (htest.stands hlays.ready hr' (Nat.le_refl 2)))
      (.one (hnot.stands hlays.ready hr' (Nat.le_refl 1)))
  cases c with
  | equal | less | greater => exact .emit rfl rfl (by simp) (Nat.le_refl 2)
  | notEqual | lessEqual | greaterEqual => exact hdenied _

/-- A value and, where it does not decide, another one in its place. -/
theorem either_compiles (truth : Bool) {right : Compile Unit} (hright : Compiles right 0 1) :
    Compiles (do
      let jump ← emitJump (.jumpIf truth)
      emit .pop
      right
      patchJump jump) 1 1 := by
  intro b a b' hb h
  obtain ⟨at_, b1, hjump, h⟩ := bind_eq_ok.mp h
  obtain ⟨_, b2, hpop, h⟩ := bind_eq_ok.mp h
  obtain ⟨_, b3, hx, h⟩ := bind_eq_ok.mp h
  obtain ⟨hjump, hat⟩ := emitJump_lays hb hjump
  have hpop : b1.Lays b2 Directive.pop.bytes := emitBytes_lays hjump.ready hpop
  obtain ⟨c, hc⟩ := hright _ _ _ hpop.ready hx
  have hopen : b.Lays b3 ([(Opcode.jumpIf truth).toByte]++0xff :: 0xff ::
      (Directive.pop.bytes++Directive.encode c.directives)) :=
    hjump.trans (hpop.trans hc.toLays hjump.ready) hb
  have hsize : (Directive.pop.bytes++Directive.encode c.directives).length =
      Directive.size c.directives+1 := by
    rw [List.length_append, Directive.length_encode, Directive.length_bytes, Nat.add_comm]
    rfl
  obtain ⟨hfit, hgrows, hlays⟩ := patchJump_lays hb hopen hat hsize h
  refine ⟨.either truth c, hlays, ?_⟩
  intro j hr
  have hr' : b2.Room j := by
    rw [Builder.Room, hpop.inRunnable, hjump.inRunnable, hpop.locals, hjump.locals]
    exact hr
  exact .either ((hc.takes j hr').mono hgrows.program hgrows.function) hfit

section
variable {inner : Precedence → Compile Unit} (hinner : ∀ p, Compiles (inner p) 0 1)
include hinner

/-- Every argument puts one value on the stack. -/
theorem arguments_emits (budget : List Located) (n : Nat) {b b' : Builder} {a : Nat} (hb : b.Ready)
    (h : arguments inner budget n b = .ok a b') : ∃ c, b.Emits b' c n a := by
  induction budget generalizing n b with
  | nil =>
    obtain ⟨_, t, hx, h⟩ := bind_eq_ok.mp h
    obtain ⟨rfl, rfl⟩ := pure_eq_ok.mp h
    exact (hinner .assign).raise n b _ _ hb hx
  | cons token budget ih =>
    obtain ⟨_, t, hx, h⟩ := bind_eq_ok.mp h
    obtain ⟨more, u, hmore, h⟩ := bind_eq_ok.mp h
    obtain ⟨c, hc⟩ := (hinner .assign).raise n b _ _ hb hx
    have hcomma := hc.seq hb (.nil ((still_of_ok hmore).lays hc.ready) (n+1))
    cases more with
    | true =>
      obtain ⟨d, hd⟩ := ih (n+1) hcomma.ready h
      exact ⟨_, hcomma.seq hb hd⟩
    | false =>
      obtain ⟨rfl, rfl⟩ := pure_eq_ok.mp h
      exact ⟨_, hcomma⟩

/-- The name and the arguments of a call come to lie on the stack, under a constant for the name. -/
theorem callWith_emits {t : Located} {name : String} {arity : Nat} {b b' : Builder} {index : UInt8}
    (hb : b.Ready) (h : callWith inner t name arity b = .ok index b') :
    (∃ c, b.Emits b' c 0 (arity+1)) ∧ b'.function.identifier? index = some name := by
  dsimp only [callWith] at h
  obtain ⟨i, b1, htext, h⟩ := bind_eq_ok.mp h
  obtain ⟨_, b2, hget, h⟩ := bind_eq_ok.mp h
  obtain ⟨_, b3, hopen, h⟩ := bind_eq_ok.mp h
  obtain ⟨closed, b4, hcheck, h⟩ := bind_eq_ok.mp h
  obtain ⟨hlays, hname⟩ := textConstant_lays hb htext
  have hget : b1.Lays b2 (Directive.mk (.get .global) (.constant i) rfl).bytes :=
    emitBytes_lays hlays.ready hget
  have hfetch := Builder.Emits.one (m := 0) hlays.ready hget
    (Builder.offers_named hname rfl rfl (by simp)) (Nat.zero_le _)
  have hparen := hfetch.seq hlays.ready (.nil ((still_of_ok hopen).lays hfetch.ready) 1)
  have hfront := hparen.seq hlays.ready (.nil ((still_of_ok hcheck).lays hparen.ready) 1)
  have hrest (count : Nat) (u : Builder) (hu : ∃ c, b4.Emits u c 0 count)
      (h : (do
        consume (.symbol .rightParen) "')' after arguments"
        if count = arity then pure i
          else complain t (.argumentCount name arity count) : Compile UInt8) u = .ok index b') :
      (∃ c, b.Emits b' c 0 (arity+1)) ∧ b'.function.identifier? index = some name := by
    obtain ⟨c, hc⟩ := hu
    obtain ⟨_, v, hclose, h⟩ := bind_eq_ok.mp h
    have hall := (hfront.seq hlays.ready (hc.raise 1)).seq hlays.ready
      (.nil ((still_of_ok hclose).lays hc.ready) (1+count))
    split at h
    · next hcount =>
      obtain ⟨rfl, rfl⟩ := pure_eq_ok.mp h
      rw [hcount, Nat.add_comm] at hall
      exact ⟨⟨_, (Builder.Emits.nil hlays 0).seq hb hall⟩,
        (hall.toGrows hlays.ready).function.identifier? hname⟩
    · exact absurd h throw_ne_ok
  cases closed with
  | true => exact hrest 0 b4 ⟨_, .nil (.refl hfront.ready) 0⟩ h
  | false =>
    obtain ⟨_, _, hstate, h⟩ := bind_eq_ok.mp h
    obtain ⟨rfl, rfl⟩ := get_eq_ok.mp hstate
    obtain ⟨count, u, hargs, h⟩ := bind_eq_ok.mp h
    exact hrest count u (arguments_emits hinner _ 0 hfront.ready hargs) h

theorem call_compiles (t : Located) (name : String) : Compiles (call inner t name) 0 1 := by
  intro b a b' hb h
  obtain ⟨_, _, hget, h⟩ := bind_eq_ok.mp h
  obtain ⟨rfl, rfl⟩ := get_eq_ok.mp hget
  cases hr : b.runnable? name with
  | some f =>
    simp only [hr] at h
    obtain ⟨index, t, hwith, h⟩ := bind_eq_ok.mp h
    obtain ⟨⟨c, hc⟩, hname⟩ := callWith_emits hinner hb hwith
    obtain ⟨callee, hcallee, harity⟩ := hc.grows.runnable? hr
    have hlays : t.Lays b' (Directive.mk .call (.constant index) rfl).bytes :=
      emitBytes_lays hc.ready h
    have hcall := Builder.Emits.one (m := f.arity+1) hc.ready hlays
      (Builder.offers_call hname hcallee) (by simp [harity])
    simp only [harity, Nat.sub_self, Nat.zero_add] at hcall
    exact ⟨_, hc.seq hb hcall⟩
  | none =>
    simp only [hr] at h
    cases hn : Native.ofName? name with
    | none =>
      simp only [hn] at h
      exact absurd h throw_ne_ok
    | some native =>
      simp only [hn] at h
      obtain ⟨index, t, hwith, h⟩ := bind_eq_ok.mp h
      obtain ⟨⟨c, hc⟩, hname⟩ := callWith_emits hinner hb hwith
      have harity : (UInt8.ofNat native.arity).toNat = native.arity := by cases native <;> rfl
      have hlays : t.Lays b'
          (Directive.mk .callNative (.native index (.ofNat native.arity)) rfl).bytes :=
        emitBytes_lays hc.ready h
      have hcall := Builder.Emits.one (m := native.arity+1) hc.ready hlays
        (Builder.offers_callNative hname _) (by simp [harity])
      simp only [harity, Nat.sub_self, Nat.zero_add] at hcall
      exact ⟨_, hc.seq hb hcall⟩

theorem variable_compiles (t : Located) (name : String) (canAssign : Bool) :
    Compiles (variable_ inner t name canAssign) 0 1 := by
  dsimp only [variable_]
  refine Compiles.still.bind fun paren => .ite (call_compiles hinner t name) ?_
  intro b a b' hb h
  obtain ⟨v, b1, hresolve, h⟩ := bind_eq_ok.mp h
  obtain ⟨t, b2, hpeek, h⟩ := bind_eq_ok.mp h
  obtain ⟨hlays, hv⟩ := resolve_known hb hresolve
  have hpeek := (still_of_ok hpeek).lays hlays.ready
  have hv := hv.lays hlays.ready hpeek
  have hfront := (Builder.Emits.nil hlays 0).seq hb (.nil hpeek 0)
  generalize (if canAssign = true then Assignment.ofToken? t.token else none) = assignment at h
  cases assignment with
  | none =>
    have hl : (Opcode.get v.scope).layout = v.layout := by
      obtain ⟨scope, index⟩ := v
      cases scope <;> rfl
    obtain ⟨c, hc⟩ := emitWith_compiles hpeek.ready hv rfl hl nofun (Nat.zero_le 0) h
    exact ⟨_, hfront.seq hb hc⟩
  | some assignment =>
    have hl : (assignment.opcode v.scope).layout = v.layout := by
      obtain ⟨scope, index⟩ := v
      cases scope <;> cases assignment <;> rfl
    obtain ⟨_, b3, hadvance, h⟩ := bind_eq_ok.mp h
    have hadvance := (still_of_ok hadvance).lays hpeek.ready
    have hfront := hfront.seq hb (.nil hadvance 0)
    have hv := hv.lays hpeek.ready hadvance
    cases assignment with
    | count up =>
      obtain ⟨c, hc⟩ := emitWith_compiles hadvance.ready hv rfl hl nofun (Nat.zero_le 0) h
      exact ⟨_, hfront.seq hb hc⟩
    | plain | compound op =>
      obtain ⟨_, b4, hvalue, h⟩ := bind_eq_ok.mp h
      obtain ⟨c, hc⟩ := hinner .assign _ _ _ hadvance.ready hvalue
      have hv := hv.lays hadvance.ready hc.toLays
      obtain ⟨d, hd⟩ := emitWith_compiles hc.ready hv rfl hl nofun (Nat.le_refl 1) h
      exact ⟨_, (hfront.seq hb hc).seq hb hd⟩

theorem leading_compiles (t : Located) (canAssign : Bool) :
    Compiles (leading inner t canAssign) 0 1 := by
  unfold leading
  split
  · exact (hinner .assign).bind fun _ => .still
  · exact (hinner .unary).bind fun _ => .emit rfl rfl (by simp) (Nat.le_refl 1)
  · exact (hinner .unary).bind fun _ => .emit rfl rfl (by simp) (Nat.le_refl 1)
  · exact (hinner .unary).bind fun _ => .emit rfl rfl (by simp) (Nat.le_refl 1)
  · refine constant_compiles fun _ h => ?_
    obtain ⟨value, _, hv⟩ := Chunk.addNumber_gains h
    exact ⟨.number value, by simp, hv⟩
  · exact constant_compiles fun hpool h => ⟨.text _, by simp, Chunk.addText_gains hpool h⟩
  · exact .emit rfl rfl (by simp) (Nat.zero_le 0)
  · exact .emit rfl rfl (by simp) (Nat.zero_le 0)
  · exact .emit rfl rfl (by simp) (Nat.zero_le 0)
  · exact variable_compiles hinner t _ canAssign
  · exact .complain t _

theorem joined_compiles (i : Infix) : Compiles (joined inner i) 1 1 := by
  unfold joined
  split
  · exact ((hinner _).raise 1).bind fun _ => .emit rfl rfl (by simp) (Nat.le_refl 2)
  · exact ((hinner _).raise 1).bind fun _ => comparison_compiles _
  · exact either_compiles false (hinner _)
  · exact either_compiles true (hinner _)

theorem following_compiles (p : Precedence) (budget : List Located) :
    Compiles (following inner p budget) 1 1 := by
  induction budget with
  | nil =>
    unfold following
    exact .still
  | cons token budget ih =>
    unfold following
    refine Compiles.still.bind fun t => ?_
    split
    · exact .still
    · next i _ =>
      refine .ite ?_ .still
      exact Compiles.still.bind fun _ => (joined_compiles hinner i).bind fun _ => ih

theorem operand_compiles (p : Precedence) : Compiles (operand inner p) 0 1 := by
  dsimp only [operand]
  refine Compiles.still.bind fun _ => Compiles.still.bind fun t => ?_
  refine (leading_compiles hinner t _).bind fun _ => Compiles.still.bind fun b => ?_
  refine (following_compiles hinner p b.rest).bind fun _ => Compiles.still.bind fun t => ?_
  exact .ite (.complain t _) .still

end

/-- Every expression puts one value on the stack. -/
theorem operandAt_compiles (levels : Nat) (p : Precedence) : Compiles (operandAt levels p) 0 1 := by
  induction levels generalizing p with
  | zero => exact Compiles.still.bind fun t => .complain t _
  | succ levels ih => exact operand_compiles ih p

end Compile
end RatScript
