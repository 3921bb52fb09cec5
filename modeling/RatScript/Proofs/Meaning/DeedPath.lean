import RatScript.Proofs.Machine.Course
import RatScript.Proofs.Syntax.SourceLine
import RatScript.Proofs.Meaning.Passing
import RatScript.Proofs.Meaning.DeedTurn

/-!
Paths along deeds. Where verification has a way through the script of a program, the stack is as high as
the deeds on it leave it; behind the last deed it is empty.
-/

namespace RatScript

open Machine
open Directive (size encode place)

namespace Walk

variable {α β : Type}

/-- Whatever the walk ends with has the property. -/
def Returns (w : Walk α) (φ : α → Prop) : Prop := ∀ σ a σ', w σ = .ok a σ' → φ a

theorem Returns.pure {a : α} {φ : α → Prop} (h : φ a) : Returns (pure a) φ := by
  intro σ b σ' hb
  cases hb
  exact h

theorem Returns.bind {w : Walk α} {g : α → Walk β} {φ : β → Prop} (h : ∀ a, Returns (g a) φ) :
    Returns (w >>= g) φ := by
  intro σ b σ' hb
  simp only [Bind.bind, EStateM.bind] at hb
  split at hb
  · exact h _ _ _ _ hb
  · cases hb

theorem Returns.raise {φ : α → Prop} (line : Nat) (f : Fault) : Returns (raise line f) φ := by
  intro σ b σ' hb
  cases hb

end Walk

namespace Deed

/-- Values on the stack behind the deed. -/
def leaves : Deed → Bool → Nat → Nat
  | pop, _, height | define _, _, height | operator _, _, height | test _, _, height => height-1
  | constant _, _, height | literal _, _, height | get _, _, height => height+1
  | assign (.count _) _, _, height => height+1
  | callNative _ count, _, height => height-count
  | endRepeat, true, height => height-1
  | _, _, height => height

theorem act_returns {e : Deed} {st : List Content} (h : e.needs ≤ st.length) (capacity : Nat) :
    Walk.Returns (e.act capacity st) fun r => r.2.length = e.leaves r.1 st.length := by
  cases e with
  | newline | jump | back => exact .pure rfl
  | constant | literal => exact .bind fun _ => .pure rfl
  | get => exact .bind fun _ => .bind fun _ => .pure rfl
  | operator | test =>
    obtain ⟨b, a, st, rfl⟩ := exists_two h
    exact .bind fun _ => .pure rfl
  | pop | jumpIf =>
    obtain ⟨c, st, rfl⟩ := List.exists_cons_of_length_pos h
    exact .pure rfl
  | unary | define | repeat_ =>
    obtain ⟨c, st, rfl⟩ := List.exists_cons_of_length_pos h
    exact .bind fun _ => .pure rfl
  | assign a =>
    cases a with
    | plain =>
      obtain ⟨c, st, rfl⟩ := List.exists_cons_of_length_pos h
      exact .bind fun _ => .bind fun _ => .pure rfl
    | compound =>
      obtain ⟨c, st, rfl⟩ := List.exists_cons_of_length_pos h
      exact .bind fun _ => .bind fun _ => .bind fun _ => .pure rfl
    | count => exact .bind fun _ => .bind fun _ => .bind fun _ => .bind fun _ => .pure rfl
  | callNative x count =>
    refine .bind fun c => .bind fun _ => .pure ?_
    have hle : count+1 ≤ st.length := h
    simp only [leaves, List.length_cons, List.length_drop]
    omega
  | endRepeat =>
    obtain ⟨c, st, rfl⟩ := List.exists_cons_of_length_pos h
    cases c with
    | number n =>
      refine .pure ?_
      split <;> rfl
    | _ => exact .raise _ _

end Deed

namespace Program.Says

variable {p : Program} {d : Directive} {e : Deed} {f : Function} {ip height : Nat} {next : List (Nat × Nat)}

/-- What verification has found out about an instruction that does the deed. -/
theorem onward (h : p.Says d e) (s : p.Stop 0 f ip height (d.at_ ip) next)
    (hmem : d.at_ ip ∈ f.chunk.instructions) :
    e.needs ≤ height ∧ (∀ n, e = .back n → n ≤ ip+3) ∧
      ∀ away, (e.goes away ip, e.leaves away height) ∈ next := by
  -- most deeds go straight on, jumps to their targets
  have hstraight {effect : Effect} (hop : d.op.isStraight = true)
      (heffect : (p.surveyOf f).effect (d.at_ ip) = .ok effect) :
      effect.pops ≤ height ∧ next = [(ip+d.op.width, height-effect.pops+effect.pushes)] :=
    s.straight hop heffect
  obtain ⟨effect, hcharges, _, _, hnext⟩ := s.follows hmem
  have hjump {t : Nat} (hop : d.op.effect = ⟨0, 0⟩) (hcall : d.op ≠ .call) (hnative : d.op ≠ .callNative)
      (ht : (d.at_ ip).target? = some t) : (t, height) ∈ next := by
    obtain rfl := hcharges.effect_eq hcall hnative
    have heffect : (d.at_ ip).op.effect = ⟨0, 0⟩ := hop
    simpa [heffect] using (hnext _).mpr (.jump ht)
  cases h with
  | newline | pop | define | constant | literal | get =>
    obtain ⟨hpops, rfl⟩ := hstraight rfl rfl
    exact ⟨hpops, nofun, fun _ => List.mem_singleton.mpr rfl⟩
  | operator | test =>
    obtain ⟨hpops, rfl⟩ := hstraight rfl rfl
    refine ⟨hpops, nofun, fun _ => List.mem_singleton.mpr (congrArg _ ?_)⟩
    have hle : 2 ≤ height := hpops
    change height-1 = height-2+1
    omega
  | repeat_ =>
    obtain ⟨hpops, rfl⟩ := hstraight rfl rfl
    exact ⟨hpops, nofun, fun _ => List.mem_singleton.mpr (congrArg _ (Nat.sub_add_cancel hpops).symm)⟩
  | unary u =>
    cases u <;>
    · obtain ⟨hpops, rfl⟩ := hstraight rfl rfl
      exact ⟨hpops, nofun, fun _ => List.mem_singleton.mpr (congrArg _ (Nat.sub_add_cancel hpops).symm)⟩
  | assign a =>
    cases a with
    | count =>
      obtain ⟨hpops, rfl⟩ := hstraight rfl rfl
      exact ⟨hpops, nofun, fun _ => List.mem_singleton.mpr rfl⟩
    | plain | compound =>
      obtain ⟨hpops, rfl⟩ := hstraight rfl rfl
      exact ⟨hpops, nofun, fun _ => List.mem_singleton.mpr (congrArg _ (Nat.sub_add_cancel hpops).symm)⟩
  | callNative n =>
    have harity : (UInt8.ofNat n.arity).toNat = n.arity := by cases n <;> rfl
    obtain ⟨hpops, rfl⟩ := hstraight rfl rfl
    have hle : n.arity+1 ≤ height := by
      rw [← harity]
      exact hpops
    refine ⟨hle, nofun, fun _ => List.mem_singleton.mpr (congrArg _ ?_)⟩
    change height-n.arity = height-((UInt8.ofNat n.arity).toNat+1)+1
    omega
  | @jump n hn =>
    have hword : (UInt16.ofNat n).toNat = n := by simpa using hn
    refine ⟨Nat.zero_le _, nofun, fun _ => hjump rfl nofun nofun ?_⟩
    change some (ip+3+(UInt16.ofNat n).toNat) = _
    rw [hword]
    rfl
  | @jumpIf truth n hn =>
    have hword : (UInt16.ofNat n).toNat = n := by simpa using hn
    obtain ⟨distance, _, hpos, hboth⟩ := s.jumpIf_next rfl
    refine ⟨hpos, nofun, fun away => ?_⟩
    cases away with
    | false =>
      rw [hboth]
      exact List.mem_cons_self
    | true =>
      refine hjump rfl nofun nofun ?_
      change some (ip+3+(UInt16.ofNat n).toNat) = _
      rw [hword]
      rfl
  | @back n hn =>
    have hword : (UInt16.ofNat n).toNat = n := by simpa using hn
    obtain ⟨distance, hread, hle, rfl⟩ := s.loop_next rfl
    obtain ⟨distance', hread', hoperand⟩ := s.spelt
    cases hoperand
    rw [hread] at hread'
    cases hread'
    rw [hword] at hle
    refine ⟨Nat.zero_le _, fun m hm => by cases hm; exact hle, fun _ => List.mem_singleton.mpr ?_⟩
    rw [hword]
    rfl
  | endRepeat =>
    obtain ⟨k, rfl, rfl⟩ := s.endRepeat_next rfl
    refine ⟨Nat.succ_le_succ (Nat.zero_le k), nofun, fun away => ?_⟩
    cases away with
    | false => exact List.mem_cons_of_mem _ List.mem_cons_self
    | true => exact List.mem_cons_self

end Program.Says


/-! The script of a program. -/

/-- Verification has been wherever a path comes to. -/
theorem Program.arrives_of_reaches {p : Program} {id : Nat} {f : Function} {a : Nat × Nat}
    (h : p.verify = .ok ()) (hf : p.function? id = some f) (ha : (p.surveyOf f).Reaches a) :
    p.Arrives id f a := by
  obtain ⟨heights, hok⟩ := (verify_eq_ok h).2 id f hf
  have hall := (heights_eq_ok hok).2
  refine arrives_of_admits hf hok ?_
  induction ha with
  | entry => exact hall.entry
  | @next x y _ hl ih =>
    obtain ⟨hend, i, next, hi, hnext, hy⟩ := hl
    unfold Survey.Admits at ih
    rw [if_neg hend] at ih
    obtain ⟨_, j, onward, hj, honward, hadmits⟩ := hall.consistent x.1 x.2 ih
    rw [hi] at hj
    cases hj
    rw [hnext] at honward
    cases honward
    exact hadmits _ hy

/-- The script of a checked program does the deeds, and ends with an empty stack. -/
structure Program.Enacts (p : Program) (f : Function) (es : List Deed) : Prop where
  checked : p.verify = .ok ()
  first : p.function? 0 = some f
  arity : f.arity = 0
  ends : ∀ x, (p.surveyOf f).Ends x → x = (f.chunk.code.size, 0)
  code : ∃ ds, f.chunk.code.toList = encode ds ∧ p.Tells ds es

namespace Program.Enacts

variable {p : Program} {f : Function} {es before after : List Deed} {e : Deed} {ip height : Nat}

theorem size_eq (h : p.Enacts f es) : f.chunk.code.size = Deed.size es := by
  obtain ⟨ds, hcode, htells⟩ := h.code
  rw [← Array.length_toList, hcode, Directive.length_encode, htells.size_eq]

theorem isScript (h : p.Enacts f es) : f.isScript = true :=
  (Program.isScript_iff h.checked h.first).mpr rfl

/-- The directive behind some of the deeds. -/
theorem lies (h : p.Enacts f (before++e :: after)) :
    ∃ d, p.Says d e ∧ Holds f.chunk.code (Deed.size before) d.bytes ∧
      p.sourceLine 0 (Deed.size before) = 1+Deed.total before := by
  obtain ⟨ds, hcode, htells⟩ := h.code
  obtain ⟨ds₁, _, rfl, hbefore, hrest⟩ := htells.split
  cases hrest with
  | @cons d _ ds₂ _ hd _ =>
    refine ⟨d, hd, ?_, ?_⟩
    · rw [← hbefore.size_eq]
      exact Program.Lies.holds (p.lies_singleton h.first hcode)
    · have hstart : p.startLine 0 = 1 := by
        have hnone : f.enclosing = none := by simpa [Function.isScript] using h.isScript
        unfold Program.startLine
        simp [h.first, hnone]
      rw [Program.sourceLine_eq h.first, hstart, ← hbefore.size_eq, ← hbefore.total_eq,
        Directive.lineAt_encode hcode]
      omega

/-- A path that has not come to the end is in front of one of the deeds. -/
theorem stop (h : p.Enacts f es) (hreach : (p.surveyOf f).Reaches (ip, height))
    (hne : ip ≠ Deed.size es) :
    ∃ before e after d next, es = before++e :: after ∧ ip = Deed.size before ∧ p.Says d e ∧
      d.at_ ip ∈ f.chunk.instructions ∧ p.Stop 0 f ip height (d.at_ ip) next := by
  have harrives := Program.arrives_of_reaches h.checked h.first hreach
  unfold Program.Arrives at harrives
  rw [if_neg (by rwa [h.size_eq])] at harrives
  obtain ⟨i, next, s⟩ := Program.stop_of_meets h.first harrives
  have hi := s.mem h.first harrives
  obtain ⟨ds, hcode, htells⟩ := h.code
  have hplace : i ∈ place 0 ds := by
    rw [Chunk.instructions, Directive.decode_encode hcode] at hi
    simpa using hi
  obtain ⟨ds₁, d, ds₂, rfl, hd⟩ := Directive.split_of_mem_place hplace
  obtain ⟨before, rest, rfl, hbefore, hrest⟩ := htells.split_directives
  rw [Nat.zero_add] at hd
  cases hrest with
  | @cons _ e _ after hsays _ =>
    obtain rfl : ip = size ds₁ := s.offset.symm.trans (congrArg Instruction.offset hd)
    rw [hd] at s hi
    exact ⟨before, e, after, d, next, rfl, hbefore.size_eq, hsays, hi, s⟩

/-- From one of the deeds paths lead wherever it goes. -/
theorem onward (h : p.Enacts f es) (hreach : (p.surveyOf f).Reaches (ip, height))
    (hne : ip ≠ Deed.size es) :
    ∃ before e after, es = before++e :: after ∧ ip = Deed.size before ∧ e.needs ≤ height ∧
      (∀ n, e = .back n → n ≤ ip+3) ∧
        ∀ away, (p.surveyOf f).Reaches (e.goes away ip, e.leaves away height) := by
  obtain ⟨before, e, after, d, next, hes, hip, hsays, hmem, s⟩ := h.stop hreach hne
  obtain ⟨hneeds, hback, hnext⟩ := hsays.onward s hmem
  refine ⟨before, e, after, hes, hip, hneeds, hback, fun away => .next hreach ?_⟩
  exact ⟨by rwa [← h.size_eq] at hne, _, next, Program.start?_eq_some.mpr ⟨hmem, rfl⟩, s.successors,
    hnext away⟩

/-- A path that has come to the end has no values left. -/
theorem height_eq_zero (h : p.Enacts f es) (hreach : (p.surveyOf f).Reaches (Deed.size es, height)) :
    height = 0 := by
  have hend := h.ends _ ⟨hreach, fun _ hleads => hleads.1 h.size_eq.symm⟩
  exact congrArg Prod.snd hend

end Program.Enacts

end RatScript
