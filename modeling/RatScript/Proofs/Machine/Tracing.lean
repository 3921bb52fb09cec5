import RatScript.Proofs.Machine.Limits

/-!
Traces that run out of room. Up to there a run is what it would be without a trace, whatever the stream
takes that is traced to.
-/

namespace RatScript

open Stateful

/-- The same limits without a trace. -/
def Config.untraced (c : Config) : Config := {c with trace := false}

namespace Exec

open Machine

variable {α : Type} {m t : Machine}

/-- A trace of live values changes nothing but its stream, and fails for want of room only. -/
theorem trace_cases (hlive : ∀ v ∈ m.stack.toList, Live v m) (offset : Nat) :
    (∃ d, trace offset m = .ok () (m.under m.config d)) ∨ ∃ t, trace offset m = .error .trace t := by
  obtain ⟨cells, hcells⟩ := stackText_of_live hlive ""
  obtain ⟨⟨d, fits⟩, hwrite⟩ :
      ∃ r, m.world.diagnostics.write (Text.zeroPadded 4 offset++"\t"++cells++"\n") = r := ⟨_, rfl⟩
  simp only [trace, bind, EStateM.bind, get, getThe, MonadStateOf.get, EStateM.get, ask, hcells,
    pure, EStateM.pure, modifyGet, MonadStateOf.modifyGet, EStateM.modifyGet, hwrite]
  cases fits with
  | true => exact .inl ⟨d, rfl⟩
  | false => exact .inr ⟨_, rfl⟩

end Exec

namespace Machine

variable {p : Program} {z : Setting} {X : List Value} {S : Handle → Prop} {m : Machine}

/-- A turn that is not the one the trace fails in is the same without a trace. -/
theorem advance_untraced (hm : m.Counted z X S) (hroom : (m.advance p).1 ≠ .failed ⟨.trace, 0⟩)
    (d : Sink) : (m.under z.config.untraced d).advance p =
      ((m.advance p).1, (m.advance p).2.under z.config.untraced d) := by
  have hwithin : m.config.Within z.config.untraced := hm.config ▸ .refl m.config
  have hwithin' : z.config.untraced.Within m.config := hm.config ▸ .refl m.config
  have hframes : (m.under z.config.untraced d).frames = m.frames := rfl
  cases hfs : m.frames with
  | nil => simp only [advance, hframes, hfs]
  | cons fr rest =>
    cases hf : p.function? fr.function with
    | none => simp only [advance, hframes, hfs, hf]
    | some f =>
      by_cases hend : f.chunk.code.size ≤ fr.ip
      · simp only [advance, hframes, hfs, hf, hend, if_true]
        split <;> rfl
      have hkeeps : Keeps (Invariant (Counted z X S)) (Exec.step p fr.function f) := inferInstance
      cases hs : Exec.step p fr.function f m with
      | error e t =>
        have hs' := Exec.Indifferent.error_same (d := d) hs hwithin hwithin'
        simp only [advance, hframes, hfs, hf, hend, if_false, hs, hs']
      | ok u t =>
        have hs' := Exec.Indifferent.of_ok (d := d) hs hwithin
        have ht := hkeeps.of_ok hs hm
        have hquiet : (t.under z.config.untraced d).config.trace = false := rfl
        simp only [advance, hframes, hfs, hf, hend, if_false, hs, hs', hquiet] at hroom ⊢
        cases htraced : t.config.trace with
        | false => rfl
        | true =>
          simp only [htraced, if_true] at hroom ⊢
          obtain ⟨d', htrace⟩ | ⟨t', htrace⟩ :=
            Exec.trace_cases (fun v hv => Exec.live_of_stack ht hv) fr.ip
          · rw [htrace]
            rfl
          · rw [htrace] at hroom
            exact absurd rfl hroom

theorem runFor_untraced (turns : Nat) (hm : m.Counted z X S)
    (hroom : (m.runFor p turns).1 ≠ .failed ⟨.trace, 0⟩) (d : Sink) :
    (m.under z.config.untraced d).runFor p turns =
      ((m.runFor p turns).1, (m.runFor p turns).2.under z.config.untraced d) := by
  induction turns generalizing m with
  | zero => rfl
  | succ turns ih =>
    have hnext := advance_counted p hm
    have hadvance := advance_untraced (p := p) hm
    simp only [runFor] at hroom ⊢
    cases ha : m.advance p with
    | mk outcome m₁ =>
      rw [ha] at hroom hnext hadvance
      cases outcome with
      | running =>
        rw [hadvance (by simp) d]
        exact ih hnext hroom
      | finished | failed => rw [hadvance hroom d]

/-- A run whose trace has room is the same without a trace. -/
theorem interpret_untraced {config : Config} (hp : p.Resolves) (turns : Nat) (hm : m.Rests S)
    (hconfig : m.config = config) (hroom : (m.interpret p turns).1 ≠ .failed ⟨.trace, 0⟩) (d : Sink) :
    (m.under config.untraced d).interpret p turns =
      ((m.interpret p turns).1, (m.interpret p turns).2.under config.untraced d) := by
  subst hconfig
  obtain ⟨c, b, n, hm, hunbound⟩ := hm
  obtain rfl : m.config = c := hm.config
  have hcounted := Exec.load_yields p m ⟨hm, hunbound⟩
  cases hl : Exec.load p m with
  | error e m₁ =>
    rw [hl] at hcounted
    exact absurd hp hcounted.2.1
  | ok u m₁ =>
    rw [hl] at hcounted
    have hl' := Exec.Indifferent.of_ok (c := m.config.untraced) (d := d) hl (.refl m.config)
    have hrun (h : (m₁.runFor p turns).1 ≠ .failed ⟨.trace, 0⟩) :
        (m₁.under m.config.untraced d).runFor p turns =
          ((m₁.runFor p turns).1, (m₁.runFor p turns).2.under m.config.untraced d) :=
      runFor_untraced turns hcounted h d
    simp only [interpret, hl, hl'] at hroom ⊢
    cases hr : m₁.runFor p turns with
    | mk outcome m₂ =>
      rw [hr] at hroom hrun
      cases outcome with
      | running | failed => rw [hrun hroom]
      | finished =>
        rw [hrun (by simp)]
        rfl

end Machine
end RatScript
