import RatScript.Proofs.Compile.Steps

/-!
What the compiler has reported stays reported: no step withdraws a diagnostic. So a compilation that
ends without any has never passed over a faulty statement.
-/

set_option synthInstance.maxSize 65536

namespace RatScript

open Stateful

/-- The later state has all diagnostics of the earlier one, and perhaps more. -/
def Builder.Reports (b b' : Builder) : Prop :=
  b.diagnostics.toList <+: b'.diagnostics.toList

namespace Builder

instance : Std.Refl Reports := ⟨fun _ => List.prefix_rfl⟩

instance : Trans Reports Reports Reports := ⟨List.IsPrefix.trans⟩

theorem Reports.of_eq {b b' : Builder} (h : b'.diagnostics = b.diagnostics) : b.Reports b' := by
  simp [Reports, h]

theorem Reports.silent {b b' : Builder} (h : b.Reports b') (hs : b'.diagnostics = #[]) :
    b.diagnostics = #[] := by
  rw [Reports, hs] at h
  simpa using h

end Builder

namespace Compile

open Builder (Reports)

instance : OnFunctions Reports := ⟨fun _ h => h⟩

theorem keeps_modify {f : Builder → Builder} (h : ∀ b, (f b).diagnostics = b.diagnostics) :
    Keeps Reports (modify f : Compile Unit) :=
  Keeps.modify fun b => .of_eq (h b)

instance (bytes : List UInt8) : Keeps Reports (emitBytes bytes) := keeps_modify fun _ => rfl

instance (add : Chunk → Except PoolFault (Chunk × UInt8)) : Keeps Reports (enter add) :=
  Keeps.get_bind fun b => by
    cases add b.chunk with
    | ok r => exact .of_eq rfl
    | error fault => exact .of_eq rfl

instance (at_ : Nat) : Keeps Reports (patchJump at_) := by
  unfold patchJump
  refine Keeps.seq inferInstance fun n => ?_
  split
  · exact keeps_modify fun _ => rfl
  · infer_instance

instance (name : Option String) (t : Located) : Keeps Reports (addLocal name t) := by
  unfold addLocal
  refine Keeps.seq inferInstance fun b => ?_
  split
  · exact keeps_modify fun _ => rfl
  · infer_instance

instance (statement : Compile Unit) [Keeps Reports statement] :
    Keeps Reports (runnableDeclaration statement) := by
  have hpush (name : String) (n : Nat) : Keeps Reports (modify fun b : Builder =>
      {b with functions := b.functions.push (.new name (some b.current) n)} : Compile Unit) :=
    keeps_modify fun _ => rfl
  have hlines (id : Nat) (lines : UInt16) : Keeps Reports (modify fun b : Builder =>
      b.modifyFunction id fun f => {f with lineCount := lines} : Compile Unit) :=
    keeps_modify fun _ => rfl
  have htail (id : Nat) (t : Located) (n : Nat) : Keeps Reports (match Word.ofNat? n with
      | none => complain t .bodyTooLong
      | some lines => do
        modify (·.modifyFunction id fun f => {f with lineCount := lines})
        let index ← enter (·.addConstant (.runnable id))
        emitBytes [Opcode.defineRunnable.toByte, index, Word.high lines, Word.low lines]
        endOfLine : Compile Unit) := by
    split <;> infer_instance
  dsimp only [runnableDeclaration]
  infer_instance

/-- No statement withdraws what was reported before it. -/
instance reports_statementAt (levels : Nat) : Keeps Reports (statementAt levels) :=
  keeps_statementAt (fun _ _ => inferInstance) levels

end Compile
end RatScript
