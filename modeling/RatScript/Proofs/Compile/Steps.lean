import RatScript.Compile.Statement
import RatScript.Proofs.Stateful

/-!
Steps of the compiler that are made of others: a relation between states that reading a token, writing
bytes, entering a constant and patching a jump keep is kept by everything up to whole expressions. If it
holds wherever functions stay the same and nothing reported is withdrawn, and locals and runnables keep
it, whole statements do.
-/

set_option synthInstance.maxSize 65536

namespace RatScript.Compile

open Stateful

variable {R : Builder → Builder → Prop} [Std.Refl R] [Trans R R R]

instance {α : Type} (t : Located) (c : Complaint) : Keeps R (complain t c : Compile α) :=
  inferInstanceAs (Keeps R (throw _))

instance : Keeps R peek := by dsimp only [peek]; infer_instance

instance : Keeps R last := by dsimp only [last]; infer_instance

instance (token : Token) : Keeps R (check token) := by dsimp only [check]; infer_instance

instance : Keeps R offset := by dsimp only [offset]; infer_instance

instance : Keeps R tooDeep := by dsimp only [tooDeep]; infer_instance

section
variable [Keeps R advance]

instance (token : Token) : Keeps R (accept token) := by dsimp only [accept]; infer_instance

instance (token : Token) (what : String) : Keeps R (consume token what) := by
  dsimp only [consume]; infer_instance

instance (what : String) : Keeps R (consumeName what) := by
  unfold consumeName
  refine Keeps.seq inferInstance fun t => ?_
  split <;> infer_instance

instance (what : String) : Keeps R (header what) := by dsimp only [header]; infer_instance

instance (budget : List Located) (found : Array (String × Located)) :
    Keeps R (parameters budget found) := by
  induction budget generalizing found with
  | nil => dsimp only [parameters]; infer_instance
  | cons t budget ih => dsimp only [parameters]; infer_instance

instance : Keeps R parameterList := by dsimp only [parameterList]; infer_instance

end

section
variable [∀ bytes, Keeps R (emitBytes bytes)]

instance (op : Opcode) : Keeps R (emit op) := by dsimp only [emit]; infer_instance

instance (op : Opcode) (operand : UInt8) : Keeps R (emitWith op operand) := by
  dsimp only [emitWith]; infer_instance

instance (op : Opcode) : Keeps R (emitJump op) := by dsimp only [emitJump]; infer_instance

instance (start : Nat) : Keeps R (emitLoop start) := by
  unfold emitLoop
  refine Keeps.seq inferInstance fun _ => Keeps.seq inferInstance fun n => ?_
  split <;> infer_instance

instance [Keeps R advance] : Keeps R endOfLine := by dsimp only [endOfLine]; infer_instance

end

section
variable [∀ add, Keeps R (enter add)]

instance (content : String) : Keeps R (textConstant content) := by
  dsimp only [textConstant]; infer_instance

instance (name : String) : Keeps R (resolve name) := by
  unfold resolve
  refine Keeps.seq inferInstance fun b => ?_
  split <;> infer_instance

end

section
variable [Keeps R advance] [∀ bytes, Keeps R (emitBytes bytes)] [∀ add, Keeps R (enter add)]
  [∀ at_, Keeps R (patchJump at_)]

section
variable (inner : Precedence → Compile Unit) [∀ p, Keeps R (inner p)]

instance (budget : List Located) (n : Nat) : Keeps R (arguments inner budget n) := by
  induction budget generalizing n with
  | nil => dsimp only [arguments]; infer_instance
  | cons t budget ih => dsimp only [arguments]; infer_instance

instance (t : Located) (name : String) (arity : Nat) :
    Keeps R (callWith inner t name arity) := by
  dsimp only [callWith]; infer_instance

instance (t : Located) (name : String) : Keeps R (call inner t name) := by
  unfold call
  refine Keeps.seq inferInstance fun b => ?_
  split
  · infer_instance
  · split <;> infer_instance

instance (t : Located) (name : String) (canAssign : Bool) :
    Keeps R (variable_ inner t name canAssign) := by
  unfold variable_
  refine Keeps.seq inferInstance fun paren => ?_
  split
  · infer_instance
  · refine Keeps.seq inferInstance fun v => Keeps.seq inferInstance fun t => ?_
    split <;> infer_instance

instance (t : Located) (canAssign : Bool) : Keeps R (leading inner t canAssign) := by
  unfold leading
  split <;> infer_instance

instance (i : Infix) : Keeps R (joined inner i) := by
  unfold joined
  split <;> infer_instance

instance (p : Precedence) (budget : List Located) : Keeps R (following inner p budget) := by
  induction budget with
  | nil => dsimp only [following]; infer_instance
  | cons t budget ih =>
    unfold following
    refine Keeps.seq inferInstance fun t => ?_
    split <;> infer_instance

instance (p : Precedence) : Keeps R (operand inner p) := by dsimp only [operand]; infer_instance

end

instance (levels : Nat) (p : Precedence) : Keeps R (operandAt levels p) := by
  induction levels generalizing p with
  | zero => dsimp only [operandAt]; infer_instance
  | succ levels ih => dsimp only [operandAt]; infer_instance

end

/-- Functions that stay the same, and diagnostics that stay reported, are enough for the relation. -/
class OnFunctions (R : Builder → Builder → Prop) : Prop where
  of_eq : ∀ {b b' : Builder}, b'.functions = b.functions →
    b.diagnostics.toList <+: b'.diagnostics.toList → R b b'

section
variable [OnFunctions R]

omit [Std.Refl R] [Trans R R R] in
theorem keeps_modify_of_eq {f : Builder → Builder} (hf : ∀ b, (f b).functions = b.functions)
    (hd : ∀ b, b.diagnostics.toList <+: (f b).diagnostics.toList) :
    Keeps R (modify f : Compile Unit) :=
  Keeps.modify fun b => OnFunctions.of_eq (hf b) (hd b)

instance : Keeps R advance := by
  refine keeps_modify_of_eq (fun b => ?_) fun b => ?_ <;> unfold Builder.advance <;> split
  iterate 2 rfl
  iterate 2 exact List.prefix_rfl

instance : Keeps R beginScope := keeps_modify_of_eq (fun _ => rfl) fun _ => List.prefix_rfl

instance : Keeps R synchronize := keeps_modify_of_eq (fun _ => rfl) fun _ => List.prefix_rfl

instance (id : Nat) (body : Compile Unit) [Keeps R body] : Keeps R (inFunction id body) := by
  unfold inFunction
  refine Keeps.seq inferInstance fun _ => Keeps.seq inferInstance fun _ =>
    Keeps.seq inferInstance fun _ => Keeps.seq (keeps_modify_of_eq (fun _ => rfl) fun _ => List.prefix_rfl) fun _ =>
    Keeps.tryFinally inferInstance (keeps_modify_of_eq (fun _ => rfl) fun _ => List.prefix_rfl)

variable [∀ bytes, Keeps R (emitBytes bytes)]

instance : Keeps R endScope := by
  refine Keeps.get_bind fun b => ?_
  have hleave : R b {b with depth := b.depth-1, locals := (Builder.leave (b.depth-1) b.locals).1} :=
    OnFunctions.of_eq rfl List.prefix_rfl
  have hpops (n : Nat) : Keeps R (emitBytes (List.replicate n Opcode.pop.toByte)) := inferInstance
  exact Trans.trans hleave ((hpops (Builder.leave (b.depth-1) b.locals).2).keeps _)

variable [∀ add, Keeps R (enter add)] [∀ at_, Keeps R (patchJump at_)]
  [∀ name t, Keeps R (addLocal name t)]

instance (expression : Compile Unit) [Keeps R expression] : Keeps R (expressionStatement expression) := by
  dsimp only [expressionStatement]; infer_instance

instance (expression : Compile Unit) [Keeps R expression] : Keeps R (varDeclaration expression) := by
  dsimp only [varDeclaration]; infer_instance

instance (expression : Compile Unit) [Keeps R expression] : Keeps R (returnStatement expression) := by
  dsimp only [returnStatement]; infer_instance

section
variable (expression : Compile Unit) (statement : Compile Unit) [Keeps R expression]
  [Keeps R statement]

/-- A statement that fails adds what it failed for. -/
instance : Keeps R (declaration statement) := by
  refine Keeps.tryCatch inferInstance fun d => ?_
  have h : Keeps R
      (modify fun b : Builder => {b with diagnostics := b.diagnostics.push d} : Compile Unit) :=
    keeps_modify_of_eq (fun _ => rfl) fun b => by simp
  infer_instance

instance (closers : List Keyword) (budget : List Located) :
    Keeps R (declarations statement closers budget) := by
  induction budget with
  | nil => dsimp only [declarations]; infer_instance
  | cons t budget ih =>
    unfold declarations
    refine Keeps.seq inferInstance fun t => ?_
    split <;> infer_instance

instance (opener : Keyword) (closers : List Keyword) :
    Keeps R (block statement opener closers) := by
  dsimp only [block]; infer_instance

instance : Keeps R (ifStatement expression statement) := by
  have htail (toEnd : Nat) : Keeps R (do
      consume (.keyword .endIf) "'endif'"
      patchJump toEnd
      endOfLine : Compile Unit) := inferInstance
  dsimp only [ifStatement]
  infer_instance

instance : Keeps R (whileStatement expression statement) := by
  dsimp only [whileStatement]; infer_instance

instance : Keeps R (repeatBody statement) := by
  unfold repeatBody
  have h : Keeps R (tryFinally (block statement .repeat_ [.endRepeat])
      (modify fun b : Builder => {b with locals := b.locals.drop 1, depth := b.depth-1})) :=
    Keeps.tryFinally inferInstance (keeps_modify_of_eq (fun _ => rfl) fun _ => List.prefix_rfl)
  infer_instance

instance : Keeps R (repeatStatement expression statement) := by
  dsimp only [repeatStatement]; infer_instance

instance (params : List (String × Located)) : Keeps R (runnableBody statement params) := by
  have h : Keeps R
      (params.forM fun (name, t) => addLocal (some name) t : Compile PUnit) := by
    induction params with
    | nil => simp only [List.forM]; infer_instance
    | cons x params ih => simp only [List.forM]; infer_instance
  dsimp only [runnableBody]
  infer_instance

end

instance (expression inner : Compile Unit) [Keeps R expression] [Keeps R inner]
    [Keeps R (runnableDeclaration inner)] : Keeps R (statement expression inner) := by
  unfold statement
  refine Keeps.seq inferInstance fun t => ?_
  split <;> infer_instance

theorem keeps_statementAt
    (h : ∀ inner : Compile Unit, Keeps R inner → Keeps R (runnableDeclaration inner)) (levels : Nat) :
    Keeps R (statementAt levels) := by
  induction levels with
  | zero => unfold statementAt; infer_instance
  | succ levels ih =>
    have hrunnable := h _ ih
    unfold statementAt
    infer_instance

end
end RatScript.Compile
