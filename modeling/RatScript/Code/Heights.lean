import RatScript.Code.Program

/-!
Checked programs. Every path through a function is followed with the height of the operand stack;
a program is sound if operands are in order, no path underflows, and paths that meet agree.
-/

namespace RatScript

/-- What is wrong with a program. -/
inductive Defect where
  | noScript
  | scriptEnclosed
  | laterEncloser (parent : Nat)
  | secondScript
  | undecodable (fault : DecodeFault)
  | constantOutOfRange (index : UInt8)
  | runnableAsValue
  | missingRunnable (function : Nat)
  | notRunnable
  | notIdentifier (op : Opcode)
  | fallsOffEnd
  | insideInstruction
  | heightsDiffer (seen height : Nat)
  | underflow (op : Opcode) (needs has : Nat)
  | deadSlot (slot : UInt8)
  | conditionMissing
  | counterMissing
  | loopMissing
  | targetOutside
  | unknownRunnable (name : String)
  deriving DecidableEq

def Defect.message : Defect → String
  | noScript => "program has no script"
  | scriptEnclosed => "first function must be the script"
  | laterEncloser parent => "enclosing function #"++toString parent++" does not precede it"
  | secondScript => "only the script may lack an enclosing function"
  | undecodable fault => fault.message
  | constantOutOfRange index => "constant index "++toString index++" out of range"
  | runnableAsValue => "runnables are only loaded through DEFINE_RUNNABLE"
  | missingRunnable function => "runnable #"++toString function++" does not exist"
  | notRunnable => "DEFINE_RUNNABLE expects a runnable constant"
  | notIdentifier op => op.mnemonic++" expects an identifier constant"
  | fallsOffEnd => "runnable body falls off its end"
  | insideInstruction => "jump into the middle of an instruction"
  | heightsDiffer seen height =>
    "inconsistent stack height ("++toString seen++" vs "++toString height++")"
  | underflow op needs has =>
    "stack underflow: "++op.mnemonic++" needs "++toString needs++" values, has "++toString has
  | deadSlot slot => "local slot "++toString slot++" is not live"
  | conditionMissing => "conditional jump on empty stack"
  | counterMissing => "END_REPEAT without a counter"
  | loopMissing => "END_REPEAT must precede LOOP"
  | targetOutside => "jump target outside the chunk"
  | unknownRunnable name => "call to unknown runnable '"++name++"'"

/-- A defect and where it stands. -/
structure Rejection where
  function : String
  offset : Nat
  defect : Defect
  deriving DecidableEq

namespace Rejection

def message (r : Rejection) : String := r.defect.message

def text (r : Rejection) : String :=
  "verify error in '"++r.function++"' at "++Text.zeroPadded 4 r.offset++": "++r.message

end Rejection

namespace Function

/-- Whether the constant an instruction names is of the kind it needs. -/
def checkConstant (f : Function) (p : Program) (op : Opcode) (index : UInt8) : Except Defect Unit :=
  match f.chunk.constant? index with
  | none => .error (.constantOutOfRange index)
  | some constant =>
    match op, constant with
    | .constant, .runnable _ => .error .runnableAsValue
    | .constant, _ => .ok ()
    | .defineRunnable, .runnable function =>
      match p.function? function with
      | some callee => if callee.isScript then .error (.missingRunnable function) else .ok ()
      | none => .error (.missingRunnable function)
    | .defineRunnable, _ => .error .notRunnable
    | _, .text _ => .ok ()
    | _, _ => .error (.notIdentifier op)

def checkOperand (f : Function) (p : Program) (i : Instruction) : Except Defect Unit :=
  match i.operand with
  | .constant index | .native index _ | .runnable index _ => f.checkConstant p i.op index
  | _ => .ok ()

end Function

/-- Values an instruction takes off the stack and puts on it. -/
structure Effect where
  pops : Nat
  pushes : Nat
  deriving DecidableEq

namespace Opcode

/-- The effect of every operation but the calls. -/
def effect : Opcode → Effect
  | newline | jump | jumpIf _ | loop | defineRunnable | endRepeat | call | callNative => ⟨0, 0⟩
  | constant | literal _ | get _ | count _ _ => ⟨0, 1⟩
  | pop | ret | define => ⟨1, 0⟩
  | operator _ | test _ => ⟨2, 1⟩
  | negate | complement | not | set _ | compound _ _ | repeat_ => ⟨1, 1⟩

end Opcode

/-- A function under check, with the instruction that starts at each offset, if one does. -/
structure Survey where
  program : Program
  function : Function
  starts : Array (Option Instruction)

namespace Survey

def size (s : Survey) : Nat := s.function.chunk.code.size

def start? (s : Survey) (offset : Nat) : Option Instruction := (s.starts[offset]?).join

def effect (s : Survey) (i : Instruction) : Except Defect Effect :=
  match i.op, i.operand with
  | .callNative, .native _ arguments => .ok ⟨arguments.toNat+1, 1⟩
  | .call, .constant index =>
    match s.function.identifier? index with
    | none => .error (.notIdentifier i.op)
    | some name =>
      match s.program.runnable? name with
      | none => .error (.unknownRunnable name)
      | some callee => .ok ⟨callee.arity+1, 1⟩
  | op, _ => .ok op.effect

def target (s : Survey) (i : Instruction) : Except Defect Nat :=
  match i.target? with
  | some t => if t ≤ s.size then .ok t else .error .targetOutside
  | none => .error .targetOutside

/-- Where a counted loop goes on when its count is used up: behind the loop instruction that has to
follow. -/
def afterLoop (s : Survey) (i : Instruction) : Except Defect Nat :=
  match s.start? i.next with
  | some j => if j.op = .loop then .ok j.next else .error .loopMissing
  | none => .error .loopMissing

/-- Offsets that can follow an instruction met at a height, each with the height there; the last
one is looked at last. -/
def successors (s : Survey) (i : Instruction) (height : Nat) : Except Defect (List (Nat × Nat)) := do
  let e ← s.effect i
  if height < e.pops then .error (.underflow i.op e.pops height)
  let after := height-e.pops+e.pushes
  match i.operand with
  | .slot slot =>
    if s.function.isScript || height ≤ slot.toNat then .error (.deadSlot slot)
  | _ => .ok ()
  match i.op with
  | .ret => .ok []
  | .jump | .loop => .ok [(← s.target i, after)]
  | .jumpIf _ =>
    if height = 0 then .error .conditionMissing
    let t ← s.target i
    .ok [(i.next, after), (t, after)]
  | .endRepeat =>
    if height = 0 then .error .counterMissing
    let out ← s.afterLoop i
    .ok [(out, after-1), (i.next, after)]
  | _ => .ok [(i.next, after)]

def reject (s : Survey) (offset : Nat) (defect : Defect) : Rejection :=
  ⟨s.function.name, offset, defect⟩

/-- Filling an empty cell leaves fewer empty ones. -/
theorem countP_isNone_set_lt {α : Type} {cells : Array (Option α)} {i : Nat} (h : i < cells.size)
    (hempty : cells[i] = none) (a : α) :
    (cells.set i (some a) h).countP Option.isNone < cells.countP Option.isNone := by
  have hpos : 0 < cells.countP Option.isNone :=
    Array.countP_pos_iff.mpr ⟨cells[i], Array.getElem_mem h, by rw [hempty]; rfl⟩
  have hold : cells[i].isNone = true := by rw [hempty]; rfl
  rw [Array.countP_set, if_pos hold, if_neg (by simp)]
  omega

/-- Follows all paths from the offsets in `work`. Each offset is entered at one height; the heights
met so far are kept by offset. -/
def explore (s : Survey) (heights : Array (Option Nat)) (work : List (Nat × Nat)) :
    Except Rejection (Array (Option Nat)) :=
  match work with
  | [] => .ok heights
  | (offset, height) :: work =>
    if offset = s.size then
      if s.function.isScript then s.explore heights work
      else .error (s.reject offset .fallsOffEnd)
    else match s.start? offset with
      | none => .error (s.reject offset .insideInstruction)
      | some i =>
        if h : offset < heights.size then
          match hseen : heights[offset] with
          | some seen =>
            if seen = height then s.explore heights work
            else .error (s.reject offset (.heightsDiffer seen height))
          | none =>
            match s.successors i height with
            | .error defect => .error (s.reject offset defect)
            | .ok next => s.explore (heights.set offset (some height)) (next++work)
        else .error (s.reject offset .insideInstruction)
termination_by (heights.countP Option.isNone, work.length)
decreasing_by
  · exact Prod.Lex.right _ (by simp)
  · exact Prod.Lex.right _ (by simp)
  · exact Prod.Lex.left _ _ (countP_isNone_set_lt h hseen height)

end Survey

namespace Program

/-- The operand checks of a function's instructions, up to the first defect. -/
def checkOperands (p : Program) (f : Function) : List Instruction → Except Rejection Unit
  | [] => .ok ()
  | i :: rest =>
    match f.checkOperand p i with
    | .ok () => p.checkOperands f rest
    | .error defect => .error ⟨f.name, i.offset, defect⟩

/-- Whether a function stands where its place in the program allows. -/
def checkEnclosing (id : Nat) (f : Function) : Except Defect Unit :=
  match f.enclosing with
  | some parent => if parent < id then .ok () else .error (.laterEncloser parent)
  | none => if id = 0 then .ok () else .error .secondScript

def survey (p : Program) (f : Function) (instructions : Array Instruction) : Survey :=
  ⟨p, f, instructions.foldl (fun starts i => starts.setIfInBounds i.offset (some i))
    (Array.replicate (f.chunk.code.size+1) none)⟩

/-- The height of the stack at each offset of a function that some path reaches. -/
def heights (p : Program) (id : Nat) (f : Function) : Except Rejection (Array (Option Nat)) := do
  match checkEnclosing id f with
  | .ok () => .ok ()
  | .error defect => .error ⟨f.name, 0, defect⟩
  let (instructions, fault) := f.chunk.decode
  p.checkOperands f instructions.toList
  match fault with
  | some fault => .error ⟨f.name, f.chunk.code.size, .undecodable fault⟩
  | none => .ok ()
  (p.survey f instructions).explore (Array.replicate (f.chunk.code.size+1) none) [(0, f.arity)]

/-- Checks functions in order, counting their places from `id`. -/
def verifyFrom (p : Program) (id : Nat) : List Function → Except Rejection Unit
  | [] => .ok ()
  | f :: rest =>
    match p.heights id f with
    | .ok _ => p.verifyFrom (id+1) rest
    | .error r => .error r

def verify (p : Program) : Except Rejection Unit :=
  match p.functions[0]? with
  | none => .error ⟨"<script>", 0, .noScript⟩
  | some script =>
    if script.isScript then p.verifyFrom 0 p.functions.toList
    else .error ⟨script.name, 0, .scriptEnclosed⟩

end Program
end RatScript
