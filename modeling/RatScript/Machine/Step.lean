import RatScript.Code.Program
import RatScript.Machine.Natives
import RatScript.Machine.Operators

/-!
One instruction of a running program.
-/

namespace RatScript

namespace Exec

/-- The name an instruction refers to. -/
def identifier (f : Function) : Exec String := do
  let index ← readByte f.chunk.code
  match f.identifier? index with
  | some name => return name
  | none => throw (.notIdentifier index)

/-- Enters the runnable a name is bound to; its arguments are on the stack, over itself. -/
def call (p : Program) (name : String) : Exec Unit := do
  match ← object (← global name) with
  | some (.runnable function _) =>
    match p.function? function with
    | none => throw (.missingFunction function)
    | some callee =>
      let m ← get
      if m.config.maxCallDepth ≤ m.frames.length then throw (.callDepth m.config.maxCallDepth)
      else if m.stack.size < callee.arity+1 then throw .stackUnderflow
      else modify fun m =>
        {m with frames := ⟨function, 0, m.stack.size-(callee.arity+1)⟩ :: m.frames}
  | _ => throw (.notRunnable name)

def callNative (name : String) (arguments : Nat) : Exec Unit := do
  match ← object (← global name) with
  | some (.native native) =>
    if native.arity ≠ arguments then throw (.argumentCount name native.arity arguments)
    else
      let size := (← get).stack.size
      if size < arguments+1 then throw .stackUnderflow
      else
        runNative native
        collapse (size-(arguments+1)) (← peek 0)
  | _ => throw (.notNative name)

/-- Leaves a runnable with the value on top as its result. -/
def ret : Exec Unit := do
  let v ← peek 0
  match (← get).frames with
  | f :: _ :: _ =>
    collapse f.base v
    modify fun m => {m with frames := m.frames.drop 1}
  | _ => throw .returnFromScript

def jumpBy (distance : UInt16) : Exec Unit := do
  setIp ((← frame).ip+distance.toNat)

def loopBy (distance : UInt16) : Exec Unit := do
  let f ← frame
  if distance.toNat ≤ f.ip then setIp (f.ip-distance.toNat) else throw .loopBeforeStart

/-- Checks the count of a `repeat`, which stays on the stack. -/
def checkCount : Exec Unit := do
  let v ← peek 0
  match v.integral? with
  | some n =>
    if n ≤ 0 then throw (.repeatCount (← describe v))
    else if (maxRepeat : Int) < n.toInt then throw (.repeatLimit n)
  | none => throw (.repeatCount (← describe v))

/-- Counts a `repeat` down; at zero the counter goes and the loop instruction is passed over. -/
def countDown : Exec Unit := do
  match ← peek 0 with
  | .number n =>
    let left := n.sub (.ofInt 1)
    if left.less .zero || left.same .zero then
      pop
      setIp ((← frame).ip+Opcode.loop.width)
    else replaceTop (.number left)
  | _ => throw .repeatCounter

/-- Binds the runnable at a constant index to its name. -/
def defineRunnable (id : Nat) (index : UInt8) : Exec Unit := do
  let v ← constant id index
  match ← object v with
  | some (.runnable _ name) => defineGlobal name v
  | _ => throw .defineOperand

def execute (p : Program) (id : Nat) (f : Function) (op : Opcode) : Exec Unit := do
  match op with
  | .newline => return
  | .pop => pop
  | .constant => push (← constant id (← readByte f.chunk.code))
  | .literal value =>
    push (match value with
      | some b => .bool b
      | none => .none)
  | .operator op =>
    let a ← peek 1
    let b ← peek 0
    let v ← apply op a b
    pop
    pop
    push v
  | .test t =>
    let a ← peek 1
    let b ← peek 0
    let v ← compare t a b
    pop
    pop
    push v
  | .negate =>
    let v ← peek 0
    match v with
    | .number n => replaceTop (.number n.neg)
    | _ => throw (.negate (← describe v))
  | .complement =>
    let v ← peek 0
    match v.integral? with
    | some n => replaceTop (.number (.ofInt (~~~n).toInt))
    | none => throw (.complement (← describe v))
  | .not => replaceTop (.bool (!(← isTruthy (← peek 0))))
  | .define =>
    let name ← identifier f
    defineGlobal name (← peek 0)
    pop
  | .get .global => push (← global (← identifier f))
  | .get .frame => push (← loadLocal (← readByte f.chunk.code))
  | .set .global =>
    let name ← identifier f
    let _ ← assignable name
    storeGlobal name (← peek 0)
  | .set .frame =>
    let slot ← readByte f.chunk.code
    storeLocal slot (← peek 0)
  | .count .global up =>
    let name ← identifier f
    let v ← counted up (← assignable name)
    storeGlobal name v
    push v
  | .count .frame up =>
    let slot ← readByte f.chunk.code
    let v ← counted up (← loadLocal slot)
    storeLocal slot v
    push v
  | .compound .global op =>
    let name ← identifier f
    let old ← assignable name
    let v ← apply op old (← peek 0)
    storeGlobal name v
    replaceTop v
  | .compound .frame op =>
    let slot ← readByte f.chunk.code
    let old ← loadLocal slot
    let v ← apply op old (← peek 0)
    storeLocal slot v
    replaceTop v
  | .jump => jumpBy (← readWord f.chunk.code)
  | .jumpIf truth =>
    let distance ← readWord f.chunk.code
    if (← isTruthy (← peek 0)) == truth then jumpBy distance
  | .loop => loopBy (← readWord f.chunk.code)
  | .repeat_ => checkCount
  | .endRepeat => countDown
  | .defineRunnable =>
    let index ← readByte f.chunk.code
    let _ ← readWord f.chunk.code
    defineRunnable id index
  | .call => call p (← identifier f)
  | .callNative =>
    let name ← identifier f
    callNative name (← readByte f.chunk.code).toNat
  | .ret => ret

/-- Executes the instruction at the pointer of the innermost frame, which runs function `id`. -/
def step (p : Program) (id : Nat) (f : Function) : Exec Unit := do
  let byte ← readByte f.chunk.code
  match Opcode.ofByte? byte with
  | some op => execute p id f op
  | none => throw (.unrecognizedOpcode byte)

end Exec
end RatScript
