import RatScript.Code.Word
import RatScript.Machine.Fault
import RatScript.Text.Blank

/-!
The stack machine's state, and the steps that instructions are made of. A step that fails leaves
the state it has reached.
-/

namespace RatScript

structure Config where
  stackCapacity : Nat := 1024
  maxCallDepth : Nat := 256
  trace : Bool := false
  deriving DecidableEq

/-- An active call. Slot `s` of a runnable is cell `base+s+1` of the stack; cell `base` holds the
runnable itself. -/
structure Frame where
  function : Nat
  ip : Nat
  base : Nat
  deriving DecidableEq, Inhabited

/-- Global variables, the last defined first. -/
structure Globals where
  bindings : List (String × Value)

namespace Globals

def empty : Globals := ⟨[]⟩

def get? (g : Globals) (name : String) : Option Value := g.bindings.lookup name

def define (g : Globals) (name : String) (v : Value) : Globals := ⟨(name, v) :: g.bindings⟩

def replace (name : String) (v : Value) : List (String × Value) → List (String × Value)
  | [] => []
  | (other, w) :: rest =>
    if other == name then (other, v) :: rest else (other, w) :: replace name v rest

/-- Changes the value of a name that is defined. -/
def set (g : Globals) (name : String) (v : Value) : Globals := ⟨replace name v g.bindings⟩

def erase (g : Globals) (name : String) : Globals := ⟨g.bindings.filter (·.1 != name)⟩

end Globals

structure Machine where
  config : Config
  stack : Array Value
  globals : Globals
  /-- Active calls, the innermost first; the outermost is the script. -/
  frames : List Frame
  heap : Heap
  /-- Constants of each function of the program as values. -/
  pools : Array (Array Value)
  nativesBound : Bool
  world : World

abbrev Exec := EStateM Fault Machine

namespace Machine

def new (config : Config) (world : World) : Machine :=
  ⟨config, #[], .empty, [], .empty, #[], false, world⟩

end Machine

namespace Exec

/-- A step on the heap as a step of the machine. -/
def onHeap {α : Type} (x : HeapM α) : Exec α := fun m =>
  let heap := m.heap
  let m := {m with heap := .empty}
  match x heap with
  | .ok a heap => .ok a {m with heap := heap}
  | .error fault heap => .error (.heap fault) {m with heap := heap}

/-- What the heap knows, without a change to it. -/
def ask {α : Type} (x : Heap → Except HeapFault α) : Exec α := do
  match x (← get).heap with
  | .ok a => return a
  | .error fault => throw (.heap fault)

def retain (v : Value) : Exec Unit := onHeap (Heap.retainValue v)
def release (v : Value) : Exec Unit := onHeap (Heap.releaseValue v)

def push (v : Value) : Exec Unit := do
  let m ← get
  if m.stack.size < m.config.stackCapacity then
    retain v
    modify fun m => {m with stack := m.stack.push v}
  else throw (.stackOverflow m.config.stackCapacity)

def pop : Exec Unit := do
  match (← get).stack.back? with
  | none => throw .stackUnderflow
  | some v =>
    modify fun m => {m with stack := m.stack.pop}
    release v

/-- The value so many below the top. -/
def peek (distance : Nat) : Exec Value := do
  let m ← get
  if distance < m.stack.size then
    match m.stack[m.stack.size-1-distance]? with
    | some v => return v
    | none => throw .stackUnderflow
  else throw .stackUnderflow

def replaceTop (v : Value) : Exec Unit := do
  pop
  push v

/-- A new text that nothing holds yet. -/
def newText (content : String) : Exec Value := do
  return .object (← onHeap (Heap.alloc (.text content)))

/-- Room is asked for first, so that no text is left unheld. -/
def pushText (content : String) : Exec Unit := do
  let m ← get
  if m.stack.size < m.config.stackCapacity then push (← newText content)
  else throw (.stackOverflow m.config.stackCapacity)

/-- Pops values until so many are left; `count` bounds the pops. -/
def popTo (base : Nat) : (count : Nat) → Exec Unit
  | 0 => return
  | count+1 => do
    if base < (← get).stack.size then
      pop
      popTo base count
    else return

/-- Replaces all cells from `base` up by one. The value is held meanwhile. -/
def collapse (base : Nat) (v : Value) : Exec Unit := do
  retain v
  popTo base (← get).stack.size
  push v
  release v

def isTruthy (v : Value) : Exec Bool := ask (·.isTruthy v)
def display (v : Value) : Exec String := ask (·.display v)
def kind (v : Value) : Exec String := ask (·.kind v)
def object (v : Value) : Exec (Option Object) := ask (·.object v)
def describe (v : Value) : Exec String := return (← get).heap.describe v

def text? (v : Value) : Exec (Option String) := do
  match ← object v with
  | some (.text content) => return some content
  | _ => return none

def global (name : String) : Exec Value := do
  match (← get).globals.get? name with
  | some v => return v
  | none => throw (.undefined name)

def defineGlobal (name : String) (v : Value) : Exec Unit := do
  let m ← get
  match m.globals.get? name with
  | some old => throw (if m.heap.isNative old then .reserved name else .redeclared name)
  | none =>
    retain v
    modify fun m => {m with globals := m.globals.define name v}

/-- The value of a global that may be assigned to. -/
def assignable (name : String) : Exec Value := do
  let v ← global name
  let m ← get
  if m.heap.isRunnable v || m.heap.isNative v then throw (.assignRunnable name) else return v

def storeGlobal (name : String) (v : Value) : Exec Unit := do
  retain v
  match (← get).globals.get? name with
  | some old =>
    modify fun m => {m with globals := m.globals.set name v}
    release old
  | none => modify fun m => {m with globals := m.globals.define name v}

def frame : Exec Frame := do
  match (← get).frames with
  | f :: _ => return f
  | [] => throw .noFrame

def setIp (ip : Nat) : Exec Unit :=
  modify fun m =>
    match m.frames with
    | f :: rest => {m with frames := {f with ip := ip} :: rest}
    | [] => m

/-- The cell of a local slot. -/
def cell (slot : UInt8) : Exec Nat := do
  let index := (← frame).base+slot.toNat+1
  if index < (← get).stack.size then return index else throw (.localOutOfRange slot)

def loadLocal (slot : UInt8) : Exec Value := do
  let index ← cell slot
  match (← get).stack[index]? with
  | some v => return v
  | none => throw (.localOutOfRange slot)

def storeLocal (slot : UInt8) (v : Value) : Exec Unit := do
  let index ← cell slot
  let old ← loadLocal slot
  retain v
  modify fun m => {m with stack := m.stack.setIfInBounds index v}
  release old

/-- Reads the byte at the instruction pointer and moves on. -/
def readByte (code : Array UInt8) : Exec UInt8 := do
  let f ← frame
  match code[f.ip]? with
  | some b =>
    setIp (f.ip+1)
    return b
  | none => throw .truncated

def readWord (code : Array UInt8) : Exec UInt16 := do
  let high ← readByte code
  let low ← readByte code
  return Word.ofBytes high low

def constant (function : Nat) (index : UInt8) : Exec Value := do
  match (← get).pools[function]?.bind (·[index.toNat]?) with
  | some v => return v
  | none => throw (.constantOutOfRange index)

def writeLine (text : String) : Exec Unit := do
  let ok ← modifyGet fun m =>
    let (sink, ok) := m.world.output.write (text++"\n")
    (ok, {m with world := {m.world with output := sink}})
  unless ok do throw .output

def isLineEnd (c : Char) : Bool := c == '\n' || c == '\r'

/-- The next line of input without its end; empty when there is no more. A line that is no text is
passed over. -/
def readLine : Exec String := do
  let line ← modifyGet fun m =>
    let (line, rest) := Input.splitLine m.world.input
    (line, {m with world := {m.world with input := rest}})
  match textOfBytes? line with
  | some text => return String.ofList (Text.trimEnd isLineEnd text.toList)
  | none => throw .input

end Exec
end RatScript
