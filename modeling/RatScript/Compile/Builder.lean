import RatScript.Code.Program
import RatScript.Compile.Diagnostic

/-!
The state of a compilation: tokens still to come, functions built so far, and the locals in scope.
A failing step keeps the state it has reached.
-/

namespace RatScript

/-- A local in scope. The counter of a `repeat` block is a local without a name. -/
structure Local where
  name : Option String
  depth : Nat
  deriving DecidableEq

structure Builder where
  /-- The token read last. -/
  last : Located
  rest : List Located
  /-- Where the tokens end. -/
  finish : Position
  functions : Array Function
  current : Nat
  depth : Nat
  /-- Locals in scope, newest first. -/
  locals : List Local
  diagnostics : Array Diagnostic

abbrev Compile := EStateM Diagnostic Builder

namespace Builder

def peek (b : Builder) : Located :=
  match b.rest with
  | t :: _ => t
  | [] => ⟨.eof, b.finish⟩

/-- Reads one token; at the end nothing moves. -/
def advance (b : Builder) : Builder :=
  match b.rest with
  | t :: rest => {b with last := t, rest := rest}
  | [] => b

def inRunnable (b : Builder) : Bool := b.current != 0

def chunk (b : Builder) : Chunk :=
  match b.functions[b.current]? with
  | some f => f.chunk
  | none => .empty

def modifyFunction (b : Builder) (id : Nat) (f : Function → Function) : Builder :=
  {b with functions := b.functions.modify id f}

def modifyChunk (b : Builder) (f : Chunk → Chunk) : Builder :=
  b.modifyFunction b.current fun g => {g with chunk := f g.chunk}

/-- The slot of the newest local of a name: the number of locals older than it. -/
def slotIn (name : String) : List Local → Option Nat
  | [] => none
  | l :: older => if l.name = some name then some older.length else slotIn name older

def slot? (b : Builder) (name : String) : Option UInt8 :=
  if b.inRunnable then (slotIn name b.locals).map UInt8.ofNat else none

/-- The runnable declared so far under a name. -/
def runnable? (b : Builder) (name : String) : Option Function :=
  (b.functions.toList.drop 1).find? (·.name == name)

/-- Removes locals declared deeper than a depth, counting them. -/
def leave (depth : Nat) : List Local → List Local × Nat
  | [] => ([], 0)
  | l :: older =>
    if depth < l.depth then
      let (kept, n) := leave depth older
      (kept, n+1)
    else (l :: older, 0)

/-- The state at the start: the script, empty, and the tokens up to the end of file. -/
def start (tokens : List Located) : Builder :=
  let code := tokens.takeWhile (·.token != .eof)
  let finish : Position :=
    match tokens.find? (·.token == .eof) with
    | some t => t.pos
    | none =>
      match tokens.getLast? with
      | some t => t.pos
      | none => .start
  ⟨tokens.headD ⟨.eof, finish⟩, code, finish, #[.new "<script>" none 0], 0, 0, [], #[]⟩

end Builder

namespace Compile

def complain {α : Type} (t : Located) (c : Complaint) : Compile α :=
  throw ⟨c, t.pos, t.token.spelling⟩

def peek : Compile Located := return (← get).peek
def last : Compile Located := return (← get).last
def advance : Compile Unit := modify Builder.advance

def check (token : Token) : Compile Bool := return (← peek).token == token

/-- Reads the token if it comes next. -/
def accept (token : Token) : Compile Bool := do
  if ← check token then
    advance
    return true
  else return false

def consume (token : Token) (what : String) : Compile Unit := do
  unless ← accept token do complain (← peek) (.expected what)

def consumeName (what : String) : Compile String := do
  let t ← peek
  match t.token with
  | .name word =>
    advance
    return word
  | _ => complain t (.expected what)

def emitBytes (bytes : List UInt8) : Compile Unit := modify (·.modifyChunk (·.append bytes))
def emit (op : Opcode) : Compile Unit := emitBytes [op.toByte]
def emitWith (op : Opcode) (operand : UInt8) : Compile Unit := emitBytes [op.toByte, operand]

def offset : Compile Nat := return (← get).chunk.code.size

/-- Adds to the pool of the current chunk; a fault is reported at the token read last. -/
def enter (add : Chunk → Except PoolFault (Chunk × UInt8)) : Compile UInt8 := do
  let b ← get
  match add b.chunk with
  | .ok (chunk, index) =>
    set (b.modifyChunk fun _ => chunk)
    return index
  | .error fault => complain b.last (.pool fault)

def textConstant (content : String) : Compile UInt8 := enter (·.addText content)

/-- Emits a jump whose distance is still open and gives the offset of the distance. -/
def emitJump (op : Opcode) : Compile Nat := do
  emitBytes [op.toByte, 0xff, 0xff]
  return (← offset)-2

/-- Makes the jump with its distance at an offset land at the end of the code so far. -/
def patchJump (at_ : Nat) : Compile Unit := do
  match Word.ofNat? ((← offset)-(at_+2)) with
  | some distance => modify (·.modifyChunk (·.patch at_ distance))
  | none => complain (← last) .jumpTooLong

/-- Emits a loop back to an offset. -/
def emitLoop (start : Nat) : Compile Unit := do
  emit .loop
  match Word.ofNat? ((← offset)+2-start) with
  | some distance => emitBytes [Word.high distance, Word.low distance]
  | none => complain (← last) .loopTooLong

/-- Every statement ends with its line or with the tokens. -/
def endOfLine : Compile Unit := do
  if ← accept .newline then emit .newline
  else unless ← check .eof do
    complain (← peek) (.expected "end of line after statement")

def tooDeep : Compile Unit := do complain (← peek) .tooDeep

end Compile
end RatScript
