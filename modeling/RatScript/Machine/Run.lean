import RatScript.Machine.Step

/-!
Whole runs: a program is loaded onto a machine and stepped until it ends or fails. Globals outlive
a program, its constants and runnables do not.
-/

namespace RatScript

namespace Exec

def releaseAll : List Value → Exec Unit
  | [] => return
  | v :: rest => do
    release v
    releaseAll rest

/-- Drops globals by name. -/
def dropGlobals : List (String × Value) → Exec Unit
  | [] => return
  | (name, v) :: rest => do
    modify fun m => {m with globals := m.globals.erase name}
    release v
    dropGlobals rest

/-- Gives up all that belongs to the program before. -/
def reset : Exec Unit := do
  let stack := (← get).stack.toList
  modify fun m => {m with stack := #[]}
  releaseAll stack
  modify fun m => {m with frames := []}
  let pools := (← get).pools.toList.flatMap Array.toList
  modify fun m => {m with pools := #[]}
  releaseAll pools
  let m ← get
  dropGlobals (m.globals.bindings.filter fun (_, v) => m.heap.isRunnable v)

def bindAll : List Native → Exec Unit
  | [] => return
  | n :: rest => do
    defineGlobal n.name (.object (← onHeap (Heap.alloc (.native n))))
    bindAll rest

/-- Binds the natives, once in a machine's life. -/
def bindNatives : Exec Unit := do
  unless (← get).nativesBound do
    bindAll Native.all
    modify fun m => {m with nativesBound := true}

def newConstant (p : Program) : Constant → Exec Value
  | .number n => return .number n
  | .text content => newText content
  | .runnable id =>
    match p.function? id with
    | some f => return .object (← onHeap (Heap.alloc (.runnable id f.name)))
    | none => throw (.missingConstant id)

/-- A function's constants as values that its pool holds. -/
def newPool (p : Program) (found : Array Value) : List Constant → Exec (Array Value)
  | [] => return found
  | c :: rest => do
    let v ← newConstant p c
    retain v
    newPool p (found.push v) rest

def loadConstants (p : Program) : List Function → Exec Unit
  | [] => return
  | f :: rest => do
    let pool ← newPool p #[] f.chunk.constants.toList
    modify fun m => {m with pools := m.pools.push pool}
    loadConstants p rest

/-- Loads a program and enters its script. -/
def load (p : Program) : Exec Unit := do
  reset
  bindNatives
  loadConstants p p.functions.toList
  modify fun m => {m with frames := ⟨0, 0, 0⟩ :: m.frames}

/-- The stack as a trace shows it. -/
def stackText (heap : Heap) (text : String) : List Value → Except HeapFault String
  | [] => .ok text
  | v :: rest => do stackText heap (text++"[ "++(← heap.display v)++" ]") rest

/-- Writes the stack as it is after the instruction at an offset. -/
def trace (offset : Nat) : Exec Unit := do
  let m ← get
  let cells ← ask fun heap => stackText heap "" m.stack.toList
  let line := Text.zeroPadded 4 offset++"\t"++cells++"\n"
  let ok ← modifyGet fun m =>
    let (sink, ok) := m.world.diagnostics.write line
    (ok, {m with world := {m.world with diagnostics := sink}})
  unless ok do throw .trace

end Exec

inductive Outcome where
  | running
  | finished
  | failed (f : Failure)
  deriving DecidableEq

namespace Machine

/-- One turn of a run: the end of the script is noticed, or one instruction executed. -/
def advance (p : Program) (m : Machine) : Outcome × Machine :=
  match m.frames with
  | [] => (.failed ⟨.noFrame, 0⟩, m)
  | frame :: _ =>
    match p.function? frame.function with
    | none => (.failed ⟨.missingFunction frame.function, 0⟩, m)
    | some f =>
      if f.chunk.code.size ≤ frame.ip then
        if f.isScript then (.finished, m)
        else (.failed ⟨.pastEnd f.name, p.sourceLine frame.function frame.ip⟩, m)
      else
        match Exec.step p frame.function f m with
        | .error fault m => (.failed ⟨fault, p.sourceLine frame.function frame.ip⟩, m)
        | .ok () m =>
          if m.config.trace then
            match Exec.trace frame.ip m with
            | .error fault m => (.failed ⟨fault, 0⟩, m)
            | .ok () m => (.running, m)
          else (.running, m)

/-- At most so many turns. -/
def runFor (p : Program) : Nat → Machine → Outcome × Machine
  | 0, m => (.running, m)
  | n+1, m =>
    match m.advance p with
    | (.running, m) => runFor p n m
    | result => result

/-- Runs a program for at most so many turns. After a fault, stack and frames stay as they are. -/
def interpret (p : Program) (turns : Nat) (m : Machine) : Outcome × Machine :=
  match Exec.load p m with
  | .error fault m => (.failed ⟨fault, 0⟩, m)
  | .ok () m =>
    match m.runFor p turns with
    | (.finished, m) => (.finished, {m with frames := []})
    | result => result

/-- Gives up values one after another, whether they can be or not. -/
def releaseEach (heap : Heap) : List Value → Heap
  | [] => heap
  | v :: rest =>
    match Heap.releaseValue v heap with
    | .ok _ heap | .error _ heap => releaseEach heap rest

/-- Gives up everything the machine holds. -/
def teardown (m : Machine) : Machine :=
  let held := m.stack.toList++m.globals.bindings.map Prod.snd++m.pools.toList.flatMap Array.toList
  let heap := releaseEach m.heap held
  let heap := match Heap.sweep heap with
    | .ok _ heap | .error _ heap => heap
  {m with stack := #[], globals := .empty, pools := #[], frames := [], nativesBound := false,
          heap := heap}

end Machine
end RatScript
