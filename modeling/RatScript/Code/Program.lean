import RatScript.Code.Instruction

/-!
Programs: the script, first, and the runnables declared in it.
-/

namespace RatScript

structure Function where
  name : String
  arity : Nat
  /-- Names of locals in the order of their declarations, parameters first. -/
  locals : Array String
  chunk : Chunk
  /-- The function it is declared in; only the script has none. -/
  enclosing : Option Nat
  lineCount : UInt16
  deriving DecidableEq, Inhabited

namespace Function

def new (name : String) (enclosing : Option Nat) (arity : Nat) : Function :=
  ⟨name, arity, #[], .empty, enclosing, 0⟩

def isScript (f : Function) : Bool := f.enclosing.isNone

/-- The text constant at an index. -/
def identifier? (f : Function) (index : UInt8) : Option String :=
  match f.chunk.constant? index with
  | some (.text name) => some name
  | _ => none

end Function

structure Program where
  functions : Array Function
  deriving DecidableEq, Inhabited

namespace Program

def function? (p : Program) (id : Nat) : Option Function := p.functions[id]?

/-- Source line on which a function begins. Lines inside a runnable count from its declaration. -/
def startLine (p : Program) (id : Nat) : Nat :=
  match p.function? id with
  | none => 1
  | some f =>
    match f.enclosing with
    | none => 1
    | some parent =>
      if parent < id then
        match p.function? parent with
        | none => 1
        | some outer => p.startLine parent+(outer.chunk.runnableLine? id).getD 1-1
      else 1

/-- Source line of the instruction at an offset of a function. -/
def sourceLine (p : Program) (id offset : Nat) : Nat :=
  let line := match p.function? id with
    | some f => f.chunk.lineAt offset
    | none => 1
  p.startLine id+line-1

/-- The runnable a name is charged to when it is called: the first declared one. -/
def runnable? (p : Program) (name : String) : Option Function :=
  (p.functions.toList.drop 1).find? (·.name == name)

end Program
end RatScript
