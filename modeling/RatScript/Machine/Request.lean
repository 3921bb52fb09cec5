import RatScript.Machine.Step

/-!
What the next turn of a run needs from outside, so that it can be fetched before.
-/

namespace RatScript

inductive Request where
  | line
  | file (path : String)
  deriving DecidableEq

namespace Machine

/-- The native that the next turn calls. -/
def nextNative? (p : Program) (m : Machine) : Option Native := do
  let frame ← m.frames.head?
  let f ← p.function? frame.function
  let byte ← f.chunk.code[frame.ip]?
  match Instruction.decode f.chunk.code frame.ip byte with
  | .ok ⟨_, .callNative, .native index _⟩ =>
    match m.heap.object (← m.globals.get? (← f.identifier? index)) with
    | .ok (some (.native n)) => some n
    | _ => none
  | _ => none

/-- The text so many below the top. -/
def textAt? (m : Machine) (distance : Nat) : Option String := do
  match m.heap.object (← m.stack.toList.reverse[distance]?) with
  | .ok (some (.text content)) => some content
  | _ => none

def request? (p : Program) (m : Machine) : Option Request := do
  match ← m.nextNative? p with
  | .input => some .line
  | .readFile | .emptyFile => return .file (← m.textAt? 0)
  | .writeFile => return .file (← m.textAt? 1)
  | _ => none

end Machine
end RatScript
