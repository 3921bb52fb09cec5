import RatScript.Command.Plan
import RatScript.Machine.Run
import RatScript.Text.Backspace

/-!
Dialogues: scripts entered line by line and run on one machine. A line that opens a block is kept
until the block is closed.
-/

namespace RatScript

/-- What a line comes to. -/
inductive Reply where
  | nothing
  | rejected (ds : List Diagnostic)
  | run (p : Program)

namespace Dialogue

def prompt (pending : String) : String := if pending = "" then ">> " else ".. "

def isUnclosed (ds : List Diagnostic) : Bool := ds.any (·.kind == .unclosedBlock)

/-- The lines kept after one more, and what to do. -/
def enter (pending line : String) : String × Reply :=
  if pending = "" ∧ Text.trim line.toList = [] then ("", .nothing)
  else
    let entry := pending++line++"\n"
    match compile entry with
    | .ok p => ("", .run p)
    | .error ds => if isUnclosed ds then (entry, .nothing) else ("", .rejected ds)

/-- A line without its end. -/
def chomp (line : String) : String :=
  match line.toList.reverse with
  | '\n' :: '\r' :: cs => String.ofList cs.reverse
  | '\n' :: cs => String.ofList cs.reverse
  | _ => line

/-- A line as it is meant: without its end, and with what was taken back left out. -/
def heed (line : String) : String := String.ofList (Text.applyBackspaces (chomp line).toList)

/-- What is printed when a line is no text. -/
def unreadable : String :=
  Plan.failure (FileError.notText.message++": "++FileError.notText.message)

end Dialogue
end RatScript
