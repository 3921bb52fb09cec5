import RatScript.Machine.Basic

/-!
What the built-in runnables do. Each takes its arguments off the stack and leaves one result.
-/

namespace RatScript.Exec

/-- The text so many below the top, for a native that needs one. -/
def textArgument (native : Native) (distance : Nat) : Exec String := do
  let v ← peek distance
  match ← text? v with
  | some content => return content
  | none => throw (.textExpected native (← kind v))

def setFiles (files : Files) : Exec Unit :=
  modify fun m => {m with world := {m.world with files := files}}

/-- The number a value stands for. -/
def toNumber (v : Value) : Exec Number := do
  match v with
  | .none => return .zero
  | .number n => return n
  | .bool b => return if b then .ofInt 1 else .zero
  | .object _ =>
    match ← object v with
    | some (.text content) =>
      match Number.parseFinite? (String.ofList (Text.trim content.toList)) with
      | some n => return n
      | none => throw (.textToNumber content)
    | some other => throw (.kindToNumber other.kind)
    | none => return .zero

def runNative (native : Native) : Exec Unit := do
  match native with
  | .input => pushText (← readLine)
  | .print =>
    writeLine (← display (← peek 0))
    replaceTop .none
  | .readFile =>
    let path ← textArgument native 0
    match (← get).world.files.readText path with
    | .error e => throw (.readFile path e)
    | .ok content =>
      pop
      pushText content
  | .writeFile =>
    let path ← textArgument native 1
    let content ← display (← peek 0)
    match (← get).world.files.append path content.toUTF8.toList with
    | .error e => throw (.openFile path e)
    | .ok files =>
      setFiles files
      pop
      pop
      push .none
  | .emptyFile =>
    let path ← textArgument native 0
    match (← get).world.files.truncate path with
    | .error e => throw (.emptyFile path e)
    | .ok files =>
      setFiles files
      replaceTop .none
  | .toNumber => replaceTop (.number (← toNumber (← peek 0)))
  | .toBool => replaceTop (.bool (← isTruthy (← peek 0)))
  | .toText =>
    let content ← display (← peek 0)
    pop
    pushText content
  | .typeOf =>
    let name ← kind (← peek 0)
    pop
    pushText name

end RatScript.Exec
