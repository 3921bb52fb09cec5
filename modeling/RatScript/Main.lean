import RatScript.Command.Run
import RatScript.Machine.Request

/-!
The command itself: files, lines and texts are moved between the outside and the machine's world.
-/

namespace RatScript.Main

/-- What is found outside at a place. -/
def lookAt (place : List String) : IO (Option Node) := do
  try return some (.file (← IO.FS.readBinFile ("/".intercalate place)).toList)
  catch
    | .inappropriateType .. => return some .directory
    | _ => return none

/-- Takes in what lies on the way along a path. -/
def fetch (path : String) : IO Files := do
  let mut files := Files.empty
  let mut place : List String := []
  for name in Files.names path do
    place := Files.enter place name
    if let some node ← lookAt place then files := files.put place node
  return files

/-- Gives back what is at a path if it has changed. -/
def settle (path : String) (before after : Files) : IO Unit := do
  match after.resolve path with
  | .error _ => return
  | .ok place =>
    match after.node? place with
    | some (.file bytes) =>
      unless before.node? place = some (.file bytes) do
        IO.FS.writeBinFile ("/".intercalate place) ⟨bytes.toArray⟩
    | _ => return

/-- The bytes of the next line of input with its end, behind those read before. -/
partial def readLine (found : ByteArray) : IO (List UInt8) := do
  let next ← (← IO.getStdin).read 1
  if next.isEmpty || next.toList == [10] then return (found++next).toList
  else readLine (found++next)

/-- Prints what the machine has written. -/
def flush (m : Machine) : IO Machine := do
  let output := m.world.output.bytes
  let diagnostics := m.world.diagnostics.bytes
  unless output.isEmpty do
    (← IO.getStdout).write output
    (← IO.getStdout).flush
  unless diagnostics.isEmpty do (← IO.getStderr).write diagnostics
  return {m with world := {m.world with output := .empty, diagnostics := .empty}}

def turn (p : Program) (m : Machine) : IO (Outcome × Machine) := do
  match m.request? p with
  | none => return m.advance p
  | some .line =>
    let line ← readLine .empty
    return {m with world := {m.world with input := line}}.advance p
  | some (.file path) =>
    let files ← fetch path
    let (outcome, m) := {m with world := {m.world with files := files}}.advance p
    settle path files m.world.files
    return (outcome, m)

partial def drive (p : Program) (m : Machine) : IO (Outcome × Machine) := do
  let (outcome, m) ← turn p m
  let m ← flush m
  match outcome with
  | .running => drive p m
  | outcome => return (outcome, m)

/-- Runs a program and gives its exit code. -/
def interpret (p : Program) (m : Machine) : IO (Nat × Machine) := do
  let (outcome, m) ← match Exec.load p m with
    | .ok () m => drive p m
    | .error fault m => pure (.failed ⟨fault, 0⟩, m)
  match outcome with
  | .failed f =>
    IO.eprintln f.text
    return (f.fault.kind.code, m)
  | _ => return (0, {m with frames := []})

def emptyWorld : World := ⟨[], .empty, .empty, .empty⟩

def carryOut (o : Options) : Plan → IO Nat
  | .leave code output diagnostics => do
    IO.print output
    IO.eprint diagnostics
    return code
  | .emit path bytes => do
    let files ← fetch path
    match files.write path bytes with
    | .ok after =>
      settle path files after
      return 0
    | .error e =>
      IO.eprint (Plan.failure (Plan.writeFailure path e))
      return Plan.failureCode
  | .run listing p => do
    IO.print listing
    return (← interpret p (.new o.config emptyWorld)).1

partial def converse (listing : Bool) (m : Machine) (pending : String) : IO Nat := do
  IO.print (Dialogue.prompt pending)
  (← IO.getStdout).flush
  let line ← readLine .empty
  if line.isEmpty then return 0
  match textOfBytes? line with
  | none =>
    IO.eprint Dialogue.unreadable
    return Plan.failureCode
  | some line =>
    match Dialogue.enter pending (Dialogue.heed line) with
    | (pending, .nothing) => converse listing m pending
    | (pending, .rejected ds) =>
      IO.eprintln (Diagnostic.report ds)
      converse listing m pending
    | (pending, .run p) =>
      if listing then IO.print p.listing
      converse listing (← interpret p m).2 pending

def run (args : List String) : IO Nat := do
  match Options.parse args with
  | none => return Command.usageCode
  | some o =>
    if o.version then
      IO.print Command.version
      return 0
    else
      match o.file with
      | some path => carryOut o (.ofFile o path (← fetch path))
      | none => converse o.listing (.new o.config emptyWorld) ""

end RatScript.Main

def main (args : List String) : IO UInt32 := return (← RatScript.Main.run args).toUInt32
