import RatScript.Command.Dialogue

/-!
Commands as functions of their arguments and the world they find.
-/

namespace RatScript

namespace World

def print (w : World) (text : String) : World := {w with output := w.output.put text}
def report (w : World) (text : String) : World := {w with diagnostics := w.diagnostics.put text}

end World

namespace Machine

def print (m : Machine) (text : String) : Machine := {m with world := m.world.print text}
def report (m : Machine) (text : String) : Machine := {m with world := m.world.report text}

/-- Runs a program and reports its failure, if it fails; gives the exit code. -/
def runAndReport (p : Program) (turns : Nat) (m : Machine) : Nat × Machine :=
  match m.interpret p turns with
  | (.failed f, m) => (f.fault.kind.code, m.report (f.text++"\n"))
  | (_, m) => (0, m)

end Machine

namespace Command

/-- Name and version, as the command gives them. -/
def version : String := "rat 0.1.0\n"

/-- The exit code for arguments that make no sense. -/
def usageCode : Nat := 2

def carryOut (o : Options) (turns : Nat) (w : World) : Plan → Nat × World
  | .leave code output diagnostics => (code, (w.print output).report diagnostics)
  | .emit path bytes =>
    match w.files.write path bytes with
    | .ok files => (0, {w with files := files})
    | .error e => (Plan.failureCode, w.report (Plan.failure (Plan.writeFailure path e)))
  | .run listing p =>
    let (code, m) := (Machine.new o.config (w.print listing)).runAndReport p turns
    (code, m.world)

/-- Splits bytes behind each line end; the last line may lack one. -/
def splitLines (line : List UInt8) : List UInt8 → List (List UInt8)
  | [] => if line.isEmpty then [] else [line.reverse]
  | b :: rest =>
    if b = 10 then (b :: line).reverse :: splitLines [] rest else splitLines (b :: line) rest

/-- A dialogue over the lines of the input; each is prompted for, and so is the end. -/
def converse (listing : Bool) (turns : Nat) (m : Machine) (pending : String) :
    List (List UInt8) → Nat × Machine
  | [] => (0, m.print (Dialogue.prompt pending))
  | line :: rest =>
    let m := m.print (Dialogue.prompt pending)
    match textOfBytes? line with
    | none => (Plan.failureCode, m.report Dialogue.unreadable)
    | some line =>
      match Dialogue.enter pending (Dialogue.heed line) with
      | (pending, .nothing) => converse listing turns m pending rest
      | (pending, .rejected ds) =>
        converse listing turns (m.report (Diagnostic.report ds++"\n")) pending rest
      | (pending, .run p) =>
        let m := if listing then m.print p.listing else m
        converse listing turns (m.runAndReport p turns).2 pending rest

/-- Exit code of a command and the world it leaves; a program runs for at most so many turns. -/
def run (args : List String) (turns : Nat) (w : World) : Nat × World :=
  match Options.parse args with
  | none => (usageCode, w)
  | some o =>
    if o.version then (0, w.print version)
    else
      match o.file with
      | some path => carryOut o turns w (.ofFile o path w.files)
      | none =>
        let lines := splitLines [] w.input
        let (code, m) := converse o.listing turns (.new o.config {w with input := []}) "" lines
        (code, m.world)

end Command
end RatScript
