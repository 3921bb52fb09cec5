import RatScript.Code.Encoding
import RatScript.Code.Listing
import RatScript.Command.Options
import RatScript.Compile.Statement
import RatScript.Token.Listing

/-!
What a command with a file comes to, once the file is read.
-/

namespace RatScript

inductive Plan where
  /-- Nothing is left but to print and leave. -/
  | leave (code : Nat) (output diagnostics : String)
  | emit (path : String) (bytes : List UInt8)
  /-- Print a listing, then run. -/
  | run (listing : String) (p : Program)

namespace Plan

/-- The exit code of a command that could not do its work. -/
def failureCode : Nat := 1

def failure (text : String) : String := "Error: "++text++"\n"

def refuse (text : String) : Plan := leave failureCode "" (failure text)

def readFailure (path : String) (e : FileError) : String :=
  "failed to read '"++path++"': "++e.message

def writeFailure (path : String) (e : FileError) : String :=
  "failed to write '"++path++"': "++e.message

/-- A malformation is told once as the failure and once as its cause. -/
def loadFailure (path : String) (e : LoadError) : String :=
  "failed to load '"++path++"': "++e.message++
    match e with
    | .malformed m => ": "++m.message
    | _ => ""

def rejected (ds : List Diagnostic) : Plan :=
  leave (Diagnostic.exitCode ds) "" (Diagnostic.report ds++"\n")

def ofProgram (o : Options) (p : Program) : Plan :=
  match o.emit with
  | some path => emit path p.toBytes
  | none => run (if o.listing then p.listing else "") p

def ofSource (o : Options) (source : String) : Plan :=
  if o.tokens then
    match scan source with
    | .ok tokens => leave 0 (ListingStyle.render ⟨!o.noColor, o.spelled⟩ tokens) ""
    | .error e => rejected [.ofScanError e]
  else
    match compile source with
    | .ok p => ofProgram o p
    | .error ds => rejected ds

def ofFile (o : Options) (path : String) (files : Files) : Plan :=
  match extension? path with
  | some "rat" =>
    match files.readText path with
    | .ok source => ofSource o source
    | .error e => refuse (readFailure path e)
  | some "ratc" =>
    if o.tokens then refuse "--tokens needs a .rat source file"
    else
      match files.read path with
      | .error e => refuse (readFailure path e)
      | .ok bytes =>
        match Program.ofBytes bytes with
        | .ok p => ofProgram o p
        | .error e => refuse (loadFailure path e)
  | _ => refuse ("expected a .rat or .ratc file, got "++path)

end Plan
end RatScript
