/-!
Files a script can reach, by path.
-/

namespace RatScript

inductive FileError where
  | notFound
  | isDirectory
  | notDirectory
  | nameTooLong
  | nulInName
  | notText
  deriving DecidableEq

def FileError.message : FileError → String
  | notFound => "No such file or directory (os error 2)"
  | isDirectory => "Is a directory (os error 21)"
  | notDirectory => "Not a directory (os error 20)"
  | nameTooLong => "File name too long (os error 36)"
  | nulInName => "file name contained an unexpected NUL byte"
  | notText => "stream did not contain valid UTF-8"

inductive Node where
  | file (bytes : List UInt8)
  | directory
  deriving DecidableEq, Inhabited

/-- Files and directories by the names on the way to them. What lies on the way is a directory. -/
structure Files where
  nodes : List (List String × Node)
  deriving DecidableEq, Inhabited

/-- The text of bytes in UTF-8. -/
def textOfBytes? (bytes : List UInt8) : Option String := String.fromUTF8? ⟨bytes.toArray⟩

namespace Files

def empty : Files := ⟨[]⟩

/-- Names on the way along a path. An absolute path starts at `/`. -/
def names (path : String) : List String :=
  let names := (path.splitOn "/").filter (· != "")
  if path.toList.head? = some '/' then "/" :: names else names

/-- Where a name leads from a place. Above the working directory places start with `..`. -/
def enter (place : List String) (name : String) : List String :=
  if name = "." then place
  else if name = ".." then
    if place.all (· == "..") then place++[".."]
    else if place = ["/"] then place
    else place.dropLast
  else place++[name]

/-- What is at a place. The root and the working directory with all above it are always there. -/
def node? (files : Files) (place : List String) : Option Node :=
  if place.all (· == "..") || place = ["/"] then some .directory
  else
    match files.nodes.lookup place with
    | some node => some node
    | none =>
      if files.nodes.any fun (p, _) => place.isPrefixOf p then some .directory else none

def put (files : Files) (place : List String) (node : Node) : Files :=
  ⟨(place, node) :: files.nodes.filter (·.1 != place)⟩

/-- A place that leads on: a directory that is there. -/
def directory (files : Files) (place : List String) : Except FileError (List String) :=
  match files.node? place with
  | none => .error .notFound
  | some (.file _) => .error .notDirectory
  | some .directory => .ok place

/-- Where a walk along names ends. -/
def walk (files : Files) (place : List String) : List String → Except FileError (List String)
  | [] => .ok place
  | name :: rest => do
    let place ← files.directory place
    if 255 < name.utf8ByteSize then .error .nameTooLong else files.walk (enter place name) rest

/-- The names of a path that can be a path at all. -/
def checkedNames (path : String) : Except FileError (List String) :=
  if path.toList.contains '\x00' then .error .nulInName
  else if 4096 ≤ path.utf8ByteSize then .error .nameTooLong
  else if path = "" then .error .notFound
  else .ok (names path)

/-- The place a path leads to, whether something is there or not. -/
def resolve (files : Files) (path : String) : Except FileError (List String) := do
  files.walk [] (← checkedNames path)

/-- The directory in which the last name of a path is looked up. -/
def parent (files : Files) (path : String) : Except FileError (List String) := do
  files.directory (← files.walk [] (← checkedNames path).dropLast)

def endsInSlash (path : String) : Bool := path.toList.getLast? == some '/'

/-- The bytes of a file. A path that ends in a slash leads to directories only. -/
def read (files : Files) (path : String) : Except FileError (List UInt8) := do
  match files.node? (← files.resolve path) with
  | none => .error .notFound
  | some .directory => .error .isDirectory
  | some (.file bytes) => if endsInSlash path then .error .notDirectory else .ok bytes

def readText (files : Files) (path : String) : Except FileError String := do
  match textOfBytes? (← files.read path) with
  | some text => .ok text
  | none => .error .notText

/-- Changes the bytes of a file, which is made if it is not there. A path that ends in a slash is
refused before its last name is looked at. -/
def update (files : Files) (path : String) (f : List UInt8 → List UInt8) :
    Except FileError Files := do
  if endsInSlash path then
    let _ ← files.parent path
    .error .isDirectory
  else
    let place ← files.resolve path
    match files.node? place with
    | none => .ok (files.put place (.file (f [])))
    | some .directory => .error .isDirectory
    | some (.file bytes) => .ok (files.put place (.file (f bytes)))

def append (files : Files) (path : String) (bytes : List UInt8) : Except FileError Files :=
  files.update path (·++bytes)

def write (files : Files) (path : String) (bytes : List UInt8) : Except FileError Files :=
  files.update path fun _ => bytes

/-- Removes what is in a file that is there. -/
def truncate (files : Files) (path : String) : Except FileError Files := do
  let _ ← files.read path
  files.write path []

/-- Whether a place is under the working directory. -/
def isInside (place : List String) : Bool :=
  match place.head? with
  | some name => name != ".." && name != "/"
  | none => true

/-- Regular files under the working directory, by path. -/
def regular (files : Files) : List (String × List UInt8) :=
  files.nodes.filterMap fun
    | (place, .file bytes) =>
      if isInside place then some ("/".intercalate place, bytes) else none
    | (_, .directory) => none

end Files
end RatScript
