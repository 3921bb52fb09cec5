import RatScript.Machine.Basic

/-!
Command lines.
-/

namespace RatScript

structure Options where
  file : Option String := none
  tokens : Bool := false
  noColor : Bool := false
  spelled : Bool := false
  listing : Bool := false
  trace : Bool := false
  emit : Option String := none
  stack : Nat := 1024
  version : Bool := false

namespace Options

def digits? (text : String) : Option Nat :=
  let cs := match text.toList with
    | '+' :: cs => cs
    | cs => cs
  if cs.isEmpty || !cs.all Char.isDigit then none else some (Number.digitsValue cs)

/-- The rest of an argument behind what it has to start with. -/
def behind? (start arg : String) : Option String :=
  if start.toList.isPrefixOf arg.toList then
    some (String.ofList (arg.toList.drop start.length))
  else none

def withFile (o : Options) (path : String) : Option Options :=
  if o.file.isSome then none else some {o with file := some path}

def withStack (o : Options) (text : String) : Option Options :=
  (digits? text).map fun n => {o with stack := n}

/-- An argument that stands for itself. -/
def single? (o : Options) (arg : String) : Option Options :=
  match arg with
  | "--tokens" => some {o with tokens := true}
  | "--no-color" => some {o with noColor := true}
  | "--pretty" => some {o with spelled := true}
  | "--disasm" => some {o with listing := true}
  | "--trace" => some {o with trace := true}
  | "--version" | "-V" => some {o with version := true}
  | _ =>
    match behind? "--emit=" arg, behind? "--stack=" arg with
    | some path, _ => some {o with emit := some path}
    | none, some n => o.withStack n
    | none, none =>
      if (behind? "-" arg).isSome && arg != "-" then none else o.withFile arg

/-- Reads arguments one after another; behind `--` only a file can come. -/
def parseFrom (o : Options) : List String → Option Options
  | [] => some o
  | "--" :: rest => rest.foldlM withFile o
  | "--emit" :: path :: rest => parseFrom {o with emit := some path} rest
  | "--stack" :: n :: rest => do parseFrom (← o.withStack n) rest
  | arg :: rest => do parseFrom (← o.single? arg) rest

def parse (args : List String) : Option Options := parseFrom {} args

def config (o : Options) : Config := {stackCapacity := o.stack, trace := o.trace}

end Options

/-- The part of a path's last name behind its last dot, if something stands before the dot. -/
def extension? (path : String) : Option String :=
  match ((path.splitOn "/").filter fun name => name != "" && name != ".").getLast? with
  | none => none
  | some name =>
    if name = ".." then none
    else
      match (name.splitOn ".").reverse with
      | ext :: before :: more =>
        if before = "" ∧ more = [] then none else some ext
      | _ => none

end RatScript
