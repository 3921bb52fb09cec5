/-!
Built-in runnables: their names and argument counts.
-/

namespace RatScript

inductive Native where
  | input
  | print
  | readFile
  | writeFile
  | emptyFile
  | toNumber
  | toBool
  | toText
  | typeOf
  deriving DecidableEq, Inhabited

namespace Native

/-- All natives, in the order of their numbers. -/
def all : List Native :=
  [input, print, readFile, writeFile, emptyFile, toNumber, toBool, toText, typeOf]

def name : Native → String
  | input => "input"
  | print => "print"
  | readFile => "ReadFromFile"
  | writeFile => "WriteToFile"
  | emptyFile => "EmptyFile"
  | toNumber => "Number"
  | toBool => "Boolean"
  | toText => "String"
  | typeOf => "Type"

def arity : Native → Nat
  | input => 0
  | writeFile => 2
  | _ => 1

def ofName? (name : String) : Option Native := all.find? (·.name == name)

/-- The place of a native among all. -/
def id (n : Native) : Nat := all.idxOf n

end Native
end RatScript
