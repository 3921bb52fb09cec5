import RatScript.Code.Opcode
import RatScript.Code.Word
import RatScript.Number.Reader
import RatScript.Number.Shortest
import RatScript.Text.Quoted

/-!
Chunks: a byte string of instructions and the pool of constants they refer to by one byte.
-/

namespace RatScript

/-- What a program is built with; runnables are named by their place in the program. -/
inductive Constant where
  | number (value : Number)
  | text (content : String)
  | runnable (function : Nat)
  deriving DecidableEq, Inhabited

def Constant.render : Constant → String
  | number value => value.text
  | text content => Text.quote content
  | runnable function => "<runnable #"++toString function++">"

/-- Why a constant cannot enter a pool. -/
inductive PoolFault where
  | full
  | unrepresentable (literal : String)
  deriving DecidableEq

structure Chunk where
  code : Array UInt8
  constants : Array Constant
  deriving DecidableEq, Inhabited

namespace Chunk

/-- Most constants of one chunk, as many as one byte can name. -/
def capacity : Nat := 256

def empty : Chunk := ⟨#[], #[]⟩

def append (chunk : Chunk) (bytes : List UInt8) : Chunk :=
  {chunk with code := bytes.foldl Array.push chunk.code}

def addConstant (chunk : Chunk) (constant : Constant) : Except PoolFault (Chunk × UInt8) :=
  if chunk.constants.size < capacity then
    .ok ({chunk with constants := chunk.constants.push constant},
      UInt8.ofNat chunk.constants.size)
  else .error .full

/-- Texts are kept once: a text that is there already keeps its index. -/
def addText (chunk : Chunk) (content : String) : Except PoolFault (Chunk × UInt8) :=
  match chunk.constants.findIdx? (· == .text content) with
  | some index => .ok (chunk, UInt8.ofNat index)
  | none => chunk.addConstant (.text content)

def addNumber (chunk : Chunk) (literal : String) : Except PoolFault (Chunk × UInt8) :=
  match Number.parseFinite? literal with
  | some value => chunk.addConstant (.number value)
  | none => .error (.unrepresentable literal)

def constant? (chunk : Chunk) (index : UInt8) : Option Constant :=
  chunk.constants[index.toNat]?

/-- Overwrites the two bytes at an offset. -/
def patch (chunk : Chunk) (offset : Nat) (distance : UInt16) : Chunk :=
  {chunk with
    code := (chunk.code.setIfInBounds offset (Word.high distance)).setIfInBounds (offset+1)
      (Word.low distance)}

end Chunk

def PoolFault.message : PoolFault → String
  | full => "too many constants in one chunk (limit is "++toString Chunk.capacity++")"
  | unrepresentable literal => "number literal '"++literal++"' is not representable"

end RatScript
