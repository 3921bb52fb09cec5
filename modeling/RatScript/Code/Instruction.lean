import RatScript.Code.Chunk
import RatScript.Text.Columns

/-!
Instructions decoded from code, and the source lines recovered by replaying them.
-/

namespace RatScript

inductive Operand where
  | none
  | constant (index : UInt8)
  | slot (slot : UInt8)
  | jump (distance : UInt16)
  | loop (distance : UInt16)
  | runnable (index : UInt8) (lines : UInt16)
  | native (index : UInt8) (arguments : UInt8)
  deriving DecidableEq, Inhabited

namespace Operand

def read? (code : Array UInt8) (offset : Nat) : Layout → Option Operand
  | .none => some none
  | .constant => code[offset]?.map constant
  | .slot => code[offset]?.map slot
  | .jump => (Word.read? code offset).map jump
  | .loop => (Word.read? code offset).map loop
  | .runnable => do
    let index ← code[offset]?
    let lines ← Word.read? code (offset+1)
    some (runnable index lines)
  | .native => do
    let index ← code[offset]?
    let arguments ← code[offset+1]?
    some (native index arguments)

def bytes : Operand → List UInt8
  | none => []
  | constant b | slot b => [b]
  | jump d | loop d => [Word.high d, Word.low d]
  | runnable index lines => [index, Word.high lines, Word.low lines]
  | native index arguments => [index, arguments]

end Operand

structure Instruction where
  offset : Nat
  op : Opcode
  operand : Operand
  deriving DecidableEq, Inhabited

namespace Instruction

def next (i : Instruction) : Nat := i.offset+i.op.width

/-- Where a jump or loop goes; a loop may point before the start of the code. -/
def target? (i : Instruction) : Option Nat :=
  match i.operand with
  | .jump d => some (i.next+d.toNat)
  | .loop d => if d.toNat ≤ i.next then some (i.next-d.toNat) else none
  | _ => none

/-- Source lines an instruction stands for. -/
def lines (i : Instruction) : Nat :=
  match i.op, i.operand with
  | .newline, _ => 1
  | .defineRunnable, .runnable _ lines => lines.toNat
  | _, _ => 0

end Instruction

inductive DecodeFault where
  | unknownOpcode (offset : Nat) (byte : UInt8)
  | truncated (offset : Nat) (op : Opcode)
  deriving DecidableEq

def DecodeFault.message : DecodeFault → String
  | unknownOpcode offset byte =>
    "unknown opcode 0x"++Text.hexByte byte++" at offset "++toString offset
  | truncated offset op =>
    op.mnemonic++" at offset "++toString offset++" is missing operand bytes"

namespace Instruction

/-- The instruction that starts with the byte at an offset. -/
def decode (code : Array UInt8) (offset : Nat) (byte : UInt8) : Except DecodeFault Instruction :=
  match Opcode.ofByte? byte with
  | none => .error (.unknownOpcode offset byte)
  | some op =>
    match Operand.read? code (offset+1) op.layout with
    | none => .error (.truncated offset op)
    | some operand => .ok ⟨offset, op, operand⟩

/-- Instructions from an offset on, behind those found before, up to the end or the first fault. -/
def decodeFrom (code : Array UInt8) (offset : Nat) (found : Array Instruction) :
    Array Instruction × Option DecodeFault :=
  if h : offset < code.size then
    match decode code offset code[offset] with
    | .ok i => decodeFrom code (offset+i.op.width) (found.push i)
    | .error fault => (found, some fault)
  else (found, none)
termination_by code.size-offset
decreasing_by simp only [Opcode.width]; omega

end Instruction

namespace Chunk

def decode (chunk : Chunk) : Array Instruction × Option DecodeFault :=
  Instruction.decodeFrom chunk.code 0 #[]

def instructions (chunk : Chunk) : List Instruction := chunk.decode.1.toList

/-- Line, from one within the chunk, of the instruction at an offset. -/
def lineAt (chunk : Chunk) (offset : Nat) : Nat :=
  (chunk.instructions.filter (·.offset < offset)).foldl (fun line i => line+i.lines) 1

/-- Line of the first instruction that defines a runnable, counting from `line`. -/
def definitionLine? (chunk : Chunk) (function : Nat) (line : Nat) : List Instruction → Option Nat
  | [] => none
  | i :: rest =>
    match i.operand with
    | .runnable index _ =>
      if chunk.constant? index = some (.runnable function) then some line
      else chunk.definitionLine? function (line+i.lines) rest
    | _ => chunk.definitionLine? function (line+i.lines) rest

/-- Line, from one within the chunk, on which a runnable is declared. -/
def runnableLine? (chunk : Chunk) (function : Nat) : Option Nat :=
  chunk.definitionLine? function 1 chunk.instructions

end Chunk
end RatScript
