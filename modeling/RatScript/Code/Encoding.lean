import RatScript.Code.Heights

/-!
Programs as bytes: a mark, a version, then the functions with all counts and numbers in groups of
seven bits. Reading gives back the bytes behind what was read.
-/

namespace RatScript

/-- What is wrong with the bytes of a program. -/
inductive Malformation where
  | endOfBytes
  | varint
  | option
  | text
  | variant
  deriving DecidableEq

def Malformation.message : Malformation → String
  | endOfBytes => "Hit the end of buffer, expected more data"
  | varint => "Found a varint that didn't terminate. Is the usize too big for this platform?"
  | option => "Found an Option discriminant that wasn't 0 or 1"
  | text => "Tried to parse invalid utf-8"
  | variant => "Serde Deserialization Error"

namespace Encoding

/-- Groups of seven bits, low ones first, each but the last marked by the high bit. -/
def varint (n : Nat) : List UInt8 :=
  if n < 128 then [UInt8.ofNat n] else UInt8.ofNat (n%128+128) :: varint (n/128)
termination_by n
decreasing_by omega

def text (s : String) : List UInt8 :=
  let bytes := s.toUTF8.toList
  varint bytes.length++bytes

/-- Four bytes, low one first. -/
def word32 (w : UInt32) : List UInt8 :=
  [UInt8.ofNat (w.toNat%256), UInt8.ofNat (w.toNat/256%256),
    UInt8.ofNat (w.toNat/65536%256), UInt8.ofNat (w.toNat/16777216)]

def constant : Constant → List UInt8
  | .number value => varint 0++word32 value.bits
  | .text content => varint 1++text content
  | .runnable function => varint 2++varint function

def sequence {α : Type} (item : α → List UInt8) (items : List α) : List UInt8 :=
  varint items.length++items.flatMap item

def optional : Option Nat → List UInt8
  | none => [0]
  | some n => 1 :: varint n

def function (f : Function) : List UInt8 :=
  text f.name++varint f.arity++sequence text f.locals.toList++
    sequence (fun b => [b]) f.chunk.code.toList++sequence constant f.chunk.constants.toList++
    optional f.enclosing++varint f.lineCount.toNat

def program (p : Program) : List UInt8 := sequence function p.functions.toList

end Encoding

/-- Reads a value off the front of the bytes. -/
abbrev Decoder (α : Type) := StateT (List UInt8) (Except Malformation) α

namespace Decoder

def byte : Decoder UInt8 := fun
  | [] => .error .endOfBytes
  | b :: rest => .ok (b, rest)

/-- At most `groups` groups, the last possible one no larger than `top`. -/
def varint (top : Nat) : Nat → Decoder Nat
  | 0 => throw .varint
  | groups+1 => do
    let b ← byte
    if b.toNat < 128 then
      if groups = 0 ∧ top < b.toNat then throw .varint else pure b.toNat
    else return b.toNat-128+128*(← varint top groups)

/-- Numbers below 2^64, 2^32 and 2^16. -/
def long : Decoder Nat := varint 1 10
def int : Decoder Nat := varint 15 5
def short : Decoder Nat := varint 3 3

def take (n : Nat) : Decoder (List UInt8) := fun bytes =>
  let front := bytes.take n
  if front.length = n then .ok (front, bytes.drop n) else .error .endOfBytes

def text : Decoder String := do
  let bytes ← take (← long)
  match String.fromUTF8? ⟨bytes.toArray⟩ with
  | some s => pure s
  | none => throw .text

def word32 : Decoder UInt32 := do
  match ← take 4 with
  | [a, b, c, d] =>
    pure (UInt32.ofNat (a.toNat+b.toNat*256+c.toNat*65536+d.toNat*16777216))
  | _ => throw .endOfBytes

def constant : Decoder Constant := do
  match ← int with
  | 0 => return .number ⟨← word32⟩
  | 1 => return .text (← text)
  | 2 => return .runnable (← long)
  | _ => throw .variant

/-- So many items, behind those found before. -/
def items {α : Type} (item : Decoder α) (found : Array α) : Nat → Decoder (Array α)
  | 0 => pure found
  | n+1 => do items item (found.push (← item)) n

def sequence {α : Type} (item : Decoder α) : Decoder (Array α) := do
  items item #[] (← long)

def optional : Decoder (Option Nat) := do
  match (← byte).toNat with
  | 0 => pure none
  | 1 => return some (← long)
  | _ => throw .option

def function : Decoder Function := do
  let name ← text
  let arity ← long
  let locals ← sequence text
  let code ← sequence byte
  let constants ← sequence constant
  let enclosing ← optional
  let lineCount ← short
  pure ⟨name, arity, locals, ⟨code, constants⟩, enclosing, UInt16.ofNat lineCount⟩

def program : Decoder Program := do
  pure ⟨← sequence function⟩

end Decoder

/-- Why bytes are not a sound program. -/
inductive LoadError where
  | mark
  | version (found : UInt8)
  | malformed (m : Malformation)
  | invalid (r : Rejection)
  deriving DecidableEq

namespace Program

/-- The letters every encoded program starts with. -/
def mark : List UInt8 := [0x52, 0x41, 0x54, 0x43]

def formatVersion : UInt8 := 1

def toBytes (p : Program) : List UInt8 := mark++formatVersion :: Encoding.program p

/-- The bytes behind the mark and the version. -/
def body (bytes : List UInt8) : Except LoadError (List UInt8) :=
  if mark.isPrefixOf bytes then
    match bytes.drop mark.length with
    | [] => .error .mark
    | version :: rest => if version = formatVersion then .ok rest else .error (.version version)
  else .error .mark

/-- Reads and checks a program; bytes behind it are not looked at. -/
def ofBytes (bytes : List UInt8) : Except LoadError Program := do
  let rest ← body bytes
  match Decoder.program rest with
  | .error m => .error (.malformed m)
  | .ok (p, _) =>
    match p.verify with
    | .error r => .error (.invalid r)
    | .ok () => .ok p

end Program

def LoadError.message : LoadError → String
  | mark => "not a rat bytecode file"
  | version found =>
    "unsupported bytecode format version "++toString found++" (expected "++
      toString Program.formatVersion++")"
  | malformed m => "malformed bytecode: "++m.message
  | invalid r => r.text

end RatScript
