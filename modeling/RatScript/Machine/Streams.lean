import RatScript.Machine.Files

/-!
Streams of bytes to and from a running script.
-/

namespace RatScript

/-- Bytes written, and how many are accepted in all. -/
structure Sink where
  bytes : ByteArray
  limit : Option Nat

namespace Sink

def empty : Sink := ⟨.empty, none⟩
def limited (limit : Option Nat) : Sink := ⟨.empty, limit⟩

/-- What a sink says when it takes no more. -/
def refusal : String := "output limit reached"

/-- Takes the text as far as there is room and tells whether all of it went in. -/
def write (sink : Sink) (text : String) : Sink × Bool :=
  let ⟨bytes, limit⟩ := sink
  let more := text.toUTF8
  match limit with
  | none => (⟨bytes++more, none⟩, true)
  | some limit =>
    let room := limit-bytes.size
    if more.size ≤ room then (⟨bytes++more, some limit⟩, true)
    else (⟨bytes++more.extract 0 room, some limit⟩, false)

def put (sink : Sink) (text : String) : Sink := (sink.write text).1

end Sink

namespace Input

/-- The first line with its end, and the bytes behind it. -/
def splitLine (bytes : List UInt8) : List UInt8 × List UInt8 :=
  let line := bytes.takeWhile (· != 10)
  match bytes.dropWhile (· != 10) with
  | [] => (line, [])
  | end_ :: rest => (line++[end_], rest)

end Input

/-- What a script sees of the world around it. -/
structure World where
  input : List UInt8
  output : Sink
  diagnostics : Sink
  files : Files

end RatScript
