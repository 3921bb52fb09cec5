import RatScript.Machine.Heap
import RatScript.Number.Reader
import RatScript.Number.Shortest

/-!
Values of a running script. Texts and runnables live on the heap and are held by handle.
-/

namespace RatScript

inductive Value where
  | none
  | number (n : Number)
  | bool (b : Bool)
  | object (handle : Handle)
  deriving DecidableEq, Inhabited

namespace Value

def handle? : Value → Option Handle
  | object handle => some handle
  | _ => Option.none

def number? : Value → Option Number
  | number n => some n
  | _ => Option.none

def integral? : Value → Option Int32
  | number n => n.integral?
  | _ => Option.none

end Value

namespace Heap

def retainValue : Value → HeapM Unit
  | .object r => retain r
  | _ => pure ()

def releaseValue : Value → HeapM Unit
  | .object r => discard (release r)
  | _ => pure ()

def object (h : Heap) (v : Value) : Except HeapFault (Option Object) :=
  match v with
  | .object r => (h.get r).map some
  | _ => .ok none

def isTruthy (h : Heap) : Value → Except HeapFault Bool
  | .none => .ok false
  | .bool b => .ok b
  | .number n => .ok (!n.isZero)
  | .object r => do
    match ← h.get r with
    | .text content => .ok (content != "" && content != "false")
    | _ => .ok true

def display (h : Heap) : Value → Except HeapFault String
  | .none => .ok "None"
  | .number n => .ok n.text
  | .bool b => .ok (if b then "true" else "false")
  | .object r => return (← h.get r).render

def kind (h : Heap) : Value → Except HeapFault String
  | .none => .ok "NONE"
  | .number _ => .ok "NUMBER"
  | .bool _ => .ok "BOOL"
  | .object r => return (← h.get r).kind

/-- Kind and text of a value for messages. -/
def describe (h : Heap) (v : Value) : String :=
  match h.kind v, h.display v with
  | .ok kind, .ok text => if kind == "STRING" then kind++" \""++text++"\"" else kind++" "++text
  | _, _ => "a freed object"

/-- Texts are equal by content, all else on the heap by identity. -/
def equal (h : Heap) (a b : Value) : Except HeapFault Bool :=
  match a, b with
  | .none, .none => .ok true
  | .number x, .number y => .ok (x.same y)
  | .bool x, .bool y => .ok (x == y)
  | .object x, .object y => do
    match ← h.get x, ← h.get y with
    | .text s, .text t => .ok (s == t)
    | _, _ => .ok (x == y)
  | _, _ => .ok false

def isRunnable (h : Heap) (v : Value) : Bool :=
  match h.object v with
  | .ok (some (.runnable _ _)) => true
  | _ => false

def isNative (h : Heap) (v : Value) : Bool :=
  match h.object v with
  | .ok (some (.native _)) => true
  | _ => false

end Heap
end RatScript
