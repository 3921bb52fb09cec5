import Mathlib
import RatScript.Machine.Natives
import RatScript.Machine.Operators
import RatScript.Token.Basic

/-!
Values by content: what a script can tell of a value, wherever it is kept. A text is what it spells;
built-in and declared runnables are told apart by identity.
-/

namespace RatScript

inductive Content where
  | none
  | number (n : Number)
  | bool (b : Bool)
  | text (content : String)
  | native (handle : Handle) (n : Native)
  | runnable (handle : Handle) (function : Nat) (name : String)
  deriving DecidableEq

namespace Content

def kind : Content → String
  | none => "NONE"
  | number _ => "NUMBER"
  | bool _ => "BOOL"
  | text _ => "STRING"
  | native _ _ => "NATIVE"
  | runnable _ _ _ => "RUNNABLE"

/-- The text that is printed. -/
def render : Content → String
  | none => "None"
  | number n => n.text
  | bool b => if b then "true" else "false"
  | text content => content
  | native _ n => "<Native runnable '"++n.name++"'>"
  | runnable _ _ name => "<Runnable '"++name++"'>"

/-- Kind and text for messages. -/
def describe : Content → String
  | text content => "STRING \""++content++"\""
  | c => c.kind++" "++c.render

def isTruthy : Content → Bool
  | none => false
  | bool b => b
  | number n => !n.isZero
  | text content => content != "" && content != "false"
  | native _ _ | runnable _ _ _ => true

def isCallable : Content → Bool
  | native _ _ | runnable _ _ _ => true
  | _ => false

def isNative : Content → Bool
  | native _ _ => true
  | _ => false

def integral? : Content → Option Int32
  | number n => n.integral?
  | _ => Option.none

def equal : Content → Content → Bool
  | none, none => true
  | number x, number y => x.same y
  | bool x, bool y => x == y
  | text s, text t => s == t
  | native r _, native s _ | runnable r _ _, runnable s _ _ => r == s
  | _, _ => false

/-! Operators. -/

def negate : Content → Except Fault Content
  | number n => .ok (.number n.neg)
  | c => .error (.negate c.describe)

def complement (c : Content) : Except Fault Content :=
  match c.integral? with
  | some n => .ok (.number (.ofInt (~~~n).toInt))
  | Option.none => .error (.complement c.describe)

/-- Operators on the bits of whole numbers; shifts are by less than all of them. -/
def bitwise (op : Operator) (x y : Int32) : Except Fault Int32 :=
  match op with
  | .bitAnd => .ok (x &&& y)
  | .bitOr => .ok (x ||| y)
  | .bitXor => .ok (x ^^^ y)
  | .shiftLeft => if 0 ≤ y ∧ y < 32 then .ok (x <<< y) else .error (.shiftAmount y)
  | .shiftRight => if 0 ≤ y ∧ y < 32 then .ok (x >>> y) else .error (.shiftAmount y)
  | _ => .ok 0

/-- Numbers are computed with, texts can be joined. -/
def apply (op : Operator) (a b : Content) : Except Fault Content :=
  match op.arithmetic? with
  | Option.none =>
    match a.integral?, b.integral? with
    | some x, some y => (bitwise op x y).map fun n => .number (.ofInt n.toInt)
    | _, _ => .error (.integralOperands op.spelling a.describe b.describe)
  | some f =>
    match a, b with
    | number x, number y => .ok (.number (f x y))
    | text s, text t =>
      if op == .add then .ok (.text (s++t))
      else .error (.operands op.spelling a.describe b.describe)
    | _, _ => .error (.operands op.spelling a.describe b.describe)

def test (t : Test) (a b : Content) : Except Fault Bool :=
  match t, a, b with
  | .equals, _, _ => .ok (a.equal b)
  | .greater, number x, number y => .ok (y.less x)
  | .less, number x, number y => .ok (x.less y)
  | .greater, _, _ => .error (.operands ">" a.describe b.describe)
  | .less, _, _ => .error (.operands "<" a.describe b.describe)

def compare (c : Comparison) (a b : Content) : Except Fault Bool :=
  match c with
  | .equal => test .equals a b
  | .less => test .less a b
  | .greater => test .greater a b
  | .notEqual => (test .equals a b).map not
  | .lessEqual => (test .greater a b).map not
  | .greaterEqual => (test .less a b).map not

def counted (up : Bool) : Content → Except Fault Content
  | number n => .ok (.number (if up then n.add (.ofInt 1) else n.sub (.ofInt 1)))
  | c => .error (.notCountable c.describe)

def toNumber : Content → Except Fault Number
  | none => .ok .zero
  | number n => .ok n
  | bool b => .ok (if b then .ofInt 1 else .zero)
  | text content =>
    match Number.parseFinite? (String.ofList (Text.trim content.toList)) with
    | some n => .ok n
    | Option.none => .error (.textToNumber content)
  | c => .error (.kindToNumber c.kind)

/-- The text that a native asks for. -/
def spelling (n : Native) : Content → Except Fault String
  | text content => .ok content
  | c => .error (.textExpected n c.kind)

/-- Passes of a `repeat`: a whole number from 1 to 2^24. -/
def passes (c : Content) : Except Fault Nat :=
  match c.integral? with
  | some n =>
    if n ≤ 0 then .error (.repeatCount c.describe)
    else if (maxRepeat : Int) < n.toInt then .error (.repeatLimit n)
    else .ok n.toInt.toNat
  | Option.none => .error (.repeatCount c.describe)

def ofObject (r : Handle) : Object → Content
  | .text content => .text content
  | .native n => .native r n
  | .runnable function name => .runnable r function name

def object? : Content → Option Object
  | text content => some (.text content)
  | native _ n => some (.native n)
  | runnable _ function name => some (.runnable function name)
  | _ => Option.none

end Content

namespace Heap

/-- The content of a value; a freed one has none. -/
def content? (h : Heap) : Value → Option Content
  | .none => some .none
  | .number n => some (.number n)
  | .bool b => some (.bool b)
  | .object r => (h.object? r).map (Content.ofObject r)

variable {h : Heap} {v w : Value} {c d : Content}

theorem get_of_object? {r : Handle} {o : Object} (ho : h.object? r = some o) : h.get r = .ok o := by
  rw [get, ho]

/-- The heap knows a value as its content. -/
theorem known_of_content? (hv : h.content? v = some c) :
    h.object v = .ok c.object? ∧ h.isTruthy v = .ok c.isTruthy ∧ h.display v = .ok c.render ∧
      h.kind v = .ok c.kind := by
  cases v with
  | none | number | bool =>
    cases hv
    exact ⟨rfl, rfl, rfl, rfl⟩
  | object r =>
    obtain ⟨o, ho, rfl⟩ := Option.map_eq_some_iff.mp hv
    have hget := get_of_object? ho
    simp only [object, isTruthy, display, kind, hget]
    cases o <;> exact ⟨rfl, rfl, rfl, rfl⟩

theorem object_of_content? (hv : h.content? v = some c) : h.object v = .ok c.object? :=
  (known_of_content? hv).1

theorem isTruthy_of_content? (hv : h.content? v = some c) : h.isTruthy v = .ok c.isTruthy :=
  (known_of_content? hv).2.1

theorem display_of_content? (hv : h.content? v = some c) : h.display v = .ok c.render :=
  (known_of_content? hv).2.2.1

theorem kind_of_content? (hv : h.content? v = some c) : h.kind v = .ok c.kind :=
  (known_of_content? hv).2.2.2

theorem describe_of_content? (hv : h.content? v = some c) : h.describe v = c.describe := by
  simp only [describe, kind_of_content? hv, display_of_content? hv]
  cases c <;> rfl

theorem integral?_of_content? (hv : h.content? v = some c) : v.integral? = c.integral? := by
  cases v with
  | none | number | bool =>
    cases hv
    rfl
  | object r =>
    obtain ⟨o, _, rfl⟩ := Option.map_eq_some_iff.mp hv
    cases o <;> rfl

theorem isRunnable_or_isNative (hv : h.content? v = some c) :
    (h.isRunnable v || h.isNative v) = c.isCallable := by
  simp only [isRunnable, isNative, object_of_content? hv]
  cases c <;> rfl

theorem isNative_of_content? (hv : h.content? v = some c) : h.isNative v = c.isNative := by
  simp only [isNative, object_of_content? hv]
  cases c <;> rfl

theorem equal_of_content? (hv : h.content? v = some c) (hw : h.content? w = some d) :
    h.equal v w = .ok (c.equal d) := by
  cases v with
  | object r =>
    obtain ⟨o, ho, rfl⟩ := Option.map_eq_some_iff.mp hv
    cases w with
    | object s =>
      obtain ⟨q, hq, rfl⟩ := Option.map_eq_some_iff.mp hw
      -- one handle has one object, so objects of two kinds have two
      have hsame (hne : o ≠ q) : (r == s) = false := by
        rw [beq_eq_false_iff_ne]
        rintro rfl
        rw [ho] at hq
        exact hne (Option.some.inj hq)
      simp only [equal, get_of_object? ho, get_of_object? hq]
      cases o <;> cases q <;> simp [Bind.bind, Except.bind, Content.ofObject, Content.equal, hsame]
    | none | number | bool =>
      cases hw
      cases o <;> rfl
  | none | number | bool =>
    cases hv
    cases w with
    | object s =>
      obtain ⟨q, _, rfl⟩ := Option.map_eq_some_iff.mp hw
      cases q <;> rfl
    | none | number | bool =>
      cases hw
      rfl

/-- A value that is a number, or holds none. -/
theorem eq_number_of_content? {n : Number} (hv : h.content? v = some (.number n)) :
    v = .number n := by
  cases v with
  | number m =>
    cases hv
    rfl
  | object r =>
    obtain ⟨o, _, ho⟩ := Option.map_eq_some_iff.mp hv
    cases o <;> cases ho
  | none | bool => cases hv

end Heap
end RatScript
