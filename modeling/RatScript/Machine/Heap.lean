import RatScript.Native

/-!
The heap: counted objects in reusable slots. A handle names a slot and the generation it was given
in, so a handle that outlives its object is told from one to the slot's next object.
-/

namespace RatScript

structure Handle where
  slot : Nat
  generation : UInt32
  deriving DecidableEq, Inhabited

inductive Object where
  | text (content : String)
  | runnable (function : Nat) (name : String)
  | native (n : Native)
  deriving DecidableEq, Inhabited

namespace Object

def kind : Object → String
  | text _ => "STRING"
  | runnable _ _ => "RUNNABLE"
  | native _ => "NATIVE"

def render : Object → String
  | text content => content
  | runnable _ name => "<Runnable '"++name++"'>"
  | native n => "<Native runnable '"++n.name++"'>"

end Object

inductive HeapFault where
  | stale (handle : Handle)
  | unheld (slot : Nat)
  deriving DecidableEq

def HeapFault.message : HeapFault → String
  | stale handle =>
    "stale object handle (slot "++toString handle.slot++", generation "++
      toString handle.generation++")"
  | unheld slot => "release of an object nobody holds (slot "++toString slot++")"

/-- Running totals. Objects that a sweep reclaims are not counted as freed. -/
structure HeapStats where
  allocations : Nat := 0
  retains : Nat := 0
  releases : Nat := 0
  frees : Nat := 0
  swept : Nat := 0
  deriving DecidableEq, Inhabited

/-- An object and how many places hold it. -/
structure Live where
  refs : Nat
  object : Object
  deriving DecidableEq, Inhabited

structure Entry where
  generation : UInt32
  live : Option Live
  deriving DecidableEq, Inhabited

/-- The entry with its object, if any, reclaimed. -/
def Entry.swept (e : Entry) : Entry :=
  if e.live.isSome then ⟨e.generation+1, none⟩ else e

structure Heap where
  entries : Array Entry
  /-- Slots to use again, the next one first. -/
  free : List Nat
  stats : HeapStats
  deriving Inhabited

/-- Steps on a heap; one that fails leaves the heap as it was. -/
abbrev HeapM := EStateM HeapFault Heap

namespace Heap

def empty : Heap := ⟨#[], [], {}⟩

def live? (h : Heap) (r : Handle) : Option Live :=
  match h.entries[r.slot]? with
  | some e => if e.generation = r.generation then e.live else none
  | none => none

def object? (h : Heap) (r : Handle) : Option Object := (h.live? r).map Live.object

def refs? (h : Heap) (r : Handle) : Option Nat := (h.live? r).map Live.refs

def get (h : Heap) (r : Handle) : Except HeapFault Object :=
  match h.object? r with
  | some object => .ok object
  | none => .error (.stale r)

def liveCount (h : Heap) : Nat := h.entries.countP (·.live.isSome)

/-- Puts an object nobody holds yet into a free slot, or a new one. -/
def alloc (object : Object) : HeapM Handle := fun ⟨entries, free, stats⟩ =>
  let stats := {stats with allocations := stats.allocations+1}
  match free with
  | slot :: free =>
    let generation := (entries.getD slot default).generation
    .ok ⟨slot, generation⟩
      ⟨entries.setIfInBounds slot ⟨generation, some ⟨0, object⟩⟩, free, stats⟩
  | [] => .ok ⟨entries.size, 0⟩ ⟨entries.push ⟨0, some ⟨0, object⟩⟩, [], stats⟩

def retain (r : Handle) : HeapM Unit := fun h =>
  match h.live? r with
  | none => .error (.stale r) h
  | some live =>
    let ⟨entries, free, stats⟩ := h
    .ok () ⟨entries.setIfInBounds r.slot ⟨r.generation, some {live with refs := live.refs+1}⟩,
      free, {stats with retains := stats.retains+1}⟩

/-- Gives up one hold; the last one frees the object and the answer is true. -/
def release (r : Handle) : HeapM Bool := fun h =>
  match h.live? r with
  | none => .error (.stale r) h
  | some live =>
    match live.refs with
    | 0 => .error (.unheld r.slot) h
    | 1 =>
      let ⟨entries, free, stats⟩ := h
      .ok true ⟨entries.setIfInBounds r.slot ⟨r.generation+1, none⟩, r.slot :: free,
        {stats with releases := stats.releases+1, frees := stats.frees+1}⟩
    | refs+1 =>
      let ⟨entries, free, stats⟩ := h
      .ok false ⟨entries.setIfInBounds r.slot ⟨r.generation, some {live with refs := refs}⟩,
        free, {stats with releases := stats.releases+1}⟩

/-- Slots, counted from `slot`, that hold an object. -/
def liveSlots (slot : Nat) : List Entry → List Nat
  | [] => []
  | e :: rest => if e.live.isSome then slot :: liveSlots (slot+1) rest else liveSlots (slot+1) rest

/-- Reclaims every object left; the slots of later ones are used again first. -/
def sweep : HeapM Nat := fun ⟨entries, free, stats⟩ =>
  let slots := liveSlots 0 entries.toList
  .ok slots.length ⟨entries.map Entry.swept, slots.reverse++free,
    {stats with swept := stats.swept+slots.length}⟩

end Heap
end RatScript
