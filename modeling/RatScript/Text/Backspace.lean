import RatScript.Text.Cluster

/-!
Texts typed with corrections: a backspace takes back the cluster before it.
-/

namespace RatScript.Text

/-- A text being typed, last character first, and for each cluster that can be taken back, last
first, how many bytes go with it. Counts have one byte, so of a cluster that overflows it only the
remainder goes. -/
structure Typed where
  text : List Char
  counts : List UInt8

namespace Typed

def empty : Typed := ⟨[], []⟩

/-- Drops the characters that lie within the first bytes. -/
def dropBytes (n : Nat) : List Char → List Char
  | [] => []
  | c :: rest => if c.utf8Size ≤ n then dropBytes (n-c.utf8Size) rest else c :: rest

def byteCount (cluster : List Char) : UInt8 := .ofNat (String.ofList cluster).utf8ByteSize

/-- A backspace with nothing to take back does nothing. -/
def press (t : Typed) (cluster : List Char) : Typed :=
  if cluster = ['\x08'] then
    match t.counts with
    | [] => t
    | n :: counts => ⟨dropBytes n.toNat t.text, counts⟩
  else ⟨cluster.reverse++t.text, byteCount cluster :: t.counts⟩

theorem text_foldl_press (t : Typed) (keys : List (List Char)) (h : ['\x08'] ∉ keys) :
    (keys.foldl press t).text = keys.flatten.reverse++t.text := by
  induction keys generalizing t with
  | nil => rfl
  | cons k keys ih =>
    simp only [List.mem_cons, not_or] at h
    simp [ih _ h.2, press, Ne.symm h.1]

end Typed

/-- The text that is left when its backspaces have been heeded. -/
def applyBackspaces (text : List Char) : List Char :=
  ((clusters text).foldl Typed.press .empty).text.reverse

/-- A text without backspaces stays as it is. -/
theorem applyBackspaces_eq_self {text : List Char} (h : '\x08' ∉ text) :
    applyBackspaces text = text := by
  have hk : ['\x08'] ∉ clusters text := by
    intro hm
    apply h
    rw [← flatten_clusters text]
    exact List.mem_flatten.mpr ⟨_, hm, by simp⟩
  simp [applyBackspaces, Typed.text_foldl_press _ _ hk, flatten_clusters, Typed.empty]

end RatScript.Text
