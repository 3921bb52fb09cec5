import Mathlib
import RatScript.Code.Heights

/-!
Directives: instructions without a place. A list of them is written as bytes one after another, and
decoding these bytes gives the list back, each directive at its place.
-/

namespace RatScript

def Operand.layout : Operand → Layout
  | none => .none
  | constant _ => .constant
  | slot _ => .slot
  | jump _ => .jump
  | loop _ => .loop
  | runnable _ _ => .runnable
  | native _ _ => .native

/-- An operation with an operand laid out as it needs. -/
structure Directive where
  op : Opcode
  operand : Operand
  laid : operand.layout = op.layout

namespace Directive

def width (d : Directive) : Nat := d.op.width

def bytes (d : Directive) : List UInt8 := d.op.toByte :: d.operand.bytes

def at_ (d : Directive) (offset : Nat) : Instruction := ⟨offset, d.op, d.operand⟩

theorem length_bytes (d : Directive) : d.bytes.length = d.width := by
  have hlen : d.operand.bytes.length = d.operand.layout.length := by
    cases d.operand <;> rfl
  simp only [bytes, width, Opcode.width, List.length_cons, hlen, d.laid]
  omega

theorem width_pos (d : Directive) : 0 < d.width := by
  simp only [width, Opcode.width]
  omega

@[simp] theorem next_at (d : Directive) (offset : Nat) : (d.at_ offset).next = offset+d.width := rfl

/-- Bytes that a list of directives takes. -/
def size (ds : List Directive) : Nat := (ds.map width).sum

@[simp] theorem size_nil : size [] = 0 := rfl
@[simp] theorem size_cons (d : Directive) (ds : List Directive) :
    size (d :: ds) = d.width+size ds := rfl
@[simp] theorem size_append (ds es : List Directive) : size (ds++es) = size ds+size es := by
  simp [size]

def encode (ds : List Directive) : List UInt8 := ds.flatMap bytes

@[simp] theorem encode_nil : encode [] = [] := rfl
@[simp] theorem encode_cons (d : Directive) (ds : List Directive) :
    encode (d :: ds) = d.bytes++encode ds := rfl
@[simp] theorem encode_append (ds es : List Directive) :
    encode (ds++es) = encode ds++encode es := by
  simp [encode]

theorem length_encode (ds : List Directive) : (encode ds).length = size ds := by
  induction ds with
  | nil => rfl
  | cons d ds ih => simp [length_bytes, ih]

/-- Directives as the instructions they are from an offset on. -/
def place (offset : Nat) : List Directive → List Instruction
  | [] => []
  | d :: ds => d.at_ offset :: place (offset+d.width) ds

theorem place_append (offset : Nat) (ds es : List Directive) :
    place offset (ds++es) = place offset ds++place (offset+size ds) es := by
  induction ds generalizing offset with
  | nil => rfl
  | cons d ds ih => simp [place, ih, Nat.add_assoc]

theorem place_bounds {offset : Nat} {ds : List Directive} {i : Instruction}
    (hi : i ∈ place offset ds) : offset ≤ i.offset ∧ i.next ≤ offset+size ds := by
  induction ds generalizing offset with
  | nil => simp [place] at hi
  | cons d ds ih =>
    rcases List.mem_cons.mp hi with rfl | hi
    · exact ⟨Nat.le_refl _, by simp⟩
    · have h := ih hi
      simp only [size_cons]
      omega

/-- An instruction stands behind some of the directives. -/
theorem split_of_mem_place {offset : Nat} {ds : List Directive} {i : Instruction}
    (hi : i ∈ place offset ds) :
    ∃ before d after, ds = before++d :: after ∧ i = d.at_ (offset+size before) := by
  induction ds generalizing offset with
  | nil => simp [place] at hi
  | cons d ds ih =>
    rcases List.mem_cons.mp hi with rfl | hi
    · exact ⟨[], d, ds, rfl, rfl⟩
    · obtain ⟨before, e, after, rfl, rfl⟩ := ih hi
      exact ⟨d :: before, e, after, rfl, by rw [size_cons, Nat.add_assoc]⟩

theorem exists_of_mem_place {offset : Nat} {ds : List Directive} {i : Instruction}
    (hi : i ∈ place offset ds) : ∃ d ∈ ds, d.op = i.op := by
  obtain ⟨before, d, after, rfl, rfl⟩ := split_of_mem_place hi
  exact ⟨d, by simp, rfl⟩

theorem place_offsets_nodup (offset : Nat) (ds : List Directive) :
    ((place offset ds).map Instruction.offset).Nodup := by
  induction ds generalizing offset with
  | nil => simp [place]
  | cons d ds ih =>
    simp only [place, List.map_cons, List.nodup_cons, List.mem_map]
    refine ⟨?_, ih _⟩
    rintro ⟨i, hi, he⟩
    have h := (place_bounds hi).1
    have hw := d.width_pos
    simp only [at_] at he
    omega

end Directive

/-- The code holds these bytes from an offset on. -/
def Holds (code : Array UInt8) (offset : Nat) (bytes : List UInt8) : Prop :=
  bytes <+: code.toList.drop offset

theorem holds_cons {code : Array UInt8} {offset : Nat} {b : UInt8} {bytes : List UInt8} :
    Holds code offset (b :: bytes) ↔ code[offset]? = some b ∧ Holds code (offset+1) bytes := by
  unfold Holds
  by_cases h : offset < code.toList.length
  · rw [List.drop_eq_getElem_cons h, List.cons_prefix_cons, eq_comm]
    simp [Array.getElem?_eq_getElem (by simpa using h)]
  · have hn : code[offset]? = none := by simpa using h
    rw [List.drop_eq_nil_of_le (by omega), hn]
    simp

theorem holds_append {code : Array UInt8} {offset : Nat} {bytes more : List UInt8} :
    Holds code offset (bytes++more) ↔
      Holds code offset bytes ∧ Holds code (offset+bytes.length) more := by
  induction bytes generalizing offset with
  | nil => simp [Holds]
  | cons b bytes ih =>
    simp only [List.cons_append, holds_cons, ih, List.length_cons, and_assoc]
    rw [show offset+1+bytes.length = offset+(bytes.length+1) by omega]

theorem Operand.read?_of_holds {code : Array UInt8} {offset : Nat} {operand : Operand}
    (h : Holds code offset operand.bytes) : read? code offset operand.layout = some operand := by
  cases operand <;> simp only [bytes, holds_cons] at h <;>
    simp [layout, read?, Word.read?, h, Word.ofBytes_high_low]

namespace Directive

theorem decode_of_holds {code : Array UInt8} {offset : Nat} {d : Directive}
    (h : Holds code offset d.bytes) :
    ∃ hlt : offset < code.size, Instruction.decode code offset code[offset] = .ok (d.at_ offset) := by
  obtain ⟨hb, hrest⟩ := holds_cons.mp h
  obtain ⟨hlt, hb⟩ := Array.getElem?_eq_some_iff.mp hb
  refine ⟨hlt, ?_⟩
  have hread := Operand.read?_of_holds hrest
  rw [d.laid] at hread
  simp only [Instruction.decode, hb, Opcode.ofByte?_toByte, hread]
  rfl

theorem decodeFrom_of_holds {code : Array UInt8} {offset : Nat} {ds : List Directive}
    (h : Holds code offset (encode ds)) (found : Array Instruction) :
    Instruction.decodeFrom code offset found =
      Instruction.decodeFrom code (offset+size ds) (found++(place offset ds).toArray) := by
  induction ds generalizing offset found with
  | nil => simp [place]
  | cons d ds ih =>
    rw [encode_cons, holds_append, length_bytes] at h
    obtain ⟨hlt, hd⟩ := decode_of_holds h.1
    rw [Instruction.decodeFrom, dif_pos hlt, hd]
    have hw : (d.at_ offset).op.width = d.width := rfl
    simp only [hw]
    rw [ih h.2]
    simp [place, Nat.add_assoc]

/-- Decoding undoes encoding: every directive is found at its place, and nothing is left over. -/
theorem decodeFrom_encode {code : Array UInt8} {offset : Nat} {ds : List Directive}
    (hle : offset ≤ code.size) (h : code.toList.drop offset = encode ds) :
    Instruction.decodeFrom code offset #[] = ((place offset ds).toArray, none) := by
  have hholds : Holds code offset (encode ds) := by simp [Holds, h]
  have hsize : offset+size ds = code.size := by
    rw [← length_encode, ← h, List.length_drop, Array.length_toList]
    omega
  rw [decodeFrom_of_holds hholds, Instruction.decodeFrom, dif_neg (by omega), Array.empty_append]

theorem decode_encode {chunk : Chunk} {ds : List Directive} (h : chunk.code.toList = encode ds) :
    chunk.decode = ((place 0 ds).toArray, none) :=
  decodeFrom_encode (Nat.zero_le _) h

end Directive

namespace Survey

theorem getElem?_foldl_set (is : List Instruction) (starts : Array (Option Instruction))
    (offset : Nat) (hoff : ∀ i ∈ is, i.offset ≠ offset) :
    (is.foldl (fun starts i => starts.setIfInBounds i.offset (some i)) starts)[offset]? =
      starts[offset]? := by
  induction is generalizing starts with
  | nil => rfl
  | cons i is ih =>
    simp only [List.foldl_cons]
    rw [ih _ (fun j hj => hoff j (List.mem_cons_of_mem _ hj)),
      Array.getElem?_setIfInBounds_ne (hoff i (by simp))]

theorem mem_of_foldl_set {is : List Instruction} {starts : Array (Option Instruction)} {offset : Nat}
    {i : Instruction}
    (h : (is.foldl (fun starts i => starts.setIfInBounds i.offset (some i)) starts)[offset]? =
      some (some i)) : starts[offset]? = some (some i) ∨ i ∈ is ∧ i.offset = offset := by
  induction is generalizing starts with
  | nil => exact .inl h
  | cons j is ih =>
    rcases ih h with h | ⟨hi, ho⟩
    · rw [Array.getElem?_setIfInBounds] at h
      split at h
      · next ho =>
        split at h
        · cases h
          exact .inr ⟨by simp, ho⟩
        · cases h
      · exact .inl h
    · exact .inr ⟨List.mem_cons_of_mem _ hi, ho⟩

end Survey

/-- Every instruction a survey finds is one of those it was made of, at its offset. -/
theorem Program.mem_of_start? {p : Program} {f : Function} {is : Array Instruction} {offset : Nat}
    {i : Instruction} (h : (p.survey f is).start? offset = some i) :
    i ∈ is ∧ i.offset = offset := by
  simp only [Survey.start?, survey, ← Array.foldl_toList, Option.join_eq_some_iff] at h
  rcases Survey.mem_of_foldl_set h with h | ⟨hi, ho⟩
  · rw [Array.getElem?_replicate] at h
    split at h
    · cases h
    · cases h
  · exact ⟨Array.mem_toList_iff.mp hi, ho⟩

/-- A survey finds an instruction at its offset if no other has the same. -/
theorem Program.start?_survey (p : Program) (f : Function) {is : Array Instruction}
    (hnodup : (is.toList.map Instruction.offset).Nodup) {i : Instruction} (hi : i ∈ is)
    (hlt : i.offset ≤ f.chunk.code.size) : (p.survey f is).start? i.offset = some i := by
  obtain ⟨before, after, hsplit⟩ := List.append_of_mem (Array.mem_toList_iff.mpr hi)
  have hother : ∀ j ∈ after, j.offset ≠ i.offset := by
    intro j hj he
    rw [hsplit] at hnodup
    simp only [List.map_append, List.map_cons, List.nodup_append, List.nodup_cons,
      List.mem_map] at hnodup
    exact hnodup.2.1.1 ⟨j, hj, he⟩
  have hsize (js : List Instruction) (starts : Array (Option Instruction)) :
      (js.foldl (fun starts i => starts.setIfInBounds i.offset (some i)) starts).size =
        starts.size := by
    induction js generalizing starts with
    | nil => rfl
    | cons j js ih => simp [ih]
  simp only [Survey.start?, survey, ← Array.foldl_toList, hsplit, List.foldl_append,
    List.foldl_cons]
  rw [Survey.getElem?_foldl_set _ _ _ hother, Array.getElem?_setIfInBounds_self_of_lt]
  · rfl
  · rw [hsize]
    simp
    omega

end RatScript
