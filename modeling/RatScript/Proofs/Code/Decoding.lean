import RatScript.Proofs.Code.Directive

/-!
Decoding loses nothing: what it finds from an offset on are directives, and the code there is what
they are written as. Directives written behind them are found behind them.
-/

namespace RatScript

theorem Opcode.toByte_of_ofByte? {b : UInt8} {op : Opcode} (h : ofByte? b = some op) :
    op.toByte = b := by
  have htable : ∀ i : Fin table.size, table[i.val].toByte = UInt8.ofNat i := by decide
  obtain ⟨hlt, rfl⟩ := Array.getElem?_eq_some_iff.mp h
  rw [htable ⟨b.toNat, hlt⟩, UInt8.ofNat_toNat]

theorem Word.high_ofBytes (x y : UInt8) : high (ofBytes x y) = x := by
  have hx := x.toNat_lt
  have hy := y.toNat_lt
  apply UInt8.toNat_inj.mp
  simp only [high, ofBytes, UInt16.toNat_ofNat', UInt8.toNat_ofNat']
  omega

theorem Word.low_ofBytes (x y : UInt8) : low (ofBytes x y) = y := by
  have hx := x.toNat_lt
  have hy := y.toNat_lt
  apply UInt8.toNat_inj.mp
  simp only [low, ofBytes, UInt16.toNat_ofNat', UInt8.toNat_ofNat']
  omega

theorem Word.holds_of_read? {code : Array UInt8} {offset : Nat} {w : UInt16}
    (h : Word.read? code offset = some w) : Holds code offset [Word.high w, Word.low w] := by
  simp only [Word.read?, bind, Option.bind_eq_some_iff, Option.some.injEq] at h
  obtain ⟨x, hx, y, hy, rfl⟩ := h
  rw [high_ofBytes, low_ofBytes, holds_cons, holds_cons]
  exact ⟨hx, hy, List.nil_prefix⟩

/-- An operand that is read is what the code holds. -/
theorem Operand.holds_of_read? {code : Array UInt8} {offset : Nat} {layout : Layout}
    {operand : Operand} (h : read? code offset layout = some operand) :
    operand.layout = layout ∧ Holds code offset operand.bytes := by
  cases layout <;> simp only [read?, bind, Option.map_eq_some_iff, Option.bind_eq_some_iff,
    Option.some.injEq] at h
  case none =>
    subst h
    exact ⟨rfl, List.nil_prefix⟩
  case constant | slot =>
    obtain ⟨b, hb, rfl⟩ := h
    exact ⟨rfl, holds_cons.mpr ⟨hb, List.nil_prefix⟩⟩
  case jump | loop =>
    obtain ⟨w, hw, rfl⟩ := h
    exact ⟨rfl, Word.holds_of_read? hw⟩
  case runnable =>
    obtain ⟨b, hb, w, hw, rfl⟩ := h
    exact ⟨rfl, holds_cons.mpr ⟨hb, Word.holds_of_read? hw⟩⟩
  case native =>
    obtain ⟨b, hb, c, hc, rfl⟩ := h
    exact ⟨rfl, holds_cons.mpr ⟨hb, holds_cons.mpr ⟨hc, List.nil_prefix⟩⟩⟩

/-- Where an instruction begins, and what it does. -/
def Instruction.beginning (i : Instruction) : Nat × Opcode := (i.offset, i.op)

namespace Directive

/-- Decoding loses nothing: what is decoded is a directive that the code holds. -/
theorem of_decode {code : Array UInt8} {offset : Nat} {i : Instruction} (hlt : offset < code.size)
    (h : Instruction.decode code offset code[offset] = .ok i) :
    ∃ d : Directive, i = d.at_ offset ∧ Holds code offset d.bytes := by
  unfold Instruction.decode at h
  split at h
  · cases h
  · next op hop =>
    split at h
    · cases h
    · next operand hoperand =>
      cases h
      obtain ⟨hlaid, hholds⟩ := Operand.holds_of_read? hoperand
      refine ⟨⟨op, operand, hlaid⟩, rfl, holds_cons.mpr ⟨?_, hholds⟩⟩
      rw [Opcode.toByte_of_ofByte? hop, Array.getElem?_eq_getElem hlt]

/-- Code that is decoded to its end is a list of directives. -/
theorem exists_of_decodeFrom {code : Array UInt8} {offset : Nat} {found : Array Instruction}
    (hle : offset ≤ code.size) (h : (Instruction.decodeFrom code offset found).2 = none) :
    ∃ ds, code.toList.drop offset = encode ds := by
  fun_induction Instruction.decodeFrom code offset found with
  | case1 offset found hlt i hi ih =>
    obtain ⟨d, rfl, more, hmore⟩ := of_decode hlt hi
    have hdrop : code.toList.drop (offset+d.width) = more := by
      rw [← List.drop_drop, ← hmore, ← length_bytes, List.drop_left]
    have hfits : offset+(d.at_ offset).op.width ≤ code.size := by
      have hlen := congrArg List.length hmore
      have hsize : code.toList.length = code.size := Array.length_toList
      have hwidth : (d.at_ offset).op.width = d.width := rfl
      rw [List.length_append, length_bytes, List.length_drop, hsize] at hlen
      omega
    obtain ⟨ds, hds⟩ := ih hfits h
    exact ⟨d :: ds, by rw [← hmore, ← hdrop, encode_cons]; exact congrArg _ hds⟩
  | case2 offset found hlt fault hfault => cases h
  | case3 offset found hge =>
    exact ⟨[], List.drop_eq_nil_of_le (by rw [Array.length_toList]; omega)⟩

theorem mem_place (offset : Nat) (before : List Directive) (d : Directive)
    (after : List Directive) :
    d.at_ (offset+size before) ∈ place offset (before++d :: after) := by
  rw [place_append]
  exact List.mem_append_right _ List.mem_cons_self

theorem eq_of_mem_place {offset : Nat} {ds : List Directive} {i j : Instruction}
    (hi : i ∈ place offset ds) (hj : j ∈ place offset ds) (h : i.offset = j.offset) : i = j :=
  List.inj_on_of_nodup_map (place_offsets_nodup offset ds) hi hj h

end Directive

namespace Chunk

def instructionsFrom (chunk : Chunk) (origin : Nat) : List Instruction :=
  (Instruction.decodeFrom chunk.code origin #[]).1.toList

/-- From an offset on the code is whole instructions. -/
def WholeFrom (chunk : Chunk) (origin : Nat) : Prop :=
  origin ≤ chunk.code.size ∧ (Instruction.decodeFrom chunk.code origin #[]).2 = none

/-- Where the instructions begin, and what they do. -/
def outline (chunk : Chunk) (origin : Nat) : List (Nat × Opcode) :=
  (chunk.instructionsFrom origin).map Instruction.beginning

/-- Among the instructions from an origin on there is one at an offset that leads to a target. -/
def Leads (chunk : Chunk) (origin offset : Nat) (op : Opcode) (target : Nat) : Prop :=
  ∃ i ∈ chunk.instructionsFrom origin, i.offset = offset ∧ i.op = op ∧ i.target? = some target

/-- Instructions written behind whole instructions are found behind them. -/
theorem WholeFrom.append {chunk chunk' : Chunk} {origin : Nat} {ds : List Directive}
    (h : chunk.WholeFrom origin)
    (hcode : chunk'.code.toList = chunk.code.toList++Directive.encode ds) :
    chunk'.WholeFrom origin ∧ chunk'.instructionsFrom origin =
      chunk.instructionsFrom origin++Directive.place chunk.code.size ds := by
  obtain ⟨hle, hfault⟩ := h
  obtain ⟨es, hes⟩ := Directive.exists_of_decodeFrom hle hfault
  have hsize : chunk.code.size = origin+Directive.size es := by
    have hlen := congrArg List.length hes
    rw [List.length_drop, Array.length_toList, Directive.length_encode] at hlen
    omega
  have hle' : origin ≤ chunk'.code.size := by
    rw [← Array.length_toList, hcode, List.length_append, Array.length_toList]
    omega
  have hdrop : chunk'.code.toList.drop origin = Directive.encode (es++ds) := by
    rw [hcode, List.drop_append_of_le_length (by rw [Array.length_toList]; exact hle), hes,
      Directive.encode_append]
  have hnew := Directive.decodeFrom_encode hle' hdrop
  refine ⟨⟨hle', by rw [hnew]⟩, ?_⟩
  rw [instructionsFrom, instructionsFrom, Directive.decodeFrom_encode hle hes, hnew,
    Directive.place_append, hsize]

end Chunk

end RatScript
