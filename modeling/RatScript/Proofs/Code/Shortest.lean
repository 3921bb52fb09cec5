import RatScript.Proofs.Code.Encoding

/-!
Encodings by what they are made of. Whatever bytes are read as a program, they are the pieces of its
encoding, where numbers may have redundant groups; so the encoding itself is the shortest of them.
-/

namespace RatScript

/-- A part of an encoding: a number in groups, or a byte that stands for itself. -/
inductive Piece where
  | number (n : Nat)
  | raw (b : UInt8)

namespace Encoding

/-- The groups of a number, with so many redundant ones behind them. -/
def padded (n extra : Nat) : List UInt8 :=
  if n < 128 then
    match extra with
    | 0 => [UInt8.ofNat n]
    | extra+1 => UInt8.ofNat (n+128) :: padded 0 extra
  else UInt8.ofNat (n%128+128) :: padded (n/128) extra
termination_by n+extra

theorem padded_zero (n : Nat) : padded n 0 = varint n := by
  induction n using Nat.strongRecOn with
  | ind n ih =>
    rw [padded, varint]
    by_cases hlow : n < 128
    · rw [if_pos hlow, if_pos hlow]
    · rw [if_neg hlow, if_neg hlow, ih (n/128) (by omega)]

theorem length_padded (n extra : Nat) : (padded n extra).length = (varint n).length+extra := by
  fun_induction padded n extra with
  | case1 n hlow => simp [varint, hlow]
  | case2 n hlow extra ih =>
    have hzero : (varint 0).length = 1 := by simp [varint]
    rw [List.length_cons, ih, hzero, varint, if_pos hlow, List.length_singleton]
    omega
  | case3 n extra hlow ih =>
    rw [varint, if_neg hlow, List.length_cons, List.length_cons, ih]
    omega

/-- A byte without the mark of a further group is a number of one group. -/
theorem padded_low {b : UInt8} (hb : b.toNat < 128) : padded b.toNat 0 = [b] := by
  rw [padded_zero, varint, if_pos hb]
  simp

/-- A byte with the mark stands in front of any spelling of the rest; of nothing but zeros, it makes
them one redundant group more. -/
theorem padded_high {b : UInt8} (hb : 128 ≤ b.toNat) (n extra : Nat) :
    ∃ more, padded (b.toNat-128+128*n) more = b :: padded n extra := by
  have hlt : b.toNat < 256 := b.toNat_lt
  by_cases hn : n = 0
  · subst hn
    have hlow : b.toNat-128+128*0 < 128 := by omega
    have hback : b.toNat-128+128*0+128 = b.toNat := by omega
    refine ⟨extra+1, ?_⟩
    rw [padded.eq_def, if_pos hlow]
    simp only [hback, UInt8.ofNat_toNat]
  · have hhigh : ¬b.toNat-128+128*n < 128 := by omega
    have hgroup : (b.toNat-128+128*n)%128+128 = b.toNat := by omega
    have hrest : (b.toNat-128+128*n)/128 = n := by omega
    refine ⟨extra, ?_⟩
    rw [padded.eq_def, if_neg hhigh, hgroup, hrest, UInt8.ofNat_toNat]

theorem word32_ofBytes (a b c d : UInt8) :
    word32 (.ofNat (a.toNat+b.toNat*256+c.toNat*65536+d.toNat*16777216)) = [a, b, c, d] := by
  have ha := a.toNat_lt
  have hb := b.toNat_lt
  have hc := c.toNat_lt
  have hd := d.toNat_lt
  have hword : a.toNat+b.toNat*256+c.toNat*65536+d.toNat*16777216 < 2^32 := by omega
  simp only [word32, UInt32.toNat_ofNat', Nat.mod_eq_of_lt hword, List.cons.injEq, and_true,
    ← UInt8.toNat_inj, UInt8.toNat_ofNat']
  omega

end Encoding

namespace Piece

/-- How a piece is written. -/
def bytes : Piece → List UInt8
  | number n => Encoding.varint n
  | raw b => [b]

def ofText (s : String) : List Piece :=
  let bytes := s.toUTF8.toList
  number bytes.length :: bytes.map raw

def ofConstant : Constant → List Piece
  | .number value => number 0 :: (Encoding.word32 value.bits).map raw
  | .text content => number 1 :: ofText content
  | .runnable function => [number 2, number function]

def ofSequence {α : Type} (item : α → List Piece) (items : List α) : List Piece :=
  number items.length :: items.flatMap item

def ofOptional : Option Nat → List Piece
  | none => [raw 0]
  | some n => [raw 1, number n]

def ofFunction (f : Function) : List Piece :=
  ofText f.name++number f.arity :: ofSequence ofText f.locals.toList++
    ofSequence (fun b => [raw b]) f.chunk.code.toList++ofSequence ofConstant f.chunk.constants.toList++
    ofOptional f.enclosing++[number f.lineCount.toNat]

def ofProgram (p : Program) : List Piece := ofSequence ofFunction p.functions.toList

variable {ps qs : List Piece} {front back : List UInt8}

theorem flatMap_raw (bs : List UInt8) : (bs.map raw).flatMap bytes = bs := by
  simp [List.flatMap_map, bytes]

theorem flatMap_text (s : String) : (ofText s).flatMap bytes = Encoding.text s := by
  simp [ofText, Encoding.text, bytes, flatMap_raw]

theorem flatMap_sequence {α : Type} {item : α → List Piece} {encode : α → List UInt8} {items : List α}
    (h : ∀ x ∈ items, (item x).flatMap bytes = encode x) :
    (ofSequence item items).flatMap bytes = Encoding.sequence encode items := by
  have hitems : (items.flatMap item).flatMap bytes = items.flatMap encode := by
    rw [List.flatMap_assoc]
    exact List.flatMap_congr h
  simp [ofSequence, Encoding.sequence, bytes, hitems]

theorem flatMap_constant (c : Constant) : (ofConstant c).flatMap bytes = Encoding.constant c := by
  cases c with
  | number value => simp [ofConstant, Encoding.constant, bytes, flatMap_raw]
  | text content => simp [ofConstant, Encoding.constant, bytes, flatMap_text]
  | runnable function => simp [ofConstant, Encoding.constant, bytes]

theorem flatMap_optional (n : Option Nat) : (ofOptional n).flatMap bytes = Encoding.optional n := by
  cases n <;> simp [ofOptional, Encoding.optional, bytes]

theorem flatMap_function (f : Function) : (ofFunction f).flatMap bytes = Encoding.function f := by
  have hnames := flatMap_sequence fun s (_ : s ∈ f.locals.toList) => flatMap_text s
  have hcode := flatMap_sequence fun b (_ : b ∈ f.chunk.code.toList) =>
    show [raw b].flatMap bytes = (fun b => [b]) b from rfl
  have hpool := flatMap_sequence fun c (_ : c ∈ f.chunk.constants.toList) => flatMap_constant c
  simp [ofFunction, Encoding.function, flatMap_text, flatMap_optional, hnames, hcode, hpool, bytes]

/-- The pieces are those of the encoding. -/
theorem flatMap_program (p : Program) : (ofProgram p).flatMap bytes = Encoding.program p :=
  flatMap_sequence fun f _ => flatMap_function f

/-- The bytes are the pieces, one after another, where numbers may have redundant groups. -/
inductive Spells : List Piece → List UInt8 → Prop
  | nil : Spells [] []
  | number (n extra : Nat) {ps : List Piece} {bytes : List UInt8} (h : Spells ps bytes) :
    Spells (number n :: ps) (Encoding.padded n extra++bytes)
  | raw (b : UInt8) {ps : List Piece} {bytes : List UInt8} (h : Spells ps bytes) :
    Spells (raw b :: ps) (b :: bytes)

namespace Spells

theorem append (h : Spells ps front) (k : Spells qs back) : Spells (ps++qs) (front++back) := by
  induction h with
  | nil => exact k
  | number n extra _ ih =>
    rw [List.cons_append, List.append_assoc]
    exact .number n extra ih
  | raw b _ ih => exact .raw b ih

theorem one (n extra : Nat) : Spells [.number n] (Encoding.padded n extra) := by
  have h := Spells.number n extra .nil
  rwa [List.append_nil] at h

theorem bytes (bs : List UInt8) : Spells (bs.map .raw) bs := by
  induction bs with
  | nil => exact .nil
  | cons b bs ih => exact .raw b ih

/-- No spelling is shorter than the one without redundant groups, and no other one is as short. -/
theorem shortest (h : Spells ps front) : (ps.flatMap Piece.bytes).length ≤ front.length ∧
    ((ps.flatMap Piece.bytes).length = front.length → ps.flatMap Piece.bytes = front) := by
  induction h with
  | nil => exact ⟨Nat.le_refl _, fun _ => rfl⟩
  | @number n extra ps rest _ ih =>
    obtain ⟨hle, heq⟩ := ih
    simp only [List.flatMap_cons, Piece.bytes, List.length_append, Encoding.length_padded]
    refine ⟨by omega, fun hlength => ?_⟩
    obtain rfl : extra = 0 := by omega
    rw [Encoding.padded_zero, heq (by omega)]
  | raw b _ ih =>
    obtain ⟨hle, heq⟩ := ih
    simp only [List.flatMap_cons, Piece.bytes, List.length_append, List.length_cons,
      List.length_nil]
    refine ⟨by omega, fun hlength => ?_⟩
    rw [heq (by omega)]
    rfl

end Spells
end Piece

namespace Decoder

/-- What was read off the front of the bytes spells the pieces. -/
def Consumes (bytes : List UInt8) (ps : List Piece) (rest : List UInt8) : Prop :=
  ∃ used, bytes = used++rest ∧ Piece.Spells ps used

namespace Consumes

variable {bytes mid rest : List UInt8} {ps qs : List Piece}

theorem trans (h : Consumes bytes ps mid) (k : Consumes mid qs rest) :
    Consumes bytes (ps++qs) rest := by
  obtain ⟨front, rfl, hfront⟩ := h
  obtain ⟨back, rfl, hback⟩ := k
  exact ⟨front++back, (List.append_assoc ..).symm, hfront.append hback⟩

end Consumes

variable {α β : Type} {bytes rest : List UInt8}

theorem bind_ok {decoder : Decoder α} {next : α → Decoder β} {y : β}
    (h : (decoder >>= next) bytes = .ok (y, rest)) :
    ∃ x mid, decoder bytes = .ok (x, mid) ∧ next x mid = .ok (y, rest) := by
  have h' : (decoder bytes >>= fun (a, s) => next a s) = .ok (y, rest) := h
  cases hx : decoder bytes with
  | error m =>
    rw [hx] at h'
    cases h'
  | ok found =>
    rw [hx] at h'
    exact ⟨found.1, found.2, rfl, h'⟩

theorem byte_ok {b : UInt8} (h : byte bytes = .ok (b, rest)) : bytes = b :: rest := by
  cases bytes with
  | nil => cases h
  | cons c bytes =>
    cases h
    rfl

theorem take_ok {n : Nat} {bs : List UInt8} (h : take n bytes = .ok (bs, rest)) :
    bytes = bs++rest ∧ bs.length = n := by
  simp only [take] at h
  split at h
  · next hlength =>
    cases h
    exact ⟨(List.take_append_drop n bytes).symm, hlength⟩
  · cases h

/-- A number is read off its groups, redundant ones among them, and fits into as many as there may
be. -/
theorem varint_ok {top groups n : Nat} (h : varint top (groups+1) bytes = .ok (n, rest)) :
    (∃ extra, bytes = Encoding.padded n extra++rest) ∧ n < (top+1)*128^groups := by
  induction groups generalizing bytes n with
  | zero =>
    obtain ⟨b, mid, hb, hnext⟩ := bind_ok h
    obtain rfl := byte_ok hb
    split at hnext
    · next hlow =>
      split at hnext
      · cases hnext
      · cases hnext
        exact ⟨⟨0, by rw [Encoding.padded_low hlow]; rfl⟩, by omega⟩
    · obtain ⟨_, _, hmore, _⟩ := bind_ok hnext
      cases hmore
  | succ groups ih =>
    obtain ⟨b, mid, hb, hnext⟩ := bind_ok h
    obtain rfl := byte_ok hb
    split at hnext
    · next hlow =>
      rw [if_neg (by omega)] at hnext
      cases hnext
      have hroom : 128 ≤ 128^(groups+1) := Nat.le_self_pow (Nat.succ_ne_zero groups) 128
      exact ⟨⟨0, by rw [Encoding.padded_low hlow]; rfl⟩,
        hlow.trans_le (hroom.trans (Nat.le_mul_of_pos_left _ (Nat.succ_pos top)))⟩
    · next hhigh =>
      obtain ⟨n, mid', hmore, hlast⟩ := bind_ok hnext
      cases hlast
      obtain ⟨⟨extra, rfl⟩, hbound⟩ := ih hmore
      obtain ⟨more, hspelt⟩ := Encoding.padded_high (Nat.le_of_not_lt hhigh) n extra
      refine ⟨⟨more, by rw [hspelt]; rfl⟩, ?_⟩
      have hlt : b.toNat < 256 := b.toNat_lt
      calc b.toNat-128+128*n < 128*(n+1) := by omega
        _ ≤ 128*((top+1)*128^groups) := Nat.mul_le_mul_left 128 hbound
        _ = (top+1)*128^(groups+1) := by ring

theorem number_consumes {top groups n : Nat} (h : varint top (groups+1) bytes = .ok (n, rest)) :
    Consumes bytes [.number n] rest := by
  obtain ⟨⟨extra, hbytes⟩, _⟩ := varint_ok h
  exact ⟨_, hbytes, .one n extra⟩

theorem byte_consumes {b : UInt8} (h : byte bytes = .ok (b, rest)) : Consumes bytes [.raw b] rest :=
  ⟨[b], byte_ok h, .bytes [b]⟩

theorem take_consumes {n : Nat} {bs : List UInt8} (h : take n bytes = .ok (bs, rest)) :
    Consumes bytes (bs.map .raw) rest :=
  ⟨bs, (take_ok h).1, .bytes bs⟩

theorem toUTF8_of_fromUTF8? {bs : ByteArray} {s : String} (h : String.fromUTF8? bs = some s) :
    s.toUTF8 = bs := by
  unfold String.fromUTF8? at h
  split at h
  · cases h
    rfl
  · cases h

theorem text_consumes {s : String} (h : text bytes = .ok (s, rest)) :
    Consumes bytes (Piece.ofText s) rest := by
  obtain ⟨n, mid, hn, hnext⟩ := bind_ok h
  obtain ⟨bs, mid', hbs, hlast⟩ := bind_ok hnext
  cases hs : String.fromUTF8? ⟨bs.toArray⟩ with
  | none =>
    simp only [hs] at hlast
    cases hlast
  | some s' =>
    simp only [hs] at hlast
    cases hlast
    have hback : s.toUTF8.toList = bs := by
      rw [toList_eq_data, toUTF8_of_fromUTF8? hs]
    have hlength : bs.length = n := (take_ok hbs).2
    simp only [Piece.ofText, hback, hlength]
    exact (number_consumes hn).trans (take_consumes hbs)

theorem word32_consumes {w : UInt32} (h : word32 bytes = .ok (w, rest)) :
    Consumes bytes ((Encoding.word32 w).map .raw) rest := by
  obtain ⟨bs, mid, hbs, hlast⟩ := bind_ok h
  have hlength : bs.length = 4 := (take_ok hbs).2
  obtain ⟨a, b, c, d, rfl⟩ : ∃ a b c d, bs = [a, b, c, d] := by
    match bs, hlength with
    | [a, b, c, d], _ => exact ⟨a, b, c, d, rfl⟩
  cases hlast
  rw [Encoding.word32_ofBytes]
  exact take_consumes hbs

theorem constant_consumes {c : Constant} (h : constant bytes = .ok (c, rest)) :
    Consumes bytes (Piece.ofConstant c) rest := by
  obtain ⟨n, mid, hn, hnext⟩ := bind_ok h
  split at hnext
  · obtain ⟨w, mid', hw, hlast⟩ := bind_ok hnext
    cases hlast
    exact (number_consumes hn).trans (word32_consumes hw)
  · obtain ⟨s, mid', hs, hlast⟩ := bind_ok hnext
    cases hlast
    exact (number_consumes hn).trans (text_consumes hs)
  · obtain ⟨k, mid', hk, hlast⟩ := bind_ok hnext
    cases hlast
    exact (number_consumes hn).trans (number_consumes hk)
  · cases hnext

theorem items_consumes {α : Type} {item : Decoder α} {pieces : α → List Piece}
    (hitem : ∀ bytes x rest, item bytes = .ok (x, rest) → Consumes bytes (pieces x) rest) {n : Nat}
    {found all : Array α} (h : items item found n bytes = .ok (all, rest)) :
    ∃ xs : List α, all = found++xs ∧ xs.length = n ∧ Consumes bytes (xs.flatMap pieces) rest := by
  induction n generalizing bytes found with
  | zero =>
    cases h
    exact ⟨[], by simp, rfl, [], rfl, .nil⟩
  | succ n ih =>
    obtain ⟨x, mid, hx, hnext⟩ := bind_ok h
    obtain ⟨xs, rfl, rfl, hxs⟩ := ih hnext
    exact ⟨x :: xs, Array.appendList_cons.symm, rfl, (hitem _ x mid hx).trans hxs⟩

theorem sequence_consumes {α : Type} {item : Decoder α} {pieces : α → List Piece}
    (hitem : ∀ bytes x rest, item bytes = .ok (x, rest) → Consumes bytes (pieces x) rest)
    {xs : Array α} (h : sequence item bytes = .ok (xs, rest)) :
    Consumes bytes (Piece.ofSequence pieces xs.toList) rest := by
  obtain ⟨n, mid, hn, hnext⟩ := bind_ok h
  obtain ⟨xs, rfl, rfl, hxs⟩ := items_consumes hitem hnext
  rw [Piece.ofSequence, Array.toList_appendList, List.nil_append]
  exact (number_consumes hn).trans hxs

theorem optional_consumes {n : Option Nat} (h : optional bytes = .ok (n, rest)) :
    Consumes bytes (Piece.ofOptional n) rest := by
  obtain ⟨b, mid, hb, hnext⟩ := bind_ok h
  rcases hvalue : b.toNat with _ | _ | _
  · obtain rfl : b = 0 := UInt8.toNat_inj.mp hvalue
    cases hnext
    exact byte_consumes hb
  · obtain rfl : b = 1 := UInt8.toNat_inj.mp hvalue
    obtain ⟨n, mid', hn, hlast⟩ := bind_ok hnext
    cases hlast
    exact (byte_consumes hb).trans (number_consumes hn)
  · simp only [hvalue] at hnext
    cases hnext

theorem function_consumes {f : Function} (h : function bytes = .ok (f, rest)) :
    Consumes bytes (Piece.ofFunction f) rest := by
  obtain ⟨name, _, hname, h⟩ := bind_ok h
  obtain ⟨arity, _, harity, h⟩ := bind_ok h
  obtain ⟨locals, _, hlocals, h⟩ := bind_ok h
  obtain ⟨code, _, hcode, h⟩ := bind_ok h
  obtain ⟨constants, _, hconstants, h⟩ := bind_ok h
  obtain ⟨enclosing, _, henclosing, h⟩ := bind_ok h
  obtain ⟨lines, _, hlines, h⟩ := bind_ok h
  cases h
  have hfits : lines < 2^16 := (varint_ok hlines).2
  have hback : (UInt16.ofNat lines).toNat = lines := UInt16.toNat_ofNat_of_lt hfits
  have htexts := sequence_consumes (fun _ _ _ => text_consumes) hlocals
  have hbytes := sequence_consumes (fun _ _ _ => byte_consumes) hcode
  have hpool := sequence_consumes (fun _ _ _ => constant_consumes) hconstants
  simp only [Piece.ofFunction, hback, List.append_assoc]
  exact (text_consumes hname).trans <| (number_consumes harity).trans <| htexts.trans <|
    hbytes.trans <| hpool.trans <| (optional_consumes henclosing).trans (number_consumes hlines)

theorem program_consumes {p : Program} (h : program bytes = .ok (p, rest)) :
    Consumes bytes (Piece.ofProgram p) rest := by
  obtain ⟨functions, mid, hfunctions, hlast⟩ := bind_ok h
  cases hlast
  exact sequence_consumes (fun _ _ _ => function_consumes) hfunctions

end Decoder

namespace Encoding

/-- Byte strings that differ in nothing but redundant groups of numbers. -/
def Alike (front back : List UInt8) : Prop := ∃ ps, Piece.Spells ps front ∧ Piece.Spells ps back

end Encoding

namespace Program

theorem body_ok {bytes rest : List UInt8} (h : body bytes = .ok rest) :
    bytes = mark++formatVersion :: rest := by
  unfold body at h
  split at h
  · next hmark =>
    obtain ⟨behind, rfl⟩ := List.isPrefixOf_iff_prefix.mp hmark
    rw [List.drop_left] at h
    cases behind with
    | nil => cases h
    | cons version behind =>
      by_cases hversion : version = formatVersion
      · simp only [if_pos hversion] at h
        cases h
        rw [hversion]
      · simp only [if_neg hversion] at h
        cases h
  · cases h

/-- A function without code, with more groups for the number of functions and the arity than they
need, and a byte behind it. -/
def loose : List UInt8 :=
  [0x52, 0x41, 0x54, 0x43, 1, 0x81, 0, 1, 0x66, 0x82, 0x80, 0, 0, 0, 0, 0, 0, 9]

end Program
end RatScript
