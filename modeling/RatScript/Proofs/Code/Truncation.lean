import RatScript.Proofs.Code.Encoding

/-!
Encodings that are cut off. A decoder run on some of the bytes of a value, but not all, asks for more;
so a program's bytes, cut anywhere, are reported as cut and never read as anything else.
-/

namespace RatScript

namespace Decoder

/-- Run on the first of these bytes, but not all, the decoder asks for more. -/
def Starves {α : Type} (decoder : Decoder α) (bytes : List UInt8) : Prop :=
  ∀ k < bytes.length, decoder (bytes.take k) = .error .endOfBytes

namespace Starves

variable {α β : Type} {decoder : Decoder α} {bytes front : List UInt8} {x : α}

/-- The cut is in what the first decoder reads or in what the second one does. -/
theorem bind {next : α → Decoder β} (h : Starves decoder front) (hread : Reads decoder front x)
    (hn : Starves (next x) bytes) : Starves (decoder >>= next) (front++bytes) := by
  intro k hk
  show (decoder ((front++bytes).take k) >>= fun (a, s) => next a s) = _
  rw [List.length_append] at hk
  by_cases hcut : k < front.length
  · rw [List.take_append_of_le_length (Nat.le_of_lt hcut), h k hcut]
    rfl
  · have hwhole : (front++bytes).take k = front++bytes.take (k-front.length) := by
      rw [List.take_append, List.take_of_length_le (Nat.le_of_not_lt hcut)]
    rw [hwhole, hread]
    exact hn _ (by omega)

/-- What is done with the result does not matter. -/
theorem last {next : α → Decoder β} (h : Starves decoder bytes) : Starves (decoder >>= next) bytes := by
  intro k hk
  show (decoder (bytes.take k) >>= fun (a, s) => next a s) = _
  rw [h k hk]
  rfl

end Starves

theorem byte_starves (b : UInt8) : Starves byte [b] := by
  intro k hk
  obtain rfl : k = 0 := by simpa using hk
  rfl

theorem take_starves (bytes : List UInt8) : Starves (take bytes.length) bytes := by
  intro k hk
  have hshort : ((bytes.take k).take bytes.length).length ≠ bytes.length := by
    simp only [List.length_take]
    omega
  simp only [take, if_neg hshort]

/-- Every group but the last says that there are more. -/
theorem varint_starves {top groups n : Nat} (htop : top < 128) (hn : n < (top+1)*128^groups) :
    Starves (varint top (groups+1)) (Encoding.varint n) := by
  induction groups generalizing n with
  | zero =>
    have hlow : n < 128 := by omega
    rw [Encoding.varint, if_pos hlow]
    exact (byte_starves _).last
  | succ groups ih =>
    rw [Encoding.varint]
    by_cases hlow : n < 128
    · rw [if_pos hlow]
      exact (byte_starves _).last
    · have hb : (UInt8.ofNat (n%128+128)).toNat = n%128+128 := by simp; omega
      have hhigh : n/128 < (top+1)*128^groups := by
        rw [Nat.div_lt_iff_lt_mul (by decide), Nat.mul_assoc, ← Nat.pow_succ]
        exact hn
      rw [if_neg hlow]
      refine (byte_starves _).bind (byte_reads _) ?_
      rw [hb, if_neg (by omega)]
      exact (ih hhigh).last

theorem long_starves {n : Nat} (hn : n < 2^64) : Starves long (Encoding.varint n) :=
  varint_starves (by decide) hn

theorem int_starves {n : Nat} (hn : n < 2^32) : Starves int (Encoding.varint n) :=
  varint_starves (by decide) hn

theorem short_starves {n : Nat} (hn : n < 2^16) : Starves short (Encoding.varint n) :=
  varint_starves (by decide) hn

theorem text_starves {s : String} (hs : s.utf8ByteSize < 2^64) : Starves text (Encoding.text s) := by
  have hlen : s.toUTF8.toList.length < 2^64 := by
    rw [toList_eq_data]
    exact hs
  exact (long_starves hlen).bind (long_reads hlen) (take_starves _).last

theorem word32_starves (w : UInt32) : Starves word32 (Encoding.word32 w) :=
  (take_starves (Encoding.word32 w)).last

theorem constant_starves {c : Constant} (hc : c.Storable) :
    Starves constant (Encoding.constant c) := by
  cases c with
  | number value =>
    exact (int_starves (by decide)).bind (int_reads (by decide)) (word32_starves _).last
  | text content =>
    exact (int_starves (by decide)).bind (int_reads (by decide)) (text_starves hc).last
  | runnable function =>
    exact (int_starves (by decide)).bind (int_reads (by decide)) (long_starves hc).last

/-- The count of the items stands in front of them, so those that are cut off are missed. -/
theorem items_starves {α : Type} {item : Decoder α} {encode : α → List UInt8} {xs : List α}
    (found : Array α) (hx : ∀ x ∈ xs, Reads item (encode x) x ∧ Starves item (encode x)) :
    Starves (items item found xs.length) (xs.flatMap encode) := by
  induction xs generalizing found with
  | nil => exact fun k hk => absurd hk (Nat.not_lt_zero k)
  | cons x xs ih =>
    obtain ⟨hreads, hstarves⟩ := hx x List.mem_cons_self
    exact hstarves.bind hreads (ih (found.push x) fun y hy => hx y (List.mem_cons_of_mem x hy))

theorem sequence_starves {α : Type} {item : Decoder α} {encode : α → List UInt8} {xs : Array α}
    (hsize : xs.size < 2^64)
    (hx : ∀ x ∈ xs.toList, Reads item (encode x) x ∧ Starves item (encode x)) :
    Starves (sequence item) (Encoding.sequence encode xs.toList) := by
  have hcount : xs.toList.length < 2^64 := by simpa using hsize
  exact (long_starves hcount).bind (long_reads hcount) (items_starves #[] hx)

theorem optional_starves {enclosing : Option Nat} (he : ∀ parent ∈ enclosing, parent < 2^64) :
    Starves optional (Encoding.optional enclosing) := by
  cases enclosing with
  | none => exact (byte_starves 0).last
  | some parent =>
    exact (byte_starves 1).bind (byte_reads 1) (long_starves (he parent rfl)).last

theorem function_starves {f : Function} (hf : f.Storable) :
    Starves function (Encoding.function f) := by
  have hlines : f.lineCount.toNat < 2^16 := f.lineCount.toNat_lt
  have hlocals (s : String) (hs : s ∈ f.locals.toList) := hf.locals.2 s hs
  have hconstants (c : Constant) (hc : c ∈ f.chunk.constants.toList) := hf.constants.2 c hc
  have hnames := sequence_starves hf.locals.1 fun s hs =>
    ⟨text_reads (hlocals s hs), text_starves (hlocals s hs)⟩
  have hcode := sequence_starves hf.code fun b _ => ⟨byte_reads b, byte_starves b⟩
  have hpool := sequence_starves hf.constants.1 fun c hc =>
    ⟨constant_reads (hconstants c hc), constant_starves (hconstants c hc)⟩
  simp only [Encoding.function, List.append_assoc]
  refine (text_starves hf.name).bind (text_reads hf.name) ?_
  refine (long_starves hf.arity).bind (long_reads hf.arity) ?_
  refine hnames.bind (sequence_reads hf.locals.1 fun s hs => text_reads (hlocals s hs)) ?_
  refine hcode.bind (sequence_reads hf.code fun b _ => byte_reads b) ?_
  refine hpool.bind (sequence_reads hf.constants.1 fun c hc => constant_reads (hconstants c hc)) ?_
  exact (optional_starves hf.enclosing).bind (optional_reads hf.enclosing)
    (short_starves hlines).last

theorem program_starves {p : Program} (hp : p.Storable) :
    Starves program (Encoding.program p) :=
  (sequence_starves hp.1 fun f hf =>
    ⟨function_reads (hp.2 f hf), function_starves (hp.2 f hf)⟩).last

end Decoder

namespace Program

/-- A part of the letters at the start is no mark, and a mark alone has no version behind it. -/
theorem body_take_of_lt (p : Program) {k : Nat} (hk : k < 5) :
    body (p.toBytes.take k) = .error .mark := by
  have htake : p.toBytes.take k = (mark++[formatVersion]).take k := by
    rw [toBytes, List.append_cons, List.take_append_of_le_length (Nat.le_of_lt hk)]
  rw [htake]
  interval_cases k <;> rfl

theorem body_take_of_le (p : Program) {k : Nat} (hk : 5 ≤ k) :
    body (p.toBytes.take k) = .ok ((Encoding.program p).take (k-5)) := by
  obtain ⟨n, rfl⟩ := Nat.exists_eq_add_of_le' hk
  simp [body, toBytes, mark]

/-- A program's bytes, cut off before their end, are never loaded: within the mark and the version
they are no file of this format, and behind these they are too few. -/
theorem ofBytes_truncated (p : Program) (hp : p.Storable) (k : Nat) (hk : k < p.toBytes.length) :
    ofBytes (p.toBytes.take k) = .error (if k < 5 then .mark else .malformed .endOfBytes) := by
  by_cases hfront : k < 5
  · simp only [ofBytes, body_take_of_lt p hfront, if_pos hfront, bind, Except.bind]
  · have hlength : p.toBytes.length = (Encoding.program p).length+5 := by
      simp [toBytes, mark]
    have hstarves := Decoder.program_starves hp (k-5) (by omega)
    simp only [ofBytes, body_take_of_le p (Nat.le_of_not_lt hfront), if_neg hfront, bind,
      Except.bind, hstarves]

/-- The sample cut behind the mark, and inside a letter of the text among its constants. -/
theorem ofBytes_truncated_sample :
    ofBytes ((sample 0).toBytes.take 4) = .error .mark ∧
      ofBytes ((sample 0).toBytes.take 29) = .error (.malformed .endOfBytes) := by
  have hsound : (sample 0).Storable := by decide +kernel
  have hlength : 29 < (sample 0).toBytes.length := by decide +kernel
  exact ⟨ofBytes_truncated (sample 0) hsound 4 (by omega),
    ofBytes_truncated (sample 0) hsound 29 hlength⟩

end Program
end RatScript
