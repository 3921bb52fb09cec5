import Mathlib
import RatScript.Code.Encoding

/-!
What is written can be read: a decoder run on the bytes of a value gives this value back and leaves
what stands behind them. So loading an encoded program gives the program itself or what its
verification rejects, whatever bytes follow it.
-/

namespace RatScript

def Constant.Storable : Constant → Prop
  | number _ => True
  | text content => content.utf8ByteSize < 2^64
  | runnable function => function < 2^64

instance : DecidablePred Constant.Storable
  | .number _ => inferInstanceAs (Decidable True)
  | .text content => inferInstanceAs (Decidable (content.utf8ByteSize < 2^64))
  | .runnable function => inferInstanceAs (Decidable (function < 2^64))

/-- Ids, counts and the lengths of texts and lists are words of 64 bits. -/
structure Function.Storable (f : Function) : Prop where
  name : f.name.utf8ByteSize < 2^64
  arity : f.arity < 2^64
  locals : f.locals.size < 2^64 ∧ ∀ s ∈ f.locals.toList, s.utf8ByteSize < 2^64
  code : f.chunk.code.size < 2^64
  constants : f.chunk.constants.size < 2^64 ∧ ∀ c ∈ f.chunk.constants.toList, c.Storable
  enclosing : ∀ parent ∈ f.enclosing, parent < 2^64

instance : DecidablePred Function.Storable := fun f =>
  decidable_of_iff
    (f.name.utf8ByteSize < 2^64 ∧ f.arity < 2^64 ∧
      (f.locals.size < 2^64 ∧ ∀ s ∈ f.locals.toList, s.utf8ByteSize < 2^64) ∧
      f.chunk.code.size < 2^64 ∧
      (f.chunk.constants.size < 2^64 ∧ ∀ c ∈ f.chunk.constants.toList, c.Storable) ∧
      ∀ parent ∈ f.enclosing, parent < 2^64)
    ⟨fun ⟨hn, ha, hl, hc, hk, he⟩ => ⟨hn, ha, hl, hc, hk, he⟩,
      fun h => ⟨h.name, h.arity, h.locals, h.code, h.constants, h.enclosing⟩⟩

/-- Programs as a machine with words of 64 bits can hold them. -/
def Program.Storable (p : Program) : Prop :=
  p.functions.size < 2^64 ∧ ∀ f ∈ p.functions.toList, f.Storable

instance : DecidablePred Program.Storable := fun p =>
  inferInstanceAs (Decidable (p.functions.size < 2^64 ∧ ∀ f ∈ p.functions.toList, f.Storable))

theorem toList_eq_data (bytes : ByteArray) : bytes.toList = bytes.data.toList := by
  have hloop (i : Nat) (found : List UInt8) :
      ByteArray.toList.loop bytes i found = found.reverse++bytes.data.toList.drop i := by
    fun_induction ByteArray.toList.loop bytes i found with
    | case1 i found hi ih =>
      have hi' : i < bytes.data.toList.length := hi
      have hget : bytes.get! i = bytes.data.toList[i] := by
        show bytes.data[i]! = _
        simp [getElem!_pos bytes.data i hi]
      rw [ih, List.drop_eq_getElem_cons hi', hget]
      simp
    | case2 i found hi =>
      have hi' : bytes.data.toList.length ≤ i := Nat.le_of_not_lt hi
      rw [List.drop_of_length_le hi', List.append_nil]
  simpa [ByteArray.toList] using hloop 0 []

namespace Decoder

/-- Run on these bytes, whatever follows them, the decoder gives the value and leaves the rest. -/
def Reads {α : Type} (decoder : Decoder α) (bytes : List UInt8) (value : α) : Prop :=
  ∀ rest, decoder (bytes++rest) = .ok (value, rest)

namespace Reads

variable {α β : Type} {decoder : Decoder α} {bytes front : List UInt8} {x : α}

theorem of_pure (x : α) : Reads (pure x) [] x := fun _ => rfl

theorem bind {next : α → Decoder β} {y : β} (h : Reads decoder front x)
    (hn : Reads (next x) bytes y) : Reads (decoder >>= next) (front++bytes) y := by
  intro rest
  show (decoder (front++bytes++rest) >>= fun (a, s) => next a s) = _
  rw [List.append_assoc, h]
  exact hn rest

/-- The last part of a decoder: what it gives is settled without further bytes. -/
theorem last {next : α → Decoder β} {y : β} (h : Reads decoder bytes x) (hn : next x = pure y) :
    Reads (decoder >>= next) bytes y := by
  have hnext : Reads (next x) [] y := by
    rw [hn]
    exact Reads.of_pure y
  have hboth := h.bind hnext
  rwa [List.append_nil] at hboth

end Reads

theorem byte_reads (b : UInt8) : Reads byte [b] b := fun _ => rfl

theorem take_reads (bytes : List UInt8) : Reads (take bytes.length) bytes bytes := by
  intro rest
  simp [take]

/-- Numbers whose last possible group is at most `top` are read whole. -/
theorem varint_reads {top groups n : Nat} (htop : top < 128) (hn : n < (top+1)*128^groups) :
    Reads (varint top (groups+1)) (Encoding.varint n) n := by
  induction groups generalizing n with
  | zero =>
    have hlow : n < 128 := by omega
    have hb : (UInt8.ofNat n).toNat = n := by simp; omega
    have hkept : ¬top < n := by omega
    rw [Encoding.varint, if_pos hlow]
    exact (byte_reads _).last (by simp [hb, hlow, hkept])
  | succ groups ih =>
    rw [Encoding.varint]
    by_cases hlow : n < 128
    · have hb : (UInt8.ofNat n).toNat = n := by simp; omega
      rw [if_pos hlow]
      exact (byte_reads _).last (by simp [hb, hlow])
    · have hb : (UInt8.ofNat (n%128+128)).toNat = n%128+128 := by simp; omega
      have hhigh : n/128 < (top+1)*128^groups := by
        rw [Nat.div_lt_iff_lt_mul (by decide), Nat.mul_assoc, ← Nat.pow_succ]
        exact hn
      have hn' : n%128+128-128+128*(n/128) = n := by omega
      rw [if_neg hlow]
      refine (byte_reads _).bind ?_
      rw [hb, if_neg (by omega)]
      exact (ih hhigh).last (by rw [hn'])

theorem long_reads {n : Nat} (hn : n < 2^64) : Reads long (Encoding.varint n) n :=
  varint_reads (by decide) hn

theorem int_reads {n : Nat} (hn : n < 2^32) : Reads int (Encoding.varint n) n :=
  varint_reads (by decide) hn

theorem short_reads {n : Nat} (hn : n < 2^16) : Reads short (Encoding.varint n) n :=
  varint_reads (by decide) hn

theorem text_reads {s : String} (hs : s.utf8ByteSize < 2^64) : Reads text (Encoding.text s) s := by
  have hlen : s.toUTF8.toList.length = s.utf8ByteSize := by
    rw [toList_eq_data]
    rfl
  have hback : String.fromUTF8? ⟨s.toUTF8.toList.toArray⟩ = some s := by
    rw [toList_eq_data]
    exact dif_pos s.isValidUTF8
  refine (long_reads (by rw [hlen]; exact hs)).bind ((take_reads _).last ?_)
  rw [hback]

theorem word32_reads (w : UInt32) : Reads word32 (Encoding.word32 w) w := by
  have hw : w.toNat < 2^32 := w.toNat_lt
  refine (take_reads (Encoding.word32 w)).last (congrArg pure (UInt32.toNat_inj.mp ?_))
  simp
  omega

theorem constant_reads {c : Constant} (hc : c.Storable) :
    Reads constant (Encoding.constant c) c := by
  cases c with
  | number value => exact (int_reads (by decide)).bind ((word32_reads _).last rfl)
  | text content => exact (int_reads (by decide)).bind ((text_reads hc).last rfl)
  | runnable function => exact (int_reads (by decide)).bind ((long_reads hc).last rfl)

theorem items_reads {α : Type} {item : Decoder α} {encode : α → List UInt8} {xs : List α}
    (found : Array α) (hx : ∀ x ∈ xs, Reads item (encode x) x) :
    Reads (items item found xs.length) (xs.flatMap encode) (found++xs) := by
  induction xs generalizing found with
  | nil => simpa [items] using Reads.of_pure found
  | cons x xs ih =>
    have hrest := ih (found.push x) (fun y hy => hx y (List.mem_cons_of_mem x hy))
    rw [← Array.appendList_cons] at hrest
    exact (hx x List.mem_cons_self).bind hrest

theorem sequence_reads {α : Type} {item : Decoder α} {encode : α → List UInt8} {xs : Array α}
    (hsize : xs.size < 2^64) (hx : ∀ x ∈ xs.toList, Reads item (encode x) x) :
    Reads (sequence item) (Encoding.sequence encode xs.toList) xs := by
  have hitems := items_reads #[] hx
  refine (long_reads (by simpa using hsize)).bind ?_
  simpa using hitems

theorem optional_reads {enclosing : Option Nat} (he : ∀ parent ∈ enclosing, parent < 2^64) :
    Reads optional (Encoding.optional enclosing) enclosing := by
  cases enclosing with
  | none => exact (byte_reads 0).last rfl
  | some parent => exact (byte_reads 1).bind ((long_reads (he parent rfl)).last rfl)

theorem function_reads {f : Function} (hf : f.Storable) :
    Reads function (Encoding.function f) f := by
  have hlines : f.lineCount.toNat < 2^16 := f.lineCount.toNat_lt
  simp only [Encoding.function, List.append_assoc]
  refine (text_reads hf.name).bind ((long_reads hf.arity).bind ?_)
  refine (sequence_reads hf.locals.1 fun s hs => text_reads (hf.locals.2 s hs)).bind ?_
  refine (sequence_reads hf.code fun b _ => byte_reads b).bind ?_
  refine (sequence_reads hf.constants.1 fun c hc => constant_reads (hf.constants.2 c hc)).bind ?_
  exact (optional_reads hf.enclosing).bind ((short_reads hlines).last (by simp))

theorem program_reads {p : Program} (hp : p.Storable) :
    Reads program (Encoding.program p) p :=
  (sequence_reads hp.1 fun f hf => function_reads (hp.2 f hf)).last rfl

end Decoder

namespace Program

theorem body_toBytes (p : Program) (junk : List UInt8) :
    body (p.toBytes++junk) = .ok (Encoding.program p++junk) := by
  simp [body, toBytes, mark]

/-- A constant of each kind, one of them not a number, and the largest arity and line count. -/
def sample (parent : Nat) : Program :=
  ⟨#[⟨"<script>", 0, #[], ⟨#[0], #[.number ⟨0xffc00001⟩, .text "søt", .runnable 1]⟩, none, 0⟩,
    ⟨"f", 2^64-1, #["x"], ⟨#[25, 0, 1], #[]⟩, some parent, 65535⟩]⟩

theorem sample_verifies : (sample 0).verify = .ok () := by cbv

theorem sample_rejected :
    (sample (2^64-1)).verify = .error ⟨"f", 0, .laterEncloser (2^64-1)⟩ := by cbv

end Program
end RatScript
