/-!
Sixteen-bit words in code, high byte first.
-/

namespace RatScript

namespace Word

def ofBytes (high low : UInt8) : UInt16 := UInt16.ofNat (high.toNat*256+low.toNat)
def high (w : UInt16) : UInt8 := UInt8.ofNat (w.toNat/256)
def low (w : UInt16) : UInt8 := UInt8.ofNat (w.toNat%256)

theorem ofBytes_high_low (w : UInt16) : ofBytes (high w) (low w) = w := by
  have h := w.toNat_lt
  apply UInt16.toNat_inj.mp
  simp only [ofBytes, high, low, UInt16.toNat_ofNat', UInt8.toNat_ofNat']
  omega

/-- The word at an offset of the code. -/
def read? (code : Array UInt8) (offset : Nat) : Option UInt16 := do
  let high ← code[offset]?
  let low ← code[offset+1]?
  some (ofBytes high low)

/-- The word of a number, if sixteen bits hold it. -/
def ofNat? (n : Nat) : Option UInt16 := if n < 0x10000 then some (UInt16.ofNat n) else none

end Word
end RatScript
