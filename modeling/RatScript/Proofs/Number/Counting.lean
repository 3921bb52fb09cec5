import Mathlib
import RatScript.Number.Basic

/-!
Counting with binary32 numbers. Whole numbers below 2^24 are exact, so counting down from any of them,
or from 2^24 itself, loses nothing.
-/

namespace RatScript.Number

theorem one_eq : one = 2^149 := by norm_num [one]

/-- The number is this whole one. -/
structure Counts (x : Number) (k : Nat) : Prop where
  finite : x.isFinite = true
  positive : x.negative = false
  units : x.units = k*one

theorem roundDiv_of_dvd {num den : Nat} (hden : 0 < den) (h : den ∣ num) :
    roundDiv num den = num/den := by
  simp [roundDiv, Nat.mod_eq_zero_of_dvd h, hden]

/-- A pattern with an exponent and a full significand. -/
theorem counts_ofMagnitude {k scale q : Nat} (hscale : scale ≤ 200) (hlow : 2^23 ≤ q)
    (hhigh : q < 2^24) (hvalue : q*2^scale = k*one) :
    (ofMagnitude false (scale*0x800000+q)).Counts k := by
  have hbits : (ofMagnitude false (scale*0x800000+q)).bits.toNat = scale*0x800000+q := by
    simp only [ofMagnitude, Bool.false_eq_true, if_false, UInt32.toNat_ofNat']
    omega
  have hmagnitude : (ofMagnitude false (scale*0x800000+q)).magnitude = scale*0x800000+q := by
    rw [magnitude, hbits]
    omega
  refine ⟨?_, ?_, ?_⟩
  · have hlt : scale*0x800000+q < infiniteMagnitude := by
      simp only [infiniteMagnitude]
      omega
    simpa [isFinite, hmagnitude] using hlt
  · rw [negative, hbits]
    simp only [decide_eq_false_iff_not]
    omega
  · have hsignificand : (ofMagnitude false (scale*0x800000+q)).significand = q := by
      rw [significand, hmagnitude, if_neg (by omega)]
      omega
    have hplace : (ofMagnitude false (scale*0x800000+q)).scale = scale := by
      rw [Number.scale, hmagnitude]
      omega
    rw [Number.units, hsignificand, hplace, Nat.shiftLeft_eq, hvalue]

theorem counts_ofRatio {k : Nat} (hpos : 0 < k) (hlt : k < 2^24) :
    (ofRatio false (k*one) 1).Counts k := by
  obtain ⟨hlow, hhigh⟩ := (Nat.log2_eq_iff hpos.ne').mp (rfl : k.log2 = k.log2)
  generalize k.log2 = e at hlow hhigh
  have he : e ≤ 23 := by
    by_contra hgt
    have hpow : 2^24 ≤ 2^e := Nat.pow_le_pow_right (by omega) (by omega)
    omega
  have hlog : (k*one/1).log2 = e+149 := by
    rw [Nat.div_one, one_eq, Nat.log2_eq_iff (by positivity)]
    constructor
    · calc 2^(e+149) = 2^e*2^149 := by rw [pow_add]
        _ ≤ k*2^149 := Nat.mul_le_mul_right _ hlow
    · calc k*2^149 < 2^(e+1)*2^149 := Nat.mul_lt_mul_of_pos_right hhigh (by positivity)
        _ = 2^(e+149+1) := by rw [← pow_add, Nat.add_right_comm]
  -- the significand is the number itself, moved up until it takes all of its bits
  have hquotient : k*one = k*2^(23-e)*2^(e+126) := by
    rw [one_eq, Nat.mul_assoc, ← pow_add]
    congr 2
    omega
  have hround : roundDiv (k*one) (1 <<< (e+126)) = k*2^(23-e) := by
    rw [Nat.shiftLeft_eq, Nat.one_mul, hquotient,
      roundDiv_of_dvd (by positivity) (Nat.dvd_mul_left _ _), Nat.mul_div_cancel _ (by positivity)]
  have hq : 2^23 ≤ k*2^(23-e) ∧ k*2^(23-e) < 2^24 := by
    constructor
    · calc 2^23 = 2^e*2^(23-e) := by rw [← pow_add]; congr 1; omega
        _ ≤ k*2^(23-e) := Nat.mul_le_mul_right _ hlow
    · calc k*2^(23-e) < 2^(e+1)*2^(23-e) := Nat.mul_lt_mul_of_pos_right hhigh (by positivity)
        _ = 2^24 := by rw [← pow_add]; congr 1; omega
  have hratio : ofRatio false (k*one) 1 = ofMagnitude false ((e+126)*0x800000+k*2^(23-e)) := by
    simp only [ofRatio, hlog, show e+149-23 = e+126 by omega, hround]
    rw [Nat.min_eq_left (by simp only [infiniteMagnitude]; omega)]
  rw [hratio]
  exact counts_ofMagnitude (by omega) hq.1 hq.2 hquotient.symm

theorem counts_ofInt {k : Nat} (hpos : 0 < k) (hlt : k < 2^24) : (ofInt k).Counts k := by
  have hnot : ¬ (k : Int) < 0 := by omega
  simpa [ofInt, hnot] using counts_ofRatio hpos hlt

namespace Counts

variable {x : Number} {k : Nat}

theorem isNaN_eq (h : x.Counts k) : x.isNaN = false := by
  have hfinite := h.finite
  simp only [isFinite, decide_eq_true_eq] at hfinite
  simp only [isNaN, decide_eq_false_iff_not]
  omega

theorem isInfinite_eq (h : x.Counts k) : x.isInfinite = false := by
  have hfinite := h.finite
  simp only [isFinite, decide_eq_true_eq] at hfinite
  simp only [isInfinite, decide_eq_false_iff_not]
  omega

theorem signedUnits_eq (h : x.Counts k) : x.signedUnits = k*(one : Int) := by
  rw [signedUnits, h.positive, h.units]
  push_cast
  rfl

/-- A whole number that is not zero is above it. -/
theorem above (h : x.Counts (k+1)) : (x.less zero || x.same zero) = false := by
  have hpos : 0 < x.magnitude := by
    by_contra hnot
    have hzero : x.magnitude = 0 := by omega
    have hunits := h.units
    have hsome : 0 < (k+1)*one := Nat.mul_pos (Nat.succ_pos k) (by norm_num [one])
    simp only [Number.units, significand, hzero, Nat.zero_shiftLeft, if_true,
      show (0 : Nat) < 0x800000 by norm_num] at hunits
    omega
  have horder : x.order = x.magnitude := by
    rw [order, h.positive]
    rfl
  have hzero : zero.order = 0 ∧ zero.isNaN = false := by decide
  simp only [less, same, h.isNaN_eq, hzero, horder, Bool.not_false, Bool.true_and,
    Bool.or_eq_false_iff, decide_eq_false_iff_not]
  omega

/-- One less than a whole number is the next lower one, and nothing is left of one. -/
theorem sub_one (h : x.Counts (k+1)) (hle : k+1 ≤ 2^24) :
    if k = 0 then x.sub (ofInt 1) = zero else (x.sub (ofInt 1)).Counts k := by
  have hother : (ofInt 1).neg.isNaN = false ∧ (ofInt 1).neg.isInfinite = false ∧
      (ofInt 1).neg.signedUnits = -(one : Int) := by decide +kernel
  have hsum : x.signedUnits+(ofInt 1).neg.signedUnits = k*(one : Int) := by
    rw [h.signedUnits_eq, hother.2.2]
    push_cast
    ring
  have hone : (0 : Int) < one := by norm_num [one]
  simp only [sub, add, h.isNaN_eq, h.isInfinite_eq, hother.1, hother.2.1, hsum, h.positive,
    Bool.or_self, Bool.false_eq_true, if_false, Bool.false_and]
  split
  · next hk =>
    subst hk
    simp
    rfl
  · next hk =>
    have hpos : 0 < (k : Int)*one := Int.mul_pos (by omega) hone
    rw [if_neg (by omega), decide_eq_false (by omega),
      show ((k : Int)*one).natAbs = k*one by rw [← Nat.cast_mul, Int.natAbs_natCast]]
    exact counts_ofRatio (by omega) (by omega)

end Counts

/-- The whole number that a count of passes is. -/
theorem counts_of_integral? {x : Number} {n : Int32} (h : x.integral? = some n) (hpos : 0 < n) :
    x.Counts n.toInt.toNat := by
  unfold integral? at h
  split at h
  · next hwhole =>
    simp only [Bool.and_eq_true, decide_eq_true_eq] at hwhole
    obtain ⟨hfinite, hmod⟩ := hwhole
    dsimp only at h
    generalize hi : (if x.negative = true then -((x.units/one : Nat) : Int)
      else ((x.units/one : Nat) : Int)) = i at h
    split at h
    · next hrange =>
      cases h
      have hint : (Int32.ofInt i).toInt = i :=
        Int32.toInt_ofInt_of_le (by omega) (by omega)
      have hi0 : 0 < i := by
        rw [Int32.lt_iff_toInt_lt, hint] at hpos
        exact hpos
      rw [hint]
      cases hneg : x.negative with
      | true =>
        rw [hneg] at hi
        simp only [if_true] at hi
        generalize x.units/one = q at hi
        omega
      | false =>
        rw [hneg] at hi
        simp only [Bool.false_eq_true, if_false] at hi
        refine ⟨hfinite, hneg, ?_⟩
        rw [← hi, Int.toNat_natCast, Nat.div_mul_cancel (Nat.dvd_of_mod_eq_zero hmod)]
    · cases h
  · cases h

theorem Counts.integral?_eq {x : Number} {k : Nat} (h : x.Counts k) (hlt : k < 2^31) :
    x.integral? = some (Int32.ofInt k) := by
  have hdiv : x.units/one = k := by rw [h.units, Nat.mul_div_cancel _ (by norm_num [one])]
  have hmod : x.units%one = 0 := by rw [h.units, Nat.mul_mod_left]
  simp only [integral?, h.finite, h.positive, hdiv, hmod, Bool.true_and, decide_true, if_true,
    Bool.false_eq_true, if_false]
  exact if_pos (by omega)

end RatScript.Number
