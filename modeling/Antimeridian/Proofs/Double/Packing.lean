import Antimeridian.Double.Order
import Mathlib

/-!
# The parts of a double

The operations on doubles take the word of a double apart, compute with the sign, mantissa and
exponent, and put a word together again.  `view` is the double taken apart.  What is found there is
canonical, and a canonical value survives being put together, so that laws of the parts are laws of
the doubles.
-/

namespace Antimeridian.Double
open Float.Model (UnpackedFloat Format)
open Float.Model.UnpackedFloat

/-- A double taken apart. -/
def view (x : Float) : UnpackedFloat := x.toModel.unpack

/-- The values that the word of a double can hold: a mantissa of 53 digits whose first digit is one,
unless the exponent is the least. -/
def Canonical : UnpackedFloat → Prop
  | .finite _ m e _ => m < 2 ^ 53 ∧ -1074 ≤ e ∧ e ≤ 971 ∧ (2 ^ 52 ≤ m ∨ e = -1074)
  | _ => True

theorem leadingBit_append (m : BitVec 52) : (1#1 ++ m).toNat = 2 ^ 52 + m.toNat := by
  have joined := Nat.two_pow_add_eq_or_of_lt m.isLt 1
  rw [Nat.mul_one] at joined
  rw [BitVec.toNat_append, joined]
  rfl

theorem exponent_lt_of_ne_ones {e : BitVec 11} (h : e ≠ -1#11) : e.toNat < 2047 := by
  have bound := e.isLt
  have differs : e.toNat ≠ 2047 := by
    intro equal
    exact h (BitVec.eq_of_toNat_eq (by simpa using equal))
  omega

/-- Taking a word apart gives a canonical value. -/
theorem canonical_unpack (b : BitVec 64) : Canonical (unpack .binary64 b) := by
  have mantissa : (@unpackMantissa .binary64 b).toNat < 2 ^ 52 := BitVec.isLt _
  have bias : (Format.binary64.exponentBias : Int) = 1023 := by decide
  simp only [unpack]
  split
  · split <;> trivial
  · rename_i ordinary
    have exponent := exponent_lt_of_ne_ones ordinary
    split
    · rename_i least
      split
      · trivial
      · simp only [Canonical, least, bias]
        refine ⟨by omega, ?_, ?_, Or.inr ?_⟩ <;> decide
    · rename_i normal
      have positive : (@unpackExponent .binary64 b).toNat ≠ 0 := by
        intro zero
        exact normal (BitVec.eq_of_toNat_eq (by simpa using zero))
      simp only [Canonical, leadingBit_append, bias]
      refine ⟨by omega, by omega, by omega, Or.inl (by omega)⟩

@[simp] theorem canonical_view (x : Float) : Canonical (view x) := canonical_unpack _

/-- A word of sign, exponent and mantissa fields taken apart again. -/
theorem unpack_packComponents (s : Sign) (e : BitVec 11) (m : BitVec 52) :
    unpack .binary64 (packComponents .binary64 s e m) =
      if e = -1#11 then (if m = 0#52 then .infinity s else .notANumber)
      else if e = 0#11 then
        (if h : m = 0#52 then .zero s
        else .finite s m.toNat (-1074) (by simpa [BitVec.toNat_pos, BitVec.pos_iff_ne_zero]))
      else .finite s (1#1 ++ m).toNat ((e.toNat : Int) - 1075) (by rw [leadingBit_append]; omega) := by
  have bias : (Format.binary64.exponentBias : Int) = 1023 := by decide
  simp only [unpack, unpackMantissa_packComponents, unpackExponent_packComponents,
    unpackSign_packComponents, Sign.ofBitVec_toBitVec, bias]
  split
  · rfl
  · split
    · subst e; rfl
    · rfl

/-- Putting a canonical value together loses nothing. -/
theorem unpack_pack {u : UnpackedFloat} (canonical : Canonical u) :
    unpack .binary64 (pack .binary64 u) = u := by
  cases u with
  | infinity s => simp [pack, packedInfinity, unpack_packComponents]
  | notANumber => simp [pack, packedNaN, unpack_packComponents]
  | zero s => simp [pack, packedZero, unpack_packComponents]
  | finite s m e positive =>
    obtain ⟨digits, low, high, leading⟩ := canonical
    have bias : (Format.binary64.exponentBias : Int) = 1023 := by decide
    have digitCount : Format.binary64.mantissaBits = 53 := by decide
    obtain ⟨field, fieldEq⟩ : ∃ field : Nat, (field : Int) = e + 1075 :=
      ⟨(e + 1075).toNat, by omega⟩
    have biased : (e + 1023 + (52 : Nat)).toNat = field := by omega
    simp only [pack, bias, digitCount, biased]
    rw [if_neg (by omega)]
    by_cases normal : 2 ^ 52 ≤ m
    · have log : m.log2 = 52 := by
        have lower := (Nat.le_log2 positive.ne').2 normal
        have upper := (Nat.log2_lt positive.ne').2 digits
        omega
      have fieldNat : (BitVec.ofNat 11 field).toNat = field := by
        rw [BitVec.toNat_ofNat, Nat.mod_eq_of_lt (by omega)]
      have notOnes : BitVec.ofNat 11 field ≠ -1#11 := by
        intro equal
        have := congrArg BitVec.toNat equal
        rw [fieldNat] at this
        simp at this
        omega
      have notZero : BitVec.ofNat 11 field ≠ 0#11 := by
        intro equal
        have := congrArg BitVec.toNat equal
        rw [fieldNat] at this
        simp at this
        omega
      have mantissa : (1#1 ++ BitVec.ofNat 52 m).toNat = m := by
        rw [leadingBit_append, BitVec.toNat_ofNat]
        omega
      rw [if_pos (by omega), unpack_packComponents, if_neg notOnes, if_neg notZero]
      simp only [mantissa, fieldNat, fieldEq]
      congr 1
      omega
    · have log : m.log2 < 52 := (Nat.log2_lt positive.ne').2 (by omega)
      have mantissa : (BitVec.ofNat 52 m).toNat = m := by
        rw [BitVec.toNat_ofNat, Nat.mod_eq_of_lt (by omega)]
      have notZero : BitVec.ofNat 52 m ≠ 0#52 := by
        intro equal
        have := congrArg BitVec.toNat equal
        rw [mantissa] at this
        simp at this
        omega
      rw [if_neg (by omega), unpack_packComponents, if_neg (by decide), if_pos rfl,
        dif_neg notZero]
      simp only [mantissa]
      congr 1
      omega

/-! ## Operations -/

/-- A canonical value is what is seen of the double it is packed into. -/
theorem view_ofModel_pack {u : UnpackedFloat} (canonical : Canonical u) :
    view (.ofModel (Float.Model.pack u)) = u := unpack_pack canonical

theorem canonical_neg {u : UnpackedFloat} (canonical : Canonical u) : Canonical u.neg := by
  cases u <;> exact canonical

theorem canonical_abs {u : UnpackedFloat} (canonical : Canonical u) : Canonical u.abs := by
  cases u <;> exact canonical

@[simp] theorem view_neg (x : Float) : view (-x) = (view x).neg :=
  view_ofModel_pack (canonical_neg (canonical_view x))

@[simp] theorem view_abs (x : Float) : view x.abs = (view x).abs :=
  view_ofModel_pack (canonical_abs (canonical_view x))

end Antimeridian.Double
