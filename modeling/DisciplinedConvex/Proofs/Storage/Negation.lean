import Mathlib
import DisciplinedConvex.Proofs.Number

/-! # Negated numbers

* `Number.ofParts` is the number that a sign bit, an exponent and a significand stand for; it is
  read where the parts are stored (`Number.unpack_parts`), and is read again after it was stored
  (`Number.unpack_pack_ofParts`).
* `Number.unpack_neg` says that a negation changes the sign and nothing else, and
  `Number.unpack_abs` that an absolute value drops it.
-/

namespace DisciplinedConvex
set_option autoImplicit false

open Float.Model (Format UnpackedFloat)
open Float.Model.UnpackedFloat (packComponents unpackSign unpackMantissa unpackExponent isNaNBits)

namespace Number

/-! ## The parts of a stored number -/

theorem one_append_pos (m : BitVec 52) : 0 < (1#1 ++ m).toNat := by
  rw [toNat_one_append]
  omega

/-- The number with a given sign bit, exponent and significand, as they are stored. -/
def ofParts (s : UnpackedFloat.Sign) (e : BitVec 11) (m : BitVec 52) : UnpackedFloat :=
  if e = -1#11 then if m = 0#52 then .infinity s else .notANumber
  else if e = 0#11 then
    if h : m = 0#52 then .zero s
    else .finite s m.toNat (-1074) (BitVec.toNat_pos_of_ne_zero h)
  else .finite s (1#1 ++ m).toNat (e.toNat - 1075) (one_append_pos m)

theorem unpack_eq_ofParts (b : BitVec 64) :
    UnpackedFloat.unpack .binary64 b = ofParts (.ofBitVec (@unpackSign .binary64 b))
      (@unpackExponent .binary64 b) (@unpackMantissa .binary64 b) := by
  have hbias : (Format.binary64.exponentBias : Int) + Format.binary64.mantissaBitsWithoutImplicit =
      1075 := by rfl
  unfold UnpackedFloat.unpack ofParts
  simp only [hbias]
  split
  · rfl
  · split
    case isTrue h =>
      rw [h]
      rfl
    case isFalse => rfl

theorem unpack_parts (s : UnpackedFloat.Sign) (e : BitVec 11) (m : BitVec 52) :
    UnpackedFloat.unpack .binary64 (packComponents .binary64 s e m) = ofParts s e m := by
  rw [unpack_eq_ofParts, UnpackedFloat.unpackSign_packComponents,
    UnpackedFloat.unpackExponent_packComponents, UnpackedFloat.unpackMantissa_packComponents,
    UnpackedFloat.Sign.ofBitVec_toBitVec]

/-- Only the significand of what is not a number is lost when it is stored. -/
theorem unpack_pack_ofParts (s : UnpackedFloat.Sign) (e : BitVec 11) (m : BitVec 52) :
    UnpackedFloat.unpack .binary64 (UnpackedFloat.pack .binary64 (ofParts s e m)) =
      ofParts s e m := by
  rw [← unpack_parts, UnpackedFloat.pack_unpack]
  split
  case isTrue hnan =>
    obtain ⟨he, hm⟩ : e = -1#11 ∧ m ≠ 0#52 := by
      rwa [isNaNBits, decide_eq_true_eq, UnpackedFloat.unpackExponent_packComponents,
        UnpackedFloat.unpackMantissa_packComponents] at hnan
    rw [UnpackedFloat.unpack_packedNaN, unpack_parts, ofParts, if_pos he, if_neg hm]
  case isFalse => rfl

/-! ## The sign -/

theorem neg_ofParts (s : UnpackedFloat.Sign) (e : BitVec 11) (m : BitVec 52) :
    (ofParts s e m).neg = ofParts (-s) e m := by
  unfold ofParts
  split
  · split <;> rfl
  · split
    · split <;> rfl
    · rfl

theorem abs_ofParts (s : UnpackedFloat.Sign) (e : BitVec 11) (m : BitVec 52) :
    (ofParts s e m).abs = ofParts .positive e m := by
  unfold ofParts
  split
  · split <;> rfl
  · split
    · split <;> rfl
    · rfl

/-- Only the sign of the stored form changes. -/
theorem unpack_neg (v : Float) : (-v).toModel.unpack = v.toModel.unpack.neg := by
  change UnpackedFloat.unpack .binary64 (UnpackedFloat.pack .binary64 v.toModel.unpack.neg) = _
  rw [Float.Model.unpack, unpack_eq_ofParts v.toModel.toBits.toBitVec, neg_ofParts,
    unpack_pack_ofParts]

/-- Only the sign of the stored form is dropped. -/
theorem unpack_abs (v : Float) : v.abs.toModel.unpack = v.toModel.unpack.abs := by
  change UnpackedFloat.unpack .binary64 (UnpackedFloat.pack .binary64 v.toModel.unpack.abs) = _
  rw [Float.Model.unpack, unpack_eq_ofParts v.toModel.toBits.toBitVec, abs_ofParts,
    unpack_pack_ofParts]

theorem neg_beq_zero (v : Float) : (-v == 0) = (v == 0) := by
  change (-v).toModel.unpack.beq (0 : Float).toModel.unpack =
    v.toModel.unpack.beq (0 : Float).toModel.unpack
  rw [unpack_neg]
  cases v.toModel.unpack with
  | infinity s => cases s <;> rfl
  | notANumber => rfl
  | zero s => rfl
  | finite s m e h => cases s <;> rfl

theorem zero_le_neg_iff (v : Float) : 0 ≤ -v ↔ v ≤ 0 := by
  change decide ((0 : Float).toModel.unpack.le (-v).toModel.unpack = true) = true ↔
    decide (v.toModel.unpack.le (0 : Float).toModel.unpack = true) = true
  rw [unpack_neg, decide_eq_true_eq, decide_eq_true_eq]
  cases v.toModel.unpack with
  | infinity s => cases s <;> decide
  | notANumber => rfl
  | zero s => exact iff_of_true rfl rfl
  | finite s m e h => cases s <;> exact Iff.rfl

theorem zero_le_of_beq_zero {v : Float} (h : (v == 0) = true) : 0 ≤ v := by
  change v.toModel.unpack.beq (0 : Float).toModel.unpack = true at h
  change decide ((0 : Float).toModel.unpack.le v.toModel.unpack = true) = true
  rw [decide_eq_true_eq]
  cases hv : v.toModel.unpack with
  | infinity s =>
    rw [hv] at h
    cases s <;> cases h
  | notANumber =>
    rw [hv] at h
    cases h
  | zero s => rfl
  | finite s m e hm =>
    rw [hv] at h
    cases s <;> cases h

end Number

end DisciplinedConvex
