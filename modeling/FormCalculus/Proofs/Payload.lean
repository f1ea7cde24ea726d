import Mathlib
import FormCalculus.Proofs.Commuting

/-!
Constants that are NaNs with different payloads. They are one number when it comes to computing, and
arithmetic on constants gives, from the same numbers, the same numbers again.
-/
set_option autoImplicit false

namespace FormCalculus

open Float.Model Float.Model.UnpackedFloat

theorem unpack_nan_iff (bits : BitVec Format.binary64.numBits) :
    (UnpackedFloat.unpack .binary64 bits).isNaN = true ↔
      unpackExponent bits = -1#11 ∧ unpackMantissa bits ≠ 0#52 := by
  rw [UnpackedFloat.unpack]
  by_cases exponent : unpackExponent bits = -1#11
  · rw [if_pos exponent]
    by_cases mantissa : unpackMantissa bits = 0#52
    · rw [if_pos mantissa]
      exact ⟨fun nan => Bool.noConfusion nan, fun both => absurd mantissa both.2⟩
    · rw [if_neg mantissa]
      exact ⟨fun _ => ⟨exponent, mantissa⟩, fun _ => rfl⟩
  · rw [if_neg exponent]
    refine ⟨fun nan => ?_, fun both => absurd both.1 exponent⟩
    split at nan
    · split at nan <;> cases nan
    · cases nan

/-- There is only one NaN among the numbers that are computed with. -/
theorem nan_unique {x y : Float} (left : x.isNaN = true) (right : y.isNaN = true) : x = y := by
  have packed {x : Float} (nan : x.isNaN = true) :
      x.toModel.toBits.toBitVec = packedNaN .binary64 :=
    have ⟨exponent, mantissa⟩ := (unpack_nan_iff _).mp nan
    x.toModel.valid.eq_packedNaN exponent mantissa
  obtain ⟨⟨bits, valid⟩⟩ := x
  obtain ⟨⟨bits', valid'⟩⟩ := y
  obtain rfl : bits = bits' := UInt64.eq_of_toBitVec_eq ((packed left).trans (packed right).symm)
  rfl

/-- What is no NaN is none after it was stored either. -/
theorem repacked_nan (u : UnpackedFloat) :
    (UnpackedFloat.unpack .binary64 (UnpackedFloat.pack .binary64 u)).isNaN = u.isNaN := by
  cases u with
  | notANumber => rfl
  | infinity s => cases s <;> rfl
  | zero s => cases s <;> rfl
  | finite s m e positive =>
      refine eq_false_of_ne_true fun nan => ?_
      obtain ⟨exponent, mantissa⟩ := (unpack_nan_iff _).mp nan
      rw [UnpackedFloat.pack] at exponent mantissa
      simp only at exponent mantissa
      split at exponent
      · rename_i large
        rw [if_pos large, packedInfinity, unpackMantissa_packComponents] at mantissa
        exact mantissa rfl
      · split at exponent
        · rw [unpackExponent_packComponents] at exponent
          have := congrArg BitVec.toNat exponent
          simp at this
          omega
        · rw [unpackExponent_packComponents] at exponent
          exact absurd exponent (by decide)

theorem exponent_or (b c : BitVec Format.binary64.numBits) :
    unpackExponent (b ||| c) = unpackExponent b ||| unpackExponent c := by
  simp [unpackExponent, BitVec.extractLsb, BitVec.extractLsb'_or]

theorem mantissa_or (b c : BitVec Format.binary64.numBits) :
    unpackMantissa (b ||| c) = unpackMantissa b ||| unpackMantissa c := by
  simp [unpackMantissa, BitVec.extractLsb, BitVec.extractLsb'_or]

namespace Binary64

variable {x x' y y' : Binary64} {op op' : Float → Float → Float}

/-- The bits as the fields of a double. -/
def fields (x : Binary64) : BitVec Format.binary64.numBits := x.bits.toBitVec

theorem nan_iff (x : Binary64) :
    x.toFloat.isNaN = true ↔ unpackExponent x.fields = -1#11 ∧ unpackMantissa x.fields ≠ 0#52 := by
  rw [← unpack_nan_iff, ← repacked_nan]
  rfl

/-- The bit that quiets a NaN keeps it one. -/
theorem quieted_nan (nan : x.toFloat.isNaN = true) : x.quieted.toFloat.isNaN = true := by
  rw [nan_iff] at nan ⊢
  have quiet : x.quieted.fields = x.fields ||| 0x0008000000000000#64 := rfl
  rw [quiet, exponent_or, mantissa_or, nan.1]
  refine ⟨by decide, fun none => ?_⟩
  have bit := congrArg (fun m => BitVec.getLsbD m 51) none
  simp at bit
  exact absurd bit.2 (by decide)

theorem combine_nan (nan : (op x.toFloat y.toFloat).isNaN = true) :
    (combine op x y).toFloat.isNaN = true := by
  unfold combine
  simp only [nan, if_true]
  split
  · exact quieted_nan ‹_›
  · split
    · exact quieted_nan ‹_›
    · decide

/-- Where the operations agree on the numbers, they give constants that are the same number. -/
theorem combine_same (same : op x.toFloat y.toFloat = op' x'.toFloat y'.toFloat) :
    (combine op x y).toFloat = (combine op' x' y').toFloat := by
  cases nan : (op x.toFloat y.toFloat).isNaN with
  | true => exact nan_unique (combine_nan nan) (combine_nan (same ▸ nan))
  | false =>
      have nan' := nan
      rw [same] at nan'
      unfold combine
      simp only [nan', same, Bool.false_eq_true, if_false]

end Binary64

namespace Constant

/-- The same constant, or two spellings of one number. -/
def Alike (c d : Constant) : Prop :=
  c = d ∨ ∃ x y : Binary64, c = .real x ∧ d = .real y ∧ x.toFloat = y.toFloat

variable {a a' b b' c d : Constant} {op : Operation}

theorem Alike.number (alike : Alike c d) : c.toBinary64.toFloat = d.toBinary64.toFloat := by
  obtain rfl | ⟨x, y, rfl, rfl, same⟩ := alike
  · rfl
  · exact same

theorem Alike.one (alike : Alike c d) : c.isOne = d.isOne := by
  obtain rfl | ⟨x, y, rfl, rfl, same⟩ := alike
  · rfl
  · simp only [isOne, Binary64.isOne, same]

theorem of_real_alike {x y : Binary64} (same : x.toFloat = y.toFloat) :
    Alike (ofReal x) (ofReal y) := by
  unfold ofReal Binary64.isZero
  rw [same]
  split
  · exact .inl rfl
  · exact .inr ⟨x, y, rfl, rfl, same⟩

theorem apply_alike (left : Alike a a') (right : Alike b b') :
    Alike (op.apply a b) (op.apply a' b') := by
  have doubles : Alike (ofReal (Binary64.combine op.approximate a.toBinary64 b.toBinary64))
      (ofReal (Binary64.combine op.approximate a'.toBinary64 b'.toBinary64)) :=
    of_real_alike (Binary64.combine_same (by rw [left.number, right.number]))
  obtain rfl | ⟨x, y, rfl, rfl, _⟩ := left
  · obtain rfl | ⟨z, w, rfl, rfl, _⟩ := right
    · exact .inl rfl
    · cases a <;> exact doubles
  · exact doubles

theorem apply_swapped (commutes : op.Commutes) : Alike (op.apply a b) (op.apply b a) := by
  have doubles : Alike (ofReal (Binary64.combine op.approximate a.toBinary64 b.toBinary64))
      (ofReal (Binary64.combine op.approximate b.toBinary64 a.toBinary64)) :=
    of_real_alike (Binary64.combine_same (approximate_comm commutes _ _))
  cases a <;> cases b <;> simp only [Operation.apply, exact_comm commutes] <;>
    first | exact doubles | (split <;> first | exact .inl rfl | exact doubles)

theorem root_alike (alike : Alike c d) : c.root? = d.root? := by
  unfold root?
  rw [alike.number]

end Constant

end FormCalculus
