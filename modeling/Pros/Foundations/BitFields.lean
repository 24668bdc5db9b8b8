import Mathlib.Data.BitVec

/-!
# Fields of words

A field of a word is read with a mask and a shift. A mask that has all bits of the field leaves it as it is.
-/

namespace BitField

variable {w v n : ℕ} {x mask : BitVec w}

theorem setWidth_and (h : ∀ i < v, mask.getLsbD i = true) : (x &&& mask).setWidth v = x.setWidth v := by
  apply BitVec.eq_of_getLsbD_eq
  intro i hi
  rw [BitVec.getLsbD_setWidth, BitVec.getLsbD_setWidth, BitVec.getLsbD_and, h i hi, Bool.and_true]

/-- The mask first and then the shift. -/
theorem setWidth_and_ushiftRight (h : ∀ i < v, mask.getLsbD (n + i) = true) :
    ((x &&& mask) >>> n).setWidth v = x.extractLsb' n v := by
  rw [BitVec.ushiftRight_and_distrib, setWidth_and fun i hi => ?_, BitVec.setWidth_ushiftRight_eq_extractLsb]
  rw [BitVec.getLsbD_ushiftRight, h i hi]

/-- The shift first and then the mask. -/
theorem setWidth_ushiftRight_and (h : ∀ i < v, mask.getLsbD i = true) :
    ((x >>> n) &&& mask).setWidth v = x.extractLsb' n v := by
  rw [setWidth_and h, BitVec.setWidth_ushiftRight_eq_extractLsb]

/-- The field at the bottom. -/
theorem setWidth_and_eq_extractLsb' (hv : v ≤ w) (h : ∀ i < v, mask.getLsbD i = true) :
    (x &&& mask).setWidth v = x.extractLsb' 0 v := by
  rw [setWidth_and h, BitVec.setWidth_eq_extractLsb' hv]

end BitField
