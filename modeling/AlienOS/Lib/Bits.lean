import Mathlib.Algebra.Group.Nat.Defs
import Mathlib.Tactic.Common

/-!
# Bits — fields packed into a machine word

A field is the `n` bits from `lo` on; it is read with `BitVec.extractLsb'`. A word that is the `or` of
its fields is read one field at a time.
-/

namespace AlienOS.Lib

variable {w lo n lo' n' k : Nat} {x : BitVec w}

/-- All bits of a field. -/
def fieldMask (w lo n : Nat) : BitVec w := BitVec.ofNat w (2 ^ n - 1) <<< lo

theorem getLsbD_fieldMask (w lo n i : Nat) :
    (fieldMask w lo n).getLsbD i = decide (i < w ∧ lo ≤ i ∧ i < lo + n) := by
  unfold fieldMask
  simp only [BitVec.getLsbD_shiftLeft, BitVec.getLsbD_ofNat, Nat.testBit_two_pow_sub_one]
  grind

/-- What lies inside the field is kept. -/
theorem extract_mask (h : lo ≤ lo') (h' : lo' + n' ≤ lo + n) (hw : lo + n ≤ w) :
    (x &&& fieldMask w lo n).extractLsb' lo' n' = x.extractLsb' lo' n' := by
  ext i hi
  have hbit := getLsbD_fieldMask w lo n (lo' + i)
  rw [BitVec.getElem_extractLsb', BitVec.getElem_extractLsb', BitVec.getLsbD_and, hbit,
    decide_eq_true (by omega), Bool.and_true]

/-- Another field of it is empty. -/
theorem extract_mask_apart (h : lo' + n' ≤ lo ∨ lo + n ≤ lo') :
    (x &&& fieldMask w lo n).extractLsb' lo' n' = 0 := by
  ext i hi
  have hbit := getLsbD_fieldMask w lo n (lo' + i)
  rw [BitVec.getElem_extractLsb', BitVec.getLsbD_and, hbit, decide_eq_false (by omega),
    Bool.and_false]
  simp

theorem extract_shiftLeft (h : k ≤ lo) (hw : lo + n ≤ w) :
    (x <<< k).extractLsb' lo n = x.extractLsb' (lo - k) n := by
  ext i hi
  have hle : ¬ lo + i < k := by omega
  have hsub : lo + i - k = lo - k + i := by omega
  simp only [BitVec.getElem_extractLsb', BitVec.getLsbD_shiftLeft, hsub]
  simp [hle, show lo + i < w by omega]

theorem extract_shiftLeft_below (h : lo + n ≤ k) : (x <<< k).extractLsb' lo n = 0 := by
  ext i hi
  simp only [BitVec.getElem_extractLsb', BitVec.getLsbD_shiftLeft]
  simp [show lo + i < k by omega]

theorem extract_shiftRight : (x >>> k).extractLsb' lo n = x.extractLsb' (lo + k) n := by
  ext i hi
  have hadd : k + (lo + i) = lo + k + i := by omega
  rw [BitVec.getElem_extractLsb', BitVec.getElem_extractLsb', BitVec.getLsbD_ushiftRight, hadd]

/-- Above its own width a widened word is empty. -/
theorem extract_setWidth_above (h : w ≤ lo) : (x.setWidth k).extractLsb' lo n = 0 := by
  ext i hi
  rw [BitVec.getElem_extractLsb', BitVec.getLsbD_setWidth, BitVec.getLsbD_of_ge x _ (by omega),
    Bool.and_false]
  simp

end AlienOS.Lib
