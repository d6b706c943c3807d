import Mathlib.Algebra.Group.Nat.Defs
import Mathlib.Tactic.Common

/-!
# Memory — byte memory of a 32-bit machine with little-endian words
-/

namespace AlienOS.Lib

abbrev Byte := BitVec 8
abbrev Word := BitVec 32

@[ext] structure Memory where
  byte : Word → Byte

def writeByte (mem : Memory) (a : Word) (b : Byte) : Memory :=
  ⟨fun x ↦ if x = a then b else mem.byte x⟩

def readWord (mem : Memory) (a : Word) : Word :=
  mem.byte (a + 3) ++ mem.byte (a + 2) ++ mem.byte (a + 1) ++ mem.byte a

def writeWord (mem : Memory) (a w : Word) : Memory :=
  ⟨fun x ↦
    if x = a then w.extractLsb' 0 8
    else if x = a + 1 then w.extractLsb' 8 8
    else if x = a + 2 then w.extractLsb' 16 8
    else if x = a + 3 then w.extractLsb' 24 8
    else mem.byte x⟩

theorem writeByte_self (mem : Memory) (a : Word) (b : Byte) : (writeByte mem a b).byte a = b :=
  if_pos rfl

theorem writeByte_other {mem : Memory} {a x : Word} (b : Byte) (h : x ≠ a) :
    (writeByte mem a b).byte x = mem.byte x := if_neg h

/-- A word write only changes the four bytes of its own window. -/
theorem writeWord_other {mem : Memory} {a x : Word} (w : Word)
    (h : x.toNat < a.toNat ∨ a.toNat + 4 ≤ x.toNat) (ha : a.toNat + 4 ≤ 2 ^ 32) :
    (writeWord mem a w).byte x = mem.byte x := by
  have h₀ : x ≠ a := by rintro rfl; omega
  have h₁ : x ≠ a + 1 := by rintro rfl; bv_omega
  have h₂ : x ≠ a + 2 := by rintro rfl; bv_omega
  have h₃ : x ≠ a + 3 := by rintro rfl; bv_omega
  simp only [writeWord, if_neg h₀, if_neg h₁, if_neg h₂, if_neg h₃]

@[simp] theorem readWord_writeWord (mem : Memory) (a w : Word) :
    readWord (writeWord mem a w) a = w := by
  have h₁ : a + 1 ≠ a := by bv_omega
  have h₂ : a + 2 ≠ a ∧ a + 2 ≠ a + 1 := by constructor <;> bv_omega
  have h₃ : a + 3 ≠ a ∧ a + 3 ≠ a + 1 ∧ a + 3 ≠ a + 2 := by refine ⟨?_, ?_, ?_⟩ <;> bv_omega
  simp only [readWord, writeWord, if_true, if_neg h₁, if_neg h₂.1, if_neg h₂.2, if_neg h₃.1,
    if_neg h₃.2.1, if_neg h₃.2.2]
  ext i hi
  simp only [BitVec.getElem_append, BitVec.getElem_extractLsb']
  split
  · simp [BitVec.getLsbD_eq_getElem hi]
  · split
    · rw [show 8 + (i - 8) = i by omega, BitVec.getLsbD_eq_getElem hi]
    · split
      · rw [show 16 + (i - 8 - 8) = i by omega, BitVec.getLsbD_eq_getElem hi]
      · rw [show 24 + (i - 8 - 8 - 8) = i by omega, BitVec.getLsbD_eq_getElem hi]

theorem readWord_congr {mem mem' : Memory} {a : Word} (ha : a.toNat + 4 ≤ 2 ^ 32)
    (h : ∀ x : Word, a.toNat ≤ x.toNat → x.toNat < a.toNat + 4 → mem'.byte x = mem.byte x) :
    readWord mem' a = readWord mem a := by
  have h₀ := h a (Nat.le_refl _) (by omega)
  have h₁ := h (a + 1) (by bv_omega) (by bv_omega)
  have h₂ := h (a + 2) (by bv_omega) (by bv_omega)
  have h₃ := h (a + 3) (by bv_omega) (by bv_omega)
  simp only [readWord, h₀, h₁, h₂, h₃]

theorem readWord_writeWord_other {mem : Memory} {a b : Word} (w : Word)
    (h : b.toNat + 4 ≤ a.toNat ∨ a.toNat + 4 ≤ b.toNat) (ha : a.toNat + 4 ≤ 2 ^ 32)
    (hb : b.toNat + 4 ≤ 2 ^ 32) :
    readWord (writeWord mem a w) b = readWord mem b :=
  readWord_congr hb fun x h₁ h₂ ↦ writeWord_other w (by omega) ha

/-! ## Frames -/

/-- `mem'` differs from `mem` at most at the addresses in `S`. -/
def ChangesWithin (S : Nat → Prop) (mem mem' : Memory) : Prop :=
  ∀ x : Word, ¬ S x.toNat → mem'.byte x = mem.byte x

namespace ChangesWithin

variable {S T : Nat → Prop} {mem mem' mem'' : Memory}

theorem refl (S : Nat → Prop) (mem : Memory) : ChangesWithin S mem mem := fun _ _ ↦ rfl

theorem mono (h : ChangesWithin S mem mem') (hs : ∀ x, S x → T x) : ChangesWithin T mem mem' :=
  fun x hx ↦ h x fun hS ↦ hx (hs _ hS)

theorem trans (h : ChangesWithin S mem mem') (h' : ChangesWithin S mem' mem'') :
    ChangesWithin S mem mem'' := fun x hx ↦ (h' x hx).trans (h x hx)

theorem readWord (h : ChangesWithin S mem mem') {a : Word} (ha : a.toNat + 4 ≤ 2 ^ 32)
    (hS : ∀ x, a.toNat ≤ x → x < a.toNat + 4 → ¬ S x) : readWord mem' a = readWord mem a :=
  readWord_congr ha fun x h₁ h₂ ↦ h x (hS _ h₁ h₂)

end ChangesWithin

theorem changesWithin_writeWord (mem : Memory) {a : Word} (w : Word) (ha : a.toNat + 4 ≤ 2 ^ 32) :
    ChangesWithin (fun x ↦ a.toNat ≤ x ∧ x < a.toNat + 4) mem (writeWord mem a w) :=
  fun x hx ↦ writeWord_other w (by omega) ha

/-! ## Bit fields -/

theorem getLsbD_low_mask (k i : Nat) (hi : i < 32) :
    (BitVec.ofNat 32 (2 ^ k - 1)).getLsbD i = decide (i < k) := by
  rw [BitVec.getLsbD_ofNat, decide_eq_true hi, Bool.true_and, Nat.testBit_two_pow_sub_one]

/-- Clearing the low `k` bits rounds down to a multiple of `2 ^ k`. -/
theorem toNat_and_not_low (w : Word) (k : Nat) :
    (w &&& ~~~(BitVec.ofNat 32 (2 ^ k - 1))).toNat = w.toNat / 2 ^ k * 2 ^ k := by
  have h : w &&& ~~~(BitVec.ofNat 32 (2 ^ k - 1)) = (w >>> k) <<< k := by
    ext i hi
    rw [BitVec.getElem_and, BitVec.getElem_not, BitVec.getElem_shiftLeft,
      ← BitVec.getLsbD_eq_getElem (x := BitVec.ofNat 32 _), getLsbD_low_mask k i hi]
    by_cases hk : i < k
    · simp [hk]
    · simp only [hk, decide_false, Bool.not_false, Bool.and_true, Bool.true_and]
      rw [BitVec.getElem_ushiftRight, show k + (i - k) = i by omega,
        BitVec.getLsbD_eq_getElem hi]
  have hle := Nat.div_mul_le_self w.toNat (2 ^ k)
  rw [h, BitVec.toNat_shiftLeft, BitVec.toNat_ushiftRight, Nat.shiftLeft_eq,
    Nat.shiftRight_eq_div_pow, Nat.mod_eq_of_lt (Nat.lt_of_le_of_lt hle w.isLt)]

theorem toNat_and_low (w : Word) {k : Nat} (hk : k ≤ 32) :
    (w &&& BitVec.ofNat 32 (2 ^ k - 1)).toNat = w.toNat % 2 ^ k := by
  have hp := Nat.two_pow_pos k
  have hle : 2 ^ k ≤ 2 ^ 32 := Nat.pow_le_pow_right (by decide) hk
  rw [BitVec.toNat_and, BitVec.toNat_ofNat, Nat.mod_eq_of_lt (by omega : 2 ^ k - 1 < 2 ^ 32),
    Nat.and_two_pow_sub_one_eq_mod]

/-- Keeping the low `k` bits and filling in a multiple of `2 ^ k`. -/
theorem toNat_low_or (w s : Word) {k : Nat} (hk : k ≤ 32) (hs : 2 ^ k ∣ s.toNat) :
    ((w &&& BitVec.ofNat 32 (2 ^ k - 1)) ||| s).toNat = s.toNat + w.toNat % 2 ^ k := by
  obtain ⟨q, hq⟩ := hs
  rw [BitVec.toNat_or, toNat_and_low w hk, Nat.or_comm, hq,
    ← Nat.two_pow_add_eq_or_of_lt (Nat.mod_lt _ (Nat.two_pow_pos k))]

end AlienOS.Lib
